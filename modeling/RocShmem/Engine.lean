import RocShmem.Progress
import Mathlib.Data.List.Nodup

/-!
# The engine as a state machine

Producers post descriptors at any time; the progress thread alone runs `submitRequestsToMPI`
(its unlocked test, then its locked pop and the dispatch, which calls `quiet` for a fence, quiet
or finalize) and `progress`. A step is
one of these, taken from any state where it is enabled: queue ids lie in `[0, num_queues)`,
and `MPI_Testsome` reports distinct positions among the first `INDICES_SIZE` requests.

* `Engine.step`, `Engine.run`, `Reachable`;
* `putThenQuiet`, a run in which a quiet waits for a put;
* `dispatch_cases`: what a dispatch can do, once for all the invariants of the engine;
* `submitRequestsToMPI_ok`: what a successful `submitRequestsToMPI` does.
-/

namespace RocShmem

/-- What can happen next. -/
inductive Action
  /-- A producer's `insertRequest`. -/
  | insert (e : QueueElement) (queueId : ℤ)
  /-- The unlocked test at the start of `submitRequestsToMPI`. -/
  | check
  /-- The locked pop of `submitRequestsToMPI` and the dispatch. -/
  | submit
  /-- A call of `progress`, `MPI_Testsome` reporting the requests at `indices`. -/
  | progress (indices : List ℕ)

namespace Engine

/-- One step, `none` when it is not enabled or ends the process. -/
def step (s : Engine) : Action → Option Engine
  | .insert e w =>
    if 0 ≤ w ∧ w < s.numQueues then some { s with queue := s.queue.insertRequest e w } else none
  | .check => if s.queue.checked = false then some { s with queue := s.queue.check } else none
  | .submit => if s.queue.checked = true then s.submitRequestsToMPI.toOption else none
  | .progress S =>
    if s.queue.checked = false ∧ S.Nodup ∧ ∀ i ∈ S, i < min s.reqVec.length indicesSize then
      some (s.progress S)
    else none

/-- A sequence of steps. -/
def run (s : Engine) : List Action → Option Engine
  | [] => some s
  | a :: as => (s.step a).bind (run · as)

end Engine

theorem eq_ok_of_toOption {ε α : Type} {x : Except ε α} {a : α} (h : x.toOption = some a) :
    x = .ok a := by
  cases x <;> simp_all [Except.toOption]

/-- The states the engine reaches from `initTransport`. -/
inductive Reachable : Engine → Prop
  | init (numQueues worldSize : ℕ) (myPe : ℤ) : Reachable (initTransport numQueues worldSize myPe)
  | step {s s' : Engine} {a : Action} : Reachable s → s.step a = some s' → Reachable s'

theorem Reachable.run {s s' : Engine} {as : List Action} (hs : Reachable s)
    (h : s.run as = some s') : Reachable s' := by
  induction as generalizing s with
  | nil => cases h; exact hs
  | cons a as ih =>
    simp only [Engine.run, Option.bind_eq_some] at h
    obtain ⟨s₁, h₁, h₂⟩ := h
    exact ih (hs.step h₁) h₂

theorem Reachable.of_run {s : Engine} {as : List Action} (hs : Reachable s)
    (h : (s.run as).isSome) : Reachable ((s.run as).get h) :=
  hs.run (Option.some_get h).symm

/-- A put and then a quiet posted by thread 3 of queue 0, each taken off the queue and
dispatched: the quiet waits for the put. -/
def putThenQuiet : List Action :=
  [.insert ⟨.put, 1, 8, 0, 0, 3, .sum, .long, 0, 0, 0, 0, ⟨0, []⟩⟩ 0, .check, .submit,
    .insert ⟨.quiet, 0, 0, 0, 0, 3, .sum, .long, 0, 0, 0, 0, ⟨0, []⟩⟩ 0, .check, .submit]

/-- The transport of one queue on PE 0 of two after `putThenQuiet`. -/
def putThenQuietState : Engine := ((initTransport 1 2 0).run putThenQuiet).get (by decide)

theorem putThenQuietState_reachable : Reachable putThenQuietState :=
  (Reachable.init 1 2 0).of_run _

/-- After `putThenQuiet`, `MPI_Testsome` reports the put complete. -/
def putThenQuietDone : Engine := (putThenQuietState.run [.progress [0]]).get (by decide)

namespace Engine

/-! ### What a dispatch does -/

theorem reduction_ok {s s' : Engine} {dst src : Ptr} {size w start lps sz : ℤ} {op : RocShmemOp}
    {ty : RoNetTypes} {t : ℤ} {b : Bool}
    (h : s.reduction dst src size w start lps sz op ty t b = .ok s') :
    ∃ c call, s' = { s with comms := c }.track call ⟨t, w, b, 0, false⟩ := by
  unfold reduction at h
  cases h₁ : convertOp op <;> cases h₂ : convertType ty <;>
    cases h₃ : createComm s.comms ⟨start, lps, sz⟩ <;>
    simp only [h₁, h₂, h₃, bind, Except.bind, pure, Except.pure, Except.ok.injEq, reduceCtorEq] at h
  exact ⟨_, _, h.symm⟩

theorem broadcast_ok {s s' : Engine} {dst src : Ptr} {size w start lps sz root : ℤ}
    {ty : RoNetTypes} {t : ℤ} {b : Bool}
    (h : s.broadcast dst src size w start lps sz root ty t b = .ok s') :
    ∃ c call, s' = { s with comms := c }.track call ⟨t, w, b, 0, false⟩ := by
  unfold broadcast at h
  cases h₂ : convertType ty <;> cases h₃ : createComm s.comms ⟨start, lps, sz⟩ <;>
    simp only [h₂, h₃, bind, Except.bind, pure, Except.pure, reduceCtorEq] at h
  split at h
  · cases h
  · exact ⟨_, _, (Except.ok.inj h).symm⟩

theorem teamReduction_ok {s s' : Engine} {dst src : Ptr} {size w : ℤ} {team : Comm}
    {op : RocShmemOp} {ty : RoNetTypes} {t : ℤ} {b : Bool}
    (h : s.teamReduction dst src size w team op ty t b = .ok s') :
    ∃ call, s' = s.track call ⟨t, w, b, 0, false⟩ := by
  unfold teamReduction at h
  cases h₁ : convertOp op <;> cases h₂ : convertType ty <;>
    simp only [h₁, h₂, bind, Except.bind, pure, Except.pure, Except.ok.injEq, reduceCtorEq] at h
  exact ⟨_, h.symm⟩

theorem teamBroadcast_ok {s s' : Engine} {dst src : Ptr} {size w : ℤ} {team : Comm} {root : ℤ}
    {ty : RoNetTypes} {t : ℤ} {b : Bool}
    (h : s.teamBroadcast dst src size w team root ty t b = .ok s') :
    ∃ call, s' = s.track call ⟨t, w, b, 0, false⟩ := by
  unfold teamBroadcast at h
  cases h₂ : convertType ty <;>
    simp only [h₂, bind, Except.bind, pure, Except.pure, reduceCtorEq] at h
  split at h
  · cases h
  · exact ⟨_, (Except.ok.inj h).symm⟩

theorem amoFOP_ok {s s' : Engine} {w t : ℤ} {op : RocShmemOp} (h : s.amoFOP w t op = .ok s') :
    s' = s.setStatus w t .atomic := by
  unfold amoFOP at h
  cases h₁ : getMpiOp op <;>
    simp only [h₁, bind, Except.bind, pure, Except.pure, Except.ok.injEq, reduceCtorEq] at h
  exact h.symm

/-- **What a dispatch does.** A descriptor that issues a request adds exactly one tracked
request of its queue id (possibly resolving a communicator or taking a buffer first); a fence,
quiet or finalize is `quiet`; an atomic sets its flag and tracks nothing. -/
theorem dispatch_cases {s s' : Engine} {e : QueueElement} {w : ℤ} (h : s.dispatch e w = .ok s') :
    (e.type.issuesRequest = true ∧ ∃ c b call p, p.wgId = w ∧ p.threadId = e.threadId ∧
      s' = { s with comms := c, nextBuffer := b }.track call p) ∨
    (e.type.isQuiet = true ∧ s' = s.quiet w e.threadId) ∨
    (e.type.issuesRequest = false ∧ e.type.isQuiet = false ∧
      s' = s.setStatus w e.threadId .atomic) := by
  unfold dispatch at h
  cases he : e.type <;> simp only [he, Except.ok.injEq, reduceCtorEq] at h
  case put | p | get | putNbi | getNbi | barrierAll =>
    exact .inl ⟨rfl, _, _, _, _, rfl, rfl, h.symm⟩
  case fence | quiet | finalize => exact .inr (.inl ⟨rfl, h.symm⟩)
  case amoFcas => exact .inr (.inr ⟨rfl, rfl, h.symm⟩)
  case amoFop => exact .inr (.inr ⟨rfl, rfl, amoFOP_ok h⟩)
  case toAll =>
    obtain ⟨c, call, rfl⟩ := reduction_ok h; exact .inl ⟨rfl, c, _, call, _, rfl, rfl, rfl⟩
  case broadcast =>
    obtain ⟨c, call, rfl⟩ := broadcast_ok h; exact .inl ⟨rfl, c, _, call, _, rfl, rfl, rfl⟩
  case teamToAll =>
    obtain ⟨call, rfl⟩ := teamReduction_ok h; exact .inl ⟨rfl, _, _, call, _, rfl, rfl, rfl⟩
  case teamBroadcast =>
    obtain ⟨call, rfl⟩ := teamBroadcast_ok h; exact .inl ⟨rfl, _, _, call, _, rfl, rfl, rfl⟩

theorem dispatch_frame {s d : Engine} {e : QueueElement} {w : ℤ} (h : s.dispatch e w = .ok d) :
    d.numQueues = s.numQueues ∧ d.queue = s.queue ∧ d.issued = s.issued := by
  rcases dispatch_cases h with ⟨-, c, b, call, p, -, -, rfl⟩ | ⟨-, rfl⟩ | ⟨-, -, rfl⟩
  · exact ⟨rfl, rfl, rfl⟩
  · unfold quiet; split <;> exact ⟨rfl, rfl, rfl⟩
  · exact ⟨rfl, rfl, rfl⟩

/-- What a successful `submitRequestsToMPI` does: it pops a descriptor and its queue id,
dispatches it, and records the request it started. -/
theorem submitRequestsToMPI_ok {s s' : Engine} (h : s.submitRequestsToMPI = .ok s') :
    ∃ e w Q d, s.queue.pop = some ((e, w), Q) ∧ dispatch { s with queue := Q } e w = .ok d ∧
      s' = { d with issued := d.issued ++ [if e.type.issuesRequest then some s.nextRequest else none] } := by
  unfold submitRequestsToMPI at h
  split at h
  · cases h
  · rename_i e w Q hp
    cases hd : dispatch { s with queue := Q } e w with
    | error => simp [hd, bind, Except.bind] at h
    | ok d =>
      simp only [hd, bind, Except.bind, pure, Except.pure, Except.ok.injEq] at h
      exact ⟨e, w, Q, d, hp, hd, h.symm⟩

/-- **What a step does**, guards included: a producer's insert on a queue in range, the
consumer's unlocked test, the pop and dispatch after it, or a `progress` call whose reported
positions are distinct and below both `req_vec.size()` and `INDICES_SIZE`. -/
theorem step_cases {s s' : Engine} {a : Action} (hs : s.step a = some s') :
    (∃ e, ∃ w : ℤ, (0 ≤ w ∧ w < s.numQueues) ∧ s' = { s with queue := s.queue.insertRequest e w }) ∨
    (s.queue.checked = false ∧ s' = { s with queue := s.queue.check }) ∨
    (∃ e w Q d, s.queue.checked = true ∧ s.queue.pop = some ((e, w), Q) ∧
      dispatch { s with queue := Q } e w = .ok d ∧
      s' = { d with issued := d.issued ++ [if e.type.issuesRequest then some s.nextRequest else none] }) ∨
    (∃ S, s.queue.checked = false ∧ S.Nodup ∧ (∀ i ∈ S, i < s.reqVec.length ∧ i < indicesSize) ∧
      s' = s.progress S) := by
  cases a with
  | insert e w =>
    simp only [step] at hs
    split_ifs at hs with hw
    exact .inl ⟨e, w, hw, (Option.some.inj hs).symm⟩
  | check =>
    simp only [step] at hs
    split_ifs at hs with hc
    exact .inr (.inl ⟨hc, (Option.some.inj hs).symm⟩)
  | submit =>
    simp only [step] at hs
    split_ifs at hs with hc
    obtain ⟨e, w, Q, d, hp, hd, rfl⟩ := submitRequestsToMPI_ok (eq_ok_of_toOption hs)
    exact .inr (.inr (.inl ⟨e, w, Q, d, hc, hp, hd, rfl⟩))
  | progress S =>
    simp only [step] at hs
    split_ifs at hs with hg
    exact .inr (.inr (.inr ⟨S, hg.1, hg.2.1, fun i hi => Nat.lt_min.1 (hg.2.2 i hi),
      (Option.some.inj hs).symm⟩))

end Engine

end RocShmem
