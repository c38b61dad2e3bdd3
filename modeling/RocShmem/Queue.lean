import RocShmem.Basic

/-!
# The request queue

`MPITransport` keeps two `std::queue`s, `q` of descriptors and `q_wgid` of the queue ids they
were posted with. Producers push onto both under `queue_mutex` (`insertRequest`); the single
consumer, the progress thread, first tests `q.empty()` without the lock and then, under the
lock, reads and pops both fronts (`submitRequestsToMPI`).

Each locked region is one step, so the order of `insertRequest` steps is the order in which
producers acquired `queue_mutex`. The unlocked test only reads `q`, whose push comes first in
`insertRequest`, so it cannot tell a step apart from the two pushes it is made of. The ghost
fields `inserted` and `popped` record every pair pushed and every pair popped.

* `RequestQueue.insertRequest`, `RequestQueue.check`, `RequestQueue.pop`;
* `QueueInv`, preserved by every step;
* `queue_dispatch_prefix`: whatever the interleaving, the consumer pops a prefix of what the
  producers pushed, each descriptor with its own queue id.
-/

namespace RocShmem

/-- The two queues, the consumer's position between its unlocked test and its locked pop, and
the ghost history. -/
structure RequestQueue where
  q : List QueueElement
  qWgid : List ℤ
  /-- The consumer saw `q` non-empty and has not yet taken the lock. -/
  checked : Bool
  /-- Ghost: every pair pushed, in lock order. -/
  inserted : List (QueueElement × ℤ)
  /-- Ghost: every pair popped, in order. -/
  popped : List (QueueElement × ℤ)

namespace RequestQueue

/-- The queues of a freshly constructed transport. -/
def empty : RequestQueue := ⟨[], [], false, [], []⟩

/-- `insertRequest`: push the descriptor and its queue id under `queue_mutex`. -/
def insertRequest (Q : RequestQueue) (e : QueueElement) (queueId : ℤ) : RequestQueue :=
  { Q with q := Q.q ++ [e], qWgid := Q.qWgid ++ [queueId], inserted := Q.inserted ++ [(e, queueId)] }

/-- The unlocked `if (q.empty()) return;` that starts `submitRequestsToMPI`. -/
def check (Q : RequestQueue) : RequestQueue :=
  if Q.q = [] then Q else { Q with checked := true }

/-- The locked `q.front()`, `q_wgid.front()`, `q.pop()`, `q_wgid.pop()`; the front of an empty
`std::queue` is undefined (`none`). -/
def pop (Q : RequestQueue) : Option ((QueueElement × ℤ) × RequestQueue) :=
  match Q.q, Q.qWgid with
  | e :: q, w :: ws =>
    some ((e, w), { Q with q := q, qWgid := ws, checked := false, popped := Q.popped ++ [(e, w)] })
  | _, _ => none

@[simp] theorem insertRequest_checked (Q : RequestQueue) (e : QueueElement) (w : ℤ) :
    (Q.insertRequest e w).checked = Q.checked := rfl

@[simp] theorem insertRequest_popped (Q : RequestQueue) (e : QueueElement) (w : ℤ) :
    (Q.insertRequest e w).popped = Q.popped := rfl

@[simp] theorem check_popped (Q : RequestQueue) : Q.check.popped = Q.popped := by
  unfold check; split <;> rfl

@[simp] theorem check_qWgid (Q : RequestQueue) : Q.check.qWgid = Q.qWgid := by
  unfold check; split <;> rfl

@[simp] theorem check_inserted (Q : RequestQueue) : Q.check.inserted = Q.inserted := by
  unfold check; split <;> rfl

/-- Everything `pop` can do. -/
theorem pop_eq_some {Q Q' : RequestQueue} {x : QueueElement × ℤ} (h : Q.pop = some (x, Q')) :
    Q.q = x.1 :: Q'.q ∧ Q.qWgid = x.2 :: Q'.qWgid ∧ Q'.checked = false ∧
      Q'.inserted = Q.inserted ∧ Q'.popped = Q.popped ++ [x] := by
  rcases Q with ⟨_ | ⟨e, q⟩, _ | ⟨w, ws⟩, c, i, p⟩ <;> simp only [pop, reduceCtorEq] at h
  obtain ⟨rfl, rfl⟩ := Prod.mk.inj (Option.some.inj h)
  exact ⟨rfl, rfl, rfl, rfl, rfl⟩

end RequestQueue

/-- One step of a producer or of the consumer. -/
inductive QueueStep : RequestQueue → RequestQueue → Prop
  | insert (Q : RequestQueue) (e : QueueElement) (w : ℤ) : QueueStep Q (Q.insertRequest e w)
  | check (Q : RequestQueue) (h : Q.checked = false) : QueueStep Q Q.check
  | pop (Q Q' : RequestQueue) (x : QueueElement × ℤ) (h : Q.checked = true)
      (hp : Q.pop = some (x, Q')) : QueueStep Q Q'

/-- The states reachable from the empty queues. -/
inductive QueueReachable : RequestQueue → Prop
  | empty : QueueReachable RequestQueue.empty
  | step {Q Q' : RequestQueue} : QueueReachable Q → QueueStep Q Q' → QueueReachable Q'

/-- The queue invariant: both queues have the same length, what was popped followed by what is
queued is exactly what was pushed, and a consumer past its test finds `q` non-empty. -/
structure QueueInv (Q : RequestQueue) : Prop where
  length_eq : Q.q.length = Q.qWgid.length
  history : Q.popped ++ Q.q.zip Q.qWgid = Q.inserted
  checked_ne : Q.checked = true → Q.q ≠ []

theorem QueueInv.empty : QueueInv RequestQueue.empty := ⟨rfl, rfl, by decide⟩

theorem QueueInv.insertRequest {Q : RequestQueue} (hQ : QueueInv Q) (e : QueueElement) (w : ℤ) :
    QueueInv (Q.insertRequest e w) where
  length_eq := by simp [RequestQueue.insertRequest, hQ.length_eq]
  history := by
    simp [RequestQueue.insertRequest, List.zip_append hQ.length_eq, ← hQ.history]
  checked_ne := by simp [RequestQueue.insertRequest]

theorem QueueInv.check {Q : RequestQueue} (hQ : QueueInv Q) : QueueInv Q.check := by
  unfold RequestQueue.check
  split
  · exact hQ
  · exact ⟨hQ.length_eq, hQ.history, fun _ => ‹_›⟩

theorem QueueInv.pop {Q Q' : RequestQueue} {x : QueueElement × ℤ} (hQ : QueueInv Q)
    (h : Q.pop = some (x, Q')) : QueueInv Q' := by
  obtain ⟨hq, hw, hc, hi, hp⟩ := RequestQueue.pop_eq_some h
  have hlen := hQ.length_eq
  have hhist := hQ.history
  rw [hq, hw] at hlen hhist
  refine ⟨by simpa using hlen, ?_, by simp [hc]⟩
  rw [hi, hp, ← hhist]
  simp

/-- A consumer past its test can always pop: it never reads the front of an empty queue. -/
theorem QueueInv.pop_isSome {Q : RequestQueue} (hQ : QueueInv Q) (h : Q.checked = true) :
    ∃ x Q', Q.pop = some (x, Q') := by
  have hne := hQ.checked_ne h
  have hlen := hQ.length_eq
  unfold RequestQueue.pop
  match hq : Q.q, hw : Q.qWgid with
  | e :: q, w :: ws => exact ⟨_, _, rfl⟩
  | [], _ => exact absurd hq hne
  | _ :: _, [] => simp [hq, hw] at hlen

theorem QueueInv.step {Q Q' : RequestQueue} (hQ : QueueInv Q) : QueueStep Q Q' → QueueInv Q'
  | .insert _ e w => hQ.insertRequest e w
  | .check _ _ => hQ.check
  | .pop _ _ _ _ hp => hQ.pop hp

theorem QueueReachable.inv {Q : RequestQueue} (h : QueueReachable Q) : QueueInv Q := by
  induction h with
  | empty => exact QueueInv.empty
  | step _ hs ih => exact ih.step hs

/-- **No descriptor is lost, duplicated or re-tagged.** In every interleaving of producers and
the consumer, the pairs popped are a prefix of the pairs pushed in lock order, the rest are
still queued in order, and `q` and `q_wgid` have the same length. -/
theorem queue_dispatch_prefix {Q : RequestQueue} (h : QueueReachable Q) :
    Q.popped <+: Q.inserted ∧ Q.popped ++ Q.q.zip Q.qWgid = Q.inserted ∧
      Q.q.length = Q.qWgid.length := by
  have hQ := h.inv
  exact ⟨hQ.history ▸ List.prefix_append _ _, hQ.history, hQ.length_eq⟩

/-- The queues after queues 0 and 1 each post a put and the consumer takes the first. -/
def twoPutsOnePopped : RequestQueue :=
  let put : QueueElement := ⟨.put, 1, 8, 0, 0, 3, .sum, .long, 0, 0, 0, 0, ⟨0, []⟩⟩
  let Q := ((RequestQueue.empty.insertRequest put 0).insertRequest put 1).check
  (Q.pop.get (by decide)).2

theorem queue_dispatch_prefix_twoPuts :
    twoPutsOnePopped.popped <+: twoPutsOnePopped.inserted ∧
      twoPutsOnePopped.popped ++ twoPutsOnePopped.q.zip twoPutsOnePopped.qWgid =
        twoPutsOnePopped.inserted ∧
      twoPutsOnePopped.q.length = twoPutsOnePopped.qWgid.length :=
  queue_dispatch_prefix (.step (.step (.step (.step .empty (.insert _ _ _)) (.insert _ _ _))
    (.check _ rfl)) (.pop _ _ _ rfl (Option.some_get (by decide)).symm))

end RocShmem
