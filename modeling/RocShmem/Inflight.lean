import RocShmem.Engine
import Mathlib.Algebra.BigOperators.Group.Finset

/-!
# In-flight requests, their counters and the quiet waiters

What holds of `req_vec`, `req_prop_vec`, `outstanding` and `waiting_quiet` in every reachable
state, and what a run of `progress` steps does for the threads waiting in `quiet`.

* `InflightInv`, kept by each thing the progress thread does;
* `EngineInv`, with the queue invariant, kept by every step;
* `unlocked_test_pop`: after the unlocked `q.empty()` test the locked pop finds a descriptor;
* `queue_indices_in_range`: every index used on the per-queue vectors is below `num_queues`;
* `outstanding_count`: each counter is the number of in-flight requests of its workgroup, and
  the counters add up to `req_vec.size()`;
* `quiet_waiters_released`: a workgroup with waiters has requests in flight, and progress steps
  that complete all of them set the flag of every waiter;
* `MaximalReports`, `progress_drains`: any `⌈req_vec.size() / INDICES_SIZE⌉` calls of `progress`
  whose reports are maximal, in any order, complete everything in flight, setting the flag of
  every blocked thread and leaving every counter at zero and no thread waiting.
-/

namespace RocShmem

namespace Engine

/-! ### The in-flight invariant -/

/-- What holds of the in-flight requests, the counters and the waiters in every reachable
state: the two lists stay paired; every request belongs to a workgroup in range; each counter
is the number of in-flight requests of its workgroup; a workgroup with waiters has requests in
flight; every per-queue index used is in range; handles are fresh, and an in-flight request has
not been reported. -/
structure InflightInv (s : Engine) : Prop where
  length_eq : s.reqVec.length = s.reqPropVec.length
  wgId_range : ∀ p ∈ s.reqPropVec, 0 ≤ p.wgId ∧ p.wgId < s.numQueues
  outstanding_eq : ∀ W, s.outstanding W = s.reqPropVec.countP (·.wgId = W)
  waiting_pos : ∀ W, s.waitingQuiet W ≠ [] → 0 < s.outstanding W
  touched_range : ∀ i ∈ s.touched, 0 ≤ i ∧ i < s.numQueues
  id_nodup : (s.reqVec.map (·.id)).Nodup
  id_lt : ∀ r ∈ s.reqVec, r.id < s.nextRequest
  reported_lt : ∀ r, Event.reported r ∈ s.trace → r < s.nextRequest
  unreported : ∀ r ∈ s.reqVec, Event.reported r.id ∉ s.trace

theorem InflightInv.init (n w : ℕ) (pe : ℤ) : InflightInv (initTransport n w pe) where
  length_eq := rfl
  wgId_range := by simp [initTransport]
  outstanding_eq := by simp [initTransport]
  waiting_pos := by simp [initTransport]
  touched_range := by simp [initTransport]
  id_nodup := List.nodup_nil
  id_lt := by simp [initTransport]
  reported_lt := by simp [initTransport]
  unreported := by simp [initTransport]

variable {s : Engine}

theorem InflightInv.outstanding_nonneg (h : InflightInv s) (W : ℤ) : 0 ≤ s.outstanding W := by
  rw [h.outstanding_eq]; exact Int.natCast_nonneg _

/-- Tracking a new request of a workgroup in range keeps the invariant. -/
theorem InflightInv.track (h : InflightInv s) (call : MpiCall) {p : RequestProperties}
    (hp : 0 ≤ p.wgId ∧ p.wgId < s.numQueues) : InflightInv (s.track call p) where
  length_eq := by simp [Engine.track, h.length_eq]
  wgId_range := by
    simp only [Engine.track, List.mem_append, List.mem_singleton]
    rintro q (hq | rfl)
    exacts [h.wgId_range q hq, hp]
  outstanding_eq W := by
    simp only [Engine.track, Function.update_apply, List.countP_append, List.countP_singleton]
    split_ifs with hW <;> simp_all [h.outstanding_eq]
  waiting_pos W hW := by
    have := h.waiting_pos W hW
    simp only [Engine.track, Function.update_apply]
    split_ifs with e
    · subst e; omega
    · exact this
  touched_range := by
    simp only [Engine.track, List.mem_append, List.mem_singleton]
    rintro i (hi | rfl)
    exacts [h.touched_range i hi, hp]
  id_nodup := by
    simp only [Engine.track, List.map_append, List.map_singleton]
    refine List.nodup_append.2 ⟨h.id_nodup, List.nodup_singleton _, ?_⟩
    simp only [List.disjoint_singleton, List.mem_map, not_exists, not_and]
    exact fun r hr he => by have := h.id_lt r hr; omega
  id_lt := by
    simp only [Engine.track, List.mem_append, List.mem_singleton]
    rintro r (hr | rfl)
    · have := h.id_lt r hr; omega
    · exact Nat.lt_succ_self _
  reported_lt r hr := Nat.lt_succ_of_lt (h.reported_lt r hr)
  unreported := by
    simp only [Engine.track, List.mem_append, List.mem_singleton]
    rintro r (hr | rfl)
    · exact h.unreported r hr
    · exact fun hm => absurd (h.reported_lt _ hm) (lt_irrefl _)

/-- Setting a status flag of a workgroup in range keeps the invariant. -/
theorem InflightInv.setStatus (h : InflightInv s) {w : ℤ} (t : ℤ) (o : Origin)
    (hw : 0 ≤ w ∧ w < s.numQueues) : InflightInv (s.setStatus w t o) where
  length_eq := h.length_eq
  wgId_range := h.wgId_range
  outstanding_eq := h.outstanding_eq
  waiting_pos := h.waiting_pos
  touched_range := by
    simp only [Engine.setStatus, List.mem_append, List.mem_singleton]
    rintro i (hi | rfl)
    exacts [h.touched_range i hi, hw]
  id_nodup := h.id_nodup
  id_lt := h.id_lt
  reported_lt r := by simpa [Engine.setStatus] using h.reported_lt r
  unreported r hr := by simpa [Engine.setStatus] using h.unreported r hr

/-- `quiet` for a workgroup in range keeps the invariant: a thread waits only while its
workgroup has requests in flight. -/
theorem InflightInv.touch (h : InflightInv s) {w : ℤ} (hw : 0 ≤ w ∧ w < s.numQueues) :
    InflightInv (s.touch w) := by
  refine { h with touched_range := ?_ }
  simp only [Engine.touch, List.mem_append, List.mem_singleton]
  rintro i (hi | rfl)
  exacts [h.touched_range i hi, hw]

theorem InflightInv.quiet (h : InflightInv s) {w : ℤ} (t : ℤ) (hw : 0 ≤ w ∧ w < s.numQueues) :
    InflightInv (s.quiet w t) := by
  have ht := h.touch hw
  unfold Engine.quiet
  split_ifs with h0
  · exact ht.setStatus t _ hw
  · refine { ht with waiting_pos := fun W hW => ?_ }
    simp only [Engine.touch, Function.update_apply] at hW ⊢
    split_ifs at hW with hWw
    · subst hWw; have := h.outstanding_nonneg W; omega
    · exact h.waiting_pos W hW


theorem InflightInv.of_frame {s s' : Engine} (h : InflightInv s) (h₁ : s'.numQueues = s.numQueues)
    (h₂ : s'.reqVec = s.reqVec) (h₃ : s'.reqPropVec = s.reqPropVec)
    (h₄ : s'.outstanding = s.outstanding) (h₅ : s'.waitingQuiet = s.waitingQuiet)
    (h₆ : s'.touched = s.touched) (h₇ : s'.nextRequest = s.nextRequest) (h₈ : s'.trace = s.trace) :
    InflightInv s' := by
  rcases s with ⟨⟩
  rcases s' with ⟨⟩
  simp only at h₁ h₂ h₃ h₄ h₅ h₆ h₇ h₈
  subst h₁ h₂ h₃ h₄ h₅ h₆ h₇ h₈
  exact ⟨h.1, h.2, h.3, h.4, h.5, h.6, h.7, h.8, h.9⟩

theorem InflightInv.dispatch (h : InflightInv s) {e : QueueElement} {w : ℤ} {d : Engine}
    (hd : s.dispatch e w = .ok d) (hw : 0 ≤ w ∧ w < s.numQueues) : InflightInv d := by
  rcases dispatch_cases hd with ⟨-, c, b, call, p, rfl, -, rfl⟩ | ⟨-, rfl⟩ | ⟨-, -, rfl⟩
  · exact (h.of_frame rfl rfl rfl rfl rfl rfl rfl rfl :
      InflightInv { s with comms := c, nextBuffer := b }).track call hw
  · exact h.quiet _ hw
  · exact h.setStatus _ _ hw

theorem InflightInv.progress (h : InflightInv s) {S : List ℕ} (hS : S.Nodup)
    (hb : ∀ i ∈ S, i < s.reqVec.length) : InflightInv (s.progress S) := by
  have hl : ∀ i ∈ S, i < s.reqPropVec.length := h.length_eq ▸ hb
  have hsub : ∀ r ∈ (s.progress S).reqVec, r ∈ s.reqVec := fun r hr =>
    (removeAt_sublist _ _).subset (progress_reqVec hS hb ▸ hr)
  obtain ⟨evs, he, hnr⟩ := progress_trace_reported hb
  refine ⟨?length_eq, ?wgId_range, fun W => ?outstanding_eq, fun W hW => ?waiting_pos,
    ?touched_range, ?id_nodup, fun r hr => ?id_lt, fun r hr => ?reported_lt,
    fun r hr => ?unreported⟩
  case length_eq =>
    rw [progress_reqVec hS hb, progress_reqPropVec hS hb]
    exact length_removeAt_congr _ h.length_eq
  case wgId_range =>
    intro p hp
    rw [progress_reqPropVec hS hb] at hp
    exact progress_numQueues s S ▸ h.wgId_range p ((removeAt_sublist _ _).subset hp)
  case outstanding_eq =>
    have hc := countP_removeAt_add (fun p : RequestProperties => decide (p.wgId = W)) default hS hl
    rw [progress_outstanding hb, progress_reqPropVec hS hb, h.outstanding_eq]
    split_ifs with hW
    · subst hW
      have h0 : s.reqPropVec.countP (fun p => decide (p.wgId = -1)) = 0 :=
        List.countP_eq_zero.2 fun p hp => by
          have := (h.wgId_range p hp).1
          simp only [decide_eq_true_eq]
          omega
      omega
    · omega
  case waiting_pos =>
    rw [progress_waitingQuiet hb] at hW
    rw [progress_outstanding_loop hb]
    refine foldl_completeAt_waiting_pos S (s.reportCompleted S) h.waiting_pos (fun k W => ?_) W hW
    rw [foldl_completeAt_outstanding, reportCompleted_outstanding, reportCompleted_reqPropVec,
      h.outstanding_eq]
    have := countP_map_getD_le (fun p : RequestProperties => decide (p.wgId = W)) default
      ((List.take_sublist k S).nodup hS) fun i hi => hl i (List.mem_of_mem_take hi)
    split_ifs <;> omega
  case touched_range =>
    rw [progress_touched hb, progress_numQueues]
    simp only [List.mem_append, List.mem_map]
    rintro i (hi | ⟨j, hj, rfl⟩)
    · exact h.touched_range i hi
    · rw [List.getD_eq_getElem _ _ (hl j hj)]
      exact h.wgId_range _ (List.getElem_mem _)
  case id_nodup =>
    rw [progress_reqVec hS hb]
    exact h.id_nodup.sublist ((removeAt_sublist _ _).map _)
  case id_lt =>
    exact progress_nextRequest s S ▸ h.id_lt r (hsub r hr)
  case reported_lt =>
    rw [he] at hr
    simp only [List.mem_append, List.mem_map, Event.reported.injEq] at hr
    rw [progress_nextRequest]
    rcases hr with (hr | ⟨i, hi, rfl⟩) | hr
    · exact h.reported_lt r hr
    · rw [List.getD_eq_getElem _ _ (hb i hi)]
      exact h.id_lt _ (List.getElem_mem _)
    · exact absurd hr (hnr r)
  case unreported =>
    obtain ⟨j, hj, hrj⟩ := exists_of_mem_removeAt (progress_reqVec hS hb ▸ hr)
    rw [he]
    simp only [List.mem_append, List.mem_map, Event.reported.injEq, not_or, not_exists, not_and]
    refine ⟨⟨h.unreported r (List.getElem?_mem hrj), fun i hi hir => ?_⟩, hnr _⟩
    have hi' := hb i hi
    obtain rfl : i = j := List.getElem?_inj (by simpa using hi') h.id_nodup (by
      rw [List.getElem?_map, List.getElem?_map, hrj, List.getElem?_eq_getElem hi']
      simp only [Option.map_some', ← hir, List.getD_eq_getElem _ _ hi'])
    simp [hi] at hj

/-- An in-flight request of a workgroup whose counter the completions at `D` have brought to
zero is at one of the positions `D`. -/
theorem InflightInv.mem_of_settled (h : InflightInv s) {D : List ℕ} (hD : D.Nodup)
    (hDb : ∀ i ∈ D, i < s.reqVec.length) {W : ℤ}
    (h0 : s.outstanding W - (D.map (s.reqPropVec.getD · default)).countP (·.wgId = W) = 0)
    {i : ℕ} {y : Request × RequestProperties} (hy : (s.reqVec.zip s.reqPropVec)[i]? = some y)
    (hyW : y.2.wgId = W) : i ∈ D := by
  by_contra hi
  have hmem : y.2 ∈ removeAt (· ∈ D) s.reqPropVec :=
    mem_removeAt_of_getElem? (List.getElem?_zip_eq_some.1 hy).2 (by simpa using hi)
  have hpos : 0 < (removeAt (· ∈ D) s.reqPropVec).countP (·.wgId = W) :=
    List.countP_pos_iff.2 ⟨y.2, hmem, decide_eq_true hyW⟩
  have hc := countP_removeAt_add (fun p : RequestProperties => decide (p.wgId = W)) default hD
    (h.length_eq ▸ hDb)
  rw [h.outstanding_eq] at h0
  omega

end Engine

/-! ### Every reachable state -/

/-- The invariant of the engine: the in-flight invariant, the queue invariant, and every queued
id in range. -/
structure EngineInv (s : Engine) : Prop where
  inflight : s.InflightInv
  queue : QueueInv s.queue
  queued_range : ∀ w ∈ s.queue.qWgid, 0 ≤ w ∧ w < s.numQueues

theorem EngineInv.step {s s' : Engine} {a : Action} (h : EngineInv s) (hs : s.step a = some s') :
    EngineInv s' := by
  have hI := h.inflight
  cases a with
  | insert e w =>
    simp only [Engine.step] at hs
    split_ifs at hs with hw
    cases hs
    refine ⟨hI.of_frame rfl rfl rfl rfl rfl rfl rfl rfl, h.queue.insertRequest e w, ?_⟩
    simp only [RequestQueue.insertRequest, List.mem_append, List.mem_singleton]
    rintro v (hv | rfl)
    exacts [h.queued_range v hv, hw]
  | check =>
    simp only [Engine.step] at hs
    split_ifs at hs
    cases hs
    exact ⟨hI.of_frame rfl rfl rfl rfl rfl rfl rfl rfl, h.queue.check,
      by simpa using h.queued_range⟩
  | submit =>
    simp only [Engine.step] at hs
    split_ifs at hs
    obtain ⟨e, w, Q, d, hp, hd, rfl⟩ := Engine.submitRequestsToMPI_ok (eq_ok_of_toOption hs)
    obtain ⟨-, hqw, -, -, -⟩ := RequestQueue.pop_eq_some hp
    obtain ⟨hdn, hdq, -⟩ := Engine.dispatch_frame hd
    have hw := h.queued_range w (by rw [hqw]; exact List.mem_cons_self _ _)
    have hQ : Engine.InflightInv { s with queue := Q } :=
      hI.of_frame rfl rfl rfl rfl rfl rfl rfl rfl
    refine ⟨(hQ.dispatch hd hw).of_frame rfl rfl rfl rfl rfl rfl rfl rfl, ?_, fun v hv => ?_⟩
    · exact hdq ▸ h.queue.pop hp
    · rw [hdq] at hv
      rw [hdn]
      exact h.queued_range v (by rw [hqw]; exact List.mem_cons_of_mem _ hv)
  | progress S =>
    simp only [Engine.step] at hs
    split_ifs at hs with hg
    cases hs
    obtain ⟨-, hS, hb⟩ := hg
    exact ⟨hI.progress hS fun i hi => lt_of_lt_of_le (hb i hi) (min_le_left _ _),
      by simpa using h.queue, by simpa using h.queued_range⟩

theorem Reachable.engineInv {s : Engine} (h : Reachable s) : EngineInv s := by
  induction h with
  | init n w pe =>
    exact ⟨.init n w pe, QueueInv.empty, by simp [initTransport, RequestQueue.empty]⟩
  | step _ hs ih => exact ih.step hs

/-- **The unlocked test is safe.** In every reachable state, a progress thread past the unlocked
`q.empty()` test of `submitRequestsToMPI` finds a descriptor and its queue id at the fronts of
`q` and `q_wgid` when it takes the lock, however the producers interleave: only the progress
thread pops, so it never reads the front of an empty `std::queue`. -/
theorem unlocked_test_pop {s : Engine} (hs : Reachable s) (h : s.queue.checked = true) :
    ∃ x Q, s.queue.pop = some (x, Q) :=
  hs.engineInv.queue.pop_isSome h

/-- A put posted to queue 0, the progress thread past its unlocked test. -/
def putChecked : Engine := ((initTransport 1 2 0).run (putThenQuiet.take 2)).get (by decide)

theorem unlocked_test_pop_putChecked : ∃ x Q, putChecked.queue.pop = some (x, Q) :=
  unlocked_test_pop ((Reachable.init 1 2 0).of_run _) (by decide)

/-- **Every per-queue index is in range.** Along every run the GPU queues drive, each index the
engine uses on `outstanding`, `waiting_quiet` and `handle->queue_descs` lies in
`[0, num_queues)`. -/
theorem queue_indices_in_range {s : Engine} (hs : Reachable s) :
    ∀ i ∈ s.touched, 0 ≤ i ∧ i < s.numQueues :=
  hs.engineInv.inflight.touched_range

theorem queue_indices_in_range_putThenQuiet :
    0 ∈ putThenQuietState.touched ∧ 0 ≤ (0 : ℤ) ∧ 0 < (putThenQuietState.numQueues : ℤ) :=
  have h : 0 ∈ putThenQuietState.touched := by decide
  ⟨h, queue_indices_in_range putThenQuietState_reachable 0 h⟩

/-! ### The counters -/

/-- Counting the entries of each workgroup in range counts every entry once. -/
theorem sum_countP_wgId {l : List RequestProperties} {n : ℕ}
    (h : ∀ p ∈ l, 0 ≤ p.wgId ∧ p.wgId < n) :
    ∑ i ∈ Finset.range n, (l.countP (fun p => p.wgId = (i : ℤ)) : ℤ) = l.length := by
  induction l with
  | nil => simp
  | cons p l ih =>
    obtain ⟨h0, hn⟩ := h p (List.mem_cons_self _ _)
    obtain ⟨k, hk⟩ : ∃ k : ℕ, p.wgId = k := ⟨p.wgId.toNat, (Int.toNat_of_nonneg h0).symm⟩
    have hkn : k < n := by omega
    simp only [List.countP_cons, Nat.cast_add, Finset.sum_add_distrib,
      ih fun q hq => h q (List.mem_cons_of_mem _ hq), List.length_cons, Nat.cast_succ, hk,
      Nat.cast_inj, decide_eq_true_eq, Nat.cast_ite, Nat.cast_one, Nat.cast_zero,
      Finset.sum_ite_eq, Finset.mem_range, hkn, if_true, zero_add]

/-- A network-issuing dispatch tracks one request of its queue id and adds one to that
counter; any other dispatch leaves the lists and the counters alone. -/
theorem dispatch_counts {s s' : Engine} {e : QueueElement} {w : ℤ} (h : s.dispatch e w = .ok s') :
    (e.type.issuesRequest = true → ∃ call p, p.wgId = w ∧
      s'.reqVec = s.reqVec ++ [⟨s.nextRequest, call⟩] ∧ s'.reqPropVec = s.reqPropVec ++ [p] ∧
      s'.outstanding = Function.update s.outstanding w (s.outstanding w + 1)) ∧
    (e.type.issuesRequest = false →
      s'.reqVec = s.reqVec ∧ s'.reqPropVec = s.reqPropVec ∧ s'.outstanding = s.outstanding) := by
  rcases Engine.dispatch_cases h with ⟨hi, c, b, call, p, rfl, -, rfl⟩ | ⟨hq, rfl⟩ | ⟨hi, -, rfl⟩
  · exact ⟨fun _ => ⟨call, p, rfl, rfl, rfl, rfl⟩, fun h' => absurd (hi.symm.trans h') (by decide)⟩
  · have hi := RoNetCmd.issuesRequest_of_isQuiet hq
    refine ⟨fun h' => absurd (hi.symm.trans h') (by decide), fun _ => ?_⟩
    unfold Engine.quiet
    split <;> exact ⟨rfl, rfl, rfl⟩
  · exact ⟨fun h' => absurd (hi.symm.trans h') (by decide), fun _ => ⟨rfl, rfl, rfl⟩⟩

/-- **The counters count the in-flight requests.** In every reachable state the two lists have
the same length, each counter is the number of in-flight requests of its workgroup (so never
negative), the counters of the `num_queues` queues add up to `req_vec.size()`, and
`numOutstandingRequests()` is that sum plus `q.size()`. A network-issuing dispatch tracks
exactly one request and adds exactly one to its counter; an atomic or a quiet changes neither. -/
theorem outstanding_count {s : Engine} (hs : Reachable s) :
    s.reqVec.length = s.reqPropVec.length ∧
    (∀ W, s.outstanding W = s.reqPropVec.countP (·.wgId = W) ∧ 0 ≤ s.outstanding W) ∧
    ∑ i ∈ Finset.range s.numQueues, s.outstanding i = s.reqVec.length ∧
    (s.numOutstandingRequests : ℤ) =
      ∑ i ∈ Finset.range s.numQueues, s.outstanding i + s.queue.q.length ∧
    ∀ e w s', s.dispatch e w = .ok s' →
      (e.type.issuesRequest = true → ∃ call p, p.wgId = w ∧
        s'.reqVec = s.reqVec ++ [⟨s.nextRequest, call⟩] ∧ s'.reqPropVec = s.reqPropVec ++ [p] ∧
        s'.outstanding = Function.update s.outstanding w (s.outstanding w + 1)) ∧
      (e.type.issuesRequest = false →
        s'.reqVec = s.reqVec ∧ s'.reqPropVec = s.reqPropVec ∧ s'.outstanding = s.outstanding) := by
  have h := hs.engineInv.inflight
  have hsum : ∑ i ∈ Finset.range s.numQueues, s.outstanding i = s.reqVec.length := by
    simp only [h.outstanding_eq, h.length_eq]
    exact sum_countP_wgId h.wgId_range
  refine ⟨h.length_eq, fun W => ⟨h.outstanding_eq W, h.outstanding_nonneg W⟩, hsum, ?_,
    fun e w s' hd => dispatch_counts hd⟩
  rw [hsum, Engine.numOutstandingRequests, Nat.cast_add]

theorem outstanding_count_putThenQuiet :
    putThenQuietState.reqVec.length = putThenQuietState.reqPropVec.length ∧
    (∀ W, putThenQuietState.outstanding W = putThenQuietState.reqPropVec.countP (·.wgId = W) ∧
      0 ≤ putThenQuietState.outstanding W) ∧
    ∑ i ∈ Finset.range putThenQuietState.numQueues, putThenQuietState.outstanding i =
      putThenQuietState.reqVec.length ∧
    (putThenQuietState.numOutstandingRequests : ℤ) =
      ∑ i ∈ Finset.range putThenQuietState.numQueues, putThenQuietState.outstanding i +
        putThenQuietState.queue.q.length ∧
    ∀ e w s', putThenQuietState.dispatch e w = .ok s' →
      (e.type.issuesRequest = true → ∃ call p, p.wgId = w ∧
        s'.reqVec = putThenQuietState.reqVec ++ [⟨putThenQuietState.nextRequest, call⟩] ∧
        s'.reqPropVec = putThenQuietState.reqPropVec ++ [p] ∧
        s'.outstanding = Function.update putThenQuietState.outstanding w
          (putThenQuietState.outstanding w + 1)) ∧
      (e.type.issuesRequest = false → s'.reqVec = putThenQuietState.reqVec ∧
        s'.reqPropVec = putThenQuietState.reqPropVec ∧
        s'.outstanding = putThenQuietState.outstanding) :=
  outstanding_count putThenQuietState_reachable

/-! ### The quiet waiters -/

theorem exists_mem_zip_right {α β : Type*} {l₁ : List α} {l₂ : List β}
    (h : l₁.length = l₂.length) {b : β} (hb : b ∈ l₂) : ∃ a, (a, b) ∈ l₁.zip l₂ := by
  induction l₁ generalizing l₂ with
  | nil => cases l₂ <;> simp_all
  | cons a l₁ ih =>
    cases l₂ with
    | nil => cases hb
    | cons b' l₂ =>
      rcases List.mem_cons.1 hb with rfl | hb
      · exact ⟨a, List.mem_cons_self _ _⟩
      · obtain ⟨a', h'⟩ := ih (by simpa using h) hb
        exact ⟨a', List.mem_cons_of_mem _ h'⟩

/-- A run of `progress` steps releases waiters as `Releases` says, and keeps only requests
that were in flight before it. -/
theorem run_progress {s s' : Engine} (hI : s.InflightInv) (Ss : List (List ℕ))
    (h : s.run (Ss.map .progress) = some s') :
    Engine.Releases s s' ∧ (s'.reqVec.zip s'.reqPropVec).Sublist (s.reqVec.zip s.reqPropVec) := by
  induction Ss generalizing s with
  | nil => cases h; exact ⟨.refl _, .refl _⟩
  | cons S Ss ih =>
    simp only [List.map_cons, Engine.run, Option.bind_eq_some, Engine.step] at h
    obtain ⟨s₁, h₁, h₂⟩ := h
    split_ifs at h₁ with hg
    cases h₁
    obtain ⟨-, hS, hb⟩ := hg
    have hb' : ∀ i ∈ S, i < s.reqVec.length :=
      fun i hi => lt_of_lt_of_le (hb i hi) (min_le_left _ _)
    obtain ⟨hr, hz⟩ := ih (hI.progress hS hb') h₂
    refine ⟨(Engine.progress_releases s S).trans hr, hz.trans ?_⟩
    rw [Engine.progress_reqVec hS hb', Engine.progress_reqPropVec hS hb', zip_removeAt]
    exact removeAt_sublist _ _

/-- **No quiet waiter is stranded.** In every reachable state a workgroup with waiters has
requests in flight. From such a state, progress steps that between them report every in-flight
request of workgroup `W` complete leave no waiter on `W` and set the flag of every thread that
was waiting. One iteration of the completion loop clears the waiters of its workgroup exactly
when it brings that counter to zero, and in the same iteration sets the flag of each. -/
theorem quiet_waiters_released {s : Engine} (hs : Reachable s) :
    (∀ W, s.waitingQuiet W ≠ [] → 0 < s.outstanding W) ∧
    (∀ (Ss : List (List ℕ)) (s' : Engine) (W : ℤ), s.run (Ss.map .progress) = some s' →
      (∀ x ∈ s.reqVec.zip s.reqPropVec, x.2.wgId = W → Event.reported x.1.id ∈ s'.trace) →
      s'.waitingQuiet W = [] ∧ ∀ x ∈ s.waitingQuiet W, Event.status W x.1 (.wake x.2) ∈ s'.trace) ∧
    (∀ (t : Engine) (i : ℕ), let p := t.reqPropVec.getD i default
      (t.completeAt i).trace = t.trace ++ Engine.iterationEvents p
        (if (t.completeAt i).outstanding p.wgId = 0 then t.waitingQuiet p.wgId else []) ∧
      ∀ W, (t.completeAt i).waitingQuiet W =
        if W = p.wgId ∧ (t.completeAt i).outstanding W = 0 then [] else t.waitingQuiet W) := by
  have hI := hs.engineInv.inflight
  refine ⟨hI.waiting_pos, fun Ss s' W hrun hall => ?_,
    fun t i => ⟨Engine.completeAt_wakes t i, Engine.completeAt_waitingQuiet t i⟩⟩
  obtain ⟨hrel, hz⟩ := run_progress hI Ss hrun
  have hI' := (hs.run hrun).engineInv.inflight
  have hempty : s'.waitingQuiet W = [] := by
    by_contra hne
    have hpos := hI'.waiting_pos W hne
    rw [hI'.outstanding_eq] at hpos
    obtain ⟨p, hp, hpW⟩ := List.countP_pos_iff.1 (by omega : 0 < s'.reqPropVec.countP (·.wgId = W))
    obtain ⟨r, hr⟩ := exists_mem_zip_right hI'.length_eq hp
    exact hI'.unreported r (List.of_mem_zip hr).1 (hall _ (hz.subset hr) (by simpa using hpW))
  refine ⟨hempty, fun x hx => ?_⟩
  rcases hrel.waiting W with he | ⟨-, hw⟩
  · rw [hempty] at he
    rw [← he] at hx
    cases hx
  · exact hw x hx

theorem quiet_waiters_released_putThenQuiet :
    putThenQuietDone.waitingQuiet 0 = [] ∧
      ∀ x ∈ putThenQuietState.waitingQuiet 0, Event.status 0 x.1 (.wake x.2) ∈ putThenQuietDone.trace :=
  (quiet_waiters_released putThenQuietState_reachable).2.1 [[0]] putThenQuietDone 0
    (Option.some_get _).symm (by decide)

/-! ### Draining -/

theorem Event.eq_of_completion {ev : Event} {w t : ℤ} (h : ev.completion = some (w, t)) :
    ev = .status w t .completion := by
  cases ev with
  | status w' t' o => cases o <;> simp_all [Event.completion]
  | free _ => cases h
  | reported _ => cases h

/-- A `progress` call sets the flag of every blocking request it reports, other than the host
barrier's. -/
theorem completion_mem_progress {s : Engine} {S : List ℕ} (hb : ∀ i ∈ S, i < s.reqVec.length)
    {i : ℕ} (hi : i ∈ S) {p : RequestProperties} (hp : s.reqPropVec[i]? = some p)
    (hblk : p.blocking = true) (hw : p.wgId ≠ -1) :
    Event.status p.wgId p.threadId .completion ∈ (s.progress S).trace := by
  obtain ⟨evs, he, hc, -⟩ := Engine.foldl_completeAt_trace S (s.reportCompleted S)
  have hmem : (p.wgId, p.threadId) ∈ evs.filterMap Event.completion := by
    rw [hc, Engine.reportCompleted_reqPropVec]
    refine List.mem_map.2 ⟨p, List.mem_filter.2 ⟨List.mem_map.2 ⟨i, hi, ?_⟩, by simp [hblk, hw]⟩, rfl⟩
    rw [List.getD_eq_getElem?_getD, hp, Option.getD_some]
  obtain ⟨ev, hev, hc'⟩ := List.mem_filterMap.1 hmem
  rw [Engine.progress_trace hb, he, ← Event.eq_of_completion hc']
  exact List.mem_append_right _ hev

/-- Reports of `MPI_Testsome`, one per `progress` call from `s` on, each maximal: every one of
the `incount = min(req_vec.size(), INDICES_SIZE)` requests it tests is reported complete, in
any order. -/
def MaximalReports : Engine → List (List ℕ) → Prop
  | _, [] => True
  | s, S :: Ss =>
    S.Perm (List.range (min s.reqVec.length indicesSize)) ∧ MaximalReports (s.progress S) Ss

instance MaximalReports.decidable : ∀ s Ss, Decidable (MaximalReports s Ss)
  | _, [] => isTrue trivial
  | s, S :: Ss =>
    haveI := MaximalReports.decidable (s.progress S) Ss
    inferInstanceAs (Decidable (_ ∧ _))

theorem drop_min_length_add {α : Type*} (l : List α) (n a : ℕ) :
    l.drop (min l.length n + a) = l.drop (n + a) := by
  rcases le_total n l.length with h | h
  · rw [min_eq_right h]
  · rw [min_eq_left h, List.drop_eq_nil_of_le (by omega), List.drop_eq_nil_of_le (by omega)]

theorem take_min_length_add {α : Type*} (l : List α) (n a : ℕ) :
    l.take (min l.length n + a) = l.take (n + a) := by
  rcases le_total n l.length with h | h
  · rw [min_eq_right h]
  · rw [min_eq_left h, List.take_of_length_le (by omega), List.take_of_length_le (by omega)]

/-- A maximal report removes the first `incount` requests. -/
theorem removeAt_of_perm_range {α : Type*} {S : List ℕ} {k : ℕ} (h : S.Perm (List.range k))
    (l : List α) : removeAt (· ∈ S) l = l.drop k := by
  rw [← removeAt_range]
  exact removeAt_congr (fun i => by simp only [h.mem_iff]) l

/-- **A run of maximal reports.** Calls of `progress` whose reports are maximal are all enabled
between two submissions; after `m` of them the first `INDICES_SIZE * m` requests are gone from
`req_vec`, the trace has only grown, and every blocking request among them other than the host
barrier's has had its flag set. -/
theorem run_maximalReports (s : Engine) (hc : s.queue.checked = false)
    (hl : s.reqVec.length = s.reqPropVec.length) (Ss : List (List ℕ)) (hmax : MaximalReports s Ss) :
    ∃ s', s.run (Ss.map .progress) = some s' ∧ s'.reqVec = s.reqVec.drop (indicesSize * Ss.length) ∧
      s.trace <+: s'.trace ∧
      ∀ p ∈ s.reqPropVec.take (indicesSize * Ss.length), p.blocking = true → p.wgId ≠ -1 →
        Event.status p.wgId p.threadId .completion ∈ s'.trace := by
  induction Ss generalizing s with
  | nil => exact ⟨s, rfl, rfl, List.prefix_refl _, fun p hp => absurd hp (by simp)⟩
  | cons S Ss ih =>
    obtain ⟨hperm, hmax⟩ := hmax
    have hS : S.Nodup := hperm.nodup_iff.2 (List.nodup_range _)
    have hk : ∀ i ∈ S, i < min s.reqVec.length indicesSize := fun i hi =>
      List.mem_range.1 (hperm.subset hi)
    have hb : ∀ i ∈ S, i < s.reqVec.length := fun i hi => lt_of_lt_of_le (hk i hi) (min_le_left _ _)
    have hv := Engine.progress_reqVec hS hb
    have hpv := Engine.progress_reqPropVec hS hb
    rw [removeAt_of_perm_range hperm] at hv hpv
    obtain ⟨s', hr, he, hpre, hflags⟩ := ih (s.progress S) (by rw [Engine.progress_queue]; exact hc)
      (by rw [hv, hpv, List.length_drop, List.length_drop, hl]) hmax
    have htake : s.reqPropVec.take (indicesSize * (Ss.length + 1)) =
        s.reqPropVec.take (min s.reqVec.length indicesSize) ++
          (s.progress S).reqPropVec.take (indicesSize * Ss.length) := by
      rw [hpv, ← List.take_add, hl, take_min_length_add, Nat.mul_succ,
        Nat.add_comm (indicesSize * Ss.length)]
    refine ⟨s', ?_, ?_, (Engine.progress_releases s S).trace_isPrefix.trans hpre,
      fun p hp hblk hw => ?_⟩
    · simp only [List.map_cons, Engine.run, Engine.step, if_pos (And.intro hc (And.intro hS hk)),
        Option.some_bind]
      exact hr
    · rw [he, hv, List.drop_drop, drop_min_length_add, List.length_cons, Nat.mul_succ,
        Nat.add_comm (indicesSize * Ss.length)]
    rw [List.length_cons, htake, List.mem_append] at hp
    rcases hp with hp | hp
    · obtain ⟨i, hi⟩ := List.mem_iff_getElem?.1 hp
      have hik : i < min s.reqVec.length indicesSize :=
        lt_of_lt_of_le (List.getElem?_eq_some_iff.1 hi).1 (List.length_take_le _ _)
      rw [List.getElem?_take_of_lt hik] at hi
      exact hpre.subset
        (completion_mem_progress hb (hperm.mem_iff.2 (List.mem_range.2 hik)) hi hblk hw)
    · exact hflags p hp hblk hw

/-- **The progress thread drains what is in flight.** From every reachable state between two
submissions, any `⌈req_vec.size() / INDICES_SIZE⌉` or more calls of `progress` whose reports of
`MPI_Testsome` are maximal, each listing its indices in any order, empty `req_vec`, set the flag
of every thread blocked on a request that was in flight, bring every counter to zero, and
release every thread waiting in `quiet`, each with its flag set. -/
theorem progress_drains {s : Engine} (hs : Reachable s) (hc : s.queue.checked = false)
    {Ss : List (List ℕ)} (hmax : MaximalReports s Ss)
    (hlen : (s.reqVec.length + indicesSize - 1) / indicesSize ≤ Ss.length) :
    ∃ s', s.run (Ss.map .progress) = some s' ∧ s'.reqVec = [] ∧
      (∀ p ∈ s.reqPropVec, p.blocking = true →
        Event.status p.wgId p.threadId .completion ∈ s'.trace) ∧
      ∀ W, s'.outstanding W = 0 ∧ s'.waitingQuiet W = [] ∧
        ∀ x ∈ s.waitingQuiet W, Event.status W x.1 (.wake x.2) ∈ s'.trace := by
  have hI := hs.engineInv.inflight
  have hcover : s.reqVec.length ≤ indicesSize * Ss.length := by
    unfold indicesSize at *
    omega
  obtain ⟨s', hr, he, -, hflags⟩ := run_maximalReports s hc hI.length_eq Ss hmax
  rw [List.drop_eq_nil_of_le hcover] at he
  rw [List.take_of_length_le (hI.length_eq ▸ hcover)] at hflags
  have hI' := (hs.run hr).engineInv.inflight
  have hp : s'.reqPropVec = [] := List.eq_nil_of_length_eq_zero (by rw [← hI'.length_eq, he]; rfl)
  have hout : ∀ W, s'.outstanding W = 0 := fun W => by rw [hI'.outstanding_eq, hp]; rfl
  have hwait : ∀ W, s'.waitingQuiet W = [] := fun W => by
    by_contra hne
    exact absurd (hI'.waiting_pos W hne) (by rw [hout]; exact lt_irrefl 0)
  refine ⟨s', hr, he, fun p hp hblk => hflags p hp hblk ?_,
    fun W => ⟨hout W, hwait W, fun x hx => ?_⟩⟩
  · have := (hI.wgId_range p hp).1
    omega
  rcases (run_progress hI Ss hr).1.waiting W with e | ⟨-, hw⟩
  · rw [← e, hwait W] at hx
    cases hx
  · exact hw x hx

theorem progress_drains_putThenQuiet :
    putThenQuietState.queue.checked = false ∧ MaximalReports putThenQuietState [[0]] ∧
    (putThenQuietState.reqVec.length + indicesSize - 1) / indicesSize ≤ [[0]].length ∧
    ∃ s', putThenQuietState.run ([[0]].map .progress) = some s' ∧ s'.reqVec = [] ∧
      (∀ p ∈ putThenQuietState.reqPropVec, p.blocking = true →
        Event.status p.wgId p.threadId .completion ∈ s'.trace) ∧
      ∀ W, s'.outstanding W = 0 ∧ s'.waitingQuiet W = [] ∧
        ∀ x ∈ putThenQuietState.waitingQuiet W, Event.status W x.1 (.wake x.2) ∈ s'.trace :=
  have hc : putThenQuietState.queue.checked = false := by decide
  have hm : MaximalReports putThenQuietState [[0]] := by decide
  have hl : (putThenQuietState.reqVec.length + indicesSize - 1) / indicesSize ≤ [[0]].length := by
    decide
  ⟨hc, hm, hl, progress_drains putThenQuietState_reachable hc hm hl⟩

end RocShmem
