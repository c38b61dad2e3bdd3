import RocShmem.Inflight

/-!
# Quiet never completes early

A fence, quiet or finalize from thread `t` of queue `W` is answered by `status[W][t] = 1`, set
either at once by `quiet` or later by the `waiting_quiet` loop of `progress`. Each such write
carries, as ghost, the index in dispatch order of the descriptor it answers (`Origin`).

* `QuietDesc`, `PriorReported`: what a quiet's flag promises;
* `QuietInv`, kept by every step;
* `quiet_never_early`: when the flag of a quiet is set, every network-issuing descriptor its
  queue received before it has been dispatched and its request reported complete.
-/

namespace RocShmem

/-- Descriptor `j` of the dispatch order is a fence, quiet or finalize of thread `t` of
queue `W`. -/
def QuietDesc (popped : List (QueueElement × ℤ)) (j : ℕ) (W t : ℤ) : Prop :=
  ∃ q, popped[j]? = some (q, W) ∧ q.type.isQuiet = true ∧ q.threadId = t

/-- Every request started by a descriptor of queue `W` dispatched before descriptor `j` is
reported complete in `T`. -/
def PriorReported (popped : List (QueueElement × ℤ)) (issued : List (Option ℕ)) (j : ℕ) (W : ℤ)
    (T : List Event) : Prop :=
  ∀ k < j, ∀ e r, popped[k]? = some (e, W) → issued[k]? = some (some r) → Event.reported r ∈ T

theorem lt_length_of_getElem? {α : Type*} {l : List α} {n : ℕ} {a : α} (h : l[n]? = some a) :
    n < l.length :=
  (List.getElem?_eq_some_iff.1 h).1

theorem getElem?_append_singleton {α : Type*} {l : List α} {a b : α} {k : ℕ}
    (h : (l ++ [a])[k]? = some b) : (k < l.length ∧ l[k]? = some b) ∨ (k = l.length ∧ a = b) := by
  rcases lt_or_ge k l.length with hlt | hge
  · exact .inl ⟨hlt, by rwa [List.getElem?_append_left hlt] at h⟩
  · have := lt_length_of_getElem? h
    simp only [List.length_append, List.length_singleton] at this
    obtain rfl : k = l.length := by omega
    exact .inr ⟨rfl, by simpa using h⟩

theorem mem_take_of_isPrefix {α : Type*} {l₁ l₂ : List α} (h : l₁ <+: l₂) {m : ℕ}
    (hm : l₁.length ≤ m) {a : α} (ha : a ∈ l₁) : a ∈ l₂.take m := by
  obtain ⟨u, rfl⟩ := h
  rw [List.take_append_eq_append_take, List.take_of_length_le hm]
  exact List.mem_append_left _ ha

theorem getElem?_of_isPrefix {α : Type*} {l₁ l₂ : List α} (h : l₁ <+: l₂) {n : ℕ}
    (hn : n < l₁.length) : l₂[n]? = l₁[n]? := by
  obtain ⟨t, rfl⟩ := h
  exact List.getElem?_append_left hn

section Mono

variable {popped popped' : List (QueueElement × ℤ)} {issued issued' : List (Option ℕ)}
  {j : ℕ} {W t : ℤ}

theorem QuietDesc.mono (h : QuietDesc popped j W t) (hp : popped <+: popped') :
    QuietDesc popped' j W t := by
  obtain ⟨q, hq, hq'⟩ := h
  exact ⟨q, (getElem?_of_isPrefix hp (lt_length_of_getElem? hq)).trans hq, hq'⟩

theorem PriorReported.mono {T T' : List Event} (h : PriorReported popped issued j W T)
    (hp : popped <+: popped') (hi : issued <+: issued') (hj : j ≤ popped.length)
    (hji : j ≤ issued.length) (hT : T ⊆ T') : PriorReported popped' issued' j W T' := by
  intro k hk e r he hr
  rw [getElem?_of_isPrefix hp (by omega)] at he
  rw [getElem?_of_isPrefix hi (by omega)] at hr
  exact hT (h k hk e r he hr)

end Mono

/-- The invariant behind `quiet_never_early`: each dispatched descriptor has its entry in
`issued`, one with a handle exactly when it issues a request; such a request is reported
complete or still in flight under its queue id; every waiter waits for a quiet of its own; and
every flag set for a quiet so far came after the reports of the requests it waited for. -/
structure QuietInv (s : Engine) : Prop where
  issued_length : s.issued.length = s.queue.popped.length
  issued_isSome : ∀ (k : ℕ) (e : QueueElement) (w : ℤ), s.queue.popped[k]? = some (e, w) →
    ∃ r : Option ℕ, s.issued[k]? = some r ∧ r.isSome = e.type.issuesRequest
  issued_tracked : ∀ (k : ℕ) (e : QueueElement) (w : ℤ) (r : ℕ), s.queue.popped[k]? = some (e, w) →
    s.issued[k]? = some (some r) →
    Event.reported r ∈ s.trace ∨ ∃ x ∈ s.reqVec.zip s.reqPropVec, x.1.id = r ∧ x.2.wgId = w
  waiting_desc : ∀ W x, x ∈ s.waitingQuiet W → QuietDesc s.queue.popped x.2 W x.1
  quiet_safe : ∀ (m : ℕ) (W t : ℤ) (o : Origin) (j : ℕ), s.trace[m]? = some (.status W t o) →
    (o = .quiet j ∨ o = .wake j) →
    QuietDesc s.queue.popped j W t ∧ PriorReported s.queue.popped s.issued j W (s.trace.take m)

namespace QuietInv

variable {s s' : Engine}

theorem init (n w : ℕ) (pe : ℤ) : QuietInv (initTransport n w pe) where
  issued_length := rfl
  issued_isSome k e w h := by simp [initTransport, RequestQueue.empty] at h
  issued_tracked k e w r h := by simp [initTransport, RequestQueue.empty] at h
  waiting_desc W x h := by simp [initTransport] at h
  quiet_safe m W t o j h := by simp [initTransport] at h

theorem of_frame (h : QuietInv s) (hp : s'.queue.popped = s.queue.popped)
    (hi : s'.issued = s.issued) (ht : s'.trace = s.trace) (hv : s'.reqVec = s.reqVec)
    (hpv : s'.reqPropVec = s.reqPropVec) (hw : s'.waitingQuiet = s.waitingQuiet) :
    QuietInv s' := by
  obtain ⟨h₁, h₂, h₃, h₄, h₅⟩ := h
  refine ⟨?_, ?_, ?_, ?_, ?_⟩ <;> simp only [hp, hi, ht, hv, hpv, hw] <;> assumption

/-- A flag set before a step keeps its promise after it, when the step only extends the
dispatch order, `issued` and the trace. -/
theorem safe_old (h : QuietInv s) (hp : s.queue.popped <+: s'.queue.popped)
    (hi : s.issued <+: s'.issued) (ht : s.trace <+: s'.trace) {m : ℕ} {W t : ℤ} {o : Origin}
    {j : ℕ} (hm : m < s.trace.length) (hev : s'.trace[m]? = some (.status W t o))
    (ho : o = .quiet j ∨ o = .wake j) :
    QuietDesc s'.queue.popped j W t ∧
      PriorReported s'.queue.popped s'.issued j W (s'.trace.take m) := by
  rw [getElem?_of_isPrefix ht hm] at hev
  obtain ⟨hd, hpr⟩ := h.quiet_safe m W t o j hev ho
  have hj := lt_length_of_getElem? hd.choose_spec.1
  refine ⟨hd.mono hp, hpr.mono hp hi hj.le (h.issued_length ▸ hj.le) ?_⟩
  obtain ⟨u, hu⟩ := ht
  rw [← hu, List.take_append_of_le_length hm.le]
  exact List.Subset.refl _

/-- With nothing of queue `w` in flight, every request started by a dispatched descriptor of
`w` has been reported, so a quiet of `w` may complete at once. -/
theorem priorReported_of_idle (h : QuietInv s) (hI : s.InflightInv) {w : ℤ}
    (h0 : s.outstanding w = 0) :
    PriorReported s.queue.popped s.issued s.issued.length w s.trace := by
  intro k _ e r he hr
  rcases h.issued_tracked k e w r he hr with h1 | ⟨y, hy, -, hyw⟩
  · exact h1
  · have hpos : 0 < s.reqPropVec.countP (·.wgId = w) :=
      List.countP_pos_iff.2 ⟨y.2, (List.of_mem_zip hy).2, decide_eq_true hyw⟩
    have := hI.outstanding_eq w
    omega

/-- A step that appends one descriptor to the dispatch order and its entry to `issued`, and
otherwise only appends to the trace, the in-flight pairs and the waiters, keeps the invariant
given what its own additions promise. -/
theorem append_step (h : QuietInv s) {x : QueueElement × ℤ} {ι : Option ℕ} (newTrace : List Event)
    (newZip : List (Request × RequestProperties)) (newWait : ℤ → List (ℤ × ℕ))
    (hp : s'.queue.popped = s.queue.popped ++ [x]) (hi : s'.issued = s.issued ++ [ι])
    (ht : s'.trace = s.trace ++ newTrace)
    (hz : s'.reqVec.zip s'.reqPropVec = s.reqVec.zip s.reqPropVec ++ newZip)
    (hw : ∀ W, s'.waitingQuiet W = s.waitingQuiet W ++ newWait W)
    (hι : ι.isSome = x.1.type.issuesRequest)
    (hιt : ∀ r, ι = some r → ∃ y ∈ newZip, y.1.id = r ∧ y.2.wgId = x.2)
    (hnw : ∀ W y, y ∈ newWait W → QuietDesc s'.queue.popped y.2 W y.1)
    (hnt : ∀ m W t o j, s.trace.length ≤ m → s'.trace[m]? = some (.status W t o) →
      (o = .quiet j ∨ o = .wake j) →
      QuietDesc s'.queue.popped j W t ∧
        PriorReported s'.queue.popped s'.issued j W (s'.trace.take m)) :
    QuietInv s' where
  issued_length := by simp [hp, hi, h.issued_length]
  issued_isSome k e w hk := by
    rw [hp] at hk
    rw [hi]
    rcases getElem?_append_singleton hk with ⟨hlt, hk⟩ | ⟨rfl, rfl⟩
    · rw [List.getElem?_append_left (h.issued_length ▸ hlt)]
      exact h.issued_isSome k e w hk
    · exact ⟨ι, by simp [h.issued_length], hι⟩
  issued_tracked k e w r hk hr := by
    rw [hp] at hk
    rw [hi] at hr
    rw [ht, hz]
    rcases getElem?_append_singleton hk with ⟨hlt, hk⟩ | ⟨rfl, rfl⟩
    · rw [List.getElem?_append_left (h.issued_length ▸ hlt)] at hr
      rcases h.issued_tracked k e w r hk hr with h1 | ⟨y, hy, h2⟩
      · exact .inl (List.mem_append_left _ h1)
      · exact .inr ⟨y, List.mem_append_left _ hy, h2⟩
    · obtain ⟨y, hy, h2⟩ := hιt r (by simpa [h.issued_length] using hr)
      exact .inr ⟨y, List.mem_append_right _ hy, h2⟩
  waiting_desc W y hy := by
    rw [hw] at hy
    rcases List.mem_append.1 hy with hy | hy
    · exact (h.waiting_desc W y hy).mono (hp ▸ List.prefix_append _ _)
    · exact hnw W y hy
  quiet_safe m W t o j hm ho := by
    rcases lt_or_ge m s.trace.length with hlt | hge
    · exact h.safe_old (hp ▸ List.prefix_append _ _) (hi ▸ List.prefix_append _ _)
        (ht ▸ List.prefix_append _ _) hlt hm ho
    · exact hnt m W t o j hge hm ho

/-- The dispatch of a descriptor, with the request it started recorded, keeps the invariant. -/
theorem submit (h : QuietInv s) (hI : s.InflightInv) {e : QueueElement} {w : ℤ}
    {Q : RequestQueue} {d : Engine} (hp : s.queue.pop = some ((e, w), Q))
    (hd : Engine.dispatch { s with queue := Q } e w = .ok d) :
    QuietInv { d with issued := d.issued ++
      [if e.type.issuesRequest then some s.nextRequest else none] } := by
  obtain ⟨-, -, -, -, hpop⟩ := RequestQueue.pop_eq_some hp
  have hι : (if e.type.issuesRequest then some s.nextRequest else none).isSome =
      e.type.issuesRequest := by split <;> simp_all
  have hnone : e.type.issuesRequest = false →
      ∀ r, (if e.type.issuesRequest then some s.nextRequest else none) ≠ some r := by
    intro hf r; simp [hf]
  have hdesc : e.type.isQuiet = true →
      QuietDesc (s.queue.popped ++ [(e, w)]) s.issued.length w e.threadId :=
    fun hq => ⟨e, by simp [h.issued_length], hq, rfl⟩
  have hstale : ∀ m W t o, s.trace.length ≤ m → s.trace[m]? ≠ some (.status W t o) :=
    fun m W t o hm => by rw [List.getElem?_eq_none hm]; exact Option.noConfusion
  rcases Engine.dispatch_cases hd with
    ⟨hiss, c, b, call, p, hpw, -, rfl⟩ | ⟨hq, rfl⟩ | ⟨hiss, hq, rfl⟩
  · refine h.append_step [] [(⟨s.nextRequest, call⟩, p)] (fun _ => []) hpop rfl
      (List.append_nil s.trace).symm
      (List.zip_append hI.length_eq) (fun W => (List.append_nil (s.waitingQuiet W)).symm) hι
      (fun r hr => ⟨_, List.mem_singleton_self _, by simp_all⟩) (fun W y hy => by cases hy)
      (fun m W t o j hm hev _ => absurd hev (hstale m W t o hm))
  · have hiss := RoNetCmd.issuesRequest_of_isQuiet hq
    by_cases h0 : s.outstanding w = 0
    · rw [Engine.quiet_of_eq_zero (s := { s with queue := Q }) h0]
      refine h.append_step [.status w e.threadId (.quiet s.issued.length)] [] (fun _ => []) hpop
        rfl rfl
        (List.append_nil (s.reqVec.zip s.reqPropVec)).symm
        (fun W => (List.append_nil (s.waitingQuiet W)).symm) hι
        (fun r hr => absurd hr (hnone hiss r))
        (fun W y hy => by cases hy) (fun m W t o j hm hev ho => ?_)
      have hev' : (s.trace ++ [.status w e.threadId (.quiet s.issued.length)])[m]? =
          some (.status W t o) := hev
      rcases getElem?_append_singleton hev' with ⟨hlt, -⟩ | ⟨rfl, hx⟩
      · omega
      obtain ⟨rfl, rfl, rfl⟩ := Event.status.inj hx
      obtain rfl : j = s.issued.length := by rcases ho with h1 | h1 <;> cases h1; rfl
      refine ⟨hpop ▸ hdesc hq, (h.priorReported_of_idle hI h0).mono (hpop ▸ List.prefix_append _ _)
        (List.prefix_append _ _) h.issued_length.le le_rfl ?_⟩
      show s.trace ⊆ (s.trace ++ _).take s.trace.length
      rw [List.take_left]
      exact List.Subset.refl _
    · rw [Engine.quiet_of_ne_zero (s := { s with queue := Q }) h0]
      refine h.append_step [] [] (fun W => if W = w then [(e.threadId, s.issued.length)] else [])
        hpop rfl
        (List.append_nil s.trace).symm (List.append_nil (s.reqVec.zip s.reqPropVec)).symm
        (fun W => ?_) hι (fun r hr => absurd hr (hnone hiss r)) (fun W y hy => ?_)
        (fun m W t o j hm hev _ => absurd hev (hstale m W t o hm))
      · simp only [Function.update_apply]
        split_ifs with hW
        · subst hW; rfl
        · exact (List.append_nil _).symm
      · dsimp only at hy
        split_ifs at hy with hW
        · subst hW
          obtain rfl := List.mem_singleton.1 hy
          exact hpop ▸ hdesc hq
        · cases hy
  · refine h.append_step [.status w e.threadId .atomic] [] (fun _ => []) hpop rfl rfl
      (List.append_nil (s.reqVec.zip s.reqPropVec)).symm
      (fun W => (List.append_nil (s.waitingQuiet W)).symm) hι (fun r hr => absurd hr (hnone hiss r))
      (fun W y hy => by cases hy) (fun m W t o j hm hev ho => ?_)
    have hev' : (s.trace ++ [.status w e.threadId .atomic])[m]? = some (.status W t o) := hev
    rcases getElem?_append_singleton hev' with ⟨hlt, -⟩ | ⟨rfl, hx⟩
    · omega
    obtain ⟨-, -, rfl⟩ := Event.status.inj hx
    rcases ho with h1 | h1 <;> cases h1

/-- A completion step keeps the invariant: a request is either reported by this step or left in
flight, and a waiter is woken only once the requests of its workgroup are all reported. -/
theorem progress (h : QuietInv s) (hI : s.InflightInv) {S : List ℕ} (hS : S.Nodup)
    (hb : ∀ i ∈ S, i < s.reqVec.length) : QuietInv (s.progress S) := by
  obtain ⟨evs, he, -⟩ := Engine.progress_trace_reported hb
  have hpre : s.trace <+: (s.progress S).trace := (Engine.progress_releases s S).trace_isPrefix
  have hpreR : (s.reportCompleted S).trace <+: (s.progress S).trace := by
    rw [Engine.progress_trace hb]; exact (Engine.foldl_completeAt_releases S _).trace_isPrefix
  have hrep : ∀ i ∈ S, ∀ y, (s.reqVec.zip s.reqPropVec)[i]? = some y →
      Event.reported y.1.id ∈ (s.reportCompleted S).trace := fun i hi y hy => by
    have hy1 : s.reqVec.getD i default = y.1 := by
      rw [List.getD_eq_getElem?_getD, (List.getElem?_zip_eq_some.1 hy).1]; rfl
    exact List.mem_append_right _ (List.mem_map.2 ⟨i, hi, by rw [hy1]⟩)
  refine ⟨by simpa using h.issued_length, by simpa using h.issued_isSome, ?issued_tracked,
    ?waiting_desc, ?quiet_safe⟩
  case issued_tracked =>
    intro k e w r hk hr
    rw [Engine.progress_queue] at hk
    rw [Engine.progress_issued] at hr
    rcases h.issued_tracked k e w r hk hr with h1 | ⟨y, hy, rfl, hyw⟩
    · exact .inl (hpre.subset h1)
    · obtain ⟨i, hi⟩ := List.getElem?_of_mem hy
      by_cases hiS : i ∈ S
      · exact .inl (hpreR.subset (hrep i hiS y hi))
      · refine .inr ⟨y, ?_, rfl, hyw⟩
        rw [Engine.progress_reqVec hS hb, Engine.progress_reqPropVec hS hb, zip_removeAt]
        exact mem_removeAt_of_getElem? hi (by simpa using hiS)
  case waiting_desc =>
    intro W x hx
    rw [Engine.progress_waitingQuiet hb] at hx
    rw [Engine.progress_queue]
    exact h.waiting_desc W x (Engine.mem_foldl_completeAt_waitingQuiet S (s.reportCompleted S) hx)
  case quiet_safe =>
    intro m W t o j hm ho
    rw [Engine.progress_queue, Engine.progress_issued]
    rcases lt_or_ge m s.trace.length with hlt | hge
    · simpa using h.safe_old (by simp) (by simp) hpre hlt hm ho
    have hR : (s.reportCompleted S).trace.length ≤ m := by
      by_contra hlt
      rw [Engine.reportCompleted_trace, List.length_append] at hlt
      rw [he, List.getElem?_append_left (by simp only [List.length_append]; omega),
        List.getElem?_append_right hge, List.getElem?_map] at hm
      cases h' : S[m - s.trace.length]? <;> simp [h'] at hm
    rw [Engine.progress_trace hb] at hm
    obtain ⟨hx, k, hk⟩ := Engine.foldl_completeAt_quiet S (s.reportCompleted S) ho hR hm
    refine ⟨h.waiting_desc W (t, j) hx, fun k' _ e r he' hr => ?_⟩
    rcases h.issued_tracked k' e W r he' hr with h1 | ⟨y, hy, rfl, hyW⟩
    · exact mem_take_of_isPrefix hpre (by omega) h1
    · obtain ⟨i, hi⟩ := List.getElem?_of_mem hy
      have hW : W ≠ -1 := by have := (hI.wgId_range y.2 (List.of_mem_zip hy).2).1; omega
      rw [Engine.foldl_completeAt_outstanding, Engine.reportCompleted_outstanding,
        Engine.reportCompleted_reqPropVec, if_neg hW] at hk
      have hiS := hI.mem_of_settled ((List.take_sublist k S).nodup hS)
        (fun i hi => hb i (List.mem_of_mem_take hi)) hk hi hyW
      exact mem_take_of_isPrefix hpreR hR (hrep i (List.mem_of_mem_take hiS) y hi)

theorem step {a : Action} (h : QuietInv s) (hE : EngineInv s) (hs : s.step a = some s') :
    QuietInv s' := by
  cases a with
  | insert e w =>
    simp only [Engine.step] at hs
    split_ifs at hs
    cases hs
    exact h.of_frame rfl rfl rfl rfl rfl rfl
  | check =>
    simp only [Engine.step] at hs
    split_ifs at hs
    cases hs
    exact h.of_frame (RequestQueue.check_popped _) rfl rfl rfl rfl rfl
  | submit =>
    simp only [Engine.step] at hs
    split_ifs at hs
    obtain ⟨e, w, Q, d, hp, hd, rfl⟩ := Engine.submitRequestsToMPI_ok (eq_ok_of_toOption hs)
    exact h.submit hE.inflight hp hd
  | progress S =>
    simp only [Engine.step] at hs
    split_ifs at hs with hg
    cases hs
    exact h.progress hE.inflight hg.2.1 fun i hi => lt_of_lt_of_le (hg.2.2 i hi) (min_le_left _ _)

end QuietInv

theorem Reachable.quietInv {s : Engine} (h : Reachable s) : QuietInv s := by
  induction h with
  | init n w pe => exact .init n w pe
  | step hs hstep ih => exact ih.step hs.engineInv hstep

/-- **Quiet never completes early.** Whenever the flag of thread `t` of queue `W` is set for a
fence, quiet or finalize, at once by `quiet` or later by the `waiting_quiet` loop of `progress`
(event `m` of the trace, answering descriptor `j`), that descriptor is the `j`-th inserted, a
quiet of `(W, t)` already dispatched; and every network-issuing descriptor inserted with queue
id `W` before it has been dispatched, and the request it started was reported complete before
event `m`. -/
theorem quiet_never_early {s : Engine} (hs : Reachable s) {m j : ℕ} {W t : ℤ} {o : Origin}
    (hm : s.trace[m]? = some (.status W t o)) (ho : o = .quiet j ∨ o = .wake j) :
    (∃ q, s.queue.inserted[j]? = some (q, W) ∧ q.type.isQuiet = true ∧ q.threadId = t ∧
      j < s.queue.popped.length) ∧
    ∀ k < j, ∀ e, s.queue.inserted[k]? = some (e, W) → e.type.issuesRequest = true →
      k < s.queue.popped.length ∧ ∃ r, s.issued[k]? = some (some r) ∧ Event.reported r ∈ s.trace.take m := by
  have hQ := hs.quietInv
  have hpre : s.queue.popped <+: s.queue.inserted :=
    (hs.engineInv.queue.history) ▸ List.prefix_append _ _
  obtain ⟨⟨q, hq, hqq, hqt⟩, hpr⟩ := hQ.quiet_safe m W t o j hm ho
  have hj := lt_length_of_getElem? hq
  refine ⟨⟨q, (getElem?_of_isPrefix hpre hj).trans hq, hqq, hqt, hj⟩, fun k hk e he hiss => ?_⟩
  rw [getElem?_of_isPrefix hpre (by omega)] at he
  obtain ⟨r, hr, hrs⟩ := hQ.issued_isSome k e W he
  rw [hiss] at hrs
  obtain ⟨r, rfl⟩ := Option.isSome_iff_exists.1 hrs
  exact ⟨by omega, r, hr, hpr k hk e r he hr⟩

theorem putThenQuietDone_reachable : Reachable putThenQuietDone :=
  putThenQuietState_reachable.run (Option.some_get _).symm

theorem quiet_never_early_putThenQuiet :
    (∃ q, putThenQuietDone.queue.inserted[1]? = some (q, 0) ∧ q.type.isQuiet = true ∧
      q.threadId = 3 ∧ 1 < putThenQuietDone.queue.popped.length) ∧
    ∀ k < 1, ∀ e, putThenQuietDone.queue.inserted[k]? = some (e, 0) → e.type.issuesRequest = true →
      k < putThenQuietDone.queue.popped.length ∧ ∃ r, putThenQuietDone.issued[k]? = some (some r) ∧
        Event.reported r ∈ putThenQuietDone.trace.take 2 :=
  quiet_never_early putThenQuietDone_reachable (m := 2) (by decide) (.inr rfl)

end RocShmem
