import RocShmem.Quiet
import RocShmem.Ledger

/-!
# No spurious status flags

A GPU thread that posts a blocking operation, an atomic or a quiet spins on
`handle->queue_descs[wg_id].status[threadId]` until the progress thread sets it. The engine sets
that flag from four code places (`Origin`): the completion loop of `progress` for a blocking
request, the atomics, `quiet`, and the `waiting_quiet` loop. Each write answers a descriptor the
thread itself posted and the engine has taken off the queue, of the kind the code place serves:
a completion flag is set only for a blocking request whose completion `MPI_Testsome` has already
reported, never for a `PUT_NBI` or `GET_NBI`. And every fence, quiet or finalize is answered
exactly once: at once by `quiet`, or after waiting in `waiting_quiet`, never twice and never
lost.

* `Answers`: what a flag from a given code place answers;
* `SignalInv`, kept by every step; `status_flag_answers`;
* `quietRecord`, `QuietLedger`, kept by every step; `quiet_answered_once`.
-/

namespace RocShmem

/-- What the flag of thread `t` of queue `W` set from code place `o` answers, given the
dispatch order, the request each dispatched descriptor started, and the events `T` before the
flag: a completion answers a descriptor of `(W, t)` that started a blocking request reported in
`T`; an atomic answers an `AMO_FOP` or `AMO_FCAS` of `(W, t)`; a quiet or a wake answers the
fence, quiet or finalize it names. -/
def Answers (popped : List (QueueElement × ℤ)) (issued : List (Option ℕ)) (T : List Event)
    (W t : ℤ) : Origin → Prop
  | .completion => ∃ (k : ℕ) (e : QueueElement) (r : ℕ), popped[k]? = some (e, W) ∧ e.threadId = t ∧
      e.type.issuesRequest = true ∧ e.type ≠ .putNbi ∧ e.type ≠ .getNbi ∧
      issued[k]? = some (some r) ∧ Event.reported r ∈ T
  | .atomic => ∃ (k : ℕ) (e : QueueElement), popped[k]? = some (e, W) ∧ e.threadId = t ∧
      (e.type = .amoFop ∨ e.type = .amoFcas)
  | .quiet j => QuietDesc popped j W t
  | .wake j => QuietDesc popped j W t

/-- The in-flight pair `x` was started by a dispatched descriptor of its issuer that issues a
request, blocking only if it is not a `PUT_NBI` or `GET_NBI`. -/
def StartedBy (popped : List (QueueElement × ℤ)) (issued : List (Option ℕ))
    (x : Request × RequestProperties) : Prop :=
  ∃ (k : ℕ) (e : QueueElement), popped[k]? = some (e, x.2.wgId) ∧ e.threadId = x.2.threadId ∧
    e.type.issuesRequest = true ∧ issued[k]? = some (some x.1.id) ∧
    (x.2.blocking = true → e.type ≠ .putNbi ∧ e.type ≠ .getNbi)

section Mono

variable {popped popped' : List (QueueElement × ℤ)} {issued issued' : List (Option ℕ)}

theorem Answers.mono {T T' : List Event} {W t : ℤ} {o : Origin}
    (h : Answers popped issued T W t o) (hp : popped <+: popped') (hi : issued <+: issued')
    (hT : T ⊆ T') : Answers popped' issued' T' W t o := by
  cases o with
  | completion =>
    obtain ⟨k, e, r, hk, h1, h2, h3, h4, hr, hrT⟩ := h
    exact ⟨k, e, r, (getElem?_of_isPrefix hp (lt_length_of_getElem? hk)).trans hk, h1, h2, h3,
      h4, (getElem?_of_isPrefix hi (lt_length_of_getElem? hr)).trans hr, hT hrT⟩
  | atomic =>
    obtain ⟨k, e, hk, h1, h2⟩ := h
    exact ⟨k, e, (getElem?_of_isPrefix hp (lt_length_of_getElem? hk)).trans hk, h1, h2⟩
  | quiet j => exact QuietDesc.mono h hp
  | wake j => exact QuietDesc.mono h hp

theorem StartedBy.mono {x : Request × RequestProperties} (h : StartedBy popped issued x)
    (hp : popped <+: popped') (hi : issued <+: issued') : StartedBy popped' issued' x := by
  obtain ⟨k, e, hk, h1, h2, hr, h3⟩ := h
  exact ⟨k, e, (getElem?_of_isPrefix hp (lt_length_of_getElem? hk)).trans hk, h1, h2,
    (getElem?_of_isPrefix hi (lt_length_of_getElem? hr)).trans hr, h3⟩

end Mono

namespace Engine

/-- The flags the completion loop sets itself: the completion flag of a blocking request at a
reported position, and the flags of woken waiters. -/
theorem status_mem_foldl_completeAt {t : Engine} {S : List ℕ} {evs : List Event}
    (he : (S.foldl completeAt t).trace = t.trace ++ evs) {W w : ℤ} {o : Origin}
    (hm : Event.status W w o ∈ evs) :
    (o = .completion ∧ ∃ i ∈ S, (t.reqPropVec.getD i default).blocking = true ∧
      (t.reqPropVec.getD i default).wgId = W ∧ (t.reqPropVec.getD i default).threadId = w) ∨
    ∃ j, o = .wake j := by
  induction S generalizing t evs with
  | nil =>
    obtain rfl : evs = [] := by simpa using he
    cases hm
  | cons i S ih =>
    obtain ⟨woken, hw⟩ := completeAt_trace t i
    obtain ⟨evs', he', -⟩ := foldl_completeAt_trace S (t.completeAt i)
    rw [List.foldl_cons, he', hw, List.append_assoc, List.append_cancel_left_eq] at he
    subst he
    rcases List.mem_append.1 hm with hm | hm
    · unfold iterationEvents at hm
      simp only [List.mem_append, List.mem_map] at hm
      rcases hm with (hm | hm) | ⟨x, -, hx⟩
      · split_ifs at hm with hb
        · obtain ⟨rfl, rfl, rfl⟩ := Event.status.inj (List.mem_singleton.1 hm)
          exact .inl ⟨rfl, i, List.mem_cons_self _ _, hb.1, rfl, rfl⟩
        · cases hm
      · split_ifs at hm <;> simp at hm
      · exact .inr ⟨x.2, (Event.status.inj hx).2.2.symm⟩
    · rcases ih he' hm with ⟨ho, i', hi', hb⟩ | hw
      · rw [completeAt_reqPropVec] at hb
        exact .inl ⟨ho, i', List.mem_cons_of_mem _ hi', hb⟩
      · exact .inr hw

/-- `quiet` keeps the in-flight lists and sets, if anything, the flag of a quiet. -/
theorem quiet_cases (s : Engine) (w t : ℤ) :
    (s.quiet w t).reqVec = s.reqVec ∧ (s.quiet w t).reqPropVec = s.reqPropVec ∧
    ∃ evs, (s.quiet w t).trace = s.trace ++ evs ∧ ∀ ev ∈ evs, ∃ j, ev = .status w t (.quiet j) := by
  unfold quiet
  split_ifs
  · exact ⟨rfl, rfl, _, rfl, fun ev hev => ⟨_, List.mem_singleton.1 hev⟩⟩
  · exact ⟨rfl, rfl, [], (List.append_nil _).symm, fun ev hev => by cases hev⟩

/-- Every in-flight request was started by a dispatched descriptor of its issuer, and every
completion or atomic flag set so far answers a descriptor of its thread. -/
structure SignalInv (s : Engine) : Prop where
  started : ∀ x ∈ s.reqVec.zip s.reqPropVec, StartedBy s.queue.popped s.issued x
  flags : ∀ (m : ℕ) (W t : ℤ) (o : Origin), s.trace[m]? = some (.status W t o) →
    (o = .completion ∨ o = .atomic) → Answers s.queue.popped s.issued (s.trace.take m) W t o

namespace SignalInv

variable {s s' : Engine}

theorem init (n w : ℕ) (pe : ℤ) : SignalInv (initTransport n w pe) where
  started x hx := by simp [initTransport] at hx
  flags m W t o h := by simp [initTransport] at h

/-- A step that extends the dispatch order, `issued` and the trace keeps the invariant, given
that its new in-flight pairs were started by a descriptor and its new flags answer one. -/
theorem extend (h : SignalInv s) (hp : s.queue.popped <+: s'.queue.popped)
    (hi : s.issued <+: s'.issued) (ht : s.trace <+: s'.trace)
    (hz : ∀ x ∈ s'.reqVec.zip s'.reqPropVec,
      x ∈ s.reqVec.zip s.reqPropVec ∨ StartedBy s'.queue.popped s'.issued x)
    (hnew : ∀ (m : ℕ) (W t : ℤ) (o : Origin), s.trace.length ≤ m →
      s'.trace[m]? = some (.status W t o) → (o = .completion ∨ o = .atomic) →
      Answers s'.queue.popped s'.issued (s'.trace.take m) W t o) : SignalInv s' where
  started x hx := (hz x hx).elim (fun hx => (h.started x hx).mono hp hi) id
  flags m W t o hm ho := by
    rcases lt_or_ge m s.trace.length with hlt | hge
    · rw [getElem?_of_isPrefix ht hlt] at hm
      obtain ⟨u, hu⟩ := ht
      refine (h.flags m W t o hm ho).mono hp hi ?_
      rw [← hu, List.take_append_of_le_length hlt.le]
      exact List.Subset.refl _
    · exact hnew m W t o hge hm ho

theorem submit (h : SignalInv s) (hQ : QuietInv s) (hI : s.InflightInv) {e : QueueElement}
    {w : ℤ} {Q : RequestQueue} {d : Engine} (hp : s.queue.pop = some ((e, w), Q))
    (hd : dispatch { s with queue := Q } e w = .ok d) :
    SignalInv { d with issued := d.issued ++
      [if e.type.issuesRequest then some s.nextRequest else none] } := by
  obtain ⟨-, -, -, -, hpop⟩ := RequestQueue.pop_eq_some hp
  obtain ⟨-, hdq, hdi⟩ := dispatch_frame hd
  have hpop' : d.queue.popped = s.queue.popped ++ [(e, w)] := by rw [hdq]; exact hpop
  have hk : (d.queue.popped)[s.queue.popped.length]? = some (e, w) := by
    rw [hpop', List.getElem?_concat_length]
  have hik : (d.issued ++ [if e.type.issuesRequest then some s.nextRequest else none])[
      s.queue.popped.length]? = some (if e.type.issuesRequest then some s.nextRequest else none) := by
    rw [hdi, ← hQ.issued_length, List.getElem?_concat_length]
  have hpre : s.queue.popped <+: d.queue.popped := hpop' ▸ List.prefix_append _ _
  have hipre : s.issued <+: d.issued ++ [if e.type.issuesRequest then some s.nextRequest else none] :=
    hdi ▸ List.prefix_append _ _
  rcases dispatch_inv hd with ⟨hiss, c, call, p, hpw, hpt, hpb, -, rfl⟩ | ⟨-, rfl⟩ | ⟨hat, rfl⟩
  · refine h.extend hpre hipre (List.prefix_refl _) (fun x hx => ?_) fun m W t o hm hev _ => ?_
    swap
    · have hev' : s.trace[m]? = some (.status W t o) := hev
      rw [List.getElem?_eq_none hm] at hev'
      cases hev'
    simp only [track] at hx
    rw [List.zip_append (by exact hI.length_eq)] at hx
    rcases List.mem_append.1 hx with hx | hx
    · exact .inl hx
    · obtain rfl := List.mem_singleton.1 hx
      refine .inr ⟨_, e, hpw ▸ hk, hpt.symm, hiss, ?_, fun hb => hpb.1 hb⟩
      rw [hik, if_pos hiss]
  · obtain ⟨hv, hpv, evs, he, hq⟩ := quiet_cases { s with queue := Q } w e.threadId
    refine h.extend hpre hipre ⟨evs, he.symm⟩ (fun x hx => .inl ?_) fun m W t o hm hev ho => ?_
    · simpa only [hv, hpv] using hx
    · have hev' : (s.trace ++ evs)[m]? = some (.status W t o) := he ▸ hev
      rw [List.getElem?_append_right hm] at hev'
      obtain ⟨j, hj⟩ := hq _ (List.getElem?_mem hev')
      obtain ⟨-, -, rfl⟩ := Event.status.inj hj
      rcases ho with ho | ho <;> cases ho
  · refine h.extend hpre hipre (List.prefix_append _ _) (fun x hx => .inl hx)
      fun m W t o hm hev _ => ?_
    have hev' : (s.trace ++ [.status w e.threadId .atomic])[m]? = some (.status W t o) := hev
    rcases getElem?_append_singleton hev' with ⟨hlt, -⟩ | ⟨rfl, hx⟩
    · omega
    obtain ⟨rfl, rfl, rfl⟩ := Event.status.inj hx
    exact ⟨_, e, hk, rfl, hat⟩

theorem progress (h : SignalInv s) (hI : s.InflightInv) {S : List ℕ} (hS : S.Nodup)
    (hb : ∀ i ∈ S, i < s.reqVec.length) : SignalInv (s.progress S) := by
  obtain ⟨evs, he, -⟩ := foldl_completeAt_trace S (s.reportCompleted S)
  have ht : (s.progress S).trace =
      s.trace ++ S.map (fun i => .reported (s.reqVec.getD i default).id) ++ evs := by
    rw [progress_trace hb, he, reportCompleted_trace]
  refine h.extend (by rw [progress_queue]) (by rw [progress_issued])
    ⟨_, by rw [ht, List.append_assoc]⟩ (fun x hx => .inl ?_) fun m W t o hm hev ho => ?_
  · rw [progress_reqVec hS hb, progress_reqPropVec hS hb, zip_removeAt] at hx
    exact (removeAt_sublist _ _).subset hx
  rw [progress_queue, progress_issued]
  rw [ht] at hev
  rcases lt_or_ge m (s.trace ++ S.map fun i => Event.reported (s.reqVec.getD i default).id).length
    with hlt | hge
  · rw [List.getElem?_append_left hlt, List.getElem?_append_right hm, List.getElem?_map] at hev
    cases h' : S[m - s.trace.length]? <;> simp [h'] at hev
  rw [List.getElem?_append_right hge] at hev
  rcases status_mem_foldl_completeAt he (List.getElem?_mem hev) with
    ⟨rfl, i, hi, hblk, rfl, rfl⟩ | ⟨j, rfl⟩
  · have hiv := hb i hi
    have hip : i < s.reqPropVec.length := hI.length_eq ▸ hiv
    simp only [reportCompleted_reqPropVec, List.getD_eq_getElem _ _ hip] at hblk ⊢
    obtain ⟨k, e, hk, h1, h2, hr, h3⟩ := h.started (s.reqVec[i], s.reqPropVec[i]) (List.getElem?_mem
      (List.getElem?_zip_eq_some.2 ⟨List.getElem?_eq_getElem hiv, List.getElem?_eq_getElem hip⟩))
    refine ⟨k, e, _, hk, h1, h2, (h3 hblk).1, (h3 hblk).2, hr, ?_⟩
    refine mem_take_of_isPrefix ⟨evs, ht.symm⟩ hge (List.mem_append_right _ (List.mem_map.2
      ⟨i, hi, by rw [List.getD_eq_getElem _ _ hiv]⟩))
  · rcases ho with ho | ho <;> cases ho

theorem step (h : SignalInv s) (hQ : QuietInv s) (hE : EngineInv s) {a : Action}
    (hs : s.step a = some s') : SignalInv s' := by
  rcases step_cases hs with ⟨e, w, -, rfl⟩ | ⟨-, rfl⟩ | ⟨e, w, Q, d, -, hp, hd, rfl⟩ |
    ⟨S, -, hS, hb, rfl⟩
  · exact h.extend (List.prefix_refl _) (List.prefix_refl _) (List.prefix_refl _)
      (fun x hx => .inl hx) fun m W t o hm hev _ =>
        absurd hev (by rw [List.getElem?_eq_none hm]; exact Option.noConfusion)
  · exact h.extend (by rw [RequestQueue.check_popped]) (List.prefix_refl _) (List.prefix_refl _)
      (fun x hx => .inl hx) fun m W t o hm hev _ =>
        absurd hev (by rw [List.getElem?_eq_none hm]; exact Option.noConfusion)
  · exact h.submit hQ hE.inflight hp hd
  · exact h.progress hE.inflight hS fun i hi => (hb i hi).1

end SignalInv

end Engine

theorem Reachable.signalInv {s : Engine} (h : Reachable s) : Engine.SignalInv s := by
  induction h with
  | init n w pe => exact .init n w pe
  | step hs hstep ih => exact ih.step hs.quietInv hs.engineInv hstep

/-- **No spurious status flag.** In every reachable state, each write of
`status[W][t] = 1` in the trace answers a descriptor that thread `t` of queue `W` posted and
the engine dispatched: a completion flag a blocking request (not a `PUT_NBI` or `GET_NBI`)
whose completion `MPI_Testsome` reported before the write, an atomic's flag an `AMO_FOP` or
`AMO_FCAS`, and a quiet's flag, immediate or woken, the fence, quiet or finalize it names. -/
theorem status_flag_answers {s : Engine} (hs : Reachable s) {m : ℕ} {W t : ℤ} {o : Origin}
    (hm : s.trace[m]? = some (.status W t o)) :
    Answers s.queue.popped s.issued (s.trace.take m) W t o := by
  cases o with
  | completion => exact hs.signalInv.flags m W t _ hm (.inl rfl)
  | atomic => exact hs.signalInv.flags m W t _ hm (.inr rfl)
  | quiet j => exact (hs.quietInv.quiet_safe m W t _ j hm (.inl rfl)).1
  | wake j => exact (hs.quietInv.quiet_safe m W t _ j hm (.inr rfl)).1

theorem status_flag_answers_putThenQuiet :
    Answers putThenQuietDone.queue.popped putThenQuietDone.issued (putThenQuietDone.trace.take 1)
      0 3 .completion :=
  status_flag_answers putThenQuietDone_reachable (m := 1) (by decide)

/-! ### Each quiet answered exactly once -/

/-- The fence, quiet or finalize an event answers, if it is a flag of queue `W` set by `quiet` or
by the `waiting_quiet` loop. -/
def Event.answersQuietOf (W : ℤ) : Event → Option ℕ
  | .status w _ (.quiet j) => if w = W then some j else none
  | .status w _ (.wake j) => if w = W then some j else none
  | _ => none

/-- The dispatch indices of the fences, quiets and finalizes of queue `W`. -/
def quietIndices (popped : List (QueueElement × ℤ)) (W : ℤ) : List ℕ :=
  (List.range popped.length).filter fun k => popped[k]?.any fun x => x.2 == W && x.1.type.isQuiet

theorem quietIndices_append (popped : List (QueueElement × ℤ)) (x : QueueElement × ℤ) (W : ℤ) :
    quietIndices (popped ++ [x]) W = quietIndices popped W ++
      if x.2 = W ∧ x.1.type.isQuiet = true then [popped.length] else [] := by
  unfold quietIndices
  rw [List.length_append, List.length_singleton, List.range_succ, List.filter_append]
  congr 1
  · exact List.filter_congr fun k hk => by rw [List.getElem?_append_left (List.mem_range.1 hk)]
  · simp only [List.filter_singleton, List.getElem?_concat_length, Option.any_some, cond_eq_if,
      Bool.and_eq_true, beq_iff_eq]

namespace Engine

/-- The fences, quiets and finalizes of queue `W` answered so far, then those waiting. -/
def quietRecord (s : Engine) (W : ℤ) : List ℕ :=
  s.trace.filterMap (Event.answersQuietOf W) ++ (s.waitingQuiet W).map (·.2)

theorem iterationEvents_answersQuietOf (p : RequestProperties) (woken : List (ℤ × ℕ)) (W : ℤ) :
    (iterationEvents p woken).filterMap (Event.answersQuietOf W) =
      if p.wgId = W then woken.map (·.2) else [] := by
  have h1 : (if p.blocking ∧ p.wgId ≠ -1 then [Event.status p.wgId p.threadId .completion]
      else []).filterMap (Event.answersQuietOf W) = [] := by split_ifs <;> rfl
  have h2 : (if p.inlineData then [Event.free p.src] else []).filterMap
      (Event.answersQuietOf W) = [] := by split_ifs <;> rfl
  rw [iterationEvents, List.filterMap_append, List.filterMap_append, h1, h2, List.filterMap_map]
  split_ifs with hW
  · subst hW
    rw [show (Event.answersQuietOf p.wgId ∘ fun x : ℤ × ℕ => Event.status p.wgId x.1 (.wake x.2)) =
      some ∘ (·.2) from funext fun x => if_pos rfl]
    exact congrFun (List.filterMap_eq_map _) _
  · exact List.filterMap_eq_nil_iff.2 fun x _ => if_neg hW

/-- An iteration of the completion loop moves the waiters it wakes from `waiting_quiet` to the
flags, in order, and loses none. -/
theorem quietRecord_completeAt (t : Engine) (i : ℕ) (W : ℤ) :
    (t.completeAt i).quietRecord W = t.quietRecord W := by
  rw [quietRecord, quietRecord, completeAt_wakes, completeAt_waitingQuiet, List.filterMap_append,
    iterationEvents_answersQuietOf, List.append_assoc]
  by_cases hW : (t.reqPropVec.getD i default).wgId = W
  · subst hW
    by_cases h0 : (t.completeAt i).outstanding (t.reqPropVec.getD i default).wgId = 0
    · rw [if_pos rfl, if_pos h0, if_pos ⟨rfl, h0⟩]; simp
    · rw [if_pos rfl, if_neg h0, if_neg fun h => h0 h.2]; simp
  · rw [if_neg hW, if_neg fun h => hW h.1.symm]; rfl

theorem quietRecord_foldl_completeAt (S : List ℕ) (t : Engine) (W : ℤ) :
    (S.foldl completeAt t).quietRecord W = t.quietRecord W := by
  induction S generalizing t with
  | nil => rfl
  | cons i S ih => rw [List.foldl_cons, ih, quietRecord_completeAt]

theorem quietRecord_progress (s : Engine) (S : List ℕ) (W : ℤ) :
    (s.progress S).quietRecord W = s.quietRecord W := by
  unfold progress
  split
  · rfl
  · have hrep : (S.map fun i => Event.reported (s.reqVec.getD i default).id).filterMap
        (Event.answersQuietOf W) = [] :=
      List.filterMap_eq_nil_iff.2 fun ev hev => by obtain ⟨i, -, rfl⟩ := List.mem_map.1 hev; rfl
    show (S.foldl completeAt (s.reportCompleted S)).quietRecord W = _
    rw [quietRecord_foldl_completeAt, quietRecord, quietRecord, reportCompleted_trace,
      reportCompleted_waitingQuiet, List.filterMap_append, hrep, List.append_nil]

theorem quietRecord_setStatus_atomic (s : Engine) (w t W : ℤ) :
    (s.setStatus w t .atomic).quietRecord W = s.quietRecord W := by
  simp only [quietRecord, setStatus, List.filterMap_append, List.filterMap_cons,
    Event.answersQuietOf, List.filterMap_nil, List.append_nil]

/-- `quiet` answers its descriptor at once or adds its thread to the waiters: either way the
record of its queue gains the descriptor's index. -/
theorem quietRecord_quiet (s : Engine) (w t W : ℤ) :
    ((s.quiet w t).quietRecord W).Perm
      (s.quietRecord W ++ if w = W then [s.issued.length] else []) := by
  by_cases h0 : s.outstanding w = 0
  · have hx : [Event.status w t (.quiet s.issued.length)].filterMap (Event.answersQuietOf W) =
        if w = W then [s.issued.length] else [] := by
      by_cases hw : w = W <;> simp [Event.answersQuietOf, hw]
    rw [quiet_of_eq_zero h0, quietRecord, quietRecord]
    show ((s.trace ++ _).filterMap (Event.answersQuietOf W) ++ _).Perm _
    rw [List.filterMap_append, hx, List.append_assoc, List.append_assoc]
    exact List.perm_append_comm.append_left _
  · rw [quiet_of_ne_zero h0]
    by_cases hw : w = W
    · subst hw
      simp [quietRecord, touch]
    · simp [quietRecord, touch, hw, Function.update_noteq (Ne.symm hw)]

/-- For every queue, the quiets answered and those waiting are its dispatched quiets, each
once. -/
def QuietLedger (s : Engine) : Prop :=
  ∀ W, (s.quietRecord W).Perm (quietIndices s.queue.popped W)

theorem QuietLedger.submit {s : Engine} (h : QuietLedger s) (hQ : QuietInv s) {e : QueueElement}
    {w : ℤ} {Q : RequestQueue} {d : Engine} (hp : s.queue.pop = some ((e, w), Q))
    (hd : dispatch { s with queue := Q } e w = .ok d) :
    QuietLedger { d with issued := d.issued ++
      [if e.type.issuesRequest then some s.nextRequest else none] } := by
  obtain ⟨-, -, -, -, hpop⟩ := RequestQueue.pop_eq_some hp
  obtain ⟨-, hdq, -⟩ := dispatch_frame hd
  intro W
  show (d.quietRecord W).Perm (quietIndices d.queue.popped W)
  rw [hdq, hpop, quietIndices_append]
  rcases dispatch_inv hd with ⟨hiss, c, call, p, -, -, -, -, rfl⟩ | ⟨hq, rfl⟩ | ⟨hat, rfl⟩
  · have hq : e.type.isQuiet = false := Bool.eq_false_iff.2 fun hq => by
      rw [RoNetCmd.issuesRequest_of_isQuiet hq] at hiss; cases hiss
    rw [if_neg (show ¬((e, w).2 = W ∧ (e, w).1.type.isQuiet = true) by simp [hq]), List.append_nil]
    exact h W
  · simp only [hq, and_true]
    rw [← hQ.issued_length]
    exact (quietRecord_quiet _ w e.threadId W).trans ((h W).append_right _)
  · have hq : e.type.isQuiet = false := by rcases hat with h | h <;> rw [h] <;> rfl
    rw [if_neg (show ¬((e, w).2 = W ∧ (e, w).1.type.isQuiet = true) by simp [hq]), List.append_nil,
      quietRecord_setStatus_atomic]
    exact h W

theorem QuietLedger.step {s s' : Engine} (h : QuietLedger s) (hQ : QuietInv s) {a : Action}
    (hs : s.step a = some s') : QuietLedger s' := by
  rcases step_cases hs with ⟨e, w, -, rfl⟩ | ⟨-, rfl⟩ | ⟨e, w, Q, d, -, hp, hd, rfl⟩ |
    ⟨S, -, -, -, rfl⟩
  · exact h
  · intro W
    rw [show s.queue.check.popped = s.queue.popped from RequestQueue.check_popped _]
    exact h W
  · exact h.submit hQ hp hd
  · intro W
    rw [quietRecord_progress, progress_queue]
    exact h W

end Engine

theorem Reachable.quietLedger {s : Engine} (h : Reachable s) : Engine.QuietLedger s := by
  induction h with
  | init n w pe => intro W; exact .nil
  | step hs hstep ih => exact ih.step hs.quietInv hstep

/-- **Each quiet answered exactly once.** In every reachable state and for every queue `W`, the
fences, quiets and finalizes of `W` the engine has dispatched are, each exactly once, either
answered by a flag (set at once by `quiet`, or later by the `waiting_quiet` loop of `progress`)
or waiting in `waiting_quiet[W]`: none is lost and none is answered twice. -/
theorem quiet_answered_once {s : Engine} (hs : Reachable s) (W : ℤ) :
    (s.trace.filterMap (Event.answersQuietOf W) ++ (s.waitingQuiet W).map (·.2)).Perm
      (quietIndices s.queue.popped W) :=
  hs.quietLedger W

theorem quiet_answered_once_putThenQuiet :
    (putThenQuietDone.trace.filterMap (Event.answersQuietOf 0) ++
      (putThenQuietDone.waitingQuiet 0).map (·.2)).Perm (quietIndices putThenQuietDone.queue.popped 0) :=
  quiet_answered_once putThenQuietDone_reachable 0

end RocShmem
