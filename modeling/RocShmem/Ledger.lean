import RocShmem.Inflight

/-!
# The ledgers of requests and inline buffers

Two resources pass through the progress thread: the `MPI_Request`s it starts, which sit in
`req_vec` until `MPI_Testsome` reports them, and the buffers `RO_NET_P` `malloc`s for its value,
which `progress` frees when the put completes. Each is accounted for by a conservation law over
every run: what was handed back (reported, freed) together with what is still held (in
`req_vec`, in the inline entries of `req_prop_vec`) is a permutation of everything created. So
no request is lost or reported twice, and no inline buffer leaks or is freed twice or is freed
without having been allocated. `malloc` is modelled as returning a fresh buffer each time
(`nextBuffer`), never one it returned before.

* `dispatch_inv`: what a dispatch does, with the flags of the request it starts;
* `perm_removeAt_append`: the entries removed by `progress` with those left are the entries
  before;
* `request_ledger`, `inline_buffer_ledger`.
-/

namespace RocShmem

/-- The handle an event reports complete, if it is a report. -/
def Event.reportedId : Event → Option ℕ
  | .reported r => some r
  | _ => none

theorem perm_removeAt_append {α : Type*} [DecidableEq α] (d : α) {is : List ℕ} (h : is.Nodup)
    {l : List α} (hl : ∀ i ∈ is, i < l.length) :
    (removeAt (· ∈ is) l ++ is.map (l.getD · d)).Perm l :=
  List.perm_iff_count.2 fun a => by
    rw [List.count_append]
    exact countP_removeAt_add (· == a) d h hl

namespace Engine

/-- **What a dispatch does, with the request's flags.** A request blocks unless it comes from a
`PUT_NBI` or a `GET_NBI`; only `RO_NET_P` hands over an inline buffer, the one it takes fresh;
the atomics are `AMO_FOP` and `AMO_FCAS`. -/
theorem dispatch_inv {s s' : Engine} {e : QueueElement} {w : ℤ} (h : s.dispatch e w = .ok s') :
    (e.type.issuesRequest = true ∧ ∃ c call, ∃ p : RequestProperties, p.wgId = w ∧
      p.threadId = e.threadId ∧ (p.blocking = true ↔ e.type ≠ .putNbi ∧ e.type ≠ .getNbi) ∧
      (p.inlineData = true → p.src = s.nextBuffer) ∧
      s' = { s with comms := c, nextBuffer := s.nextBuffer + if p.inlineData then 1 else 0 }.track
        call p) ∨
    (e.type.isQuiet = true ∧ s' = s.quiet w e.threadId) ∨
    ((e.type = .amoFop ∨ e.type = .amoFcas) ∧ s' = s.setStatus w e.threadId .atomic) := by
  unfold dispatch at h
  cases he : e.type <;> simp only [he, Except.ok.injEq, reduceCtorEq] at h
  case put | get | putNbi | getNbi | barrierAll =>
    exact .inl ⟨rfl, _, _, _, rfl, rfl, by simp, by simp, h.symm⟩
  case p => exact .inl ⟨rfl, _, _, _, rfl, rfl, by simp, fun _ => rfl, h.symm⟩
  case fence | quiet | finalize => exact .inr (.inl ⟨rfl, h.symm⟩)
  case amoFcas => exact .inr (.inr ⟨.inr rfl, h.symm⟩)
  case amoFop => exact .inr (.inr ⟨.inl rfl, amoFOP_ok h⟩)
  case toAll =>
    obtain ⟨c, call, rfl⟩ := reduction_ok h
    exact .inl ⟨rfl, c, call, _, rfl, rfl, by simp, by simp, rfl⟩
  case broadcast =>
    obtain ⟨c, call, rfl⟩ := broadcast_ok h
    exact .inl ⟨rfl, c, call, _, rfl, rfl, by simp, by simp, rfl⟩
  case teamToAll =>
    obtain ⟨call, rfl⟩ := teamReduction_ok h
    exact .inl ⟨rfl, _, call, _, rfl, rfl, by simp, by simp, rfl⟩
  case teamBroadcast =>
    obtain ⟨call, rfl⟩ := teamBroadcast_ok h
    exact .inl ⟨rfl, _, call, _, rfl, rfl, by simp, by simp, rfl⟩

/-! ### The ledger invariant -/

/-- Every handle started is reported or in flight, and every buffer `malloc`ed is freed or held
by an inline request in flight, each exactly once. -/
structure LedgerInv (s : Engine) : Prop where
  requests : (s.trace.filterMap Event.reportedId ++ s.reqVec.map (·.id)).Perm
    (List.range s.nextRequest)
  buffers : (s.trace.filterMap Event.freed ++ (s.reqPropVec.filter (·.inlineData)).map (·.src)).Perm
    (List.range s.nextBuffer)

namespace LedgerInv

variable {s s' : Engine}

theorem init (n w : ℕ) (pe : ℤ) : LedgerInv (initTransport n w pe) := ⟨.nil, .nil⟩

/-- A step that keeps the in-flight lists and the two counters, and adds events that neither
report nor free, keeps the ledgers. -/
theorem of_frame (h : LedgerInv s) (evs : List Event) (ht : s'.trace = s.trace ++ evs)
    (hr : evs.filterMap Event.reportedId = []) (hf : evs.filterMap Event.freed = [])
    (hv : s'.reqVec = s.reqVec) (hpv : s'.reqPropVec = s.reqPropVec)
    (hn : s'.nextRequest = s.nextRequest) (hb : s'.nextBuffer = s.nextBuffer) : LedgerInv s' := by
  refine ⟨?_, ?_⟩
  · rw [ht, hv, hn, List.filterMap_append, hr, List.append_nil]; exact h.requests
  · rw [ht, hpv, hb, List.filterMap_append, hf, List.append_nil]; exact h.buffers

theorem setStatus (h : LedgerInv s) (w t : ℤ) (o : Origin) : LedgerInv (s.setStatus w t o) :=
  h.of_frame _ rfl rfl rfl rfl rfl rfl rfl

theorem quiet (h : LedgerInv s) (w t : ℤ) : LedgerInv (s.quiet w t) := by
  unfold Engine.quiet
  split_ifs
  · exact (h.of_frame [] (List.append_nil _).symm rfl rfl rfl rfl rfl rfl :
      LedgerInv (s.touch w)).setStatus _ _ _
  · exact h.of_frame [] (List.append_nil _).symm rfl rfl rfl rfl rfl rfl

/-- A new request takes the next handle; an inline one takes the next buffer. -/
theorem track (h : LedgerInv s) (c : CommCache) (call : MpiCall) {p : RequestProperties}
    (hp : p.inlineData = true → p.src = s.nextBuffer) :
    LedgerInv ({ s with comms := c, nextBuffer := s.nextBuffer + if p.inlineData then 1 else 0 }.track
      call p) := by
  refine ⟨?_, ?_⟩
  · simp only [Engine.track, List.map_append, List.map_singleton, List.range_succ,
      ← List.append_assoc]
    exact h.requests.append_right _
  · simp only [Engine.track, List.filter_append, List.filter_singleton]
    cases hi : p.inlineData
    · simpa using h.buffers
    · simpa [hp hi, List.range_succ] using h.buffers.append_right [s.nextBuffer]

theorem dispatch (h : LedgerInv s) {e : QueueElement} {w : ℤ} {d : Engine}
    (hd : s.dispatch e w = .ok d) : LedgerInv d := by
  rcases dispatch_inv hd with ⟨-, c, call, p, -, -, -, hp, rfl⟩ | ⟨-, rfl⟩ | ⟨-, rfl⟩
  · exact h.track c call hp
  · exact h.quiet _ _
  · exact h.setStatus _ _ _

theorem progress (h : LedgerInv s) (hI : s.InflightInv) {S : List ℕ} (hS : S.Nodup)
    (hb : ∀ i ∈ S, i < s.reqVec.length) : LedgerInv (s.progress S) := by
  have hb' : ∀ i ∈ S, i < s.reqPropVec.length := hI.length_eq ▸ hb
  obtain ⟨evs, he, -, hf⟩ := foldl_completeAt_trace S (s.reportCompleted S)
  have hnr : evs.filterMap Event.reportedId = [] := by
    obtain ⟨evs', he', hnr'⟩ := progress_trace_reported hb
    rw [progress_trace hb, he, reportCompleted_trace, List.append_cancel_left_eq] at he'
    subst he'
    exact List.filterMap_eq_nil_iff.2 fun ev hev => by
      cases ev with
      | reported r => exact absurd hev (hnr' r)
      | _ => rfl
  have hrep : (S.map fun i => Event.reported (s.reqVec.getD i default).id).filterMap
      Event.reportedId = S.map fun i => (s.reqVec.getD i default).id := by
    rw [List.filterMap_map]; exact congrFun (List.filterMap_eq_map _) S
  have hrepf : (S.map fun i => Event.reported (s.reqVec.getD i default).id).filterMap
      Event.freed = [] := by
    simp [List.filterMap_map, Event.freed]
  rw [reportCompleted_reqPropVec] at hf
  refine ⟨?_, ?_⟩
  · have key := (perm_removeAt_append default hS hb).map (·.id)
    rw [List.map_append, List.map_map] at key
    rw [progress_trace hb, he, reportCompleted_trace, progress_reqVec hS hb, progress_nextRequest]
    simp only [List.filterMap_append, hrep, hnr, List.append_nil, List.append_assoc]
    exact ((List.perm_append_comm.trans key).append_left _).trans h.requests
  · have key := ((perm_removeAt_append default hS hb').filter (·.inlineData)).map (·.src)
    rw [List.filter_append, List.map_append] at key
    have hnb : (s.progress S).nextBuffer = s.nextBuffer := by
      obtain ⟨_, _, _, _, _, _, _, e⟩ := progress_frame s S; rw [e]
    rw [progress_trace hb, he, reportCompleted_trace, progress_reqPropVec hS hb, hnb]
    simp only [List.filterMap_append, hrepf, hf, List.append_nil, List.append_assoc]
    exact ((List.perm_append_comm.trans key).append_left _).trans h.buffers

theorem step (h : LedgerInv s) (hE : EngineInv s) {a : Action} (hs : s.step a = some s') :
    LedgerInv s' := by
  rcases step_cases hs with ⟨e, w, -, rfl⟩ | ⟨-, rfl⟩ | ⟨e, w, Q, d, -, -, hd, rfl⟩ |
    ⟨S, -, hS, hb, rfl⟩
  · exact h.of_frame [] (List.append_nil _).symm rfl rfl rfl rfl rfl rfl
  · exact h.of_frame [] (List.append_nil _).symm rfl rfl rfl rfl rfl rfl
  · exact (LedgerInv.dispatch (s := { s with queue := Q })
      (h.of_frame [] (List.append_nil _).symm rfl rfl rfl rfl rfl rfl) hd).of_frame []
      (List.append_nil _).symm rfl rfl rfl rfl rfl rfl
  · exact h.progress hE.inflight hS fun i hi => (hb i hi).1

end LedgerInv

end Engine

theorem Reachable.ledgerInv {s : Engine} (h : Reachable s) : Engine.LedgerInv s := by
  induction h with
  | init n w pe => exact .init n w pe
  | step hs hstep ih => exact ih.step hs.engineInv hstep

/-- **No request lost or reported twice.** In every reachable state, the handles `MPI_Testsome`
has reported complete, followed by those of the requests still in `req_vec`, are the handles
the engine has started, each exactly once. -/
theorem request_ledger {s : Engine} (hs : Reachable s) :
    (s.trace.filterMap Event.reportedId ++ s.reqVec.map (·.id)).Perm (List.range s.nextRequest) :=
  hs.ledgerInv.requests

theorem request_ledger_putThenQuiet :
    (putThenQuietDone.trace.filterMap Event.reportedId ++ putThenQuietDone.reqVec.map (·.id)).Perm
      (List.range putThenQuietDone.nextRequest) :=
  request_ledger (putThenQuietState_reachable.run (Option.some_get _).symm)

/-- **No inline buffer leaked, freed twice or freed unallocated.** In every reachable state, the
buffers `progress` has freed, followed by those of the inline puts still in flight, are the
buffers `RO_NET_P` has `malloc`ed, each exactly once. -/
theorem inline_buffer_ledger {s : Engine} (hs : Reachable s) :
    (s.trace.filterMap Event.freed ++ (s.reqPropVec.filter (·.inlineData)).map (·.src)).Perm
      (List.range s.nextBuffer) :=
  hs.ledgerInv.buffers

theorem inline_buffer_ledger_putThenQuiet :
    (putThenQuietDone.trace.filterMap Event.freed ++
      (putThenQuietDone.reqPropVec.filter (·.inlineData)).map (·.src)).Perm
      (List.range putThenQuietDone.nextBuffer) :=
  inline_buffer_ledger (putThenQuietState_reachable.run (Option.some_get _).symm)

end RocShmem
