import RocShmem.Transport
import Mathlib.Data.List.Sort

/-!
# `progress`: completions

`MPITransport::progress` asks `MPI_Testsome` about the first `min(req_vec.size(), INDICES_SIZE)`
requests. For each position it reports, in the order reported, it settles the owning
workgroup's counter, sets the issuer's flag if the request was blocking, frees an inline
buffer, and wakes the workgroup's quiet waiters once nothing of it is left in flight. Then it
sorts the positions in descending order and erases each from `req_vec` and `req_prop_vec`.

* `removeAt p l`, the list `l` without the entries at the positions where `p` holds;
* `foldl_eraseIdx_mergeSort`: erasing distinct positions in descending order is `removeAt`;
* `ReachesZero`: when a workgroup's counter is zero right after one of its completions, which
  is when the wake loop clears its waiters;
* `progress_effects`: one step of `progress`, all of what it does to the counters, the flags,
  the inline buffers, the quiet waiters and the two lists.
-/

namespace RocShmem

/-- `INDICES_SIZE`, the length of the `indices` array given to `MPI_Testsome`. Its header is not
among the sources; the comment at the call says 64. -/
def indicesSize : ℕ := 64

/-! ### Removing positions -/

section RemoveAt

variable {α : Type*}

/-- `l` without the entries at the positions where `p` holds. -/
def removeAt (p : ℕ → Bool) : List α → List α
  | [] => []
  | a :: l => if p 0 then removeAt (fun i => p (i + 1)) l else a :: removeAt (fun i => p (i + 1)) l

@[simp] theorem removeAt_nil (p : ℕ → Bool) : removeAt p ([] : List α) = [] := rfl

theorem removeAt_cons (p : ℕ → Bool) (a : α) (l : List α) :
    removeAt p (a :: l) =
      if p 0 then removeAt (fun i => p (i + 1)) l else a :: removeAt (fun i => p (i + 1)) l := rfl

theorem removeAt_of_forall_false {p : ℕ → Bool} (hp : ∀ i, p i = false) (l : List α) :
    removeAt p l = l := by
  induction l generalizing p with
  | nil => rfl
  | cons a l ih => rw [removeAt_cons, hp 0, if_neg Bool.false_ne_true, ih (fun i => hp (i + 1))]

/-- Erasing a position above every position `p` removes is removing it along with them. -/
theorem removeAt_eraseIdx {p : ℕ → Bool} {i : ℕ} (hp : ∀ j, p j = true → j < i) (l : List α) :
    removeAt p (l.eraseIdx i) = removeAt (fun j => p j || j == i) l := by
  induction l generalizing p i with
  | nil => rfl
  | cons a l ih =>
    cases i with
    | zero =>
      have hp0 : ∀ j, p j = false := fun j => by
        by_contra h; exact absurd (hp j (by simpa using h)) (Nat.not_lt_zero j)
      rw [List.eraseIdx_cons_zero, removeAt_cons, removeAt_of_forall_false hp0]
      simp only [hp0, Bool.false_or, beq_self_eq_true, if_true]
      exact (removeAt_of_forall_false (fun j => by simp [hp0]) l).symm
    | succ i =>
      rw [List.eraseIdx_cons_succ, removeAt_cons, removeAt_cons,
        ih (p := fun j => p (j + 1)) (fun j hj => by have := hp _ hj; omega)]
      simp

theorem removeAt_congr {p q : ℕ → Bool} (h : ∀ i, p i = q i) (l : List α) :
    removeAt p l = removeAt q l := by
  rw [funext h]

/-- Removing the first `k` positions is dropping them. -/
theorem removeAt_range (k : ℕ) (l : List α) : removeAt (· ∈ List.range k) l = l.drop k := by
  induction l generalizing k with
  | nil => simp
  | cons a l ih =>
    cases k with
    | zero => exact removeAt_of_forall_false (fun i => by simp) _
    | succ k =>
      rw [removeAt_cons, if_pos (by simp), List.drop_succ_cons, ← ih k]
      exact removeAt_congr (fun i => by simp) l

/-- Erasing strictly decreasing positions one after the other removes exactly those positions. -/
theorem foldl_eraseIdx_of_pairwise {is : List ℕ} (h : is.Pairwise (· > ·)) (l : List α) :
    is.foldl List.eraseIdx l = removeAt (fun j => j ∈ is) l := by
  induction is generalizing l with
  | nil => exact (removeAt_of_forall_false (fun _ => by simp) l).symm
  | cons i is ih =>
    rw [List.foldl_cons, ih (List.pairwise_cons.1 h).2,
      removeAt_eraseIdx (fun j hj => (List.pairwise_cons.1 h).1 j (by simpa using hj))]
    exact removeAt_congr (fun j => by by_cases hj : j = i <;> simp [hj]) l

/-- The sort of `progress`: `std::sort` with `std::greater<int>`. Every sort puts distinct
positions in the same order; insertion sort is one that evaluates. -/
def sortDescending (is : List ℕ) : List ℕ := is.insertionSort (· ≥ ·)

theorem sortDescending_perm (is : List ℕ) : (sortDescending is).Perm is :=
  List.perm_insertionSort _ _

theorem sortDescending_pairwise {is : List ℕ} (h : is.Nodup) :
    (sortDescending is).Pairwise (· > ·) :=
  ((List.sorted_insertionSort _ is).and ((sortDescending_perm is).nodup_iff.2 h)).imp
    fun ⟨hle, hne⟩ => lt_of_le_of_ne hle (Ne.symm hne)

/-- **Sort, then erase each.** Erasing distinct positions in descending order from a list
leaves exactly the entries at the other positions, in their order. -/
theorem foldl_eraseIdx_mergeSort {is : List ℕ} (h : is.Nodup) (l : List α) :
    (sortDescending is).foldl List.eraseIdx l = removeAt (fun j => j ∈ is) l := by
  rw [foldl_eraseIdx_of_pairwise (sortDescending_pairwise h)]
  exact removeAt_congr (fun j => by simp [(sortDescending_perm is).mem_iff]) l

/-- Removing the same positions from two lists keeps them paired. -/
theorem zip_removeAt {β : Type*} (p : ℕ → Bool) (l : List α) (m : List β) :
    (removeAt p l).zip (removeAt p m) = removeAt p (l.zip m) := by
  induction l generalizing m p with
  | nil => rfl
  | cons a l ih =>
    cases m with
    | nil => cases h : p 0 <;> simp [removeAt_cons, h]
    | cons b m => cases h : p 0 <;> simp [removeAt_cons, h, ih]

theorem removeAt_sublist (p : ℕ → Bool) (l : List α) : (removeAt p l).Sublist l := by
  induction l generalizing p with
  | nil => exact .slnil
  | cons a l ih =>
    rw [removeAt_cons]
    split
    · exact (ih _).cons a
    · exact (ih _).cons₂ a

/-- An entry not removed is still there. -/
theorem mem_removeAt_or {p : ℕ → Bool} {l : List α} {x : α} (hx : x ∈ l) :
    x ∈ removeAt p l ∨ ∃ i, p i = true ∧ l[i]? = some x := by
  induction l generalizing p with
  | nil => cases hx
  | cons a l ih =>
    rw [removeAt_cons]
    rcases List.mem_cons.1 hx with rfl | hx
    · cases h : p 0
      · simp
      · exact .inr ⟨0, h, by simp⟩
    · rcases ih (p := fun i => p (i + 1)) hx with h | ⟨i, hi, hl⟩
      · split <;> simp [h]
      · exact .inr ⟨i + 1, hi, by simpa using hl⟩

/-- An entry left is at a position not removed. -/
theorem exists_of_mem_removeAt {p : ℕ → Bool} {l : List α} {x : α} (hx : x ∈ removeAt p l) :
    ∃ j, p j = false ∧ l[j]? = some x := by
  induction l generalizing p with
  | nil => cases hx
  | cons a l ih =>
    rw [removeAt_cons] at hx
    split at hx
    · obtain ⟨j, hj, hl⟩ := ih hx
      exact ⟨j + 1, hj, by simpa using hl⟩
    · rename_i h0
      rcases List.mem_cons.1 hx with rfl | hx
      · exact ⟨0, by simpa using h0, by simp⟩
      · obtain ⟨j, hj, hl⟩ := ih hx
        exact ⟨j + 1, hj, by simpa using hl⟩

theorem length_removeAt_congr {β : Type*} (p : ℕ → Bool) {l : List α} {m : List β}
    (h : l.length = m.length) : (removeAt p l).length = (removeAt p m).length := by
  induction l generalizing m p with
  | nil => cases m <;> simp_all
  | cons a l ih =>
    cases m with
    | nil => simp at h
    | cons b m =>
      simp only [removeAt_cons]
      split <;> simp [ih _ (by simpa using h)]

/-- Erasing a position inside the list takes away the count of its entry. -/
theorem countP_eraseIdx_add (q : α → Bool) {l : List α} {i : ℕ} (hi : i < l.length) (d : α) :
    (l.eraseIdx i).countP q + (if q (l.getD i d) then 1 else 0) = l.countP q := by
  conv_rhs =>
    rw [← List.take_append_drop i l, ← List.cons_getElem_drop_succ (h := by simpa using hi)]
  rw [List.eraseIdx_eq_take_drop_succ, List.getD_eq_getElem _ _ hi]
  simp only [List.countP_append, List.countP_cons, List.getElem_drop, Nat.add_zero]
  omega

theorem countP_foldl_eraseIdx (q : α → Bool) (d : α) {is : List ℕ} (h : is.Pairwise (· > ·))
    {l : List α} (hl : ∀ i ∈ is, i < l.length) :
    (is.foldl List.eraseIdx l).countP q + (is.map (l.getD · d)).countP q = l.countP q := by
  induction is generalizing l with
  | nil => simp
  | cons i is ih =>
    obtain ⟨hgt, hrest⟩ := List.pairwise_cons.1 h
    have hi := hl i (List.mem_cons_self _ _)
    have hmap : is.map ((l.eraseIdx i).getD · d) = is.map (l.getD · d) :=
      List.map_congr_left fun j hj => by
        simp [List.getD_eq_getElem?_getD, List.getElem?_eraseIdx_of_lt _ _ _ (hgt j hj)]
    have ih' := ih hrest (l := l.eraseIdx i) fun j hj => by
      rw [List.length_eraseIdx, if_pos hi]; have := hgt j hj; omega
    rw [hmap] at ih'
    rw [List.foldl_cons, List.map_cons, List.countP_cons, ← countP_eraseIdx_add q hi d, ← ih']
    omega

/-- Removing distinct positions inside a list takes away exactly the counts of their entries. -/
theorem countP_removeAt_add (q : α → Bool) (d : α) {is : List ℕ} (h : is.Nodup) {l : List α}
    (hl : ∀ i ∈ is, i < l.length) :
    (removeAt (fun j => j ∈ is) l).countP q + (is.map (l.getD · d)).countP q = l.countP q := by
  rw [← foldl_eraseIdx_mergeSort h, ((sortDescending_perm is).map _).countP_eq q |>.symm]
  exact countP_foldl_eraseIdx q d (sortDescending_pairwise h)
    fun i hi => hl i ((sortDescending_perm is).mem_iff.1 hi)

theorem countP_map_getD_le (q : α → Bool) (d : α) {is : List ℕ} (h : is.Nodup) {l : List α}
    (hl : ∀ i ∈ is, i < l.length) : (is.map (l.getD · d)).countP q ≤ l.countP q := by
  have := countP_removeAt_add q d h hl
  omega

/-- An entry at a position not removed survives. -/
theorem mem_removeAt_of_getElem? {p : ℕ → Bool} {l : List α} {i : ℕ} {x : α} (h : l[i]? = some x)
    (hp : p i = false) : x ∈ removeAt p l := by
  induction l generalizing p i with
  | nil => cases h
  | cons a l ih =>
    rw [removeAt_cons]
    cases i with
    | zero =>
      obtain rfl : a = x := by simpa using h
      rw [if_neg (by simp [hp])]
      exact List.mem_cons_self _ _
    | succ i =>
      have hx := ih (p := fun j => p (j + 1)) (by simpa using h) hp
      split
      · exact hx
      · exact List.mem_cons_of_mem _ hx

end RemoveAt

/-! ### The completion loop -/

/-- The flag an event sets on a request's completion, if it is one. -/
def Event.completion : Event → Option (ℤ × ℤ)
  | .status w t .completion => some (w, t)
  | _ => none

/-- The thread and descriptor index a wake-up flag of workgroup `W` is for. -/
def Event.wokenOf (W : ℤ) : Event → Option (ℤ × ℕ)
  | .status w t (.wake j) => if w = W then some (t, j) else none
  | _ => none

/-- The counter of workgroup `W`, at `o` before the completion loop, is zero after one of the
`c` iterations that complete a request of `W`: each takes one off it, except for the host
barrier's `-1`, whose counter the loop never changes. -/
def ReachesZero (W o : ℤ) (c : ℕ) : Prop :=
  0 < c ∧ ((W = -1 ∧ o = 0) ∨ (W ≠ -1 ∧ 0 < o ∧ o ≤ c))

instance (W o : ℤ) (c : ℕ) : Decidable (ReachesZero W o c) := inferInstanceAs (Decidable (_ ∧ _))

/-- The buffer an event frees, if it is a free. -/
def Event.freed : Event → Option Ptr
  | .free p => some p
  | _ => none

namespace Engine

/-- `outstanding[wg_id]--`; for the host barrier's requests (`wgId = -1`),
`hostBarrierDone = 1` instead. -/
def settle (s : Engine) (p : RequestProperties) : Engine :=
  if p.wgId ≠ -1 then
    { s with outstanding := Function.update s.outstanding p.wgId (s.outstanding p.wgId - 1) }
  else { s with hostBarrierDone := true }

/-- A blocking request's issuer is told it is done. -/
def signal (s : Engine) (p : RequestProperties) : Engine :=
  if p.blocking ∧ p.wgId ≠ -1 then { s with trace := s.trace ++ [.status p.wgId p.threadId .completion] }
  else s

/-- `free(src)` of an inline request's buffer. -/
def release (s : Engine) (p : RequestProperties) : Engine :=
  if p.inlineData then { s with trace := s.trace ++ [.free p.src] } else s

/-- If the workgroup has nothing in flight and threads wait in `quiet`, set each one's flag and
clear `waiting_quiet[wg_id]`. -/
def wakeWaiters (s : Engine) (wgId : ℤ) : Engine :=
  if s.outstanding wgId = 0 ∧ s.waitingQuiet wgId ≠ [] then
    { s with trace := s.trace ++ (s.waitingQuiet wgId).map (fun x => .status wgId x.1 (.wake x.2))
             waitingQuiet := Function.update s.waitingQuiet wgId [] }
  else s

/-- One iteration of the completion loop, for the request at position `indx`. Every per-queue
access of the iteration is at its `wgId`: the wake test reads `outstanding[wg_id]` even for the
host barrier. -/
def completeAt (s : Engine) (indx : ℕ) : Engine :=
  let p := s.reqPropVec.getD indx default
  ((((s.touch p.wgId).settle p).signal p).release p).wakeWaiters p.wgId

/-- `sort(indices, indices + outcount, std::greater<int>())`, then `erase` at each index from
`req_vec` and from `req_prop_vec`. -/
def eraseCompleted (s : Engine) (indices : List ℕ) : Engine :=
  { s with reqVec := (sortDescending indices).foldl List.eraseIdx s.reqVec
           reqPropVec := (sortDescending indices).foldl List.eraseIdx s.reqPropVec }

/-- `MPI_Testsome` reports the requests at `indices` complete. -/
def reportCompleted (s : Engine) (indices : List ℕ) : Engine :=
  { s with trace := s.trace ++ indices.map fun i => .reported (s.reqVec.getD i default).id }

/-- `MPITransport::progress`, with `MPI_Testsome` reporting the requests at `indices`. With nothing
in flight it only probes MPI. -/
def progress (s : Engine) (indices : List ℕ) : Engine :=
  if s.reqVec = [] then s
  else eraseCompleted (indices.foldl completeAt (s.reportCompleted indices)) indices

section Report

variable (s : Engine) (S : List ℕ)

@[simp] theorem reportCompleted_reqVec : (s.reportCompleted S).reqVec = s.reqVec := rfl

@[simp] theorem reportCompleted_reqPropVec : (s.reportCompleted S).reqPropVec = s.reqPropVec := rfl

@[simp] theorem reportCompleted_outstanding :
    (s.reportCompleted S).outstanding = s.outstanding := rfl

@[simp] theorem reportCompleted_waitingQuiet :
    (s.reportCompleted S).waitingQuiet = s.waitingQuiet := rfl

@[simp] theorem reportCompleted_trace : (s.reportCompleted S).trace =
    s.trace ++ S.map fun i => .reported (s.reqVec.getD i default).id := rfl

end Report

theorem settle_eq (s : Engine) (p : RequestProperties) :
    s.settle p = { s with
      outstanding := if p.wgId ≠ -1 then
        Function.update s.outstanding p.wgId (s.outstanding p.wgId - 1) else s.outstanding
      hostBarrierDone := s.hostBarrierDone || decide (p.wgId = -1) } := by
  unfold settle; split <;> simp_all

theorem signal_eq (s : Engine) (p : RequestProperties) :
    s.signal p = { s with trace := s.trace ++
      if p.blocking ∧ p.wgId ≠ -1 then [.status p.wgId p.threadId .completion] else [] } := by
  unfold signal; split <;> simp

theorem release_eq (s : Engine) (p : RequestProperties) :
    s.release p = { s with trace := s.trace ++ if p.inlineData then [.free p.src] else [] } := by
  unfold release; split <;> simp

theorem wakeWaiters_eq (s : Engine) (w : ℤ) :
    s.wakeWaiters w = { s with
      trace := s.trace ++ (if s.outstanding w = 0 ∧ s.waitingQuiet w ≠ [] then
        s.waitingQuiet w else []).map (fun x => .status w x.1 (.wake x.2))
      waitingQuiet := if s.outstanding w = 0 ∧ s.waitingQuiet w ≠ [] then
        Function.update s.waitingQuiet w [] else s.waitingQuiet } := by
  unfold wakeWaiters; split <;> simp

theorem ite_and_ne_nil {α : Type*} [DecidableEq α] (c : Prop) [Decidable c] (l : List α) :
    (if c ∧ l ≠ [] then l else []) = if c then l else [] := by
  by_cases hl : l = [] <;> simp [hl]

theorem wakeWaiters_outstanding (s : Engine) (w : ℤ) :
    (s.wakeWaiters w).outstanding = s.outstanding := by
  unfold wakeWaiters; split <;> rfl

theorem wakeWaiters_waitingQuiet (s : Engine) (w W : ℤ) :
    (s.wakeWaiters w).waitingQuiet W =
      if W = w ∧ s.outstanding W = 0 then [] else s.waitingQuiet W := by
  unfold wakeWaiters
  by_cases hW : W = w
  · subst hW; split_ifs <;> simp_all
  · rw [if_neg (show ¬(W = w ∧ s.outstanding W = 0) from fun h => hW h.1)]
    split_ifs <;> simp [Function.update_apply, hW]

/-- Everything one iteration of the completion loop does. -/
theorem completeAt_eq (s : Engine) (i : ℕ) :
    let p := s.reqPropVec.getD i default
    let o := if p.wgId ≠ -1 then Function.update s.outstanding p.wgId (s.outstanding p.wgId - 1)
      else s.outstanding
    let wake := o p.wgId = 0 ∧ s.waitingQuiet p.wgId ≠ []
    s.completeAt i = { s with
      outstanding := o
      hostBarrierDone := s.hostBarrierDone || decide (p.wgId = -1)
      waitingQuiet := if wake then Function.update s.waitingQuiet p.wgId [] else s.waitingQuiet
      trace := s.trace ++ (if p.blocking ∧ p.wgId ≠ -1 then [.status p.wgId p.threadId .completion]
          else []) ++ (if p.inlineData then [.free p.src] else []) ++
        (if wake then s.waitingQuiet p.wgId else []).map (fun x => .status p.wgId x.1 (.wake x.2))
      touched := s.touched ++ [p.wgId] } := by
  simp only [completeAt, wakeWaiters_eq, release_eq, signal_eq, settle_eq, touch, List.append_assoc]

/-- The events of one iteration of the completion loop: the completion flag, the free, then
the waiters it wakes. -/
def iterationEvents (p : RequestProperties) (woken : List (ℤ × ℕ)) : List Event :=
  (if p.blocking ∧ p.wgId ≠ -1 then [.status p.wgId p.threadId .completion] else []) ++
    (if p.inlineData then [.free p.src] else []) ++
    woken.map (fun x => .status p.wgId x.1 (.wake x.2))

theorem iterationEvents_completion (p : RequestProperties) (woken : List (ℤ × ℕ)) :
    (iterationEvents p woken).filterMap Event.completion =
      if p.blocking ∧ p.wgId ≠ -1 then [(p.wgId, p.threadId)] else [] := by
  unfold iterationEvents; split_ifs <;> simp [Event.completion, List.filterMap_map]

/-- The only flags an iteration sets for a quiet are those of the waiters it wakes. -/
theorem mem_iterationEvents_quiet {p : RequestProperties} {woken : List (ℤ × ℕ)} {W w : ℤ}
    {o : Origin} {j : ℕ} (h : Event.status W w o ∈ iterationEvents p woken)
    (ho : o = .quiet j ∨ o = .wake j) : W = p.wgId ∧ (w, j) ∈ woken := by
  unfold iterationEvents at h
  simp only [List.mem_append, List.mem_map] at h
  rcases h with (h | h) | ⟨x, hx, he⟩
  · split_ifs at h <;> simp only [List.mem_singleton, Event.status.injEq, List.not_mem_nil] at h
    rcases ho with rfl | rfl <;> simp at h
  · split_ifs at h <;> simp at h
  · obtain ⟨rfl, rfl, rfl⟩ := Event.status.inj he
    rcases ho with h | h <;> cases h
    exact ⟨rfl, hx⟩

theorem iterationEvents_freed (p : RequestProperties) (woken : List (ℤ × ℕ)) :
    (iterationEvents p woken).filterMap Event.freed = if p.inlineData then [p.src] else [] := by
  unfold iterationEvents; split_ifs <;> simp [Event.freed, List.filterMap_map]

theorem iterationEvents_wokenOf (p : RequestProperties) (woken : List (ℤ × ℕ)) (W : ℤ) :
    (iterationEvents p woken).filterMap (Event.wokenOf W) = if p.wgId = W then woken else [] := by
  have h : ∀ (b : Prop) [Decidable b] e, Event.wokenOf W e = none →
      (if b then [e] else []).filterMap (Event.wokenOf W) = [] :=
    fun b _ e he => by split <;> simp [he]
  simp only [iterationEvents, List.filterMap_append, List.filterMap_map]
  rw [h _ (.status p.wgId p.threadId .completion) rfl, h _ (.free p.src) rfl]
  split_ifs with hW <;> simp [Event.wokenOf, Function.comp_def, hW]

section Iteration

variable (s : Engine) (i : ℕ)

@[simp] theorem completeAt_reqVec : (s.completeAt i).reqVec = s.reqVec := by rw [completeAt_eq]

@[simp] theorem completeAt_reqPropVec : (s.completeAt i).reqPropVec = s.reqPropVec := by
  rw [completeAt_eq]

theorem completeAt_outstanding (W : ℤ) :
    (s.completeAt i).outstanding W =
      if (s.reqPropVec.getD i default).wgId = W ∧ W ≠ -1 then s.outstanding W - 1
      else s.outstanding W := by
  simp only [completeAt, wakeWaiters_outstanding, release_eq, signal_eq, settle_eq, touch]
  generalize s.reqPropVec.getD i default = p
  by_cases h : p.wgId = W
  · subst h; by_cases hW : p.wgId = -1 <;> simp [hW]
  · rw [if_neg (show ¬(p.wgId = W ∧ W ≠ -1) from fun hc => h hc.1)]
    split_ifs <;> simp [Function.update_apply, Ne.symm h]

@[simp] theorem completeAt_touched :
    (s.completeAt i).touched = s.touched ++ [(s.reqPropVec.getD i default).wgId] := by
  rw [completeAt_eq]

/-- A workgroup's waiters are cleared exactly when its counter is zero after the iteration
settles one of its requests. -/
theorem completeAt_waitingQuiet (W : ℤ) :
    (s.completeAt i).waitingQuiet W =
      if W = (s.reqPropVec.getD i default).wgId ∧ (s.completeAt i).outstanding W = 0 then []
      else s.waitingQuiet W := by
  simp only [completeAt, wakeWaiters_waitingQuiet, wakeWaiters_outstanding]
  simp only [release_eq, signal_eq, settle_eq, touch]

theorem completeAt_hostBarrierDone :
    (s.completeAt i).hostBarrierDone =
      (s.hostBarrierDone || decide ((s.reqPropVec.getD i default).wgId = -1)) := by
  rw [completeAt_eq]

/-- An iteration's events: the completion flag, the free, then, when it brings the counter of
its workgroup to zero, the flag of every waiter of that workgroup. -/
theorem completeAt_wakes :
    let p := s.reqPropVec.getD i default
    (s.completeAt i).trace = s.trace ++ iterationEvents p
      (if (s.completeAt i).outstanding p.wgId = 0 then s.waitingQuiet p.wgId else []) := by
  rw [completeAt_eq]
  simp only [iterationEvents, List.append_assoc, ite_and_ne_nil]

theorem completeAt_trace :
    ∃ woken : List (ℤ × ℕ), (s.completeAt i).trace =
      s.trace ++ iterationEvents (s.reqPropVec.getD i default) woken :=
  ⟨_, completeAt_wakes s i⟩

theorem mem_waitingQuiet_of_completeAt {W : ℤ} {x : ℤ × ℕ}
    (h : x ∈ (s.completeAt i).waitingQuiet W) : x ∈ s.waitingQuiet W := by
  rw [completeAt_waitingQuiet] at h
  split_ifs at h
  · cases h
  · exact h

end Iteration

/-! ### The loop over the reported positions -/

section Loop

variable (S : List ℕ)

@[simp] theorem foldl_completeAt_reqPropVec (s : Engine) :
    (S.foldl completeAt s).reqPropVec = s.reqPropVec := by
  induction S generalizing s with
  | nil => rfl
  | cons i S ih => rw [List.foldl_cons, ih, completeAt_reqPropVec]

/-- The loop changes nothing but the counters, the barrier flag, the waiters, the trace and
the accesses. -/
theorem foldl_completeAt_frame (s : Engine) :
    ∃ o h w t k, S.foldl completeAt s =
      { s with outstanding := o, hostBarrierDone := h, waitingQuiet := w, trace := t,
               touched := k } := by
  induction S generalizing s with
  | nil => exact ⟨_, _, _, _, _, rfl⟩
  | cons i S ih =>
    obtain ⟨o, h, w, t, k, e⟩ := ih (s.completeAt i)
    rw [List.foldl_cons, e, completeAt_eq]
    exact ⟨o, h, w, t, k, rfl⟩

@[simp] theorem foldl_completeAt_reqVec (s : Engine) :
    (S.foldl completeAt s).reqVec = s.reqVec := by
  obtain ⟨_, _, _, _, _, e⟩ := foldl_completeAt_frame S s; rw [e]

@[simp] theorem foldl_completeAt_numQueues (s : Engine) :
    (S.foldl completeAt s).numQueues = s.numQueues := by
  obtain ⟨_, _, _, _, _, e⟩ := foldl_completeAt_frame S s; rw [e]

@[simp] theorem foldl_completeAt_nextRequest (s : Engine) :
    (S.foldl completeAt s).nextRequest = s.nextRequest := by
  obtain ⟨_, _, _, _, _, e⟩ := foldl_completeAt_frame S s; rw [e]

theorem foldl_completeAt_touched (s : Engine) :
    (S.foldl completeAt s).touched =
      s.touched ++ S.map (fun i => (s.reqPropVec.getD i default).wgId) := by
  induction S generalizing s with
  | nil => simp
  | cons i S ih => rw [List.foldl_cons, ih, completeAt_touched, completeAt_reqPropVec]; simp

/-- The loop reports nothing itself: its events are flags and frees. -/
theorem foldl_completeAt_trace_reported (s : Engine) :
    ∃ evs, (S.foldl completeAt s).trace = s.trace ++ evs ∧ ∀ r, Event.reported r ∉ evs := by
  induction S generalizing s with
  | nil => exact ⟨[], by simp⟩
  | cons i S ih =>
    obtain ⟨evs, he, hr⟩ := ih (s.completeAt i)
    obtain ⟨woken, hw⟩ := completeAt_trace s i
    refine ⟨_, by rw [List.foldl_cons, he, hw, List.append_assoc], fun r => ?_⟩
    simp only [List.mem_append, hr, or_false, iterationEvents]
    split_ifs <;> simp

/-- The loop settles one count per reported request of a workgroup, none for the host barrier. -/
theorem foldl_completeAt_outstanding (s : Engine) (W : ℤ) :
    (S.foldl completeAt s).outstanding W = s.outstanding W -
      if W = -1 then 0 else (S.map (s.reqPropVec.getD · default)).countP (·.wgId = W) := by
  induction S generalizing s with
  | nil => simp
  | cons i S ih =>
    rw [List.foldl_cons, ih, completeAt_reqPropVec, completeAt_outstanding, List.map_cons,
      List.countP_cons]
    by_cases h1 : W = -1
    · simp [h1]
    · simp only [h1, if_false, ne_eq, not_false_eq_true, and_true, decide_eq_true_eq]
      split_ifs <;> omega

theorem foldl_completeAt_hostBarrierDone (s : Engine) :
    (S.foldl completeAt s).hostBarrierDone =
      (s.hostBarrierDone || (S.map (s.reqPropVec.getD · default)).any (·.wgId = -1)) := by
  induction S generalizing s with
  | nil => simp
  | cons i S ih =>
    rw [List.foldl_cons, ih, completeAt_reqPropVec, completeAt_hostBarrierDone]
    simp [Bool.or_assoc]

/-- The completion flags and the frees of the loop, in the order reported. -/
theorem foldl_completeAt_trace (s : Engine) :
    ∃ evs, (S.foldl completeAt s).trace = s.trace ++ evs ∧
      evs.filterMap Event.completion =
        ((S.map (s.reqPropVec.getD · default)).filter fun p => p.blocking ∧ p.wgId ≠ -1).map
          (fun p => (p.wgId, p.threadId)) ∧
      evs.filterMap Event.freed =
        ((S.map (s.reqPropVec.getD · default)).filter (·.inlineData)).map (·.src) := by
  induction S generalizing s with
  | nil => exact ⟨[], by simp⟩
  | cons i S ih =>
    obtain ⟨evs, he, hc, hf⟩ := ih (s.completeAt i)
    obtain ⟨woken, hw⟩ := completeAt_trace s i
    rw [completeAt_reqPropVec] at hc hf
    refine ⟨_, by rw [List.foldl_cons, he, hw, List.append_assoc], ?_, ?_⟩ <;>
      rw [List.filterMap_append, List.map_cons, List.filter_cons]
    · rw [iterationEvents_completion, hc]
      by_cases h : (s.reqPropVec.getD i default).blocking ∧ (s.reqPropVec.getD i default).wgId ≠ -1
      · rw [if_pos h, if_pos (decide_eq_true h)]; rfl
      · rw [if_neg h, if_neg (by simpa using h)]; rfl
    · rw [iterationEvents_freed, hf]
      cases h : (s.reqPropVec.getD i default).inlineData <;> simp [h]

/-- One iteration of workgroup `w` on the counter of `W`: the counter reaches zero in the
iterations from here on exactly when this one brings it to zero or a later one does. -/
theorem reachesZero_step (W o : ℤ) (c : ℕ) (w : ℤ) :
    ReachesZero W o (c + if w = W then 1 else 0) ↔
      (w = W ∧ (if w = W ∧ W ≠ -1 then o - 1 else o) = 0) ∨
        ReachesZero W (if w = W ∧ W ≠ -1 then o - 1 else o) c := by
  unfold ReachesZero
  by_cases hw : w = W
  · subst hw
    by_cases hW : w = -1 <;> simp [hW]
    omega
  · simp [hw]

/-- The wake loop over a run of the completion loop: the waiters of workgroup `W` are cleared,
their flags set in order, exactly when its counter reaches zero in one of the iterations that
complete a request of `W`. -/
theorem foldl_completeAt_wake (t : Engine) (W : ℤ) :
    let c := (S.map (t.reqPropVec.getD · default)).countP (·.wgId = W)
    (S.foldl completeAt t).waitingQuiet W =
      (if ReachesZero W (t.outstanding W) c then [] else t.waitingQuiet W) ∧
    ∃ evs, (S.foldl completeAt t).trace = t.trace ++ evs ∧
      evs.filterMap (Event.wokenOf W) =
        if ReachesZero W (t.outstanding W) c then t.waitingQuiet W else [] := by
  induction S generalizing t with
  | nil => exact ⟨by simp [ReachesZero], [], by simp, by simp [ReachesZero]⟩
  | cons i S ih =>
    obtain ⟨hw, evs, he, hev⟩ := ih (t.completeAt i)
    rw [completeAt_reqPropVec] at hw hev
    have hiff := reachesZero_step W (t.outstanding W)
      ((S.map (t.reqPropVec.getD · default)).countP (·.wgId = W)) (t.reqPropVec.getD i default).wgId
    rw [← completeAt_outstanding] at hiff
    have hwq := completeAt_waitingQuiet t i W
    have hstep := iterationEvents_wokenOf (t.reqPropVec.getD i default)
      (if (t.completeAt i).outstanding (t.reqPropVec.getD i default).wgId = 0 then
        t.waitingQuiet (t.reqPropVec.getD i default).wgId else []) W
    simp only [List.foldl_cons, List.map_cons, List.countP_cons, decide_eq_true_eq]
    set p := t.reqPropVec.getD i default
    by_cases hb : p.wgId = W ∧ (t.completeAt i).outstanding W = 0
    · obtain ⟨h1, h2⟩ := hb
      have hcleared : (t.completeAt i).waitingQuiet W = [] := hwq.trans (if_pos ⟨h1.symm, h2⟩)
      have hz := hiff.2 (.inl ⟨h1, h2⟩)
      refine ⟨hw.trans (by rw [hcleared, ite_self, if_pos hz]), _,
        by rw [he, completeAt_wakes, List.append_assoc], ?_⟩
      rw [List.filterMap_append, hstep, hev, hcleared, ite_self, List.append_nil, if_pos hz,
        if_pos h1, h1, if_pos h2]
    · have hkept : (t.completeAt i).waitingQuiet W = t.waitingQuiet W :=
        hwq.trans (if_neg fun h => hb ⟨h.1.symm, h.2⟩)
      have hnone : (if p.wgId = W then (if (t.completeAt i).outstanding p.wgId = 0 then
          t.waitingQuiet p.wgId else []) else []) = [] := by
        split_ifs with h1 h2
        · exact absurd ⟨h1, h1 ▸ h2⟩ hb
        all_goals rfl
      refine ⟨hw.trans (by rw [hkept]; simp only [hiff, hb, false_or]), _,
        by rw [he, completeAt_wakes, List.append_assoc], ?_⟩
      rw [List.filterMap_append, hstep, hev, hkept, hnone, List.nil_append]
      simp only [hiff, hb, false_or]

end Loop

/-! ### Waking the waiters -/

/-- `s'` keeps the trace of `s` as a prefix, and the waiters of each workgroup are either still
waiting or were cleared after the flag of each was set. -/
structure Releases (s s' : Engine) : Prop where
  trace_isPrefix : s.trace <+: s'.trace
  waiting : ∀ W, s'.waitingQuiet W = s.waitingQuiet W ∨
    (s'.waitingQuiet W = [] ∧ ∀ x ∈ s.waitingQuiet W, Event.status W x.1 (.wake x.2) ∈ s'.trace)

theorem Releases.refl (s : Engine) : Releases s s := ⟨List.prefix_refl _, fun _ => .inl rfl⟩

theorem Releases.trans {s₁ s₂ s₃ : Engine} (h₁ : Releases s₁ s₂) (h₂ : Releases s₂ s₃) :
    Releases s₁ s₃ := by
  refine ⟨h₁.trace_isPrefix.trans h₂.trace_isPrefix, fun W => ?_⟩
  have hsub := h₂.trace_isPrefix.subset
  rcases h₁.waiting W with e₁ | ⟨e₁, r₁⟩ <;> rcases h₂.waiting W with e₂ | ⟨e₂, r₂⟩
  · exact .inl (e₂.trans e₁)
  · exact .inr ⟨e₂, fun x hx => r₂ x (e₁ ▸ hx)⟩
  · exact .inr ⟨e₂.trans e₁, fun x hx => hsub (r₁ x hx)⟩
  · exact .inr ⟨e₂, fun x hx => hsub (r₁ x hx)⟩

theorem Releases.of_eq {s s' : Engine} (evs : List Event) (ht : s'.trace = s.trace ++ evs)
    (hw : s'.waitingQuiet = s.waitingQuiet) : Releases s s' :=
  ⟨ht ▸ List.prefix_append _ _, fun W => .inl (congrFun hw W)⟩

theorem completeAt_releases (t : Engine) (i : ℕ) : Releases t (t.completeAt i) := by
  refine ⟨completeAt_wakes t i ▸ List.prefix_append _ _, fun W => ?_⟩
  rw [completeAt_waitingQuiet]
  split_ifs with h
  · obtain ⟨rfl, h0⟩ := h
    refine .inr ⟨rfl, fun x hx => ?_⟩
    rw [completeAt_wakes, if_pos h0, iterationEvents]
    exact List.mem_append_right _ (List.mem_append_right _ (List.mem_map_of_mem _ hx))
  · exact .inl rfl

theorem foldl_completeAt_releases (R : List ℕ) (t : Engine) :
    Releases t (R.foldl completeAt t) := by
  induction R generalizing t with
  | nil => exact .refl t
  | cons i R ih => exact (completeAt_releases t i).trans (ih _)

/-- `progress` never adds a waiter, and clears a workgroup's waiters only after setting the flag
of each. -/
theorem progress_releases (s : Engine) (S : List ℕ) : Releases s (s.progress S) := by
  unfold progress
  split
  · exact .refl s
  · exact (Releases.of_eq _ rfl rfl : Releases s (s.reportCompleted S)).trans
      ((foldl_completeAt_releases S _).trans (Releases.of_eq [] (List.append_nil _).symm rfl))

theorem mem_foldl_completeAt_waitingQuiet (R : List ℕ) (t : Engine) {W : ℤ} {x : ℤ × ℕ}
    (h : x ∈ (R.foldl completeAt t).waitingQuiet W) : x ∈ t.waitingQuiet W := by
  induction R generalizing t with
  | nil => exact h
  | cons i R ih => exact mem_waitingQuiet_of_completeAt t i (ih _ h)

/-- A flag the loop sets for a quiet is that of a thread waiting before the loop, set in an
iteration that brought the counter of its workgroup to zero. -/
theorem foldl_completeAt_quiet (R : List ℕ) (t : Engine) {m j : ℕ} {W w : ℤ} {o : Origin}
    (ho : o = .quiet j ∨ o = .wake j) (hm : t.trace.length ≤ m)
    (h : (R.foldl completeAt t).trace[m]? = some (.status W w o)) :
    (w, j) ∈ t.waitingQuiet W ∧ ∃ k, ((R.take k).foldl completeAt t).outstanding W = 0 := by
  induction R generalizing t with
  | nil => rw [List.foldl_nil, List.getElem?_eq_none hm] at h; cases h
  | cons i R ih =>
    rw [List.foldl_cons] at h
    by_cases hm' : (t.completeAt i).trace.length ≤ m
    · obtain ⟨hw, k, hk⟩ := ih (t.completeAt i) hm' h
      exact ⟨mem_waitingQuiet_of_completeAt t i hw, k + 1, hk⟩
    · obtain ⟨evs, he, -⟩ := foldl_completeAt_trace_reported R (t.completeAt i)
      rw [he, List.getElem?_append_left (by omega), completeAt_wakes,
        List.getElem?_append_right hm] at h
      obtain ⟨rfl, hx⟩ := mem_iterationEvents_quiet (List.getElem?_mem h) ho
      split_ifs at hx with h0
      · exact ⟨hx, 1, h0⟩
      · cases hx

/-- One iteration keeps "a workgroup with waiters has requests in flight", provided it leaves
no counter negative. -/
theorem completeAt_waiting_pos (t : Engine) (i : ℕ)
    (h : ∀ W, t.waitingQuiet W ≠ [] → 0 < t.outstanding W)
    (hnn : ∀ W, 0 ≤ (t.completeAt i).outstanding W) (W : ℤ)
    (hW : (t.completeAt i).waitingQuiet W ≠ []) : 0 < (t.completeAt i).outstanding W := by
  rw [completeAt_waitingQuiet] at hW
  split_ifs at hW with h1
  · exact absurd rfl hW
  · by_cases hWp : W = (t.reqPropVec.getD i default).wgId
    · have := hnn W
      have : (t.completeAt i).outstanding W ≠ 0 := fun h0 => h1 ⟨hWp, h0⟩
      omega
    · rw [completeAt_outstanding, if_neg (fun h => hWp h.1.symm)]
      exact h W hW

theorem foldl_completeAt_waiting_pos (R : List ℕ) (t : Engine)
    (h : ∀ W, t.waitingQuiet W ≠ [] → 0 < t.outstanding W)
    (hnn : ∀ k W, 0 ≤ ((R.take k).foldl completeAt t).outstanding W) (W : ℤ)
    (hW : (R.foldl completeAt t).waitingQuiet W ≠ []) :
    0 < (R.foldl completeAt t).outstanding W := by
  induction R generalizing t with
  | nil => exact h W hW
  | cons i R ih =>
    exact ih (t.completeAt i) (completeAt_waiting_pos t i h (hnn 1)) (fun k => hnn (k + 1)) hW

/-! ### One step -/

/-- With the reported positions inside `req_vec`, `progress` is the loop over them followed by
the erasures, also when nothing is in flight. -/
theorem progress_eq {s : Engine} {S : List ℕ} (hb : ∀ i ∈ S, i < s.reqVec.length) :
    s.progress S = eraseCompleted (S.foldl completeAt (s.reportCompleted S)) S := by
  by_cases h0 : s.reqVec = []
  · obtain rfl : S = [] := List.eq_nil_iff_forall_not_mem.2 fun i hi => by simpa [h0] using hb i hi
    simp only [progress, h0, if_true, List.foldl_nil, eraseCompleted, sortDescending,
      List.insertionSort, reportCompleted, List.map_nil, List.append_nil]
    rw [← h0]
  · simp [progress, h0]

/-- `progress` changes nothing but the in-flight lists, the counters, the barrier flag, the
waiters, the trace and the accesses. -/
theorem progress_frame (s : Engine) (S : List ℕ) :
    ∃ v pv o h w t k, s.progress S =
      { s with reqVec := v, reqPropVec := pv, outstanding := o, hostBarrierDone := h,
               waitingQuiet := w, trace := t, touched := k } := by
  unfold progress
  split
  · exact ⟨_, _, _, _, _, _, _, rfl⟩
  · obtain ⟨o, h, w, t, k, e⟩ := foldl_completeAt_frame S (s.reportCompleted S)
    rw [eraseCompleted, e]
    exact ⟨_, _, o, h, w, t, k, rfl⟩

@[simp] theorem progress_numQueues (s : Engine) (S : List ℕ) :
    (s.progress S).numQueues = s.numQueues := by
  obtain ⟨_, _, _, _, _, _, _, e⟩ := progress_frame s S; rw [e]

@[simp] theorem progress_nextRequest (s : Engine) (S : List ℕ) :
    (s.progress S).nextRequest = s.nextRequest := by
  obtain ⟨_, _, _, _, _, _, _, e⟩ := progress_frame s S; rw [e]

@[simp] theorem progress_queue (s : Engine) (S : List ℕ) : (s.progress S).queue = s.queue := by
  obtain ⟨_, _, _, _, _, _, _, e⟩ := progress_frame s S; rw [e]

@[simp] theorem progress_issued (s : Engine) (S : List ℕ) : (s.progress S).issued = s.issued := by
  obtain ⟨_, _, _, _, _, _, _, e⟩ := progress_frame s S; rw [e]

section Step

variable {s : Engine} {S : List ℕ}

theorem progress_reqVec (hS : S.Nodup) (hb : ∀ i ∈ S, i < s.reqVec.length) :
    (s.progress S).reqVec = removeAt (· ∈ S) s.reqVec := by
  rw [progress_eq hb]; simp [eraseCompleted, foldl_eraseIdx_mergeSort hS, reportCompleted]

theorem progress_reqPropVec (hS : S.Nodup) (hb : ∀ i ∈ S, i < s.reqVec.length) :
    (s.progress S).reqPropVec = removeAt (· ∈ S) s.reqPropVec := by
  rw [progress_eq hb]; simp [eraseCompleted, foldl_eraseIdx_mergeSort hS, reportCompleted]

theorem progress_outstanding (hb : ∀ i ∈ S, i < s.reqVec.length) (W : ℤ) :
    (s.progress S).outstanding W = s.outstanding W -
      if W = -1 then 0 else (S.map (s.reqPropVec.getD · default)).countP (·.wgId = W) := by
  rw [progress_eq hb]; exact foldl_completeAt_outstanding S _ W

theorem progress_waitingQuiet (hb : ∀ i ∈ S, i < s.reqVec.length) :
    (s.progress S).waitingQuiet = (S.foldl completeAt (s.reportCompleted S)).waitingQuiet := by
  rw [progress_eq hb]; rfl

theorem progress_outstanding_loop (hb : ∀ i ∈ S, i < s.reqVec.length) :
    (s.progress S).outstanding = (S.foldl completeAt (s.reportCompleted S)).outstanding := by
  rw [progress_eq hb]; rfl

theorem progress_trace (hb : ∀ i ∈ S, i < s.reqVec.length) :
    (s.progress S).trace = (S.foldl completeAt (s.reportCompleted S)).trace := by
  rw [progress_eq hb]; rfl

theorem progress_touched (hb : ∀ i ∈ S, i < s.reqVec.length) :
    (s.progress S).touched = s.touched ++ S.map fun i => (s.reqPropVec.getD i default).wgId := by
  rw [progress_eq hb]; exact foldl_completeAt_touched S _

/-- What `progress` adds to the trace: the reports of `MPI_Testsome`, then the loop's flags and
frees, which report nothing. -/
theorem progress_trace_reported (hb : ∀ i ∈ S, i < s.reqVec.length) :
    ∃ evs, (s.progress S).trace =
      s.trace ++ S.map (fun i => .reported (s.reqVec.getD i default).id) ++ evs ∧
      ∀ r, Event.reported r ∉ evs := by
  rw [progress_trace hb]
  exact foldl_completeAt_trace_reported S _

end Step

/-- An inline put of thread 3 of queue 0 and a blocking host barrier, both in flight. -/
def putAndHostBarrier : Engine :=
  ((initTransport 1 2 0).putMem 8 0 1 1 0 3 true true).barrier (-1) 0 true

/-- With one queue, the host barrier's `outstanding[wg_id]++` and the wake test of its
completion both index the per-queue vectors at `-1`. -/
theorem hostBarrier_touches_minus_one :
    putAndHostBarrier.numQueues = 1 ∧ putAndHostBarrier.touched = [0, -1] ∧
    (putAndHostBarrier.progress [1]).touched = [0, -1, -1] := by
  decide

end Engine

end RocShmem
