import RocShmem.Team

/-!
# Array bounds of the GPU-IB backend

The arrays the backend sets up for collectives and teams, and whether its loops stay inside
them. A write is modelled on an allocation of a given number of cells, uninitialised cells
being `none`, and a write past the end is undefined (`none` for the whole result).

`ROC_SHMEM_BARRIER_SYNC_SIZE`, the other `SYNC_SIZE`s and `ROC_SHMEM_SYNC_VALUE` are defined
in a header that is not among the sources: they are parameters.

* `rocShmemCollectiveInit`: the loop of `roc_shmem_collective_init` stays inside `barrier_sync`
  exactly when `num_pes` is at most `ROC_SHMEM_BARRIER_SYNC_SIZE`, which nothing checks;
* `teamsInitSyncPool`: the pSync loops of `teams_init` fill their pools and stay inside them
  for every size;
* `bitmask_bytes_in_range`: every byte that `teams_init`, `get_ls_non_zero_bit`,
  `create_new_team` and `team_destroy` touch lies below `bitmask_size_`, so that each of them is
  defined.
-/

namespace RocShmem

/-! ### `roc_shmem_collective_init` -/

/-- `pSync[i] = ROC_SHMEM_SYNC_VALUE` on an allocation of longs, `none` past its end. -/
def writeSync (syncValue : ℤ) (pSync : List (Option ℤ)) (i : ℕ) : Option (List (Option ℤ)) :=
  if i < pSync.length then some (pSync.set i (some syncValue)) else none

/-- `n` writes from cell `s` on: they fill cells `[s, s + n)` when the allocation holds them,
and one of them falls past its end otherwise. -/
theorem foldlM_writeSync (syncValue : ℤ) (a : List (Option ℤ)) (s n : ℕ) (hs : s ≤ a.length) :
    (List.range n).foldlM (fun p i => writeSync syncValue p (s + i)) a =
      if s + n ≤ a.length then
        some (a.take s ++ List.replicate n (some syncValue) ++ a.drop (s + n))
      else none := by
  induction n with
  | zero => simp [hs]
  | succ n ih =>
    rw [List.range_succ, List.foldlM_append, ih]
    by_cases hn : s + (n + 1) ≤ a.length
    · have hlen : (a.take s ++ List.replicate n (some syncValue)).length = s + n := by
        simp; omega
      have hlt : s + n < (a.take s ++ List.replicate n (some syncValue) ++ a.drop (s + n)).length :=
        by simp; omega
      rw [if_pos (by omega), if_pos hn]
      simp only [Option.bind_eq_bind, Option.some_bind, List.foldlM_cons, List.foldlM_nil,
        writeSync, if_pos hlt]
      rw [List.set_append, hlen, if_neg (lt_irrefl _), Nat.sub_self,
        List.drop_eq_getElem_cons (show s + n < a.length by omega), List.set_cons_zero,
        List.replicate_succ', ← Nat.add_assoc, List.append_assoc, List.append_assoc,
        List.append_assoc, List.singleton_append]
      rfl
    · rw [if_neg hn]
      split_ifs with h
      · have hlt : ¬s + n < (a.take s ++ List.replicate n (some syncValue) ++ a.drop (s + n)).length :=
          by simp; omega
        simp only [Option.bind_eq_bind, Option.some_bind, List.foldlM_cons, writeSync, if_neg hlt,
          Option.none_bind]
      · rfl

/-- `GPUIBBackend::roc_shmem_collective_init`: `heap.malloc` of `ROC_SHMEM_BARRIER_SYNC_SIZE`
longs for `barrier_sync`, then `barrier_sync[i] = ROC_SHMEM_SYNC_VALUE` for every
`i < num_pes`. -/
def rocShmemCollectiveInit (barrierSyncSize : ℕ) (syncValue : ℤ) (numPes : ℕ) :
    Option (List (Option ℤ)) :=
  (List.range numPes).foldlM (writeSync syncValue) (List.replicate barrierSyncSize none)

/-- The loop stays inside `barrier_sync` exactly when `num_pes ≤ ROC_SHMEM_BARRIER_SYNC_SIZE`;
then it fills the first `num_pes` longs and leaves the rest uninitialised. -/
theorem rocShmemCollectiveInit_eq (barrierSyncSize : ℕ) (syncValue : ℤ) (numPes : ℕ) :
    rocShmemCollectiveInit barrierSyncSize syncValue numPes =
      if numPes ≤ barrierSyncSize then
        some (List.replicate numPes (some syncValue) ++
          List.replicate (barrierSyncSize - numPes) none)
      else none := by
  simpa [List.drop_replicate] using
    foldlM_writeSync syncValue (List.replicate barrierSyncSize none) 0 numPes (Nat.zero_le _)

/-- A world of one PE more than `ROC_SHMEM_BARRIER_SYNC_SIZE` makes the loop write past the
end of `barrier_sync`. -/
theorem rocShmemCollectiveInit_overflow (barrierSyncSize : ℕ) (syncValue : ℤ) :
    rocShmemCollectiveInit barrierSyncSize syncValue (barrierSyncSize + 1) = none := by
  rw [rocShmemCollectiveInit_eq, if_neg (by omega)]

/-! ### The pSync pools of `teams_init` -/

/-- The inner loop of `teams_init` for one pool and team `team_i`:
`pSync = &pool[team_i * SYNC_SIZE]`, then `pSync[i] = ROC_SHMEM_SYNC_VALUE` for every
`i < SYNC_SIZE`. -/
def initTeamSync (syncSize : ℕ) (syncValue : ℤ) (pool : List (Option ℤ)) (teamI : ℕ) :
    Option (List (Option ℤ)) :=
  (List.range syncSize).foldlM (fun pSync i => writeSync syncValue pSync (teamI * syncSize + i))
    pool

/-- One pSync pool of `GPUIBBackend::teams_init`: `roc_shmem_malloc` of
`SYNC_SIZE * max_num_teams` longs, then the inner loop for every `team_i < max_num_teams`. The
barrier, reduce, broadcast and all-to-all pools differ only in their `SYNC_SIZE`; the source
runs their four inner loops in one outer loop, on disjoint arrays. -/
def teamsInitSyncPool (syncSize maxNumTeams : ℕ) (syncValue : ℤ) : Option (List (Option ℤ)) :=
  (List.range maxNumTeams).foldlM (initTeamSync syncSize syncValue)
    (List.replicate (syncSize * maxNumTeams) none)

/-- Team `team_i`'s loop fills its slot `[team_i * SYNC_SIZE, (team_i + 1) * SYNC_SIZE)` when the
slots before it are filled and the rest of the pool holds a whole slot. -/
theorem initTeamSync_slot (syncSize : ℕ) (syncValue : ℤ) (teamI : ℕ) (rest : List (Option ℤ))
    (hrest : syncSize ≤ rest.length) :
    initTeamSync syncSize syncValue
        (List.replicate (teamI * syncSize) (some syncValue) ++ rest) teamI =
      some (List.replicate ((teamI + 1) * syncSize) (some syncValue) ++ rest.drop syncSize) := by
  rw [initTeamSync, foldlM_writeSync _ _ _ _ (by simp), if_pos (by simp; omega),
    List.take_left' (List.length_replicate _ _), List.drop_append_eq_append_drop,
    List.drop_eq_nil_of_le (by simp), List.length_replicate, Nat.succ_mul, List.replicate_add]
  simp

/-- After the first `k` teams the first `k` slots are filled and the rest is uninitialised. -/
theorem foldlM_initTeamSync (syncSize maxNumTeams : ℕ) (syncValue : ℤ) (k : ℕ)
    (hk : k ≤ maxNumTeams) :
    (List.range k).foldlM (initTeamSync syncSize syncValue)
        (List.replicate (syncSize * maxNumTeams) none) =
      some (List.replicate (k * syncSize) (some syncValue) ++
        List.replicate (syncSize * maxNumTeams - k * syncSize) none) := by
  induction k with
  | zero => simp
  | succ k ih =>
    have h : (k + 1) * syncSize ≤ syncSize * maxNumTeams := by
      rw [Nat.mul_comm syncSize]; exact Nat.mul_le_mul_right _ hk
    rw [Nat.succ_mul] at h
    rw [List.range_succ, List.foldlM_append, ih (by omega)]
    simp only [Option.bind_eq_bind, Option.some_bind, List.foldlM_cons, List.foldlM_nil]
    rw [initTeamSync_slot _ _ _ _ (by simp; omega), List.drop_replicate, Nat.succ_mul,
      Nat.sub_sub]
    rfl

/-- **The pSync loops of `teams_init` stay inside their pools.** Unlike the loop of
`roc_shmem_collective_init`, for every `SYNC_SIZE` and every `max_num_teams` they write only
inside the pool and leave every long of it set to `ROC_SHMEM_SYNC_VALUE`. -/
theorem teamsInitSyncPool_eq (syncSize maxNumTeams : ℕ) (syncValue : ℤ) :
    teamsInitSyncPool syncSize maxNumTeams syncValue =
      some (List.replicate (syncSize * maxNumTeams) (some syncValue)) := by
  rw [teamsInitSyncPool, foldlM_initTeamSync _ _ _ _ le_rfl, Nat.mul_comm maxNumTeams,
    Nat.sub_self, List.replicate_zero, List.append_nil]

/-! ### The team bitmasks -/

/-- **Every byte index of the team bitmasks is in range.** `bitmask_size_` is
`⌈max_num_teams / 8⌉`. The loop of `teams_init` writes only inside the pool;
`get_ls_non_zero_bit(reduced_bitmask_, max_num_teams)` never reads past the end of a mask of
that size, and the index `create_new_team` clears lies below it, so that `create_new_team` is
defined at every rank; in every reachable state both masks of every rank have that size, and
the slot `team_destroy` sets for a live team other than `TEAM_WORLD` lies below it, so that
`team_destroy` is defined. -/
theorem bitmask_bytes_in_range (maxNumTeams : ℕ) :
    bitmaskSize maxNumTeams = (maxNumTeams + charBit - 1) / charBit ∧
    (teamsInit maxNumTeams).isSome ∧
    (∀ reduced : List (BitVec 8), reduced.length = bitmaskSize maxNumTeams →
      (getLsNonZeroBit reduced maxNumTeams).isSome ∧
      ∀ commonIndex, getLsNonZeroBit reduced maxNumTeams = some commonIndex → 0 ≤ commonIndex →
        commonIndex.toNat / charBit < bitmaskSize maxNumTeams) ∧
    (∀ (st : TeamState maxNumTeams) (reduced : List (BitVec 8))
      (h : reduced.length = bitmaskSize maxNumTeams), (st.createNewTeam reduced h).isSome) ∧
    ∀ (numRanks : ℕ) (w : ℕ → TeamState maxNumTeams), TeamReachable maxNumTeams numRanks w →
      ∀ r, (w r).pool.length = bitmaskSize maxNumTeams ∧
        (w r).reduced.length = bitmaskSize maxNumTeams ∧
        ∀ k, 1 ≤ k → k < (w r).teams.length →
          (w r).teams.getD k 0 / charBit < bitmaskSize maxNumTeams ∧
            ((w r).teamDestroy k).isSome := by
  refine ⟨by unfold bitmaskSize charBit; split <;> omega, isSome_teamsInit _,
    fun reduced hr => ?_, fun st reduced h => ?_, fun numRanks w hw r => ⟨(w r).pool_length,
      (w r).reduced_length, fun k hk1 hk => ?_⟩⟩
  · have hn : maxNumTeams ≤ charBit * reduced.length := hr ▸ le_charBit_mul_bitmaskSize _
    rcases getLsNonZeroBit_spec reduced maxNumTeams hn with ⟨h1, -⟩ | ⟨i, h1, h2, -⟩
    · exact ⟨by rw [h1]; rfl, fun c hc h0 => by rw [h1, Option.some.injEq] at hc; omega⟩
    · refine ⟨by rw [h1]; rfl, fun c hc _ => ?_⟩
      rw [h1, Option.some.injEq] at hc
      subst hc
      exact div_lt_bitmaskSize h2
  · rcases st.createNewTeam_spec reduced h with ⟨-, st', hc, -⟩ | ⟨i, -, -, -, st', hc, -⟩ <;>
      rw [hc] <;> rfl
  · obtain ⟨st', hd, -⟩ := (hw.teamInv r).teamDestroy hk1 hk
    refine ⟨?_, by rw [hd]; rfl⟩
    rw [List.getD_eq_getElem _ _ hk]
    exact div_lt_bitmaskSize ((hw.teamInv r).slot_range hk1 hk).2

end RocShmem
