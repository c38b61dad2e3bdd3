import RocShmem.Bitmask
import Mathlib.Data.List.Nodup

/-!
# Teams of the GPU-IB backend

Each rank keeps `pool_bitmask_`, `reduced_bitmask_` and its live teams, `TEAM_WORLD` first, each
with the `pool_index_` of the work arrays it owns. `create_new_team` is collective over the
members of a new team: `MPI_Allreduce` with `MPI_BAND` gives every member the AND of the
members' bitmasks, and each member takes the least slot free in all of them. `team_destroy` is
local and frees its team's slot.

`max_num_teams` comes from the team tracker, which is not among the sources: it is a parameter.
A byte of a mask read or written past its end is undefined (`none`), and so is the step that
does it.

* `TeamState`, `createNewTeam`, `teamDestroy`, and the ranks together: `teamStep`,
  `TeamReachable`;
* `createNewTeam_agree`: the members of one call agree on its outcome and on the slot;
* `TeamInv`, kept by every step: a slot's bit is set exactly while the slot is free at that
  rank, and `TEAM_WORLD` holds slot 0; under it `team_destroy` of a live team other than
  `TEAM_WORLD` is defined.
-/

namespace RocShmem

/-- The team state of one rank: `pool_bitmask_` and `reduced_bitmask_`, both of `bitmask_size_`
bytes, and the `pool_index_` of each live team, `TEAM_WORLD` first. -/
structure TeamState (maxNumTeams : ℕ) where
  pool : List (BitVec 8)
  reduced : List (BitVec 8)
  teams : List ℕ
  pool_length : pool.length = bitmaskSize maxNumTeams
  reduced_length : reduced.length = bitmaskSize maxNumTeams

namespace TeamState

variable {maxNumTeams : ℕ}

/-- The pool of `teams_init`, which is defined (`isSome_teamsInit`). -/
theorem get_teamsInit_spec (maxNumTeams : ℕ) :
    ((teamsInit maxNumTeams).get (isSome_teamsInit _)).length = bitmaskSize maxNumTeams ∧
    ∀ i, testBit ((teamsInit maxNumTeams).get (isSome_teamsInit _)) i =
      decide (1 ≤ i ∧ i < maxNumTeams) := by
  obtain ⟨bm, h, hl, ht⟩ := teamsInit_spec maxNumTeams
  obtain rfl : (teamsInit maxNumTeams).get (isSome_teamsInit _) = bm :=
    Option.some_injective _ ((Option.some_get _).trans h)
  exact ⟨hl, ht⟩

/-- A rank after `setup_team_world` (`TEAM_WORLD` with pool index 0) and `teams_init`. -/
def init (maxNumTeams : ℕ) : TeamState maxNumTeams :=
  ⟨(teamsInit maxNumTeams).get (isSome_teamsInit _), List.replicate (bitmaskSize maxNumTeams) 0,
    [0], (get_teamsInit_spec _).1, List.length_replicate _ _⟩

/-- `GPUIBBackend::create_new_team` at one member, given the `reduced` mask its
`MPI_Allreduce` delivers into `reduced_bitmask_`; `none` where `get_ls_non_zero_bit` would read
past the end of the mask or the pool's byte to clear is past the end of the pool. -/
def createNewTeam (st : TeamState maxNumTeams) (reduced : List (BitVec 8))
    (h : reduced.length = bitmaskSize maxNumTeams) : Option (Status × TeamState maxNumTeams) :=
  match getLsNonZeroBit reduced maxNumTeams with
  | none => none
  | some commonIndex =>
    if commonIndex < 0 then some (.tooManyTeams, { st with reduced := reduced, reduced_length := h })
    else match hp : clearBit st.pool commonIndex.toNat with
      | none => none
      | some pool => some (.success, { st with
          reduced := reduced
          reduced_length := h
          pool := pool
          pool_length := (clearBit_spec hp).2.1.trans st.pool_length
          teams := st.teams ++ [commonIndex.toNat] })

/-- `GPUIBBackend::team_destroy` of the live team at position `k`: the bit of its `pool_index_`
is set again and the team is gone; `none` where that bit's byte is past the end of the pool. -/
def teamDestroy (st : TeamState maxNumTeams) (k : ℕ) : Option (TeamState maxNumTeams) :=
  match hp : setBit st.pool (st.teams.getD k 0) with
  | none => none
  | some pool => some { st with
      pool := pool
      pool_length := (setBit_spec hp).2.1.trans st.pool_length
      teams := st.teams.eraseIdx k }

/-- `team_destroy` is defined exactly when its slot's byte is inside the pool; it then sets
that slot's bit and drops the team. -/
theorem teamDestroy_spec (st : TeamState maxNumTeams) (k : ℕ)
    (h : st.teams.getD k 0 / charBit < st.pool.length) :
    ∃ st', st.teamDestroy k = some st' ∧ setBit st.pool (st.teams.getD k 0) = some st'.pool ∧
      st'.teams = st.teams.eraseIdx k := by
  obtain ⟨pool, hp⟩ := Option.isSome_iff_exists.1 (isSome_updateBit.2 h)
  unfold teamDestroy
  split
  · next hn => exact absurd (hp.symm.trans hn) (by simp)
  · next pool' hp' => exact ⟨_, rfl, hp', rfl⟩

theorem teamDestroy_teams {st st' : TeamState maxNumTeams} {k : ℕ}
    (h : st.teamDestroy k = some st') : st'.teams = st.teams.eraseIdx k := by
  unfold teamDestroy at h
  split at h
  · cases h
  · cases h
    rfl

/-- What one call of `create_new_team` does at a member: nothing to the pool when no slot below
`max_num_teams` is free in `reduced`, and otherwise it takes the least free one. -/
theorem createNewTeam_spec (st : TeamState maxNumTeams) (red : List (BitVec 8))
    (h : red.length = bitmaskSize maxNumTeams) :
    ((∀ i < maxNumTeams, testBit red i = false) ∧ ∃ st', st.createNewTeam red h =
      some (.tooManyTeams, st') ∧ st'.pool = st.pool ∧ st'.teams = st.teams) ∨
    ∃ i < maxNumTeams, testBit red i = true ∧ (∀ j < i, testBit red j = false) ∧
      ∃ st', st.createNewTeam red h = some (.success, st') ∧
        clearBit st.pool i = some st'.pool ∧ st'.teams = st.teams ++ [i] := by
  have hn : maxNumTeams ≤ charBit * red.length := h ▸ le_charBit_mul_bitmaskSize _
  rcases getLsNonZeroBit_spec red maxNumTeams hn with ⟨h1, h2⟩ | ⟨i, h1, h2, h3, h4⟩
  · refine .inl ⟨h2, ?_⟩
    simp only [createNewTeam, h1]
    rw [if_pos (by decide)]
    exact ⟨_, rfl, rfl, rfl⟩
  · refine .inr ⟨i, h2, h3, h4, ?_⟩
    obtain ⟨pool, hp⟩ := Option.isSome_iff_exists.1
      (isSome_updateBit.2 (st.pool_length ▸ div_lt_bitmaskSize h2))
    simp only [createNewTeam, h1, Int.toNat_ofNat]
    rw [if_neg (by omega)]
    split
    · next hn => exact absurd (hp.symm.trans hn) (by simp)
    · next pool' hp' => exact ⟨_, rfl, hp', rfl⟩

/-- **Agreement of `create_new_team`.** Members that reduce their pools together all get the
same outcome: too many teams, with every pool unchanged, exactly when no slot below
`max_num_teams` is free at all of them; otherwise the least slot free at all of them, which each
member's pool then loses and nothing else. -/
theorem createNewTeam_agree (members : List (TeamState maxNumTeams)) :
    let red := reduceBand (members.map (·.pool)) (bitmaskSize maxNumTeams)
    ((∀ i < maxNumTeams, ∃ st ∈ members, testBit st.pool i = false) ∧
      ∀ st ∈ members, ∃ st', st.createNewTeam red (length_reduceBand _ _) =
        some (.tooManyTeams, st') ∧ st'.pool = st.pool ∧ st'.teams = st.teams) ∨
    ∃ i < maxNumTeams, (∀ st ∈ members, testBit st.pool i = true) ∧
      (∀ j < i, ∃ st ∈ members, testBit st.pool j = false) ∧
      ∀ st ∈ members, ∃ st', st.createNewTeam red (length_reduceBand _ _) =
        some (.success, st') ∧ st'.teams = st.teams ++ [i] ∧ clearBit st.pool i = some st'.pool ∧
        ∀ j, testBit st'.pool j = (testBit st.pool j && j != i) := by
  intro red
  have hred : ∀ i < maxNumTeams, testBit red i = true ↔ ∀ st ∈ members, testBit st.pool i = true :=
    fun i hi => by
      rw [testBit_reduceBand _ (by have := le_charBit_mul_bitmaskSize maxNumTeams; omega),
        List.all_eq_true, List.forall_mem_map]
  have hfree : ∀ i < maxNumTeams, testBit red i = false → ∃ st ∈ members,
      testBit st.pool i = false := fun i hi h0 => by
    simpa using mt (hred i hi).2 (by simp [h0])
  rcases createNewTeam_spec (members.headD (init maxNumTeams)) red (length_reduceBand _ _) with
    ⟨h1, -⟩ | ⟨i, hi, h1, h2, -⟩
  · refine .inl ⟨fun i hi => hfree i hi (h1 i hi), fun st _ => ?_⟩
    rcases createNewTeam_spec st red (length_reduceBand _ _) with ⟨-, h⟩ | ⟨i, hi, h3, -⟩
    · exact h
    · exact absurd (h1 i hi) (by rw [h3]; decide)
  · have hall := (hred i hi).1 h1
    refine .inr ⟨i, hi, hall, fun j hj => hfree j (by omega) (h2 j hj), fun st hst => ?_⟩
    rcases createNewTeam_spec st red (length_reduceBand _ _) with ⟨h3, -⟩ | ⟨i', hi', h3, h4, h⟩
    · exact absurd (h3 i hi) (by rw [h1]; decide)
    obtain rfl : i' = i := eq_of_least_testBit h3 h4 h1 h2
    obtain ⟨st', hc, hp, ht⟩ := h
    refine ⟨st', hc, ht, hp, fun j => ?_⟩
    rw [(clearBit_spec hp).2.2 j]
    rfl

end TeamState

/-! ### The ranks together -/

/-- What the ranks can do next. -/
inductive TeamAction
  /-- The ranks of `group` call `create_new_team` together, over a communicator of the group. -/
  | create (group : List ℕ)
  /-- Rank `rank` calls `team_destroy` on its live team at position `k`. -/
  | destroy (rank k : ℕ)

variable {maxNumTeams : ℕ}

/-- `MPI_Allreduce` of the members' `pool_bitmask_` over `bitmask_size_` chars with `MPI_BAND`. -/
def groupReduce (w : ℕ → TeamState maxNumTeams) (group : List ℕ) : List (BitVec 8) :=
  reduceBand (group.map fun r => (w r).pool) (bitmaskSize maxNumTeams)

/-- One step of `numRanks` ranks: a collective creation by distinct ranks, each defined at every
member, or the destruction of a live team other than `TEAM_WORLD`, where defined. -/
def teamStep (numRanks : ℕ) (w : ℕ → TeamState maxNumTeams) :
    TeamAction → Option (ℕ → TeamState maxNumTeams)
  | .create group =>
    let create := fun r => (w r).createNewTeam (groupReduce w group) (length_reduceBand _ _)
    if group.Nodup ∧ (∀ r ∈ group, r < numRanks) ∧ ∀ r ∈ group, (create r).isSome then
      some fun r => if r ∈ group then ((create r).map Prod.snd).getD (w r) else w r
    else none
  | .destroy r k =>
    if r < numRanks ∧ 1 ≤ k ∧ k < (w r).teams.length then
      ((w r).teamDestroy k).map (Function.update w r)
    else none

/-- A sequence of steps. -/
def teamRun (numRanks : ℕ) (w : ℕ → TeamState maxNumTeams) :
    List TeamAction → Option (ℕ → TeamState maxNumTeams)
  | [] => some w
  | a :: as => (teamStep numRanks w a).bind (teamRun numRanks · as)

/-- The states of `numRanks` ranks reachable from their initialisation. -/
inductive TeamReachable (maxNumTeams numRanks : ℕ) : (ℕ → TeamState maxNumTeams) → Prop
  | init : TeamReachable maxNumTeams numRanks fun _ => TeamState.init maxNumTeams
  | step {w w' : ℕ → TeamState maxNumTeams} {a : TeamAction} :
    TeamReachable maxNumTeams numRanks w → teamStep numRanks w a = some w' →
      TeamReachable maxNumTeams numRanks w'

theorem TeamReachable.run {numRanks : ℕ} {w w' : ℕ → TeamState maxNumTeams} {as : List TeamAction}
    (hw : TeamReachable maxNumTeams numRanks w) (h : teamRun numRanks w as = some w') :
    TeamReachable maxNumTeams numRanks w' := by
  induction as generalizing w with
  | nil => cases h; exact hw
  | cons a as ih =>
    simp only [teamRun, Option.bind_eq_some] at h
    obtain ⟨w₁, h₁, h₂⟩ := h
    exact ih (hw.step h₁) h₂

/-! ### The invariant of a rank -/

/-- What every rank keeps: a slot's bit is set exactly while the slot is free, `TEAM_WORLD` holds
slot 0, and the other live teams hold distinct slots in `[1, max_num_teams)`. -/
structure TeamInv (st : TeamState maxNumTeams) : Prop where
  testBit_pool : ∀ i, testBit st.pool i = true ↔ 1 ≤ i ∧ i < maxNumTeams ∧ i ∉ st.teams
  head_teams : st.teams.head? = some 0
  nodup : st.teams.Nodup
  tail_range : ∀ i ∈ st.teams.tail, 1 ≤ i ∧ i < maxNumTeams

namespace TeamInv

theorem init : TeamInv (TeamState.init maxNumTeams) where
  testBit_pool i := by
    rw [TeamState.init, (TeamState.get_teamsInit_spec _).2, decide_eq_true_iff,
      List.mem_singleton]
    omega
  head_teams := rfl
  nodup := List.nodup_singleton 0
  tail_range _ h := absurd h (List.not_mem_nil _)

theorem of_eq {st st' : TeamState maxNumTeams} (hi : TeamInv st) (hp : st'.pool = st.pool)
    (ht : st'.teams = st.teams) : TeamInv st' := by
  obtain ⟨p, t, n, r⟩ := hi
  exact ⟨hp ▸ ht ▸ p, ht ▸ t, ht ▸ n, ht ▸ r⟩

theorem teams_eq {st : TeamState maxNumTeams} (hi : TeamInv st) :
    st.teams = 0 :: st.teams.tail := by
  have h := hi.head_teams
  cases ht : st.teams with
  | nil => rw [ht] at h; cases h
  | cons a t => rw [ht, List.head?_cons, Option.some_inj] at h; rw [h, List.tail_cons]

/-- Taking a free slot keeps the invariant. -/
theorem take {st st' : TeamState maxNumTeams} {i : ℕ} (hi : TeamInv st) (hlt : i < maxNumTeams)
    (hfree : testBit st.pool i = true) (hp : clearBit st.pool i = some st'.pool)
    (ht : st'.teams = st.teams ++ [i]) : TeamInv st' := by
  obtain ⟨h1, h2, hni⟩ := (hi.testBit_pool i).1 hfree
  have hte := hi.teams_eq
  refine ⟨fun j => ?_, ?_, ?_, fun j hj => ?_⟩
  · rw [(clearBit_spec hp).2.2, ht, Bool.and_eq_true, hi.testBit_pool, List.mem_append,
      List.mem_singleton]
    simp only [Bool.not_eq_true', decide_eq_false_iff_not, not_or, and_assoc]
  · rw [ht, hte]
    rfl
  · rw [ht]
    exact hi.nodup.append (List.nodup_singleton i) (List.disjoint_singleton.2 hni)
  · rw [ht, hte, List.cons_append, List.tail_cons, List.mem_append, List.mem_singleton] at hj
    rcases hj with hj | rfl
    · exact hi.tail_range j (hte ▸ hj)
    · exact ⟨h1, h2⟩

/-- A live team other than `TEAM_WORLD` holds a slot in `[1, max_num_teams)`. -/
theorem slot_range {st : TeamState maxNumTeams} {k : ℕ} (hi : TeamInv st) (hk1 : 1 ≤ k)
    (hk : k < st.teams.length) : 1 ≤ st.teams[k] ∧ st.teams[k] < maxNumTeams := by
  obtain ⟨k, rfl⟩ : ∃ k', k = k' + 1 := ⟨k - 1, by omega⟩
  refine hi.tail_range _ ?_
  rw [List.mem_iff_getElem]
  exact ⟨k, by simp [List.length_tail]; omega, by simp [List.getElem_tail]⟩

/-- Destroying a live team other than `TEAM_WORLD` is defined and keeps the invariant. -/
theorem teamDestroy {st : TeamState maxNumTeams} {k : ℕ} (hi : TeamInv st) (hk1 : 1 ≤ k)
    (hk : k < st.teams.length) : ∃ st', st.teamDestroy k = some st' ∧ TeamInv st' := by
  have hte := hi.teams_eq
  obtain ⟨h1, h2⟩ := hi.slot_range hk1 hk
  have hget : st.teams.getD k 0 = st.teams[k] := List.getD_eq_getElem _ _ hk
  obtain ⟨st', hd, hp, ht⟩ := st.teamDestroy_spec k
    (hget ▸ st.pool_length ▸ div_lt_bitmaskSize h2)
  have herase : st.teams.eraseIdx k = st.teams.erase st.teams[k] :=
    (hi.nodup.erase_getElem _ hk).symm
  refine ⟨st', hd, ⟨fun j => ?_, ?_, ht ▸ hi.nodup.sublist (List.eraseIdx_sublist _ _),
    fun j hj => ?_⟩⟩
  · rw [(setBit_spec hp).2.2, hget, Bool.or_eq_true, hi.testBit_pool, ht, herase,
      hi.nodup.mem_erase_iff, decide_eq_true_iff]
    by_cases hj : j = st.teams[k]
    · subst hj
      exact iff_of_true (.inr rfl) ⟨h1, h2, fun h => h.1 rfl⟩
    · simp only [hj, or_false, ne_eq, not_false_eq_true, true_and]
  · obtain ⟨k, rfl⟩ : ∃ k', k = k' + 1 := ⟨k - 1, by omega⟩
    rw [ht, hte]
    rfl
  · obtain ⟨k, rfl⟩ : ∃ k', k = k' + 1 := ⟨k - 1, by omega⟩
    have htail : (st.teams.eraseIdx (k + 1)).tail = st.teams.tail.eraseIdx k := by
      rw [hte]
      rfl
    rw [ht, htail] at hj
    exact hi.tail_range j ((List.eraseIdx_sublist _ _).subset hj)

end TeamInv

/-- Every step keeps the invariant at every rank. -/
theorem TeamInv.step {numRanks : ℕ} {w w' : ℕ → TeamState maxNumTeams} {a : TeamAction}
    (hw : ∀ r, TeamInv (w r)) (h : teamStep numRanks w a = some w') : ∀ r, TeamInv (w' r) := by
  cases a with
  | create G =>
    simp only [teamStep] at h
    split_ifs at h with hg
    cases h
    intro r
    by_cases hr : r ∈ G
    · simp only [hr, if_true]
      rcases TeamState.createNewTeam_spec (w r) (groupReduce w G) (length_reduceBand _ _) with
        ⟨-, st', hc, hp, ht⟩ | ⟨i, hi, hbit, -, st', hc, hp, ht⟩
      · rw [hc]
        exact (hw r).of_eq hp ht
      · rw [hc]
        have hall :=
          (testBit_reduceBand _ (lt_of_lt_of_le hi (le_charBit_mul_bitmaskSize _))).symm.trans hbit
        rw [List.all_eq_true] at hall
        exact (hw r).take hi (hall _ (List.mem_map_of_mem _ hr)) hp ht
    · simp only [hr, if_false]
      exact hw r
  | destroy r k =>
    simp only [teamStep] at h
    split_ifs at h with hg
    obtain ⟨st', hd, hinv⟩ := (hw r).teamDestroy hg.2.1 hg.2.2
    rw [hd, Option.map_some', Option.some_inj] at h
    subst h
    intro r'
    by_cases hr : r' = r
    · rw [hr, Function.update_same]
      exact hinv
    · rw [Function.update_noteq hr]
      exact hw r'

theorem TeamReachable.teamInv {numRanks : ℕ} {w : ℕ → TeamState maxNumTeams}
    (h : TeamReachable maxNumTeams numRanks w) : ∀ r, TeamInv (w r) := by
  induction h with
  | init => exact fun _ => TeamInv.init
  | step _ hs ih => exact TeamInv.step ih hs

/-- **The pool bitmask tracks the live teams.** At every rank of every reachable state, bit `i`
is set exactly when `i` is in `[1, max_num_teams)` and no live team holds slot `i`; bit 0 and the
bits from `max_num_teams` on are clear; `TEAM_WORLD` holds slot 0, and the other live teams hold
distinct slots in `[1, max_num_teams)`. -/
theorem team_pool_invariant {numRanks : ℕ} {w : ℕ → TeamState maxNumTeams}
    (h : TeamReachable maxNumTeams numRanks w) (r : ℕ) :
    (∀ i, testBit (w r).pool i = true ↔ 1 ≤ i ∧ i < maxNumTeams ∧ i ∉ (w r).teams) ∧
    testBit (w r).pool 0 = false ∧ (∀ i, maxNumTeams ≤ i → testBit (w r).pool i = false) ∧
    (w r).teams.head? = some 0 ∧ (w r).teams.Nodup ∧
    ∀ i ∈ (w r).teams.tail, 1 ≤ i ∧ i < maxNumTeams := by
  have hi := h.teamInv r
  have hoff : ∀ i, ¬(1 ≤ i ∧ i < maxNumTeams) → testBit (w r).pool i = false := fun i hni => by
    rw [← Bool.not_eq_true, hi.testBit_pool]
    exact fun h => hni ⟨h.1, h.2.1⟩
  exact ⟨hi.testBit_pool, hoff 0 (by omega), fun i hi => hoff i (by omega), hi.head_teams,
    hi.nodup, hi.tail_range⟩

/-- Ranks 0 and 1 of three slots create a team together (slot 1), rank 0 creates one alone
(slot 2), then destroys the first. -/
def threeTeamsRun : List TeamAction := [.create [0, 1], .create [0], .destroy 0 1]

/-- Two ranks after `threeTeamsRun`. -/
def threeTeamsState : ℕ → TeamState 3 :=
  (teamRun 2 (fun _ => TeamState.init 3) threeTeamsRun).get (by decide)

theorem team_pool_invariant_threeTeams :
    (∀ i, testBit (threeTeamsState 0).pool i = true ↔
      1 ≤ i ∧ i < 3 ∧ i ∉ (threeTeamsState 0).teams) ∧
    testBit (threeTeamsState 0).pool 0 = false ∧
    (∀ i, 3 ≤ i → testBit (threeTeamsState 0).pool i = false) ∧
    (threeTeamsState 0).teams.head? = some 0 ∧ (threeTeamsState 0).teams.Nodup ∧
    ∀ i ∈ (threeTeamsState 0).teams.tail, 1 ≤ i ∧ i < 3 :=
  team_pool_invariant (TeamReachable.init.run (Option.some_get _).symm) 0

/-- With no slots at all, `TEAM_WORLD` still holds slot 0, outside `[0, max_num_teams)`. -/
theorem world_team_slot_out_of_range :
    ¬ ∀ w : ℕ → TeamState 0, TeamReachable 0 1 w → ∀ r,
      (∀ i, testBit (w r).pool i = true ↔ 1 ≤ i ∧ i < 0 ∧ i ∉ (w r).teams) ∧
      testBit (w r).pool 0 = false ∧ (∀ i, 0 ≤ i → testBit (w r).pool i = false) ∧
      (w r).teams.Nodup ∧ ∀ i ∈ (w r).teams, i < 0 := fun h =>
  Nat.lt_irrefl 0 ((h _ TeamReachable.init 0).2.2.2.2 0 (List.mem_singleton_self 0))

end RocShmem
