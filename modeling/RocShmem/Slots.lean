import RocShmem.Team

/-!
# The team slots: what the bitmask protocol allocates

The pool bitmasks are a representation: what a rank's slots are is said by its live teams
alone. Over that view, a collective `create_new_team` is an allocator that gives the new team
the least slot of `[1, max_num_teams)` that no member's live teams hold, and fails only when the
members' live teams hold all of them together. In every reachable state the bitmask protocol
computes exactly that, at every member, so that every run of the ranks is a run of the
allocator.

* `leastCommonFree`, `slotStep`, `slotRun`: the allocator over the live teams;
* `createNewTeam_allocates`: one collective creation refines it;
* `team_capacity`: at most `max_num_teams - 1` live teams besides `TEAM_WORLD`, and a creation
  with a full member fails;
* `team_slots_refine_allocator`: every run of the ranks from their initialisation is a run of the
  allocator.
-/

namespace RocShmem

/-- The least slot of `[1, max_num_teams)` held by none of the lists of live slots `held`. -/
def leastCommonFree (maxNumTeams : ℕ) (held : List (List ℕ)) : Option ℕ :=
  (List.range' 1 (maxNumTeams - 1)).find? fun i => held.all fun l => decide (i ∉ l)

variable {maxNumTeams numRanks : ℕ} {w : ℕ → TeamState maxNumTeams}

/-- In the invariant, the reduced mask of a group has bit `i` set exactly when slot `i` is free
at every member. -/
theorem testBit_groupReduce (hw : ∀ r, TeamInv (w r)) {group : List ℕ} (hg : group ≠ [])
    {i : ℕ} (hi : i < maxNumTeams) :
    testBit (groupReduce w group) i = true ↔ 1 ≤ i ∧ ∀ r ∈ group, i ∉ (w r).teams := by
  rw [groupReduce, testBit_reduceBand _ (lt_of_lt_of_le hi (le_charBit_mul_bitmaskSize _)),
    List.all_eq_true, List.forall_mem_map]
  simp only [(hw _).testBit_pool]
  obtain ⟨r₀, hr₀⟩ := List.exists_mem_of_ne_nil group hg
  exact ⟨fun h => ⟨(h r₀ hr₀).1, fun r hr => (h r hr).2.2⟩,
    fun h r hr => ⟨h.1, hi, h.2 r hr⟩⟩

theorem all_not_mem_teams (group : List ℕ) (i : ℕ) :
    ((group.map fun r => (w r).teams).all fun l => decide (i ∉ l)) = true ↔
      ∀ r ∈ group, i ∉ (w r).teams := by
  rw [List.all_eq_true, List.forall_mem_map]
  simp only [decide_eq_true_eq]

theorem leastCommonFree_eq_none {group : List ℕ} :
    leastCommonFree maxNumTeams (group.map fun r => (w r).teams) = none ↔
      ∀ i, 1 ≤ i → i < maxNumTeams → ∃ r ∈ group, i ∈ (w r).teams := by
  rw [leastCommonFree, List.find?_range'_eq_none]
  refine forall_congr' fun i => ?_
  rw [Bool.not_eq_true', ← Bool.not_eq_true, all_not_mem_teams]
  push_neg
  exact ⟨fun h h1 h2 => h h1 (by omega), fun h h1 h2 => h h1 (by omega)⟩

/-! ### The protocol refines the allocator -/

/-- **The bitmask protocol allocates the least slot free at every member.** In every reachable
state, when the ranks of a group create a team together, each member gets `TOO_MANY_TEAMS`
with its live teams unchanged exactly when the members' live teams together hold every slot of
`[1, max_num_teams)`, and otherwise a new team in the least slot of `[1, max_num_teams)` that no
member's live team holds. -/
theorem createNewTeam_allocates (hw : TeamReachable maxNumTeams numRanks w) {group : List ℕ}
    {r : ℕ} (hr : r ∈ group) :
    ((w r).createNewTeam (groupReduce w group) (length_reduceBand _ _)).map
        (fun x => (x.1, x.2.teams)) =
      some (match leastCommonFree maxNumTeams (group.map fun r => (w r).teams) with
        | none => (.tooManyTeams, (w r).teams)
        | some i => (.success, (w r).teams ++ [i])) := by
  have hinv := hw.teamInv
  have hg : group ≠ [] := List.ne_nil_of_mem hr
  rcases TeamState.createNewTeam_spec (w r) (groupReduce w group) (length_reduceBand _ _) with
    ⟨hnone, st', hc, -, ht⟩ | ⟨i, hi, hbit, hbelow, st', hc, -, ht⟩
  · have hf : leastCommonFree maxNumTeams (group.map fun r => (w r).teams) = none := by
      refine leastCommonFree_eq_none.2 fun i h1 h2 => ?_
      have := hnone i h2
      rw [← Bool.not_eq_true, testBit_groupReduce hinv hg h2] at this
      simpa [h1] using this
    rw [hc, hf, Option.map_some', ht]
  · have hf : leastCommonFree maxNumTeams (group.map fun r => (w r).teams) = some i := by
      obtain ⟨h1, hfree⟩ := (testBit_groupReduce hinv hg hi).1 hbit
      rw [leastCommonFree, List.find?_range'_eq_some]
      refine ⟨?_, List.mem_range'_1.2 ⟨h1, by omega⟩, fun j hj1 hji => ?_⟩
      · exact (all_not_mem_teams group i).2 hfree
      · have := hbelow j hji
        rw [← Bool.not_eq_true, testBit_groupReduce hinv hg (by omega)] at this
        rw [Bool.not_eq_true', ← Bool.not_eq_true, all_not_mem_teams]
        exact fun h => this ⟨hj1, h⟩
    rw [hc, hf, Option.map_some', ht]

/-- **At most `max_num_teams - 1` teams besides `TEAM_WORLD`.** In every reachable state each
rank has at most `max_num_teams - 1` live teams besides `TEAM_WORLD`; and when a member of a
collective creation has that many, every member gets `TOO_MANY_TEAMS` and keeps its live
teams. -/
theorem team_capacity (hw : TeamReachable maxNumTeams numRanks w) (r : ℕ) :
    (w r).teams.tail.length ≤ maxNumTeams - 1 ∧
    ∀ group, r ∈ group → (w r).teams.tail.length = maxNumTeams - 1 → ∀ r' ∈ group,
      ((w r').createNewTeam (groupReduce w group) (length_reduceBand _ _)).map
        (fun x => (x.1, x.2.teams)) = some (.tooManyTeams, (w r').teams) := by
  have hi := hw.teamInv r
  have hsub : (w r).teams.tail ⊆ List.range' 1 (maxNumTeams - 1) := fun i hmem => by
    have := hi.tail_range i hmem
    exact List.mem_range'_1.2 ⟨this.1, by omega⟩
  have hnd : (w r).teams.tail.Nodup := hi.nodup.sublist (List.tail_sublist _)
  have hsp := List.subperm_of_subset hnd hsub
  refine ⟨by simpa using hsp.length_le, fun group hr hfull r' hr' => ?_⟩
  have hperm := hsp.perm_of_length_le (by rw [List.length_range', hfull])
  have hnone : leastCommonFree maxNumTeams (group.map fun r => (w r).teams) = none :=
    leastCommonFree_eq_none.2 fun i h1 h2 => ⟨r, hr, List.mem_of_mem_tail
      (hperm.symm.subset (List.mem_range'_1.2 ⟨h1, by omega⟩))⟩
  rw [createNewTeam_allocates hw hr', hnone]

theorem team_capacity_threeTeams :
    (threeTeamsState 0).teams.tail.length ≤ 3 - 1 ∧
    ∀ group, 0 ∈ group → (threeTeamsState 0).teams.tail.length = 3 - 1 → ∀ r' ∈ group,
      ((threeTeamsState r').createNewTeam (groupReduce threeTeamsState group)
        (length_reduceBand _ _)).map (fun x => (x.1, x.2.teams)) =
        some (.tooManyTeams, (threeTeamsState r').teams) :=
  team_capacity (TeamReachable.init.run (Option.some_get _).symm) 0

/-! ### Whole runs -/

/-- The allocator as a step of all ranks, over their live slots alone: a collective creation by
distinct ranks gives every member the least slot free at all of them, or nothing when there is
none; a destruction drops a live team other than `TEAM_WORLD`. -/
def slotStep (maxNumTeams numRanks : ℕ) (held : ℕ → List ℕ) : TeamAction → Option (ℕ → List ℕ)
  | .create group =>
    if group.Nodup ∧ ∀ r ∈ group, r < numRanks then
      some fun r => if r ∈ group then
        (match leastCommonFree maxNumTeams (group.map held) with
          | none => held r
          | some i => held r ++ [i])
      else held r
    else none
  | .destroy r k =>
    if r < numRanks ∧ 1 ≤ k ∧ k < (held r).length then
      some (Function.update held r ((held r).eraseIdx k))
    else none

/-- A sequence of allocator steps. -/
def slotRun (maxNumTeams numRanks : ℕ) (held : ℕ → List ℕ) : List TeamAction → Option (ℕ → List ℕ)
  | [] => some held
  | a :: as => (slotStep maxNumTeams numRanks held a).bind (slotRun maxNumTeams numRanks · as)

/-- One step of the ranks is one step of the allocator on their live slots, enabled exactly when
the allocator's step is. -/
theorem teamStep_refines (hw : TeamReachable maxNumTeams numRanks w) (a : TeamAction) :
    (teamStep numRanks w a).map (fun w' r => (w' r).teams) =
      slotStep maxNumTeams numRanks (fun r => (w r).teams) a := by
  cases a with
  | create group =>
    have halloc : ∀ r ∈ group, ∃ x, (w r).createNewTeam (groupReduce w group)
        (length_reduceBand _ _) = some x ∧
        x.2.teams = (match leastCommonFree maxNumTeams (group.map fun r => (w r).teams) with
          | none => (w r).teams
          | some i => (w r).teams ++ [i]) := fun r hr => by
      have := createNewTeam_allocates hw hr
      cases hc : (w r).createNewTeam (groupReduce w group) (length_reduceBand _ _) with
      | none => rw [hc] at this; cases this
      | some x =>
        rw [hc, Option.map_some', Option.some_inj] at this
        refine ⟨x, rfl, ?_⟩
        generalize leastCommonFree maxNumTeams (group.map fun r => (w r).teams) = l at this ⊢
        cases l <;> exact congrArg Prod.snd this
    simp only [teamStep, slotStep]
    by_cases hg : group.Nodup ∧ ∀ r ∈ group, r < numRanks
    · rw [if_pos ⟨hg.1, hg.2, fun r hr => by obtain ⟨x, hx, -⟩ := halloc r hr; rw [hx]; rfl⟩,
        if_pos hg, Option.map_some']
      congr 1
      funext r
      dsimp only
      by_cases hr : r ∈ group
      · obtain ⟨x, hx, hteams⟩ := halloc r hr
        rw [if_pos hr, if_pos hr, hx, ← hteams]
        rfl
      · rw [if_neg hr, if_neg hr]
    · rw [if_neg fun h => hg ⟨h.1, h.2.1⟩, if_neg hg]
      rfl
  | destroy r k =>
    simp only [teamStep, slotStep]
    split_ifs with hg
    · obtain ⟨st', hd, -⟩ := (hw.teamInv r).teamDestroy hg.2.1 hg.2.2
      rw [hd, Option.map_some', Option.map_some', ← TeamState.teamDestroy_teams hd]
      congr 1
      funext r'
      by_cases hr : r' = r
      · subst hr; simp
      · simp [Function.update_noteq hr]
    · rfl

theorem teamRun_refines (hw : TeamReachable maxNumTeams numRanks w) (as : List TeamAction) :
    (teamRun numRanks w as).map (fun w' r => (w' r).teams) =
      slotRun maxNumTeams numRanks (fun r => (w r).teams) as := by
  induction as generalizing w with
  | nil => rfl
  | cons a as ih =>
    have hs := teamStep_refines hw a
    simp only [teamRun, slotRun]
    cases h : teamStep numRanks w a with
    | none => rw [h] at hs; rw [← hs]; rfl
    | some w' =>
      rw [h, Option.map_some'] at hs
      rw [← hs, Option.some_bind, Option.some_bind, ih (hw.step h)]

/-- **The bitmask protocol implements the slot allocator.** From the initialisation of every
rank, any sequence of collective `create_new_team` calls and local `team_destroy` calls is
enabled exactly when the allocator's is, and leaves every rank with the live teams the allocator
gives: each new team in the least slot of `[1, max_num_teams)` free at all its members. -/
theorem team_slots_refine_allocator (maxNumTeams numRanks : ℕ) (as : List TeamAction) :
    (teamRun numRanks (fun _ => TeamState.init maxNumTeams) as).map (fun w r => (w r).teams) =
      slotRun maxNumTeams numRanks (fun _ => [0]) as :=
  teamRun_refines TeamReachable.init as

end RocShmem
