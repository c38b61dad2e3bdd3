import RocShmem.Basic
import Mathlib.Data.List.GetD

/-!
# The team pool bitmask

`GPUIBBackend` hands out the slots of its pools of team work arrays through a bitmask: bit `i`
of the byte array `pool_bitmask_` (bit `i % CHAR_BIT` of byte `i / CHAR_BIT`) is set while slot
`i` is free. `teams_init` sizes and fills it, `get_ls_non_zero_bit` finds the least set bit, and
`create_new_team` and `team_destroy` clear and set single bits.

Bytes are `char`, here `BitVec 8`. In `bitmask[byte_i] & (1 << k)` and in the compound
assignments the byte is promoted to a 32-bit `int` by sign extension and the result converted
back to `char`. A read or a write past the end of the array is undefined (`none`).

* `bitmaskSize`, `teamsInit`, `getLsNonZeroBit`, `clearBit`, `setBit`, `reduceBand`;
* `testBit`, the logical bit `i`, and what each operation does to it;
* `teamsInit_spec`: the loop of `teams_init` writes inside the array;
* `getLsNonZeroBit_spec`: the least set bit below the mask length, or `-1`.
-/

namespace RocShmem

/-- `CHAR_BIT`. -/
def charBit : ℕ := 8

/-- `bitmask_size_`: `max_num_teams / CHAR_BIT`, plus one byte for a partial last byte. -/
def bitmaskSize (maxNumTeams : ℕ) : ℕ :=
  if maxNumTeams % charBit ≠ 0 then maxNumTeams / charBit + 1 else maxNumTeams / charBit

theorem div_lt_bitmaskSize {maxNumTeams i : ℕ} (h : i < maxNumTeams) :
    i / charBit < bitmaskSize maxNumTeams := by
  unfold bitmaskSize charBit
  split <;> omega

theorem le_charBit_mul_bitmaskSize (maxNumTeams : ℕ) :
    maxNumTeams ≤ charBit * bitmaskSize maxNumTeams := by
  unfold bitmaskSize charBit
  split <;> omega

/-! ### One byte -/

/-- `(b & (1 << k)) != 0` for a `char` `b`. -/
def byteHasBit (b : BitVec 8) (k : ℕ) : Bool := (b.signExtend 32 &&& 1#32 <<< k) != 0#32

/-- `b |= 1 << k` for a `char` `b`. -/
def byteSetBit (b : BitVec 8) (k : ℕ) : BitVec 8 := (b.signExtend 32 ||| 1#32 <<< k).setWidth 8

/-- `b &= ~(1 << k)` for a `char` `b`. -/
def byteClearBit (b : BitVec 8) (k : ℕ) : BitVec 8 :=
  (b.signExtend 32 &&& ~~~(1#32 <<< k)).setWidth 8

theorem byteHasBit_eq (b : BitVec 8) {k : ℕ} (hk : k < 8) : byteHasBit b k = b.getLsbD k := by
  have h := BitVec.and_twoPow (b.signExtend 32) k
  unfold BitVec.twoPow at h
  unfold byteHasBit
  rw [h, BitVec.getLsbD_signExtend]
  simp only [show k < 32 by omega, hk, decide_True, Bool.true_and, if_true]
  cases b.getLsbD k
  · simp
  · have hne : (1#32 <<< k).getLsbD k = true := by simp; omega
    simp only [if_true, bne_iff_ne, ne_eq]
    intro h0
    simp [h0] at hne

theorem getLsbD_byteSetBit (b : BitVec 8) (k : ℕ) {j : ℕ} (hj : j < 8) :
    (byteSetBit b k).getLsbD j = (b.getLsbD j || decide (j = k)) := by
  simp [byteSetBit, BitVec.getLsbD_signExtend, hj, show j < 32 by omega]
  by_cases h1 : j < k <;> by_cases h2 : j = k <;> simp [h1, h2]; omega

theorem getLsbD_byteClearBit (b : BitVec 8) (k : ℕ) {j : ℕ} (hj : j < 8) :
    (byteClearBit b k).getLsbD j = (b.getLsbD j && !decide (j = k)) := by
  simp [byteClearBit, BitVec.getLsbD_signExtend, hj, show j < 32 by omega]
  by_cases h1 : j < k <;> by_cases h2 : j = k <;> simp [h1, h2]; omega

/-! ### The array -/

/-- Bit `i` of a bitmask: bit `i % CHAR_BIT` of byte `i / CHAR_BIT`, clear past the end. -/
def testBit (bm : List (BitVec 8)) (i : ℕ) : Bool := (bm.getD (i / charBit) 0).getLsbD (i % charBit)

/-- `bitmask[i / CHAR_BIT] op= ...` for a byte operation `f` at bit `i % CHAR_BIT`; a write past
the end of the array is undefined (`none`). -/
def updateBit (f : BitVec 8 → ℕ → BitVec 8) (bm : List (BitVec 8)) (i : ℕ) :
    Option (List (BitVec 8)) :=
  if i / charBit < bm.length then some (bm.modify (f · (i % charBit)) (i / charBit)) else none

/-- `bitmask[i / CHAR_BIT] |= 1 << (i % CHAR_BIT)`. -/
def setBit (bm : List (BitVec 8)) (i : ℕ) : Option (List (BitVec 8)) := updateBit byteSetBit bm i

/-- `bitmask[i / CHAR_BIT] &= ~(1 << (i % CHAR_BIT))`. -/
def clearBit (bm : List (BitVec 8)) (i : ℕ) : Option (List (BitVec 8)) :=
  updateBit byteClearBit bm i

theorem isSome_updateBit {f : BitVec 8 → ℕ → BitVec 8} {bm : List (BitVec 8)} {c : ℕ} :
    (updateBit f bm c).isSome ↔ c / charBit < bm.length := by
  unfold updateBit
  split_ifs with h <;> simp [h]

/-- A defined write changes the bits of its byte only. -/
theorem updateBit_spec {f : BitVec 8 → ℕ → BitVec 8} {bm bm' : List (BitVec 8)} {c : ℕ}
    (h : updateBit f bm c = some bm') :
    c / charBit < bm.length ∧ bm'.length = bm.length ∧
      ∀ i, testBit bm' i = if i / charBit = c / charBit then
        (f (bm.getD (c / charBit) 0) (c % charBit)).getLsbD (i % charBit) else testBit bm i := by
  unfold updateBit at h
  split_ifs at h with hc
  cases h
  refine ⟨hc, List.length_modify _ _ _, fun i => ?_⟩
  unfold testBit
  rw [List.getD_eq_getElem?_getD, List.getElem?_modify]
  by_cases hi : i / charBit = c / charBit
  · simp [hi, List.getElem?_eq_getElem hc, List.getD_eq_getElem _ _ hc]
  · simp [hi, Ne.symm hi]

theorem setBit_spec {bm bm' : List (BitVec 8)} {c : ℕ} (h : setBit bm c = some bm') :
    c / charBit < bm.length ∧ bm'.length = bm.length ∧
      ∀ i, testBit bm' i = (testBit bm i || decide (i = c)) := by
  obtain ⟨hc, hl, ht⟩ := updateBit_spec h
  refine ⟨hc, hl, fun i => ?_⟩
  rw [ht]
  split_ifs with h
  · unfold testBit charBit at *
    rw [getLsbD_byteSetBit _ _ (Nat.mod_lt i (by decide)), ← h]
    congr 1
    by_cases hic : i = c <;> simp [hic]; omega
  · have : i ≠ c := fun e => h (e ▸ rfl)
    simp [this]

theorem clearBit_spec {bm bm' : List (BitVec 8)} {c : ℕ} (h : clearBit bm c = some bm') :
    c / charBit < bm.length ∧ bm'.length = bm.length ∧
      ∀ i, testBit bm' i = (testBit bm i && !decide (i = c)) := by
  obtain ⟨hc, hl, ht⟩ := updateBit_spec h
  refine ⟨hc, hl, fun i => ?_⟩
  rw [ht]
  split_ifs with h
  · unfold testBit charBit at *
    rw [getLsbD_byteClearBit _ _ (Nat.mod_lt i (by decide)), ← h]
    congr 2
    by_cases hic : i = c <;> simp [hic]; omega
  · have : i ≠ c := fun e => h (e ▸ rfl)
    simp [this]

theorem testBit_of_le_length {bm : List (BitVec 8)} {i : ℕ} (h : charBit * bm.length ≤ i) :
    testBit bm i = false := by
  unfold testBit charBit at *
  rw [List.getD_eq_getElem?_getD, List.getElem?_eq_none (by omega)]
  simp

/-- A least set bit is unique. -/
theorem eq_of_least_testBit {bm : List (BitVec 8)} {i k : ℕ} (hi : testBit bm i = true)
    (hbelow_i : ∀ j < i, testBit bm j = false) (hk : testBit bm k = true)
    (hbelow_k : ∀ j < k, testBit bm j = false) : i = k := by
  rcases Nat.lt_trichotomy i k with h | h | h
  · rw [hbelow_k i h] at hi; cases hi
  · exact h
  · rw [hbelow_i k h] at hk; cases hk

/-! ### `teams_init` -/

/-- The bitmask of `teams_init`: `bitmask_size_` zero bytes, then the bits of slots
`1 … max_num_teams - 1`; slot 0 is `TEAM_WORLD`'s. -/
def teamsInit (maxNumTeams : ℕ) : Option (List (BitVec 8)) :=
  (List.range' 1 (maxNumTeams - 1)).foldlM setBit (List.replicate (bitmaskSize maxNumTeams) 0)

/-- Setting the bits of a list of slots whose bytes are inside the array. -/
theorem foldlM_setBit {l : List ℕ} {bm : List (BitVec 8)}
    (hl : ∀ c ∈ l, c / charBit < bm.length) :
    ∃ bm', l.foldlM setBit bm = some bm' ∧ bm'.length = bm.length ∧
      ∀ i, testBit bm' i = (testBit bm i || decide (i ∈ l)) := by
  induction l generalizing bm with
  | nil => exact ⟨bm, rfl, rfl, by simp⟩
  | cons c l ih =>
    obtain ⟨bm₁, h₁⟩ := Option.isSome_iff_exists.1 (isSome_updateBit.2 (hl c (.head _)))
    obtain ⟨-, hl₁, ht₁⟩ := setBit_spec h₁
    obtain ⟨bm', h', hl', ht'⟩ := ih fun c' hc' => hl₁ ▸ hl c' (.tail _ hc')
    refine ⟨bm', by rw [List.foldlM_cons]; exact (congrArg (· >>= _) h₁).trans h', hl'.trans hl₁,
      fun i => ?_⟩
    rw [ht', ht₁]
    simp only [List.mem_cons, Bool.or_assoc, Bool.decide_or]

/-- **`teams_init` writes inside the array.** It is defined, keeps `bitmask_size_` bytes, and
sets exactly the bits of slots `1 … max_num_teams - 1`. -/
theorem teamsInit_spec (maxNumTeams : ℕ) :
    ∃ bm, teamsInit maxNumTeams = some bm ∧ bm.length = bitmaskSize maxNumTeams ∧
      ∀ i, testBit bm i = decide (1 ≤ i ∧ i < maxNumTeams) := by
  obtain ⟨bm, h, hl, ht⟩ := @foldlM_setBit (List.range' 1 (maxNumTeams - 1))
    (List.replicate (bitmaskSize maxNumTeams) 0) fun c hc => by
      rw [List.length_replicate]
      exact div_lt_bitmaskSize (by rw [List.mem_range'_1] at hc; omega)
  have h0 : ∀ i, testBit (List.replicate (bitmaskSize maxNumTeams) 0) i = false := fun i => by
    simp [testBit, List.getD_eq_getElem?_getD, List.getElem?_replicate]
    split <;> simp
  refine ⟨bm, h, hl.trans (List.length_replicate _ _), fun i => ?_⟩
  rw [ht, h0, Bool.false_or, decide_eq_decide, List.mem_range'_1]
  omega

theorem isSome_teamsInit (maxNumTeams : ℕ) : (teamsInit maxNumTeams).isSome := by
  obtain ⟨bm, h, -⟩ := teamsInit_spec maxNumTeams
  rw [h]
  rfl

/-! ### `get_ls_non_zero_bit` -/

/-- The loop of `get_ls_non_zero_bit` from `bit_i = start`, for `n` more bits. -/
def lsNonZeroFrom (bm : List (BitVec 8)) : ℕ → ℕ → Option ℤ
  | _, 0 => some (-1)
  | bitI, n + 1 =>
    match bm[bitI / charBit]? with
    | none => none
    | some b => if byteHasBit b (bitI % charBit) then some bitI else lsNonZeroFrom bm (bitI + 1) n

/-- `get_ls_non_zero_bit(bitmask, mask_length)`: the first `bit_i < mask_length` whose bit is
set, or `-1`; `none` when it reads past the end of `bitmask`. -/
def getLsNonZeroBit (bm : List (BitVec 8)) (maskLength : ℤ) : Option ℤ :=
  lsNonZeroFrom bm 0 maskLength.toNat

theorem lsNonZeroFrom_spec (bm : List (BitVec 8)) (n : ℕ) :
    ∀ a, a + n ≤ charBit * bm.length →
      (lsNonZeroFrom bm a n = some (-1) ∧ ∀ i, a ≤ i → i < a + n → testBit bm i = false) ∨
      ∃ i : ℕ, lsNonZeroFrom bm a n = some (i : ℤ) ∧ a ≤ i ∧ i < a + n ∧ testBit bm i = true ∧
        ∀ j, a ≤ j → j < i → testBit bm j = false := by
  induction n with
  | zero => exact fun a _ => .inl ⟨rfl, fun i h1 h2 => by omega⟩
  | succ n ih =>
    intro a ha
    have hlt : a / charBit < bm.length := by unfold charBit at *; omega
    have hget : bm[a / charBit]? = some (bm.getD (a / charBit) 0) := by
      rw [List.getD_eq_getElem _ _ hlt, List.getElem?_eq_getElem hlt]
    have hbit : byteHasBit (bm.getD (a / charBit) 0) (a % charBit) = testBit bm a :=
      byteHasBit_eq _ (Nat.mod_lt _ (by decide))
    simp only [lsNonZeroFrom, hget, hbit]
    cases ht : testBit bm a
    · rcases ih (a + 1) (by omega) with ⟨h1, h2⟩ | ⟨i, h1, h2, h3, h4, h5⟩
      · refine .inl ⟨h1, fun i hi1 hi2 => ?_⟩
        rcases Nat.eq_or_lt_of_le hi1 with rfl | hi1
        · exact ht
        · exact h2 i hi1 (by omega)
      · refine .inr ⟨i, h1, by omega, by omega, h4, fun j hj1 hj2 => ?_⟩
        rcases Nat.eq_or_lt_of_le hj1 with rfl | hj1
        · exact ht
        · exact h5 j hj1 hj2
    · exact .inr ⟨a, rfl, le_rfl, by omega, ht, fun j hj1 hj2 => by omega⟩

/-- **`get_ls_non_zero_bit` finds the least set bit.** When the mask fits in the array it
returns `-1` if no bit below `mask_length` is set, and otherwise the least set one. -/
theorem getLsNonZeroBit_spec (bm : List (BitVec 8)) (n : ℕ) (h : n ≤ charBit * bm.length) :
    (getLsNonZeroBit bm n = some (-1) ∧ ∀ i < n, testBit bm i = false) ∨
    ∃ i : ℕ, getLsNonZeroBit bm n = some (i : ℤ) ∧ i < n ∧ testBit bm i = true ∧
      ∀ j < i, testBit bm j = false := by
  rcases lsNonZeroFrom_spec bm n 0 (by omega) with ⟨h1, h2⟩ | ⟨i, h1, -, h3, h4, h5⟩
  · exact .inl ⟨h1, fun i hi => h2 i (Nat.zero_le _) (by omega)⟩
  · exact .inr ⟨i, h1, by omega, h4, fun j hj => h5 j (Nat.zero_le _) hj⟩

/-- **`get_ls_non_zero_bit` returns the least set bit.** For every `mask_length ≥ 0` and every
array of at least `⌈mask_length / 8⌉` bytes, it returns `-1` exactly when no bit below
`mask_length` is set, and otherwise the least set one. -/
theorem getLsNonZeroBit_least (bm : List (BitVec 8)) (maskLength : ℤ) (h0 : 0 ≤ maskLength)
    (hlen : (maskLength + 7) / 8 ≤ bm.length) :
    (getLsNonZeroBit bm maskLength = some (-1) ↔
      ∀ i : ℕ, (i : ℤ) < maskLength → testBit bm i = false) ∧
    ∀ i : ℕ, (i : ℤ) < maskLength → testBit bm i = true → (∀ j < i, testBit bm j = false) →
      getLsNonZeroBit bm maskLength = some (i : ℤ) := by
  obtain ⟨n, rfl⟩ : ∃ n : ℕ, maskLength = n := ⟨maskLength.toNat, (Int.toNat_of_nonneg h0).symm⟩
  have hn : n ≤ charBit * bm.length := by unfold charBit; omega
  rcases getLsNonZeroBit_spec bm n hn with ⟨h1, h2⟩ | ⟨k, h1, h2, h3, h4⟩
  · refine ⟨iff_of_true h1 fun i hi => h2 i (by exact_mod_cast hi), fun i hi hs _ => ?_⟩
    exact absurd (h2 i (by exact_mod_cast hi)) (by rw [hs]; decide)
  · refine ⟨iff_of_false (fun h => by rw [h1, Option.some.injEq] at h; omega)
      fun h => absurd (h k (by exact_mod_cast h2)) (by rw [h3]; decide), fun i hi hs hl => ?_⟩
    rw [h1, eq_of_least_testBit hs hl h3 h4]

theorem getLsNonZeroBit_least_signedByte :
    (getLsNonZeroBit [0#8, 0x80#8] 16 = some (-1) ↔
      ∀ i : ℕ, (i : ℤ) < 16 → testBit [0#8, 0x80#8] i = false) ∧
    ∀ i : ℕ, (i : ℤ) < 16 → testBit [0#8, 0x80#8] i = true →
      (∀ j < i, testBit [0#8, 0x80#8] j = false) →
      getLsNonZeroBit [0#8, 0x80#8] 16 = some (i : ℤ) :=
  getLsNonZeroBit_least [0#8, 0x80#8] 16 (by decide) (by decide)

-- A byte whose bit 7 is set is a negative `char`; its sign extension keeps bit 7 set.
example : getLsNonZeroBit [0#8, 0x80#8] 16 = some 15 ∧
    getLsNonZeroBit [0#8, 0x80#8] 15 = some (-1) := by
  decide

/-! ### `MPI_Allreduce` with `MPI_BAND` -/

/-- `MPI_Allreduce` of `count` `MPI_CHAR`s with `MPI_BAND`: byte `j` of the result is the AND of
byte `j` of every member's buffer. -/
def reduceBand (bms : List (List (BitVec 8))) (count : ℕ) : List (BitVec 8) :=
  (List.range count).map fun j => bms.foldr (fun bm acc => bm.getD j 0 &&& acc) (BitVec.allOnes 8)

@[simp] theorem length_reduceBand (bms : List (List (BitVec 8))) (count : ℕ) :
    (reduceBand bms count).length = count := by
  simp [reduceBand]

/-- A bit of the reduced mask is set exactly when it is set in every member's mask. -/
theorem testBit_reduceBand (bms : List (List (BitVec 8))) {count i : ℕ} (hi : i < charBit * count) :
    testBit (reduceBand bms count) i = bms.all (testBit · i) := by
  have hj : i / charBit < count := by unfold charBit at *; omega
  unfold testBit reduceBand
  rw [List.getD_eq_getElem?_getD, List.getElem?_map, List.getElem?_range hj]
  simp only [Option.map_some', Option.getD_some]
  induction bms with
  | nil =>
    simp only [List.foldr_nil, BitVec.getLsbD_allOnes, List.all_nil, decide_eq_true_eq]
    exact Nat.mod_lt _ (by decide)
  | cons bm bms ih => rw [List.foldr_cons, BitVec.getLsbD_and, ih, List.all_cons]

end RocShmem
