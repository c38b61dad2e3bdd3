import RocShmem.Basic
import Mathlib.Data.Int.Bitwise

/-!
# The communicator cache

`MPITransport::createComm(start, logPstride, size)` resolves the communicator of an active set
for `reduction` and `broadcast`. It looks the shape up in `comm_map`; on a miss it duplicates
`ro_net_comm_world` when the shape is the whole world, and otherwise builds the rank list
`start, start + stride, …` with `int stride = 2^(logPstride)`, includes it in a group and
creates a communicator from the group; the result is inserted before it is returned.

`comm_map` is a list of entries: `find` is `List.lookup`, and the only insertion happens on a
miss, so appending the entry is `std::map::insert`.

* `createComm`, and `createComms` for a sequence of calls;
* `createComms_cached`: a call on a shape the cache holds returns its entry and leaves the
  cache as it was, so a shape resolves to the handle of its first call; each new shape creates
  exactly one communicator, and entries are never removed or overwritten;
* `createComm_stride_xor`: `2^(logPstride)` is an exclusive or, so `logPstride = 0` gives
  stride 2 and never the contiguous range.
-/

namespace RocShmem

/-- `CommKey(start, logPstride, size)`. -/
structure CommKey where
  start : ℤ
  logPstride : ℤ
  size : ℤ
  deriving DecidableEq, Repr

/-- `comm_map`, with what `createComm` needs of MPI: the size of `ro_net_comm_world` and the
next fresh communicator handle. -/
structure CommCache where
  worldSize : ℕ
  map : List (CommKey × Comm)
  nextComm : ℕ
  deriving DecidableEq, Repr

/-- `int stride = 2^(logPstride);`: in C++ `^` is the bitwise exclusive or. -/
def strideOf (logPstride : ℤ) : ℤ := Int.xor 2 logPstride

/-- `group_ranks[0] = start; group_ranks[i] = group_ranks[i-1] + stride;` for `i < size`. -/
def groupRanks (start stride : ℤ) (size : ℕ) : List ℤ := List.iterate (· + stride) start size

/-- `MPI_Group_incl` accepts a rank list of distinct ranks of the world group. -/
def validGroup (worldSize : ℕ) (ranks : List ℤ) : Bool :=
  ranks.Nodup ∧ ∀ r ∈ ranks, 0 ≤ r ∧ r < worldSize

/-- A new communicator over `ranks` under a fresh handle, inserted for `k`. -/
def CommCache.create (c : CommCache) (k : CommKey) (ranks : List ℤ) : Comm × CommCache :=
  (⟨c.nextComm, ranks⟩, { c with map := c.map ++ [(k, ⟨c.nextComm, ranks⟩)], nextComm := c.nextComm + 1 })

/-- The members of the communicator `createComm` makes on a miss: `MPI_Comm_dup` of the world
for the whole-world shape, otherwise the rank list given to `MPI_Group_incl`. A size below one
writes `group_ranks[0]` past the end of the variable-length array `group_ranks[size]`. -/
def commRanks (worldSize : ℕ) (k : CommKey) : Except Fault (List ℤ) :=
  if k.start = 0 ∧ k.logPstride = 0 ∧ k.size = worldSize then
    .ok ((List.range worldSize).map Int.ofNat)
  else if k.size < 1 then .error .undefined
  else
    let ranks := groupRanks k.start (strideOf k.logPstride) k.size.toNat
    if validGroup worldSize ranks then .ok ranks else .error .mpiError

/-- `MPITransport::createComm`. -/
def createComm (c : CommCache) (k : CommKey) : Except Fault (Comm × CommCache) :=
  match c.map.lookup k with
  | some comm => .ok (comm, c)
  | none => (commRanks c.worldSize k).map (c.create k)

/-- The communicators a sequence of `createComm` calls returns, up to the first call that ends
the process, and the cache after the last call made. -/
def createComms (c : CommCache) : List CommKey → List Comm × CommCache
  | [] => ([], c)
  | k :: ks =>
    match createComm c k with
    | .ok (comm, c') => ((comm :: (createComms c' ks).1), (createComms c' ks).2)
    | .error _ => ([], c)

/-! ### One call -/

/-- Everything a successful `createComm` does: the key resolves to the result afterwards, and
the cache either stays as it was (a hit) or gains exactly the entry of the key (a miss). -/
theorem createComm_spec {c c' : CommCache} {k : CommKey} {comm : Comm}
    (h : createComm c k = .ok (comm, c')) :
    c'.map.lookup k = some comm ∧ c'.worldSize = c.worldSize ∧
      ((c.map.lookup k = some comm ∧ c' = c) ∨
        (c.map.lookup k = none ∧ c'.map = c.map ++ [(k, comm)] ∧
          c'.nextComm = c.nextComm + 1)) := by
  unfold createComm at h
  cases hk : c.map.lookup k with
  | some comm' =>
    simp only [hk, Except.ok.injEq, Prod.mk.injEq] at h
    obtain ⟨rfl, rfl⟩ := h
    exact ⟨hk, rfl, .inl ⟨rfl, rfl⟩⟩
  | none =>
    cases hr : commRanks c.worldSize k with
    | error e => simp [hk, hr, Except.map] at h
    | ok ranks =>
      simp only [hk, hr, Except.map, CommCache.create, Except.ok.injEq, Prod.mk.injEq] at h
      obtain ⟨rfl, rfl⟩ := h
      simp [List.lookup_append, hk]

/-- A shape already in the cache never faults and returns its entry. -/
theorem createComm_of_lookup {c : CommCache} {k : CommKey} {comm : Comm}
    (h : c.map.lookup k = some comm) : createComm c k = .ok (comm, c) := by
  simp [createComm, h]

/-! ### Sequences of calls -/

/-- The cache after a sequence of calls extends the one before by the entries of the new
shapes, each once, and the handle counter moves by their number. -/
theorem createComms_growth (c : CommCache) (ks : List CommKey) :
    ∃ new, (createComms c ks).2.map = c.map ++ new ∧ (new.map Prod.fst).Nodup ∧
      (∀ k, k ∈ new.map Prod.fst ↔
        k ∈ ks.take (createComms c ks).1.length ∧ c.map.lookup k = none) ∧
      (createComms c ks).2.nextComm = c.nextComm + new.length := by
  induction ks generalizing c with
  | nil => exact ⟨[], (List.append_nil _).symm, List.nodup_nil,
    fun _ => iff_of_false (List.not_mem_nil _) fun h => List.not_mem_nil _ h.1, rfl⟩
  | cons k ks ih =>
    cases hk : createComm c k with
    | error e => exact ⟨[], by simp [createComms, hk]⟩
    | ok r =>
      obtain ⟨comm, c₁⟩ := r
      obtain ⟨new', hmap, hnd, hmem, hnext⟩ := ih c₁
      obtain ⟨hlk, -, hcases⟩ := createComm_spec hk
      simp only [createComms, hk, List.length_cons, List.take_succ_cons, List.mem_cons]
      rcases hcases with ⟨hhit, rfl⟩ | ⟨hmiss, hmap₁, hnext₁⟩
      · refine ⟨new', hmap, hnd, fun k' => ?_, hnext⟩
        rw [hmem]
        constructor
        · exact fun ⟨h1, h2⟩ => ⟨.inr h1, h2⟩
        · rintro ⟨rfl | h1, h2⟩
          · simp [hhit] at h2
          · exact ⟨h1, h2⟩
      · have hk' : k ∉ new'.map Prod.fst := fun hin => by simp [(hmem k).1 hin |>.2] at hlk
        refine ⟨(k, comm) :: new', by simp [hmap, hmap₁], ?_, fun k' => ?_,
          by simp [hnext, hnext₁]; omega⟩
        · exact List.nodup_cons.2 ⟨hk', hnd⟩
        · rw [List.map_cons, List.mem_cons, hmem, hmap₁, List.lookup_append]
          by_cases e : k' = k
          · subst e; simp [hmiss]
          · rw [List.lookup_cons, beq_eq_false_iff_ne.2 e]
            simp only [e, List.lookup_nil, Option.or_none, false_or]

theorem createComms_length_le (c : CommCache) (ks : List CommKey) :
    (createComms c ks).1.length ≤ ks.length := by
  induction ks generalizing c with
  | nil => simp [createComms]
  | cons k ks ih =>
    unfold createComms
    split
    · simpa using ih _
    · simp

/-- Every key of a call made resolves, in the final cache, to what that call returned. -/
theorem createComms_lookup (c : CommCache) (ks : List CommKey) {j : ℕ} {k : CommKey} {comm : Comm}
    (hk : ks[j]? = some k) (hc : (createComms c ks).1[j]? = some comm) :
    (createComms c ks).2.map.lookup k = some comm := by
  induction ks generalizing c j with
  | nil => simp [createComms] at hc
  | cons k₀ ks ih =>
    cases h₀ : createComm c k₀ with
    | error e => simp [createComms, h₀] at hc
    | ok r =>
      obtain ⟨comm₀, c₁⟩ := r
      simp only [createComms, h₀] at hc ⊢
      cases j with
      | zero =>
        simp only [List.getElem?_cons_zero, Option.some.injEq] at hk hc
        subst hk hc
        obtain ⟨new, hmap, -⟩ := createComms_growth c₁ ks
        rw [hmap, List.lookup_append, (createComm_spec h₀).1]
        rfl
      | succ j => exact ih c₁ (by simpa using hk) (by simpa using hc)

/-- The calls of a sequence that comes after calls that all returned. -/
theorem createComms_append (c : CommCache) (ks₁ ks₂ : List CommKey)
    (h : (createComms c ks₁).1.length = ks₁.length) :
    createComms c (ks₁ ++ ks₂) = ((createComms c ks₁).1 ++ (createComms (createComms c ks₁).2 ks₂).1,
      (createComms (createComms c ks₁).2 ks₂).2) := by
  induction ks₁ generalizing c with
  | nil => rfl
  | cons k ks₁ ih =>
    cases hk : createComm c k with
    | error e => simp [createComms, hk] at h
    | ok r =>
      simp only [createComms, hk, List.length_cons, Nat.add_right_cancel_iff] at h
      rw [List.cons_append]
      simp only [createComms, hk]
      rw [ih r.2 h]
      rfl

/-- The calls of a prefix return what the same calls return in the whole sequence. -/
theorem createComms_take (c : CommCache) (ks : List CommKey) (i : ℕ) :
    (createComms c (ks.take i)).1 = (createComms c ks).1.take i := by
  induction ks generalizing c i with
  | nil => simp [createComms]
  | cons k ks ih =>
    cases i with
    | zero => simp [createComms]
    | succ i =>
      cases hk : createComm c k with
      | error e => simp [createComms, hk]
      | ok r => simp [createComms, hk, ih]

/-- A call on a shape the cache holds, after calls that all returned, returns the shape's entry
and leaves the cache as it was. -/
theorem createComms_hit (c : CommCache) (ks : List CommKey) {i : ℕ} {k : CommKey} {comm : Comm}
    (hk : ks[i]? = some k) (hi : i ≤ (createComms c ks).1.length)
    (hc : (createComms c (ks.take i)).2.map.lookup k = some comm) :
    (createComms c ks).1[i]? = some comm ∧
      (createComms c (ks.take (i + 1))).2 = (createComms c (ks.take i)).2 := by
  have hle : i ≤ ks.length := hi.trans (createComms_length_le c ks)
  have hlen : (createComms c (ks.take i)).1.length = i := by
    rw [createComms_take, List.length_take, min_eq_left hi]
  have hlen' := hlen.trans (List.length_take_of_le hle).symm
  have hdrop : ks.drop i = k :: ks.drop (i + 1) := by
    rw [List.drop_eq_getElem_cons (List.getElem?_eq_some_iff.1 hk).1,
      (List.getElem?_eq_some_iff.1 hk).2]
  have htake : ks.take (i + 1) = ks.take i ++ [k] := by
    rw [List.take_succ, hk]
    rfl
  constructor
  · rw [← List.take_append_drop i ks, createComms_append _ _ _ hlen', hdrop, createComms,
      createComm_of_lookup hc]
    rw [List.getElem?_append_right hlen.le, hlen, Nat.sub_self]
    simp
  · rw [htake, createComms_append _ _ _ hlen', createComms, createComm_of_lookup hc]
    rfl

/-- `2^(logPstride)` is never the power of two it reads as: for `logPstride ≥ 2` both operands
of the exclusive or are below `2^logPstride`, and so is the result. -/
theorem strideOf_ne_two_pow : ∀ n : ℕ, strideOf n ≠ 2 ^ n
  | 0 => by decide
  | 1 => by decide
  | n + 2 => by
    have h2 : 2 < 2 ^ (n + 2) :=
      calc 2 < 2 ^ 2 := by decide
        _ ≤ 2 ^ (n + 2) := Nat.pow_le_pow_right (by decide) (by omega)
    have hx : 2 ^^^ (n + 2) < 2 ^ (n + 2) := Nat.xor_lt_two_pow h2 (Nat.lt_two_pow _)
    show ((2 ^^^ (n + 2) : ℕ) : ℤ) ≠ 2 ^ (n + 2)
    exact_mod_cast hx.ne

/-- On a world of three ranks the active set `(0, 0, 2)` is ranks 0 and 1, but a miss builds the
communicator of ranks 0 and 2. -/
theorem createComm_stride_xor :
    createComm ⟨3, [], 0⟩ ⟨0, 0, 2⟩ = .ok (⟨0, [0, 2]⟩, ⟨3, [(⟨0, 0, 2⟩, ⟨0, [0, 2]⟩)], 1⟩) :=
  rfl

end RocShmem
