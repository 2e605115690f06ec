import Mathlib.Tactic.IntervalCases
import MkPool.EquihashRows
import MkPool.Lib.PairTree

/-! # The verifier is the predicate

The rounds of the verifier check, level by level, what the definition of a
solution asks of a tree. -/
namespace MkPool.EquihashVerifier
open MkPool.Lib MkPool.Lib.Digits MkPool.Lib.PairTree MkPool.Utils MkPool.Equihash

/-- Equihash with nine rounds over 200 bits. In the tree over the indices, the
halves of a node of height `r` collide in the chunk `r` of twenty bits, and the
first index of the left half is below that of the right half. -/
structure IsSolution (H : Nat → Nat) (is : List Nat) : Prop where
  distinct : is.Nodup
  ordered : Tree (fun _ as bs => as.headD 0 < bs.headD 0) 9 is
  collides : Tree (fun r as bs => chunk r (xorAll H as) = chunk r (xorAll H bs)) 9 is
  zero : xorAll H is = 0

section Solution

variable {H : Nat → Nat}

/-- After the rounds, the chunks that collided are zero. -/
theorem chunk_of_collides {n c : Nat} {is : List Nat} (hc : c < n)
    (h : Tree (fun r as bs => chunk r (xorAll H as) = chunk r (xorAll H bs)) n is) :
    chunk c (xorAll H is) = 0 := by
  induction n generalizing is with
  | zero => exact absurd hc (Nat.not_lt_zero c)
  | succ n ih =>
    obtain ⟨hleft, hright, hnode⟩ := h
    rw [← List.take_append_drop (2 ^ n) is, xorAll_append, chunk_xor]
    by_cases hlast : c = n
    · rw [hlast, hnode, Nat.xor_self]
    · rw [ih (by omega) hleft, ih (by omega) hright]
      rfl

theorem xorAll_lt (hH : ∀ i, H i < 2 ^ 200) (is : List Nat) : xorAll H is < 2 ^ 200 := by
  induction is with
  | nil => exact Nat.two_pow_pos 200
  | cons i is ih => exact Nat.xor_lt_two_pow (hH i) ih

/-- Ten chunks are all the bits. -/
theorem eq_zero_of_chunks {x : Nat} (hx : x < 2 ^ 200) (h : ∀ c < 10, chunk c x = 0) : x = 0 := by
  have hdigits : digits (2 ^ 20) 10 x = digits (2 ^ 20) 10 0 := by
    rw [digits_eq_map, digits_eq_map]
    refine List.map_congr_left fun c hc => ?_
    have hlt : c < 10 := by simpa using hc
    have hzero : x / (2 ^ 20) ^ (10 - 1 - c) % 2 ^ 20 = 0 := h c hlt
    rw [hzero, Nat.zero_div, Nat.zero_mod]
  have hvalue := congrArg (value (2 ^ 20)) hdigits
  rw [value_digits, value_digits, Nat.zero_mod, ← pow_mul] at hvalue
  rwa [Nat.mod_eq_of_lt hx] at hvalue

/-- What the rounds and the last look at the row come to. -/
theorem isSolution_iff (hH : ∀ i, H i < 2 ^ 200) {is : List Nat} (hlen : is.length = 512) :
    IsSolution H is ↔ Tree (Meets H) 9 is ∧ chunk 9 (xorAll H is) = 0 := by
  have hmeets : Tree (Meets H) 9 is ↔
      Tree (fun r as bs => chunk r (xorAll H as) = chunk r (xorAll H bs)) 9 is ∧
        Tree (fun _ as bs => as.headD 0 < bs.headD 0) 9 is ∧ is.Nodup := by
    rw [← tree_disjoint (n := 9) hlen, ← tree_and, ← tree_and]
    rfl
  rw [hmeets]
  constructor
  · rintro ⟨hdistinct, hordered, hcollides, hzero⟩
    refine ⟨⟨hcollides, hordered, hdistinct⟩, ?_⟩
    rw [hzero]
    rfl
  · rintro ⟨⟨hcollides, hordered, hdistinct⟩, hlast⟩
    refine ⟨hdistinct, hordered, hcollides, eq_zero_of_chunks (xorAll_lt hH is) fun c hc => ?_⟩
    by_cases hc9 : c = 9
    · rw [hc9, hlast]
    · exact chunk_of_collides (by omega) hcollides

end Solution

/-! ## The rounds -/

/-- The rows stand for blocks of indices. -/
def Stand (H : Nat → Nat) (r : Nat) (rows : List StepRow) (blocks : List (List Nat)) : Prop :=
  List.Forall₂ (fun row is => Buffer.Holds row (rowBytes H r is)) rows blocks

section Rounds

variable {H : Nat → Nat} {r m : Nat} {rows : List StepRow} {blocks : List (List Nat)}

/-- One round joins the neighbours, or it refuses. -/
theorem collideAll_rows (hr : r < 9) (h : Stand H r rows blocks) (heven : blocks.length = 2 * m)
    (hblocks : ∀ b ∈ blocks, b.length = 2 ^ r ∧ ∀ x ∈ b, x < 2 ^ 21) :
    (Joined (Meets H r) blocks → ∃ rows', collideAll (30 - 3 * r) (4 * 2 ^ r) rows =
      some (some rows') ∧ Stand H (r + 1) rows' (pairs blocks)) ∧
    (¬ Joined (Meets H r) blocks → collideAll (30 - 3 * r) (4 * 2 ^ r) rows = some none) := by
  induction m generalizing rows blocks with
  | zero =>
    rw [List.length_eq_zero_iff.mp heven] at h ⊢
    cases h
    exact ⟨fun _ => ⟨[], rfl, .nil⟩, fun hnot => absurd trivial hnot⟩
  | succ m ih =>
    obtain ⟨h0, _⟩ | ⟨as, bs, rest, m', rfl, hm, hrest⟩ := evenly_cases heven
    · omega
    obtain rfl : m = m' := by omega
    cases h with
    | cons ha h =>
      cases h with
      | cons hb h =>
        rename_i a b rows
        obtain ⟨hlenA, hsmallA⟩ := hblocks as (by simp)
        obtain ⟨hlenB, hsmallB⟩ := hblocks bs (by simp)
        have hne : as ≠ [] := by
          rintro rfl
          have hpos := Nat.two_pow_pos r
          rw [List.length_nil] at hlenA
          omega
        have hroom : 27 - 3 * r + 4 * (as.length + bs.length) ≤ 2054 := by
          rw [hlenA, hlenB]
          interval_cases r <;> omega
        have hpair := collide_rows (by omega) ha hb (hlenA.trans hlenB.symm) hne hroom hsmallA
          hsmallB
        rw [hlenA] at hpair
        have hnext := ih h hrest fun c hc => hblocks c (by simp [hc])
        unfold collideAll
        constructor
        · rintro ⟨hmeets, hjoined⟩
          obtain ⟨row, hrow, hholds⟩ := hpair.1 hmeets
          obtain ⟨rows', hrows, hstand⟩ := hnext.1 hjoined
          refine ⟨row :: rows', ?_, .cons hholds hstand⟩
          rw [hrow]
          dsimp only [Option.bind_eq_bind, Option.bind_some]
          rw [hrows]
          rfl
        · intro hnot
          by_cases hmeets : Meets H r as bs
          · obtain ⟨row, hrow, _⟩ := hpair.1 hmeets
            rw [hrow]
            dsimp only [Option.bind_eq_bind, Option.bind_some]
            rw [hnext.2 fun hjoined => hnot ⟨hmeets, hjoined⟩]
            rfl
          · rw [hpair.2 hmeets]
            rfl

/-- The last row is zero when its last chunk is. -/
theorem isZero_eq {row : StepRow} {is : List Nat} (h : row.Holds (rowBytes H 9 is)) :
    ∃ zero, row.isZero 3 = some zero ∧ (zero = true ↔ chunk 9 (xorAll H is) = 0) := by
  have hfront : row.Holds (be 3 (chunk 9 (xorAll H is))) := by
    rw [rowBytes, hashBytes_succ (by omega), List.append_assoc] at h
    exact h.left
  have hcount : 3 = (be 3 (chunk 9 (xorAll H is))).length := (length_be 3 _).symm
  have hread : row.isZero 3 = some ((be 3 (chunk 9 (xorAll H is))).all fun x => x == 0) := by
    unfold StepRow.isZero
    nth_rewrite 1 [hcount]
    refine Buffer.allM_records fun i x hi => ?_
    rw [Nat.zero_add, hfront.read hi]
    rfl
  refine ⟨_, hread, ?_⟩
  have hzeros : be 3 0 = [0, 0, 0] := rfl
  constructor
  · intro hall
    have hreplicate : be 3 (chunk 9 (xorAll H is)) = List.replicate 3 0 := by
      rw [List.eq_replicate_iff]
      exact ⟨length_be 3 _, fun x hx => by simpa using List.all_eq_true.mp hall x hx⟩
    exact (be_inj (chunk_lt _ _) (by norm_num)).mp (hreplicate.trans hzeros.symm)
  · intro hzero
    rw [hzero, hzeros]
    rfl

/-- **The loop over the rounds ends**, with what the rounds come to. -/
theorem solve_rows (fuel : Nat) (hr : r + m = 9) (hfuel : m < fuel) (h : Stand H r rows blocks)
    (hlen : blocks.length = 2 ^ m) (hblocks : ∀ b ∈ blocks, b.length = 2 ^ r ∧ ∀ x ∈ b, x < 2 ^ 21) :
    ∃ accepted, solve fuel rows (30 - 3 * r) (4 * 2 ^ r) = some accepted ∧
      (accepted = true ↔
        Rounds (Meets H) m r blocks ∧ chunk 9 (xorAll H blocks.flatten) = 0) := by
  have hsame : rows.length = blocks.length := List.Forall₂.length_eq h
  induction m generalizing r rows blocks fuel with
  | zero =>
    obtain ⟨fuel, rfl⟩ : ∃ f, fuel = f + 1 := ⟨fuel - 1, by omega⟩
    obtain rfl : r = 9 := by omega
    obtain ⟨is, rfl⟩ := List.length_eq_one_iff.mp hlen
    obtain ⟨row, rfl⟩ := List.length_eq_one_iff.mp (hsame.trans hlen)
    cases h with
    | cons hholds _ =>
      obtain ⟨zero, hzero, hiff⟩ := isZero_eq hholds
      refine ⟨zero, hzero, ?_⟩
      rw [hiff, List.flatten_singleton]
      exact (and_iff_right trivial).symm
  | succ m ih =>
    obtain ⟨fuel, rfl⟩ : ∃ f, fuel = f + 1 := ⟨fuel - 1, by omega⟩
    have heven : blocks.length = 2 * 2 ^ m := by rw [hlen, pow_succ']
    have hmany : 1 < rows.length := by
      have hpos := Nat.two_pow_pos m
      omega
    have hround := collideAll_rows (by omega) h heven hblocks
    unfold solve
    rw [if_pos hmany]
    by_cases hjoined : Joined (Meets H r) blocks
    · obtain ⟨rows', hrows, hstand⟩ := hround.1 hjoined
      have hnext : ∀ b ∈ pairs blocks, b.length = 2 ^ (r + 1) ∧ ∀ x ∈ b, x < 2 ^ 21 := by
        refine pairs_induct heven hjoined hblocks fun as bs has hbs _ => ⟨?_, fun x hx => ?_⟩
        · rw [List.length_append, has.1, hbs.1, pow_succ]
          omega
        · rcases List.mem_append.mp hx with hx | hx
          · exact has.2 x hx
          · exact hbs.2 x hx
      obtain ⟨accepted, hsolve, hiff⟩ := ih fuel (by omega) (by omega) hstand
        (length_pairs heven) hnext (List.Forall₂.length_eq hstand)
      have hhash : 30 - 3 * (r + 1) = 30 - 3 * r - 3 := by omega
      have hindices : 4 * 2 ^ (r + 1) = 4 * 2 ^ r * 2 := by rw [pow_succ, Nat.mul_assoc]
      rw [hhash, hindices] at hsolve
      rw [flatten_pairs heven] at hiff
      refine ⟨accepted, ?_, hiff.trans ?_⟩
      · rw [hrows]
        exact hsolve
      · rw [Rounds, and_iff_right hjoined]
    · refine ⟨false, ?_, ?_⟩
      · rw [hround.2 hjoined]
        rfl
      · exact iff_of_false (by decide) fun hrounds => hjoined hrounds.1.1

end Rounds

/-! ## The verifier -/

section Verifier

variable (blake : Blake2b50) (header : Bytes)

theorem hashOf_lt (idx : Nat) : hashOf blake header idx < 2 ^ 200 := by
  unfold hashOf
  generalize hinp : ((blake personalization (header ++ Wire.leBytes 4 (idx / 2))).bytes.drop
    (idx % 2 * 25)).take 25 = inp
  have hlen : inp.length ≤ 25 := by
    rw [← hinp, List.length_take]
    exact Nat.min_le_left _ _
  have hpow : 2 ^ 200 = 256 ^ 25 := by norm_num
  rw [hpow]
  exact (beValue_lt inp).trans_le (Nat.pow_le_pow_right (by omega) hlen)

/-- The rows that are filled in. -/
theorem initialRows_stand (is : List Nat) : ∃ rows, is.mapM (initialRow blake header) = some rows ∧
    Stand (hashOf blake header) 0 rows (is.map fun i => [i]) := by
  induction is with
  | nil => exact ⟨[], rfl, .nil⟩
  | cons i is ih =>
    obtain ⟨row, hrow, hholds⟩ := initialRow_holds blake header i
    obtain ⟨rows, hrows, hstand⟩ := ih
    refine ⟨row :: rows, ?_, .cons hholds hstand⟩
    rw [List.mapM_cons, hrow, hrows]
    rfl

/-- 1344 bytes are accepted when their indices are a solution. -/
theorem verify_eq {soln : Bytes} (hlen : soln.length = 1344) :
    ∃ accepted, verify200_9 blake header soln = some accepted ∧
      (accepted = true ↔ IsSolution (hashOf blake header) (indicesOf soln)) := by
  have hindices : (indicesOf soln).length = 512 := length_digits _ _ _
  obtain ⟨rows, hrows, hstand⟩ := initialRows_stand blake header (indicesOf soln)
  have hblocks : ∀ b ∈ (indicesOf soln).map fun i => [i], b.length = 2 ^ 0 ∧ ∀ x ∈ b, x < 2 ^ 21 := by
    intro b hb
    obtain ⟨i, hi, rfl⟩ := List.mem_map.mp hb
    refine ⟨rfl, fun x hx => ?_⟩
    rw [List.mem_singleton.mp hx]
    exact lt_of_mem_indices hi
  have hcount : ((indicesOf soln).map fun i => [i]).length = 2 ^ 9 := by
    rw [List.length_map, hindices]
    rfl
  have hfuel : rows.length = 512 := (List.Forall₂.length_eq hstand).trans hcount
  obtain ⟨accepted, hsolve, hiff⟩ :=
    solve_rows rows.length (Nat.zero_add 9) (by omega) hstand hcount hblocks
  have hflat : ((indicesOf soln).map fun i => [i]).flatten = indicesOf soln := by
    rw [← List.flatMap_def, List.flatMap_singleton']
  have htree := tree_iff_rounds (P := Meets (hashOf blake header)) hcount
    fun b hb => ⟨(hblocks b hb).1, trivial⟩
  rw [hflat] at htree hiff
  refine ⟨accepted, ?_, ?_⟩
  · unfold verify200_9
    rw [if_neg (not_not.mpr hlen), getIndices_eq hlen, Option.bind_eq_bind, Option.bind_some,
      if_neg (not_not.mpr hindices), hrows, Option.bind_eq_bind, Option.bind_some]
    exact hsolve
  · rw [hiff, isSolution_iff (hashOf_lt blake header) hindices, ← htree]

end Verifier

/-- **The verifier is the Equihash (200, 9) predicate.** It never leaves a
buffer, it accepts the solutions and nothing else, and each list of 512 indices
of 21 bits is unpacked from one solution. -/
theorem verifier_exact (blake : Blake2b50) (header : Bytes) :
    (∀ soln, ∃ accepted, verify200_9 blake header soln = some accepted ∧
      (accepted = true ↔ soln.length = 1344 ∧
        IsSolution (hashOf blake header) (indicesOf soln))) ∧
    (∀ soln, soln.length = 1344 → getIndicesFromMinimal soln 20 = some (indicesOf soln)) ∧
    Set.BijOn indicesOf {soln | soln.length = 1344} {is | is.length = 512 ∧ ∀ i ∈ is, i < 2 ^ 21} := by
  refine ⟨fun soln => ?_, fun soln hlen => getIndices_eq hlen, indicesOf_bijOn⟩
  by_cases hlen : soln.length = 1344
  · obtain ⟨accepted, hverify, hiff⟩ := verify_eq blake header hlen
    exact ⟨accepted, hverify, hiff.trans (and_iff_right hlen).symm⟩
  · refine ⟨false, ?_, iff_of_false (by decide) fun h => hlen h.1⟩
    unfold verify200_9
    rw [if_pos hlen]
    rfl

end MkPool.EquihashVerifier
