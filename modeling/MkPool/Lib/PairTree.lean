import Mathlib.Algebra.Order.Ring.Nat
import Mathlib.Data.List.Basic
import Mathlib.Data.List.Nodup

/-! # A tree of halves, checked round by round

A list of `2 ^ n` leaves is a perfect binary tree. A relation between the two
halves of every node can be checked from the leaves upwards, where each round
joins neighbours. -/
namespace MkPool.Lib.PairTree

variable {ι : Type}

/-- At every node of the tree, `P` relates the leaves of its halves. It is given
the height of the halves. -/
def Tree (P : Nat → List ι → List ι → Prop) : Nat → List ι → Prop
  | 0, _ => True
  | n + 1, xs => Tree P n (xs.take (2 ^ n)) ∧ Tree P n (xs.drop (2 ^ n)) ∧
    P n (xs.take (2 ^ n)) (xs.drop (2 ^ n))

/-- Neighbours are put together. -/
def pairs : List (List ι) → List (List ι)
  | as :: bs :: blocks => (as ++ bs) :: pairs blocks
  | _ => []

/-- All neighbours are related. -/
def Joined (Q : List ι → List ι → Prop) : List (List ι) → Prop
  | as :: bs :: blocks => Q as bs ∧ Joined Q blocks
  | _ => True

/-- The rounds from height `r` on. -/
def Rounds (P : Nat → List ι → List ι → Prop) : Nat → Nat → List (List ι) → Prop
  | 0, _, _ => True
  | m + 1, r, blocks => Joined (P r) blocks ∧ Rounds P m (r + 1) (pairs blocks)

section Blocks

variable {Q : List ι → List ι → Prop} {blocks : List (List ι)} {m k : Nat}

/-- An even number of blocks is none, or two and an even number. -/
theorem evenly_cases (h : blocks.length = 2 * m) : (m = 0 ∧ blocks = []) ∨
    ∃ as bs rest m', blocks = as :: bs :: rest ∧ m = m' + 1 ∧ rest.length = 2 * m' := by
  match blocks, h with
  | [], h => exact .inl ⟨by simpa using h.symm, rfl⟩
  | [_], h =>
    rw [List.length_singleton] at h
    omega
  | as :: bs :: rest, h =>
    rw [List.length_cons, List.length_cons] at h
    exact .inr ⟨as, bs, rest, m - 1, rfl, by omega, by omega⟩

theorem length_pairs (h : blocks.length = 2 * m) : (pairs blocks).length = m := by
  induction m generalizing blocks with
  | zero =>
    rw [List.length_eq_zero_iff.mp h]
    rfl
  | succ m ih =>
    obtain ⟨h0, _⟩ | ⟨as, bs, rest, m', rfl, hm, hrest⟩ := evenly_cases h
    · omega
    · obtain rfl : m = m' := by omega
      rw [pairs, List.length_cons, ih hrest]

theorem flatten_pairs (h : blocks.length = 2 * m) : (pairs blocks).flatten = blocks.flatten := by
  induction m generalizing blocks with
  | zero =>
    rw [List.length_eq_zero_iff.mp h]
    rfl
  | succ m ih =>
    obtain ⟨h0, _⟩ | ⟨as, bs, rest, m', rfl, hm, hrest⟩ := evenly_cases h
    · omega
    · obtain rfl : m = m' := by omega
      rw [pairs, List.flatten_cons, ih hrest, List.flatten_cons, List.flatten_cons,
        List.append_assoc]

theorem joined_append {blocks' : List (List ι)} (h : blocks.length = 2 * m) :
    Joined Q (blocks ++ blocks') ↔ Joined Q blocks ∧ Joined Q blocks' := by
  induction m generalizing blocks with
  | zero =>
    rw [List.length_eq_zero_iff.mp h]
    exact (and_iff_right trivial).symm
  | succ m ih =>
    obtain ⟨h0, _⟩ | ⟨as, bs, rest, m', rfl, hm, hrest⟩ := evenly_cases h
    · omega
    · obtain rfl : m = m' := by omega
      rw [List.cons_append, List.cons_append, Joined, Joined, ih hrest, and_assoc]

/-- What holds of every block and follows for neighbours holds of every pair. -/
theorem pairs_induct {R S : List ι → Prop} (h : blocks.length = 2 * m) (hjoined : Joined Q blocks)
    (hblocks : ∀ b ∈ blocks, R b) (hstep : ∀ as bs, R as → R bs → Q as bs → S (as ++ bs)) :
    ∀ b ∈ pairs blocks, S b := by
  induction m generalizing blocks with
  | zero =>
    rw [List.length_eq_zero_iff.mp h]
    exact fun b hb => by cases hb
  | succ m ih =>
    obtain ⟨h0, _⟩ | ⟨as, bs, rest, m', rfl, hm, hrest⟩ := evenly_cases h
    · omega
    · obtain rfl : m = m' := by omega
      intro b hb
      rcases List.mem_cons.mp hb with rfl | hb
      · exact hstep as bs (hblocks as (by simp)) (hblocks bs (by simp)) hjoined.1
      · exact ih hrest hjoined.2 (fun c hc => hblocks c (by simp [hc])) b hb

theorem length_flatten_blocks (h : ∀ b ∈ blocks, b.length = k) :
    blocks.flatten.length = blocks.length * k := by
  induction blocks with
  | nil => simp
  | cons b blocks ih =>
    rw [List.flatten_cons, List.length_append, h b List.mem_cons_self,
      ih fun c hc => h c (List.mem_cons_of_mem _ hc), List.length_cons, Nat.succ_mul, Nat.add_comm]

/-- The blocks of one half. -/
theorem halves (h : ∀ b ∈ blocks, b.length = k) {j : Nat} (hj : j ≤ blocks.length) :
    blocks.flatten.take (j * k) = (blocks.take j).flatten ∧
      blocks.flatten.drop (j * k) = (blocks.drop j).flatten := by
  have hlen : (blocks.take j).flatten.length = j * k := by
    rw [length_flatten_blocks fun b hb => h b (List.mem_of_mem_take hb), List.length_take,
      Nat.min_eq_left hj]
  have hsplit : blocks.flatten = (blocks.take j).flatten ++ (blocks.drop j).flatten := by
    rw [← List.flatten_append, List.take_append_drop]
  constructor
  · rw [hsplit, List.take_left' hlen]
  · rw [hsplit, List.drop_left' hlen]

end Blocks

section Rounds

variable {P P' : Nat → List ι → List ι → Prop} {blocks : List (List ι)}

/-- A tree over blocks relates neighbours. -/
theorem joined_of_tree {m r : Nat} (hlen : blocks.length = 2 ^ (m + 1))
    (hblocks : ∀ b ∈ blocks, b.length = 2 ^ r) (h : Tree P (r + (m + 1)) blocks.flatten) :
    Joined (P r) blocks := by
  induction m generalizing blocks with
  | zero =>
    match blocks, hlen with
    | [as, bs], _ =>
      have has : as.length = 2 ^ r := hblocks as (by simp)
      have hP := h.2.2
      have hflat : [as, bs].flatten = as ++ bs := by simp
      rw [hflat, List.take_left' has, List.drop_left' has] at hP
      exact ⟨hP, trivial⟩
  | succ m ih =>
    have hstep : Tree P (r + (m + 1) + 1) blocks.flatten := h
    obtain ⟨hleft, hright, _⟩ := hstep
    have hpow : 2 ^ (r + (m + 1)) = 2 ^ (m + 1) * 2 ^ r := by rw [← pow_add, Nat.add_comm]
    have htwice : 2 ^ (m + 1 + 1) = 2 ^ (m + 1) * 2 := pow_succ 2 (m + 1)
    obtain ⟨htake, hdrop⟩ := halves hblocks (j := 2 ^ (m + 1)) (by omega)
    rw [hpow, htake] at hleft
    rw [hpow, hdrop] at hright
    have hfirst : (blocks.take (2 ^ (m + 1))).length = 2 ^ (m + 1) := by
      rw [List.length_take, Nat.min_eq_left (by omega)]
    have hlast : (blocks.drop (2 ^ (m + 1))).length = 2 ^ (m + 1) := by
      rw [List.length_drop]
      omega
    have heven : (blocks.take (2 ^ (m + 1))).length = 2 * 2 ^ m := by rw [hfirst, pow_succ']
    rw [← List.take_append_drop (2 ^ (m + 1)) blocks, joined_append heven]
    exact ⟨ih hfirst (fun b hb => hblocks b (List.mem_of_mem_take hb)) hleft,
      ih hlast (fun b hb => hblocks b (List.mem_of_mem_drop hb)) hright⟩

/-- **The rounds check the tree.** -/
theorem tree_iff_rounds {m r : Nat} (hlen : blocks.length = 2 ^ m)
    (hblocks : ∀ b ∈ blocks, b.length = 2 ^ r ∧ Tree P r b) :
    Tree P (r + m) blocks.flatten ↔ Rounds P m r blocks := by
  induction m generalizing r blocks with
  | zero =>
    obtain ⟨b, rfl⟩ := List.length_eq_one_iff.mp hlen
    have hb := (hblocks b List.mem_cons_self).2
    rw [List.flatten_singleton]
    exact iff_of_true hb trivial
  | succ m ih =>
    have heven : blocks.length = 2 * 2 ^ m := by rw [hlen, pow_succ']
    have hnext (hjoined : Joined (P r) blocks) :
        ∀ b ∈ pairs blocks, b.length = 2 ^ (r + 1) ∧ Tree P (r + 1) b := by
      refine pairs_induct heven hjoined hblocks fun as bs has hbs hP => ⟨?_, ?_⟩
      · rw [List.length_append, has.1, hbs.1, pow_succ]
        omega
      · unfold Tree
        rw [List.take_left' has.1, List.drop_left' has.1]
        exact ⟨has.2, hbs.2, hP⟩
    have hrounds (hjoined : Joined (P r) blocks) :
        Tree P (r + (m + 1)) blocks.flatten ↔ Rounds P m (r + 1) (pairs blocks) := by
      have hih := ih (length_pairs heven) (hnext hjoined)
      rwa [flatten_pairs heven, Nat.add_right_comm, Nat.add_assoc] at hih
    constructor
    · intro h
      have hjoined := joined_of_tree hlen (fun b hb => (hblocks b hb).1) h
      exact ⟨hjoined, (hrounds hjoined).mp h⟩
    · intro h
      exact (hrounds h.1).mpr h.2

theorem tree_and {n : Nat} {xs : List ι} :
    Tree (fun r as bs => P r as bs ∧ P' r as bs) n xs ↔ Tree P n xs ∧ Tree P' n xs := by
  induction n generalizing xs with
  | zero => exact (and_self_iff).symm
  | succ n ih =>
    simp only [Tree, ih]
    tauto

/-- When no leaf of one half is one of the other, all leaves differ. -/
theorem tree_disjoint {n : Nat} {xs : List ι} (hlen : xs.length = 2 ^ n) :
    Tree (fun _ as bs => as.Disjoint bs) n xs ↔ xs.Nodup := by
  induction n generalizing xs with
  | zero =>
    obtain ⟨x, rfl⟩ := List.length_eq_one_iff.mp hlen
    exact iff_of_true trivial (List.nodup_singleton x)
  | succ n ih =>
    have htwice : 2 ^ (n + 1) = 2 ^ n * 2 := pow_succ 2 n
    have hleft : (xs.take (2 ^ n)).length = 2 ^ n := by
      rw [List.length_take, Nat.min_eq_left (by omega)]
    have hright : (xs.drop (2 ^ n)).length = 2 ^ n := by
      rw [List.length_drop]
      omega
    conv_rhs => rw [← List.take_append_drop (2 ^ n) xs, List.nodup_append']
    rw [Tree, ih hleft, ih hright]

end Rounds

end MkPool.Lib.PairTree
