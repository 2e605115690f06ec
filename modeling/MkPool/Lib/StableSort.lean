import Mathlib.Data.List.Sort
import Mathlib.Order.Defs.LinearOrder

/-! # Stable sorting by a key

The elements of one key are a class. A stable sort moves classes past each other
and leaves each of them as it is, so the sorted lists are told apart by the
classes alone. -/
namespace MkPool.Lib.StableSort

variable {α κ : Type*} [LinearOrder κ] (key : α → κ)

/-- Ascending by `key`. Of equal keys the one that came first stays first. -/
def sortBy (l : List α) : List α := l.insertionSort fun a b => key a ≤ key b

/-- The elements of `l` with key `k`, in the order of `l`. -/
def ofKey (k : κ) (l : List α) : List α := l.filter fun a => key a = k

theorem ofKey_append (k : κ) (l m : List α) :
    ofKey key k (l ++ m) = ofKey key k l ++ ofKey key k m := List.filter_append l m

theorem mem_ofKey {k : κ} {a : α} {l : List α} : a ∈ ofKey key k l ↔ a ∈ l ∧ key a = k := by
  simp [ofKey]

theorem ofKey_orderedInsert (k : κ) (a : α) (l : List α) :
    ofKey key k (l.orderedInsert (fun a b => key a ≤ key b) a) = ofKey key k (a :: l) := by
  induction l with
  | nil => rfl
  | cons b l ih =>
    rw [List.orderedInsert_cons]
    split
    · rfl
    · rename_i hab
      -- `a` goes past `b` only if their keys differ
      have hne : ¬(key a = k ∧ key b = k) := fun h => hab (h.1.trans h.2.symm).le
      unfold ofKey at ih ⊢
      rw [List.filter_cons, ih, List.filter_cons, List.filter_cons, List.filter_cons]
      by_cases ha : key a = k
      · have hb : key b ≠ k := fun hb => hne ⟨ha, hb⟩
        simp [ha, hb]
      · simp [ha]

/-- The sort is stable. -/
theorem ofKey_sortBy (k : κ) (l : List α) : ofKey key k (sortBy key l) = ofKey key k l := by
  induction l with
  | nil => rfl
  | cons a l ih =>
    have hl : sortBy key (a :: l) = (sortBy key l).orderedInsert (fun a b => key a ≤ key b) a := rfl
    rw [hl, ofKey_orderedInsert]
    unfold ofKey at ih ⊢
    rw [List.filter_cons, ih, List.filter_cons]

theorem perm_sortBy (l : List α) : (sortBy key l).Perm l := List.perm_insertionSort _ l

theorem pairwise_sortBy (l : List α) : (sortBy key l).Pairwise fun a b => key a ≤ key b :=
  have : Std.Total fun a b : α => key a ≤ key b := ⟨fun _ _ => le_total _ _⟩
  have : IsTrans α fun a b => key a ≤ key b := ⟨fun _ _ _ => le_trans⟩
  List.pairwise_insertionSort _ l

/-- Sorted lists with the same classes start with the same key. -/
theorem head_le {a b : α} {l m : List α} (hm : (b :: m).Pairwise fun a b => key a ≤ key b)
    (h : ∀ k, ofKey key k (a :: l) = ofKey key k (b :: m)) : key b ≤ key a := by
  have ha : a ∈ ofKey key (key a) (b :: m) :=
    h (key a) ▸ (mem_ofKey key).mpr ⟨List.mem_cons_self, rfl⟩
  obtain rfl | ha := List.mem_cons.mp ((mem_ofKey key).mp ha).1
  · exact le_rfl
  · exact (List.pairwise_cons.mp hm).1 a ha

theorem eq_of_classes {l m : List α} (hl : l.Pairwise fun a b => key a ≤ key b)
    (hm : m.Pairwise fun a b => key a ≤ key b) (h : ∀ k, ofKey key k l = ofKey key k m) :
    l = m := by
  induction l generalizing m with
  | nil =>
    cases m with
    | nil => rfl
    | cons b m => simpa [ofKey] using h (key b)
  | cons a l ih =>
    cases m with
    | nil => simpa [ofKey] using h (key a)
    | cons b m =>
      have hk : key a = key b :=
        le_antisymm (head_le key hl fun k => (h k).symm) (head_le key hm h)
      have hab : a = b := by
        have hc := h (key a)
        simp only [ofKey, List.filter_cons, hk, decide_true, if_true] at hc
        exact (List.cons.inj hc).1
      subst hab
      refine congrArg (a :: ·) (ih (List.pairwise_cons.mp hl).2 (List.pairwise_cons.mp hm).2 ?_)
      intro k
      have hc := h k
      simp only [ofKey, List.filter_cons] at hc
      split at hc
      · exact (List.cons.inj hc).2
      · exact hc

theorem sortBy_eq_iff {l m : List α} :
    sortBy key l = sortBy key m ↔ ∀ k, ofKey key k l = ofKey key k m := by
  constructor
  · intro h k
    rw [← ofKey_sortBy key k l, h, ofKey_sortBy]
  · intro h
    refine eq_of_classes key (pairwise_sortBy key l) (pairwise_sortBy key m) fun k => ?_
    rw [ofKey_sortBy, ofKey_sortBy, h]

/-- A permutation that finds nothing to swap. -/
theorem eq_of_perm_of_forall_eq {l m : List α} (p : l.Perm m) (h : ∀ a ∈ l, ∀ b ∈ l, a = b) :
    l = m := by
  cases l with
  | nil => exact p.nil_eq
  | cons a l =>
    have hl : a :: l = List.replicate (l.length + 1) a :=
      List.eq_replicate_of_mem fun b hb => h b hb a List.mem_cons_self
    rw [hl] at p ⊢
    exact List.replicate_perm.mp p

/-- Where equal keys mean equal elements, sorting forgets the order. -/
theorem sortBy_perm {l m : List α} (p : l.Perm m)
    (h : ∀ a ∈ l, ∀ b ∈ l, key a = key b → a = b) : sortBy key l = sortBy key m := by
  refine (sortBy_eq_iff key).mpr fun k => eq_of_perm_of_forall_eq (p.filter _) ?_
  intro a ha b hb
  obtain ⟨ha, hka⟩ := (mem_ofKey key).mp ha
  obtain ⟨hb, hkb⟩ := (mem_ofKey key).mp hb
  exact h a ha b hb (hka.trans hkb.symm)

end MkPool.Lib.StableSort
