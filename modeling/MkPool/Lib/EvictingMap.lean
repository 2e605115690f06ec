import Mathlib.Data.List.Nodup
import Mathlib.Data.List.Perm.Subperm

/-! # A map that evicts the oldest insertions

The keys stand in the order of their insertions, a key inserted again once more.
What falls out of the order is removed from the map, whichever insertion of the
key it was. Histories have the latest insertion first. -/
namespace MkPool.Lib

structure EvictingMap (κ α : Type*) where
  map : List (κ × α) := []
  order : List κ := []

namespace EvictingMap

/-! ## The order -/

section Order
variable {κ : Type*} {size : Nat}

theorem drop_oldest (keys : List κ) :
    keys.reverse.drop (keys.length - size) = (keys.take size).reverse := by
  rw [List.drop_reverse, List.take_eq_take_iff.mpr]
  omega

theorem take_oldest (keys : List κ) :
    keys.reverse.take (keys.length - size) = (keys.drop size).reverse := by
  rw [List.take_reverse, List.drop_eq_drop_iff.mpr]
  omega

/-- The order of an insertion, before what is too much goes. -/
theorem order_concat (keys : List κ) (k : κ) :
    (keys.take size).reverse ++ [k] = ((k :: keys).take (size + 1)).reverse := by
  rw [List.take_succ_cons, List.reverse_cons]

/-- What the latest insertion drops from the order: one key, if the order is full. -/
def dropped (size : Nat) (keys : List κ) : List κ := (keys.drop size).take 1

/-- The keys that were removed at the latest insertion of a key and after it. -/
def removedSince [BEq κ] (size : Nat) (keys : List κ) (k : κ) : List κ :=
  (keys.drop size).take (keys.idxOf k + 1)

variable [BEq κ] [LawfulBEq κ] {keys : List κ} {k : κ}

theorem removedSince_self : removedSince size (k :: keys) k = dropped size (k :: keys) := by
  unfold removedSince dropped
  rw [List.idxOf_cons_self]

theorem mem_removedSince_cons {key : κ} (h : key ≠ k) :
    k ∈ removedSince size (key :: keys) k ↔
      k ∈ dropped size (key :: keys) ∨ k ∈ removedSince size keys k := by
  have htail : ((key :: keys).drop size).drop 1 = keys.drop size := by
    rw [List.drop_drop, List.drop_succ_cons]
  unfold removedSince dropped
  rw [List.idxOf_cons_ne _ h, Nat.succ_eq_one_add, Nat.add_assoc, List.take_add, List.mem_append,
    htail]

/-- Keys under other names are removed together. -/
theorem mem_removedSince_map {κ' : Type*} [BEq κ'] [LawfulBEq κ'] {f : κ → κ'}
    (hf : Function.Injective f) :
    f k ∈ removedSince size (keys.map f) (f k) ↔ k ∈ removedSince size keys k := by
  have hidx : (keys.map f).idxOf (f k) = keys.idxOf k := by
    induction keys with
    | nil => rfl
    | cons key keys ih =>
      by_cases h : key = k
      · rw [h, List.map_cons, List.idxOf_cons_self, List.idxOf_cons_self]
      · rw [List.map_cons, List.idxOf_cons_ne _ h, List.idxOf_cons_ne _ (hf.ne h), ih]
  unfold removedSince
  rw [hidx, ← List.map_drop, ← List.map_take, List.mem_map_of_injective hf]

end Order

/-! ## The map -/

variable {κ α : Type*} [BEq κ] [LawfulBEq κ] [DecidableEq κ] {size : Nat} {k : κ}

/-- An insertion. The keys of the insertions before the latest `size` go. -/
def insert (size : Nat) (m : EvictingMap κ α) (e : κ × α) : EvictingMap κ α :=
  let order := m.order ++ [e.1]
  let dropped := order.take (order.length - size)
  { map := (e :: m.map.filter fun x => x.1 ≠ e.1).filter fun x => x.1 ∉ dropped
    order := order.drop (order.length - size) }

def ofHistory (size : Nat) : List (κ × α) → EvictingMap κ α
  | [] => {}
  | e :: history => (ofHistory size history).insert size e

theorem order_ofHistory (history : List (κ × α)) :
    (ofHistory size history).order = ((history.map Prod.fst).take size).reverse := by
  induction history with
  | nil => simp [ofHistory]
  | cons e history ih =>
    show ((ofHistory size history).order ++ [e.1]).drop _ = _
    rw [ih, order_concat, List.length_reverse, drop_oldest, List.take_take, List.map_cons,
      Nat.min_eq_left (Nat.le_succ size)]

theorem map_cons (e : κ × α) (history : List (κ × α)) :
    (ofHistory size (e :: history)).map =
      (e :: (ofHistory size history).map.filter fun x => x.1 ≠ e.1).filter fun x =>
        x.1 ∉ dropped size ((e :: history).map Prod.fst) := by
  have hdropped : ((ofHistory size history).order ++ [e.1]).take
      (((ofHistory size history).order ++ [e.1]).length - size) =
        (dropped size ((e :: history).map Prod.fst)).reverse := by
    rw [order_ofHistory, order_concat, List.length_reverse, take_oldest, List.drop_take,
      Nat.add_sub_cancel_left]
    rfl
  have hmap : (ofHistory size (e :: history)).map =
      (e :: (ofHistory size history).map.filter fun x => x.1 ≠ e.1).filter fun x =>
        x.1 ∉ ((ofHistory size history).order ++ [e.1]).take
          (((ofHistory size history).order ++ [e.1]).length - size) := rfl
  rw [hmap, hdropped]
  simp only [List.mem_reverse]

theorem lookup_filter (l : List (κ × α)) (p : κ → Prop) [DecidablePred p] (k : κ) :
    (l.filter fun x => p x.1).lookup k = if p k then l.lookup k else none := by
  induction l with
  | nil => simp
  | cons x l ih =>
    obtain ⟨key, value⟩ := x
    rw [List.filter_cons, List.lookup_cons]
    by_cases hk : k = key
    · subst hk
      by_cases hp : p k
      · simp [hp]
      · simp [hp, ih]
    · have hne : (k == key) = false := beq_false_of_ne hk
      by_cases hp : p key
      · simp [hp, hne, List.lookup_cons, ih]
      · simp [hp, hne, ih]

/-- **What is in the map.** A key has the value of its latest insertion, unless an
insertion of the key was dropped since. -/
theorem lookup_ofHistory (history : List (κ × α)) (k : κ) :
    (ofHistory size history).map.lookup k =
      if k ∈ removedSince size (history.map Prod.fst) k then none else history.lookup k := by
  induction history with
  | nil => simp [ofHistory]
  | cons e history ih =>
    obtain ⟨key, value⟩ := e
    rw [map_cons, List.map_cons]
    dsimp only
    rw [lookup_filter _ (· ∉ dropped size (key :: history.map Prod.fst)),
      List.lookup_cons, List.lookup_cons, lookup_filter _ (· ≠ key), ih]
    by_cases hk : key = k
    · subst hk
      rw [removedSince_self]
      simp
    · have hne : (k == key) = false := beq_false_of_ne (Ne.symm hk)
      simp only [hne, mem_removedSince_cons hk]
      by_cases hdropped : k ∈ dropped size (key :: history.map Prod.fst)
      · simp [hdropped]
      · simp [hdropped, Ne.symm hk]

/-- A key that was inserted has its value exactly where none of its insertions
was dropped since. -/
theorem lookup_eq_iff {history : List (κ × α)} (h : k ∈ history.map Prod.fst) :
    (ofHistory size history).map.lookup k = history.lookup k ↔
      k ∉ removedSince size (history.map Prod.fst) k := by
  have hsome : history.lookup k ≠ none := by
    obtain ⟨x, hx, rfl⟩ := List.mem_map.mp h
    intro hnone
    exact absurd (List.lookup_eq_none_iff.mp hnone x hx) (by simp)
  rw [lookup_ofHistory]
  split
  · exact ⟨fun hnone => absurd hnone.symm hsome, fun hnot => absurd ‹_› hnot⟩
  · exact ⟨fun _ => ‹_›, fun _ => rfl⟩

theorem keys_nodup (history : List (κ × α)) :
    ((ofHistory size history).map.map Prod.fst).Nodup := by
  induction history with
  | nil => exact List.nodup_nil
  | cons e history ih =>
    rw [map_cons]
    refine List.Nodup.sublist (List.filter_sublist.map _) ?_
    refine List.nodup_cons.mpr ⟨?_, ih.sublist (List.filter_sublist.map _)⟩
    intro he
    obtain ⟨x, hx, heq⟩ := List.mem_map.mp he
    exact of_decide_eq_true (List.mem_filter.mp hx).2 heq

/-- The keys in the map are among the latest insertions. -/
theorem keys_subset (history : List (κ × α)) :
    (ofHistory size history).map.map Prod.fst ⊆ (history.map Prod.fst).take size := by
  induction history with
  | nil => exact List.nil_subset _
  | cons e history ih =>
    intro key hkey
    obtain ⟨x, hx, rfl⟩ := List.mem_map.mp hkey
    rw [map_cons] at hx
    obtain ⟨hx, hkept⟩ := List.mem_filter.mp hx
    have hlatest : x.1 ∈ ((e :: history).map Prod.fst).take (size + 1) := by
      rw [List.map_cons, List.take_succ_cons]
      rcases List.mem_cons.mp hx with rfl | hx
      · exact List.mem_cons_self
      · exact List.mem_cons_of_mem _ (ih (List.mem_map_of_mem (List.mem_filter.mp hx).1))
    rw [List.take_add, List.mem_append] at hlatest
    exact hlatest.resolve_right (of_decide_eq_true hkept)

theorem length_map_le (history : List (κ × α)) : (ofHistory size history).map.length ≤ size := by
  have h : ((ofHistory size history).map.map Prod.fst).length ≤
      ((history.map Prod.fst).take size).length :=
    ((keys_nodup history).subperm (keys_subset history)).length_le
  rw [List.length_map, List.length_take] at h
  omega

end EvictingMap

end MkPool.Lib
