import Mathlib.Data.List.Range
import Mathlib.Data.List.Count
import Mathlib.Data.List.Perm.Basic

/-! # Numbered tickets

Tickets are numbered in the order they are issued and move between places. None
is lost and none is there twice while the places together hold each once. -/
namespace MkPool.Lib.Tickets

/-- The first `n` tickets are in the list, each once, and no others. -/
def Once (n : Nat) (places : List Nat) : Prop := places.Perm (List.range n)

variable {n : Nat} {places places' : List Nat}

theorem once_nil : Once 0 [] := List.Perm.refl _

theorem Once.perm (h : Once n places) (hp : places'.Perm places) : Once n places' := hp.trans h

/-- The next ticket is issued. -/
theorem Once.issue (h : Once n places) (hp : places'.Perm (n :: places)) :
    Once (n + 1) places' := by
  unfold Once
  rw [List.range_succ]
  exact hp.trans ((h.cons n).trans (List.perm_append_singleton n _).symm)

theorem Once.length (h : Once n places) : places.length = n := by
  rw [h.length_eq, List.length_range]

section
variable {α : Type*} (f : α → Option Nat)

/-- The tickets of the entries that answer to a test, and of the rest, are all. -/
theorem perm_filter (p : α → Bool) (l : List α) :
    ((l.filter fun a => !p a).filterMap f ++ (l.filter p).filterMap f).Perm (l.filterMap f) := by
  rw [← List.filterMap_append]
  exact (List.perm_append_comm.trans (List.filter_append_perm p l)).filterMap f

/-- The ticket of the entry that was found, and of the rest, are all. -/
theorem perm_eraseP {p : α → Bool} {l : List α} {a : α} (h : l.find? p = some a) :
    ((l.eraseP p).filterMap f ++ (f a).toList).Perm (l.filterMap f) := by
  obtain ⟨ha, before, after, rfl, hbefore⟩ := List.find?_eq_some_iff_append.mp h
  have herase : (before ++ a :: after).eraseP p = before ++ after := by
    rw [List.eraseP_append_right _ fun b hb => by simpa using hbefore b hb,
      List.eraseP_cons_of_pos ha]
  have htoList : (f a).toList = [a].filterMap f := by
    cases hfa : f a <;> simp [hfa]
  rw [herase, htoList, ← List.filterMap_append]
  refine List.Perm.filterMap f ?_
  rw [List.append_assoc]
  exact List.Perm.append_left before (List.perm_append_singleton a after)

end

/-- One of the places of a row is another. -/
theorem perm_flatMap_set {α : Type*} (f : α → List Nat) {l : List α} {i : Nat} {a : α}
    (h : l[i]? = some a) (b : α) :
    (f a ++ (l.set i b).flatMap f).Perm (f b ++ l.flatMap f) := by
  obtain ⟨hlt, rfl⟩ := List.getElem?_eq_some_iff.mp h
  have hrow : l = l.take i ++ l[i] :: l.drop (i + 1) := by
    rw [← List.drop_eq_getElem_cons hlt, List.take_append_drop]
  have hset : l.set i b = l.take i ++ b :: l.drop (i + 1) := List.set_eq_take_append_cons_drop ▸ if_pos hlt
  refine List.perm_iff_count.mpr fun n => ?_
  have hcount := congrArg (fun l => (l.flatMap f).count n) hrow
  rw [hset]
  simp only [List.flatMap_append, List.flatMap_cons, List.count_append] at hcount ⊢
  omega

end MkPool.Lib.Tickets
