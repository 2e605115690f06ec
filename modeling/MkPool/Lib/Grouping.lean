import Mathlib.Data.List.Basic
import Mathlib.Data.List.Induction
import Mathlib.Data.List.Nodup
import Mathlib.Data.List.Perm.Basic

/-! # Folding a list into one entry a key

An entry stands where the first element of its key stood, and holds the fold of
all of them. What a fold that treats its first element apart makes of a list does
not depend on the order, once two elements can trade places at either end. -/
namespace MkPool.Lib.Grouping

variable {α β γ κ : Type*} [DecidableEq κ]
variable (key : α → κ) (first : α → β) (absorb : β → α → β)

/-- One more element: into the entry of its key, or a new entry at the end. -/
def put (a : α) : List (κ × β) → List (κ × β)
  | [] => [(key a, first a)]
  | e :: es => if e.1 = key a then (e.1, absorb e.2 a) :: es else e :: put a es

def collect (l : List α) : List (κ × β) :=
  l.foldl (fun es a => put key first absorb a es) []

/-- The fold of a list that starts with its first element. -/
def joined : List α → Option β
  | [] => none
  | a :: as => some (as.foldl absorb (first a))

theorem collect_concat (l : List α) (a : α) :
    collect key first absorb (l ++ [a]) = put key first absorb a (collect key first absorb l) :=
  List.foldl_concat ..

theorem joined_concat (l : List α) (a : α) :
    joined first absorb (l ++ [a]) =
      some ((joined first absorb l).elim (first a) fun m => absorb m a) := by
  cases l with
  | nil => rfl
  | cons b l => simp [joined, List.foldl_append]

/-- Entries of the keys that satisfy `q` take no notice of the others. -/
theorem filter_put (q : κ → Bool) (a : α) (es : List (κ × β)) :
    (put key first absorb a es).filter (fun e => q e.1) =
      if q (key a) then put key first absorb a (es.filter fun e => q e.1)
      else es.filter fun e => q e.1 := by
  induction es with
  | nil => by_cases h : q (key a) <;> simp [put, h]
  | cons e es ih =>
    rw [put]
    by_cases he : e.1 = key a
    · rw [if_pos he]
      by_cases h : q (key a)
      · simp [h, he, put]
      · simp [h, he]
    · rw [if_neg he, List.filter_cons, ih]
      by_cases h : q (key a)
      · by_cases hq : q e.1
        · simp [h, hq, put, he]
        · simp [h, hq]
      · by_cases hq : q e.1
        · simp [h, hq]
        · simp [h, hq]

theorem filter_collect (q : κ → Bool) (l : List α) :
    (collect key first absorb l).filter (fun e => q e.1) =
      collect key first absorb (l.filter fun a => q (key a)) := by
  induction l using List.reverseRecOn with
  | nil => rfl
  | append_singleton l a ih =>
    rw [collect_concat, filter_put, ih, List.filter_append]
    cases h : q (key a) with
    | true => rw [if_pos rfl, List.filter_singleton, h, cond_true, collect_concat]
    | false =>
      rw [if_neg Bool.false_ne_true, List.filter_singleton, h, cond_false, List.append_nil]

/-- A list of one key makes one entry. -/
theorem collect_of_forall_key {k : κ} {l : List α} (h : ∀ a ∈ l, key a = k) :
    collect key first absorb l = (joined first absorb l).toList.map fun m => (k, m) := by
  induction l using List.reverseRecOn with
  | nil => rfl
  | append_singleton l a ih =>
    have ha : key a = k := h a (by simp)
    rw [collect_concat, ih fun b hb => h b (List.mem_append_left _ hb), joined_concat]
    cases joined first absorb l with
    | none => simp [put, ha]
    | some m => simp [put, ha]

/-- The elements of one key. -/
def withKey (k : κ) (l : List α) : List α := l.filter fun a => key a = k

theorem filter_key_collect (k : κ) (l : List α) :
    (collect key first absorb l).filter (fun e => e.1 = k) =
      (joined first absorb (withKey key k l)).toList.map fun m => (k, m) := by
  rw [filter_collect key first absorb fun j => j = k]
  refine collect_of_forall_key key first absorb fun a ha => ?_
  simpa using (List.mem_filter.mp ha).2

theorem mem_collect {k : κ} {m : β} {l : List α} :
    (k, m) ∈ collect key first absorb l ↔ joined first absorb (withKey key k l) = some m := by
  have h : (k, m) ∈ collect key first absorb l ↔
      (k, m) ∈ (collect key first absorb l).filter fun e => e.1 = k := by simp
  rw [h, filter_key_collect]
  simp

theorem keys_put (a : α) (es : List (κ × β)) :
    (put key first absorb a es).map Prod.fst =
      if key a ∈ es.map Prod.fst then es.map Prod.fst else es.map Prod.fst ++ [key a] := by
  induction es with
  | nil => simp [put]
  | cons e es ih =>
    rw [put]
    by_cases he : e.1 = key a
    · simp [he]
    · have hne : key a ≠ e.1 := fun h => he h.symm
      rw [if_neg he, List.map_cons, ih]
      by_cases hm : key a ∈ es.map Prod.fst
      · rw [if_pos hm, List.map_cons, if_pos (List.mem_cons_of_mem _ hm)]
      · rw [if_neg hm, List.map_cons, if_neg]
        · rfl
        · intro h
          exact (List.mem_cons.mp h).elim hne hm

theorem nodup_keys (l : List α) : ((collect key first absorb l).map Prod.fst).Nodup := by
  induction l using List.reverseRecOn with
  | nil => exact List.nodup_nil
  | append_singleton l a ih =>
    rw [collect_concat, keys_put]
    split
    · exact ih
    · rename_i h
      exact List.nodup_append.mpr ⟨ih, List.nodup_singleton _, fun b hb c hc hbc =>
        h (by rwa [hbc, List.mem_singleton.mp hc] at hb)⟩

/-- Lists whose folds look alike, key by key, have entries that look alike. -/
theorem collect_perm (view : β → γ) {l m : List α}
    (h : ∀ k, (joined first absorb (withKey key k l)).map view =
      (joined first absorb (withKey key k m)).map view) :
    ((collect key first absorb l).map fun e => (e.1, view e.2)).Perm
      ((collect key first absorb m).map fun e => (e.1, view e.2)) := by
  have hkeys : ∀ l : List α,
      (((collect key first absorb l).map fun e => (e.1, view e.2)).map Prod.fst).Nodup := by
    intro l
    rw [List.map_map]
    exact nodup_keys key first absorb l
  have hmem : ∀ (l : List α) (k : κ) (c : γ),
      (k, c) ∈ ((collect key first absorb l).map fun e => (e.1, view e.2)) ↔
        (joined first absorb (withKey key k l)).map view = some c := by
    intro l k c
    rw [List.mem_map, Option.map_eq_some_iff]
    constructor
    · rintro ⟨e, he, hc⟩
      obtain ⟨rfl, rfl⟩ := Prod.mk.inj hc
      exact ⟨e.2, (mem_collect key first absorb).mp he, rfl⟩
    · rintro ⟨b, hb, rfl⟩
      exact ⟨(k, b), (mem_collect key first absorb).mpr hb, rfl⟩
  refine (List.perm_ext_iff_of_nodup (hkeys l).of_map (hkeys m).of_map).mpr fun e => ?_
  obtain ⟨k, c⟩ := e
  rw [hmem, hmem, h]

/-- Elements whose keys are all new make entries of their own. -/
theorem collect_append {l m : List α} (h : ∀ a ∈ l, ∀ b ∈ m, key a ≠ key b) :
    collect key first absorb (l ++ m) =
      collect key first absorb l ++ collect key first absorb m := by
  induction m using List.reverseRecOn with
  | nil => simp [collect]
  | append_singleton m b ih =>
    have hb : ∀ e ∈ collect key first absorb l, e.1 ≠ key b := by
      intro e he hk
      have hj := (mem_collect key first absorb).mp (show (e.1, e.2) ∈ _ from he)
      cases hg : withKey key e.1 l with
      | nil => simp [hg, joined] at hj
      | cons a as =>
        have ha : a ∈ withKey key e.1 l := hg ▸ List.mem_cons_self
        obtain ⟨hal, hka⟩ := List.mem_filter.mp ha
        exact h a hal b (by simp) ((of_decide_eq_true hka).trans hk)
    have hput : ∀ es fs : List (κ × β), (∀ e ∈ es, e.1 ≠ key b) →
        put key first absorb b (es ++ fs) = es ++ put key first absorb b fs := by
      intro es fs hes
      induction es with
      | nil => rfl
      | cons e es ihe =>
        rw [List.cons_append, put, if_neg (hes e List.mem_cons_self),
          ihe fun x hx => hes x (List.mem_cons_of_mem _ hx), List.cons_append]
    rw [← List.append_assoc, collect_concat, collect_concat,
      ih fun a ha c hc => h a ha c (List.mem_append_left _ hc), hput _ _ hb]

/-- `view` is what is looked at of a fold, and `op` does to it what an element does
to the fold. -/
theorem map_joined_perm (view : β → γ) (op : γ → α → γ)
    (hom : ∀ m a, view (absorb m a) = op (view m) a)
    (comm : ∀ m a b, op (op m a) b = op (op m b) a) {l m : List α} (p : l.Perm m)
    (swap : ∀ a ∈ l, ∀ b ∈ l, op (view (first a)) b = op (view (first b)) a) :
    (joined first absorb l).map view = (joined first absorb m).map view := by
  have run : ∀ (as : List α) (b : β), view (as.foldl absorb b) = as.foldl op (view b) := by
    intro as
    induction as with
    | nil => exact fun _ => rfl
    | cons a as ih =>
      intro b
      rw [List.foldl_cons, ih, hom, List.foldl_cons]
  induction p with
  | nil => rfl
  | cons a p _ =>
    rename_i l m
    have : RightCommutative op := ⟨comm⟩
    change some _ = some _
    rw [run, run, p.foldl_eq]
  | swap a b l =>
    change some _ = some _
    rw [run, run, List.foldl_cons, List.foldl_cons, swap b (by simp) a (by simp)]
  | trans p _ ih₁ ih₂ =>
    exact (ih₁ swap).trans (ih₂ fun a ha b hb => swap a (p.mem_iff.mpr ha) b (p.mem_iff.mpr hb))

end MkPool.Lib.Grouping
