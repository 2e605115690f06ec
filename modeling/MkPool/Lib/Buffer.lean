import Mathlib.Data.List.Basic

/-! # Buffers of a fixed size

Every access is checked. A program that fills its buffer from the front is
followed by the front that it has filled. -/
namespace MkPool.Lib

/-- So many cells. -/
structure Buffer (α : Type) (n : Nat) where
  cells : List α
  size : cells.length = n

namespace Buffer

variable {α : Type} {n : Nat}

/-- The same in all cells. -/
def fill (n : Nat) (a : α) : Buffer α n := ⟨List.replicate n a, List.length_replicate⟩

def read (b : Buffer α n) (i : Nat) : Option α := b.cells[i]?

def write (b : Buffer α n) (i : Nat) (a : α) : Option (Buffer α n) :=
  if i < n then some ⟨b.cells.set i a, by rw [List.length_set, b.size]⟩ else none

/-- `k` cells from `i` on. -/
def slice (b : Buffer α n) (i k : Nat) : Option (List α) :=
  if i + k ≤ n then some ((b.cells.drop i).take k) else none

/-- Cells from `i` on are overwritten. -/
def store (b : Buffer α n) (i : Nat) (as : List α) : Option (Buffer α n) :=
  if h : i + as.length ≤ n then
    some ⟨b.cells.take i ++ (as ++ b.cells.drop (i + as.length)), by
      have hsize := b.size
      simp only [List.length_append, List.length_take, List.length_drop]
      omega⟩
  else none

/-- What the front of the buffer holds. -/
def Holds (b : Buffer α n) (as : List α) : Prop := as <+: b.cells

section Front

variable {b : Buffer α n} {as bs cs : List α} {a : α}

theorem holds_nil (b : Buffer α n) : b.Holds [] := List.nil_prefix

theorem Holds.left (h : b.Holds (as ++ bs)) : b.Holds as :=
  (List.prefix_append as bs).trans h

theorem Holds.length_le (h : b.Holds as) : as.length ≤ n := b.size ▸ List.IsPrefix.length_le h

theorem Holds.read (h : b.Holds as) {i : Nat} (hi : as[i]? = some a) : b.read i = some a := by
  obtain ⟨hlt, hget⟩ := List.getElem?_eq_some_iff.mp hi
  obtain ⟨rest, hcells⟩ := h
  unfold Buffer.read
  rw [← hcells, List.getElem?_append_left hlt, hi]

theorem Holds.slice (h : b.Holds (as ++ (bs ++ cs))) : b.slice as.length bs.length = some bs := by
  have hroom := h.length_le
  simp only [List.length_append] at hroom
  obtain ⟨rest, hcells⟩ := h
  unfold Buffer.slice
  rw [if_pos (by omega), ← hcells, List.append_assoc, List.drop_left, List.append_assoc,
    List.take_left]

/-- The front grows by a cell. -/
theorem Holds.write (h : b.Holds as) (hroom : as.length < n) (a : α) :
    ∃ b', b.write as.length a = some b' ∧ b'.Holds (as ++ [a]) := by
  unfold Buffer.write
  rw [if_pos hroom]
  refine ⟨_, rfl, ?_⟩
  have hsize := b.size
  obtain ⟨rest, hcells⟩ := h
  show as ++ [a] <+: b.cells.set as.length a
  cases rest with
  | nil =>
    rw [← hcells, List.length_append, List.length_nil] at hsize
    omega
  | cons x rest =>
    rw [← hcells, List.set_append_right _ _ (Nat.le_refl _), Nat.sub_self]
    exact ⟨rest, by simp⟩

/-- The front grows by several cells. -/
theorem Holds.store (h : b.Holds as) (bs : List α) (hroom : as.length + bs.length ≤ n) :
    ∃ b', b.store as.length bs = some b' ∧ b'.Holds (as ++ bs) := by
  unfold Buffer.store
  rw [dif_pos hroom]
  refine ⟨_, rfl, ?_⟩
  show as ++ bs <+: b.cells.take as.length ++ (bs ++ b.cells.drop (as.length + bs.length))
  rw [← List.prefix_iff_eq_take.mp h, ← List.append_assoc]
  exact List.prefix_append _ _

/-- A loop that writes one cell after the other. -/
theorem Holds.writes {F : Buffer α n → Nat → Option (Buffer α n)} {f : Nat → α} {s k : Nat}
    (h : b.Holds as) (hroom : as.length + k ≤ n)
    (hF : ∀ b x, s ≤ x → x < s + k → F b x = b.write (as.length + (x - s)) (f x)) :
    ∃ b', (List.range' s k).foldlM F b = some b' ∧
      b'.Holds (as ++ (List.range' s k).map f) := by
  induction k generalizing s as b with
  | zero => exact ⟨b, rfl, by simpa using h⟩
  | succ k ih =>
    obtain ⟨b₁, hwrite, h₁⟩ := h.write (by omega) (f s)
    have hstep : F b s = some b₁ := by
      rw [hF b s (Nat.le_refl s) (by omega), Nat.sub_self, Nat.add_zero, hwrite]
    have hrest : ∀ b x, s + 1 ≤ x → x < s + 1 + k →
        F b x = b.write ((as ++ [f s]).length + (x - (s + 1))) (f x) := by
      intro b x hx hlt
      rw [hF b x (by omega) (by omega), List.length_append, List.length_singleton]
      congr 1
      omega
    have hfit : (as ++ [f s]).length + k ≤ n := by
      rw [List.length_append, List.length_singleton]
      omega
    obtain ⟨b₂, hwrites, h₂⟩ := ih h₁ hfit hrest
    refine ⟨b₂, ?_, ?_⟩
    · rw [List.range'_succ, List.foldlM_cons, hstep]
      exact hwrites
    · rwa [List.range'_succ, List.map_cons, List.append_cons]

end Front

/-! ## Records of one width -/

section Records

variable {ι β : Type} {f : ι → List α} {w : Nat}

theorem length_records (hf : ∀ x, (f x).length = w) (xs : List ι) :
    (xs.flatMap f).length = w * xs.length := by
  induction xs with
  | nil => rfl
  | cons x xs ih =>
    rw [List.flatMap_cons, List.length_append, hf, ih, List.length_cons, Nat.mul_succ,
      Nat.add_comm]

/-- A record is found by its number. -/
theorem Holds.record {b : Buffer α n} {as cs : List α} {xs : List ι}
    (h : b.Holds (as ++ (xs.flatMap f ++ cs))) (hf : ∀ x, (f x).length = w) {i : Nat} {x : ι}
    (hi : xs[i]? = some x) : b.slice (as.length + w * i) w = some (f x) := by
  obtain ⟨hlt, hget⟩ := List.getElem?_eq_some_iff.mp hi
  have hsplit : xs = xs.take i ++ x :: xs.drop (i + 1) := by
    rw [← hget, ← List.drop_eq_getElem_cons hlt, List.take_append_drop]
  have hlen : (as ++ (xs.take i).flatMap f).length = as.length + w * i := by
    rw [List.length_append, length_records hf, List.length_take, Nat.min_eq_left (by omega)]
  have hparts : b.Holds ((as ++ (xs.take i).flatMap f) ++
      (f x ++ ((xs.drop (i + 1)).flatMap f ++ cs))) := by
    rw [hsplit, List.flatMap_append, List.flatMap_cons] at h
    simpa only [List.append_assoc] using h
  have hslice := hparts.slice
  rwa [hlen, hf] at hslice

/-- A loop over the numbers of records. -/
theorem mapM_records {F : Nat → Option β} {g : ι → β} {xs : List ι} {s : Nat}
    (h : ∀ i x, xs[i]? = some x → F (s + i) = some (g x)) :
    (List.range' s xs.length).mapM F = some (xs.map g) := by
  induction xs generalizing s with
  | nil => rfl
  | cons x xs ih =>
    have hhead : F s = some (g x) := h 0 x rfl
    have htail : (List.range' (s + 1) xs.length).mapM F = some (xs.map g) := by
      refine ih fun i y hy => ?_
      rw [Nat.add_right_comm, Nat.add_assoc]
      exact h (i + 1) y hy
    rw [List.length_cons, List.range'_succ, List.mapM_cons, hhead, htail]
    rfl

/-- A loop that stops at the first record of a kind. -/
theorem allM_records {F : Nat → Option Bool} {g : ι → Bool} {xs : List ι} {s : Nat}
    (h : ∀ i x, xs[i]? = some x → F (s + i) = some (g x)) :
    (List.range' s xs.length).allM F = some (xs.all g) := by
  induction xs generalizing s with
  | nil => rfl
  | cons x xs ih =>
    have hhead : F s = some (g x) := h 0 x rfl
    have htail : (List.range' (s + 1) xs.length).allM F = some (xs.all g) := by
      refine ih fun i y hy => ?_
      rw [Nat.add_right_comm, Nat.add_assoc]
      exact h (i + 1) y hy
    rw [List.length_cons, List.range'_succ, List.allM, hhead, List.all_cons]
    cases hg : g x with
    | true => exact htail
    | false => rfl

end Records

end Buffer

end MkPool.Lib
