import Mathlib.Algebra.BigOperators.Ring.Finset
import Mathlib.Algebra.Order.BigOperators.Group.Finset

/-! # Weighted places

Things are put on places of different weights. Two places are in balance when
the first holds, for its weight, at most one thing more than the second. What
is put on a place with the least load keeps every place in balance with those
it was compared to, and what leaves a place costs at most its share. -/
namespace MkPool.Lib.Balance

open Finset

variable {ι : Type*} {w n n' : ι → Nat} {d : Nat} {i j : ι}

/-- Place `i` holds at most one thing more than `j`, up to a slack. The counts
are compared across, each with the other's weight. -/
def Within (w n : ι → Nat) (d : Nat) (i j : ι) : Prop := n i * w j ≤ n j * w i + w j + d

/-- How far `i` is from balance with `j`. -/
def excess (w n : ι → Nat) (i j : ι) : Nat := n i * w j - (n j * w i + w j)

theorem within_excess (w n : ι → Nat) (i j : ι) : Within w n (excess w n i j) i j := by
  unfold Within excess
  omega

/-- **What is added keeps the balance**, where place `i` gets it only with no
more load than `j`. -/
theorem Within.grow (h : Within w n d i j) (hj : n j ≤ n' j)
    (hi : n' i ≤ n i ∨ n' i = n i + 1 ∧ n i * w j ≤ n j * w i) : Within w n' d i j := by
  unfold Within at h ⊢
  have hmore : n j * w i ≤ n' j * w i := Nat.mul_le_mul_right _ hj
  rcases hi with hi | ⟨hi, hleast⟩
  · have hless : n' i * w j ≤ n i * w j := Nat.mul_le_mul_right _ hi
    omega
  · rw [hi, Nat.add_mul, Nat.one_mul]
    omega

/-- What leaves `j` loosens the balance by as many weights of `i`. -/
theorem Within.leave {m : Nat} (h : Within w n d i j) (hj : n j ≤ n' j + m) (hi : n' i ≤ n i) :
    Within w n' (d + w i * m) i j := by
  unfold Within at h ⊢
  have hless : n' i * w j ≤ n i * w j := Nat.mul_le_mul_right _ hi
  have hmore : n j * w i ≤ (n' j + m) * w i := Nat.mul_le_mul_right _ hj
  rw [Nat.add_mul, Nat.mul_comm m] at hmore
  omega

/-- **A place in balance with many has at most its share of them all**, and
one thing more. -/
theorem share_of_within {R : Finset ι} {left : ι → Nat}
    (h : ∀ j ∈ R, Within w n (w i * left j) i j) :
    n i * ∑ j ∈ R, w j ≤ w i * ∑ j ∈ R, (n j + left j) + ∑ j ∈ R, w j := by
  calc n i * ∑ j ∈ R, w j = ∑ j ∈ R, n i * w j := mul_sum R _ _
    _ ≤ ∑ j ∈ R, (w i * (n j + left j) + w j) := by
        refine sum_le_sum fun j hj => ?_
        have hj := h j hj
        unfold Within at hj
        rw [Nat.mul_add, Nat.mul_comm (w i) (n j)]
        omega
    _ = w i * ∑ j ∈ R, (n j + left j) + ∑ j ∈ R, w j := by
        rw [sum_add_distrib, mul_sum]

end MkPool.Lib.Balance
