import Mathlib.Data.List.Basic
import Mathlib.Data.Nat.Log

/-! # Merkle trees by levels, and the path of the first leaf

A level is combined in pairs, the last node with itself when it has no
partner. `root` climbs to a single node. `branch` keeps the partner of the
first node of each level, and folding a leaf over it gives the root of the
tree that has the leaf in the first place: the branch does not depend on that
leaf. -/
namespace MkPool.Lib.MerkleTree

variable {α : Type} (f : α → α → α)

/-- The next level up. -/
def pairUp : List α → List α
  | [] => []
  | [a] => [f a a]
  | a :: b :: rest => f a b :: pairUp rest

theorem length_pairUp : ∀ l : List α, (pairUp f l).length = (l.length + 1) / 2
  | [] => by simp [pairUp]
  | [_] => by simp [pairUp]
  | a :: b :: rest => by simp [pairUp, length_pairUp rest]; omega

/-- The root over a first leaf and the others. -/
def root (a : α) : List α → α
  | [] => a
  | b :: rest => root (f a b) (pairUp f rest)
termination_by l => l.length
decreasing_by simp [length_pairUp]; omega

/-- The partners of the first leaf on its way up. -/
def branch : List α → List α
  | [] => []
  | b :: rest => b :: branch (pairUp f rest)
termination_by l => l.length
decreasing_by simp [length_pairUp]; omega

@[simp] theorem root_nil (a : α) : root f a [] = a := by rw [root]

theorem root_cons (a b : α) (rest : List α) :
    root f a (b :: rest) = root f (f a b) (pairUp f rest) := by rw [root]

@[simp] theorem branch_nil : branch f [] = [] := by rw [branch]

theorem branch_cons (b : α) (rest : List α) :
    branch f (b :: rest) = b :: branch f (pairUp f rest) := by rw [branch]

/-- **The branch proves the leaf.** Folding the first leaf over the branch of
the others gives the root of the whole level. -/
theorem foldl_branch (a : α) (l : List α) : (branch f l).foldl f a = root f a l := by
  induction l using branch.induct f generalizing a with
  | case1 => simp
  | case2 b rest ih => rw [branch_cons, root_cons, List.foldl_cons, ih]

/-- A branch has a node for each level under the root. -/
theorem length_branch (l : List α) : (branch f l).length = Nat.clog 2 (l.length + 1) := by
  induction l using branch.induct f with
  | case1 => simp
  | case2 b rest ih =>
    have hlevel : (rest.length + 1) / 2 + 1 = (rest.length + 1 + 1 + 2 - 1) / 2 := by omega
    rw [branch_cons, List.length_cons, ih, length_pairUp, hlevel, List.length_cons,
      ← Nat.clog_of_two_le (by omega) (by omega)]

/-- The root of a level: pairs are combined, up to a single node. -/
def levelRoot : List α → Option α
  | [] => none
  | [a] => some a
  | a :: b :: rest => levelRoot (pairUp f (a :: b :: rest))
termination_by l => l.length
decreasing_by simp [length_pairUp]; omega

/-- The root does not depend on how the first leaf is set apart. -/
theorem levelRoot_cons (a : α) (l : List α) : levelRoot f (a :: l) = some (root f a l) := by
  induction a, l using root.induct f with
  | case1 a => rw [levelRoot, root_nil]
  | case2 a b rest ih =>
    rw [levelRoot, root_cons]
    exact ih

end MkPool.Lib.MerkleTree
