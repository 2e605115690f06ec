import MkPool.Utils
import MkPool.Lib.MerkleTree

/-! # `merkle.cpp`: the coinbase branch and the root it gives -/
namespace MkPool.Merkle
open MkPool.Lib MkPool.Utils

/-- `from_hex` of a text that must be 32 bytes long. -/
def hashOfHex (h : Str) : Option Hash256 := do
  let b ← hexToBytes h
  if hb : b.length = 32 then some ⟨b, hb⟩ else none

/-- `sha256d` of the 64-byte buffer with the two nodes. -/
def combine (H : Hashes) (a b : Hash256) : Hash256 := H.sha256d (a.bytes ++ b.bytes)

/-- One pass of the loop: an odd level repeats its last node, the node in
slot 1 is the sibling, and the pairs make the next level. -/
def levelStep (H : Hashes) (level : List Hash256) : Option Hash256 × List Hash256 :=
  let level := if level.length % 2 = 1 then level ++ level.getLast?.toList else level
  (level[1]?, MerkleTree.pairUp (combine H) level)

/-- The loop `while (level.size() > 1)`, run `fuel` times at most. -/
def branchLoop (H : Hashes) : Nat → List Hash256 → List Hash256 → List Hash256
  | 0, _, branch => branch
  | fuel + 1, level, branch =>
    if level.length ≤ 1 then branch
    else
      let (sibling, next) := levelStep H level
      branchLoop H fuel next (branch ++ sibling.toList)

/-- `build_branch_le_hex`. A level of `n` nodes is done in fewer than `n`
passes. -/
def buildBranchLeHex (H : Hashes) (txidsLeHex : List Str) : Option (List Str) := do
  let txids ← txidsLeHex.mapM hashOfHex
  let level := Hash256.zero :: txids
  return (branchLoop H level.length level []).map fun h => bytesToHex h.bytes

/-- `compute_root_le_hex`. -/
def computeRootLeHex (H : Hashes) (coinbaseTxidLeHex : Str) (branchLeHex : List Str) :
    Option Str := do
  let cur ← hashOfHex coinbaseTxidLeHex
  let siblings ← branchLeHex.mapM hashOfHex
  return bytesToHex (siblings.foldl (combine H) cur).bytes

/-! ## The loop computes the branch of the tree -/

theorem pairUp_repeat_last (f : Hash256 → Hash256 → Hash256) :
    ∀ l : List Hash256, l.length % 2 = 1 →
      MerkleTree.pairUp f (l ++ l.getLast?.toList) = MerkleTree.pairUp f l
  | [], h => by simp at h
  | [_], _ => rfl
  | [_, _], h => by simp at h
  | a :: b :: c :: rest, h => by
    have hodd : (c :: rest).length % 2 = 1 := by simp only [List.length_cons] at h ⊢; omega
    have ih := pairUp_repeat_last f (c :: rest) hodd
    rw [List.getLast?_cons_cons, List.getLast?_cons_cons]
    simp only [List.cons_append, MerkleTree.pairUp] at ih ⊢
    rw [ih]

theorem levelStep_eq (H : Hashes) (a b : Hash256) (rest : List Hash256) :
    levelStep H (a :: b :: rest) =
      (some b, combine H a b :: MerkleTree.pairUp (combine H) rest) := by
  unfold levelStep
  by_cases hodd : (a :: b :: rest).length % 2 = 1
  · rw [if_pos hodd]
    refine Prod.ext rfl ?_
    exact pairUp_repeat_last (combine H) _ hodd
  · rw [if_neg hodd]
    rfl

theorem branchLoop_eq (H : Hashes) :
    ∀ (fuel : Nat) (a : Hash256) (l branch : List Hash256), l.length < fuel →
      branchLoop H fuel (a :: l) branch = branch ++ MerkleTree.branch (combine H) l := by
  intro fuel
  induction fuel with
  | zero => intro a l branch h; omega
  | succ fuel ih =>
    intro a l branch h
    cases l with
    | nil => simp [branchLoop]
    | cons b rest =>
      have hlen : (MerkleTree.pairUp (combine H) rest).length < fuel := by
        rw [MerkleTree.length_pairUp]
        simp only [List.length_cons] at h
        omega
      rw [branchLoop, if_neg (by simp), levelStep_eq]
      show branchLoop H fuel _ (branch ++ [b]) = _
      rw [ih _ _ _ hlen, MerkleTree.branch_cons, List.append_assoc]
      rfl

/-! ## Reading hashes back -/

@[simp] theorem hashOfHex_bytesToHex (h : Hash256) : hashOfHex (bytesToHex h.bytes) = some h := by
  simp [hashOfHex, hexToBytes, bytesToHex, h.size]

theorem mapM_hashOfHex_bytesToHex (hs : List Hash256) :
    (hs.map fun h => bytesToHex h.bytes).mapM hashOfHex = some hs := by
  induction hs with
  | nil => rfl
  | cons h hs ih => simp [ih]

/-- **The branch is the branch of the transaction tree.** -/
theorem buildBranchLeHex_eq {H : Hashes} {txidsLeHex : List Str} {txids : List Hash256}
    (h : txidsLeHex.mapM hashOfHex = some txids) :
    buildBranchLeHex H txidsLeHex =
      some ((MerkleTree.branch (combine H) txids).map fun h => bytesToHex h.bytes) := by
  unfold buildBranchLeHex
  rw [h]
  simp only [Option.bind_eq_bind, Option.bind_some, Option.pure_def]
  rw [branchLoop_eq H _ _ _ _ (by simp), List.nil_append]

/-- **The root a share is given is the root of the block's tree.** -/
theorem computeRootLeHex_branch (H : Hashes) (coinbase : Hash256) (txids : List Hash256) :
    computeRootLeHex H (bytesToHex coinbase.bytes)
        ((MerkleTree.branch (combine H) txids).map fun h => bytesToHex h.bytes) =
      some (bytesToHex (MerkleTree.root (combine H) coinbase txids).bytes) := by
  unfold computeRootLeHex
  rw [hashOfHex_bytesToHex, mapM_hashOfHex_bytesToHex]
  simp only [Option.bind_eq_bind, Option.bind_some, Option.pure_def,
    MerkleTree.foldl_branch]

/-- Two transactions, where the hash is the first half of its input. -/
def firstHalf : Hashes where
  sha256d bs := if h : 32 ≤ bs.length then ⟨bs.take 32, by simp [h]⟩ else Hash256.zero
  scrypt _ := Hash256.zero

end MkPool.Merkle
