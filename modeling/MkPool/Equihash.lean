import MkPool.Lib.Buffer
import MkPool.Zcash

/-! # `equihash.hpp`: the verifier of Equihash (200, 9)

An access outside of a buffer is `none`, and so is an assertion that fails. -/
namespace MkPool.Equihash
open MkPool.Lib MkPool.Utils MkPool.Zcash

/-! ## Unpacking -/

/-- The variables of the loop of `ExpandArray`. `accValue` is a `uint32_t`. -/
structure Expanding (n : Nat) where
  accBits : Nat
  accValue : Nat
  j : Nat
  out : Buffer UInt8 n

/-- One byte of the input. -/
def expandByte {n : Nat} (inp : Bytes) (bitLen bytePad outWidth : Nat) (s : Expanding n) (i : Nat) :
    Option (Expanding n) := do
  let b ← inp[i]?
  let accValue := (s.accValue <<< 8 ||| b.toNat) % 2 ^ 32
  let accBits := s.accBits + 8
  if bitLen ≤ accBits then
    let accBits := accBits - bitLen
    let mask := 1 <<< bitLen - 1
    let out ← (List.range' 0 bytePad).foldlM (fun out x => out.write (s.j + x) 0) s.out
    let out ← (List.range' bytePad (outWidth - bytePad)).foldlM (fun out x =>
      out.write (s.j + x) (UInt8.ofNat ((accValue >>> (accBits + 8 * (outWidth - x - 1))) &&&
        ((mask >>> (8 * (outWidth - x - 1))) &&& 0xff)))) out
    return ⟨accBits, accValue, s.j + outWidth, out⟩
  else return ⟨accBits, accValue, s.j, s.out⟩

/-- The input is what its pointer points to, up to the end of that buffer. -/
def expandArray {n : Nat} (inp : Bytes) (inLen : Nat) (out : Buffer UInt8 n)
    (outLen bitLen bytePad : Nat) : Option (Buffer UInt8 n) :=
  let outWidth := (bitLen + 7) / 8 + bytePad
  if bitLen < 8 ∨ outLen ≠ 8 * outWidth * inLen / bitLen then none
  else do
    let done ← (List.range' 0 inLen).foldlM (expandByte inp bitLen bytePad outWidth) ⟨0, 0, 0, out⟩
    return done.out

def getIndicesFromMinimal (soln : Bytes) (cBitLen : Nat) : Option (List Nat) := do
  let lenIndices := 8 * 4 * soln.length / (cBitLen + 1)
  let bytePad := 4 - (cBitLen + 1 + 7) / 8
  let array ← expandArray soln soln.length (Buffer.fill lenIndices 0) lenIndices (cBitLen + 1)
    bytePad
  (List.range' 0 ((lenIndices + 3) / 4)).mapM fun i => do
    let bei ← array.slice (0 + 4 * i) 4
    return beValue bei

/-! ## Rows -/

/-- `hash[2054]`. -/
abbrev StepRow := Buffer UInt8 2054

namespace StepRow

def zeros : StepRow := Buffer.fill 2054 0

def init (row : StepRow) (hashIn : Bytes) (hInLen hLen cBitLen index : Nat) : Option StepRow := do
  let row ← expandArray hashIn hInLen row hLen cBitLen 0
  row.store hLen (Wire.leBytes 4 index).reverse

def initCollide (row a b : StepRow) (len lenIndices trim : Nat) : Option StepRow := do
  let row ← (List.range' trim (len - trim)).foldlM (fun row i => do
    let x ← Buffer.read a i
    let y ← Buffer.read b i
    Buffer.write row (i - trim) (x ^^^ y)) row
  let ia ← Buffer.slice a len lenIndices
  let ib ← Buffer.slice b len lenIndices
  if !byteLe ib ia then do
    let row ← Buffer.store row (len - trim) ia
    Buffer.store row (len - trim + lenIndices) ib
  else do
    let row ← Buffer.store row (len - trim) ib
    Buffer.store row (len - trim + lenIndices) ia

def isZero (row : StepRow) (len : Nat) : Option Bool :=
  (List.range' 0 len).allM fun i => do
    let x ← Buffer.read row i
    return x == 0

end StepRow

def distinctIndices (a b : StepRow) (len lenIndices : Nat) : Option Bool :=
  (List.range' 0 ((lenIndices + 3) / 4)).allM fun i =>
    (List.range' 0 ((lenIndices + 3) / 4)).allM fun j => do
      let x ← a.slice (len + 4 * i) 4
      let y ← b.slice (len + 4 * j) 4
      return x != y

/-! ## The verifier -/

/-- What BLAKE2b gives when fifty bytes are asked for. -/
structure HashOutput where
  bytes : Bytes
  size : bytes.length = 50

/-- BLAKE2b of libsodium, with a personalization and without a key. Its set-up
succeeds for fifty bytes. -/
abbrev Blake2b50 := Bytes → Bytes → HashOutput

def personalization : Bytes := personal "ZcashPoW" ++ Wire.leBytes 4 200 ++ Wire.leBytes 4 9

/-- The row of an index, in the loop that fills `X`. -/
def initialRow (blake : Blake2b50) (header : Bytes) (idx : Nat) : Option StepRow :=
  let tmpHash := blake personalization (header ++ Wire.leBytes 4 (idx / 2))
  let offset := idx % 2 * 25
  StepRow.zeros.init (tmpHash.bytes.drop offset) 25 30 20 idx

/-- Two rows of a round. No row is left where the source returns `false`. -/
def collide (a b : StepRow) (hashLen lenIndices : Nat) : Option (Option StepRow) := do
  let ha ← a.slice 0 3
  let hb ← b.slice 0 3
  if ha ≠ hb then return none
  let ia ← a.slice hashLen lenIndices
  let ib ← b.slice hashLen lenIndices
  if !byteLe ia ib then return none
  let distinct ← distinctIndices a b hashLen lenIndices
  if !distinct then return none
  let row ← StepRow.zeros.initCollide a b hashLen lenIndices 3
  return some row

/-- One round. -/
def collideAll (hashLen lenIndices : Nat) : List StepRow → Option (Option (List StepRow))
  | [] => return some []
  | [_] => none
  | a :: b :: rows => do
    match ← collide a b hashLen lenIndices with
    | none => return none
    | some row =>
      match ← collideAll hashLen lenIndices rows with
      | none => return none
      | some rows => return some (row :: rows)

/-- The loop over the rounds. It is given more than there are rounds. -/
def solve : Nat → List StepRow → Nat → Nat → Option Bool
  | 0, _, _, _ => none
  | fuel + 1, rows, hashLen, lenIndices =>
    if 1 < rows.length then do
      match ← collideAll hashLen lenIndices rows with
      | none => return false
      | some rows => solve fuel rows (hashLen - 3) (lenIndices * 2)
    else
      match rows with
      | [row] => row.isZero hashLen
      | _ => none

def verify200_9 (blake : Blake2b50) (header soln : Bytes) : Option Bool :=
  if soln.length ≠ 1344 then return false
  else do
    let indices ← getIndicesFromMinimal soln 20
    if indices.length ≠ 512 then return false
    else do
      let rows ← indices.mapM (initialRow blake header)
      solve rows.length rows 30 4

end MkPool.Equihash
