import MkPool.AddressDecode
import Mathlib.Algebra.Order.Floor.Ring
import Mathlib.Data.Rat.Floor

/-! # `zcash.hpp`: the coinbase of the node, redirected

The functions read a transaction that nothing has checked. Each comes with what
it touches of it: the bytes it reads, the ranges it copies and the moves of its
position, which is a `size_t`. -/
namespace MkPool.Zcash
open MkPool.Lib MkPool.Utils MkPool.AddressDecode

/-! ## Reading -/

/-- One access to the transaction, or one move of the position. -/
inductive Touch where
  | read (i : Nat)
  | copy (first last : Nat)
  | move (p k : Nat)
deriving DecidableEq

/-- What a function returns, or that it throws, with what it touched. -/
structure Traced (α : Type) where
  result : Option α
  touched : List Touch

namespace Traced

variable {α β : Type}

def ret (a : α) : Traced α := ⟨some a, []⟩

def bind (t : Traced α) (f : α → Traced β) : Traced β :=
  match t.result with
  | none => ⟨none, t.touched⟩
  | some a => ⟨(f a).result, t.touched ++ (f a).touched⟩

instance : Monad Traced where
  pure := ret
  bind := bind

/-- `throw std::runtime_error` and `std::out_of_range`. -/
def throws : Traced α := ⟨none, []⟩

end Traced

/-- `raw[i]`. -/
def byteAt (raw : Bytes) (i : Nat) : Traced UInt8 := ⟨some (raw.getD i 0), [.read i]⟩

/-- The range from `raw.begin() + first` to `raw.begin() + last`. -/
def range (raw : Bytes) (first last : Nat) : Traced Bytes :=
  ⟨some ((raw.take last).drop first), [.copy first last]⟩

/-- `p += k`. -/
def advance (p k : Nat) : Traced Nat := ⟨some ((p + k) % 2 ^ 64), [.move p k]⟩

/-- As many bytes as are asked for, each by `b.at(pos++)`. -/
def readAt (b : Bytes) : Nat → Nat → Traced (Bytes × Nat)
  | 0, pos => return ([], pos)
  | k + 1, pos =>
    if b.length ≤ pos then Traced.throws
    else do
      let x ← byteAt b pos
      let pos ← advance pos 1
      let (xs, pos) ← readAt b k pos
      return (x :: xs, pos)

/-- The lambda `rd`. -/
def rd (b : Bytes) (k pos : Nat) : Traced (Nat × Nat) := do
  let (xs, pos) ← readAt b k pos
  return (Wire.leValue xs, pos)

def readCompact (b : Bytes) (pos : Nat) : Traced (Nat × Nat) :=
  if b.length ≤ pos then Traced.throws
  else do
    let n ← byteAt b pos
    let pos ← advance pos 1
    if n.toNat < 0xfd then return (n.toNat, pos)
    else if n = 0xfd then rd b 2 pos
    else if n = 0xfe then rd b 4 pos
    else rd b 8 pos

/-- There is no form of nine bytes. -/
def writeCompact (n : Nat) : Bytes :=
  if n < 0xfd then [UInt8.ofNat n]
  else if n ≤ 0xffff then 0xfd :: Wire.leBytes 2 n
  else 0xfe :: Wire.leBytes 4 n

/-! ## The layout -/

/-- An entry of `outputs`: where the value and the script start, and the length
of the script. -/
structure OutputAt where
  value : Nat
  script : Nat
  length : Nat
deriving DecidableEq

structure CoinbaseLayout where
  voutCountPos : Nat
  outputsStart : Nat
  outputsEnd : Nat
  outputs : List OutputAt

/-- The loop over the inputs. -/
def skipInputs (raw : Bytes) : Nat → Nat → Traced Nat
  | 0, p => return p
  | vin + 1, p => do
    let p ← advance p 36
    let (sl, p) ← readCompact raw p
    let p ← advance p sl
    let p ← advance p 4
    skipInputs raw vin p

/-- The loop over the outputs. -/
def scanOutputs (raw : Bytes) : Nat → Nat → Traced (List OutputAt × Nat)
  | 0, p => return ([], p)
  | vout + 1, p => do
    let vstart := p
    let p ← advance p 8
    let (sl, p) ← readCompact raw p
    let output : OutputAt := ⟨vstart, p, sl⟩
    let p ← advance p sl
    let (outputs, p) ← scanOutputs raw vout p
    return (output :: outputs, p)

def parseLayout (raw : Bytes) : Traced CoinbaseLayout := do
  let (vin, p) ← readCompact raw 20
  let p ← skipInputs raw vin p
  let (vout, start) ← readCompact raw p
  let (outputs, last) ← scanOutputs raw vout start
  return { voutCountPos := p, outputsStart := start, outputsEnd := last, outputs := outputs }

/-! ## The transaction id -/

/-- BLAKE2b-256 with a personalization, of libsodium. -/
abbrev Blake2b := Bytes → Bytes → Hash256

/-- The loop over the inputs, with `prevouts` and `sequences`. -/
def gatherInputs (raw : Bytes) : Nat → Nat → Bytes → Bytes → Traced (Bytes × Bytes × Nat)
  | 0, p, prevouts, sequences => return (prevouts, sequences, p)
  | vin + 1, p, prevouts, sequences => do
    let prevout ← range raw p (p + 36)
    let p ← advance p 36
    let (sl, p) ← readCompact raw p
    let p ← advance p sl
    let sequence ← range raw p (p + 4)
    let p ← advance p 4
    gatherInputs raw vin p (prevouts ++ prevout) (sequences ++ sequence)

/-- The loop over the outputs. -/
def skipOutputs (raw : Bytes) : Nat → Nat → Traced Nat
  | 0, p => return p
  | vout + 1, p => do
    let p ← advance p 8
    let (sl, p) ← readCompact raw p
    let p ← advance p sl
    skipOutputs raw vout p

def personal (s : String) : Bytes := s.toList.map fun c => UInt8.ofNat c.toNat

def zip244Txid (blake : Blake2b) (raw : Bytes) : Traced Hash256 := do
  let header ← range raw 0 20
  let branch ← [8, 9, 10, 11].mapM (byteAt raw)
  let (vin, p) ← readCompact raw 20
  let (prevouts, sequences, p) ← gatherInputs raw vin p [] []
  let (vout, ods) ← readCompact raw p
  let p ← skipOutputs raw vout ods
  let outputs ← range raw ods p
  let hd := blake (personal "ZTxIdHeadersHash") header
  let pd := blake (personal "ZTxIdPrevoutHash") prevouts
  let sqd := blake (personal "ZTxIdSequencHash") sequences
  let od := blake (personal "ZTxIdOutputsHash") outputs
  let td := blake (personal "ZTxIdTranspaHash") (pd.bytes ++ sqd.bytes ++ od.bytes)
  let sd := blake (personal "ZTxIdSaplingHash") []
  let orchd := blake (personal "ZTxIdOrchardHash") []
  return blake (personal "ZcashTxHash_" ++ branch)
    (hd.bytes ++ td.bytes ++ sd.bytes ++ orchd.bytes)

/-! ## The payout -/

def appendOutput (outs : Bytes) (value : Nat) (script : Bytes) : Bytes :=
  outs ++ Wire.leBytes 8 value ++ writeCompact script.length ++ script

/-- The value of an output, by eight reads. -/
def valueAt (raw : Bytes) (o : OutputAt) : Traced Nat := do
  let xs ← (List.range 8).mapM fun b => byteAt raw (o.value + b)
  return Wire.leValue xs

/-- The loop for `mi` and `best`, from the output with index `i`. -/
def findBest (raw : Bytes) : List OutputAt → Nat → Nat × Nat → Traced (Nat × Nat)
  | [], _, found => return found
  | o :: outputs, i, (mi, best) => do
    let v ← valueAt raw o
    findBest raw outputs (i + 1) (if best ≤ v then (i, v) else (mi, best))

/-- `donation_val`, with `split`. The sum is taken exactly, and cut off. -/
def donationVal (minerVal : Nat) (donationScript : Bytes) (percent : ℚ) : Nat × Bool :=
  if donationScript ≠ [] ∧ 0 < percent then
    let donation := ⌊(minerVal : ℚ) * percent / 100 + 1 / 2⌋.toNat
    if donation = 0 ∨ minerVal ≤ donation then (0, false) else (donation, true)
  else (0, false)

/-- The loop that writes the outputs again, from the output with index `i`:
`newouts` and `out_count`. -/
def rewrite (raw : Bytes) (mi minerVal : Nat) (donation : Nat × Bool)
    (minerScript donationScript : Bytes) : List OutputAt → Nat → Bytes × Nat → Traced (Bytes × Nat)
  | [], _, done => return done
  | o :: outputs, i, (newouts, count) => do
    let done ←
      if i = mi then
        let newouts := appendOutput newouts (minerVal - donation.1) minerScript
        if donation.2 then
          pure (appendOutput newouts donation.1 donationScript, count + 2)
        else pure (newouts, count + 1)
      else do
        let value ← range raw o.value (o.value + 8)
        let script ← range raw o.script (o.script + o.length)
        pure (newouts ++ value ++ writeCompact o.length ++ script, count + 1)
    rewrite raw mi minerVal donation minerScript donationScript outputs (i + 1) done

def swapMinerOutput (raw minerScript donationScript : Bytes) (percent : ℚ) : Traced Bytes := do
  let l ← parseLayout raw
  if l.outputs = [] ∨ minerScript = [] then return []
  else do
    let (mi, best) ← findBest raw l.outputs 0 (0, 0)
    let donation := donationVal best donationScript percent
    let (newouts, count) ←
      rewrite raw mi best donation minerScript donationScript l.outputs 0 ([], 0)
    let front ← range raw 0 l.voutCountPos
    let rest ← range raw l.outputsEnd raw.length
    return front ++ writeCompact count ++ newouts ++ rest

/-! ## Transparent addresses -/

/-- The alphabet in `b58_decode`. -/
def b58Alphabet : Str := "123456789ABCDEFGHJKLMNPQRSTUVWXYZabcdefghijkmnopqrstuvwxyz".toList

/-- One character: the carry goes through the digits, and what is left of it
makes new ones. -/
def b58Carry (carry : Nat) : Bytes → Bytes
  | [] => minimalBytes carry
  | d :: b =>
    let carry := carry + 58 * d.toNat
    UInt8.ofNat (carry % 256) :: b58Carry (carry / 256) b

/-- The loop over the characters. -/
def b58Digits : Str → Bytes → Option Bytes
  | [], b => some b
  | c :: s, b =>
    match b58Alphabet.idxOf? c with
    | none => none
    | some digit => b58Digits s (b58Carry digit b)

def b58Decode (s : Str) : Option Bytes := do
  let b ← b58Digits s []
  return (b ++ List.replicate (s.takeWhile (· == '1')).length 0).reverse

def taddrToScript (sha256d : Bytes → Hash256) (addr : Str) : Bytes :=
  match b58Decode addr with
  | none => []
  | some raw =>
    if raw.length ≠ 26 then []
    else
      let body := raw.take (raw.length - 4)
      if raw.drop (raw.length - 4) ≠ (sha256d body).bytes.take 4 then []
      else
        let ver := (raw.getD 0 0).toNat * 256 + (raw.getD 1 0).toNat
        let h160 := (raw.take 22).drop 2
        if ver = 0x1cb8 ∨ ver = 0x1d25 then [0x76, 0xa9, 0x14] ++ h160 ++ [0x88, 0xac]
        else if ver = 0x1cbd ∨ ver = 0x1cba then [0xa9, 0x14] ++ h160 ++ [0x87]
        else []

end MkPool.Zcash
