import MkPool.Lib.Hex
import MkPool.Lib.Wire
import Mathlib.Data.Rat.Floor
import Mathlib.Algebra.Order.Floor.Ring

/-! # `utils.hpp`: hex, byte order, header assembly and targets

A `std::string` is a list of characters, one a byte. A function that throws
returns `none`. A `double` is a rational; `llround` and `round` go to the
nearest integer, halves away from zero. -/
namespace MkPool.Utils
open MkPool.Lib

/-- `std::string`. -/
abbrev Str := List Char

instance : LawfulBEq Str := inferInstance

/-- `std::vector<std::uint8_t>`. -/
abbrev Bytes := List UInt8

/-- `std::array<std::uint8_t, 32>`. -/
structure Hash256 where
  bytes : Bytes
  size : bytes.length = 32
deriving DecidableEq

theorem Hash256.ext_bytes {a b : Hash256} (h : a.bytes = b.bytes) : a = b := by
  cases a; cases b; cases h; rfl

/-- The hash with all bytes zero. -/
def Hash256.zero : Hash256 := ⟨List.replicate 32 0, List.length_replicate⟩

/-- The same bytes in the opposite order. -/
def Hash256.reverse (h : Hash256) : Hash256 := ⟨h.bytes.reverse, by simp [h.size]⟩

@[simp] theorem Hash256.reverse_bytes (h : Hash256) : h.reverse.bytes = h.bytes.reverse := rfl

/-- The hash functions the pool calls: SHA-256d and scrypt-1024-1-1. -/
structure Hashes where
  sha256d : Bytes → Hash256
  scrypt : Bytes → Hash256

/-! ## Hex -/

def hexToBytes (h : Str) : Option Bytes := Hex.decode h

def bytesToHex (data : Bytes) : Str := Hex.encode data

def isHexDigit (c : Char) : Bool := (Hex.nibble c).isSome

def validHex (s : Str) : Bool := s.all isHexDigit && !s.isEmpty

/-- `%0<width>x` of an unsigned number, without a bound on the digits. -/
def hexPadded (width n : Nat) : Str :=
  let ds := Nat.toDigits 16 n
  List.replicate (width - ds.length) '0' ++ ds

/-- A digit as `%x` prints it. -/
theorem nibble_digitChar {d : Nat} (h : d < 16) : Hex.nibble d.digitChar = some d := by
  revert d
  decide

theorem foldl_toDigits (n : Nat) :
    (Nat.toDigits 16 n).foldl (fun acc c => 16 * acc + (Hex.nibble c).getD 0) 0 = n := by
  induction n using Nat.strongRecOn with
  | ind n ih =>
    by_cases hn : n < 16
    · rw [Nat.toDigits_of_lt_base hn]
      simp [nibble_digitChar hn]
    · have hmod : n % 16 < 16 := Nat.mod_lt _ (by omega)
      rw [Nat.toDigits_of_base_le (by omega) (by omega), List.foldl_append, ih _ (by omega)]
      simp only [List.foldl_cons, List.foldl_nil, nibble_digitChar hmod, Option.getD_some]
      omega

theorem digit_of_mem_toDigits {n : Nat} {c : Char} (h : c ∈ Nat.toDigits 16 n) :
    isHexDigit c = true := by
  induction n using Nat.strongRecOn with
  | ind n ih =>
    have digit {d : Nat} (hd : d < 16) : isHexDigit d.digitChar = true := by
      rw [isHexDigit, nibble_digitChar hd]
      rfl
    by_cases hn : n < 16
    · rw [Nat.toDigits_of_lt_base hn, List.mem_singleton] at h
      rw [h]
      exact digit hn
    · rw [Nat.toDigits_of_base_le (by omega) (by omega), List.mem_append, List.mem_singleton] at h
      rcases h with h | rfl
      · exact ih _ (by omega) h
      · exact digit (Nat.mod_lt _ (by omega))

theorem foldl_zeros (k : Nat) (s : Str) :
    (List.replicate k '0' ++ s).foldl (fun acc c => 16 * acc + (Hex.nibble c).getD 0) 0 =
      s.foldl (fun acc c => 16 * acc + (Hex.nibble c).getD 0) 0 := by
  induction k with
  | zero => rfl
  | succ k ih =>
    rw [List.replicate_succ, List.cons_append, List.foldl_cons]
    exact ih

/-- What is printed is read back. -/
theorem foldl_hexPadded (width n : Nat) :
    (hexPadded width n).foldl (fun acc c => 16 * acc + (Hex.nibble c).getD 0) 0 = n :=
  (foldl_zeros _ _).trans (foldl_toDigits n)

theorem hexPadded_injective {width a b : Nat} (h : hexPadded width a = hexPadded width b) :
    a = b := by
  rw [← foldl_hexPadded width a, h, foldl_hexPadded]

theorem digit_of_mem_hexPadded {width n : Nat} {c : Char} (h : c ∈ hexPadded width n) :
    isHexDigit c = true := by
  rcases List.mem_append.mp h with h | h
  · rw [(List.mem_replicate.mp h).2]
    rfl
  · exact digit_of_mem_toDigits h

theorem length_hexPadded {width n : Nat} (hw : 0 < width) (h : n < 16 ^ width) :
    (hexPadded width n).length = width := by
  have hdigits : (Nat.toDigits 16 n).length ≤ width :=
    (Nat.length_toDigits_le_iff (by omega) hw).mpr h
  simp only [hexPadded, List.length_append, List.length_replicate]
  omega

/-- `snprintf(buf, 3, "%02zx", n)`: two digits, and only the first two of a
longer number. -/
def hex2 (n : Nat) : Str := (hexPadded 2 n).take 2

/-- `int_to_hex`: the low `width` nibbles, most significant first. -/
def intToHex (v : UInt32) (width : Nat) : Str :=
  (List.range width).map fun i => Hex.digit (v.toNat / 16 ^ (width - 1 - i) % 16)

def leHexU64 (v : UInt64) : Str := bytesToHex (Wire.leBytes 8 v.toNat)

def leHexU32 (v : UInt32) : Str := (leHexU64 v.toUInt64).take 8

/-- `le_hex_u64(static_cast<std::uint64_t>(v))` of a signed value. -/
def leHexI64 (v : Int) : Str := leHexU64 (UInt64.ofNat (v % 2 ^ 64).toNat)

def encodeVarint (v : UInt64) : Str :=
  if v < 0xfd then bytesToHex (Wire.leBytes 1 v.toNat)
  else if v ≤ 0xffff then "fd".toList ++ bytesToHex (Wire.leBytes 2 v.toNat)
  else if v ≤ 0xffffffff then "fe".toList ++ bytesToHex (Wire.leBytes 4 v.toNat)
  else "ff".toList ++ bytesToHex (Wire.leBytes 8 v.toNat)

/-- `byte_reverse_hex`. The last character of an odd text is left as the
zero the buffer was filled with. -/
def byteReverseHex (hex : Str) : Str :=
  if hex.length % 2 = 0 then Hex.reversePairs hex
  else Hex.reversePairs hex.dropLast ++ ['\x00']

@[simp] theorem hexToBytes_bytesToHex (bs : Bytes) : hexToBytes (bytesToHex bs) = some bs :=
  Hex.decode_encode bs

theorem bytesToHex_append (as bs : Bytes) :
    bytesToHex (as ++ bs) = bytesToHex as ++ bytesToHex bs := Hex.encode_append as bs

theorem hexToBytes_append {s t : Str} {as bs : Bytes} (hs : hexToBytes s = some as)
    (ht : hexToBytes t = some bs) : hexToBytes (s ++ t) = some (as ++ bs) :=
  Hex.decode_append_some hs ht

theorem leHexU32_eq (v : UInt32) : leHexU32 v = bytesToHex (Wire.leBytes 4 v.toNat) := by
  show (Hex.encode (Wire.leBytes (4 + 4) v.toUInt64.toNat)).take (2 * 4) = _
  rw [Hex.take_encode, Wire.leBytes_take]
  rfl

@[simp] theorem hexToBytes_leHexU32 (v : UInt32) :
    hexToBytes (leHexU32 v) = some (Wire.leBytes 4 v.toNat) := by
  rw [leHexU32_eq, hexToBytes_bytesToHex]

theorem hexToBytes_byteReverseHex {s : Str} {bs : Bytes} (h : hexToBytes s = some bs) :
    hexToBytes (byteReverseHex s) = some bs.reverse := by
  have hlen := Hex.length_of_decode h
  unfold byteReverseHex
  rw [if_pos (by omega)]
  exact Hex.decode_reversePairs h

/-! ## Coinbase, header and block -/

def rebuildCoinbase (cb1 cb2 fullExtranonce : Str) : Str := cb1 ++ fullExtranonce ++ cb2

def buildBlockHeader (versionHexLe prevhashHex merklerootHex ntimeHex bitsHex nonceHex : Str) :
    Str :=
  versionHexLe ++ prevhashHex ++ merklerootHex ++ ntimeHex ++ bitsHex ++ nonceHex

def computeCoinbaseTxidLe (H : Hashes) (coinbaseHex : Str) : Option Str :=
  (hexToBytes coinbaseHex).map fun b => bytesToHex (H.sha256d b).bytes

def assembleFullBlock (headerHex coinbaseHex : Str) (txsHex : List Str) : Str :=
  headerHex ++ encodeVarint (UInt64.ofNat (1 + txsHex.length)) ++ coinbaseHex ++ txsHex.flatten

/-! ## Targets and difficulty -/

/-- A big-endian byte string as a number. -/
def beValue (bs : Bytes) : Nat := bs.foldl (fun acc b => 256 * acc + b.toNat) 0

theorem beValue_eq (bs : Bytes) : beValue bs = Wire.leValue bs.reverse := by
  induction bs using List.reverseRecOn with
  | nil => rfl
  | append_singleton bs b ih =>
    rw [List.reverse_append, List.reverse_singleton, List.singleton_append, Wire.leValue, ← ih]
    simp only [beValue, List.foldl_append, List.foldl_cons, List.foldl_nil]
    omega

theorem leBytes_beValue {n : Nat} {bs : Bytes} (h : bs.length = n) :
    Wire.leBytes n (beValue bs) = bs.reverse := by
  rw [beValue_eq, ← h, ← List.length_reverse]
  exact Wire.leBytes_leValue _

theorem beValue_lt (bs : Bytes) : beValue bs < 256 ^ bs.length := by
  rw [beValue_eq, ← List.length_reverse]
  exact Wire.leValue_lt _

/-- `le_byte_cmp(a, b) <= 0` and the loops like it: the bytes compared from
the most significant one. -/
def byteLe : Bytes → Bytes → Bool
  | a :: as, b :: bs => if a ≠ b then decide (a < b) else byteLe as bs
  | _, _ => true

theorem beValue_cons (b : UInt8) (bs : Bytes) :
    beValue (b :: bs) = b.toNat * 256 ^ bs.length + beValue bs := by
  rw [beValue_eq, beValue_eq, List.reverse_cons, Wire.leValue_append, List.length_reverse]
  simp only [Wire.leValue]
  rw [Nat.mul_zero, Nat.add_zero, Nat.mul_comm, Nat.add_comm]

theorem byteLe_iff {as bs : Bytes} (h : as.length = bs.length) :
    byteLe as bs = true ↔ beValue as ≤ beValue bs := by
  induction as generalizing bs with
  | nil =>
    obtain rfl : bs = [] := List.length_eq_zero_iff.mp h.symm
    exact iff_of_true rfl le_rfl
  | cons a as ih =>
    obtain ⟨b, bs, rfl⟩ := List.exists_cons_of_length_eq_add_one h.symm
    have hlen : as.length = bs.length := by simpa using h
    have ha := beValue_lt as
    have hb := beValue_lt bs
    rw [byteLe, beValue_cons, beValue_cons, hlen]
    rw [hlen] at ha
    by_cases heq : a = b
    · rw [if_neg (not_not.mpr heq), ih hlen, heq, Nat.add_le_add_iff_left]
    · rw [if_pos heq, decide_eq_true_iff, UInt8.lt_iff_toNat_lt]
      constructor
      · intro hlt
        have hmul := Nat.mul_le_mul_right (256 ^ bs.length) (Nat.succ_le_of_lt hlt)
        rw [Nat.succ_mul] at hmul
        omega
      · intro hle
        by_contra hnot
        have hne : b.toNat ≠ a.toNat := fun h => heq (UInt8.toNat_inj.mp h.symm)
        have hmul := Nat.mul_le_mul_right (256 ^ bs.length) (show b.toNat + 1 ≤ a.toNat by omega)
        rw [Nat.succ_mul] at hmul
        omega

/-- `out[i] = b` on the 32-byte array. -/
def Hash256.set (h : Hash256) (i : Nat) (b : UInt8) : Hash256 :=
  ⟨h.bytes.set i b, by simp [h.size]⟩

def targetFromBitsHex (bitsHex : Str) : Option Hash256 :=
  if bitsHex.length ≠ 8 then some .zero
  else do
    let b ← hexToBytes bitsHex
    let exp := (b.getD 0 0).toNat
    let mant := (b.getD 1 0).toNat * 2 ^ 16 + (b.getD 2 0).toNat * 2 ^ 8 + (b.getD 3 0).toNat
    let put (start m : Nat) : Hash256 :=
      ((Hash256.zero.set start (UInt8.ofNat (m / 2 ^ 16 % 256))).set (start + 1)
        (UInt8.ofNat (m / 2 ^ 8 % 256))).set (start + 2) (UInt8.ofNat (m % 256))
    if mant = 0 then return .zero
    else if exp < 3 then return put 29 (mant / 2 ^ ((3 - exp) * 8))
    else if 32 < exp then return .zero
    else return put (32 - exp) mant

/-! ## Numbers -/

/-- `std::llround` and `std::round`. -/
def llround (q : ℚ) : Int := if 0 ≤ q then ⌊q + 1 / 2⌋ else ⌈q - 1 / 2⌉

/-- `std::clamp`. -/
def clamp (v lo hi : ℚ) : ℚ := if v < lo then lo else if hi < v then hi else v

def isSpace (c : Char) : Bool := c = ' ' || ('\t' ≤ c && c ≤ '\r')

/-- `std::stoul(s, nullptr, 16)`: blanks, a sign, `0x`, then the longest run
of digits; no digits or a value past 64 bits throws. -/
def stoul16 (s : Str) : Option UInt64 :=
  let t := s.dropWhile isSpace
  let neg := t.head? = some '-'
  let t := if t.head? = some '-' ∨ t.head? = some '+' then t.tail else t
  let t := match t with
    | '0' :: x :: d :: rest =>
      if (x = 'x' ∨ x = 'X') ∧ isHexDigit d then d :: rest else t
    | _ => t
  let ds := t.takeWhile isHexDigit
  let v := ds.foldl (fun acc c => 16 * acc + (Hex.nibble c).getD 0) 0
  if ds.isEmpty then none
  else if 2 ^ 64 ≤ v then none
  else some (UInt64.ofNat (if neg then (2 ^ 64 - v) % 2 ^ 64 else v))

/-- `parse_hex_u32`. -/
def parseHexU32 (h : Str) : Option UInt32 :=
  if h.length ≠ 8 then none else (stoul16 h).map UInt64.toUInt32

/-- `valid_ntime`, the sum wrapping at 32 bits. -/
def validNtime (submitted mintime nowUnix : UInt32) : Bool :=
  if submitted < mintime then false
  else if nowUnix + 7200 < submitted then false
  else true

/-! ## Coinbase scripts -/

/-- The bytes of a positive number, least significant first, without a
leading zero. -/
def minimalBytes (n : Nat) : Bytes :=
  if h : n = 0 then []
  else UInt8.ofNat (n % 256) :: minimalBytes (n / 256)
termination_by n
decreasing_by exact Nat.div_lt_self (Nat.pos_of_ne_zero h) (by omega)

theorem minimalBytes_zero : minimalBytes 0 = [] := by rw [minimalBytes, dif_pos rfl]

theorem minimalBytes_pos {n : Nat} (h : n ≠ 0) :
    minimalBytes n = UInt8.ofNat (n % 256) :: minimalBytes (n / 256) := by
  rw [minimalBytes, dif_neg h]

theorem leValue_minimalBytes (n : Nat) : Wire.leValue (minimalBytes n) = n := by
  induction n using Nat.strong_induction_on with
  | _ n ih =>
    by_cases h : n = 0
    · rw [h, minimalBytes_zero]
      rfl
    · have hb : (UInt8.ofNat (n % 256)).toNat = n % 256 := by
        rw [UInt8.toNat_ofNat']
        omega
      rw [minimalBytes_pos h, Wire.leValue, ih _ (Nat.div_lt_self (by omega) (by omega)), hb]
      omega

def encodeBip34Height (height : Int) : Option Str :=
  if height < 0 then none
  else
    let b := if height = 0 then [0] else minimalBytes height.toNat
    some (hex2 b.length ++ bytesToHex b)

def encodePushBytes (data : Bytes) : Option Str :=
  if 0x4b < data.length then none else some (hex2 data.length ++ bytesToHex data)

def encodePushAscii (s : Str) : Option Str :=
  encodePushBytes (s.map fun c => UInt8.ofNat c.toNat)

end MkPool.Utils
