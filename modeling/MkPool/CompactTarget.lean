import Mathlib.Data.Rat.Floor
import Mathlib.Tactic.IntervalCases
import MkPool.Utils

/-! # The two expansions of a compact target

`target_from_bits_hex` of `utils.hpp` reads the text of a template, and
`compact_to_target_hex` of `network_stats.cpp` a word. Here an index or a shift
out of range leaves either without a result. -/
namespace MkPool.CompactTarget
open MkPool.Lib MkPool.Utils

/-! ## The source, with its bounds -/

/-- `out[i] = b`. -/
def store (out : Hash256) (i : Int) (b : UInt8) : Option Hash256 :=
  if 0 ≤ i ∧ i < 32 then some (out.set i.toNat b) else none

/-- `v >> n` of 32 bits. -/
def shiftRight (v : UInt32) (n : Nat) : Option UInt32 :=
  if n < 32 then some (v >>> UInt32.ofNat n) else none

/-- `(v >> n) & 0xff`, where `n` is 16, 8 or 0. -/
def byteAt (v : UInt32) (n : UInt32) : UInt8 := ((v >>> n) &&& 0xff).toUInt8

/-- Three bytes of a mantissa, from `start` on. -/
def storeMantissa (start : Int) (m : UInt32) : Option Hash256 := do
  let out ← store .zero start (byteAt m 16)
  let out ← store out (start + 1) (byteAt m 8)
  store out (start + 2) (byteAt m 0)

def targetFromBitsHex (bitsHex : Str) : Option Hash256 :=
  if bitsHex.length ≠ 8 then some .zero
  else do
    let b ← hexToBytes bitsHex
    let exp ← b[0]?
    let b1 ← b[1]?
    let b2 ← b[2]?
    let b3 ← b[3]?
    let mant : UInt32 := (b1.toUInt32 <<< 16) ||| (b2.toUInt32 <<< 8) ||| b3.toUInt32
    if mant = 0 then return .zero
    let shift : Int := exp.toNat - 3
    if shift < 0 then
      let m ← shiftRight mant ((-shift).toNat * 8)
      storeMantissa 29 m
    else
      let start := 32 - (3 + shift)
      if start < 0 then return .zero
      storeMantissa start mant

def compactToTargetHex (bits : UInt32) : Option Str := do
  let mant := bits &&& 0x00FFFFFF
  let exp := (bits >>> 24) &&& 0xFF
  let t ←
    if exp ≤ 3 then do
      let mant ← shiftRight mant (8 * (3 - exp)).toNat
      storeMantissa 29 mant
    else if exp ≤ 32 then do
      let off := (32 - exp).toNat
      let t ← store .zero off (byteAt mant 16)
      let t ← (if off + 1 < 32 then store t (off + 1) (byteAt mant 8) else some t)
      (if off + 2 < 32 then store t (off + 2) (byteAt mant 0) else some t)
    else some .zero
  return bytesToHex t.bytes

/-! ## Words -/

/-- The exponent byte. -/
def exponent (w : UInt32) : Nat := w.toNat / 2 ^ 24

/-- The mantissa, of 24 bits. -/
def mantissa (w : UInt32) : Nat := w.toNat % 2 ^ 24

/-- The word in the order of its text. -/
def wordBytes (w : UInt32) : Bytes := (Wire.leBytes 4 w.toNat).reverse

/-- The number of a compact word. -/
def expanded (w : UInt32) : Nat :=
  if exponent w ≤ 32 then mantissa w * 256 ^ exponent w / 256 ^ 3 else 0

theorem exponent_lt (w : UInt32) : exponent w < 256 := by
  have := w.toNat_lt
  unfold exponent
  omega

theorem mantissa_lt (w : UInt32) : mantissa w < 2 ^ 24 := Nat.mod_lt _ (by decide)

/-! ## Three bytes in a target -/

theorem beValue_append (as bs : Bytes) :
    beValue (as ++ bs) = beValue as * 256 ^ bs.length + beValue bs := by
  rw [beValue_eq, beValue_eq, beValue_eq, List.reverse_append, Wire.leValue_append,
    List.length_reverse, Nat.mul_comm, Nat.add_comm]

theorem beValue_zeros (k : Nat) : beValue (List.replicate k 0) = 0 := by
  rw [beValue_eq, List.reverse_replicate, ← Wire.leBytes_zero]
  exact Wire.leValue_leBytes (Nat.pow_pos (by omega))

theorem toNat_byteAt (m : UInt32) :
    (byteAt m 16).toNat = m.toNat / 2 ^ 16 % 256 ∧ (byteAt m 8).toNat = m.toNat / 2 ^ 8 % 256 ∧
      (byteAt m 0).toNat = m.toNat % 256 := by
  have hmask (n : Nat) : n &&& 255 = n % 256 := Nat.and_two_pow_sub_one_eq_mod n 8
  refine ⟨?_, ?_, ?_⟩ <;>
    simp [byteAt, hmask, Nat.shiftRight_eq_div_pow]

theorem sum_bytes {m : Nat} (hm : m < 2 ^ 24) :
    m / 2 ^ 16 % 256 * 2 ^ 16 + m / 2 ^ 8 % 256 * 2 ^ 8 + m % 256 = m := by omega

/-- Three bytes at a place. -/
theorem beValue_placed {start : Nat} (hs : start ≤ 29) (a b c : UInt8) :
    beValue (((Hash256.zero.set start a).set (start + 1) b).set (start + 2) c).bytes =
      (a.toNat * 2 ^ 16 + b.toNat * 2 ^ 8 + c.toNat) * 256 ^ (29 - start) := by
  have hbytes : (((Hash256.zero.set start a).set (start + 1) b).set (start + 2) c).bytes =
      List.replicate start 0 ++ ([a, b, c] ++ List.replicate (29 - start) 0) := by
    interval_cases start <;> rfl
  have hthree : beValue [a, b, c] = a.toNat * 2 ^ 16 + b.toNat * 2 ^ 8 + c.toNat := by
    simp only [beValue, List.foldl_cons, List.foldl_nil]
    omega
  rw [hbytes, beValue_append, beValue_append, beValue_zeros, beValue_zeros, hthree,
    List.length_replicate, Nat.zero_mul, Nat.zero_add, Nat.add_zero]

theorem hash_of_beValue {a b : Hash256} (h : beValue a.bytes = beValue b.bytes) : a = b := by
  refine Hash256.ext_bytes (List.reverse_injective ?_)
  rw [← leBytes_beValue a.size, h, leBytes_beValue b.size]

/-- The bytes of a mantissa at a place. -/
theorem storeMantissa_value (start : Nat) (m : UInt32) (hs : start ≤ 29) (hm : m.toNat < 2 ^ 24) :
    ∃ t, storeMantissa start m = some t ∧ beValue t.bytes = m.toNat * 256 ^ (29 - start) := by
  have hplaced : storeMantissa start m =
      some (((Hash256.zero.set start (byteAt m 16)).set (start + 1) (byteAt m 8)).set (start + 2)
        (byteAt m 0)) := by
    have hstore (out : Hash256) {i : Nat} (hi : i < 32) (b : UInt8) :
        store out i b = some (out.set i b) := if_pos ⟨by omega, by omega⟩
    show (store .zero start (byteAt m 16)).bind (fun out =>
      (store out (start + 1 : Nat) (byteAt m 8)).bind fun out =>
        store out (start + 2 : Nat) (byteAt m 0)) = _
    rw [hstore _ (by omega), Option.bind_some, hstore _ (by omega), Option.bind_some,
      hstore _ (by omega)]
  refine ⟨_, hplaced, ?_⟩
  obtain ⟨ha, hb, hc⟩ := toNat_byteAt m
  rw [beValue_placed hs, ha, hb, hc, sum_bytes hm]

/-! ## The two expansions -/

section Expansions
variable {w : UInt32}

/-- A mantissa above the bytes it is cut to. -/
theorem expanded_small (h : exponent w < 3) :
    expanded w = mantissa w / 256 ^ (3 - exponent w) := by
  have hsplit : 256 ^ 3 = 256 ^ (3 - exponent w) * 256 ^ exponent w := by
    rw [← pow_add]
    congr 1
    omega
  rw [expanded, if_pos (by omega), hsplit]
  exact Nat.mul_div_mul_right _ _ (Nat.pow_pos (by omega))

theorem expanded_large (h : 3 ≤ exponent w) (hle : exponent w ≤ 32) :
    expanded w = mantissa w * 256 ^ (exponent w - 3) := by
  have hsplit : 256 ^ exponent w = 256 ^ (exponent w - 3) * 256 ^ 3 := by
    rw [← pow_add]
    congr 1
    omega
  rw [expanded, if_pos hle, hsplit, ← Nat.mul_assoc]
  exact Nat.mul_div_cancel _ (by decide)

/-- What both write. -/
theorem storeMantissa_small {m : UInt32} (hm : m.toNat = mantissa w) (h : exponent w < 3) :
    ∃ m' t, shiftRight m (8 * (3 - exponent w)) = some m' ∧ storeMantissa 29 m' = some t ∧
      beValue t.bytes = expanded w := by
  have hlt := mantissa_lt w
  have hshift : shiftRight m (8 * (3 - exponent w)) =
      some (m >>> UInt32.ofNat (8 * (3 - exponent w))) := if_pos (by omega)
  have hvalue : (m >>> UInt32.ofNat (8 * (3 - exponent w))).toNat = expanded w := by
    have hsmall : 8 * (3 - exponent w) % 2 ^ 32 % 32 = 8 * (3 - exponent w) := by omega
    rw [expanded_small h, UInt32.toNat_shiftRight, UInt32.toNat_ofNat', hsmall,
      Nat.shiftRight_eq_div_pow, hm, pow_mul]
    norm_num
  have hle : expanded w ≤ mantissa w := by
    rw [expanded_small h]
    exact Nat.div_le_self _ _
  obtain ⟨t, ht, hv⟩ := storeMantissa_value 29 (m >>> UInt32.ofNat (8 * (3 - exponent w))) le_rfl
    (by omega)
  exact ⟨_, t, hshift, ht, by rw [hv, hvalue, Nat.sub_self, pow_zero, Nat.mul_one]⟩

theorem storeMantissa_large {m : UInt32} (hm : m.toNat = mantissa w) (h : 3 ≤ exponent w)
    (hle : exponent w ≤ 32) :
    ∃ t, storeMantissa (32 - exponent w : Nat) m = some t ∧ beValue t.bytes = expanded w := by
  have hlt := mantissa_lt w
  obtain ⟨t, ht, hv⟩ := storeMantissa_value (32 - exponent w) m (by omega) (by omega)
  refine ⟨t, ht, ?_⟩
  rw [hv, hm, expanded_large h hle]
  congr 2
  omega

theorem wordBytes_eq (w : UInt32) : wordBytes w =
    [UInt8.ofNat (exponent w), UInt8.ofNat (mantissa w / 2 ^ 16),
      UInt8.ofNat (mantissa w / 2 ^ 8 % 256), UInt8.ofNat (mantissa w % 256)] := by
  have hw := w.toNat_lt
  have h0 : w.toNat % 256 = mantissa w % 256 := by unfold mantissa; omega
  have h1 : w.toNat / 256 % 256 = mantissa w / 2 ^ 8 % 256 := by unfold mantissa; omega
  have h2 : w.toNat / 256 / 256 % 256 = mantissa w / 2 ^ 16 := by unfold mantissa; omega
  have h3 : w.toNat / 256 / 256 / 256 % 256 = exponent w := by unfold exponent; omega
  rw [wordBytes, Wire.leBytes, Wire.leBytes, Wire.leBytes, Wire.leBytes, Wire.leBytes, h0, h1, h2,
    h3]
  rfl

/-- The mantissa as it is put together from its bytes. -/
theorem mantissa_bytes (w : UInt32) :
    ((UInt8.ofNat (mantissa w / 2 ^ 16)).toUInt32 <<< 16 |||
      (UInt8.ofNat (mantissa w / 2 ^ 8 % 256)).toUInt32 <<< 8 |||
        (UInt8.ofNat (mantissa w % 256)).toUInt32).toNat = mantissa w := by
  have hlt := mantissa_lt w
  have hbyte (n : Nat) (hn : n < 256) : (UInt8.ofNat n).toUInt32.toNat = n := by
    rw [UInt8.toNat_toUInt32, UInt8.toNat_ofNat']
    omega
  have hlow : mantissa w / 2 ^ 8 % 256 * 2 ^ 8 < 2 ^ 16 := by omega
  have hhigh : (mantissa w / 2 ^ 16) <<< 16 ||| (mantissa w / 2 ^ 8 % 256) <<< 8 =
      (mantissa w / 2 ^ 8) <<< 8 := by
    rw [Nat.shiftLeft_eq (mantissa w / 2 ^ 8 % 256), ← Nat.shiftLeft_add_eq_or_of_lt hlow,
      Nat.shiftLeft_eq, Nat.shiftLeft_eq]
    omega
  have hlast : mantissa w % 256 < 2 ^ 8 := Nat.mod_lt _ (by decide)
  rw [UInt32.toNat_or, UInt32.toNat_or, UInt32.toNat_shiftLeft, UInt32.toNat_shiftLeft,
    hbyte _ (by omega), hbyte _ (by omega), hbyte _ (by omega)]
  have htop : mantissa w / 2 ^ 16 * 2 ^ 16 < 2 ^ 32 :=
    (Nat.div_mul_le_self _ _).trans_lt (hlt.trans (by decide))
  have hmid : mantissa w / 2 ^ 8 % 256 * 2 ^ 8 < 2 ^ 32 := hlow.trans (by decide)
  have h16 : (16 : UInt32).toNat % 32 = 16 := rfl
  have h8 : (8 : UInt32).toNat % 32 = 8 := rfl
  have hfits (n k : Nat) (hn : n * 2 ^ k < 2 ^ 32) : (n <<< k) % 2 ^ 32 = n <<< k :=
    Nat.mod_eq_of_lt (by rwa [Nat.shiftLeft_eq])
  rw [h16, h8, hfits _ _ htop, hfits _ _ hmid, hhigh, ← Nat.shiftLeft_add_eq_or_of_lt hlast,
    Nat.shiftLeft_eq]
  exact Nat.div_add_mod' _ _

theorem target_of_word {text : Str} (h : hexToBytes text = some (wordBytes w)) :
    ∃ t, targetFromBitsHex text = some t ∧ beValue t.bytes = expanded w := by
  have hlen : text.length = 8 := by
    rw [Hex.length_of_decode h]
    rfl
  have hmant := mantissa_bytes w
  have hexp := exponent_lt w
  have hE : (UInt8.ofNat (exponent w)).toNat = exponent w := by
    rw [UInt8.toNat_ofNat']
    omega
  unfold targetFromBitsHex
  rw [if_neg (not_not.mpr hlen), h, wordBytes_eq]
  simp only [Option.bind_eq_bind, Option.bind_some, List.getElem?_cons_zero,
    List.getElem?_cons_succ, hE]
  generalize (UInt8.ofNat (mantissa w / 2 ^ 16)).toUInt32 <<< 16 |||
      (UInt8.ofNat (mantissa w / 2 ^ 8 % 256)).toUInt32 <<< 8 |||
        (UInt8.ofNat (mantissa w % 256)).toUInt32 = mant at hmant ⊢
  by_cases hzero : mant = 0
  · refine ⟨.zero, if_pos hzero, ?_⟩
    have hnone : mantissa w = 0 := by
      rw [← hmant, hzero]
      rfl
    unfold expanded
    rw [hnone, Nat.zero_mul, Nat.zero_div, ite_self]
    rfl
  · rw [if_neg hzero]
    by_cases hsmall : exponent w < 3
    · obtain ⟨m', t, hshift, ht, hv⟩ := storeMantissa_small hmant hsmall
      refine ⟨t, ?_, hv⟩
      have hback : (-((exponent w : Int) - 3)).toNat * 8 = 8 * (3 - exponent w) := by omega
      rw [if_pos (by omega), hback, hshift]
      exact ht
    · rw [if_neg (by omega)]
      by_cases hle : exponent w ≤ 32
      · obtain ⟨t, ht, hv⟩ := storeMantissa_large hmant (by omega) hle
        refine ⟨t, ?_, hv⟩
        have hstart : (32 : Int) - (3 + ((exponent w : Int) - 3)) = (32 - exponent w : Nat) := by
          omega
        rw [hstart, if_neg (by omega)]
        exact ht
      · refine ⟨.zero, if_pos (by omega), ?_⟩
        unfold expanded
        rw [if_neg hle]
        rfl

theorem target_of_bits (w : UInt32) :
    ∃ t : Hash256, compactToTargetHex w = some (bytesToHex t.bytes) ∧
      beValue t.bytes = expanded w := by
  have hexp := exponent_lt w
  have hmant : (w &&& 0x00FFFFFF).toNat = mantissa w := by
    rw [UInt32.toNat_and]
    exact Nat.and_two_pow_sub_one_eq_mod _ 24
  have hE : ((w >>> 24) &&& 0xFF).toNat = exponent w := by
    rw [UInt32.toNat_and, UInt32.toNat_shiftRight, Nat.shiftRight_eq_div_pow]
    exact (Nat.and_two_pow_sub_one_eq_mod _ 8).trans (Nat.mod_eq_of_lt hexp)
  unfold compactToTargetHex
  dsimp only
  generalize (w >>> 24) &&& 0xFF = exp at hE ⊢
  generalize w &&& 0x00FFFFFF = mant at hmant ⊢
  have hle : exp ≤ 3 ↔ exponent w ≤ 3 := by
    rw [← hE]
    exact UInt32.le_iff_toNat_le
  have hle' : exp ≤ 32 ↔ exponent w ≤ 32 := by
    rw [← hE]
    exact UInt32.le_iff_toNat_le
  by_cases hthree : exponent w ≤ 3
  · rw [if_pos (hle.mpr hthree)]
    have hback : (8 * (3 - exp)).toNat = 8 * (3 - exponent w) := by
      rw [← hE]
      have hsub : (3 - exp).toNat = 3 - exp.toNat := UInt32.toNat_sub_of_le _ _ (hle.mpr hthree)
      have height : (8 : UInt32).toNat = 8 := rfl
      rw [UInt32.toNat_mul, hsub, height]
      exact Nat.mod_eq_of_lt (by omega)
    rw [hback]
    rcases Nat.lt_or_eq_of_le hthree with hsmall | hthree
    · obtain ⟨m', t, hshift, ht, hv⟩ := storeMantissa_small hmant hsmall
      refine ⟨t, ?_, hv⟩
      rw [hshift, Option.bind_eq_bind, Option.bind_some, ht]
      rfl
    · obtain ⟨t, ht, hv⟩ := storeMantissa_large hmant (by omega) (by omega)
      refine ⟨t, ?_, hv⟩
      rw [hthree] at ht ⊢
      have hshift : shiftRight mant (8 * (3 - 3)) = some mant := by
        unfold shiftRight
        rw [if_pos (by decide)]
        exact congrArg some (UInt32.shiftRight_zero)
      rw [hshift, Option.bind_eq_bind, Option.bind_some]
      exact congrArg (Option.bind · _) ht
  · rw [if_neg fun h => hthree (hle.mp h)]
    by_cases hin : exponent w ≤ 32
    · obtain ⟨t, ht, hv⟩ := storeMantissa_large hmant (by omega) hin
      refine ⟨t, ?_, hv⟩
      have hoff : (32 - exp).toNat = 32 - exponent w := by
        rw [← hE]
        exact UInt32.toNat_sub_of_le _ _ (hle'.mpr hin)
      have hone : 32 - exponent w + 1 < 32 := by omega
      have htwo : 32 - exponent w + 2 < 32 := by omega
      rw [if_pos (hle'.mpr hin), hoff]
      simp only [if_pos hone, if_pos htwo]
      obtain ⟨a, ha, ht⟩ := Option.bind_eq_some_iff.mp ht
      obtain ⟨b, hb, ht⟩ := Option.bind_eq_some_iff.mp ht
      rw [ha, Option.bind_eq_bind, Option.bind_some, hb, Option.bind_some, ht]
      rfl
    · refine ⟨.zero, ?_, ?_⟩
      · rw [if_neg fun h => hin (hle'.mp h)]
        rfl
      · unfold expanded
        rw [if_neg hin]
        rfl

/-- The text of the number is that of its bytes, most significant first. -/
theorem intToHex_eq (v : UInt32) :
    intToHex v 8 = bytesToHex (Wire.leBytes 4 v.toNat).reverse := by
  have hbyte (n : Nat) : (UInt8.ofNat (n % 256)).toNat = n % 256 := by
    rw [UInt8.toNat_ofNat']
    omega
  have hrange : List.range 8 = [0, 1, 2, 3, 4, 5, 6, 7] := by decide
  simp only [Wire.leBytes, List.reverse_cons, List.reverse_nil, List.nil_append, List.cons_append,
    bytesToHex, Hex.encode, Hex.encodeByte, List.flatMap_cons, List.flatMap_nil, hbyte, intToHex,
    hrange, List.map_cons, List.map_nil]
  generalize v.toNat = n
  have h7 : n / 16 ^ (8 - 1 - 0) % 16 = n / 256 / 256 / 256 % 256 / 16 := by omega
  have h6 : n / 16 ^ (8 - 1 - 1) % 16 = n / 256 / 256 / 256 % 256 % 16 := by omega
  have h5 : n / 16 ^ (8 - 1 - 2) % 16 = n / 256 / 256 % 256 / 16 := by omega
  have h4 : n / 16 ^ (8 - 1 - 3) % 16 = n / 256 / 256 % 256 % 16 := by omega
  have h3 : n / 16 ^ (8 - 1 - 4) % 16 = n / 256 % 256 / 16 := by omega
  have h2 : n / 16 ^ (8 - 1 - 5) % 16 = n / 256 % 256 % 16 := by omega
  have h1 : n / 16 ^ (8 - 1 - 6) % 16 = n % 256 / 16 := by omega
  have h0 : n / 16 ^ (8 - 1 - 7) % 16 = n % 256 % 16 := by omega
  rw [h7, h6, h5, h4, h3, h2, h1, h0]

theorem hexToBytes_intToHex (w : UInt32) : hexToBytes (intToHex w 8) = some (wordBytes w) := by
  rw [intToHex_eq, hexToBytes_bytesToHex]
  rfl

/-- The expansion without the bounds. -/
theorem unchecked_of_word {text : Str} (h : hexToBytes text = some (wordBytes w)) :
    ∃ t, Utils.targetFromBitsHex text = some t ∧ beValue t.bytes = expanded w := by
  have hlen : text.length = 8 := by
    rw [Hex.length_of_decode h]
    rfl
  have hlt := mantissa_lt w
  have hexp := exponent_lt w
  have hbyte (n : Nat) (hn : n < 256) : (UInt8.ofNat n).toNat = n := by
    rw [UInt8.toNat_ofNat']
    omega
  have hmant : mantissa w / 2 ^ 16 * 2 ^ 16 + mantissa w / 2 ^ 8 % 256 * 2 ^ 8 +
      mantissa w % 256 = mantissa w := by omega
  unfold Utils.targetFromBitsHex
  rw [if_neg (not_not.mpr hlen), h, wordBytes_eq, Option.bind_eq_bind, Option.bind_some]
  simp only [List.getD_cons_zero, List.getD_cons_succ, hbyte _ hexp, hbyte (mantissa w / 2 ^ 16) (by omega),
    hbyte (mantissa w / 2 ^ 8 % 256) (by omega), hbyte (mantissa w % 256) (by omega), hmant]
  have hput (start m : Nat) (hs : start ≤ 29) (hm : m < 2 ^ 24) :
      beValue (((Hash256.zero.set start (UInt8.ofNat (m / 2 ^ 16 % 256))).set (start + 1)
        (UInt8.ofNat (m / 2 ^ 8 % 256))).set (start + 2) (UInt8.ofNat (m % 256))).bytes =
          m * 256 ^ (29 - start) := by
    have hlow (n : Nat) : n % 256 < 256 := Nat.mod_lt n (by decide)
    rw [beValue_placed hs, hbyte _ (hlow _), hbyte _ (hlow _), hbyte _ (hlow _), sum_bytes hm]
  by_cases hzero : mantissa w = 0
  · refine ⟨.zero, if_pos hzero, ?_⟩
    unfold expanded
    rw [hzero, Nat.zero_mul, Nat.zero_div, ite_self]
    rfl
  · rw [if_neg hzero]
    by_cases hsmall : exponent w < 3
    · refine ⟨_, if_pos hsmall, ?_⟩
      have hle : mantissa w / 2 ^ ((3 - exponent w) * 8) ≤ mantissa w := Nat.div_le_self _ _
      rw [hput 29 _ le_rfl (by omega), expanded_small hsmall, Nat.mul_comm (3 - exponent w),
        pow_mul, Nat.sub_self, pow_zero, Nat.mul_one]
      rfl
    · rw [if_neg hsmall]
      by_cases hle : exponent w ≤ 32
      · refine ⟨_, if_neg (by omega), ?_⟩
        rw [hput _ _ (by omega) hlt, expanded_large (by omega) hle]
        congr 2
        omega
      · refine ⟨.zero, if_pos (by omega), ?_⟩
        unfold expanded
        rw [if_neg hle]
        rfl

theorem floor_expanded (h : exponent w ≤ 32) :
    (expanded w : ℤ) = ⌊(mantissa w : ℚ) * 256 ^ ((exponent w : ℤ) - 3)⌋ := by
  have hquot : (mantissa w : ℚ) * 256 ^ ((exponent w : ℤ) - 3) =
      ((mantissa w * 256 ^ exponent w : ℕ) : ℚ) / ((256 ^ 3 : ℕ) : ℚ) := by
    rw [zpow_sub₀ (by norm_num), zpow_natCast]
    push_cast
    ring
  rw [hquot, Rat.floor_natCast_div_natCast, expanded, if_pos h]
  rfl

end Expansions

/-- **Compact targets are expanded exactly.** Both expansions are in range and
give the number of the word, and a hash meets it when it is no larger. -/
theorem expansions_agree (w : UInt32) (text : Str) (h : hexToBytes text = some (wordBytes w)) :
    ∃ t : Hash256, targetFromBitsHex text = some t ∧ Utils.targetFromBitsHex text = some t ∧
      compactToTargetHex w = some (bytesToHex t.bytes) ∧
      (exponent w ≤ 32 →
        (beValue t.bytes : ℤ) = ⌊(mantissa w : ℚ) * 256 ^ ((exponent w : ℤ) - 3)⌋) ∧
      (32 < exponent w → t = .zero ∧ ∀ hash : Hash256, hash ≠ .zero →
        byteLe hash.bytes t.bytes = false) ∧
      ∀ hash : Hash256,
        byteLe hash.bytes t.bytes = true ↔ beValue hash.bytes ≤ beValue t.bytes := by
  obtain ⟨t, ht, hv⟩ := target_of_word h
  obtain ⟨t', ht', hv'⟩ := unchecked_of_word h
  obtain ⟨t'', ht'', hv''⟩ := target_of_bits w
  obtain rfl := hash_of_beValue (hv'.trans hv.symm)
  obtain rfl := hash_of_beValue (hv''.trans hv'.symm)
  have hcompare (hash : Hash256) : byteLe hash.bytes t''.bytes = true ↔
      beValue hash.bytes ≤ beValue t''.bytes := byteLe_iff (hash.size.trans t''.size.symm)
  refine ⟨t'', ht, ht', ht'', fun hle => ?_, fun hlarge => ?_, hcompare⟩
  · rw [hv]
    exact floor_expanded hle
  · have hnone : beValue t''.bytes = 0 := by
      rw [hv, expanded, if_neg (by omega)]
    refine ⟨hash_of_beValue hnone, fun hash hne => ?_⟩
    rw [Bool.eq_false_iff]
    intro hmeets
    have hle := (hcompare hash).mp hmeets
    rw [hnone] at hle
    exact hne (hash_of_beValue (Nat.le_zero.mp hle))

/-- The target of difficulty one. -/
theorem expansions_agree_one :
    ∃ t : Hash256, targetFromBitsHex "1d00ffff".toList = some t ∧
      Utils.targetFromBitsHex "1d00ffff".toList = some t ∧
      compactToTargetHex 0x1d00ffff = some (bytesToHex t.bytes) ∧
      (exponent 0x1d00ffff ≤ 32 → (beValue t.bytes : ℤ) =
        ⌊(mantissa 0x1d00ffff : ℚ) * 256 ^ ((exponent 0x1d00ffff : ℤ) - 3)⌋) ∧
      (32 < exponent 0x1d00ffff → t = .zero ∧ ∀ hash : Hash256, hash ≠ .zero →
        byteLe hash.bytes t.bytes = false) ∧
      ∀ hash : Hash256, byteLe hash.bytes t.bytes = true ↔ beValue hash.bytes ≤ beValue t.bytes :=
  expansions_agree 0x1d00ffff "1d00ffff".toList (by decide)

end MkPool.CompactTarget
