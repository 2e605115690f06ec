import MkPool.AddressDecode
import Mathlib.Data.List.TakeWhile
import Mathlib.Data.Nat.Digits.Lemmas

/-! # Base58 texts of bytes

The encoder is not the pool's: it writes the texts that `base58_decode` reads
back. The vector the decoder makes room for is never too short. -/
namespace MkPool.Base58
open MkPool.Lib MkPool.Utils MkPool.Address MkPool.AddressDecode

/-- The character of a digit. -/
def base58Char (d : Nat) : Char := base58Alphabet.getD d '1'

/-- The text of bytes: a one for each leading zero, then the digits. -/
def base58Encode (bs : Bytes) : Str :=
  List.replicate (bs.takeWhile (· == 0)).length '1' ++
    (Nat.digits 58 (Wire.leValue bs.reverse)).reverse.map base58Char

theorem base58Digit_char {d : Nat} (h : d < 58) : base58Digit (base58Char d) = some d := by
  have hall : ∀ d < 58, base58Digit (base58Char d) = some d := by decide
  exact hall d h

theorem base58Char_inj {d e : Nat} (hd : d < 58) (he : e < 58) (h : base58Char d = base58Char e) :
    d = e := by
  have hdigit := base58Digit_char hd
  rw [h, base58Digit_char he] at hdigit
  exact (Option.some.inj hdigit).symm

/-! ## Numbers -/

theorem dropWhile_zeros (k : Nat) (bs : Bytes) :
    (List.replicate k 0 ++ bs).dropWhile (· == 0) = bs.dropWhile (· == 0) := by
  induction k with
  | zero => rfl
  | succ k ih => exact ih

/-- Bytes of one number differ in leading zeros only. -/
theorem dropWhile_eq_of_value {as bs : Bytes}
    (h : Wire.leValue as.reverse = Wire.leValue bs.reverse) :
    as.dropWhile (· == 0) = bs.dropWhile (· == 0) := by
  have hlong : as.reverse ++ List.replicate bs.length 0 =
      bs.reverse ++ List.replicate as.length 0 := by
    rw [← Wire.leBytes_longer, ← Wire.leBytes_longer, h, List.length_reverse, List.length_reverse,
      Nat.add_comm]
  have hrev := congrArg List.reverse hlong
  rw [List.reverse_append, List.reverse_append, List.reverse_reverse, List.reverse_reverse,
    List.reverse_replicate, List.reverse_replicate] at hrev
  rw [← dropWhile_zeros bs.length as, hrev, dropWhile_zeros]

/-- The bytes of a digit vector hold 733 thousandths of its length, and one. -/
theorem room (k : Nat) : 58 ^ k < 256 ^ (k * 733 / 1000 + 1) := by
  have hbase : 58 ^ 1000 ≤ 256 ^ 733 := by decide +kernel
  have hlt : k * 733 < 1000 * (k * 733 / 1000 + 1) := by omega
  refine lt_of_pow_lt_pow_left₀ 1000 (Nat.zero_le _) ?_
  calc (58 ^ k) ^ 1000 = (58 ^ 1000) ^ k := by rw [← pow_mul, ← pow_mul, Nat.mul_comm]
    _ ≤ (256 ^ 733) ^ k := Nat.pow_le_pow_left hbase k
    _ = 256 ^ (k * 733) := by rw [← pow_mul, Nat.mul_comm]
    _ < 256 ^ (1000 * (k * 733 / 1000 + 1)) := Nat.pow_lt_pow_right (by omega) hlt
    _ = (256 ^ (k * 733 / 1000 + 1)) ^ 1000 := by rw [← pow_mul, Nat.mul_comm]

/-! ## The decoder -/

theorem base58Carry_value (carry : Nat) (b256 : Bytes) :
    (base58Carry carry b256).2.length = b256.length ∧
      Wire.leValue (base58Carry carry b256).2 + 256 ^ b256.length * (base58Carry carry b256).1
        = carry + 58 * Wire.leValue b256 := by
  induction b256 generalizing carry with
  | nil => exact ⟨rfl, by simp [base58Carry, Wire.leValue]⟩
  | cons b b256 ih =>
    obtain ⟨hlen, hval⟩ := ih ((carry + 58 * b.toNat) / 256)
    have hb : (UInt8.ofNat ((carry + 58 * b.toNat) % 256)).toNat
        = (carry + 58 * b.toNat) % 256 := by
      rw [UInt8.toNat_ofNat']
      omega
    refine ⟨congrArg Nat.succ hlen, ?_⟩
    simp only [base58Carry, Wire.leValue, hb, List.length_cons, pow_succ]
    generalize base58Carry ((carry + 58 * b.toNat) / 256) b256 = out at hval ⊢
    have hmul : 256 ^ b256.length * 256 * out.1 = 256 * (256 ^ b256.length * out.1) := by ring
    rw [hmul]
    omega

/-- Digits are read to their number, where there is room for it. -/
theorem base58Digits_chars {ds : List Nat} (hds : ∀ d ∈ ds, d < 58) (b256 : Bytes)
    (h : Wire.leValue b256 * 58 ^ ds.length + Nat.ofDigits 58 ds.reverse < 256 ^ b256.length) :
    ∃ out, base58Digits (ds.map base58Char) b256 = .ok out ∧
      Wire.leValue out = Wire.leValue b256 * 58 ^ ds.length + Nat.ofDigits 58 ds.reverse := by
  induction ds generalizing b256 with
  | nil => exact ⟨b256, rfl, by simp⟩
  | cons d ds ih =>
    obtain ⟨hlen, hval⟩ := base58Carry_value d b256
    have hsum : Wire.leValue b256 * 58 ^ (d :: ds).length + Nat.ofDigits 58 (d :: ds).reverse
        = (d + 58 * Wire.leValue b256) * 58 ^ ds.length + Nat.ofDigits 58 ds.reverse := by
      rw [List.reverse_cons, Nat.ofDigits_append, Nat.ofDigits_singleton, List.length_reverse,
        List.length_cons, pow_succ]
      ring
    have hpos : 0 < 58 ^ ds.length := Nat.pow_pos (by omega)
    have hfits : d + 58 * Wire.leValue b256 < 256 ^ b256.length := by
      have hle := Nat.le_mul_of_pos_right (d + 58 * Wire.leValue b256) hpos
      omega
    have hcarry : (base58Carry d b256).1 = 0 := by
      by_contra hne
      have hle := Nat.le_mul_of_pos_right (256 ^ b256.length) (Nat.pos_of_ne_zero hne)
      omega
    rw [hcarry, Nat.mul_zero, Nat.add_zero] at hval
    obtain ⟨out, hout, hvalue⟩ := ih (fun e he => hds e (List.mem_cons_of_mem _ he))
      (base58Carry d b256).2 (by rw [hlen, hval]; omega)
    refine ⟨out, ?_, by rw [hvalue, hval, hsum]⟩
    rw [List.map_cons, base58Digits, base58Digit_char (hds d List.mem_cons_self)]
    dsimp only
    rw [if_neg (not_not_intro hcarry)]
    exact hout

/-! ## The first digit -/

/-- A number lies between its first digit and the next. -/
theorem digits_bounds {n d : Nat} {ds : List Nat} (h : (Nat.digits 58 n).reverse = d :: ds) :
    0 < d ∧ d < 58 ∧ d * 58 ^ ds.length ≤ n ∧ n < (d + 1) * 58 ^ ds.length := by
  have hdigits : Nat.digits 58 n = ds.reverse ++ [d] := by
    rw [← List.reverse_reverse (Nat.digits 58 n), h, List.reverse_cons]
  have hmem : ∀ e ∈ ds.reverse ++ [d], e < 58 := by
    rw [← hdigits]
    exact fun e he => Nat.digits_lt_base (by omega) he
  have hn : n ≠ 0 := by
    rintro rfl
    simp at hdigits
  have hlast : d ≠ 0 := by
    have hne := Nat.getLast_digit_ne_zero 58 hn
    simpa [hdigits] using hne
  have hvalue : n = Nat.ofDigits 58 ds.reverse + 58 ^ ds.length * d := by
    rw [← Nat.ofDigits_digits 58 n, hdigits, Nat.ofDigits_append, Nat.ofDigits_singleton,
      List.length_reverse]
  have hlow : Nat.ofDigits 58 ds.reverse < 58 ^ ds.length := by
    have hlt := Nat.ofDigits_lt_base_pow_length (b := 58) (l := ds.reverse) (by omega)
      fun e he => hmem e (List.mem_append_left _ he)
    rwa [List.length_reverse] at hlt
  have hd : d < 58 := hmem d (List.mem_append_right _ (List.mem_singleton.mpr rfl))
  have hcomm : 58 ^ ds.length * d = d * 58 ^ ds.length := Nat.mul_comm _ _
  refine ⟨Nat.pos_of_ne_zero hlast, hd, by omega, ?_⟩
  rw [Nat.add_mul, Nat.one_mul]
  omega

/-- The first digit of a number that lies between two multiples of a power. -/
theorem firstDigit {n d e k : Nat} {ds : List Nat} (h : (Nat.digits 58 n).reverse = d :: ds)
    (he : 0 < e) (hlt : e < 58) (hlow : e * 58 ^ k ≤ n) (hhigh : n < (e + 1) * 58 ^ k) : d = e := by
  obtain ⟨hd, hdlt, hdlow, hdhigh⟩ := digits_bounds h
  rcases lt_trichotomy ds.length k with hlen | hlen | hlen
  · have hpow : 58 ^ (ds.length + 1) ≤ 58 ^ k := Nat.pow_le_pow_right (by omega) hlen
    have htop : (d + 1) * 58 ^ ds.length ≤ 58 * 58 ^ ds.length := Nat.mul_le_mul_right _ (by omega)
    have hone := Nat.le_mul_of_pos_left (58 ^ k) he
    rw [pow_succ] at hpow
    omega
  · rw [hlen] at hdlow hdhigh
    have h1 := Nat.lt_of_mul_lt_mul_right (hdlow.trans_lt hhigh)
    have h2 := Nat.lt_of_mul_lt_mul_right (hlow.trans_lt hdhigh)
    omega
  · have hpow : 58 ^ (k + 1) ≤ 58 ^ ds.length := Nat.pow_le_pow_right (by omega) hlen
    have htop : (e + 1) * 58 ^ k ≤ 58 * 58 ^ k := Nat.mul_le_mul_right _ (by omega)
    have hone := Nat.le_mul_of_pos_left (58 ^ ds.length) hd
    rw [pow_succ] at hpow
    omega

/-! ## The round trip -/

/-- The digits of a number do not begin with a one. -/
theorem takeWhile_digits (n : Nat) :
    ((Nat.digits 58 n).reverse.map base58Char).takeWhile (· == '1') = [] := by
  cases hds : (Nat.digits 58 n).reverse with
  | nil => rfl
  | cons d ds =>
    obtain ⟨hd, hlt, _⟩ := digits_bounds hds
    have hne : base58Char d ≠ '1' := by
      intro he
      have := base58Char_inj hlt (e := 0) (by omega) he
      omega
    rw [List.map_cons, List.takeWhile_cons_of_neg (by simpa using hne)]

/-- **What is encoded is read back.** -/
theorem base58Decode_encode (bs : Bytes) : base58Decode (base58Encode bs) = .ok bs := by
  have hstrip : bs.takeWhile (· == 0) = List.replicate (bs.takeWhile (· == 0)).length 0 :=
    List.eq_replicate_of_mem fun b hb => by simpa using List.mem_takeWhile_imp hb
  unfold base58Encode
  generalize hn : Wire.leValue bs.reverse = n
  generalize hz : (bs.takeWhile (· == 0)).length = z at hstrip ⊢
  have hdigits : ∀ d ∈ (Nat.digits 58 n).reverse, d < 58 :=
    fun d hd => Nat.digits_lt_base (by omega) (List.mem_reverse.mp hd)
  have hones : ((List.replicate z '1' ++ (Nat.digits 58 n).reverse.map base58Char).takeWhile
      (· == '1')).length = z := by
    rw [List.takeWhile_append_of_pos (by simp), takeWhile_digits, List.append_nil,
      List.length_replicate]
  unfold base58Decode
  simp only [hones, List.drop_left' List.length_replicate]
  generalize hlen : (List.replicate z '1' ++ (Nat.digits 58 n).reverse.map base58Char).length = len
  have hle : (Nat.digits 58 n).length ≤ len := by
    rw [← hlen, List.length_append, List.length_map, List.length_reverse]
    omega
  have hroom : n < 256 ^ (len * 733 / 1000 + 1) := by
    calc n < 58 ^ (Nat.digits 58 n).length := Nat.lt_base_pow_length_digits (by omega)
      _ ≤ 58 ^ len := Nat.pow_le_pow_right (by omega) hle
      _ < 256 ^ (len * 733 / 1000 + 1) := room len
  have hzero : Wire.leValue (List.replicate (len * 733 / 1000 + 1) 0) = 0 := by
    rw [← Wire.leBytes_zero, Wire.leValue_leBytes (Nat.pow_pos (by omega))]
  obtain ⟨out, hout, hvalue⟩ := base58Digits_chars hdigits
    (List.replicate (len * 733 / 1000 + 1) 0) (by
      rw [hzero, Nat.zero_mul, Nat.zero_add, List.reverse_reverse, Nat.ofDigits_digits,
        List.length_replicate]
      exact hroom)
  rw [hzero, Nat.zero_mul, Nat.zero_add, List.reverse_reverse, Nat.ofDigits_digits] at hvalue
  have hrest : out.reverse.dropWhile (· == 0) = bs.dropWhile (· == 0) :=
    dropWhile_eq_of_value (by rw [List.reverse_reverse, hvalue, hn])
  rw [hout]
  show Except.ok (List.replicate z 0 ++ out.reverse.dropWhile (· == 0)) = .ok bs
  rw [hrest, ← hstrip, List.takeWhile_append_dropWhile]

end MkPool.Base58
