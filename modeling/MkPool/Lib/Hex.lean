import Mathlib.Data.List.Basic
import Mathlib.Data.UInt

/-! # Bytes as hexadecimal text

Two lower-case digits a byte, read back in either case. `decode` fails on an
odd length and on a character that is no digit. `reversePairs` reverses the
byte order of a text without reading it. -/
namespace MkPool.Lib.Hex

/-- The digit of a nibble. -/
def digit (n : Nat) : Char := "0123456789abcdef".toList.getD n '0'

/-- The nibble of a digit, in either case. -/
def nibble (c : Char) : Option Nat :=
  if '0' ≤ c ∧ c ≤ '9' then some (c.toNat - 48)
  else if 'a' ≤ c ∧ c ≤ 'f' then some (c.toNat - 87)
  else if 'A' ≤ c ∧ c ≤ 'F' then some (c.toNat - 55)
  else none

/-- The two digits of a byte. -/
def encodeByte (b : UInt8) : List Char := [digit (b.toNat / 16), digit (b.toNat % 16)]

/-- Bytes to text. -/
def encode (bs : List UInt8) : List Char := bs.flatMap encodeByte

/-- Text to bytes. -/
def decode : List Char → Option (List UInt8)
  | [] => some []
  | [_] => none
  | a :: b :: rest => do
    let x ← nibble a
    let y ← nibble b
    let bs ← decode rest
    return UInt8.ofNat (16 * x + y) :: bs

/-! ## Writing -/

@[simp] theorem encode_nil : encode [] = [] := rfl

@[simp] theorem encode_cons (b : UInt8) (bs : List UInt8) :
    encode (b :: bs) = encodeByte b ++ encode bs := rfl

@[simp] theorem encode_append (as bs : List UInt8) :
    encode (as ++ bs) = encode as ++ encode bs := by
  simp [encode]

@[simp] theorem length_encode (bs : List UInt8) : (encode bs).length = 2 * bs.length := by
  induction bs with
  | nil => rfl
  | cons b bs ih => simp [encodeByte, ih]; omega

theorem take_encode (n : Nat) (bs : List UInt8) :
    (encode bs).take (2 * n) = encode (bs.take n) := by
  induction n generalizing bs with
  | zero => rfl
  | succ n ih =>
    cases bs with
    | nil => simp
    | cons b bs =>
      rw [Nat.mul_succ, encode_cons, List.take_succ_cons, encode_cons, ← ih bs]
      rfl

/-! ## Reading what was written -/

theorem nibble_digit {n : Nat} (h : n < 16) : nibble (digit n) = some n := by
  revert n
  decide

@[simp] theorem decode_nil : decode [] = some [] := rfl

theorem decode_encodeByte_append (b : UInt8) (s : List Char) :
    decode (encodeByte b ++ s) = (decode s).map (b :: ·) := by
  have hb : b.toNat < 256 := b.toNat_lt
  have hx := nibble_digit (n := b.toNat / 16) (by omega)
  have hy := nibble_digit (n := b.toNat % 16) (by omega)
  have hv : UInt8.ofNat (16 * (b.toNat / 16) + b.toNat % 16) = b := by
    rw [Nat.div_add_mod]; exact UInt8.ofNat_toNat
  simp only [encodeByte, List.cons_append, List.nil_append, decode, hx, hy,
    Option.bind_eq_bind, Option.bind_some, hv, Option.pure_def]
  cases decode s <;> rfl

theorem decode_encode_append (bs : List UInt8) (s : List Char) :
    decode (encode bs ++ s) = (decode s).map (bs ++ ·) := by
  induction bs with
  | nil => cases h : decode s <;> simp [h]
  | cons b bs ih =>
    rw [encode_cons, List.append_assoc, decode_encodeByte_append, ih]
    cases h : decode s <;> simp

@[simp] theorem decode_encode (bs : List UInt8) : decode (encode bs) = some bs := by
  simpa using decode_encode_append bs []

theorem encode_injective {as bs : List UInt8} (h : encode as = encode bs) : as = bs := by
  have := congrArg decode h
  simpa using this

/-! ## Texts that can be read -/

theorem decode_cons_cons {a b : Char} {s : List Char} {bs : List UInt8}
    (h : decode (a :: b :: s) = some bs) :
    ∃ x y cs, nibble a = some x ∧ nibble b = some y ∧ decode s = some cs ∧
      bs = UInt8.ofNat (16 * x + y) :: cs := by
  simp only [decode, Option.bind_eq_bind, Option.pure_def, Option.bind_eq_some_iff] at h
  obtain ⟨x, hx, y, hy, cs, hcs, he⟩ := h
  exact ⟨x, y, cs, hx, hy, hcs, (Option.some.inj he).symm⟩

theorem length_of_decode : ∀ {s : List Char} {bs : List UInt8},
    decode s = some bs → s.length = 2 * bs.length
  | [], _, h => by cases h; rfl
  | [_], _, h => by cases h
  | a :: b :: s, bs, h => by
    obtain ⟨x, y, cs, -, -, hcs, rfl⟩ := decode_cons_cons h
    have := length_of_decode hcs
    simp only [List.length_cons]
    omega

theorem decode_append : ∀ {s : List Char} {as : List UInt8} (t : List Char),
    decode s = some as → decode (s ++ t) = (decode t).map (as ++ ·)
  | [], _, t, h => by
    cases h
    cases ht : decode t <;> simp [ht]
  | [_], _, _, h => by cases h
  | a :: b :: s, as, t, h => by
    obtain ⟨x, y, cs, hx, hy, hcs, rfl⟩ := decode_cons_cons h
    have ih := decode_append t hcs
    cases ht : decode t with
    | none => simp [decode, hx, hy, ih, ht]
    | some bs => simp [decode, hx, hy, ih, ht]

theorem decode_append_some {s t : List Char} {as bs : List UInt8}
    (hs : decode s = some as) (ht : decode t = some bs) :
    decode (s ++ t) = some (as ++ bs) := by
  rw [decode_append t hs, ht]; rfl

/-- A readable front of even length is read on its own. -/
theorem decode_of_append : ∀ {s t : List Char} {cs : List UInt8},
    decode (s ++ t) = some cs → 2 ∣ s.length →
      ∃ as bs, decode s = some as ∧ decode t = some bs ∧ cs = as ++ bs
  | [], t, cs, h, _ => ⟨[], cs, rfl, h, rfl⟩
  | [_], _, _, _, h2 => by simp at h2
  | a :: b :: s, t, cs, h, h2 => by
    obtain ⟨x, y, ds, hx, hy, hds, rfl⟩ := decode_cons_cons h
    have h2' : 2 ∣ s.length := by simp only [List.length_cons] at h2; omega
    obtain ⟨as, bs, has, hbs, rfl⟩ := decode_of_append hds h2'
    exact ⟨UInt8.ofNat (16 * x + y) :: as, bs, by simp [decode, hx, hy, has], hbs, rfl⟩

/-- The first digits are those of the first bytes. -/
theorem decode_take : ∀ {s : List Char} {bs : List UInt8} (k : Nat), decode s = some bs →
    decode (s.take (2 * k)) = some (bs.take k)
  | [], _, k, h => by
    cases h
    simp
  | [_], _, _, h => by cases h
  | a :: b :: s, bs, 0, _ => by simp
  | a :: b :: s, bs, k + 1, h => by
    obtain ⟨x, y, cs, hx, hy, hcs, rfl⟩ := decode_cons_cons h
    rw [Nat.mul_succ, List.take_succ_cons, List.take_succ_cons, List.take_succ_cons]
    simp [decode, hx, hy, decode_take k hcs]

/-- A text of digits, two for each byte, can be read. -/
theorem decode_of_digits : ∀ {s : List Char}, (∀ c ∈ s, (nibble c).isSome = true) → 2 ∣ s.length →
    ∃ bs, decode s = some bs
  | [], _, _ => ⟨[], rfl⟩
  | [_], _, h2 => by simp at h2
  | a :: b :: s, h, h2 => by
    have h2' : 2 ∣ s.length := by simp only [List.length_cons] at h2; omega
    obtain ⟨x, hx⟩ := Option.isSome_iff_exists.mp (h a (by simp))
    obtain ⟨y, hy⟩ := Option.isSome_iff_exists.mp (h b (by simp))
    obtain ⟨bs, hbs⟩ := decode_of_digits (fun c hc => h c (by simp [hc])) h2'
    exact ⟨UInt8.ofNat (16 * x + y) :: bs, by simp [decode, hx, hy, hbs]⟩

theorem digits_of_decode : ∀ {s : List Char} {bs : List UInt8}, decode s = some bs →
    ∀ c ∈ s, (nibble c).isSome = true
  | [], _, _ => by simp
  | [_], _, h => by cases h
  | a :: b :: s, bs, h => by
    obtain ⟨x, y, cs, hx, hy, hcs, -⟩ := decode_cons_cons h
    have ih := digits_of_decode hcs
    simpa [hx, hy] using ih

theorem isSome_decode {s : List Char} :
    (decode s).isSome = true ↔ (∀ c ∈ s, (nibble c).isSome = true) ∧ 2 ∣ s.length := by
  constructor
  · intro h
    obtain ⟨bs, hbs⟩ := Option.isSome_iff_exists.mp h
    exact ⟨digits_of_decode hbs, bs.length, length_of_decode hbs⟩
  · rintro ⟨hdigits, heven⟩
    obtain ⟨bs, hbs⟩ := decode_of_digits hdigits heven
    rw [hbs]
    rfl

/-- A readable part of a text can be replaced by a readable text of its
length. -/
theorem isSome_decode_infix {x y : List Char} {xs ys : List UInt8} (a b : List Char)
    (hx : decode x = some xs) (hy : decode y = some ys) (hlen : x.length = y.length) :
    (decode (a ++ x ++ b)).isSome = (decode (a ++ y ++ b)).isSome := by
  have hxd := digits_of_decode hx
  have hyd := digits_of_decode hy
  rw [Bool.eq_iff_iff, isSome_decode, isSome_decode]
  simp only [List.mem_append, List.length_append, hlen]
  exact and_congr_left' ⟨fun h c hc => by grind, fun h c hc => by grind⟩

/-! ## Byte order -/

/-- The text of the same bytes in the opposite order. -/
def reversePairs : List Char → List Char
  | [] => []
  | [c] => [c]
  | a :: b :: rest => reversePairs rest ++ [a, b]

@[simp] theorem reversePairs_nil : reversePairs [] = [] := rfl

theorem reversePairs_append : ∀ {s : List Char} (t : List Char), 2 ∣ s.length →
    reversePairs (s ++ t) = reversePairs t ++ reversePairs s
  | [], t, _ => by simp
  | [_], _, h2 => by simp at h2
  | a :: b :: s, t, h2 => by
    have h2' : 2 ∣ s.length := by simp only [List.length_cons] at h2; omega
    simp only [List.cons_append, reversePairs]
    rw [reversePairs_append t h2', List.append_assoc]

@[simp] theorem reversePairs_encode (bs : List UInt8) :
    reversePairs (encode bs) = encode bs.reverse := by
  induction bs with
  | nil => rfl
  | cons b bs ih => simp [encodeByte, reversePairs, ih]

theorem length_reversePairs : ∀ s : List Char, (reversePairs s).length = s.length
  | [] => rfl
  | [_] => rfl
  | a :: b :: s => by simp [reversePairs, length_reversePairs s]

theorem decode_reversePairs : ∀ {s : List Char} {bs : List UInt8},
    decode s = some bs → decode (reversePairs s) = some bs.reverse
  | [], _, h => by cases h; rfl
  | [_], _, h => by cases h
  | a :: b :: s, bs, h => by
    obtain ⟨x, y, cs, hx, hy, hcs, rfl⟩ := decode_cons_cons h
    have ih := decode_reversePairs hcs
    rw [reversePairs, List.reverse_cons]
    exact decode_append_some ih (by simp [decode, hx, hy])

theorem reversePairs_reversePairs : ∀ {s : List Char}, 2 ∣ s.length →
    reversePairs (reversePairs s) = s
  | [], _ => rfl
  | [_], h2 => by simp at h2
  | a :: b :: s, h2 => by
    have h2' : 2 ∣ s.length := by simp only [List.length_cons] at h2; omega
    rw [reversePairs, reversePairs_append _ (by rw [length_reversePairs]; exact h2'),
      reversePairs_reversePairs h2']
    rfl

end MkPool.Lib.Hex
