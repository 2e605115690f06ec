import Mathlib.Data.List.Basic
import Mathlib.Data.UInt

/-! # Little-endian integers on the wire

`leBytes n v` is the value `v` in `n` bytes, least significant first, and
`leValue` reads it back. -/
namespace MkPool.Lib.Wire

/-- The low `n` bytes of a number, least significant first. -/
def leBytes : Nat → Nat → List UInt8
  | 0, _ => []
  | n + 1, v => UInt8.ofNat (v % 256) :: leBytes n (v / 256)

/-- The number a little-endian byte string spells. -/
def leValue : List UInt8 → Nat
  | [] => 0
  | b :: bs => b.toNat + 256 * leValue bs

@[simp] theorem length_leBytes (n v : Nat) : (leBytes n v).length = n := by
  induction n generalizing v with
  | zero => rfl
  | succ n ih => simp [leBytes, ih]

theorem leValue_leBytes {n v : Nat} (h : v < 256 ^ n) : leValue (leBytes n v) = v := by
  induction n generalizing v with
  | zero => simp at h; simp [leBytes, leValue, h]
  | succ n ih =>
    have hq : v / 256 < 256 ^ n := by
      rw [Nat.div_lt_iff_lt_mul (by omega)]
      rwa [pow_succ] at h
    have hb : (UInt8.ofNat (v % 256)).toNat = v % 256 := by
      rw [UInt8.toNat_ofNat']
      exact Nat.mod_eq_of_lt (by omega)
    simp only [leBytes, leValue, hb, ih hq]
    omega

theorem leBytes_mod (n v : Nat) : leBytes n (v % 256 ^ n) = leBytes n v := by
  induction n generalizing v with
  | zero => rfl
  | succ n ih =>
    have hlow : v % 256 ^ (n + 1) % 256 = v % 256 :=
      Nat.mod_mod_of_dvd v (Dvd.intro_left (256 ^ n) rfl)
    have hhigh : v % 256 ^ (n + 1) / 256 = v / 256 % 256 ^ n := by
      rw [pow_succ, Nat.mul_comm, Nat.mod_mul_right_div_self]
    simp only [leBytes, hlow, hhigh, ih]

/-- The low bytes tell numbers apart up to multiples of their span. -/
theorem leBytes_inj {n a b : Nat} : leBytes n a = leBytes n b ↔ a % 256 ^ n = b % 256 ^ n := by
  constructor
  · intro h
    rw [← leBytes_mod n a, ← leBytes_mod n b] at h
    have hpos : 0 < 256 ^ n := Nat.pow_pos (by omega)
    rw [← leValue_leBytes (Nat.mod_lt a hpos), h, leValue_leBytes (Nat.mod_lt b hpos)]
  · intro h
    rw [← leBytes_mod n a, h, leBytes_mod]

theorem leBytes_leValue (bs : List UInt8) : leBytes bs.length (leValue bs) = bs := by
  induction bs with
  | nil => rfl
  | cons b bs ih =>
    have hb : b.toNat < 256 := b.toNat_lt
    have hm : (b.toNat + 256 * leValue bs) % 256 = b.toNat := by omega
    have hd : (b.toNat + 256 * leValue bs) / 256 = leValue bs := by omega
    simp only [List.length_cons, leBytes, leValue, hm, hd, ih, UInt8.ofNat_toNat]

theorem leValue_lt (bs : List UInt8) : leValue bs < 256 ^ bs.length := by
  induction bs with
  | nil => simp [leValue]
  | cons b bs ih =>
    have hb : b.toNat < 256 := b.toNat_lt
    simp only [leValue, List.length_cons, pow_succ]
    omega

theorem leBytes_take (n m v : Nat) : (leBytes (n + m) v).take n = leBytes n v := by
  induction n generalizing v with
  | zero => rfl
  | succ n ih =>
    rw [Nat.succ_add]
    simp only [leBytes, List.take_succ_cons, ih]

theorem leBytes_zero (n : Nat) : leBytes n 0 = List.replicate n 0 := by
  induction n with
  | zero => rfl
  | succ n ih =>
    rw [leBytes, Nat.zero_mod, Nat.zero_div, ih]
    rfl

/-- More room than needed is filled with zeros. -/
theorem leBytes_longer (bs : List UInt8) (k : Nat) :
    leBytes (bs.length + k) (leValue bs) = bs ++ List.replicate k 0 := by
  induction bs with
  | nil =>
    rw [List.length_nil, Nat.zero_add]
    exact leBytes_zero k
  | cons b bs ih =>
    have hb : b.toNat < 256 := b.toNat_lt
    have hm : (b.toNat + 256 * leValue bs) % 256 = b.toNat := by omega
    have hd : (b.toNat + 256 * leValue bs) / 256 = leValue bs := by omega
    rw [List.length_cons, Nat.succ_add, leBytes, leValue, hm, hd, ih, UInt8.ofNat_toNat]
    rfl

theorem leValue_append (as bs : List UInt8) :
    leValue (as ++ bs) = leValue as + 256 ^ as.length * leValue bs := by
  induction as with
  | nil => simp [leValue]
  | cons a as ih =>
    rw [List.cons_append, leValue, ih, leValue, List.length_cons, pow_succ, Nat.mul_add,
      Nat.mul_comm (256 ^ as.length) 256, Nat.mul_assoc, Nat.add_assoc]

end MkPool.Lib.Wire
