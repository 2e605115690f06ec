import Mathlib.Algebra.Order.Ring.Nat
import Mathlib.Data.List.Induction
import Mathlib.Tactic.Ring

/-! # Positional digits, and their regrouping

Numbers by their digits, the most significant first, and a machine that reads
digits of one width and writes digits of another. -/
namespace MkPool.Lib.Digits

/-- The number that the digits denote. -/
def value (b : Nat) (ds : List Nat) : Nat := ds.foldl (fun acc d => acc * b + d) 0

/-- The last `n` digits of a number. -/
def digits (b : Nat) : Nat → Nat → List Nat
  | 0, _ => []
  | n + 1, v => digits b n (v / b) ++ [v % b]

@[simp] theorem value_nil (b : Nat) : value b [] = 0 := rfl

theorem value_snoc (b : Nat) (ds : List Nat) (d : Nat) :
    value b (ds ++ [d]) = value b ds * b + d := by
  unfold value
  rw [List.foldl_append]
  rfl

theorem value_append (b : Nat) (as bs : List Nat) :
    value b (as ++ bs) = value b as * b ^ bs.length + value b bs := by
  induction bs using List.reverseRecOn with
  | nil => simp
  | append_singleton bs d ih =>
    rw [← List.append_assoc, value_snoc, ih, value_snoc, List.length_append,
      List.length_singleton, pow_succ]
    ring

@[simp] theorem length_digits (b n v : Nat) : (digits b n v).length = n := by
  induction n generalizing v with
  | zero => rfl
  | succ n ih => rw [digits, List.length_append, ih, List.length_singleton]

theorem lt_of_mem_digits {b n v d : Nat} (hb : 0 < b) (h : d ∈ digits b n v) : d < b := by
  induction n generalizing v with
  | zero => cases h
  | succ n ih =>
    rcases List.mem_append.mp h with h | h
    · exact ih h
    · rw [List.mem_singleton.mp h]
      exact Nat.mod_lt _ hb

/-- Each digit by its place. -/
theorem digits_eq_map (b n v : Nat) :
    digits b n v = (List.range' 0 n).map fun c => v / b ^ (n - 1 - c) % b := by
  induction n generalizing v with
  | zero => rfl
  | succ n ih =>
    have hplace : ∀ c ∈ List.range' 0 n,
        v / b / b ^ (n - 1 - c) % b = v / b ^ (n + 1 - 1 - c) % b := by
      intro c hc
      have hlt : c < n := by simpa using hc
      have hexp : n + 1 - 1 - c = n - 1 - c + 1 := by omega
      rw [Nat.div_div_eq_div_mul, ← pow_succ', hexp]
    rw [digits, ih, List.range'_concat, List.map_append, List.map_singleton,
      List.map_congr_left hplace]
    simp

theorem value_digits (b n v : Nat) : value b (digits b n v) = v % b ^ n := by
  induction n generalizing v with
  | zero => rw [pow_zero, Nat.mod_one]; rfl
  | succ n ih =>
    rw [digits, value_snoc, ih, pow_succ, Nat.mul_comm (b ^ n) b, Nat.mod_mul]
    ring

theorem value_lt {b : Nat} {ds : List Nat} (h : ∀ d ∈ ds, d < b) : value b ds < b ^ ds.length := by
  induction ds using List.reverseRecOn with
  | nil => simp
  | append_singleton ds d ih =>
    have hd : d < b := h d (by simp)
    have hds : value b ds + 1 ≤ b ^ ds.length :=
      ih fun d' hd' => h d' (List.mem_append_left _ hd')
    rw [value_snoc, List.length_append, List.length_singleton, pow_succ]
    calc value b ds * b + d < value b ds * b + b := by omega
      _ = (value b ds + 1) * b := by ring
      _ ≤ b ^ ds.length * b := Nat.mul_le_mul_right b hds

theorem digits_value {b : Nat} {ds : List Nat} (h : ∀ d ∈ ds, d < b) :
    digits b ds.length (value b ds) = ds := by
  induction ds using List.reverseRecOn with
  | nil => rfl
  | append_singleton ds d ih =>
    have hd : d < b := h d (by simp)
    have hdiv : (value b ds * b + d) / b = value b ds := by
      rw [Nat.mul_comm, Nat.mul_add_div (by omega), Nat.div_eq_of_lt hd, Nat.add_zero]
    have hmod : (value b ds * b + d) % b = d := by
      rw [Nat.mul_comm, Nat.mul_add_mod, Nat.mod_eq_of_lt hd]
    rw [List.length_append, List.length_singleton, value_snoc, digits, hdiv, hmod,
      ih fun d' hd' => h d' (List.mem_append_left _ hd')]

/-- Digits are known from their number and their value. -/
theorem value_injective {b : Nat} {as bs : List Nat} (ha : ∀ d ∈ as, d < b) (hb : ∀ d ∈ bs, d < b)
    (hlen : as.length = bs.length) (h : value b as = value b bs) : as = bs := by
  rw [← digits_value ha, ← digits_value hb, hlen, h]

/-! ## Regrouping -/

/-- Digits of `w` bits were read and digits of `v` bits were written. The bits
that are between them are those of `rest`. -/
structure Stream (w v : Nat) (read written : List Nat) (bits rest : Nat) : Prop where
  length : read.length * w = written.length * v + bits
  value : value (2 ^ w) read = value (2 ^ v) written * 2 ^ bits + rest
  short : rest < 2 ^ bits
  small : ∀ d ∈ written, d < 2 ^ v

namespace Stream

variable {w v bits rest : Nat} {read written : List Nat}

theorem start (w v : Nat) : Stream w v [] [] 0 0 where
  length := by simp
  value := by simp
  short := by simp
  small := by simp

/-- A digit is read. -/
theorem feed (h : Stream w v read written bits rest) {d : Nat} (hd : d < 2 ^ w) :
    Stream w v (read ++ [d]) written (bits + w) (rest * 2 ^ w + d) where
  length := by
    rw [List.length_append, List.length_singleton, Nat.add_mul, h.length]
    omega
  value := by
    rw [value_snoc, h.value, pow_add]
    ring
  short := by
    have hshort : rest + 1 ≤ 2 ^ bits := h.short
    calc rest * 2 ^ w + d < rest * 2 ^ w + 2 ^ w := by omega
      _ = (rest + 1) * 2 ^ w := by ring
      _ ≤ 2 ^ bits * 2 ^ w := Nat.mul_le_mul_right _ hshort
      _ = 2 ^ (bits + w) := (pow_add 2 bits w).symm
  small := h.small

/-- A digit is written, of the first bits. -/
theorem emit (h : Stream w v read written bits rest) (hb : v ≤ bits) :
    Stream w v read (written ++ [rest / 2 ^ (bits - v)]) (bits - v) (rest % 2 ^ (bits - v)) where
  length := by
    rw [h.length, List.length_append, List.length_singleton, Nat.add_mul]
    omega
  value := by
    have hpow : 2 ^ bits = 2 ^ v * 2 ^ (bits - v) := by
      rw [← pow_add]
      congr 1
      omega
    have hrest := Nat.div_add_mod rest (2 ^ (bits - v))
    rw [h.value, value_snoc, hpow]
    calc _ = Digits.value (2 ^ v) written * (2 ^ v * 2 ^ (bits - v)) +
          (2 ^ (bits - v) * (rest / 2 ^ (bits - v)) + rest % 2 ^ (bits - v)) := by rw [hrest]
      _ = _ := by ring
  short := Nat.mod_lt _ (Nat.two_pow_pos _)
  small d hd := by
    rcases List.mem_append.mp hd with hd | hd
    · exact h.small d hd
    · rw [List.mem_singleton.mp hd, Nat.div_lt_iff_lt_mul (Nat.two_pow_pos _), ← pow_add]
      have hsum : v + (bits - v) = bits := by omega
      rw [hsum]
      exact h.short

/-- What is between is the end of what was read. -/
theorem rest_eq (h : Stream w v read written bits rest) :
    rest = Digits.value (2 ^ w) read % 2 ^ bits := by
  rw [h.value, Nat.mul_add_mod_self_right, Nat.mod_eq_of_lt h.short]

/-- With less than a digit between, what is written is known. -/
theorem unique {written' : List Nat} {bits' rest' : Nat} (h : Stream w v read written bits rest)
    (h' : Stream w v read written' bits' rest') (hb : bits < v) (hb' : bits' < v) :
    written = written' ∧ bits = bits' ∧ rest = rest' := by
  have hlen : written.length * v + bits = written'.length * v + bits' :=
    h.length.symm.trans h'.length
  have hbits : bits = bits' := by
    have hmod := congrArg (· % v) hlen
    simpa only [Nat.mul_add_mod_self_right, Nat.mod_eq_of_lt hb, Nat.mod_eq_of_lt hb'] using hmod
  subst hbits
  have hlength : written.length = written'.length :=
    Nat.eq_of_mul_eq_mul_right (by omega : 0 < v) (by omega)
  have hrest : rest = rest' := h.rest_eq.trans h'.rest_eq.symm
  subst hrest
  have hvalue : Digits.value (2 ^ v) written * 2 ^ bits =
      Digits.value (2 ^ v) written' * 2 ^ bits := by
    have heq := h.value.symm.trans h'.value
    omega
  exact ⟨value_injective h.small h'.small hlength
    (Nat.eq_of_mul_eq_mul_right (Nat.two_pow_pos _) hvalue), rfl, rfl⟩

/-- When no bits are over, what is written is the digits of what was read. -/
theorem eq_digits {k : Nat} (h : Stream w v read written bits rest) (hb : bits < v)
    (hlen : read.length * w = k * v) : written = digits (2 ^ v) k (Digits.value (2 ^ w) read) := by
  have hlength := h.length
  rw [hlen] at hlength
  have hmod := congrArg (· % v) hlength
  simp only [Nat.mul_mod_left, Nat.mul_add_mod_self_right, Nat.mod_eq_of_lt hb] at hmod
  obtain rfl : bits = 0 := hmod.symm
  obtain rfl : k = written.length := Nat.eq_of_mul_eq_mul_right hb hlength
  have hvalue := h.value
  have hzero : rest = 0 := by
    have hshort := h.short
    omega
  rw [pow_zero, Nat.mul_one, hzero, Nat.add_zero] at hvalue
  rw [hvalue, digits_value h.small]

end Stream

/-- The digits of `v` bits with the fewest zero bits added at the end. -/
def repack (w v : Nat) (ds : List Nat) : List Nat :=
  let n := (ds.length * w + (v - 1)) / v
  digits (2 ^ v) n (value (2 ^ w) ds * 2 ^ (n * v - ds.length * w))

section Repack

variable {w v : Nat} {ds : List Nat}

theorem length_repack (w v : Nat) (ds : List Nat) :
    (repack w v ds).length = (ds.length * w + (v - 1)) / v := length_digits _ _ _

theorem lt_of_mem_repack {d : Nat} (h : d ∈ repack w v ds) : d < 2 ^ v :=
  lt_of_mem_digits (Nat.two_pow_pos v) h

/-- Read back, the digits are there, and zero bits. -/
theorem stream_repack (hv : 0 < v) (h : ∀ d ∈ ds, d < 2 ^ w) :
    Stream v w (repack w v ds) ds ((repack w v ds).length * v - ds.length * w) 0 := by
  have hlen := length_repack w v ds
  have hroom : ds.length * w ≤ (repack w v ds).length * v := by
    have hdiv := Nat.div_add_mod (ds.length * w + (v - 1)) v
    have hmod := Nat.mod_lt (ds.length * w + (v - 1)) hv
    rw [hlen, Nat.mul_comm _ v]
    omega
  refine ⟨by omega, ?_, Nat.two_pow_pos _, h⟩
  have hbound : value (2 ^ w) ds * 2 ^ ((repack w v ds).length * v - ds.length * w) <
      (2 ^ v) ^ (repack w v ds).length := by
    have hpow : (2 ^ v) ^ (repack w v ds).length =
        (2 ^ w) ^ ds.length * 2 ^ ((repack w v ds).length * v - ds.length * w) := by
      rw [← pow_mul, ← pow_mul, ← pow_add]
      congr 1
      rw [Nat.mul_comm v, Nat.mul_comm w]
      omega
    rw [hpow]
    exact Nat.mul_lt_mul_of_pos_right (value_lt h) (Nat.two_pow_pos _)
  rw [hlen] at hbound ⊢
  rw [repack, value_digits, Nat.mod_eq_of_lt hbound, Nat.add_zero]

/-- There is no other way to pack the digits. -/
theorem repack_of_stream {es : List Nat} {bits : Nat} (h : Stream v w es ds bits 0)
    (hbits : bits < v) (hes : ∀ d ∈ es, d < 2 ^ v) : es = repack w v ds := by
  have hback := stream_repack (v := v) (by omega) h.small
  have hlen : es.length = (repack w v ds).length := by
    have hlength := h.length
    rw [length_repack]
    refine (Nat.div_eq_of_lt_le ?_ ?_).symm
    · omega
    · rw [Nat.add_mul]
      omega
  have hsame : bits = (repack w v ds).length * v - ds.length * w := by
    have hlength := h.length
    rw [hlen] at hlength
    omega
  refine value_injective hes (fun d hd => lt_of_mem_repack hd) hlen ?_
  rw [h.value, hback.value, hsame]

end Repack

end MkPool.Lib.Digits
