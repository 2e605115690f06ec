import Mathlib.Data.Nat.Bitwise
import MkPool.Lib.Digits

/-! # Checksums that are linear

A checksum that is shifted by a symbol for each symbol it reads, with what was
shifted out mixed into the rest. Addition is the exclusive or. -/
namespace MkPool.Lib.Polymod
open MkPool.Lib.Digits

/-- The sum of the generators that the bits of `b` choose. -/
def mix : List Nat → Nat → Nat
  | [], _ => 0
  | g :: gs, b => (if b % 2 = 1 then g else 0) ^^^ mix gs (b / 2)

theorem mix_xor (gens : List Nat) (a b : Nat) :
    mix gens (a ^^^ b) = mix gens a ^^^ mix gens b := by
  induction gens generalizing a b with
  | nil => exact (Nat.xor_self 0).symm
  | cons g gens ih =>
    have hbit : (a ^^^ b) % 2 = (a % 2 + b % 2) % 2 := by
      rw [Nat.xor_mod_two_eq, Nat.add_mod]
    have hhead : (if (a ^^^ b) % 2 = 1 then g else 0) =
        (if a % 2 = 1 then g else 0) ^^^ (if b % 2 = 1 then g else 0) := by
      rw [hbit]
      rcases Nat.mod_two_eq_zero_or_one a with ha | ha <;>
        rcases Nat.mod_two_eq_zero_or_one b with hb | hb <;> simp [ha, hb]
    unfold mix
    rw [hhead, Nat.xor_div_two, ih]
    ac_rfl

theorem mix_zero (gens : List Nat) : mix gens 0 = 0 := by
  have h := mix_xor gens 0 0
  rwa [Nat.xor_self, Nat.xor_self] at h

theorem mix_lt {gens : List Nat} {n : Nat} (h : ∀ g ∈ gens, g < 2 ^ n) (b : Nat) :
    mix gens b < 2 ^ n := by
  induction gens generalizing b with
  | nil => exact Nat.two_pow_pos n
  | cons g gens ih =>
    have hg : (if b % 2 = 1 then g else 0) < 2 ^ n := by
      split
      · exact h g List.mem_cons_self
      · exact Nat.two_pow_pos n
    exact Nat.xor_lt_two_pow hg (ih (fun g' hg' => h g' (List.mem_cons_of_mem _ hg')) _)

theorem zipWith_self (vs : List Nat) :
    List.zipWith (· ^^^ ·) vs vs = List.replicate vs.length 0 := by
  induction vs with
  | nil => rfl
  | cons v vs ih =>
    rw [List.zipWith_cons_cons, ih, Nat.xor_self]
    rfl

theorem zipWith_zeros (vs : List Nat) :
    List.zipWith (· ^^^ ·) (List.replicate vs.length 0) vs = vs := by
  induction vs with
  | nil => rfl
  | cons v vs ih =>
    rw [List.length_cons, List.replicate_succ, List.zipWith_cons_cons, ih, Nat.zero_xor]

/-- A checksum of `more + 1` symbols of `width` bits. What a symbol mixes in can
be told from its last symbol. -/
structure Code where
  width : Nat
  more : Nat
  gens : List Nat
  gens_lt : ∀ g ∈ gens, g < 2 ^ (width * (more + 1))
  full : ∀ b < 2 ^ width, mix gens b % 2 ^ width = 0 → b = 0

namespace Code

variable (C : Code)

/-- The bits of the checksum. -/
def size : Nat := C.width * (C.more + 1)

/-- The bits under the first symbol. -/
def low : Nat := C.width * C.more

theorem size_eq : C.size = C.low + C.width := Nat.mul_succ _ _

def step (c v : Nat) : Nat := ((c % 2 ^ C.low) <<< C.width) ^^^ v ^^^ mix C.gens (c >>> C.low)

def run (c : Nat) (vs : List Nat) : Nat := vs.foldl C.step c

/-- `n` symbols of zeros are read. -/
def shift (c n : Nat) : Nat := C.run c (List.replicate n 0)

@[simp] theorem run_nil (c : Nat) : C.run c [] = c := rfl

theorem run_cons (c v : Nat) (vs : List Nat) : C.run c (v :: vs) = C.run (C.step c v) vs := rfl

theorem run_append (c : Nat) (as bs : List Nat) :
    C.run c (as ++ bs) = C.run (C.run c as) bs := List.foldl_append

theorem step_xor (a b v w : Nat) : C.step (a ^^^ b) (v ^^^ w) = C.step a v ^^^ C.step b w := by
  unfold step
  rw [Nat.xor_mod_two_pow, Nat.shiftLeft_xor_distrib, Nat.shiftRight_xor_distrib, mix_xor]
  ac_rfl

theorem step_zero (v : Nat) : C.step 0 v = v := by
  unfold step
  rw [Nat.zero_mod, Nat.zero_shiftLeft, Nat.zero_shiftRight, mix_zero, Nat.zero_xor, Nat.xor_zero]

/-- The checksum of a sum is the sum of the checksums. -/
theorem run_xor (a b : Nat) (vs ws : List Nat) (h : vs.length = ws.length) :
    C.run (a ^^^ b) (List.zipWith (· ^^^ ·) vs ws) = C.run a vs ^^^ C.run b ws := by
  induction vs generalizing a b ws with
  | nil =>
    obtain rfl := List.length_eq_zero_iff.mp h.symm
    rfl
  | cons v vs ih =>
    cases ws with
    | nil => cases h
    | cons w ws =>
      rw [List.zipWith_cons_cons, run_cons, run_cons, run_cons, step_xor]
      exact ih _ _ _ (Nat.succ.inj h)

/-- What two starts leave after the same symbols. -/
theorem run_xor_same (a b : Nat) (vs : List Nat) :
    C.run a vs ^^^ C.run b vs = C.shift (a ^^^ b) vs.length := by
  rw [← C.run_xor a b vs vs rfl, zipWith_self]
  rfl

/-- What one symbol changes. -/
theorem run_changed (c : Nat) (as bs : List Nat) (v w : Nat) :
    C.run c (as ++ v :: bs) ^^^ C.run c (as ++ w :: bs) = C.shift (v ^^^ w) bs.length := by
  have hstep : C.step (C.run c as) v ^^^ C.step (C.run c as) w = v ^^^ w := by
    rw [← step_xor, Nat.xor_self, step_zero]
  rw [run_append, run_append, run_cons, run_cons, run_xor_same, hstep]

/-! ## Bounds -/

theorem step_lt {c v : Nat} (hv : v < 2 ^ C.size) : C.step c v < 2 ^ C.size := by
  have hlow : (c % 2 ^ C.low) <<< C.width < 2 ^ C.size := by
    rw [Nat.shiftLeft_eq, size_eq, pow_add]
    exact Nat.mul_lt_mul_of_pos_right (Nat.mod_lt _ (Nat.two_pow_pos _)) (Nat.two_pow_pos _)
  exact Nat.xor_lt_two_pow (Nat.xor_lt_two_pow hlow hv) (mix_lt C.gens_lt _)

theorem run_lt {c : Nat} {vs : List Nat} (hc : c < 2 ^ C.size) (hvs : ∀ v ∈ vs, v < 2 ^ C.size) :
    C.run c vs < 2 ^ C.size := by
  induction vs generalizing c with
  | nil => exact hc
  | cons v vs ih =>
    exact ih (C.step_lt (hvs v List.mem_cons_self)) fun w hw => hvs w (List.mem_cons_of_mem _ hw)

theorem shift_lt {c : Nat} (n : Nat) (hc : c < 2 ^ C.size) : C.shift c n < 2 ^ C.size :=
  C.run_lt hc fun v hv => by
    rw [(List.mem_replicate.mp hv).2]
    exact Nat.two_pow_pos _

/-- A symbol of zero loses nothing. -/
theorem step_eq_zero {c : Nat} (hc : c < 2 ^ C.size) (h : C.step c 0 = 0) : c = 0 := by
  have hmix : mix C.gens (c >>> C.low) % 2 ^ C.width = 0 := by
    have hmod := congrArg (· % 2 ^ C.width) h
    simpa only [step, Nat.xor_zero, Nat.xor_mod_two_pow, Nat.shiftLeft_eq, Nat.mul_mod_left,
      Nat.zero_xor, Nat.zero_mod] using hmod
  have htop : c >>> C.low = 0 := by
    refine C.full _ ?_ hmix
    rw [Nat.shiftRight_eq_div_pow, Nat.div_lt_iff_lt_mul (Nat.two_pow_pos _), ← pow_add,
      Nat.add_comm, ← size_eq]
    exact hc
  have hrest : (c % 2 ^ C.low) <<< C.width = 0 := by
    rwa [step, htop, mix_zero, Nat.xor_zero, Nat.xor_zero] at h
  have hlow : c % 2 ^ C.low = 0 := by
    rw [Nat.shiftLeft_eq] at hrest
    exact (Nat.mul_eq_zero.mp hrest).resolve_right (Nat.two_pow_pos _).ne'
  rw [Nat.shiftRight_eq_div_pow] at htop
  rw [← Nat.div_add_mod c (2 ^ C.low), htop, hlow, Nat.mul_zero]

theorem shift_eq_zero {c n : Nat} (hc : c < 2 ^ C.size) (h : C.shift c n = 0) : c = 0 := by
  induction n generalizing c with
  | zero => exact h
  | succ n ih =>
    exact C.step_eq_zero hc (ih (C.step_lt (Nat.two_pow_pos _)) h)

/-- **One wrong symbol is found.** The checksum is another one. -/
theorem run_ne {c : Nat} {as bs : List Nat} {v w : Nat} (hv : v < 2 ^ C.size)
    (hw : w < 2 ^ C.size) (hne : v ≠ w) :
    C.run c (as ++ v :: bs) ≠ C.run c (as ++ w :: bs) := by
  intro he
  have hchanged := C.run_changed c as bs v w
  rw [he, Nat.xor_self] at hchanged
  exact hne (Nat.xor_eq_zero_iff.mp (C.shift_eq_zero (Nat.xor_lt_two_pow hv hw) hchanged.symm))

/-! ## The symbols of a checksum -/

/-- The symbols that lead to `target` after `c`. -/
def symbols (c target : Nat) : List Nat :=
  digits (2 ^ C.width) (C.more + 1) (C.shift c (C.more + 1) ^^^ target)

@[simp] theorem length_symbols (c target : Nat) : (C.symbols c target).length = C.more + 1 :=
  length_digits _ _ _

theorem lt_of_mem_symbols {c target v : Nat} (h : v ∈ C.symbols c target) : v < 2 ^ C.width :=
  lt_of_mem_digits (Nat.two_pow_pos _) h

/-- Symbols after a zero are kept, as long as there is room for them. -/
theorem run_zero {vs : List Nat} (hlen : vs.length ≤ C.more + 1)
    (hvs : ∀ v ∈ vs, v < 2 ^ C.width) : C.run 0 vs = value (2 ^ C.width) vs := by
  induction vs using List.reverseRecOn with
  | nil => rfl
  | append_singleton vs v ih =>
    rw [List.length_append, List.length_singleton] at hlen
    have hv : v < 2 ^ C.width := hvs v (by simp)
    have hrest : ∀ w ∈ vs, w < 2 ^ C.width := fun w hw => hvs w (List.mem_append_left _ hw)
    have hlow : value (2 ^ C.width) vs < 2 ^ C.low := by
      refine Nat.lt_of_lt_of_le (value_lt hrest) ?_
      rw [← pow_mul]
      exact Nat.pow_le_pow_right (by omega) (Nat.mul_le_mul_left _ (by omega))
    rw [run_append, ih (by omega) hrest, value_snoc]
    show C.step _ v = _
    unfold step
    rw [Nat.mod_eq_of_lt hlow, Nat.shiftRight_eq_div_pow, Nat.div_eq_of_lt hlow, mix_zero,
      Nat.xor_zero]
    refine Eq.trans (Nat.div_add_mod _ (2 ^ C.width)).symm ?_
    rw [Nat.xor_div_two_pow, Nat.xor_mod_two_pow, Nat.shiftLeft_eq,
      Nat.mul_div_cancel _ (Nat.two_pow_pos _), Nat.mul_mod_left, Nat.div_eq_of_lt hv,
      Nat.mod_eq_of_lt hv, Nat.xor_zero, Nat.zero_xor, Nat.mul_comm]

/-- **The symbols are the only ones.** -/
theorem run_eq_iff {c target : Nat} {as cs : List Nat} (hc : C.run c as < 2 ^ C.size)
    (ht : target < 2 ^ C.size) (hlen : cs.length = C.more + 1) (hcs : ∀ v ∈ cs, v < 2 ^ C.width) :
    C.run c (as ++ cs) = target ↔ cs = C.symbols (C.run c as) target := by
  have hrun : C.run c (as ++ cs) =
      C.shift (C.run c as) (C.more + 1) ^^^ value (2 ^ C.width) cs := by
    have hxor := C.run_xor (C.run c as) 0 (List.replicate cs.length 0) cs List.length_replicate
    rw [zipWith_zeros, Nat.xor_zero, C.run_zero hlen.le hcs, hlen] at hxor
    rw [run_append, hxor]
    rfl
  have hlt : C.shift (C.run c as) (C.more + 1) ^^^ target < (2 ^ C.width) ^ (C.more + 1) := by
    rw [← pow_mul]
    exact Nat.xor_lt_two_pow (C.shift_lt _ hc) ht
  rw [hrun]
  constructor
  · intro he
    have hvalue : value (2 ^ C.width) cs = C.shift (C.run c as) (C.more + 1) ^^^ target := by
      rw [← he, Nat.xor_xor_cancel_left]
    unfold symbols
    rw [← hvalue, ← hlen, digits_value hcs]
  · intro he
    rw [he, symbols, value_digits, Nat.mod_eq_of_lt hlt, Nat.xor_xor_cancel_left]

end Code

end MkPool.Lib.Polymod
