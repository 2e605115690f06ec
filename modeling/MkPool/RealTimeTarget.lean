import Mathlib.Data.Finset.Lattice.Fold
import Mathlib.Data.Nat.Bitwise
import Mathlib.Data.Nat.Size
import MkPool.CompactTarget
import MkPool.Lib.ShortFloat

/-! # The real-time target of eCash

`ecash_rtt_ok` of `utils.hpp`, over the numbers of an ordered field, with the
five factors as positive constants. -/
namespace MkPool.RealTimeTarget
open MkPool.Lib MkPool.Lib.ShortFloat MkPool.Utils MkPool.CompactTarget

variable {K : Type*} [Field K] [LinearOrder K]

/-! ## The source -/

section Source
variable [FloorRing K]

/-- The mantissa and the size as they are normalized: no sign bit. -/
def renormalized (compact : UInt32) (size : Nat) : UInt32 × Nat :=
  if compact &&& 0x00800000 ≠ 0 then (compact >>> 8, size + 1) else (compact, size)

/-- `target_double_to_compact`. `frexp` gives the number of bits. -/
def targetDoubleToCompact (t : K) : UInt32 :=
  if ¬ 1 ≤ t then 0
  else
    let nbits := Nat.size ⌊t⌋₊
    let size := (nbits + 7) / 8
    let shifted := if size ≤ 3 then t * 2 ^ (8 * (3 - size)) else t / 2 ^ (8 * (size - 3))
    let (compact, size) := renormalized (UInt32.ofNat ⌊shifted⌋₊) size
    compact ||| (UInt32.ofNat size <<< 24)

/-- `if (!have || tgt < minTarget) minTarget = tgt`. -/
def lesser (minTarget : Option K) (tgt : K) : K :=
  match minTarget with
  | none => tgt
  | some m => if tgt < m then tgt else m

/-- The loop over the five windows. It ends early where a time is missing. -/
def minTargetLoop (fact : Fin 5 → K) (prevheadertime : Fin 5 → UInt32) (prevTarget : K)
    (now : Int) : List (Fin 5) → Option K → Option (Option K)
  | [], minTarget => some minTarget
  | k :: ks, minTarget =>
    if prevheadertime k = 0 then none
    else
      let dt : K := (now - (prevheadertime k).toNat : Int)
      let dt := if dt < 1 then 1 else dt
      let tgt := prevTarget * fact k * dt ^ 5
      minTargetLoop fact prevheadertime prevTarget now ks (some (lesser minTarget tgt))

/-- `ecash_rtt_ok`. -/
def ecashRttOk (fact : Fin 5 → K) (prevheadertime : Fin 5 → UInt32) (prevbits : UInt32)
    (now : Int) (hashBe : Hash256) : Option Bool :=
  let exp := prevbits >>> 24
  let mant := prevbits &&& 0x007fffff
  if mant = 0 ∨ exp < 3 ∨ 32 < exp then some true
  else
    let prevTarget : K := mant.toNat * 2 ^ (8 * (exp.toNat - 3))
    match minTargetLoop fact prevheadertime prevTarget now (List.finRange 5) none with
    | none | some none => some true
    | some (some minTarget) =>
      if 2 ^ 256 ≤ minTarget then some true
      else
        let compact := targetDoubleToCompact minTarget
        if (32 : UInt32) < compact >>> 24 then some true
        else (Utils.targetFromBitsHex (intToHex compact 8)).map fun tgtBe =>
          byteLe hashBe.bytes tgtBe.bytes

end Source

/-! ## The intended comparison -/

/-- The number of `prevbits`, its sign bit left out. -/
def prevTarget (K : Type*) [Field K] (prevbits : UInt32) : K :=
  (prevbits.toNat % 2 ^ 23 : ℕ) * 256 ^ (exponent prevbits - 3)

/-- The target of one window. -/
def windowTarget (fact : Fin 5 → K) (prevheadertime : Fin 5 → UInt32) (prevbits : UInt32)
    (now : Int) (k : Fin 5) : K :=
  prevTarget K prevbits * fact k * max 1 ((now - (prevheadertime k).toNat : Int) : K) ^ 5

/-- The least of them. -/
def rttTarget (fact : Fin 5 → K) (prevheadertime : Fin 5 → UInt32) (prevbits : UInt32)
    (now : Int) : K :=
  Finset.univ.inf' ⟨0, Finset.mem_univ 0⟩ (windowTarget fact prevheadertime prevbits now)

/-! ## The loop -/

section Loop
variable {fact : Fin 5 → K} {prevheadertime : Fin 5 → UInt32} {prevbits : UInt32}
  {now : Int}

omit [Field K] in
theorem lesser_spec (acc : Option K) (tgt : K) :
    lesser acc tgt ≤ tgt ∧ (∀ a ∈ acc, lesser acc tgt ≤ a) ∧
      (lesser acc tgt = tgt ∨ acc = some (lesser acc tgt)) := by
  cases acc with
  | none =>
    refine ⟨le_rfl, fun a ha => ?_, .inl rfl⟩
    cases ha
  | some m =>
    unfold lesser
    dsimp only
    split
    · rename_i hlt
      exact ⟨le_rfl, fun a ha => (Option.some.inj ha) ▸ hlt.le, .inl rfl⟩
    · rename_i hge
      exact ⟨not_lt.mp hge, fun a ha => (Option.some.inj ha).le, .inr rfl⟩

theorem minTargetLoop_spec (htimes : ∀ k, prevheadertime k ≠ 0) (ks : List (Fin 5))
    (acc : Option K) (hne : acc = none → ks ≠ []) :
    ∃ m, minTargetLoop fact prevheadertime (prevTarget K prevbits) now ks acc = some (some m) ∧
      (∀ k ∈ ks, m ≤ windowTarget fact prevheadertime prevbits now k) ∧ (∀ a ∈ acc, m ≤ a) ∧
      ((∃ k ∈ ks, m = windowTarget fact prevheadertime prevbits now k) ∨ acc = some m) := by
  induction ks generalizing acc with
  | nil =>
    cases acc with
    | none => exact absurd rfl (hne rfl)
    | some a =>
      refine ⟨a, rfl, fun k hk => ?_, fun b hb => (Option.some.inj hb).le, .inr rfl⟩
      cases hk
  | cons k ks ih =>
    have htgt : prevTarget K prevbits * fact k *
        (if ((now - (prevheadertime k).toNat : Int) : K) < 1 then 1
          else ((now - (prevheadertime k).toNat : Int) : K)) ^ 5 =
        windowTarget fact prevheadertime prevbits now k := by
      unfold windowTarget
      congr 2
      split
      · rename_i hlt
        exact (max_eq_left hlt.le).symm
      · rename_i hge
        exact (max_eq_right (not_lt.mp hge)).symm
    unfold minTargetLoop
    rw [if_neg (htimes k)]
    dsimp only
    rw [htgt]
    obtain ⟨m, hloop, hall, hacc, hone⟩ :=
      ih (some (lesser acc (windowTarget fact prevheadertime prevbits now k))) fun h => by cases h
    obtain ⟨hle, hle', hor⟩ := lesser_spec acc (windowTarget fact prevheadertime prevbits now k)
    have hm := hacc _ rfl
    refine ⟨m, hloop, fun k' hk' => ?_, fun a ha => hm.trans (hle' a ha), ?_⟩
    · rcases List.mem_cons.mp hk' with rfl | hk'
      · exact hm.trans hle
      · exact hall k' hk'
    · rcases hone with ⟨k', hk', rfl⟩ | heq
      · exact .inl ⟨k', List.mem_cons_of_mem k hk', rfl⟩
      · obtain rfl := Option.some.inj heq
        exact hor.imp (fun h => ⟨k, List.mem_cons_self .., h⟩) id

theorem minTargetLoop_eq (htimes : ∀ k, prevheadertime k ≠ 0) :
    minTargetLoop fact prevheadertime (prevTarget K prevbits) now (List.finRange 5) none =
      some (some (rttTarget fact prevheadertime prevbits now)) := by
  have hspec : ∃ m, minTargetLoop fact prevheadertime (prevTarget K prevbits) now
      (List.finRange 5) none = some (some m) ∧ _ :=
    minTargetLoop_spec htimes (List.finRange 5) none (fun _ => List.cons_ne_nil _ _)
  obtain ⟨m, hloop, hall, -, hone⟩ := hspec
  obtain ⟨k, -, rfl⟩ := hone.resolve_right fun h => by cases h
  rw [hloop]
  congr 2
  refine le_antisymm (Finset.le_inf' _ _ fun k' _ => hall k' (List.mem_finRange k')) ?_
  exact Finset.inf'_le _ (Finset.mem_univ k)

end Loop

/-! ## The compact word -/

theorem word_parts {M s : Nat} (hM : M < 2 ^ 24) (hs : s < 256) :
    exponent (UInt32.ofNat M ||| UInt32.ofNat s <<< 24) = s ∧
      mantissa (UInt32.ofNat M ||| UInt32.ofNat s <<< 24) = M := by
  have hsmall : (UInt32.ofNat M).toNat = M := by
    rw [UInt32.toNat_ofNat']
    omega
  have hsize : (UInt32.ofNat s).toNat = s := by
    rw [UInt32.toNat_ofNat']
    omega
  have hshift : (UInt32.ofNat s <<< 24).toNat = s <<< 24 := by
    rw [UInt32.toNat_shiftLeft, hsize]
    refine Nat.mod_eq_of_lt ?_
    show s <<< 24 < 2 ^ 32
    rw [Nat.shiftLeft_eq]
    omega
  have hword : (UInt32.ofNat M ||| UInt32.ofNat s <<< 24).toNat = s * 2 ^ 24 + M := by
    rw [UInt32.toNat_or, hsmall, hshift, Nat.or_comm, ← Nat.shiftLeft_add_eq_or_of_lt hM,
      Nat.shiftLeft_eq]
  unfold exponent mantissa
  rw [hword]
  omega

theorem renormalized_eq {M s : Nat} (hM : M < 2 ^ 24) : renormalized (UInt32.ofNat M) s =
    if M < 2 ^ 23 then (UInt32.ofNat M, s) else (UInt32.ofNat (M / 256), s + 1) := by
  have hsmall : (UInt32.ofNat M).toNat = M := by
    rw [UInt32.toNat_ofNat']
    omega
  have hbit : (UInt32.ofNat M &&& 0x00800000 ≠ 0) ↔ ¬ M < 2 ^ 23 := by
    have hand : (UInt32.ofNat M &&& 0x00800000).toNat = M / 2 ^ 23 % 2 * 2 ^ 23 := by
      rw [UInt32.toNat_and, hsmall]
      show M &&& 2 ^ 23 = _
      rw [Nat.and_two_pow, Nat.testBit_eq_decide_div_mod_eq]
      rcases Nat.mod_two_eq_zero_or_one (M / 2 ^ 23) with h | h <;> rw [h] <;> rfl
    rw [ne_eq, ← UInt32.toNat_inj, hand]
    show ¬ M / 2 ^ 23 % 2 * 2 ^ 23 = 0 ↔ _
    omega
  unfold renormalized
  by_cases hlow : M < 2 ^ 23
  · rw [if_pos hlow, if_neg fun h => hbit.mp h hlow]
  · rw [if_neg hlow, if_pos (hbit.mpr hlow)]
    congr 1
    rw [← UInt32.toNat_inj, UInt32.toNat_shiftRight, hsmall, UInt32.toNat_ofNat']
    show M >>> 8 = _
    rw [Nat.shiftRight_eq_div_pow]
    omega

section Compact
variable [IsStrictOrderedRing K] [FloorRing K] {t : K}

/-- What a compact word stands for. -/
structure Truncates (t : K) (w : UInt32) : Prop where
  short : IsTruncated 256 (2 ^ 23) 3 t (mantissa w * (256 : ℕ) ^ ((exponent w : ℤ) - 3))
  size : exponent w ≤ 33
  full : exponent w = 33 → 2 ^ 15 ≤ mantissa w

/-- The size of a number in bytes. -/
theorem bytes_size {n : Nat} (hn : n ≠ 0) :
    256 ^ ((Nat.size n + 7) / 8 - 1) ≤ n ∧ n < 256 ^ ((Nat.size n + 7) / 8) ∧
      0 < (Nat.size n + 7) / 8 := by
  have hpos : 0 < Nat.size n := Nat.size_pos.mpr (Nat.pos_of_ne_zero hn)
  have hpow (k : Nat) : 256 ^ k = 2 ^ (8 * k) := by rw [pow_mul]; rfl
  rw [hpow, hpow]
  exact ⟨Nat.lt_size.mp (by omega), Nat.size_le.mp (by omega), by omega⟩

theorem truncates_of_large (hone : 1 ≤ t) (hlt : t < 2 ^ 256) :
    Truncates t (targetDoubleToCompact t) := by
  have hzero : (0 : K) ≤ t := zero_le_one.trans hone
  have hbase : (0 : K) < 256 := by norm_num
  have hn : ⌊t⌋₊ ≠ 0 := Nat.one_le_iff_ne_zero.mp (Nat.one_le_floor_iff t |>.mpr hone)
  obtain ⟨hlow, hhigh, hpos⟩ := bytes_size hn
  have hsize : (Nat.size ⌊t⌋₊ + 7) / 8 ≤ 32 := by
    have hfloor : ⌊t⌋₊ < 2 ^ 256 := (Nat.floor_lt hzero).mpr (by exact_mod_cast hlt)
    have := Nat.size_le.mpr hfloor
    omega
  unfold targetDoubleToCompact
  rw [if_neg (not_not.mpr hone)]
  dsimp only
  generalize (Nat.size ⌊t⌋₊ + 7) / 8 = s at hlow hhigh hpos hsize ⊢
  have hshifted : (if s ≤ 3 then t * 2 ^ (8 * (3 - s)) else t / 2 ^ (8 * (s - 3))) =
      t * (256 : K) ^ ((3 : ℤ) - s) := by
    have hbyte : (256 : K) = 2 ^ 8 := by norm_num
    split
    · rename_i hle
      have hexp : (3 : ℤ) - s = ((3 - s : ℕ) : ℤ) := by omega
      rw [hexp, zpow_natCast, hbyte, ← pow_mul]
    · rename_i hnot
      have hexp : (3 : ℤ) - s = -((s - 3 : ℕ) : ℤ) := by omega
      rw [hexp, zpow_neg, zpow_natCast, hbyte, ← pow_mul, div_eq_mul_inv]
  rw [hshifted]
  have hback : t = t * (256 : K) ^ ((3 : ℤ) - s) * (256 : K) ^ ((s : ℤ) - 3) := by
    rw [mul_assoc, ← zpow_add₀ hbase.ne', show (3 : ℤ) - s + (s - 3) = 0 by ring, zpow_zero,
      mul_one]
  have hunit : (0 : K) < (256 : K) ^ ((3 : ℤ) - s) := zpow_pos hbase _
  have hshift (k j : ℕ) (h : (k : ℤ) = j + (3 - s)) :
      ((256 ^ k : ℕ) : K) = ((256 ^ j : ℕ) : K) * (256 : K) ^ ((3 : ℤ) - s) := by
    push_cast
    rw [← zpow_natCast, ← zpow_natCast, ← zpow_add₀ hbase.ne', h]
  have hxlow : ((256 ^ 2 : ℕ) : K) ≤ t * (256 : K) ^ ((3 : ℤ) - s) := by
    rw [hshift 2 (s - 1) (by omega)]
    exact mul_le_mul_of_nonneg_right ((Nat.cast_le.mpr hlow).trans (Nat.floor_le hzero)) hunit.le
  have hxhigh : t * (256 : K) ^ ((3 : ℤ) - s) < ((256 ^ 3 : ℕ) : K) := by
    rw [hshift 3 s (by omega)]
    exact mul_lt_mul_of_pos_right ((Nat.floor_lt hzero).mp hhigh) hunit
  generalize t * (256 : K) ^ ((3 : ℤ) - s) = x at hback hxlow hxhigh ⊢
  have hx : 0 ≤ x := (Nat.cast_nonneg _).trans hxlow
  have hMlow : 2 ^ 16 ≤ ⌊x⌋₊ := Nat.le_floor hxlow
  have hMhigh : ⌊x⌋₊ < 2 ^ 24 := (Nat.floor_lt hx).mpr hxhigh
  have hfloor := Nat.floor_le hx
  have hnext := Nat.lt_floor_add_one x
  have hscale : (0 : K) < (256 : K) ^ ((s : ℤ) - 3) := zpow_pos hbase _
  rw [renormalized_eq hMhigh]
  generalize ⌊x⌋₊ = M at hMlow hMhigh hfloor hnext ⊢
  split
  · rename_i hM
    dsimp only
    obtain ⟨he, hm⟩ := word_parts hMhigh (by omega : s < 256)
    refine ⟨?_, by omega, fun h => by omega⟩
    rw [he, hm]
    refine isTruncated_of_bounds (by decide) hM (.inl (by omega)) ?_ ?_
    · rw [hback]
      exact mul_le_mul_of_nonneg_right hfloor hscale.le
    · rw [hback]
      exact mul_lt_mul_of_pos_right hnext hscale
  · rename_i hM
    dsimp only
    obtain ⟨he, hm⟩ := word_parts (M := M / 256) (s := s + 1) (by omega) (by omega)
    refine ⟨?_, by omega, fun h => by omega⟩
    rw [he, hm]
    have hstep : ((256 : ℕ) : K) ^ (((s + 1 : ℕ) : ℤ) - (3 : ℕ)) =
        256 * (256 : K) ^ ((s : ℤ) - 3) := by
      rw [Nat.cast_ofNat, ← zpow_one_add₀ hbase.ne']
      congr 1
      push_cast
      ring
    refine isTruncated_of_bounds (by decide) (by omega) (.inl (by omega)) ?_ ?_
    · rw [hback, hstep, ← mul_assoc]
      refine mul_le_mul_of_nonneg_right (le_trans ?_ hfloor) hscale.le
      exact_mod_cast Nat.div_mul_le_self M 256
    · rw [hback, hstep, ← mul_assoc]
      refine mul_lt_mul_of_pos_right (hnext.trans_le ?_) hscale
      have : M + 1 ≤ (M / 256 + 1) * 256 := by omega
      exact_mod_cast this

theorem exists_truncated (hpos : 0 < t) (hlt : t < 1) :
    ∃ C, IsTruncated 256 (2 ^ 23) 3 t C ∧ 0 ≤ C := by
  have hbase : (0 : K) < 256 := by norm_num
  have hscaled (E k : ℕ) (hk : E + k = 3) : t * 256 ^ k * ((256 : ℕ) : K) ^ ((E : ℤ) - (3 : ℕ)) =
      t := by
    have hexp : (E : ℤ) - (3 : ℕ) = -((k : ℕ) : ℤ) := by omega
    rw [hexp, Nat.cast_ofNat, zpow_neg, zpow_natCast, mul_assoc,
      mul_inv_cancel₀ (pow_pos hbase k).ne', mul_one]
  have htruncated (E k : ℕ) (hk : E + k = 3) (hM : ⌊t * 256 ^ k⌋₊ < 2 ^ 23)
      (hfull : 2 ^ 23 ≤ ⌊t * 256 ^ k⌋₊ * 256 ∨ E = 0) :
      ∃ C, IsTruncated 256 (2 ^ 23) 3 t C ∧ 0 ≤ C := by
    have hunit : (0 : K) < ((256 : ℕ) : K) ^ ((E : ℤ) - (3 : ℕ)) := by
      exact zpow_pos (by exact_mod_cast hbase) _
    have hle := Nat.floor_le (mul_pos hpos (pow_pos hbase k)).le
    have hnext := Nat.lt_floor_add_one (t * 256 ^ k)
    refine ⟨_, isTruncated_of_bounds (by decide) hM hfull ?_ ?_,
      mul_nonneg (Nat.cast_nonneg _) hunit.le⟩
    · exact (mul_le_mul_of_nonneg_right hle hunit.le).trans (hscaled E k hk).le
    · exact (hscaled E k hk).symm.le.trans_lt (mul_lt_mul_of_pos_right hnext hunit)
  have hfloor (k n : ℕ) : ⌊t * 256 ^ k⌋₊ < n ↔ t * 256 ^ k < n :=
    Nat.floor_lt (mul_pos hpos (pow_pos hbase k)).le
  by_cases hsmall : t * 256 ^ 3 < ((2 ^ 23 : ℕ) : K)
  · exact htruncated 0 3 rfl ((hfloor 3 _).mpr hsmall) (.inr rfl)
  · have hlarge : 2 ^ 15 ≤ ⌊t * 256 ^ 2⌋₊ := by
      refine Nat.le_floor ?_
      have hge := not_lt.mp hsmall
      push_cast at hge ⊢
      linarith
    refine htruncated 1 2 rfl ((hfloor 2 _).mpr ?_) (.inl (by omega))
    push_cast
    linarith

end Compact

/-! ## The gate -/

section Gate
variable [IsStrictOrderedRing K] [FloorRing K] {fact : Fin 5 → K}
  {prevheadertime : Fin 5 → UInt32} {prevbits : UInt32} {now : Int} {hash : Hash256}

/-- The gate is open exactly where the hash is at most the truncated target. -/
structure Compares (fact : Fin 5 → K) (prevheadertime : Fin 5 → UInt32) (prevbits : UInt32)
    (now : Int) (hash : Hash256) : Prop where
  above : 2 ^ 256 ≤ rttTarget fact prevheadertime prevbits now →
    ecashRttOk fact prevheadertime prevbits now hash = some true
  below : rttTarget fact prevheadertime prevbits now < 2 ^ 256 →
    ∃ C ok, IsTruncated 256 (2 ^ 23) 3 (rttTarget fact prevheadertime prevbits now) C ∧
      ecashRttOk fact prevheadertime prevbits now hash = some ok ∧
      (ok = true ↔ (beValue hash.bytes : K) ≤ C)

omit [IsStrictOrderedRing K] in
theorem ecashRttOk_eq (htimes : ∀ k, prevheadertime k ≠ 0) (hmant : prevbits.toNat % 2 ^ 23 ≠ 0)
    (hlow : 3 ≤ exponent prevbits) (hhigh : exponent prevbits ≤ 32) :
    ecashRttOk fact prevheadertime prevbits now hash =
      if 2 ^ 256 ≤ rttTarget fact prevheadertime prevbits now then some true
      else
        if 32 < exponent (targetDoubleToCompact (rttTarget fact prevheadertime prevbits now)) then
          some true
        else
          (Utils.targetFromBitsHex (intToHex (targetDoubleToCompact
            (rttTarget fact prevheadertime prevbits now)) 8)).map fun tgtBe =>
              byteLe hash.bytes tgtBe.bytes := by
  have hexp (w : UInt32) : (w >>> 24).toNat = exponent w := by
    rw [UInt32.toNat_shiftRight]
    exact Nat.shiftRight_eq_div_pow _ _
  have hmask : (prevbits &&& 0x007fffff).toNat = prevbits.toNat % 2 ^ 23 := by
    rw [UInt32.toNat_and]
    exact Nat.and_two_pow_sub_one_eq_mod _ 23
  have hgates : ¬ (prevbits &&& 0x007fffff = 0 ∨ prevbits >>> 24 < 3 ∨
      (32 : UInt32) < prevbits >>> 24) := by
    rw [← UInt32.toNat_inj, hmask, UInt32.lt_iff_toNat_lt, UInt32.lt_iff_toNat_lt, hexp]
    show ¬ (prevbits.toNat % 2 ^ 23 = 0 ∨ exponent prevbits < 3 ∨ 32 < exponent prevbits)
    omega
  have hprev : ((prevbits &&& 0x007fffff).toNat : K) *
      (2 : K) ^ (8 * ((prevbits >>> 24).toNat - 3)) = prevTarget K prevbits := by
    have hbyte : (256 : K) = 2 ^ 8 := by norm_num
    rw [hmask, hexp, prevTarget, hbyte, ← pow_mul]
  unfold ecashRttOk
  dsimp only
  rw [if_neg hgates, hprev, minTargetLoop_eq htimes]
  dsimp only
  congr 1
  refine if_congr ?_ rfl rfl
  rw [UInt32.lt_iff_toNat_lt, hexp]
  rfl

omit [FloorRing K] in
theorem rttTarget_pos (hfact : ∀ k, 0 < fact k) (hmant : prevbits.toNat % 2 ^ 23 ≠ 0) :
    0 < rttTarget fact prevheadertime prevbits now := by
  have hprev : 0 < prevTarget K prevbits := by
    unfold prevTarget
    have : (0 : K) < (prevbits.toNat % 2 ^ 23 : ℕ) := by exact_mod_cast Nat.pos_of_ne_zero hmant
    positivity
  refine (Finset.lt_inf'_iff _).mpr fun k _ => ?_
  have hdt : (0 : K) < max 1 ((now - (prevheadertime k).toNat : Int) : K) :=
    zero_lt_one.trans_le (le_max_left _ _)
  exact mul_pos (mul_pos hprev (hfact k)) (pow_pos hdt 5)

/-- A hash compared with the target of a word. -/
theorem byteLe_expanded {w : UInt32} {tgt : Hash256} (hw : exponent w ≤ 32)
    (hv : beValue tgt.bytes = expanded w) : byteLe hash.bytes tgt.bytes = true ↔
      (beValue hash.bytes : K) ≤ mantissa w * ((256 : ℕ) : K) ^ ((exponent w : ℤ) - 3) := by
  have hbase : (0 : K) < 256 := by norm_num
  rw [byteLe_iff (hash.size.trans tgt.size.symm), hv, expanded, if_pos hw,
    Nat.le_div_iff_mul_le (by decide), zpow_sub₀ (by exact_mod_cast hbase.ne'), zpow_natCast,
    ← mul_div_assoc, le_div_iff₀ (by positivity)]
  exact_mod_cast Iff.rfl

theorem compares (hfact : ∀ k, 0 < fact k) (htimes : ∀ k, prevheadertime k ≠ 0)
    (hmant : prevbits.toNat % 2 ^ 23 ≠ 0) (hlow : 3 ≤ exponent prevbits)
    (hhigh : exponent prevbits ≤ 32) (hhash : beValue hash.bytes < 2 ^ 255) :
    Compares fact prevheadertime prevbits now hash := by
  have hpos : 0 < rttTarget fact prevheadertime prevbits now := rttTarget_pos hfact hmant
  have heq : ecashRttOk fact prevheadertime prevbits now hash = _ :=
    ecashRttOk_eq htimes hmant hlow hhigh
  constructor
  · intro hlarge
    rw [heq, if_pos hlarge]
  · intro hlt
    rw [heq, if_neg (not_le.mpr hlt)]
    generalize rttTarget fact prevheadertime prevbits now = m at hpos hlt ⊢
    by_cases hone : 1 ≤ m
    · have htr := truncates_of_large hone hlt
      generalize targetDoubleToCompact m = w at htr ⊢
      by_cases hsize : 32 < exponent w
      · -- past 256 bits: every hash that is left is below
        refine ⟨_, true, htr.short, if_pos hsize, iff_of_true rfl ?_⟩
        have hsize : exponent w = 33 := by
          have := htr.size
          omega
        have hfull := htr.full hsize
        have hscale : ((256 : ℕ) : K) ^ ((exponent w : ℤ) - 3) = ((256 ^ 30 : ℕ) : K) := by
          rw [hsize, Nat.cast_pow, ← zpow_natCast]
          rfl
        have hbelow : beValue hash.bytes ≤ mantissa w * 256 ^ 30 := by
          refine hhash.le.trans (le_trans ?_ (Nat.mul_le_mul_right (256 ^ 30) hfull))
          norm_num
        rw [hscale]
        exact_mod_cast hbelow
      · obtain ⟨tgt, htgt, hv⟩ := unchecked_of_word (hexToBytes_intToHex w)
        refine ⟨_, byteLe hash.bytes tgt.bytes, htr.short, ?_, byteLe_expanded (by omega) hv⟩
        rw [if_neg hsize, htgt]
        rfl
    · obtain ⟨C, hC, hnonneg⟩ := exists_truncated hpos (not_le.mp hone)
      have hzero : targetDoubleToCompact m = 0 := if_pos hone
      refine ⟨C, byteLe hash.bytes Hash256.zero.bytes, hC, ?_, ?_⟩
      · rw [hzero]
        rfl
      · rw [byteLe_iff (hash.size.trans Hash256.zero.size.symm)]
        have hnone : beValue Hash256.zero.bytes = 0 := beValue_zeros 32
        rw [hnone]
        constructor
        · intro h
          rw [Nat.le_zero.mp h, Nat.cast_zero]
          exact hnonneg
        · intro h
          have hlt1 : (beValue hash.bytes : K) < 1 :=
            h.trans_lt (hC.1.2.trans_lt (not_le.mp hone))
          exact Nat.le_of_lt_succ (by exact_mod_cast hlt1)

omit [FloorRing K] in
theorem rttTarget_mono (hfact : ∀ k, 0 < fact k) {later : Int} (hle : now ≤ later) :
    rttTarget fact prevheadertime prevbits now ≤ rttTarget fact prevheadertime prevbits later := by
  refine Finset.le_inf' _ _ fun k hk => (Finset.inf'_le _ hk).trans ?_
  have hdt : (now - (prevheadertime k).toNat : Int) ≤ later - (prevheadertime k).toNat := by omega
  have hprev : 0 ≤ prevTarget K prevbits :=
    mul_nonneg (Nat.cast_nonneg _) (pow_nonneg (by norm_num) _)
  refine mul_le_mul_of_nonneg_left ?_ (mul_nonneg hprev (hfact k).le)
  exact pow_le_pow_left₀ (zero_le_one.trans (le_max_left _ _))
    (max_le_max le_rfl (by exact_mod_cast hdt)) 5

/-- A gate that is open stays open for a later time and a smaller hash. -/
theorem Compares.open_mono {later : Int} {smaller : Hash256} (hfact : ∀ k, 0 < fact k)
    (h : Compares fact prevheadertime prevbits now hash)
    (h' : Compares fact prevheadertime prevbits later smaller) (hnow : now ≤ later)
    (hhash : beValue smaller.bytes ≤ beValue hash.bytes)
    (hopen : ecashRttOk fact prevheadertime prevbits now hash = some true) :
    ecashRttOk fact prevheadertime prevbits later smaller = some true := by
  have hmono : rttTarget fact prevheadertime prevbits now ≤
      rttTarget fact prevheadertime prevbits later := rttTarget_mono hfact hnow
  by_cases hlarge : 2 ^ 256 ≤ rttTarget fact prevheadertime prevbits later
  · exact h'.above hlarge
  · obtain ⟨D, ok', hD, hok', hiff'⟩ := h'.below (not_le.mp hlarge)
    obtain ⟨C, ok, hC, hok, hiff⟩ := h.below (hmono.trans_lt (not_le.mp hlarge))
    obtain rfl := Option.some.inj (hok.symm.trans hopen)
    have hle : (beValue smaller.bytes : K) ≤ D :=
      (Nat.cast_le.mpr hhash).trans ((hiff.mp rfl).trans (hC.mono hD hmono))
    rw [hok', hiff'.mpr hle]

end Gate

/-- **The real-time target is the intended comparison.** A hash that meets the
previous target passes exactly where it is at most the truncated least target of
the windows; and then later, and with a smaller hash. -/
theorem rtt_gate [IsStrictOrderedRing K] [FloorRing K] (fact : Fin 5 → K)
    (prevheadertime : Fin 5 → UInt32) (prevbits : UInt32) (hash : Hash256)
    (hfact : ∀ k, 0 < fact k) (htimes : ∀ k, prevheadertime k ≠ 0)
    (hmant : prevbits.toNat % 2 ^ 23 ≠ 0) (hlow : 3 ≤ exponent prevbits)
    (hhigh : exponent prevbits ≤ 32) (hprev : expanded prevbits < 2 ^ 255)
    (hhash : beValue hash.bytes ≤ expanded prevbits) :
    (∀ now, Compares fact prevheadertime prevbits now hash) ∧
      ∀ now later (smaller : Hash256), now ≤ later →
        beValue smaller.bytes ≤ beValue hash.bytes →
        ecashRttOk fact prevheadertime prevbits now hash = some true →
        ecashRttOk fact prevheadertime prevbits later smaller = some true := by
  have hall (smaller : Hash256) (hle : beValue smaller.bytes ≤ beValue hash.bytes) (now : Int) :
      Compares fact prevheadertime prevbits now smaller :=
    compares hfact htimes hmant hlow hhigh (hle.trans_lt (hhash.trans_lt hprev))
  exact ⟨hall hash le_rfl, fun now later smaller hnow hle =>
    (hall hash le_rfl now).open_mono hfact (hall smaller hle later) hnow hle⟩

/-- The least hash, over the rationals. -/
theorem rtt_gate_zero :
    (∀ now, Compares (fun _ => (1 : ℚ)) (fun _ => 1) 0x1d00ffff now .zero) ∧
      ∀ now later (smaller : Hash256), now ≤ later →
        beValue smaller.bytes ≤ beValue Hash256.zero.bytes →
        ecashRttOk (fun _ => (1 : ℚ)) (fun _ => 1) 0x1d00ffff now .zero = some true →
        ecashRttOk (fun _ => (1 : ℚ)) (fun _ => 1) 0x1d00ffff later smaller = some true :=
  rtt_gate (fun _ => (1 : ℚ)) (fun _ => 1) 0x1d00ffff .zero (fun _ => one_pos)
    (fun _ => by decide) (by decide) (by decide) (by decide) (by decide +kernel) (by decide +kernel)

end MkPool.RealTimeTarget
