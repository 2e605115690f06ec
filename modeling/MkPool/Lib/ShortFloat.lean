import Mathlib.Algebra.Order.Archimedean.Basic
import Mathlib.Algebra.Order.Field.Power
import Mathlib.Algebra.Order.Floor.Semiring
import Mathlib.Order.Bounds.Basic

/-! # Numbers with a short mantissa

The products of a natural number below a limit and a power of a base, and which
of them is the greatest below a number. -/
namespace MkPool.Lib.ShortFloat

variable {K : Type*} [Field K] [LinearOrder K]

/-- Mantissas below `limit`, and the exponents from `-offset` on. -/
def shorts (K : Type*) [Field K] (base limit offset : ℕ) : Set K :=
  {c | ∃ M E : ℕ, M < limit ∧ c = M * (base : K) ^ ((E : ℤ) - offset)}

variable {base limit offset : ℕ} {t : K}

/-- The greatest of them that is at most a number. -/
def IsTruncated (base limit offset : ℕ) (t C : K) : Prop :=
  IsGreatest {c | c ∈ shorts K base limit offset ∧ c ≤ t} C

theorem IsTruncated.mono {s C D : K} (h : IsTruncated base limit offset s C)
    (h' : IsTruncated base limit offset t D) (hle : s ≤ t) : C ≤ D :=
  h'.2 ⟨h.1.1, h.1.2.trans hle⟩

variable [IsStrictOrderedRing K]

/-- **A mantissa that is no longer.** A number is truncated to a mantissa that
either cannot be scaled up or has the least exponent. -/
theorem isTruncated_of_bounds {M E : ℕ} (hbase : 1 < base) (hM : M < limit)
    (hfull : limit ≤ M * base ∨ E = 0) (hle : M * (base : K) ^ ((E : ℤ) - offset) ≤ t)
    (hlt : t < (M + 1) * (base : K) ^ ((E : ℤ) - offset)) :
    IsTruncated base limit offset t (M * (base : K) ^ ((E : ℤ) - offset)) := by
  have hpos : (0 : K) < base := by exact_mod_cast (by omega : 0 < base)
  have hone : (1 : K) ≤ base := by exact_mod_cast hbase.le
  refine ⟨⟨⟨M, E, hM, rfl⟩, hle⟩, ?_⟩
  rintro c ⟨⟨M', E', hM', rfl⟩, hc⟩
  rcases Nat.lt_or_ge E' E with hlow | hhigh
  · -- a smaller exponent: even the largest mantissa is below
    have hscale : limit ≤ M * base := hfull.resolve_right (by omega)
    have hpow : (base : K) ^ ((E' : ℤ) - offset) ≤ (base : K) ^ ((E : ℤ) - offset - 1) :=
      zpow_le_zpow_right₀ hone (by omega)
    have hmant : (M' : K) ≤ M * base := by exact_mod_cast hM'.le.trans hscale
    calc (M' : K) * (base : K) ^ ((E' : ℤ) - offset)
        ≤ M * base * (base : K) ^ ((E : ℤ) - offset - 1) :=
          mul_le_mul hmant hpow (zpow_nonneg hpos.le _) (by positivity)
      _ = M * (base : K) ^ ((E : ℤ) - offset) := by
          rw [zpow_sub_one₀ hpos.ne']
          field_simp
  · -- a larger one: a multiple of the same power
    have hsplit : (base : K) ^ ((E' : ℤ) - offset) =
        (base : K) ^ (E' - E) * (base : K) ^ ((E : ℤ) - offset) := by
      rw [← zpow_natCast, ← zpow_add₀ hpos.ne']
      congr 1
      omega
    rw [hsplit, ← mul_assoc] at hc ⊢
    have hlt' := lt_of_mul_lt_mul_right (hc.trans_lt hlt) (zpow_nonneg hpos.le _)
    have hnat : M' * base ^ (E' - E) ≤ M := Nat.le_of_lt_succ (by exact_mod_cast hlt')
    exact mul_le_mul_of_nonneg_right (by exact_mod_cast hnat) (zpow_nonneg hpos.le _)

end MkPool.Lib.ShortFloat
