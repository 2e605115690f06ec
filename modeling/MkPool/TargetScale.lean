import MkPool.StratumV2
import MkPool.Play

/-! # The scale of a Stratum V2 target, and that of the score

`diff_to_target_bytes` divides the difficulty-1 target of Bitcoin on every chain,
and keeps the low 32 bytes of the quotient. A share is scored by the
difficulty-1 target of its own chain. -/
namespace MkPool.TargetScale
open MkPool.Lib MkPool.Utils MkPool.Config MkPool.Coinbase MkPool.ClientSession
open MkPool.StratumV2 MkPool.Play

/-- `max_target` of `diff_to_target_bytes`. -/
def sentScale : ℚ := 0xFFFF * 2 ^ 208

/-- A share is at or below the target that is sent for a difficulty exactly when
it scores at least that difficulty. -/
def Agrees (env : Env) (d : ℚ) (sh : ShareV2) : Prop :=
  beValue sh.hash.bytes ≤ Wire.leValue (diffToTargetBytes d) ↔ d ≤ sh.diff env

/-- **Where the scales agree.** The hash is not zero. If the target fits 32
bytes, the hash is not between the two targets of the difficulty, that of
Bitcoin and that of the chain; else it is not above the bytes that are left. -/
def OneScale (env : Env) (d : ℚ) (sh : ShareV2) : Prop :=
  0 < beValue sh.hash.bytes ∧
    if sentScale / d < 2 ^ 256 then
      ¬ (sentScale / d < beValue sh.hash.bytes ∧
        beValue sh.hash.bytes ≤ maxTarget env.coin.chain / d)
    else beValue sh.hash.bytes ≤ ⌊sentScale / d⌋ % 2 ^ 256

section Scales

variable {env : Env} {d : ℚ} {sh : ShareV2}

theorem sentScale_le (chain : ChainKind) : sentScale ≤ maxTarget chain := by
  unfold sentScale maxTarget
  split
  · norm_num
  · split <;> norm_num

/-- The number in the bytes that are sent. -/
theorem leValue_target (hd : 0 < d) :
    (Wire.leValue (diffToTargetBytes d) : Int) = ⌊sentScale / d⌋ % 2 ^ 256 := by
  have hq : 0 ≤ sentScale / d := div_nonneg (by unfold sentScale; norm_num) hd.le
  have hfloor : ((⌊sentScale / d⌋.toNat : Nat) : Int) = ⌊sentScale / d⌋ :=
    Int.toNat_of_nonneg (Int.floor_nonneg.mpr hq)
  have hbytes : diffToTargetBytes d = Wire.leBytes 32 ⌊sentScale / d⌋.toNat := by
    show Wire.leBytes 32 ⌊if 0 < d then sentScale / d else sentScale⌋.toNat = _
    rw [if_pos hd]
  rw [hbytes, ← Wire.leBytes_mod, Wire.leValue_leBytes (Nat.mod_lt _ (by norm_num))]
  rw [Int.natCast_mod, hfloor]
  norm_num

/-- A target of 32 bytes is the quotient, rounded down. -/
theorem le_target_iff (hd : 0 < d) (hfits : sentScale / d < 2 ^ 256) :
    beValue sh.hash.bytes ≤ Wire.leValue (diffToTargetBytes d) ↔
      (beValue sh.hash.bytes : ℚ) ≤ sentScale / d := by
  have hq : 0 ≤ sentScale / d := div_nonneg (by unfold sentScale; norm_num) hd.le
  have hlt : ⌊sentScale / d⌋ < 2 ^ 256 := Int.floor_lt.mpr (by exact_mod_cast hfits)
  have hmod : ⌊sentScale / d⌋ % 2 ^ 256 = ⌊sentScale / d⌋ :=
    Int.emod_eq_of_lt (Int.floor_nonneg.mpr hq) hlt
  rw [← Int.ofNat_le, leValue_target hd, hmod, Int.le_floor]
  norm_cast

/-- The score of a hash that is not zero. -/
theorem le_score_iff (hd : 0 < d) :
    d ≤ sh.diff env ↔ 0 < beValue sh.hash.bytes ∧
      (beValue sh.hash.bytes : ℚ) ≤ maxTarget env.coin.chain / d := by
  unfold ShareV2.diff difficultyOf
  by_cases hpos : 0 < beValue sh.hash.bytes
  · have hrat : (0 : ℚ) < beValue sh.hash.bytes := by exact_mod_cast hpos
    rw [if_pos hpos, le_div_iff₀ hrat, le_div_iff₀ hd, mul_comm]
    exact ⟨fun h => ⟨hpos, h⟩, fun h => h.2⟩
  · rw [if_neg hpos]
    exact ⟨fun h => absurd hd (not_lt.mpr h), fun h => absurd h.1 hpos⟩

/-- A hash is below any target that does not fit its bytes. -/
theorem hash_le_wide (hwide : ¬ sentScale / d < 2 ^ 256) :
    (beValue sh.hash.bytes : ℚ) ≤ sentScale / d := by
  have hlt : beValue sh.hash.bytes < 256 ^ 32 := by
    have h := beValue_lt sh.hash.bytes
    rwa [sh.hash.size] at h
  have hle : (beValue sh.hash.bytes : ℚ) ≤ 256 ^ 32 := by exact_mod_cast hlt.le
  refine hle.trans ((le_of_eq ?_).trans (not_lt.mp hwide))
  norm_num

end Scales

/-- **When target and score agree.** For every difficulty and every share, the
share is at or below the target exactly when it scores the difficulty, if and
only if the hash keeps out of the gap between the two scales. -/
theorem target_agrees_iff (env : Env) (d : ℚ) (hd : 0 < d) (sh : ShareV2) :
    Agrees env d sh ↔ OneScale env d sh := by
  have hscale : sentScale / d ≤ maxTarget env.coin.chain / d :=
    div_le_div_of_nonneg_right (sentScale_le _) hd.le
  unfold Agrees OneScale
  rw [le_score_iff hd]
  by_cases hfits : sentScale / d < 2 ^ 256
  · rw [if_pos hfits, le_target_iff hd hfits]
    by_cases hpos : 0 < beValue sh.hash.bytes
    · constructor
      · intro h
        exact ⟨hpos, fun hgap => absurd (h.mpr ⟨hpos, hgap.2⟩) (not_le.mpr hgap.1)⟩
      · rintro ⟨_, hgap⟩
        refine ⟨fun h => ⟨hpos, h.trans hscale⟩, fun h => ?_⟩
        by_contra hlt
        exact hgap ⟨not_le.mp hlt, h.2⟩
    · have hzero : beValue sh.hash.bytes = 0 := Nat.eq_zero_of_not_pos hpos
      have hle : (beValue sh.hash.bytes : ℚ) ≤ sentScale / d := by
        rw [hzero, Nat.cast_zero]
        exact div_nonneg (by unfold sentScale; norm_num) hd.le
      exact ⟨fun h => absurd (h.mp hle).1 hpos, fun h => absurd h.1 hpos⟩
  · have hscore : (beValue sh.hash.bytes : ℚ) ≤ maxTarget env.coin.chain / d :=
      (hash_le_wide hfits).trans hscale
    rw [if_neg hfits, ← Int.ofNat_le, leValue_target hd]
    constructor
    · intro h
      by_cases hpos : 0 < beValue sh.hash.bytes
      · exact ⟨hpos, h.mpr ⟨hpos, hscore⟩⟩
      · have hle : (beValue sh.hash.bytes : Int) ≤ ⌊sentScale / d⌋ % 2 ^ 256 := by
          rw [Nat.eq_zero_of_not_pos hpos]
          exact Int.emod_nonneg _ (by norm_num)
        exact absurd (h.mp hle).1 hpos
    · rintro ⟨hpos, hle⟩
      exact ⟨fun _ => ⟨hpos, hscore⟩, fun _ => hle⟩

/-! ## Two shares of difficulty 1 -/

/-- A share with a hash. -/
def shareOf (hash : Hash256) : ShareV2 where
  job := none
  headerHex := []
  cbHex := []
  hash := hash
  netTarget := .zero

/-- The pool on Bitcoin Cash. -/
def sha256dPool : Env := { sampleEnv with coin := { sampleEnv.coin with chain := .bitcoinCash } }

def bitcoinShare : ShareV2 := shareOf ⟨[0, 0, 0, 0, 0xff, 0xff] ++ List.replicate 26 0, rfl⟩

def scryptShare : ShareV2 := shareOf ⟨[0, 0, 0xff, 0xff] ++ List.replicate 28 0, rfl⟩

theorem bitcoinShare_hash : beValue bitcoinShare.hash.bytes = 0xffff * 2 ^ 208 := by
  decide +kernel

theorem scryptShare_hash : beValue scryptShare.hash.bytes = 0xffff * 2 ^ 224 := by
  decide +kernel

theorem bitcoin_share_agrees : (0 : ℚ) < 1 ∧ Agrees sha256dPool 1 bitcoinShare := by
  refine ⟨one_pos, (target_agrees_iff sha256dPool 1 one_pos bitcoinShare).mpr ⟨?_, ?_⟩⟩
  · rw [bitcoinShare_hash]
    norm_num
  · have hfits : sentScale / 1 < 2 ^ 256 := by
      unfold sentScale
      norm_num
    rw [if_pos hfits, bitcoinShare_hash]
    rintro ⟨hover, _⟩
    revert hover
    unfold sentScale
    norm_num

/-- **A scrypt share.** It scores the difficulty, and is far above its target. -/
theorem scrypt_share_over_target :
    sampleEnv.coin.chain = .litecoin ∧ (0 : ℚ) < 1 ∧ ¬ Agrees sampleEnv 1 scryptShare := by
  refine ⟨rfl, one_pos, fun h => ?_⟩
  have hscore : (1 : ℚ) ≤ scryptShare.diff sampleEnv := by
    rw [le_score_iff one_pos, scryptShare_hash]
    refine ⟨by norm_num, ?_⟩
    show _ ≤ maxTarget .litecoin / 1
    unfold maxTarget
    rw [if_neg (by decide), if_pos (by decide)]
    norm_num
  have hfits : sentScale / 1 < 2 ^ 256 := by
    unfold sentScale
    norm_num
  have hunder := (le_target_iff one_pos hfits).mp (h.mpr hscore)
  rw [scryptShare_hash] at hunder
  revert hunder
  unfold sentScale
  norm_num

end MkPool.TargetScale
