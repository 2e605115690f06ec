import MkPool.Payouts
import MkPool.Play

/-! # The outputs of a session's coinbase, with their values

The coinbase value is split among the eCash shares, the operator and the miner.
Nothing is lost and nothing is added, as long as the shares leave something. -/
namespace MkPool.ExactOutputs
open MkPool.Lib MkPool.Lib.Transaction MkPool.Utils MkPool.Config MkPool.Address MkPool.Job
open MkPool.Coinbase MkPool.CoinbaseLayout MkPool.Payouts MkPool.Play

/-- A hex text of a script whose size takes one byte. -/
def Script (s : Str) : Prop := ∃ bs, hexToBytes s = some bs ∧ bs.length ≤ 252

/-- What a session is asked to pay: a miner's script, and a job whose shares its
value covers. -/
structure Payable (env : Env) (job : MiningJob) (script : Str) (spk : Bytes) : Prop where
  miner : hexToBytes script = some spk
  size : 1 ≤ spk.length ∧ spk.length ≤ 252
  value : job.coinbaseValue < 2 ^ 63
  shares : (ecashShares env job).minerFundVal + (ecashShares env job).stakingRewardVal ≤
    job.coinbaseValue
  staking : env.coin.chain = .eCash → Script job.stakingRewardsScript
  commitment : AddsCommit job → Script job.witnessCommitment
  announced : ¬ (env.coin.chain = .eCash ∧ AddsCommit job)

/-- The outputs are well formed and few, pay the value of the coinbase to the
last satoshi, the miner first, and pay what the template asks for. -/
structure Exact (env : Env) (job : MiningJob) (spk : Bytes) (outs : List TxOut) : Prop where
  fits : ∀ o ∈ outs, txOut.Fits o ∧ o.value < 2 ^ 63
  few : outs.length < 0xfd
  total : ((outs.map TxOut.value).sum : Int) = job.coinbaseValue
  miner : ∃ o rest, outs = o :: rest ∧ o.script = spk
  minerFund : env.coin.chain = .eCash → ∃ o ∈ outs,
    hexToBytes (ecashShares env job).minerFundScript = some o.script ∧
      job.minerFundValue ≤ o.value
  staking : env.coin.chain = .eCash → ∃ o ∈ outs,
    hexToBytes (ecashShares env job).stakingRewardScript = some o.script ∧
      job.stakingRewardsValue ≤ o.value
  commitment : AddsCommit job → ∃ o ∈ outs,
    o.value = 0 ∧ hexToBytes job.witnessCommitment = some o.script

/-! ## Rounding -/

theorem llround_nonneg {q : ℚ} (h : -(1 / 2) < q) : 0 ≤ llround q := by
  unfold llround
  split
  · exact Int.floor_nonneg.mpr (by linarith)
  · have hceil : -1 < ⌈q - 1 / 2⌉ := Int.lt_ceil.mpr (by push_cast; linarith)
    omega

theorem le_llround (q : ℚ) : q - 1 / 2 ≤ llround q := by
  unfold llround
  split
  · have h := Int.lt_floor_add_one (q + 1 / 2)
    linarith
  · exact Int.le_ceil _

/-! ## One output -/

/-- The output of a value and the text of its script. -/
def outputOf (p : Int × Str) : TxOut := ⟨p.1.toNat, (hexToBytes p.2).getD []⟩

theorem hexToBytes_appendOutput {value : Int} {spk : Str} (hv0 : 0 ≤ value) (hv : value < 2 ^ 63)
    (hspk : Script spk) :
    hexToBytes (appendOutput value spk) = some (txOut.write (outputOf (value, spk))) := by
  obtain ⟨bs, hbs, hlen⟩ := hspk
  have hsize := Hex.length_of_decode hbs
  have hvalue : leHexI64 value = bytesToHex (Wire.leBytes 8 value.toNat) := by
    have hmod : (value % 2 ^ 64).toNat = value.toNat := by
      rw [Int.emod_eq_of_lt hv0 (by omega)]
    have hword : (UInt64.ofNat value.toNat).toNat = value.toNat := by
      rw [UInt64.toNat_ofNat']
      exact Nat.mod_eq_of_lt (by omega)
    rw [leHexI64, hmod, leHexU64, hword]
  have hcount : spk.length / 2 = bs.length := by omega
  rw [appendOutput, hvalue, hcount, hex2_compact (by omega), outputOf, hbs, write_txOut,
    List.append_assoc]
  exact hexToBytes_append (hexToBytes_bytesToHex _)
    (hexToBytes_append (hexToBytes_bytesToHex _) hbs)

theorem fits_outputOf {value : Int} {spk : Str} (hv : value < 2 ^ 63) (hspk : Script spk) :
    txOut.Fits (outputOf (value, spk)) ∧ (outputOf (value, spk)).value < 2 ^ 63 := by
  obtain ⟨bs, hbs, hlen⟩ := hspk
  have hlt : value.toNat < 2 ^ 63 := by omega
  refine ⟨fits_txOut.mpr ⟨by show value.toNat < _; omega, ?_⟩, hlt⟩
  show ((hexToBytes spk).getD []).length < _
  rw [hbs, Option.getD_some]
  omega

theorem hexToBytes_outputsText {ps : List (Int × Str)}
    (h : ∀ p ∈ ps, 0 ≤ p.1 ∧ p.1 < 2 ^ 63 ∧ Script p.2) :
    hexToBytes (outputsText ps) = some ((ps.map outputOf).flatMap txOut.write) := by
  induction ps with
  | nil => rfl
  | cons p ps ih =>
    obtain ⟨h0, hlt, hspk⟩ := h p List.mem_cons_self
    rw [outputsText_cons, List.map_cons, List.flatMap_cons]
    exact hexToBytes_append (hexToBytes_appendOutput h0 hlt hspk)
      (ih fun q hq => h q (List.mem_cons_of_mem _ hq))

/-- Values that are not negative add up to what they are paid as. -/
theorem sum_outputOf {ps : List (Int × Str)} (h : ∀ p ∈ ps, 0 ≤ p.1) :
    (((ps.map outputOf).map TxOut.value).sum : Int) = (ps.map Prod.fst).sum := by
  induction ps with
  | nil => rfl
  | cons p ps ih =>
    have hp : ((outputOf p).value : Int) = p.1 := Int.toNat_of_nonneg (h p List.mem_cons_self)
    simp only [List.map_cons, List.sum_cons]
    rw [Nat.cast_add, hp, ← ih fun q hq => h q (List.mem_cons_of_mem _ hq)]

/-! ## The shares -/

/-- A share of the template, or the standard one. -/
def shareOr (given : Int) (standard : ℚ) : Int := if 0 < given then given else llround standard

theorem shareOr_nonneg {given : Int} {q : ℚ} (h : -(1 / 2) < q) : 0 ≤ shareOr given q := by
  unfold shareOr
  split
  · omega
  · exact llround_nonneg h

theorem le_shareOr {given : Int} {q : ℚ} (h : -(1 / 2) < q) : given ≤ shareOr given q := by
  unfold shareOr
  split
  · exact le_refl given
  · have := llround_nonneg h
    omega

theorem shareOr_low {given : Int} {q : ℚ} (h : q ≤ 0) : q - 1 / 2 ≤ shareOr given q := by
  unfold shareOr
  split
  · rename_i hpos
    have hrat : (0 : ℚ) < given := by exact_mod_cast hpos
    linarith
  · exact le_llround q

section Split

variable {env : Env} {job : MiningJob} {script : Str} {spk : Bytes}

theorem ecashShares_eq (hecash : env.coin.chain = .eCash) :
    (ecashShares env job).minerFundVal =
        shareOr job.minerFundValue (job.coinbaseValue * 32 / 100) ∧
      (ecashShares env job).stakingRewardVal =
        shareOr job.stakingRewardsValue (job.coinbaseValue * 10 / 100) := by
  unfold ecashShares
  rw [if_neg (fun h => h hecash)]
  exact ⟨rfl, rfl⟩

theorem ecashShares_none (hecash : env.coin.chain ≠ .eCash) :
    (ecashShares env job).minerFundVal = 0 ∧ (ecashShares env job).stakingRewardVal = 0 := by
  unfold ecashShares
  rw [if_pos hecash]
  exact ⟨rfl, rfl⟩

/-- A value that covers its shares is not negative. -/
theorem value_nonneg (h : (ecashShares env job).minerFundVal +
    (ecashShares env job).stakingRewardVal ≤ job.coinbaseValue) : 0 ≤ job.coinbaseValue := by
  by_cases hecash : env.coin.chain = .eCash
  · obtain ⟨hfund, hstaking⟩ := @ecashShares_eq env job hecash
    rw [hfund, hstaking] at h
    by_contra hneg
    have hle : job.coinbaseValue ≤ -1 := by omega
    have hrat : (job.coinbaseValue : ℚ) ≤ -1 := by exact_mod_cast hle
    rcases eq_or_lt_of_le hle with heq | hlt
    · -- the standard shares of -1 are rounded to nothing
      have h1 : 0 ≤ shareOr job.minerFundValue (job.coinbaseValue * 32 / 100) :=
        shareOr_nonneg (by rw [heq]; norm_num)
      have h2 : 0 ≤ shareOr job.stakingRewardsValue (job.coinbaseValue * 10 / 100) :=
        shareOr_nonneg (by rw [heq]; norm_num)
      omega
    · have hrat2 : (job.coinbaseValue : ℚ) ≤ -2 := by
        exact_mod_cast (show job.coinbaseValue ≤ -2 by omega)
      have h1 := @shareOr_low job.minerFundValue
        (q := job.coinbaseValue * 32 / 100) (by linarith)
      have h2 := @shareOr_low job.stakingRewardsValue
        (q := job.coinbaseValue * 10 / 100) (by linarith)
      have hsum : ((shareOr job.minerFundValue (job.coinbaseValue * 32 / 100) +
          shareOr job.stakingRewardsValue (job.coinbaseValue * 10 / 100) : Int) : ℚ) ≤
            job.coinbaseValue := by exact_mod_cast h
      push_cast at hsum
      linarith
  · obtain ⟨hfund, hstaking⟩ := @ecashShares_none env job hecash
    omega

theorem shares_nonneg (hv : 0 ≤ job.coinbaseValue) :
    0 ≤ (ecashShares env job).minerFundVal ∧ 0 ≤ (ecashShares env job).stakingRewardVal := by
  have hrat : (0 : ℚ) ≤ job.coinbaseValue := by exact_mod_cast hv
  by_cases hecash : env.coin.chain = .eCash
  · obtain ⟨hfund, hstaking⟩ := @ecashShares_eq env job hecash
    rw [hfund, hstaking]
    exact ⟨shareOr_nonneg (by linarith), shareOr_nonneg (by linarith)⟩
  · obtain ⟨hfund, hstaking⟩ := @ecashShares_none env job hecash
    omega

/-- A donation takes no more than there is. -/
theorem donation_bounds {remaining : Int} (h : 0 ≤ remaining) :
    0 ≤ (donationOf env job remaining).1 ∧ (donationOf env job remaining).1 ≤ remaining := by
  unfold donationOf
  split
  · rename_i hpercent
    split
    · dsimp only
      split
      · exact ⟨le_refl 0, h⟩
      · rename_i hle
        have hrat : (0 : ℚ) ≤ remaining := by exact_mod_cast h
        have hq : 0 ≤ remaining * job.donationPercent / 100 :=
          div_nonneg (mul_nonneg hrat hpercent.1.le) (by norm_num)
        exact ⟨llround_nonneg (by linarith), not_lt.mp hle⟩
    · exact ⟨le_refl 0, h⟩
  · exact ⟨le_refl 0, h⟩

theorem script_of_decoded (d : Decoded) : Script (scriptPubkeyHex d) := by
  have hsize := d.script_length
  rw [scriptPubkeyHex_eq]
  exact ⟨d.script, hexToBytes_bytesToHex _, by omega⟩

/-- The eCash shares are paid to the standard scripts, a decoded one, or the
template's. -/
theorem ecash_scripts (hecash : env.coin.chain = .eCash) (hs : Script job.stakingRewardsScript) :
    Script (ecashShares env job).minerFundScript ∧
      Script (ecashShares env job).stakingRewardScript := by
  have hfund : Script ({} : EcashShares).minerFundScript := by
    refine ⟨_, rfl, ?_⟩
    decide
  have hreward : Script ({} : EcashShares).stakingRewardScript := by
    refine ⟨_, rfl, ?_⟩
    decide
  unfold ecashShares
  rw [if_neg (fun h => h hecash)]
  constructor
  · dsimp only
    split
    · exact hfund
    · cases hdecode : decodeToScriptHex env.decode job.minerFundAddress with
      | none => exact hfund
      | some script =>
        obtain ⟨d, rfl⟩ := decoded_of_toScriptHex hdecode
        exact script_of_decoded d
  · dsimp only
    split
    · exact hreward
    · exact hs

/-- What is paid can be written. -/
theorem payouts_written (h : Payable env job script spk) :
    ∀ p ∈ payouts env job script, 0 ≤ p.1 ∧ p.1 < 2 ^ 63 ∧ Script p.2 := by
  have hv := value_nonneg h.shares
  obtain ⟨hfund, hstaking⟩ := @shares_nonneg env _ hv
  have hvalue := h.value
  have hshares := h.shares
  have hpool : 0 ≤ poolValue env job := by unfold poolValue; omega
  have hle : poolValue env job ≤ job.coinbaseValue := by unfold poolValue; omega
  obtain ⟨hd0, hd1⟩ := @donation_bounds env job _ hpool
  intro p hp
  rcases List.mem_cons.mp hp with rfl | hp
  · exact ⟨by dsimp only; omega, by dsimp only; omega, spk, h.miner, h.size.2⟩
  rcases List.mem_append.mp hp with hp | hp
  · split at hp
    · rename_i hpos
      obtain ⟨d, hd⟩ := donation_script hpos
      rw [List.mem_singleton.mp hp, hd]
      exact ⟨hd0, by omega, script_of_decoded d⟩
    · cases hp
  rcases List.mem_append.mp hp with hp | hp
  · split at hp
    · rename_i hecash
      obtain ⟨hs1, hs2⟩ := ecash_scripts hecash (h.staking hecash)
      rcases List.mem_cons.mp hp with rfl | hp
      · exact ⟨hfund, by dsimp only; omega, hs1⟩
      · rw [List.mem_singleton.mp hp]
        exact ⟨hstaking, by dsimp only; omega, hs2⟩
    · cases hp
  · split at hp
    · rename_i hcommit
      rw [List.mem_singleton.mp hp]
      exact ⟨le_refl 0, by dsimp only; omega, h.commitment hcommit⟩
    · cases hp

/-- All of the value is paid. -/
theorem sum_payouts (h : Payable env job script spk) :
    ((payouts env job script).map Prod.fst).sum = job.coinbaseValue := by
  have hshares := h.shares
  have hpool : 0 ≤ poolValue env job := by unfold poolValue; omega
  obtain ⟨hd0, _⟩ := @donation_bounds env job _ hpool
  have hdonation : ((if 0 < (donationOf env job (poolValue env job)).1 then
      [donationOf env job (poolValue env job)] else []).map Prod.fst).sum =
        (donationOf env job (poolValue env job)).1 := by
    split
    · simp
    · simp only [List.map_nil, List.sum_nil]
      omega
  have hecash : ((if env.coin.chain = .eCash then
      [((ecashShares env job).minerFundVal, (ecashShares env job).minerFundScript),
        ((ecashShares env job).stakingRewardVal, (ecashShares env job).stakingRewardScript)]
      else []).map Prod.fst).sum =
        (ecashShares env job).minerFundVal + (ecashShares env job).stakingRewardVal := by
    split
    · simp
    · rename_i hne
      obtain ⟨h1, h2⟩ := @ecashShares_none env job hne
      simp [h1, h2]
  have hcommit : ((if AddsCommit job then [((0 : Int), job.witnessCommitment)] else []).map
      Prod.fst).sum = 0 := by
    split <;> simp
  unfold payouts
  simp only [List.map_cons, List.map_append, List.sum_cons, List.sum_append, hdonation, hecash,
    hcommit]
  unfold poolValue
  omega

/-- A member of what is paid is an output. -/
theorem paid_output (h : Payable env job script spk) {value : Int} {s : Str}
    (hp : (value, s) ∈ payouts env job script) :
    ∃ o ∈ (payouts env job script).map outputOf, (o.value : Int) = value ∧
      hexToBytes s = some o.script := by
  obtain ⟨h0, _, bs, hbs, _⟩ := payouts_written h _ hp
  refine ⟨_, List.mem_map_of_mem hp, Int.toNat_of_nonneg h0, ?_⟩
  show hexToBytes s = some ((hexToBytes s).getD [])
  rw [hbs, Option.getD_some]

end Split

/-- **The outputs are exact.** For every job and script it can be asked to pay,
the half of a session is a full sequence number, exactly the announced number of
well-formed outputs, which split the value of the coinbase, and no lock time. -/
theorem coinbase2_exact (env : Env) (job : MiningJob) (script : Str) (spk : Bytes)
    (h : Payable env job script spk) :
    ∃ outs, hexToBytes (buildSessionCoinbase2 env job script) =
        some (Transaction.tail (2 ^ 32 - 1) outs 0) ∧ Exact env job spk outs := by
  have hne : script ≠ [] := by
    rintro rfl
    obtain rfl := Option.some.inj (h.miner.symm.trans rfl)
    exact absurd h.size.1 (by decide)
  have hwritten := payouts_written h
  have hlen : (payouts env job script).length = announced env job := by
    rw [length_payouts, if_neg h.announced, Nat.add_zero]
  obtain ⟨hpos, hfew⟩ : 0 < announced env job ∧ announced env job < 0xfd := announced_bounds
  have hv := value_nonneg h.shares
  have hrat : (0 : ℚ) ≤ job.coinbaseValue := by exact_mod_cast hv
  refine ⟨(payouts env job script).map outputOf, ?_, ?_, ?_, ?_, ?_, ?_, ?_, ?_⟩
  · rw [coinbase2_eq hne, hex2_compact hfew, Transaction.tail, Codec.write_counted,
      List.length_map, hlen, List.append_assoc]
    exact hexToBytes_append (hexToBytes_bytesToHex _) (hexToBytes_append (hexToBytes_bytesToHex _)
      (hexToBytes_append (hexToBytes_outputsText hwritten) (hexToBytes_bytesToHex _)))
  · intro o ho
    obtain ⟨p, hp, rfl⟩ := List.mem_map.mp ho
    exact fits_outputOf (hwritten p hp).2.1 (hwritten p hp).2.2
  · rw [List.length_map, hlen]
    exact hfew
  · rw [sum_outputOf fun p hp => (hwritten p hp).1]
    exact sum_payouts h
  · refine ⟨_, _, rfl, ?_⟩
    show (hexToBytes script).getD [] = spk
    rw [h.miner, Option.getD_some]
  · intro hecash
    have hmem : ((ecashShares env job).minerFundVal, (ecashShares env job).minerFundScript) ∈
        payouts env job script := by simp [payouts, hecash]
    obtain ⟨o, ho, hval, hscript⟩ := paid_output h hmem
    refine ⟨o, ho, hscript, ?_⟩
    rw [hval, (ecashShares_eq hecash).1]
    exact le_shareOr (by linarith)
  · intro hecash
    have hmem : ((ecashShares env job).stakingRewardVal, (ecashShares env job).stakingRewardScript) ∈
        payouts env job script := by simp [payouts, hecash]
    obtain ⟨o, ho, hval, hscript⟩ := paid_output h hmem
    refine ⟨o, ho, hscript, ?_⟩
    rw [hval, (ecashShares_eq hecash).2]
    exact le_shareOr (by linarith)
  · intro hcommit
    have hmem : ((0 : Int), job.witnessCommitment) ∈ payouts env job script := by
      simp [payouts, hcommit]
    obtain ⟨o, ho, hval, hscript⟩ := paid_output h hmem
    exact ⟨o, ho, by exact_mod_cast hval, hscript⟩

/-! ## One coinbase -/

/-- The pool on eCash. -/
def ecashPool : Env := { sampleEnv with coin := { sampleEnv.coin with chain := .eCash } }

/-- A job with a donation and the standard shares. -/
def ecashJob : MiningJob :=
  { coinbaseValue := 1000, donationPercent := 1, donationAddress := "operator".toList }

theorem ecash_payable :
    Payable ecashPool ecashJob (bytesToHex (List.replicate 25 7)) (List.replicate 25 7) where
  miner := hexToBytes_bytesToHex _
  size := by decide
  value := by decide
  shares := by
    rw [(ecashShares_eq rfl).1, (ecashShares_eq rfl).2]
    decide +kernel
  staking := fun _ => ⟨[], rfl, by decide⟩
  commitment := fun h => absurd h.2 (by decide)
  announced := fun h => absurd h.2.2 (by decide)

theorem ecash_coinbase2 :
    ∃ outs, hexToBytes (buildSessionCoinbase2 ecashPool ecashJob
        (bytesToHex (List.replicate 25 7))) = some (Transaction.tail (2 ^ 32 - 1) outs 0) ∧
      Exact ecashPool ecashJob (List.replicate 25 7) outs :=
  coinbase2_exact ecashPool ecashJob _ _ ecash_payable

end MkPool.ExactOutputs
