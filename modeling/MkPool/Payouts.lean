import MkPool.CoinbaseLayout

/-! # The outputs a session pays

`build_session_coinbase2` announces a number of outputs and appends them one by
one. Read back, these are all of them, unless the chain is eCash and the job has
a commitment. -/
namespace MkPool.Payouts
open MkPool.Lib MkPool.Lib.Transaction MkPool.Utils MkPool.Config MkPool.Address MkPool.Job
open MkPool.Coinbase MkPool.CoinbaseLayout

/-! ## Outputs as they are appended -/

/-- The text of a script whose size takes one byte. -/
def SmallScript (s : Str) : Prop := 2 ∣ s.length ∧ s.length < 2 * 0xfd

theorem smallScript_hex {bs : Bytes} (h : bs.length < 0xfd) : SmallScript (bytesToHex bs) := by
  have hlen : (bytesToHex bs).length = 2 * bs.length := Hex.length_encode bs
  exact ⟨⟨_, hlen⟩, by omega⟩

theorem smallScript_decoded (d : Decoded) : SmallScript (scriptPubkeyHex d) := by
  have hsize := d.script_length
  rw [scriptPubkeyHex_eq]
  exact smallScript_hex (by omega)

theorem scriptPubkeyHex_ne (d : Decoded) : scriptPubkeyHex d ≠ [] := by
  have hsize := d.script_length
  have hlen : (bytesToHex d.script).length = 2 * d.script.length := Hex.length_encode _
  rw [scriptPubkeyHex_eq]
  exact List.ne_nil_of_length_pos (by omega)

theorem decoded_of_toScriptHex {decode : Decoder} {addr script : Str}
    (h : decodeToScriptHex decode addr = some script) : ∃ d, script = scriptPubkeyHex d := by
  unfold decodeToScriptHex at h
  split at h
  · rename_i d _
    exact ⟨d, (Option.some.inj h).symm⟩
  · cases h

/-- Bytes that were written, and what follows them. -/
theorem read_written {as cs : Bytes} {rest : Str} (h : hexToBytes (bytesToHex as ++ rest) = some cs) :
    ∃ bs, hexToBytes rest = some bs ∧ cs = as ++ bs := by
  rw [hexToBytes, bytesToHex, Hex.decode_encode_append] at h
  obtain ⟨bs, hbs, rfl⟩ := Option.map_eq_some_iff.mp h
  exact ⟨bs, hbs, rfl⟩

theorem output_read {value : Int} {spk rest : Str} {bs : Bytes} (hspk : SmallScript spk)
    (h : hexToBytes (appendOutput value spk ++ rest) = some bs) :
    ∃ o tail, txOut.Fits o ∧ hexToBytes rest = some tail ∧ bs = txOut.write o ++ tail := by
  obtain ⟨heven, hsmall⟩ := hspk
  let v := (UInt64.ofNat (value % 2 ^ 64).toNat).toNat
  have htext : appendOutput value spk ++ rest = bytesToHex (Wire.leBytes 8 v) ++
      (bytesToHex (Codec.compact.write (spk.length / 2)) ++ (spk ++ rest)) := by
    rw [← hex2_compact (by omega)]
    simp only [appendOutput, List.append_assoc]
    rfl
  rw [htext] at h
  obtain ⟨_, h₁, rfl⟩ := read_written h
  obtain ⟨_, h₂, rfl⟩ := read_written h₁
  obtain ⟨script, tail, hscript, htail, rfl⟩ := Hex.decode_of_append h₂ heven
  have hlen := Hex.length_of_decode hscript
  have hv : v < 256 ^ 8 := (UInt64.ofNat (value % 2 ^ 64).toNat).toNat_lt
  refine ⟨⟨v, script⟩, tail, fits_txOut.mpr ⟨hv, ?_⟩, htail, ?_⟩
  · show script.length < 2 ^ 64
    omega
  · rw [write_txOut, show spk.length / 2 = script.length by omega]
    simp only [List.append_assoc]

/-- The text of a list of outputs. -/
def outputsText (ps : List (Int × Str)) : Str := ps.flatMap fun p => appendOutput p.1 p.2

theorem outputsText_cons (p : Int × Str) (ps : List (Int × Str)) :
    outputsText (p :: ps) = appendOutput p.1 p.2 ++ outputsText ps := rfl

theorem outputsText_append (ps qs : List (Int × Str)) :
    outputsText (ps ++ qs) = outputsText ps ++ outputsText qs := List.flatMap_append

theorem outputs_read {ps : List (Int × Str)} {rest : Str} {bs : Bytes}
    (hsmall : ∀ p ∈ ps, SmallScript p.2)
    (h : hexToBytes (outputsText ps ++ rest) = some bs) :
    ∃ (outs : List TxOut) (tail : Bytes), outs.length = ps.length ∧ (∀ o ∈ outs, txOut.Fits o) ∧
      hexToBytes rest = some tail ∧ bs = outs.flatMap txOut.write ++ tail := by
  induction ps generalizing bs with
  | nil => exact ⟨[], bs, rfl, fun o ho => (by cases ho), h, rfl⟩
  | cons p ps ih =>
    rw [outputsText_cons, List.append_assoc] at h
    obtain ⟨o, more, ho, hmore, rfl⟩ := output_read (hsmall p List.mem_cons_self) h
    obtain ⟨outs, tail, hlen, hfits, htail, rfl⟩ :=
      ih (fun q hq => hsmall q (List.mem_cons_of_mem _ hq)) hmore
    refine ⟨o :: outs, tail, by simp only [List.length_cons, hlen], ?_, htail, ?_⟩
    · intro o' ho'
      rcases List.mem_cons.mp ho' with rfl | ho'
      · exact ho
      · exact hfits _ ho'
    · rw [List.flatMap_cons, List.append_assoc]

/-! ## The half of a session -/

/-- The witness commitment is appended. -/
def AddsCommit (job : MiningJob) : Prop :=
  job.segwitActive = true ∧ ¬ job.witnessCommitment.isEmpty = true

instance (job : MiningJob) : Decidable (AddsCommit job) := inferInstanceAs (Decidable (_ ∧ _))

section Half

variable (env : Env) (job : MiningJob)

/-- What is left for the miner and the operator. -/
def poolValue : Int :=
  job.coinbaseValue - (ecashShares env job).minerFundVal - (ecashShares env job).stakingRewardVal

/-- The outputs that are appended, in order. -/
def payouts (script : Str) : List (Int × Str) :=
  let donation := donationOf env job (poolValue env job)
  let ec := ecashShares env job
  (poolValue env job - donation.1, script) :: ((if 0 < donation.1 then [donation] else [])
    ++ ((if env.coin.chain = .eCash then
          [(ec.minerFundVal, ec.minerFundScript), (ec.stakingRewardVal, ec.stakingRewardScript)]
        else [])
      ++ if AddsCommit job then [(0, job.witnessCommitment)] else []))

/-- The number of outputs that is announced. -/
def announced : Nat :=
  if env.coin.chain = .eCash then
    (if 0 < (donationOf env job (poolValue env job)).1 then 2 else 1) + 2
  else (if 0 < (donationOf env job (poolValue env job)).1 then 2 else 1)
    + if AddsCommit job then 1 else 0

/-- The scripts of the template that an output of the job gets are small. -/
structure OutputsFit : Prop where
  commitment : AddsCommit job → SmallScript job.witnessCommitment
  staking : env.coin.chain = .eCash → SmallScript job.stakingRewardsScript

end Half

section Read

variable {env : Env} {job : MiningJob} {script : Str}

/-- A donation is paid to a script that an address decodes to. -/
theorem donation_script {remaining : Int} (h : 0 < (donationOf env job remaining).1) :
    ∃ d, (donationOf env job remaining).2 = scriptPubkeyHex d := by
  revert h
  unfold donationOf
  split
  · split
    · rename_i s hs
      dsimp only
      split
      · intro h
        exact absurd h (by decide)
      · intro _
        exact decoded_of_toScriptHex hs
    · intro h
      exact absurd h (by decide)
  · intro h
    exact absurd h (by decide)

theorem outputsText_if {c : Prop} [Decidable c] (ps : List (Int × Str)) :
    outputsText (if c then ps else []) = if c then outputsText ps else [] := by
  split <;> rfl

theorem coinbase2_eq (hne : script ≠ []) : buildSessionCoinbase2 env job script =
    bytesToHex (Wire.leBytes 4 (2 ^ 32 - 1)) ++ (hex2 (announced env job)
      ++ (outputsText (payouts env job script) ++ bytesToHex (Wire.leBytes 4 0))) := by
  have hempty : ¬ script.isEmpty = true := fun h => hne (List.isEmpty_iff.mp h)
  have hseq : bytesToHex (Wire.leBytes 4 (2 ^ 32 - 1)) = "ffffffff".toList := by decide
  have hlock : bytesToHex (Wire.leBytes 4 0) = "00000000".toList := by decide
  let donation := donationOf env job (poolValue env job)
  have hpaid : (0 < donation.1 ∧ ¬ donation.2.isEmpty = true) = (0 < donation.1) := by
    refine propext ⟨fun h => h.1, fun h => ⟨h, fun he => ?_⟩⟩
    obtain ⟨d, hd⟩ := donation_script h
    rw [hd] at he
    exact scriptPubkeyHex_ne d (List.isEmpty_iff.mp he)
  have hbuild : buildSessionCoinbase2 env job script =
      "ffffffff".toList ++ hex2 (announced env job)
        ++ appendOutput (poolValue env job - donation.1) script
        ++ (if 0 < donation.1 ∧ ¬ donation.2.isEmpty = true then
              appendOutput donation.1 donation.2 else [])
        ++ (if env.coin.chain = .eCash then
              appendOutput (ecashShares env job).minerFundVal (ecashShares env job).minerFundScript
                ++ appendOutput (ecashShares env job).stakingRewardVal
                  (ecashShares env job).stakingRewardScript
            else [])
        ++ (if AddsCommit job then appendOutput 0 job.witnessCommitment else [])
        ++ "00000000".toList := by
    unfold buildSessionCoinbase2
    rw [if_neg hempty]
    rfl
  rw [hbuild, hseq, hlock]
  simp only [hpaid, payouts, outputsText_cons, outputsText_append, outputsText_if,
    List.append_assoc]
  simp only [outputsText, List.flatMap_nil, List.append_nil]
  rfl

theorem length_payouts : (payouts env job script).length =
    announced env job + if env.coin.chain = .eCash ∧ AddsCommit job then 1 else 0 := by
  unfold payouts announced
  by_cases hdonation : 0 < (donationOf env job (poolValue env job)).1 <;>
    by_cases hecash : env.coin.chain = .eCash <;>
      by_cases hcommit : AddsCommit job <;>
        simp [hdonation, hecash, hcommit]

theorem announced_bounds : 0 < announced env job ∧ announced env job < 0xfd := by
  unfold announced
  constructor <;> split <;> split <;> (try split) <;> omega

/-- The scripts of the eCash shares: the standard ones, a decoded one, or the
template's. -/
theorem ecash_small (hecash : env.coin.chain = .eCash) (hfit : SmallScript job.stakingRewardsScript) :
    SmallScript (ecashShares env job).minerFundScript ∧
      SmallScript (ecashShares env job).stakingRewardScript := by
  have hstd : SmallScript ({} : EcashShares).minerFundScript ∧
      SmallScript ({} : EcashShares).stakingRewardScript :=
    ⟨⟨by decide, by decide⟩, by decide, by decide⟩
  unfold ecashShares
  rw [if_neg (fun h => h hecash)]
  constructor
  · dsimp only
    split
    · exact hstd.1
    · cases hdecode : decodeToScriptHex env.decode job.minerFundAddress with
      | none => exact hstd.1
      | some script =>
        obtain ⟨d, rfl⟩ := decoded_of_toScriptHex hdecode
        exact smallScript_decoded d
  · dsimp only
    split
    · exact hstd.2
    · exact hfit

theorem payouts_small (hscript : SmallScript script) (hfit : OutputsFit env job) :
    ∀ p ∈ payouts env job script, SmallScript p.2 := by
  intro p hp
  rcases List.mem_cons.mp hp with rfl | hp
  · exact hscript
  rcases List.mem_append.mp hp with hp | hp
  · split at hp
    · rename_i hpos
      obtain ⟨d, hd⟩ := donation_script hpos
      rw [List.mem_singleton.mp hp, hd]
      exact smallScript_decoded d
    · cases hp
  rcases List.mem_append.mp hp with hp | hp
  · split at hp
    · rename_i hecash
      obtain ⟨hfund, hstaking⟩ := ecash_small hecash (hfit.staking hecash)
      rcases List.mem_cons.mp hp with rfl | hp
      · exact hfund
      · rw [List.mem_singleton.mp hp]
        exact hstaking
    · cases hp
  · split at hp
    · rename_i hcommit
      rw [List.mem_singleton.mp hp]
      exact hfit.commitment hcommit
    · cases hp

/-- **What follows the script.** The half of a session is the rest of a coinbase
when the session has a script, and no output goes unannounced. -/
theorem tail_coinbase2 {bs : Bytes} (hscript : script = [] ∨ SmallScript script)
    (hfit : OutputsFit env job)
    (h : hexToBytes (buildSessionCoinbase2 env job script) = some bs) :
    IsTail bs ↔ script ≠ [] ∧ ¬ (env.coin.chain = .eCash ∧ AddsCommit job) := by
  by_cases hne : script = []
  · subst hne
    obtain rfl := Option.some.inj (h.symm.trans rfl)
    exact ⟨fun ht => absurd ht not_isTail_nil, fun ht => absurd rfl ht.1⟩
  · have hsmall := payouts_small (hscript.resolve_left hne) hfit
    obtain ⟨hpos, hfew⟩ : 0 < announced env job ∧ announced env job < 0xfd := announced_bounds
    rw [coinbase2_eq hne, hex2_compact hfew] at h
    obtain ⟨_, h₁, rfl⟩ := read_written h
    obtain ⟨_, h₂, rfl⟩ := read_written h₁
    obtain ⟨outs, tail, hlen, hfits, htail, rfl⟩ := outputs_read hsmall h₂
    obtain rfl := Option.some.inj (htail.symm.trans (hexToBytes_bytesToHex _))
    rw [length_payouts] at hlen
    rw [← List.append_assoc (Codec.compact.write _), isTail_iff (by decide) (by decide),
      whole_outputs_iff hpos hfew (by omega) hfits, hlen]
    constructor
    · intro he
      refine ⟨hne, fun hboth => ?_⟩
      rw [if_pos hboth] at he
      omega
    · rintro ⟨_, hnot⟩
      rw [if_neg hnot, Nat.add_zero]

/-- The half of a session that ends a transaction pays. -/
theorem rest_coinbase2 {bs : Bytes} (h : hexToBytes (buildSessionCoinbase2 env job script) = some bs) :
    IsRest bs ↔ IsTail bs := by
  refine ⟨fun hrest => ?_, IsTail.isRest⟩
  by_cases hne : script = []
  · subst hne
    obtain rfl := Option.some.inj (h.symm.trans rfl)
    exact absurd hrest not_isRest_nil
  · obtain ⟨hpos, hfew⟩ : 0 < announced env job ∧ announced env job < 0xfd := announced_bounds
    rw [coinbase2_eq hne, hex2_compact hfew] at h
    obtain ⟨_, h₁, rfl⟩ := read_written h
    obtain ⟨_, _, rfl⟩ := read_written h₁
    exact isTail_of_isRest hpos hfew hrest

end Read

end MkPool.Payouts
