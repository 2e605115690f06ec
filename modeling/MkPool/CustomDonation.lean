import MkPool.Blacklist
import MkPool.JobReference
import MkPool.Lib.Transaction

/-! # The donation of a custom job

A request for a custom job is let through when the hex text of the donation
script stands anywhere in the hex text of its outputs. What should stand there
is an output that pays the script. -/
namespace MkPool.CustomDonation
open MkPool.Lib MkPool.Lib.Interaction MkPool.Lib.Transaction MkPool.Utils MkPool.Address
open MkPool.Coinbase MkPool.Sv2Messages MkPool.Calls MkPool.ClientSession MkPool.StratumV2
open MkPool.JobReference MkPool.Blacklist MkPool.Play

/-- A donation is configured, and this is where it goes. -/
structure Configured (env : Env) (d : Decoded) : Prop where
  percent : 0 < env.coin.donationPercent
  address : env.coin.donationAddress ≠ []
  decoded : env.decode env.coin.donationAddress = .ok d

/-- However the request is handled, a custom job is added. -/
def Accepts (env : Env) (s : Session) (msg : SetCustomMiningJob) : Prop :=
  (handleSetCustomMiningJobV2 env s msg).Yields fun o =>
    o.session.sv2CustomJobIdCounter = s.sv2CustomJobIdCounter + 1

/-- The bytes are a list of outputs, one of which pays the script. -/
def Pays (script outputs : Bytes) : Prop :=
  ∃ outs, txOut.counted.whole outputs = some outs ∧
    ∃ o ∈ outs, o.script = script ∧ 0 < o.value ∧ o.value < 2 ^ 63

/-- The script is the whole script of an output: behind the count, some outputs,
a positive value and its size, and before the other outputs. -/
def Placed (script outputs : Bytes) : Prop :=
  ∃ (before : List TxOut) (value : Nat) (after : List TxOut), 0 < value ∧ value < 2 ^ 63 ∧
    (∀ o ∈ before ++ after, txOut.Fits o) ∧ before.length + after.length + 1 < 2 ^ 64 ∧
    outputs = Codec.compact.write (before.length + after.length + 1) ++
      (before.flatMap txOut.write ++ (Wire.leBytes 8 value ++
        (Codec.compact.write script.length ++ script) ++ after.flatMap txOut.write))

/-- The text of the script is not in the text of the outputs, or the script has
its place there. -/
def InPlace (script outputs : Bytes) : Prop :=
  ¬ bytesToHex script <:+: bytesToHex outputs ∨ Placed script outputs

section Donation

variable {env : Env} {s : Session} {msg : SetCustomMiningJob} {d : Decoded}

theorem donationScript_eq (h : Configured env d) :
    (if 0 < env.coin.donationPercent ∧ ¬ env.coin.donationAddress.isEmpty then
      (decodeToScriptHex env.decode env.coin.donationAddress).getD [] else []) =
      bytesToHex d.script := by
  rw [if_pos ⟨h.percent, by simpa using h.address⟩]
  unfold decodeToScriptHex
  rw [h.decoded]
  exact scriptPubkeyHex_eq d

/-- **What is let through.** No merkle path, and the text is found. -/
theorem accepts_iff (h : Configured env d) : Accepts env s msg ↔
    msg.merklePath = [] ∧ bytesToHex d.script <:+: bytesToHex msg.coinbaseTxOutputs := by
  have hne : (bytesToHex d.script).isEmpty = false := by
    rw [List.isEmpty_eq_false_iff, ← List.length_pos_iff]
    have hlen := d.script_length
    rw [bytesToHex, Hex.length_encode]
    omega
  have hcount : s.sv2CustomJobIdCounter ≠ s.sv2CustomJobIdCounter + 1 := by
    intro he
    have hsub := congrArg (· - s.sv2CustomJobIdCounter) he
    simp at hsub
  have refused (reply : Reply) : ¬ (do
      sendV2 s reply
      return .done s : Act Outcome).Yields fun o =>
        o.session.sv2CustomJobIdCounter = s.sv2CustomJobIdCounter + 1 := by
    intro hy
    unfold sendV2 at hy
    split at hy
    · exact hcount hy
    · exact hcount (hy ())
  have hfind := findSub_isSome_iff (bytesToHex msg.coinbaseTxOutputs) (bytesToHex d.script)
  unfold Accepts handleSetCustomMiningJobV2
  dsimp only
  rw [donationScript_eq h, hne]
  by_cases hpath : msg.merklePath = []
  · rw [if_neg (by simp [hpath])]
    by_cases hin : bytesToHex d.script <:+: bytesToHex msg.coinbaseTxOutputs
    · have hsome := hfind.mpr hin
      obtain ⟨i, hi⟩ := Option.isSome_iff_exists.mp hsome
      have hgo : ¬ ((!false && (some i).isNone) = true) := by simp
      rw [hi, if_neg hgo]
      exact ⟨fun _ => ⟨hpath, hin⟩, fun _ => Prog.Yields.after fun _ => rfl⟩
    · have hnone : Stratum.findSub (bytesToHex msg.coinbaseTxOutputs)
          (bytesToHex d.script) = none := by
        rw [← Option.not_isSome_iff_eq_none, hfind]
        exact hin
      rw [if_pos (by simp [hnone])]
      exact ⟨fun hy => absurd hy (refused _), fun hc => absurd hc.2 hin⟩
  · rw [if_pos (by simpa using hpath)]
    exact ⟨fun hy => absurd hy (refused _), fun hc => absurd hc.1 hpath⟩

/-- A list of outputs that pays has its output somewhere. -/
theorem pays_iff {script outputs : Bytes} (hs : script.length < 2 ^ 64) :
    Pays script outputs ↔ Placed script outputs := by
  have hlen (before after : List TxOut) (o : TxOut) :
      (before ++ o :: after).length = before.length + after.length + 1 := by
    rw [List.length_append, List.length_cons, Nat.add_assoc]
  constructor
  · rintro ⟨outs, hwhole, o, ho, rfl, hpos, hlt⟩
    obtain ⟨hfits, rfl⟩ := (Codec.whole_eq_some _).mp hwhole
    obtain ⟨hcount, hall⟩ := Codec.fits_counted.mp hfits
    obtain ⟨before, after, rfl⟩ := List.append_of_mem ho
    refine ⟨before, o.value, after, hpos, hlt, fun o' ho' => hall o' ?_, ?_, ?_⟩
    · rcases List.mem_append.mp ho' with h | h
      · exact List.mem_append_left _ h
      · exact List.mem_append_right _ (List.mem_cons_of_mem _ h)
    · rw [hlen] at hcount
      exact hcount
    · rw [Codec.write_counted, hlen, List.flatMap_append, List.flatMap_cons, write_txOut]
  · rintro ⟨before, value, after, hpos, hlt, hall, hcount, rfl⟩
    refine ⟨before ++ ⟨value, script⟩ :: after, (Codec.whole_eq_some _).mpr ⟨?_, ?_⟩,
      ⟨value, script⟩, by simp, rfl, hpos, hlt⟩
    · refine Codec.fits_counted.mpr ⟨by rw [hlen]; exact hcount, fun o ho => ?_⟩
      rcases List.mem_append.mp ho with h | h
      · exact hall o (List.mem_append_left _ h)
      · rcases List.mem_cons.mp h with rfl | h
        · exact fits_txOut.mpr ⟨by show value < _; omega, hs⟩
        · exact hall o (List.mem_append_right _ h)
    · rw [Codec.write_counted, hlen, List.flatMap_append, List.flatMap_cons, write_txOut]

end Donation

/-! ## Two requests -/

/-- Where the sample pool's donation goes. -/
def sampleDecoded : Decoded where
  type := .p2pkh
  network := .bitcoinMainnet
  program := List.replicate 20 7
  size := fits_sample

/-- The sample pool with a donation of one percent. -/
def donationEnv : Env :=
  { sampleEnv with coin := { sampleEnv.coin with donationPercent := 1 } }

theorem configured_donationEnv : Configured donationEnv sampleDecoded := by
  refine ⟨?_, ?_, rfl⟩
  · show (0 : ℚ) < 1
    norm_num
  · show "operator".toList ≠ []
    decide

/-- A request with one output of a value to the donation script. -/
def requestFor (value : Nat) : SetCustomMiningJob where
  channelId := 1000
  requestId := 1
  version := 1
  prevHash := Hash256.zero
  nbits := 0
  coinbaseTxVersion := 1
  coinbasePrefix := []
  coinbaseTxInputNSequence := 0
  coinbaseTxOutputs := txOut.counted.write [⟨value, sampleDecoded.script⟩]
  coinbaseTxLocktime := 0
  merklePath := []

theorem whole_requestFor {value : Nat} (h : value < 2 ^ 63) :
    txOut.counted.whole (requestFor value).coinbaseTxOutputs =
      some [⟨value, sampleDecoded.script⟩] := by
  refine (Codec.whole_eq_some _).mpr ⟨Codec.fits_counted.mpr ⟨?_, fun o ho => ?_⟩, rfl⟩
  · rw [List.length_singleton]
    omega
  · rw [List.mem_singleton.mp ho]
    have hscript : sampleDecoded.script.length < 2 ^ 64 := by decide
    exact fits_txOut.mpr ⟨by show value < _; omega, hscript⟩

end MkPool.CustomDonation
