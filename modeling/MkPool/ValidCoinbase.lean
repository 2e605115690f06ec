import MkPool.CompactTarget
import MkPool.Payouts
import MkPool.PaidSessions
import MkPool.Play

/-! # Coinbases as transactions

`coinbase1` announces a script with twelve bytes of extranonce, and the half of
the session holds the outputs. A rebuilt coinbase is a transaction when these
are there. -/
namespace MkPool.ValidCoinbase
open MkPool.Lib MkPool.Lib.Interaction MkPool.Lib.Transaction MkPool.Utils MkPool.Config MkPool.Job
open MkPool.Coinbase MkPool.Stratifier MkPool.Sv2Messages MkPool.Calls MkPool.ClientSession
open MkPool.JsonValue MkPool.Tasks MkPool.Submit MkPool.StratumV2 MkPool.Desk MkPool.DeskWatch
open MkPool.WorkAgreement MkPool.Validated MkPool.CoinbaseLayout MkPool.Payouts
open MkPool.PaidSessions MkPool.Play

/-! ## Coinbases -/

/-- The text is a legacy transaction of one null input with the script, it pays,
and nothing follows. -/
def CompleteTx (cbHex script : Str) : Prop :=
  ∃ bs sc t, hexToBytes cbHex = some bs ∧ hexToBytes script = some sc ∧ tx.whole bs = some t ∧
    t.CoinbaseOf sc

/-- What the coinbase of a share is rebuilt from: its job, and what the miner
sends for it. -/
inductive Source where
  | line (job : MiningJob) (sub : Submission)
  | standard (job : MiningJob)
  | custom (cj : CustomJob)
  | extended (job : MiningJob) (extranonce : Bytes)

/-- The source of the share a task submits. -/
def source (env : Env) (d : DeskState) : Task → Option Source
  | .line (some msg) => (checkedLine env d msg).map fun sh => .line sh.job sh.sub
  | .message (.submitSharesStandard msg) =>
    match d.session.sv2CustomJobs.lookup msg.jobId with
    | some cj => some (.custom cj)
    | none => (namedJob d.world.strat.jobs msg.jobId).map .standard
  | .message (.submitSharesExtended msg) =>
    (namedJob d.world.strat.jobs msg.jobId).map fun job => .extended job msg.extranonce
  | _ => none

/-- The bytes that are there for the script: what follows its size in
`coinbase1`, and the extranonce. -/
def Source.script (s : Session) : Source → Str
  | .line job sub => (activeCoinbase1 s job sub.jobId).drop 84 ++ (s.extranonce1 ++ sub.nonce2)
  | .standard job => job.coinbase1.drop 84 ++ (s.extranonce1 ++ zeroExtranonce2)
  | .custom cj => bytesToHex cj.coinbasePrefix
  | .extended job extranonce => job.coinbase1.drop 84 ++ (s.extranonce1 ++ bytesToHex extranonce)

/-! ## When they are transactions -/

/-- The job whose outputs a standard share pays. -/
def payingJob (env : Env) (job : MiningJob) : MiningJob :=
  if env.coin.stratumV2EmptyBlocks then emptyBlockJob job else job

/-- The number of outputs that is announced counts the commitment. -/
def AllAnnounced (env : Env) (job : MiningJob) : Prop :=
  ¬ (env.coin.chain = .eCash ∧ AddsCommit job)

/-- **The pool's part fits.** The scripts of the template take one byte of size,
and a commitment kept for the job has a place in its script. -/
def Source.Fits (env : Env) (s : Session) : Source → Prop
  | .line job sub => env.coin.chain ≠ .zcash ∧ OutputsFit env job ∧
      (s.auxDogeAddress ≠ [] → s.sessionAuxJobs.lookup sub.jobId ≠ none →
        172 ≤ job.coinbase1.length)
  | .standard job => env.coin.chain ≠ .zcash ∧ OutputsFit env (payingJob env job)
  | .custom cj => cj.coinbasePrefix.length < 0xfd
  | .extended job _ => env.coin.chain ≠ .zcash ∧ OutputsFit env job

/-- **The miner's part fits.** A V2 session has a script to pay, an extended
extranonce has eight bytes, and the outputs of a custom job are a list of them. -/
def Source.Sound (env : Env) (s : Session) : Source → Prop
  | .line job _ => AllAnnounced env job
  | .standard job => s.workerScriptHex ≠ [] ∧ AllAnnounced env (payingJob env job)
  | .custom cj => ∃ outputs, outputs ≠ [] ∧ txOut.counted.whole cj.coinbaseOutputs = some outputs
  | .extended job extranonce =>
    extranonce.length = 8 ∧ s.workerScriptHex ≠ [] ∧ AllAnnounced env job

/-! ## Reading a coinbase -/

theorem drop_upToExtranonce {more : Nat} {front : Bytes} (h : front.length + more < 0xfd) :
    (bytesToHex (upToExtranonce more front)).drop 84 = bytesToHex front := by
  have hhead : (Wire.leBytes 4 1 ++ (outpoint ++ Codec.compact.write (front.length + more))).length
      = 42 := by
    rw [Codec.write_compact_small h]
    rfl
  have hsplit : bytesToHex (upToExtranonce more front) =
      bytesToHex (Wire.leBytes 4 1 ++ (outpoint ++ Codec.compact.write (front.length + more)))
        ++ bytesToHex front := by
    simp only [bytesToHex, upToExtranonce, Hex.encode_append, List.append_assoc]
  rw [hsplit]
  exact List.drop_left' (by rw [bytesToHex, Hex.length_encode, hhead])

/-- A coinbase as bytes: the half up to the extranonce, which leaves room for
twelve bytes, the extranonce, and the half of the session. -/
structure Halves (cb1 cb2 en cbHex : Str) (front extra tail : Bytes) : Prop where
  small : front.length + 12 < 0xfd
  first : cb1 = bytesToHex (upToExtranonce 12 front)
  middle : hexToBytes en = some extra
  second : hexToBytes cb2 = some tail
  read : hexToBytes cbHex = some (upToExtranonce 12 front ++ (extra ++ tail))

/-- What is read of a rebuilt coinbase is its parts. -/
theorem halves_of_read {cb1 cb2 en cbHex : Str} {front extra bs : Bytes}
    (hsmall : front.length + 12 < 0xfd) (hcb1 : cb1 = bytesToHex (upToExtranonce 12 front))
    (hen : hexToBytes en = some extra) (hcb : cbHex = rebuildCoinbase cb1 cb2 en)
    (hread : hexToBytes cbHex = some bs) : ∃ tail, Halves cb1 cb2 en cbHex front extra tail := by
  have hparts := hread
  rw [hcb, rebuildCoinbase, List.append_assoc, hcb1] at hparts
  obtain ⟨_, hmore, rfl⟩ := read_written hparts
  have hlen := Hex.length_of_decode hen
  obtain ⟨extra', tail, hextra, htail, rfl⟩ := Hex.decode_of_append hmore ⟨_, hlen⟩
  obtain rfl := Option.some.inj (hen.symm.trans hextra)
  exact ⟨tail, hsmall, hcb1, hen, htail, hread⟩

theorem Halves.text (front extra tail : Bytes) : upToExtranonce 12 front ++ (extra ++ tail) =
    Wire.leBytes 4 1 ++ (outpoint ++ (Codec.compact.write (front.length + 12) ++
      ((front ++ extra) ++ tail))) := by
  simp only [upToExtranonce, List.append_assoc]

/-- A coinbase by its halves: it is one when twelve bytes stand between them
and the second is a tail. -/
theorem Halves.valid_iff {cb1 cb2 en cbHex : Str} {front extra tail : Bytes}
    (h : Halves cb1 cb2 en cbHex front extra tail) :
    CompleteTx cbHex (cb1.drop 84 ++ en) ↔ extra.length = 12 ∧ IsTail tail := by
  have hscript : hexToBytes (cb1.drop 84 ++ en) = some (front ++ extra) := by
    rw [h.first, drop_upToExtranonce h.small]
    exact hexToBytes_append (hexToBytes_bytesToHex front) h.middle
  have hiff := @whole_coinbase_iff 1 _ (front ++ extra) tail (by decide) h.small
  rw [← Halves.text] at hiff
  rw [show extra.length = 12 ↔ (front ++ extra).length = front.length + 12 by
    rw [List.length_append]; omega, ← hiff]
  constructor
  · rintro ⟨_, _, t, hbs, hsc, hwhole, hc⟩
    obtain rfl := Option.some.inj (h.read.symm.trans hbs)
    obtain rfl := Option.some.inj (hscript.symm.trans hsc)
    exact ⟨t, hwhole, hc⟩
  · rintro ⟨t, hwhole, hc⟩
    exact ⟨_, _, t, h.read, hscript, hwhole, hc⟩

/-- The bytes of an extranonce1. -/
theorem extranonce1_read (v : UInt32) :
    ∃ bs, hexToBytes (intToHex v 8) = some bs ∧ bs.length = 4 := by
  refine ⟨_, CompactTarget.hexToBytes_intToHex v, ?_⟩
  rw [CompactTarget.wordBytes, List.length_reverse, Wire.length_leBytes]

/-! ## The shared halves -/

section Halves

variable {env : Env} {isV2 : Bool} {ok : DeskState → Input → Prop} {d : DeskState}

/-- The shared half of a job of the window. -/
theorem front_of_window (hchain : env.coin.chain ≠ .zcash) (h : Reach env isV2 ok d)
    {job : MiningJob} (hj : job ∈ d.world.strat.jobs.jobs) :
    ∃ front, front.length + 12 < 0xfd ∧ job.coinbase1 = bytesToHex (upToExtranonce 12 front) := by
  obtain ⟨gbt, bt, hbt, hof⟩ := template_of_window h job hj
  obtain ⟨_, _, hsmall, hcb⟩ :=
    buildCoinbase1_eq hchain (heights_of_parseTemplate hbt).1 hof.coinbase1
  exact ⟨_, hsmall, hcb⟩

/-- With room for the commitment, the half a session activates has the shape of
the shared one. -/
theorem front_of_active {s : Session} {job : MiningJob} {jobId : Str} {front : Bytes}
    (hkept : ∀ id saj, s.sessionAuxJobs.lookup id = some saj → WholeCommit saj)
    (hsmall : front.length + 12 < 0xfd)
    (hcb : job.coinbase1 = bytesToHex (upToExtranonce 12 front))
    (hroom : s.auxDogeAddress ≠ [] → s.sessionAuxJobs.lookup jobId ≠ none →
      172 ≤ job.coinbase1.length) :
    ∃ front', front'.length + 12 < 0xfd ∧
      activeCoinbase1 s job jobId = bytesToHex (upToExtranonce 12 front') := by
  unfold activeCoinbase1
  split
  · exact ⟨front, hsmall, hcb⟩
  · rename_i hdoge
    split
    · rename_i saj hsaj
      obtain ⟨commit, hlen, hcommit⟩ := hkept jobId saj hsaj
      have hlong := hroom (fun he => hdoge (List.isEmpty_iff.mpr he))
        (by rw [hsaj]; exact Option.some_ne_none saj)
      have hfront : 44 ≤ front.length := by
        have hrest := congrArg List.length (drop_upToExtranonce hsmall)
        rw [← hcb, List.length_drop, bytesToHex, Hex.length_encode] at hrest
        omega
      refine ⟨withCommit front commit, ?_, ?_⟩
      · rw [length_withCommit hlen hfront]
        exact hsmall
      · rw [hcb, hcommit, spliceCommit_eq hlen hfront]
    · exact ⟨front, hsmall, hcb⟩

end Halves

/-! ## The paths -/

theorem mem_of_namedJob {jobs : JobWindow} {id : UInt32} {job : MiningJob}
    (h : namedJob jobs id = some job) : job ∈ jobs.jobs := by
  have window (h : jobs.findU32 id = some job) : job ∈ jobs.jobs := by
    obtain ⟨jobId, hmem, _⟩ := JobWindow.mem_jobs_of_findU32 h
    exact List.mem_map.mpr ⟨_, hmem, rfl⟩
  unfold namedJob at h
  split at h
  · rename_i j hj
    split at h
    · obtain rfl := Option.some.inj h
      obtain ⟨jobId, hmem⟩ := JobWindow.mem_jobs_of_latest hj
      exact List.mem_map.mpr ⟨_, hmem, rfl⟩
    · exact window h
  · exact window h

/-- The sizes of the parameters of a line that was read. -/
theorem parsed_sizes {env : Env} {s : Session} {msg : Json} {sub : Submission}
    (hchain : env.coin.chain ≠ .zcash) (h : parseSubmit env s msg = .ok sub) :
    validHex sub.nonce2 = true ∧ sub.nonce2.length = s.extranonce2Size * 2 ∧
      sub.ntimeS.length = 8 ∧ sub.nonceS.length = 8 := by
  have ofBitcoin {p : List Json} (h : parseSubmitBitcoin s p = .ok sub) :
      validHex sub.nonce2 = true ∧ sub.nonce2.length = s.extranonce2Size * 2 ∧
        sub.ntimeS.length = 8 ∧ sub.nonceS.length = 8 := by
    unfold parseSubmitBitcoin at h
    split at h
    · dsimp only at h
      split at h
      · cases h
      · rename_i hvalid
        split at h
        · cases h
        · rename_i hnonce
          split at h
          · cases h
          · rename_i hsize
            cases h
            simp only [Bool.or_eq_true, Bool.not_eq_true', not_or, Bool.not_eq_false,
              decide_eq_true_eq, ne_eq, Decidable.not_not] at hvalid
            exact ⟨hvalid.1.1.1, Decidable.not_not.mp hsize, hvalid.2,
              Decidable.not_not.mp hnonce⟩
    · cases h
  unfold parseSubmit at h
  split at h
  · split at h
    · cases h
    · exact ofBitcoin h
  · cases h

/-- The extranonce2 of a line that was read. -/
theorem nonce2_read {env : Env} {s : Session} {msg : Json} {sub : Submission}
    (hchain : env.coin.chain ≠ .zcash) (h : parseSubmit env s msg = .ok sub) :
    ∃ bs, hexToBytes sub.nonce2 = some bs ∧ bs.length = s.extranonce2Size := by
  obtain ⟨hvalid, hlen, _⟩ := parsed_sizes hchain h
  unfold validHex at hvalid
  have hdigits := List.all_eq_true.mp (Bool.and_eq_true _ _ ▸ hvalid).1
  obtain ⟨bs, hbs⟩ := Hex.decode_of_digits (fun c hc => hdigits c hc) ⟨_, by rw [hlen, mul_comm]⟩
  have := Hex.length_of_decode hbs
  exact ⟨bs, hbs, by omega⟩

/-- A coinbase that was hashed is readable. -/
theorem read_of_txid {H : Hashes} {cbHex txid : Str}
    (h : computeCoinbaseTxidLe H cbHex = some txid) : ∃ bs, hexToBytes cbHex = some bs := by
  obtain ⟨bs, hbs, _⟩ := Option.map_eq_some_iff.mp h
  exact ⟨bs, hbs⟩

section Paths

variable {env : Env} {isV2 : Bool} {ok : DeskState → Input → Prop} {d : DeskState}

/-- The extranonce of a session, with what the miner adds. -/
theorem extranonce_read (hen : ∃ v : UInt32, d.session.extranonce1 = intToHex v 8) {more : Str}
    {bs : Bytes} (hmore : hexToBytes more = some bs) :
    ∃ en, en.length = 4 ∧ hexToBytes (d.session.extranonce1 ++ more) = some (en ++ bs) := by
  obtain ⟨v, hv⟩ := hen
  obtain ⟨en, hread, hlen⟩ := extranonce1_read v
  rw [← hv] at hread
  exact ⟨en, hlen, hexToBytes_append hread hmore⟩

theorem smallScript_of_decodes {script : Str} (h : Decodes script) : SmallScript script := by
  obtain ⟨decoded, rfl⟩ := h
  exact smallScript_decoded decoded

theorem decodes_ne {script : Str} (h : Decodes script) : script ≠ [] := by
  obtain ⟨decoded, rfl⟩ := h
  exact scriptPubkeyHex_ne decoded

/-- The halves of a line's coinbase. -/
theorem line_halves (h : Reach env isV2 ok d)
    (hen : ∃ v : UInt32, d.session.extranonce1 = intToHex v 8) (hv1 : d.session.isV2 = false)
    (hauth : d.session.authorized = true) {msg : Json} {sh : Share}
    (hsh : checkedLine env d msg = some sh)
    (hfits : (Source.line sh.job sh.sub).Fits env d.session) :
    Decodes d.session.workerScriptHex ∧ ∃ front extra tail, extra.length = 12 ∧
      Halves (activeCoinbase1 d.session sh.job sh.sub.jobId)
        (buildSessionCoinbase2 env sh.job d.session.workerScriptHex)
        (d.session.extranonce1 ++ sh.sub.nonce2) sh.cbHex front extra tail := by
  cases isV2 with
  | true => exact absurd ((script_reach h).1.v2.symm.trans hv1) (by decide)
  | false =>
    obtain ⟨hchain, houts, hroom⟩ := hfits
    obtain ⟨_, hpaid⟩ := paid_reach hchain h
    obtain ⟨sub, version, hparse, hfind, _, hfrom⟩ := line_rebuilt hsh
    obtain rfl := hfrom.ofSub
    have hj : sh.job ∈ d.world.strat.jobs.jobs :=
      List.mem_map.mpr ⟨_, JobWindow.mem_jobs_of_find hfind, rfl⟩
    obtain ⟨front, hsmall, hcb⟩ := front_of_window hchain h hj
    obtain ⟨front', hsmall', hactive⟩ := front_of_active (commits_reach h) hsmall hcb hroom
    obtain ⟨root, hroot, _⟩ := hfrom.header
    unfold coinbaseAndRoot at hroot
    rw [if_neg hchain] at hroot
    obtain ⟨txid, htxid, hroot⟩ := Option.bind_eq_some_iff.mp hroot
    obtain ⟨_, _, hroot⟩ := Option.bind_eq_some_iff.mp hroot
    obtain ⟨hcbHex, _⟩ := Prod.mk.inj (Option.some.inj hroot)
    obtain ⟨bs, hread⟩ := read_of_txid htxid
    obtain ⟨nonce2, hnonce2, hsize⟩ := nonce2_read hchain hparse
    obtain ⟨en, hlen, hextra⟩ := extranonce_read hen hnonce2
    rw [hcbHex] at hread
    obtain ⟨tail, hhalves⟩ := halves_of_read hsmall' hactive hextra hcbHex.symm hread
    refine ⟨hpaid.script hauth, front', en ++ nonce2, tail, ?_, hhalves⟩
    rw [List.length_append, hlen, hsize, hpaid.size]

theorem line_iff (h : Reach env isV2 ok d)
    (hen : ∃ v : UInt32, d.session.extranonce1 = intToHex v 8) (hv1 : d.session.isV2 = false)
    (hauth : d.session.authorized = true) {msg : Json} {sh : Share}
    (hsh : checkedLine env d msg = some sh)
    (hfits : (Source.line sh.job sh.sub).Fits env d.session) :
    CompleteTx sh.cbHex ((Source.line sh.job sh.sub).script d.session) ↔
      (Source.line sh.job sh.sub).Sound env d.session := by
  obtain ⟨hdecodes, front, extra, tail, hlen, hhalves⟩ := line_halves h hen hv1 hauth hsh hfits
  rw [Source.script, hhalves.valid_iff,
    tail_coinbase2 (.inr (smallScript_of_decodes hdecodes)) hfits.2.1 hhalves.second]
  exact ⟨fun hs => hs.2.2, fun hs => ⟨hlen, decodes_ne hdecodes, hs⟩⟩

/-- The halves of a coinbase on the two paths of pool jobs in Stratum V2. -/
theorem pool_halves (h : Reach env isV2 ok d) (hv2 : d.session.isV2 = true)
    (hen : ∃ v : UInt32, d.session.extranonce1 = intToHex v 8) (hchain : env.coin.chain ≠ .zcash)
    {job paying : MiningJob} (hj : job ∈ d.world.strat.jobs.jobs)
    {more : Str} {added : Bytes} (hmore : hexToBytes more = some added) {cbHex txid : Str}
    (hcb : cbHex = rebuildCoinbase job.coinbase1
      (buildSessionCoinbase2 env paying d.session.workerScriptHex) (d.session.extranonce1 ++ more))
    (htxid : computeCoinbaseTxidLe env.hashes cbHex = some txid) :
    NoneOrDecodes d.session ∧ ∃ front en tail, en.length = 4 ∧
      Halves job.coinbase1 (buildSessionCoinbase2 env paying d.session.workerScriptHex)
        (d.session.extranonce1 ++ more) cbHex front (en ++ added) tail := by
  cases isV2 with
  | false =>
    obtain ⟨hv, _⟩ := paid_reach hchain h
    exact absurd (hv.v1.symm.trans hv2) (by decide)
  | true =>
    obtain ⟨front, hsmall, hfront⟩ := front_of_window hchain h hj
    obtain ⟨bs, hread⟩ := read_of_txid htxid
    obtain ⟨en, hen4, hextra⟩ := extranonce_read hen hmore
    obtain ⟨tail, hhalves⟩ := halves_of_read hsmall hfront hextra hcb hread
    exact ⟨(script_reach h).2, front, en, tail, hen4, hhalves⟩

/-- The two paths of pool jobs in Stratum V2. -/
theorem pool_iff (h : Reach env isV2 ok d) (hv2 : d.session.isV2 = true)
    (hen : ∃ v : UInt32, d.session.extranonce1 = intToHex v 8) (hchain : env.coin.chain ≠ .zcash)
    {job paying : MiningJob} (hj : job ∈ d.world.strat.jobs.jobs) (houts : OutputsFit env paying)
    {more : Str} {added : Bytes} (hmore : hexToBytes more = some added) {cbHex txid : Str}
    (hcb : cbHex = rebuildCoinbase job.coinbase1
      (buildSessionCoinbase2 env paying d.session.workerScriptHex) (d.session.extranonce1 ++ more))
    (htxid : computeCoinbaseTxidLe env.hashes cbHex = some txid) :
    CompleteTx cbHex (job.coinbase1.drop 84 ++ (d.session.extranonce1 ++ more)) ↔
      added.length = 8 ∧ d.session.workerScriptHex ≠ [] ∧ AllAnnounced env paying := by
  obtain ⟨hscript, front, en, tail, hen4, hhalves⟩ :=
    pool_halves h hv2 hen hchain hj hmore hcb htxid
  rw [hhalves.valid_iff, List.length_append, hen4,
    tail_coinbase2 (hscript.imp_right smallScript_of_decodes) houts hhalves.second]
  exact ⟨fun hs => ⟨by omega, hs.2⟩, fun hs => ⟨by omega, hs.2⟩⟩

end Paths

/-- The text of a custom job's coinbase. -/
def customCoinbase (cj : CustomJob) : Str :=
  leHexU32 cj.coinbaseTxVersion ++ "01".toList ++ List.replicate 64 '0' ++ "ffffffff".toList
    ++ hex2 cj.coinbasePrefix.length ++ bytesToHex cj.coinbasePrefix
    ++ leHexU32 cj.coinbaseTxInputNSequence ++ bytesToHex cj.coinbaseOutputs
    ++ leHexU32 cj.coinbaseTxLocktime

theorem rebuildCustom_coinbase {env : Env} {cj : CustomJob} {msg : SubmitSharesStandard}
    {sh : ShareV2} (h : rebuildCustom env cj msg = some sh) : sh.cbHex = customCoinbase cj := by
  obtain ⟨root, _, h⟩ := Option.bind_eq_some_iff.mp h
  exact (hashedFrom h).coinbase

theorem custom_iff {cj : CustomJob} (hsmall : cj.coinbasePrefix.length < 0xfd) :
    CompleteTx (customCoinbase cj) (bytesToHex cj.coinbasePrefix) ↔
      ∃ outputs, outputs ≠ [] ∧ txOut.counted.whole cj.coinbaseOutputs = some outputs := by
  have houtpoint : "01".toList ++ List.replicate 64 '0' ++ "ffffffff".toList =
      bytesToHex outpoint := by decide
  have htext : customCoinbase cj = bytesToHex (Wire.leBytes 4 cj.coinbaseTxVersion.toNat ++
      (outpoint ++ (Codec.compact.write cj.coinbasePrefix.length ++ (cj.coinbasePrefix ++
        (Wire.leBytes 4 cj.coinbaseTxInputNSequence.toNat ++ (cj.coinbaseOutputs ++
          Wire.leBytes 4 cj.coinbaseTxLocktime.toNat)))))) := by
    simp only [bytesToHex_append]
    rw [← houtpoint, ← hex2_compact hsmall]
    simp only [customCoinbase, leHexU32_eq, List.append_assoc]
  have hread := hexToBytes_bytesToHex (Wire.leBytes 4 cj.coinbaseTxVersion.toNat ++
      (outpoint ++ (Codec.compact.write cj.coinbasePrefix.length ++ (cj.coinbasePrefix ++
        (Wire.leBytes 4 cj.coinbaseTxInputNSequence.toNat ++ (cj.coinbaseOutputs ++
          Wire.leBytes 4 cj.coinbaseTxLocktime.toNat))))))
  rw [← htext] at hread
  have hversion : cj.coinbaseTxVersion.toNat < 256 ^ 4 := cj.coinbaseTxVersion.toNat_lt
  rw [← isTail_iff cj.coinbaseTxInputNSequence.toNat_lt cj.coinbaseTxLocktime.toNat_lt]
  have hiff := @whole_coinbase_iff _ _ cj.coinbasePrefix
    (Wire.leBytes 4 cj.coinbaseTxInputNSequence.toNat ++ (cj.coinbaseOutputs ++
      Wire.leBytes 4 cj.coinbaseTxLocktime.toNat)) hversion hsmall
  constructor
  · rintro ⟨_, _, t, hbs, hsc, hwhole, hc⟩
    obtain rfl := Option.some.inj (hread.symm.trans hbs)
    obtain rfl := Option.some.inj ((hexToBytes_bytesToHex _).symm.trans hsc)
    exact (hiff.mp ⟨t, hwhole, hc⟩).2
  · intro htail
    obtain ⟨t, hwhole, hc⟩ := hiff.mpr ⟨rfl, htail⟩
    exact ⟨_, _, t, hread, hexToBytes_bytesToHex _, hwhole, hc⟩

/-- A standard share, of a pool job or a custom one. -/
theorem standard_iff {env : Env} {isV2 : Bool} {ok : DeskState → Input → Prop} {d : DeskState}
    (h : Reach env isV2 ok d) (hv2 : d.session.isV2 = true)
    (hen : ∃ v : UInt32, d.session.extranonce1 = intToHex v 8) {msg : SubmitSharesStandard}
    {sh : ShareV2} (hsh : rebuiltStandard env d msg = some sh) :
    ∃ src, source env d (.message (.submitSharesStandard msg)) = some src ∧
      (src.Fits env d.session →
        (CompleteTx sh.cbHex (src.script d.session) ↔ src.Sound env d.session)) := by
  unfold rebuiltStandard at hsh
  cases hcustom : d.session.sv2CustomJobs.lookup msg.jobId with
  | some cj =>
    rw [hcustom] at hsh
    refine ⟨.custom cj, by simp only [source, hcustom], fun hfits => ?_⟩
    rw [rebuildCustom_coinbase hsh]
    exact custom_iff hfits
  | none =>
    rw [hcustom] at hsh
    obtain ⟨job, hjob, hsh⟩ := Option.bind_eq_some_iff.mp hsh
    refine ⟨.standard job, by simp only [source, hcustom, hjob, Option.map_some], fun hfits => ?_⟩
    obtain ⟨txid, htxid, _⟩ := Option.bind_eq_some_iff.mp hsh
    obtain ⟨_, hfrom⟩ := standard_hashed hsh
    have hcb : standardCoinbase env d.session job = rebuildCoinbase job.coinbase1
        (buildSessionCoinbase2 env (payingJob env job) d.session.workerScriptHex)
        (d.session.extranonce1 ++ zeroExtranonce2) := by
      unfold standardCoinbase payingJob
      split <;> rfl
    have hzero : hexToBytes zeroExtranonce2 = some (List.replicate 8 0) := by decide
    have hiff := pool_iff h hv2 hen hfits.1 (mem_of_namedJob hjob) hfits.2 hzero hcb htxid
    rw [hfrom.coinbase, Source.script, hiff]
    exact ⟨fun hs => hs.2, fun hs => ⟨rfl, hs⟩⟩

/-! ## Shares that are handled -/

/-- A share is accepted, or a block submitted. -/
def Handling : Event → Prop
  | ⟨.countAccepted .., _⟩ | ⟨.submitBlock _, _⟩ => True
  | _ => False

/-- Between the two states a share is accepted or submitted as a block. -/
def Handles (d d' : DeskState) : Prop :=
  ∃ evs, d'.world.log = evs ++ d.world.log ∧ ∃ e ∈ evs, Handling e

section Handled

variable {env : Env} {d d' : DeskState} {readings : Set ℚ}

theorem not_handling {e : Event} (h : OffShares e.1) : ¬ Handling e := by
  obtain ⟨c, x⟩ := e
  cases c <;> first | exact h.elim | exact fun hh => hh

/-- A share that is handled is the one its task is checked as. -/
theorem checked_of_handles {t : Task} (hs : Step env d (.task t readings) d') (h : Handles d d') :
    ∃ c, checked env d t = some c := by
  obtain ⟨evs, hlog, ⟨c, x⟩, he, hc⟩ := h
  cases hs with
  | @task s w w' _ _ o offered run =>
    obtain ⟨evs', hlog', hevs⟩ := task_about run
    obtain rfl : evs = evs' := List.append_cancel_right (hlog.symm.trans hlog')
    have habout := hevs _ he
    cases c with
    | countAccepted path hash job ntime =>
      obtain ⟨c, hc, _⟩ := habout
      exact ⟨c, hc⟩
    | submitBlock b =>
      obtain ⟨c, hc, _⟩ := habout
      exact ⟨c, hc⟩
    | _ => exact hc.elim

/-- Lines are handled on V1 connections that are authorized. -/
theorem authorized_of_handles {line : Option Json} (hs : Step env d (.task (.line line) readings) d')
    (h : Handles d d') : d.session.isV2 = false ∧ d.session.authorized = true := by
  obtain ⟨evs, hlog, e, he, hc⟩ := h
  cases hs with
  | @task s w w' _ _ o offered run =>
    refine ⟨offered, ?_⟩
    cases hauth : s.authorized with
    | true => rfl
    | false =>
      obtain ⟨evs', hlog', hevs⟩ := exec_log run (offShares_unauthorized hauth)
      obtain rfl : evs = evs' := List.append_cancel_right (hlog.symm.trans hlog')
      exact absurd hc (not_handling (hevs e he))

end Handled

/-- **Which coinbases are transactions.** In every run, the coinbase of a share
that is accepted or submitted as a block is one of its source. Where the pool's
part fits, it is a transaction with that script exactly when the miner's part
fits too. -/
theorem valid_coinbase_iff (env : Env) (isV2 : Bool) (d d' : DeskState) (t : Task)
    (readings : Set ℚ) (hreach : Reach env isV2 (fun _ _ => True) d)
    (hen : ∃ v : UInt32, d.session.extranonce1 = intToHex v 8)
    (hs : Step env d (.task t readings) d') (h : Handles d d') :
    ∃ c src, checked env d t = some c ∧ source env d t = some src ∧
      (src.Fits env d.session →
        (CompleteTx c.cbHex (src.script d.session) ↔ src.Sound env d.session)) := by
  obtain ⟨c, hc⟩ := checked_of_handles hs h
  cases t with
  | line l =>
    obtain ⟨hv1, hauth⟩ := authorized_of_handles hs h
    cases l with
    | none => cases hc
    | some msg =>
      obtain ⟨sh, hsh, rfl⟩ := Option.map_eq_some_iff.mp hc
      refine ⟨_, .line sh.job sh.sub, hc, ?_, line_iff hreach hen hv1 hauth hsh⟩
      simp only [source, hsh, Option.map_some]
  | message msg =>
    have hv2 : d.session.isV2 = true := by
      cases hs with
      | task offered run => exact offered
    cases msg with
    | submitSharesStandard msg =>
      obtain ⟨version, _, hshare⟩ := Option.bind_eq_some_iff.mp hc
      obtain ⟨sh, hsh, he⟩ := Option.bind_eq_some_iff.mp hshare
      obtain rfl := Option.some.inj he
      obtain ⟨src, hsrc, hiff⟩ := standard_iff hreach hv2 hen hsh
      exact ⟨_, src, hc, hsrc, hiff⟩
    | submitSharesExtended msg =>
      obtain ⟨job, hjob, hshare⟩ := Option.bind_eq_some_iff.mp hc
      obtain ⟨sh, hsh, he⟩ := Option.bind_eq_some_iff.mp hshare
      obtain rfl := Option.some.inj he
      refine ⟨_, .extended job msg.extranonce, hc, ?_, fun hfits => ?_⟩
      · simp only [source, hjob, Option.map_some]
      · obtain ⟨txid, htxid, _⟩ := Option.bind_eq_some_iff.mp hsh
        obtain ⟨_, hfrom⟩ := extended_hashed hsh
        show CompleteTx sh.cbHex _ ↔ _
        rw [hfrom.coinbase]
        exact pool_iff hreach hv2 hen hfits.1 (mem_of_namedJob hjob) hfits.2
          (hexToBytes_bytesToHex msg.extranonce) rfl htxid
    | _ => cases hc
  | _ => cases hc

/-! ## Three shares -/

/-- The event handles a share. -/
def handlesIn : Event → Bool
  | ⟨.countAccepted .., _⟩ | ⟨.submitBlock _, _⟩ => true
  | _ => false

theorem handles_of_step {env : Env} {d d' : DeskState} {i : Desk.Input} (hs : Step env d i d')
    (hbefore : d.world.log.any handlesIn = false) (hafter : d'.world.log.any handlesIn = true) :
    Handles d d' := by
  obtain ⟨evs, hlog⟩ := log_of_step hs
  rw [hlog] at hafter
  obtain ⟨⟨c, x⟩, he, hin⟩ := List.any_eq_true.mp hafter
  rcases List.mem_append.mp he with he | he
  · refine ⟨evs, hlog, _, he, ?_⟩
    cases c with
    | countAccepted path hash job ntime => trivial
    | submitBlock b => trivial
    | _ => cases hin
  · exact absurd hin (List.any_eq_false.mp hbefore _ he)

/-- The connection has an extranonce of the generator, and the move is a share
that is handled. -/
def handledAfter (m : Move) (d : DeskState) : Bool :=
  decide (d.session.extranonce1 = intToHex 0x0a0b0c0d 8) && !d.world.log.any handlesIn &&
    ((m.input usual d).bind (perform easyPool usual d)).any fun d' => d'.world.log.any handlesIn

theorem handled_of_play (isV2 : Bool) (moves : List (Replies × Move)) (m : Move)
    (also : DeskState → Bool)
    (h : (play easyPool anyMove (start easyPool isV2) moves).any
      (fun d => handledAfter m d && also d) = true) :
    ∃ d d' i, Reach easyPool isV2 (fun _ _ => True) d ∧
      (∃ v : UInt32, d.session.extranonce1 = intToHex v 8) ∧ m.input usual d = some i ∧
        Step easyPool d i d' ∧ Handles d d' ∧ also d = true := by
  obtain ⟨d, hd, hx⟩ := (Option.any_eq_true _ _).mp h
  obtain ⟨hx, halso⟩ := Bool.and_eq_true_iff.mp hx
  simp only [handledAfter, Bool.and_eq_true, decide_eq_true_eq, Bool.not_eq_true',
    Option.any_eq_true] at hx
  obtain ⟨⟨hen, hbefore⟩, d', hd', hafter⟩ := hx
  obtain ⟨i, hi, hd'⟩ := Option.bind_eq_some_iff.mp hd'
  have hs := step_of_perform hi hd'
  exact ⟨d, d', i, reach_of_play _ (fun _ _ _ _ _ _ => trivial) reach_start hd, ⟨_, hen⟩, hi, hs,
    handles_of_step hs hbefore hafter, halso⟩

/-- The source is a line's, and all of it fits. -/
def lineFits (env : Env) : Source → Bool
  | .line job _ => decide (env.coin.chain ≠ .zcash ∧ env.coin.chain ≠ .eCash ∧ ¬ AddsCommit job ∧
      172 ≤ job.coinbase1.length)
  | _ => false

theorem fits_of_lineFits {env : Env} {s : Session} {src : Source} (h : lineFits env src = true) :
    src.Fits env s ∧ src.Sound env s := by
  cases src with
  | line job sub =>
    obtain ⟨hchain, hecash, hnone, hroom⟩ := of_decide_eq_true h
    exact ⟨⟨hchain, ⟨fun hc => absurd hc hnone, fun he => absurd he hecash⟩, fun _ _ => hroom⟩,
      fun hboth => hecash hboth.1⟩
  | _ => cases h

/-- The coinbase of a V1 miner's first share. -/
theorem first_coinbase_valid :
    ∃ (d : DeskState) (t : Task) (c : Checked) (src : Source),
      checked easyPool d t = some c ∧ source easyPool d t = some src ∧
        CompleteTx c.cbHex (src.script d.session) := by
  obtain ⟨d, d', i, hreach, hen, hi, hs, hh, halso⟩ := handled_of_play false
    (minerJoins ++ firstJob) (.line firstShare)
    (fun d => (source easyPool d (.line (some firstShare))).any (lineFits easyPool)) (by decide +kernel)
  obtain ⟨src, hsrc, hline⟩ := (Option.any_eq_true _ _).mp halso
  obtain ⟨hfits, hsound⟩ := fits_of_lineFits hline
  simp only [Move.input] at hi
  split at hi
  · cases hi
  · cases hi
    obtain ⟨c, src', hc, hsrc', hiff⟩ :=
      valid_coinbase_iff easyPool false d d' _ _ hreach hen hs hh
    obtain rfl := Option.some.inj (hsrc.symm.trans hsrc')
    exact ⟨d, _, c, src, hc, hsrc, (hiff hfits).mpr hsound⟩

/-- The coinbase of the share is no transaction. -/
def notRead (msg : Request) (d : DeskState) : Bool :=
  (checked easyPool d (.message msg)).any fun c =>
    ((hexToBytes c.cbHex).bind tx.whole).isNone

theorem not_valid_of_notRead (msg : Request) (moves : List (Replies × Move))
    (h : (play easyPool anyMove (start easyPool true) moves).any
      (fun d => handledAfter (.message msg) d && notRead msg d) = true) :
    ∃ (d d' : DeskState) (t : Task) (readings : Set ℚ) (c : Checked),
      Reach easyPool true (fun _ _ => True) d ∧
        (∃ v : UInt32, d.session.extranonce1 = intToHex v 8) ∧
          Step easyPool d (.task t readings) d' ∧ Handles d d' ∧ checked easyPool d t = some c ∧
            ∀ script, ¬ CompleteTx c.cbHex script := by
  obtain ⟨d, d', i, hreach, hen, hi, hs, hh, hnot⟩ := handled_of_play _ _ _ _ h
  obtain ⟨readings, rfl⟩ := Move.task_of_message hi
  obtain ⟨c, hc, hnone⟩ := (Option.any_eq_true _ _).mp hnot
  refine ⟨d, d', _, readings, c, hreach, hen, hs, hh, hc, ?_⟩
  rintro script ⟨bs, sc, t, hbs, _, hwhole, _⟩
  rw [hbs, Option.bind_some, hwhole] at hnone
  cases hnone

/-- **A share before a channel is opened.** Nothing follows its extranonce. -/
theorem coinbase_without_outputs :
    ∃ (d d' : DeskState) (t : Task) (readings : Set ℚ) (c : Checked),
      Reach easyPool true (fun _ _ => True) d ∧
        (∃ v : UInt32, d.session.extranonce1 = intToHex v 8) ∧
          Step easyPool d (.task t readings) d' ∧ Handles d d' ∧ checked easyPool d t = some c ∧
            ∀ script, ¬ CompleteTx c.cbHex script :=
  not_valid_of_notRead (.submitSharesStandard firstShareV2)
    ((usual, .message (.setupConnection 0)) :: firstJob) (by decide +kernel)

/-- **An extended channel of sixteen bytes.** The pool grants what was asked for,
and the miner fills it. -/
theorem coinbase_of_long_extranonce :
    ∃ (d d' : DeskState) (t : Task) (readings : Set ℚ) (c : Checked),
      Reach easyPool true (fun _ _ => True) d ∧
        (∃ v : UInt32, d.session.extranonce1 = intToHex v 8) ∧
          Step easyPool d (.task t readings) d' ∧ Handles d d' ∧ checked easyPool d t = some c ∧
            ∀ script, ¬ CompleteTx c.cbHex script :=
  not_valid_of_notRead
    (.submitSharesExtended
      { channelId := 1000, sequenceNumber := 1, jobId := 0x01000000, nonce := 0, ntime := 0,
        version := 1, extranonce := List.replicate 16 0 })
    ((usual, .message (.openExtendedMiningChannel
      { requestId := 1, userIdentity := "miner.1".toList, nominalHashRate := 0,
        minExtranonceSize := 16 })) :: firstJob) (by decide +kernel)

end MkPool.ValidCoinbase
