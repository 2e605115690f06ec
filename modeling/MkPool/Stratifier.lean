import MkPool.ClientSession

/-! # The stratifier: templates, published jobs and the shared tables

`updateWork` turns a block template into a job. Its locked steps are calls, so
that other threads may run between them. `StratState` is what the locks
protect, and `StratStep` what each locked access does to it. -/
namespace MkPool.Stratifier
open MkPool.Lib.Interaction MkPool.Utils MkPool.Config MkPool.Job MkPool.Coinbase
open MkPool.Calls MkPool.JsonValue

/-! ## Reading a template -/

/-- The five header times and the bits of `rtt`, where all are usable. -/
def parseRtt (rtt : Json) : Option (Option (List UInt32 × UInt32)) :=
  match rtt.arrayAt? "prevheadertime".toList, rtt.find? "prevbits".toList with
  | some times, some _ =>
    if times.length < 5 then some none
    else do
      let pb ← rtt.valueString "prevbits" []
      let pht := (times.take 5).map Json.getInt64?
      if pht.all (fun t => (t.filter fun t => decide (0 < t)).isSome) && pb.length = 8
          && validHex pb then
        return some (pht.map fun t => UInt32.ofNat (t.getD 0 % 2 ^ 32).toNat,
          ((stoul16 pb).getD 0).toUInt32)
      else return none
  | _, _ => some none

/-- One listed transaction. -/
def parseTx (jt : Json) : Option BlockTemplateTx := do
  let data ← jt.valueString "data" []
  let hash ← jt.valueString "hash" []
  let txidDisplay ← jt.valueString "txid" hash
  let fee ← jt.valueInt64 "fee"
  let _sigops ← jt.valueInt32 "sigops"
  let _weight ← jt.valueInt32 "weight"
  return { data, txidLe := byteReverseHex txidDisplay, fee }

/-- The miner fund of `coinbasetxn`: its value and first address. -/
def parseMinerFund (cb : Option Json) : Option (Int × Str) :=
  match cb.bind (·.objectAt? "minerfund".toList) with
  | some mf => do
    let v ← mf.valueInt64 "minimumvalue"
    match mf.arrayAt? "addresses".toList with
    | some (a :: _) => return (v, ← a.getString?)
    | _ => return (v, [])
  | none => some (0, [])

/-- The staking reward of `coinbasetxn`: its value and script. -/
def parseStakingRewards (cb : Option Json) : Option (Int × Str) :=
  match cb.bind (·.objectAt? "stakingrewards".toList) with
  | some sr => do
    let v ← sr.valueInt64 "minimumvalue"
    match sr.objectAt? "payoutscript".toList with
    | some ps => return (v, ← ps.valueString "hex" [])
    | none => return (v, [])
  | none => some (0, [])

/-- The aux part of a template, copied from the Dogecoin template. -/
def parseAux (r : Json) (bt : BlockTemplate) : Option BlockTemplate :=
  match r.objectAt? "aux".toList with
  | some a => do
    let version ← a.valueInt32 "version"
    let curtime ← a.valueInt32 "curtime"
    return { bt with
      auxEnabled := true
      auxVersion := UInt32.ofNat (version % 2 ^ 32).toNat ||| 0x100
      auxPrevhash := ← a.valueString "previousblockhash" []
      auxBits := ← a.valueString "bits" []
      auxCurtime := UInt32.ofNat (curtime % 2 ^ 32).toNat
      auxHeight := ← a.valueInt32 "height"
      auxCoinbasevalue := ← a.valueInt64 "coinbasevalue"
      auxTarget := ← a.valueString "target" [] }
  | none => some bt

/-- `parseTemplate`. Both `nullopt` and an exception are `none`: neither leaves
a trace. -/
def parseTemplate (gbt : Json) : Option BlockTemplate := do
  let r ← gbt.objectAt? "result".toList
  let commitment ← r.valueString "default_witness_commitment" []
  let _target ← r.valueString "target" []
  let reserved ← r.valueString "reserved" []
  let roots := r.objectAt? "defaultroots".toList
  let cb := r.objectAt? "coinbasetxn".toList
  let (minerFundValue, minerFundAddress) ← parseMinerFund cb
  let (stakingRewardsValue, stakingRewardsScript) ← parseStakingRewards cb
  let rtt ← match r.objectAt? "rtt".toList with
    | some rtt => parseRtt rtt
    | none => some none
  let txs ← ((r.arrayAt? "transactions".toList).getD []).mapM parseTx
  let bt : BlockTemplate :=
    { version := ← r.valueInt32 "version"
      previousblockhash := ← r.valueString "previousblockhash" []
      coinbasevalue := ← r.valueInt64 "coinbasevalue"
      mintime := ← r.valueUInt32 "mintime"
      curtime := ← r.valueUInt32 "curtime"
      bits := ← r.valueString "bits" []
      height := ← r.valueInt32 "height"
      defaultWitnessCommitment := commitment
      reserved := ← match roots with
        | some d => d.valueString "blockcommitmentshash" []
        | none => some reserved
      zcashMerkleRoot := ← match roots with
        | some d => d.valueString "merkleroot" []
        | none => some []
      zcashCoinbaseData := ← match cb with
        | some cb => cb.valueString "data" []
        | none => some []
      segwitActive := !commitment.isEmpty
      transactions := txs.filter fun tx => !tx.txidLe.isEmpty
      minerFundAddress, minerFundValue, stakingRewardsScript, stakingRewardsValue
      rttPresent := rtt.isSome
      rttPrevheadertime := (rtt.map Prod.fst).getD []
      rttPrevbits := (rtt.map Prod.snd).getD 0
      mweb := ← r.valueString "mweb" [] }
  parseAux r bt

/-! ## From template to job -/

/-- The fixed-length commitment each session writes its own over. -/
def auxPlaceholder (bt : BlockTemplate) : Str :=
  if bt.auxEnabled && !bt.auxPrevhash.isEmpty then
    "fabe6d6d".toList ++ List.replicate 64 '0' ++ "01000000".toList ++ "00000000".toList
  else []

/-- The shared half of the coinbase, up to the extranonce. -/
def buildCoinbase1 (cc : CoinConfig) (bt : BlockTemplate) : Option Str := do
  let en2 := if cc.chain = .zcash then 4 else 8
  let heightPush ← encodeBip34Height bt.height
  let sigPush ←
    if cc.coinbaseSignature.isEmpty then some [] else encodePushAscii cc.coinbaseSignature
  let auxCommit := auxPlaceholder bt
  let scriptSigLen :=
    heightPush.length / 2 + sigPush.length / 2 + 4 + en2 + auxCommit.length / 2
  if 0xfc < scriptSigLen then none
  else if cc.chain = .zcash then return bt.zcashCoinbaseData
  else
    return leHexU32 1 ++ "01".toList ++ List.replicate 64 '0' ++ "ffffffff".toList
      ++ hex2 scriptSigLen ++ heightPush ++ sigPush ++ auxCommit

/-- The job before its id and its clean flag are known. -/
def draftJob (cc : CoinConfig) (H : Hashes) (bt : BlockTemplate) : Option MiningJob := do
  if cc.donationAddress.isEmpty then none
  else
    let coinbase1 ← buildCoinbase1 cc bt
    let branch ← Merkle.buildBranchLeHex H (bt.transactions.map (·.txidLe))
    return {
      previousblockhash := bt.previousblockhash
      coinbase1 := coinbase1
      merkleBranchLe := branch
      version := UInt32.ofNat (bt.version % 2 ^ 32).toNat
      bits := bt.bits
      curtime := bt.curtime
      mintime := bt.mintime
      coinbaseValue := bt.coinbasevalue
      totalFees := (bt.transactions.map (·.fee)).sum
      height := bt.height
      witnessCommitment := bt.defaultWitnessCommitment
      reserved := bt.reserved
      segwitActive := bt.segwitActive
      donationPercent := cc.donationPercent
      donationAddress := cc.donationAddress
      minerFundAddress := bt.minerFundAddress
      minerFundValue := bt.minerFundValue
      stakingRewardsScript := bt.stakingRewardsScript
      stakingRewardsValue := bt.stakingRewardsValue
      rttPresent := bt.rttPresent
      rttPrevheadertime := bt.rttPrevheadertime
      rttPrevbits := bt.rttPrevbits
      auxEnabled := bt.auxEnabled
      auxVersion := bt.auxVersion
      auxPrevhash := bt.auxPrevhash
      auxBits := bt.auxBits
      auxCurtime := bt.auxCurtime
      auxHeight := bt.auxHeight
      auxCoinbasevalue := bt.auxCoinbasevalue
      auxTarget := bt.auxTarget
      mweb := bt.mweb
      txHexes := bt.transactions.map (·.data)
      zcashFullCoinbaseHex := if cc.chain = .zcash then bt.zcashCoinbaseData else []
      zcashMerkleRootLe := if cc.chain = .zcash then byteReverseHex bt.zcashMerkleRoot else [] }

/-- The published job: the draft with its id, its clean flag and the notify
text made from them. -/
def publishJob (draft : MiningJob) (jobId : Str) (clean : Bool) : MiningJob :=
  { draft with
    jobId := jobId
    cleanJobs := clean
    notifyPrefix :=
      { jobId := jobId
        prevhash := ClientSession.prevhashStratum draft.previousblockhash
        coinbase1 := draft.coinbase1 }
    notifySuffix :=
      { merkleBranch := draft.merkleBranchLe
        version := hexPadded 8 draft.version.toNat
        bits := draft.bits
        curtime := hexPadded 8 draft.curtime.toNat
        clean := clean }
    notifyZcash :=
      ClientSession.zcashNotifyOf { draft with jobId := jobId, cleanJobs := clean }
        draft.zcashMerkleRootLe }

/-- `updateWork`. -/
def updateWork (cc : CoinConfig) (H : Hashes) (gbt : Json) : Act Unit := do
  match (parseTemplate gbt).bind (draftJob cc H) with
  | none => return ()
  | some draft =>
    let jobId ← ask (.newJobId (cc.chain = .zcash))
    let clean ← ask (.swapPrevhash draft.previousblockhash)
    if clean then
      ask .clearShares
      ask .resetBestShare
    let job := publishJob draft jobId clean
    ask (.pushJob job)
    ask (.callbacks job)

/-! ## The shared state -/

structure StratState where
  jobs : JobWindow
  lastPrevhash : Str := []
  seenShares : Finset Str := ∅
  bestShareRound : ℚ := 0

/-- The duplicate table with room made when it is past its cap. -/
def shareRoom (seen : Finset Str) : Finset Str := if 1000000 < seen.card then ∅ else seen

/-- What a call does to the shared state, and how it may be answered. A call
that is not the stratifier's leaves the state and is answered anyhow. -/
def StratStep : (c : Call) → StratState → Answer c → StratState → Prop
  | .latestJob, st, x, st' => x = st.jobs.latest ∧ st' = st
  | .findJob id, st, x, st' => x = st.jobs.find id ∧ st' = st
  | .findJobU32 id, st, x, st' => x = st.jobs.findU32 id ∧ st' = st
  | .currentPrevhash, st, x, st' => x = st.lastPrevhash ∧ st' = st
  | .registerShare fp, st, x, st' =>
    x = decide (fp ∉ shareRoom st.seenShares) ∧
      st' = { st with seenShares := insert fp (shareRoom st.seenShares) }
  | .noteShareDiff d, st, _, st' =>
    st' = { st with bestShareRound := if 0 < d then max d st.bestShareRound
                                      else st.bestShareRound }
  | .newJobId width32, st, x, st' =>
    (if width32 then ∃ v : UInt32, x = intToHex v 8 else ∃ v : UInt64, x = leHexU64 v) ∧
      st' = st
  | .swapPrevhash p, st, x, st' =>
    x = decide (p ≠ st.lastPrevhash) ∧ st' = { st with lastPrevhash := p }
  | .clearShares, st, _, st' => st' = { st with seenShares := ∅ }
  | .resetBestShare, st, _, st' => st' = { st with bestShareRound := 0 }
  | .pushJob job, st, _, st' => st' = { st with jobs := st.jobs.push job.jobId job }
  | _, st, _, st' => st' = st

end MkPool.Stratifier
