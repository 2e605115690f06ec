import MkPool.Submit

/-! # The Stratum V2 handlers of a session

`emit_job_v2` and the handlers behind `process_message_v2`. Emission and
validation build their coinbases apart, as the source does. -/
namespace MkPool.StratumV2
open MkPool.Lib MkPool.Lib.Interaction MkPool.Utils MkPool.Config MkPool.Job MkPool.Coinbase
open MkPool.Sv2Messages MkPool.Calls MkPool.ClientSession

/-- `send_v2_message`. -/
def sendV2 (s : Session) (msg : Reply) : Act Unit :=
  if s.closed then return () else ask (.sendV2 msg)

/-- The extranonce2 slot of a standard channel. -/
def zeroExtranonce2 : Str := "0000000000000000".toList

/-- `eb_job`: the job of an empty block, without fees and commitment. -/
def emptyBlockJob (job : MiningJob) : MiningJob :=
  { job with
    coinbaseValue := job.coinbaseValue - job.totalFees
    segwitActive := false
    witnessCommitment := [] }

/-- `stoul(job_id.substr(0, 8), nullptr, 16)`, 0 where it throws. -/
def emitIdU32 (jobId : Str) : UInt32 :=
  if jobId.length < 8 then 0 else ((stoul16 (jobId.take 8)).map UInt64.toUInt32).getD 0

/-! ## Emission -/

/-- The hash in a byte string of 32 bytes, else the zeroed array. -/
def hashOrZero (b : Bytes) : Hash256 := if h : b.length = 32 then ⟨b, h⟩ else .zero

/-- `merkle_path`: the branch elements of 32 bytes. -/
def merklePathOf (branch : List Str) : Option (List Hash256) := do
  let bs ← branch.mapM hexToBytes
  return bs.filterMap fun b => if h : b.length = 32 then some ⟨b, h⟩ else none

def newExtendedMiningJob (env : Env) (s : Session) (job : MiningJob) :
    Option NewExtendedMiningJob := do
  let merklePath ← merklePathOf job.merkleBranchLe
  let coinbaseTxPrefix ← hexToBytes job.coinbase1
  let coinbaseTxSuffix ← hexToBytes (buildSessionCoinbase2 env job s.workerScriptHex)
  return { channelId := s.sv2ChannelId, jobId := emitIdU32 job.jobId, minNtime := none,
           version := job.version, versionRollingAllowed := true,
           merklePath, coinbaseTxPrefix, coinbaseTxSuffix }

/-- `merkle_root_le` of the standard branch of `emit_job_v2`. -/
def emittedRoot (env : Env) (s : Session) (job : MiningJob) : Option Str :=
  if env.coin.stratumV2EmptyBlocks then
    let cb2Eb := buildSessionCoinbase2 env (emptyBlockJob job) s.workerScriptHex
    computeCoinbaseTxidLe env.hashes
      (rebuildCoinbase job.coinbase1 cb2Eb (s.extranonce1 ++ zeroExtranonce2))
  else do
    let cb2 := buildSessionCoinbase2 env job s.workerScriptHex
    let cbTxidLe ← computeCoinbaseTxidLe env.hashes
      (rebuildCoinbase job.coinbase1 cb2 (s.extranonce1 ++ zeroExtranonce2))
    Merkle.computeRootLeHex env.hashes cbTxidLe job.merkleBranchLe

def newMiningJob (env : Env) (s : Session) (job : MiningJob) : Option NewMiningJob := do
  let mrBytes ← hexToBytes (← emittedRoot env s job)
  return { channelId := s.sv2ChannelId, jobId := emitIdU32 job.jobId, minNtime := none,
           version := job.version, merkleRoot := hashOrZero mrBytes }

/-- The big-endian value of four bytes of hex, 0 for anything else. -/
def nbitsOf (bits : Str) : UInt32 :=
  match hexToBytes bits with
  | some [b0, b1, b2, b3] => UInt32.ofNat (beValue [b0, b1, b2, b3])
  | _ => 0

def emitJobV2 (env : Env) (s : Session) (job : MiningJob) : Act Outcome := do
  let work : Option Reply :=
    if s.isExtendedChannel then (newExtendedMiningJob env s job).map .newExtendedMiningJob
    else (newMiningJob env s job).map .newMiningJob
  match work with
  | none => return .threw s
  | some msg =>
    sendV2 s msg
    match hexToBytes (byteReverseHex job.previousblockhash) with
    | none => return .threw s
    | some phBytes =>
      sendV2 s (.setNewPrevHash
        { channelId := s.sv2ChannelId, jobId := emitIdU32 job.jobId,
          prevHash := hashOrZero phBytes, minNtime := job.mintime, nbits := nbitsOf job.bits })
      return .done s

def emitLatestV2 (env : Env) (s : Session) : Act Outcome := do
  match ← ask .latestJob with
  | some j => emitJobV2 env s j
  | none => return .done s

/-- `diff_to_target_bytes`, little-endian. -/
def diffToTargetBytes (diff : ℚ) : Bytes :=
  let maxTarget : ℚ := 0xFFFF * 2 ^ 208
  Wire.leBytes 32 ⌊if 0 < diff then maxTarget / diff else maxTarget⌋.toNat

def sendSetTarget (s : Session) (d : ℚ) (oldDiff : ℚ) : Act Outcome := do
  let now ← ask .steadyNow
  let s := s.advertised oldDiff now
  sendV2 s (.setTarget s.sv2ChannelId (diffToTargetBytes d))
  return .done s

/-! ## Opening channels -/

/-- The identity both open handlers write before they look at the address. -/
def withIdentity (s : Session) (userIdentity : Str) : Session :=
  let (addr, worker) := Stratum.splitWorker userIdentity "default".toList
  { s with workerAddress := addr, workerName := worker }

/-- `channel_id` drawn at random. -/
def channelIdOf (r : Nat) : UInt32 := UInt32.ofNat (1000 + r % 10000)

/-- What a standard open installs once the address was decoded. -/
def openedStandard (env : Env) (s : Session) (decoded : Address.Decoded) (r : Nat) : Session :=
  { s with
    workerScriptHex := Address.scriptPubkeyHex decoded
    sv2ChannelId := channelIdOf r
    lastDifficulty := env.coin.activeTier.startingDifficulty }

/-- The end of both opens: the miner's row, the latest job, the node's check. -/
def finishOpen (env : Env) (s : Session) : Act Outcome := do
  let minerId ← ask (.ensureMiner s.workerAddress s.workerName)
  thenDo (emitLatestV2 env (s.withMinerId minerId)) fun s => do
    ask (.validateAddress (.payoutV2 s.workerAddress))
    return .done s

def handleOpenStandard (env : Env) (s : Session) (msg : OpenStandardMiningChannel) :
    Act Outcome := do
  let s := withIdentity s msg.userIdentity
  match env.decode s.workerAddress with
  | .error _ =>
    sendV2 s (.openMiningChannelError msg.requestId "invalid-username-or-address".toList)
    return .done s
  | .ok decoded =>
    let r ← ask .rand
    let s := openedStandard env s decoded r
    sendV2 s (.openStandardSuccess
      { requestId := msg.requestId, channelId := s.sv2ChannelId,
        target := diffToTargetBytes env.coin.activeTier.startingDifficulty,
        extranoncePrefix := [1, 2, 3, 4], groupChannelId := 0 })
    finishOpen env s

/-- The initial difficulty of an extended channel, from the declared hashrate
where retargeting is on. -/
def extendedInitialDiff (env : Env) (msg : OpenExtendedMiningChannel) : ℚ :=
  let tier := env.coin.activeTier
  if tier.vardiffEnabled ∧ 0 < msg.nominalHashRate ∧ 0 < env.coin.targetSharesPerMinute then
    clamp (msg.nominalHashRate / (4294967296 * (env.coin.targetSharesPerMinute / 60)))
      tier.vardiffMin tier.vardiffMax
  else tier.startingDifficulty

/-- `std::max<uint16_t>(msg.min_extranonce_size, 8)`. -/
def extranonceSizeOf (msg : OpenExtendedMiningChannel) : UInt16 := max msg.minExtranonceSize 8

/-- What an extended open installs once the address was decoded. -/
def openedExtended (env : Env) (s : Session) (msg : OpenExtendedMiningChannel)
    (decoded : Address.Decoded) (r : Nat) : Session :=
  { s with
    workerScriptHex := Address.scriptPubkeyHex decoded
    sv2ChannelId := channelIdOf r
    isExtendedChannel := true
    lastDifficulty := extendedInitialDiff env msg
    vardiff := s.vardiff.setCurrent (extendedInitialDiff env msg)
    extranonce2Size := (extranonceSizeOf msg).toNat }

/-- `subscribed_ = authorized_ = true`. -/
def setUp (s : Session) : Session := { s with subscribed := true, authorized := true }

def handleOpenExtended (env : Env) (s : Session) (msg : OpenExtendedMiningChannel) :
    Act Outcome := do
  let s := withIdentity s msg.userIdentity
  match env.decode s.workerAddress with
  | .error _ =>
    sendV2 s (.openMiningChannelError msg.requestId "invalid-username-or-address".toList)
    return .done s
  | .ok decoded =>
    let r ← ask .rand
    let s := openedExtended env s msg decoded r
    match hexToBytes s.extranonce1 with
    | none => return .threw s
    | some extranoncePrefix =>
      sendV2 s (.openExtendedSuccess
        { requestId := msg.requestId, channelId := s.sv2ChannelId,
          target := diffToTargetBytes (extendedInitialDiff env msg),
          extranonceSize := extranonceSizeOf msg, extranoncePrefix, groupChannelId := 0 })
      finishOpen env (setUp s)

/-! ## Shares -/

/-- `reject_v2`. -/
def rejectV2 (s : Session) (sequenceNumber : UInt32) (errCode : String) : Act Outcome := do
  sendV2 s (.submitSharesError s.sv2ChannelId sequenceNumber errCode.toList)
  return .done s.countReject

/-- A Stratum V2 share with everything that was rebuilt for it. A share of a
custom job has no pool job. -/
structure ShareV2 where
  job : Option MiningJob
  headerHex : Str
  cbHex : Str
  hash : Hash256
  netTarget : Hash256

def ShareV2.meetsNetwork (sh : ShareV2) : Bool := byteLe sh.hash.bytes sh.netTarget.bytes

def ShareV2.hashHex (sh : ShareV2) : Str := bytesToHex sh.hash.bytes

def ShareV2.diff (env : Env) (sh : ShareV2) : ℚ := difficultyOf env.coin.chain sh.hash

/-- The hash and the target of a rebuilt header. -/
def hashShare (env : Env) (job : Option MiningJob) (headerHex cbHex bitsHex : Str) :
    Option ShareV2 := do
  let headerBytes ← hexToBytes headerHex
  let netTarget ← targetFromBitsHex (match job with
    | some j => j.bits
    | none => bitsHex)
  return { job, headerHex, cbHex, netTarget, hash := headerHash env headerBytes }

/-- The share of a custom job. -/
def rebuildCustom (env : Env) (cj : CustomJob) (msg : SubmitSharesStandard) : Option ShareV2 := do
  let cbHex := leHexU32 cj.coinbaseTxVersion ++ "01".toList ++ List.replicate 64 '0'
    ++ "ffffffff".toList ++ hex2 cj.coinbasePrefix.length ++ bytesToHex cj.coinbasePrefix
    ++ leHexU32 cj.coinbaseTxInputNSequence ++ bytesToHex cj.coinbaseOutputs
    ++ leHexU32 cj.coinbaseTxLocktime
  let merkleRootLe ← computeCoinbaseTxidLe env.hashes cbHex
  let bitsHex := intToHex cj.nbits 8
  hashShare env none
    (buildBlockHeader (leHexU32 msg.version) (bytesToHex cj.prevHash.bytes) merkleRootLe
      (leHexU32 msg.ntime) bitsHex (leHexU32 msg.nonce)) cbHex bitsHex

/-- `cb_hex` of a standard share of a pool job. -/
def standardCoinbase (env : Env) (s : Session) (job : MiningJob) : Str :=
  if env.coin.stratumV2EmptyBlocks then
    rebuildCoinbase job.coinbase1
      (buildSessionCoinbase2 env (emptyBlockJob job) s.workerScriptHex)
      (s.extranonce1 ++ zeroExtranonce2)
  else
    rebuildCoinbase job.coinbase1 (buildSessionCoinbase2 env job s.workerScriptHex)
      (s.extranonce1 ++ zeroExtranonce2)

/-- The share of a pool job on a standard channel. -/
def rebuildStandard (env : Env) (s : Session) (job : MiningJob) (msg : SubmitSharesStandard) :
    Option ShareV2 := do
  let cbHex := standardCoinbase env s job
  let cbTxidLe ← computeCoinbaseTxidLe env.hashes cbHex
  let merkleRootLe ←
    if env.coin.stratumV2EmptyBlocks then some cbTxidLe
    else Merkle.computeRootLeHex env.hashes cbTxidLe job.merkleBranchLe
  let bitsHex := byteReverseHex job.bits
  hashShare env (some job)
    (buildBlockHeader (leHexU32 msg.version) (byteReverseHex job.previousblockhash) merkleRootLe
      (leHexU32 msg.ntime) bitsHex (leHexU32 msg.nonce)) cbHex bitsHex

/-- The share of a pool job on an extended channel. -/
def rebuildExtended (env : Env) (s : Session) (job : MiningJob) (msg : SubmitSharesExtended) :
    Option ShareV2 := do
  let cbHex := rebuildCoinbase job.coinbase1 (buildSessionCoinbase2 env job s.workerScriptHex)
    (s.extranonce1 ++ bytesToHex msg.extranonce)
  let cbTxidLe ← computeCoinbaseTxidLe env.hashes cbHex
  let merkleRootLe ← Merkle.computeRootLeHex env.hashes cbTxidLe job.merkleBranchLe
  let bitsHex := byteReverseHex job.bits
  hashShare env (some job)
    (buildBlockHeader (leHexU32 msg.version) (byteReverseHex job.previousblockhash) merkleRootLe
      (leHexU32 msg.ntime) bitsHex (leHexU32 msg.nonce)) cbHex bitsHex

/-- The job a share names: the latest one by its emitted id, else by the
window's. -/
def findShareJob (jobId : UInt32) : Act (Option MiningJob) := do
  match ← ask .latestJob with
  | some j => if emitIdU32 j.jobId = jobId then return some j else ask (.findJobU32 jobId)
  | none => ask (.findJobU32 jobId)

/-- The block text of a Stratum V2 share. -/
def sv2Block (sh : ShareV2) (emptyBlock : Bool) : Str :=
  match sh.job with
  | none => assembleFullBlock sh.headerHex sh.cbHex []
  | some job =>
    (if emptyBlock then assembleFullBlock sh.headerHex sh.cbHex []
     else
      assembleFullBlock sh.headerHex
        (if job.segwitActive then segwitifyCoinbase sh.cbHex else sh.cbHex) job.txHexes)
      ++ (if job.mweb.isEmpty then [] else "01".toList ++ job.mweb)

/-- The eCash guard, for a share of a pool job. -/
def rttAllowsV2 (env : Env) (sh : ShareV2) : Act Bool :=
  match sh.job with
  | some job => Submit.rttAllows env job sh.hash
  | none => return true

def submitBlockSv2 (env : Env) (s : Session) (sh : ShareV2) (emptyBlock : Bool) : Act Unit := do
  if ← rttAllowsV2 env sh then
    ask (.submitBlock { block := sv2Block sh emptyBlock, hash := sh.hash, minerId := s.minerId })
  else ask (.withholdBlock sh.hash)

/-- `if (meets_network && register_share(…)) submit_block_sv2(…)`. -/
def submitAtFirstSight (env : Env) (s : Session) (path : SharePath) (sh : ShareV2)
    (emptyBlock : Bool) : Act Unit := do
  ask (.scored path sh.hash sh.job sh.meetsNetwork)
  whenDo sh.meetsNetwork do
    let first ← ask (.registerShare sh.hashHex)
    whenDo first (submitBlockSv2 env s sh emptyBlock)

/-- The difficulty a share is held to, with a grace window after a retarget:
its seconds and its tolerance differ between the two handlers. -/
def graceTargetV2 (s : Session) (shareDiff seconds tolerance : ℚ) : Act ℚ := do
  if shareDiff < s.vardiff.current then
    let now ← ask .steadyNow
    if now - s.lastDifficultyChangeTs < seconds ∧ s.lastDifficulty * tolerance ≤ shareDiff then
      return s.lastDifficulty
    else return s.vardiff.current
  else return s.vardiff.current

/-- The retarget after an accepted share, sent as `SetTarget`. -/
def vardiffTickV2 (env : Env) (s : Session) (targetDiff networkDiff : ℚ) : Act Outcome := do
  let oldDiff := s.vardiff.current
  let now ← ask .steadyNow
  let r := s.vardiff.onShare env.exp now targetDiff networkDiff
  match r.2 with
  | some nd => sendSetTarget (s.withVardiff r.1) nd oldDiff
  | none => return .done (s.withVardiff r.1)

def shareRecordV2 (s : Session) (jobId nonce : UInt32) (extranonce2 : Str) (sh : ShareV2)
    (targetDiff : ℚ) : ShareRecord where
  minerId := s.minerId
  jobId := (toString jobId.toNat).toList
  nonce := leHexU32 nonce
  extranonce1 := s.extranonce1
  extranonce2 := extranonce2
  shareHash := sh.hashHex
  difficulty := targetDiff
  blockFound := sh.meetsNetwork

/-- A standard share, once it was rebuilt. -/
def scoreStandard (env : Env) (s : Session) (msg : SubmitSharesStandard) (sh : ShareV2) :
    Act Outcome := do
  submitAtFirstSight env s .v2Standard sh env.coin.stratumV2EmptyBlocks
  let targetDiff ← graceTargetV2 s (sh.diff env) 40 (99 / 100)
  if sh.diff env < targetDiff * (99 / 100) then
    rejectV2 s msg.sequenceNumber "difficulty-too-low"
  else
    sendV2 s (.submitSharesSuccess s.sv2ChannelId msg.sequenceNumber 1 1)
    let s ← acceptShare s .v2Standard sh.hash sh.job msg.ntime (sh.diff env)
    let tick :=
      if env.coin.activeTier.vardiffEnabled then vardiffTickV2 env s targetDiff 0
      else return .done s
    thenDo tick fun s => do
      persistShare s (shareRecordV2 s msg.jobId msg.nonce zeroExtranonce2 sh targetDiff)
      return .done s

def handleSubmitSharesV2 (env : Env) (s : Session) (msg : SubmitSharesStandard) :
    Act Outcome := do
  match s.sv2CustomJobs.lookup msg.jobId with
  | some cj =>
    match rebuildCustom env cj msg with
    | none => return .threw s
    | some sh => scoreStandard env s msg sh
  | none =>
    match ← findShareJob msg.jobId with
    | none => rejectV2 s msg.sequenceNumber "stale-share"
    | some job =>
      match rebuildStandard env s job msg with
      | none => return .threw s
      | some sh => scoreStandard env s msg sh

/-- An extended share, once it was rebuilt. -/
def scoreExtended (env : Env) (s : Session) (msg : SubmitSharesExtended) (job : MiningJob)
    (sh : ShareV2) : Act Outcome := do
  submitAtFirstSight env s .v2Extended sh false
  let targetDiff ← graceTargetV2 s (sh.diff env) 15 1
  if sh.diff env < targetDiff then rejectV2 s msg.sequenceNumber "difficulty-too-low"
  else
    let now ← ask .nowUnix
    if !validNtime msg.ntime job.mintime now then
      rejectV2 s msg.sequenceNumber "time-too-old-or-new"
    else
      sendV2 s (.submitSharesSuccess s.sv2ChannelId msg.sequenceNumber 1 1)
      let s ← acceptShare s .v2Extended sh.hash sh.job msg.ntime (sh.diff env)
      let tick :=
        if env.coin.activeTier.vardiffEnabled && !s.hasCustomDifficulty then
          vardiffTickV2 env s targetDiff (difficultyOf env.coin.chain sh.netTarget)
        else return .done s
      thenDo tick fun s => do
        persistShare s
          (shareRecordV2 s msg.jobId msg.nonce (bytesToHex msg.extranonce) sh targetDiff)
        return .done s

def handleSubmitSharesExtendedV2 (env : Env) (s : Session) (msg : SubmitSharesExtended) :
    Act Outcome := do
  if s.closed then return .done s
  else
    match ← findShareJob msg.jobId with
    | none => rejectV2 s msg.sequenceNumber "stale-share"
    | some job =>
      match rebuildExtended env s job msg with
      | none => return .threw s
      | some sh => scoreExtended env s msg job sh

/-! ## Custom jobs -/

def withCustomJob (s : Session) (jobId : UInt32) (cj : CustomJob) : Session :=
  { s with
    sv2CustomJobIdCounter := jobId
    sv2CustomJobs := s.sv2CustomJobs.insert jobId cj }

def handleSetCustomMiningJobV2 (env : Env) (s : Session) (msg : SetCustomMiningJob) :
    Act Outcome := do
  let fail (code : String) : Act Outcome := do
    sendV2 s (.setCustomMiningJobError s.sv2ChannelId msg.requestId code.toList)
    return .done s
  let donationScript :=
    if 0 < env.coin.donationPercent ∧ ¬ env.coin.donationAddress.isEmpty then
      (Address.decodeToScriptHex env.decode env.coin.donationAddress).getD []
    else []
  if !msg.merklePath.isEmpty then fail "invalid-merkle-path-not-empty"
  else if !donationScript.isEmpty
      && (Stratum.findSub (bytesToHex msg.coinbaseTxOutputs) donationScript).isNone then
    fail "invalid-coinbase-outputs-no-donation"
  else
    let jobId := s.sv2CustomJobIdCounter + 1
    let cj : CustomJob :=
      { version := msg.version, prevHash := msg.prevHash, coinbasePrefix := msg.coinbasePrefix,
        coinbaseOutputs := msg.coinbaseTxOutputs, coinbaseTxVersion := msg.coinbaseTxVersion,
        coinbaseTxInputNSequence := msg.coinbaseTxInputNSequence,
        coinbaseTxLocktime := msg.coinbaseTxLocktime, nbits := msg.nbits }
    let s := withCustomJob s jobId cj
    sendV2 s (.setCustomMiningJobSuccess s.sv2ChannelId msg.requestId jobId)
    return .done s

/-! ## Dispatch -/

def handleSetupConnection (s : Session) (protocol : UInt8) : Act Outcome := do
  if protocol ≠ 0 ∧ protocol ≠ 2 then
    sendV2 s (.setupConnectionError "unsupported-protocol".toList 0)
    return .done s
  else
    sendV2 s (.setupConnectionSuccess 2 0)
    return .done (setUp s)

def processMessageV2 (env : Env) (s : Session) : Request → Act Outcome
  | .setupConnection protocol => handleSetupConnection s protocol
  | .openStandardMiningChannel msg => handleOpenStandard env s msg
  | .openExtendedMiningChannel msg => handleOpenExtended env s msg
  | .updateChannel _ => return .done s
  | .submitSharesStandard msg => handleSubmitSharesV2 env s msg
  | .submitSharesExtended msg => handleSubmitSharesExtendedV2 env s msg
  | .setCustomMiningJob msg => handleSetCustomMiningJobV2 env s msg
  | .closeChannel _ _ => return .done s
  | .unknown _ => return .done s

/-- The callback of `validate_payout_async`, on the strand. -/
def onPayoutV2Validated (s : Session) (error valid : Bool) : Act Outcome :=
  if s.closed then return .done s
  else if error || !valid then return .done s.disconnect
  else return .done s

end MkPool.StratumV2
