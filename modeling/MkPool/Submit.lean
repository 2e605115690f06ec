import MkPool.Stratum

/-! # `mining.submit`: from the request to credit, rejection or a block

`handle_submit` is cut at its own joints: reading the parameters, finding the
job, rebuilding the header, and the stale, low-difficulty and fresh ends. -/
namespace MkPool.Submit
open MkPool.Lib.Interaction MkPool.Utils MkPool.Config MkPool.Job MkPool.Coinbase
open MkPool.Calls MkPool.ClientSession MkPool.JsonValue MkPool.Vardiff

/-- The parameters of a submit. For Zcash `nonceS` is the full header nonce. -/
structure Submission where
  worker : Str
  jobId : Str
  nonce2 : Str := []
  ntimeS : Str
  nonceS : Str
  solutionS : Str := []
  versionBits : Option UInt32 := none

/-! ## Reading the request -/

/-- `[worker, job_id, ntime, nonce2, solution]`. -/
def parseSubmitZcash (s : Session) (p : List Json) : Except Str Submission :=
  match (p.take 5).mapM Json.getString? with
  | some [worker, jobId, ntimeS, nonceS, solutionS] =>
    if !validHex ntimeS || ntimeS.length ≠ 8 then .error "invalid time hex".toList
    else if !validHex nonceS then .error "invalid nonce hex".toList
    else
      let fullNonce := s.extranonce1 ++ nonceS
      let fullNonce := fullNonce ++ List.replicate (64 - fullNonce.length) '0'
      if fullNonce.length ≠ 64 then .error "bad Zcash nonce size".toList
      else if !validHex solutionS then .error "bad Zcash solution hex".toList
      else
        let solutionS := if solutionS.length = 2694 then solutionS.drop 6 else solutionS
        if solutionS.length ≠ 2688 then .error "bad Zcash solution size".toList
        else .ok { worker, jobId, ntimeS, nonceS := fullNonce, solutionS }
  | _ => .error "bad params types".toList

/-- `[worker, job_id, extranonce2, ntime, nonce, (version_bits)]`. -/
def parseSubmitBitcoin (s : Session) (p : List Json) : Except Str Submission :=
  match (p.take 5).mapM Json.getString? with
  | some [worker, jobId, nonce2, ntimeS, nonceS] =>
    let versionBits := (p[5]?.bind Json.getString?).bind parseHexU32
    if !validHex nonce2 || !validHex ntimeS || !validHex nonceS || ntimeS.length ≠ 8 then
      .error "invalid hex".toList
    else if nonceS.length ≠ 8 then .error "bad nonce size".toList
    else if nonce2.length ≠ s.extranonce2Size * 2 then .error "bad extranonce2 size".toList
    else .ok { worker, jobId, nonce2, ntimeS, nonceS, versionBits }
  | _ => .error "bad params types".toList

def parseSubmit (env : Env) (s : Session) (msg : Json) : Except Str Submission :=
  match msg.arrayAt? "params".toList with
  | some p =>
    if p.length < 5 then .error "bad params".toList
    else if env.coin.chain = .zcash then parseSubmitZcash s p
    else parseSubmitBitcoin s p
  | none => .error "bad params".toList

/-- The lambda `reject`. -/
def reject (s : Session) (idJson reason : Str) (code : Nat := 20) : Act Outcome := do
  ask (.send (.reject idJson code reason))
  let ban ← ask .recordInvalidShare
  return .done (if ban then s.countReject.disconnect else s.countReject)

/-! ## Rebuilding the header -/

/-- `active_coinbase1`: the job's coinbase1 with the commitment kept for it. -/
def activeCoinbase1 (s : Session) (job : MiningJob) (jobId : Str) : Str :=
  if s.auxDogeAddress.isEmpty then job.coinbase1
  else
    match s.sessionAuxJobs.lookup jobId with
    | some saj => spliceCommit job.coinbase1 saj.auxCommit
    | none => job.coinbase1

/-- `cb_hex` of the Bitcoin-family branch. -/
def sessionCoinbase (env : Env) (s : Session) (job : MiningJob) (jobId nonce2 : Str) : Str :=
  rebuildCoinbase (activeCoinbase1 s job jobId) (buildSessionCoinbase2 env job s.workerScriptHex)
    (s.extranonce1 ++ nonce2)

/-- `cb_hex` and `merkle_root_le`. -/
def coinbaseAndRoot (env : Env) (s : Session) (job : MiningJob) (sub : Submission) :
    Option (Str × Str) := do
  if env.coin.chain = .zcash then
    match s.zcashJobs.lookup sub.jobId with
    | some zj => return (zj.coinbaseHex, zj.merkleRootLe)
    | none => return (job.zcashFullCoinbaseHex, job.zcashMerkleRootLe)
  else
    let cbHex := sessionCoinbase env s job sub.jobId sub.nonce2
    let cbTxidLe ← computeCoinbaseTxidLe env.hashes cbHex
    let root ← Merkle.computeRootLeHex env.hashes cbTxidLe job.merkleBranchLe
    return (cbHex, root)

/-- The header text. `ntimeS` is in the order `parse_hex_u32` read. -/
def submitHeader (env : Env) (job : MiningJob) (version : UInt32) (root ntimeS nonceS : Str) :
    Str :=
  if env.coin.chain = .zcash then
    let resHex := if job.reserved.isEmpty then List.replicate 64 '0' else job.reserved
    leHexU32 version ++ byteReverseHex job.previousblockhash ++ root ++ byteReverseHex resHex
      ++ byteReverseHex ntimeS ++ byteReverseHex job.bits ++ nonceS
  else
    buildBlockHeader (leHexU32 version) (byteReverseHex job.previousblockhash) root
      (byteReverseHex ntimeS) (byteReverseHex job.bits) (byteReverseHex nonceS)

/-- A share with everything that was rebuilt for it. -/
structure Share where
  sub : Submission
  job : MiningJob
  ntime : UInt32
  headerHex : Str
  cbHex : Str
  hash : Hash256
  netTarget : Hash256

/-- `meets_network`. -/
def Share.meetsNetwork (sh : Share) : Bool := byteLe sh.hash.bytes sh.netTarget.bytes

/-- `share_hash_hex`. -/
def Share.hashHex (sh : Share) : Str := bytesToHex sh.hash.bytes

/-- `share_diff`. -/
def Share.diff (env : Env) (sh : Share) : ℚ := difficultyOf env.coin.chain sh.hash

/-- How the rebuilding of a share can end. -/
inductive Rebuilt where
  | threw
  | badEquihash
  | share (sh : Share)

def rebuildShare (env : Env) (s : Session) (job : MiningJob) (sub : Submission)
    (ntimeS : Str) (ntime version : UInt32) : Rebuilt :=
  match coinbaseAndRoot env s job sub with
  | none => .threw
  | some (cbHex, root) =>
    let headerHex := submitHeader env job version root ntimeS sub.nonceS
    match hexToBytes headerHex, hexToBytes sub.solutionS, targetFromBitsHex job.bits with
    | some headerBytes, some solution, some netTarget =>
      if env.coin.chain = .zcash then
        if !env.equihashVerify headerBytes solution then .badEquihash
        else
          .share { sub, job, ntime, headerHex, cbHex, netTarget,
                   hash := headerHash env (headerBytes ++ [0xfd, 0x40, 0x05] ++ solution) }
      else
        .share { sub, job, ntime, headerHex, cbHex, netTarget,
                 hash := headerHash env headerBytes }
    | _, _, _ => .threw

/-- The rolled version, or nothing when rolling was not negotiated. -/
def rollVersion (env : Env) (s : Session) (job : MiningJob) (versionBits : Option UInt32) :
    Option UInt32 :=
  let effectiveMask :=
    if s.versionMask = 0 ∧ env.coin.enableVersionRolling then poolVersionMask env
    else s.versionMask
  match versionBits with
  | none => some job.version
  | some bits =>
    if effectiveMask = 0 then none
    else some ((job.version &&& ~~~effectiveMask) ||| (bits &&& effectiveMask))

/-! ## Blocks -/

/-- The block text of a V1 share. -/
def candidateBlock (env : Env) (sh : Share) : Str :=
  let cbForBlock := if sh.job.segwitActive then segwitifyCoinbase sh.cbHex else sh.cbHex
  let fullHeader :=
    if env.coin.chain = .zcash then sh.headerHex ++ "fd4005".toList ++ sh.sub.solutionS
    else sh.headerHex
  assembleFullBlock fullHeader cbForBlock sh.job.txHexes
    ++ (if sh.job.mweb.isEmpty then [] else "01".toList ++ sh.job.mweb)

/-- The eCash guard both block paths start with: may the block go out? -/
def rttAllows (env : Env) (job : MiningJob) (hash : Hash256) : Act Bool := do
  if env.coin.chain = .eCash ∧ job.rttPresent then
    let now ← ask .nowUnix
    return env.ecashRttOk job.rttPrevheadertime job.rttPrevbits now.toNat hash
  else return true

def submitBlockCandidate (env : Env) (s : Session) (sh : Share) : Act Unit := do
  if ← rttAllows env sh.job sh.hash then
    ask (.submitBlock { block := candidateBlock env sh, hash := sh.hash, minerId := s.minerId })
  else ask (.withholdBlock sh.hash)

/-- The Dogecoin block of a share: the aux header, the proof and the coinbase. -/
def dogeBlock (saj : SessionAuxJob) (sh : Share) (parentHash : Str) : Str :=
  let branchHex := hexPadded 2 sh.job.merkleBranchLe.length ++ sh.job.merkleBranchLe.flatten
  let auxpow := sh.cbHex ++ parentHash ++ branchHex ++ "00000000".toList ++ "00".toList
    ++ "00000000".toList ++ sh.headerHex
  saj.dogeHeader ++ auxpow ++ "01".toList ++ saj.dogeCoinbase

/-- The aux work kept for the share's job, where it can be tested. -/
def auxWorkFor (env : Env) (s : Session) (sh : Share) : Option SessionAuxJob :=
  if sh.job.auxEnabled && !s.auxDogeAddress.isEmpty then
    (s.sessionAuxJobs.lookup sh.sub.jobId).filter fun saj =>
      saj.auxTarget.length = 64 && env.hasAux
  else none

/-- `doge_submitted_` with room made for one more. -/
def dogeSubmittedRoom (s : Session) : Finset Str :=
  if 512 < s.dogeSubmitted.card then ∅ else s.dogeSubmitted

def withDogeSubmitted (s : Session) (hash : Str) : Session :=
  { s with dogeSubmitted := insert hash (dogeSubmittedRoom s) }

def maybeSubmitAuxBlock (env : Env) (s : Session) (sh : Share) : Act Outcome := do
  match auxWorkFor env s sh with
  | none => return .done s
  | some saj =>
    match hexToBytes saj.auxTarget, computeCoinbaseTxidLe env.hashes sh.headerHex with
    | some target, some parentHash =>
      if !byteLe sh.hash.bytes target then return .done s
      else if saj.dogeBlockHash ∈ s.dogeSubmitted then return .done s
      else
        ask (.submitAuxBlock
          { block := dogeBlock saj sh parentHash, dogeBlockHash := saj.dogeBlockHash })
        return .done (withDogeSubmitted s saj.dogeBlockHash)
    | _, _ => return .threw s

/-! ## The three ends -/

/-- The block, if there is one, and the aux block of a stale share. -/
def submitStale (env : Env) (s : Session) (sh : Share) : Act Outcome := do
  whenDo sh.meetsNetwork (submitBlockCandidate env s sh)
  maybeSubmitAuxBlock env s sh

/-- A share whose job is of a superseded block: tested, submitted at its first
sighting, and rejected. -/
def staleShare (env : Env) (s : Session) (idJson : Str) (sh : Share) : Act Outcome := do
  ask (.scored .v1Stale sh.hash (some sh.job) sh.meetsNetwork)
  let first ← ask (.registerShare sh.hashHex)
  thenDo (if first then submitStale env s sh else return .done s) fun s => do
    ask (.send (.reject idJson 21 "stale share - job for previous block".toList))
    return .done s.countReject

/-- A share below the session difficulty: a block is submitted all the same. -/
def lowDiffShare (env : Env) (s : Session) (idJson : Str) (sh : Share) : Act Outcome := do
  ask (.scored .v1LowDiff sh.hash (some sh.job) sh.meetsNetwork)
  whenDo sh.meetsNetwork (submitBlockCandidate env s sh)
  reject s idJson "low difficulty share".toList 23

/-- The retarget after an accepted share. -/
def vardiffTick (env : Env) (s : Session) (sh : Share) (targetDiff : ℚ) : Act Outcome := do
  if env.coin.activeTier.vardiffEnabled && !s.hasCustomDifficulty then
    let oldDiff := s.vardiff.current
    let now ← ask .steadyNow
    let r := s.vardiff.onShare env.exp now targetDiff (difficultyOf env.coin.chain sh.netTarget)
    match r.2 with
    | some nd => sendSetDifficulty env (s.withVardiff r.1) nd (some oldDiff)
    | none => return .done (s.withVardiff r.1)
  else return .done s

/-- What is stored of an accepted share. -/
def shareRecord (s : Session) (sh : Share) (targetDiff : ℚ) : ShareRecord where
  minerId := s.minerId
  jobId := sh.sub.jobId
  nonce := sh.sub.nonceS
  extranonce1 := s.extranonce1
  extranonce2 := sh.sub.nonce2
  shareHash := sh.hashHex
  difficulty := targetDiff
  blockFound := sh.meetsNetwork

/-- The end of an accepted share: the row, the aux block and the block. -/
def finishFresh (env : Env) (s : Session) (sh : Share) (targetDiff : ℚ) : Act Outcome := do
  persistShare s (shareRecord s sh targetDiff)
  thenDo (maybeSubmitAuxBlock env s sh) fun s => do
    whenDo sh.meetsNetwork (submitBlockCandidate env s sh)
    return .done s

def freshShare (env : Env) (s : Session) (idJson : Str) (sh : Share) (targetDiff : ℚ) :
    Act Outcome := do
  ask (.scored .v1Fresh sh.hash (some sh.job) sh.meetsNetwork)
  let first ← ask (.registerShare sh.hashHex)
  if !first then
    ask (.send (.reject idJson 22 "duplicate share".toList))
    return .done s.countReject
  else
    ask (.send (.result idJson))
    let s ← acceptShare s .v1Fresh sh.hash (some sh.job) sh.ntime (sh.diff env)
    ask .clearInvalid
    thenDo (vardiffTick env s sh targetDiff) fun s => finishFresh env s sh targetDiff

/-- The tolerance of the V1 difficulty check. -/
def tolerance (env : Env) : ℚ := if env.coin.chain = .zcash then 90 / 100 else 99 / 100

/-- `target_diff`: the current difficulty, or the previous one for a share
that meets it in the grace window. -/
def graceTarget (env : Env) (s : Session) (shareDiff : ℚ) : Act ℚ := do
  if shareDiff < s.vardiff.current then
    let now ← ask .steadyNow
    if now - s.lastDifficultyChangeTs < 40 ∧ s.lastDifficulty * tolerance env ≤ shareDiff then
      return s.lastDifficulty
    else return s.vardiff.current
  else return s.vardiff.current

/-- The difficulty check of a share that is not stale. -/
def scoreShare (env : Env) (s : Session) (idJson : Str) (sh : Share) : Act Outcome := do
  let targetDiff ← graceTarget env s (sh.diff env)
  if sh.diff env < targetDiff * tolerance env then lowDiffShare env s idJson sh
  else freshShare env s idJson sh targetDiff

/-- A submit whose job was found. -/
def submitOnJob (env : Env) (s : Session) (idJson : Str) (sub : Submission) (job : MiningJob) :
    Act Outcome := do
  let curPrev ← ask .currentPrevhash
  let staleByBlock := !curPrev.isEmpty && job.previousblockhash ≠ curPrev
  let ntimeS := if env.coin.chain = .zcash then byteReverseHex sub.ntimeS else sub.ntimeS
  match parseHexU32 ntimeS with
  | none => reject s idJson "bad ntime".toList
  | some ntime =>
    let now ← ask .nowUnix
    if !validNtime ntime job.mintime now then reject s idJson "ntime out of range".toList
    else
      match rollVersion env s job sub.versionBits with
      | none => reject s idJson "version-rolling not negotiated".toList
      | some version =>
        match rebuildShare env s job sub ntimeS ntime version with
        | .threw => return .threw s
        | .badEquihash => reject s idJson "invalid equihash solution".toList
        | .share sh =>
          if staleByBlock then staleShare env s idJson sh else scoreShare env s idJson sh

def handleSubmit (env : Env) (s : Session) (msg : Json) : Act Outcome := do
  let idJson := safeIdJson env.fmtDouble msg
  if !s.authorized then reject s idJson "not authorized".toList 24
  else
    match parseSubmit env s msg with
    | .error reason => reject s idJson reason
    | .ok sub =>
      if Stratum.splitWorker sub.worker ['0'] ≠ (s.workerAddress, s.workerName) then
        reject s idJson "address/worker mismatch".toList
      else
        match ← ask (.findJob sub.jobId) with
        | none => reject s idJson "job not found".toList 21
        | some job => submitOnJob env s idJson sub job

end MkPool.Submit
