import MkPool.UpstreamSource
import MkPool.StratumV2

/-! # `sv2_relay_session.cpp`: an SV2 miner of the proxy

The work of a V1 upstream is translated: the server fixes the extranonce 2 of
each job. What a handler writes goes into `sent`. An exception ends the handler
it is thrown in. -/
namespace MkPool.RelaySession
open MkPool.Lib MkPool.Utils MkPool.Config MkPool.Coinbase MkPool.ClientSession MkPool.StratumV2
open MkPool.Sv2Messages MkPool.UpstreamClient MkPool.UpstreamSource

/-! ## State -/

/-- `JobRec`. Not in the source: `slot` is the slot the job was emitted with. -/
structure JobRec where
  up : ProxyNotify
  fixedEn2Hex : Str
  slot : HeldSlot

/-- A message to the miner. Of a job, what it was built from is not sent. -/
inductive Frame where
  | reply (msg : Reply)
  | newMiningJob (msg : NewMiningJob) (built : JobRec)

/-- `Sv2RelaySession`. `jobs` is in the order of `job_order_`. `sent` are the
messages to the miner, the latest first. -/
structure Session where
  slot : HeldSlot := {}
  attached : Bool := false
  closed : Bool := false
  setupDone : Bool := false
  channelOpen : Bool := false
  channelId : UInt32 := 1
  openRequestId : UInt32 := 0
  targetDiff : ℚ := 1
  jobs : List (UInt32 × JobRec) := []
  nextJobId : UInt32 := 1
  en2Counter : UInt64 := 0
  latestUpJob : Option ProxyNotify := none
  sent : List Frame := []

def Session.send (s : Session) (msg : Reply) : Session := { s with sent := .reply msg :: s.sent }

/-! ## Jobs -/

/-- Byte `i` of `current_fixed_en2`: a shift from the width on is undefined. -/
def counterByte (counter : UInt64) (nbytes i : Nat) : Option UInt8 :=
  let shift := 8 * (nbytes - 1 - i)
  if shift < 64 then some (UInt8.ofNat (counter.toNat / 2 ^ shift % 256)) else none

/-- `current_fixed_en2`. -/
def currentFixedEn2 (s : Session) : Option Str :=
  ((List.range s.slot.en2Size).mapM (counterByte s.en2Counter s.slot.en2Size)).map bytesToHex

/-- The merkle root of a job's coinbase with an extranonce. -/
def rootWith (H : Hashes) (job : ProxyNotify) (fullExtra : Str) : Option Str := do
  let cbTxidLe ← computeCoinbaseTxidLe H (rebuildCoinbase job.coinbase1 job.coinbase2 fullExtra)
  Merkle.computeRootLeHex H cbTxidLe job.merkleBranch

/-- A job is kept under the next id. -/
def withJob (s : Session) (built : JobRec) : Session :=
  let jobs := s.jobs.filter (fun e => e.1 ≠ s.nextJobId) ++ [(s.nextJobId, built)]
  { s with jobs := jobs.drop (jobs.length - 16), nextJobId := s.nextJobId + 1 }

def newMiningJob (s : Session) (job : ProxyNotify) (mroot : Bytes) : NewMiningJob where
  channelId := s.channelId
  jobId := s.nextJobId
  minNtime := none
  version := job.version
  merkleRoot := hashOrZero mroot

/-- The previous hash of a job, where the texts of the upstream are hex. -/
def setNewPrevHash (s : Session) (job : ProxyNotify) : Option SetNewPrevHash := do
  let bits ← hexToBytes job.bits
  let prevhash ← hexToBytes (swapWordsHex job.prevhashStratum)
  return { channelId := s.channelId, jobId := s.nextJobId, prevHash := hashOrZero prevhash
           minNtime := job.mintime
           nbits := match bits with
             | [b0, b1, b2, b3] => UInt32.ofNat (beValue [b0, b1, b2, b3])
             | _ => 0 }

/-- `emit_job`. The texts of the upstream may be no hex. Nothing is returned
where the shift is undefined. -/
def emitJob (env : Env) (s : Session) (job : ProxyNotify) : Option Session := do
  if !s.channelOpen then return s
  let s := { s with en2Counter := s.en2Counter + 1 }
  let fixedEn2Hex ← currentFixedEn2 s
  match (rootWith env.hashes job (s.slot.en1Hex ++ fixedEn2Hex)).bind hexToBytes with
  | none => return s
  | some mroot =>
    let built : JobRec := { up := job, fixedEn2Hex, slot := s.slot }
    let sent := .newMiningJob (newMiningJob s job mroot) built :: s.sent
    match setNewPrevHash s job with
    | none => return { withJob s built with sent }
    | some prevHash =>
      return { withJob s built with sent := .reply (.setNewPrevHash prevHash) :: sent }

def sendSetTarget (s : Session) (diff : ℚ) : Session :=
  if s.channelOpen then s.send (.setTarget s.channelId (diffToTargetBytes diff)) else s

/-! ## Requests -/

def handleSetupConnection (s : Session) : Session :=
  { s.send (.setupConnectionSuccess 2 0) with setupDone := true }

/-- `attach` returned, and with a slot `current_diff`. Whether the job comes
next: an extranonce that is no hex is thrown at. -/
def attachReturned (s : Session) (slot : Option ProxySlot) (diff : ℚ) : Session × Bool :=
  match slot with
  | none => ({ s with slot := {} }, false)
  | some slot =>
    let targetDiff := if diff ≤ 0 then 1 else diff
    let s := { s with slot := .of slot, attached := true, targetDiff }
    match hexToBytes slot.en1Hex with
    | none => (s, false)
    | some extranoncePrefix =>
      ({ s.send (.openStandardSuccess
          { requestId := s.openRequestId, channelId := s.channelId
            target := diffToTargetBytes targetDiff, extranoncePrefix, groupChannelId := 0 }) with
        channelOpen := true }, true)

/-- `current_job` returned. -/
def jobReturned (env : Env) (s : Session) (job : Option ProxyNotify) : Option Session :=
  let s := { s with latestUpJob := job }
  match job with
  | some job => emitJob env s job
  | none => some s

/-! ## Shares -/

/-- The header that is rebuilt for a share. -/
def shareHeader (env : Env) (slot : HeldSlot) (built : JobRec) (msg : SubmitSharesStandard) :
    Option Bytes := do
  let mroot ← rootWith env.hashes built.up (slot.en1Hex ++ built.fixedEn2Hex)
  hexToBytes (buildBlockHeader (leHexU32 msg.version) (swapWordsHex built.up.prevhashStratum) mroot
    (byteReverseHex (hexPadded 8 msg.ntime.toNat)) (byteReverseHex built.up.bits)
    (byteReverseHex (hexPadded 8 msg.nonce.toNat)))

/-- A share that is forwarded, and the header it was scored with. -/
structure Forwarded where
  linkId : Option Nat
  submit : UpstreamSubmit
  header : Bytes

/-- The share for the upstream. -/
def translated (s : Session) (built : JobRec) (msg : SubmitSharesStandard) : UpstreamSubmit where
  jobId := built.up.jobId
  en2FullHex := s.slot.slotHex ++ built.fixedEn2Hex
  ntimeHex := hexPadded 8 msg.ntime.toNat
  nonceHex := hexPadded 8 msg.nonce.toNat
  versionBits := some msg.version

def reject (s : Session) (msg : SubmitSharesStandard) (code : Str) : Session :=
  s.send (.submitSharesError s.channelId msg.sequenceNumber code)

def threshold (s : Session) : ℚ := if 0 < s.targetDiff then s.targetDiff else 1

/-- The share names a job that is kept. -/
def submitOnJob (env : Env) (s : Session) (built : JobRec) (msg : SubmitSharesStandard)
    (now : UInt32) : Session × Option Forwarded :=
  if !validNtime msg.ntime built.up.mintime now then (reject s msg "ntime-invalid".toList, none)
  else
    match shareHeader env s.slot built msg with
    | none => (s, none)
    | some header =>
      let hash := (env.hashes.sha256d header).reverse
      if difficultyOf .bitcoin hash < threshold s * (99 / 100)
          ∧ !byteLe hash.bytes built.up.netTargetBe.bytes then
        (reject s msg "low-difficulty".toList, none)
      else
        (s.send (.submitSharesSuccess s.channelId msg.sequenceNumber 1
            (UInt64.ofNat (llround (threshold s)).toNat)),
          some { linkId := s.slot.linkId, submit := translated s built msg, header })

/-- `handle_submit_shares`. The ban that may follow is a close. -/
def handleSubmitShares (env : Env) (s : Session) (msg : SubmitSharesStandard) (now : UInt32) :
    Session × Option Forwarded :=
  if !s.channelOpen || !s.attached then (reject s msg "not-open".toList, none)
  else
    match s.jobs.lookup msg.jobId with
    | none => (reject s msg "stale-job".toList, none)
    | some built => submitOnJob env s built msg now

/-! ## Events of the upstream -/

/-- `on_upstream_job`. -/
def onUpstreamJob (env : Env) (s : Session) (job : ProxyNotify) : Option Session :=
  let s := { s with latestUpJob := some job }
  if s.channelOpen then emitJob env s job else some s

/-- `on_upstream_diff`. -/
def onUpstreamDiff (s : Session) (diff : ℚ) : Session :=
  let targetDiff := if 0 < diff then diff else s.targetDiff
  sendSetTarget { s with targetDiff } targetDiff

/-- `on_upstream_extranonce`. -/
def onUpstreamExtranonce (env : Env) (s : Session) (en1Hex : Str) (en2Size : Nat) :
    Option Session :=
  let s := { s with slot := s.slot.withExtranonce en1Hex en2Size }
  match s.latestUpJob with
  | some job => if s.channelOpen then emitJob env s job else some s
  | none => some s

/-- `on_rebind`. -/
def onRebind (env : Env) (s : Session) (slot : ProxySlot) (job : Option ProxyNotify) (diff : ℚ) :
    Option Session :=
  let targetDiff := if 0 < diff then diff else s.targetDiff
  let s := sendSetTarget { s with slot := .of slot, attached := true, targetDiff } targetDiff
  match job with
  | some job => emitJob env { s with latestUpJob := some job } job
  | none => some s

end MkPool.RelaySession
