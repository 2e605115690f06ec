import MkPool.Calls
import MkPool.Merkle
import MkPool.Vardiff
import Mathlib.Data.List.AList
import Mathlib.Data.Finset.Card

/-! # `ClientSession`: its state, and what every handler uses

A handler is a program that ends with the session it leaves behind. An
exception also leaves a session behind, the one it was thrown in. -/
namespace MkPool.ClientSession
open MkPool.Lib.Interaction MkPool.Utils MkPool.Config MkPool.Job MkPool.Coinbase
open MkPool.Sv2Messages MkPool.Calls MkPool.Vardiff

/-- `ClientSession::ZcashJob`. -/
structure ZcashJob where
  coinbaseHex : Str
  merkleRootLe : Str

/-- `ClientSession::CustomJob`. -/
structure CustomJob where
  version : UInt32
  prevHash : Hash256
  coinbasePrefix : Bytes
  coinbaseOutputs : Bytes
  coinbaseTxVersion : UInt32
  coinbaseTxInputNSequence : UInt32
  coinbaseTxLocktime : UInt32
  nbits : UInt32

structure Session where
  extranonce1 : Str
  sessionId : Str
  workerAddress : Str := []
  workerName : Str := []
  workerScriptHex : Str := []
  auxDogeAddress : Str := []
  dogeScriptHex : Str := []
  sessionAuxJobs : AList fun _ : Str => SessionAuxJob := ∅
  dogeSubmitted : Finset Str := ∅
  zcashJobs : AList fun _ : Str => ZcashJob := ∅
  userAgent : Str := []
  minerId : Int := -1
  subscribed : Bool := false
  authorized : Bool := false
  extranonceSubscribed : Bool := false
  extranonce2Size : Nat := 8
  versionRolling : Bool := false
  versionMask : UInt32 := 0
  vardiff : VarDiff
  lastDifficulty : ℚ
  lastDifficultyChangeTs : ℚ
  hasCustomDifficulty : Bool := false
  customDifficulty : ℚ := 1024
  sharesAccepted : Nat := 0
  sharesRejected : Nat := 0
  closed : Bool := false
  isV2 : Bool := false
  isExtendedChannel : Bool := false
  sv2ChannelId : UInt32 := 0
  sv2CustomJobIdCounter : UInt32 := 0
  sv2CustomJobs : AList fun _ : UInt32 => CustomJob := ∅

/-- The constructor. -/
def Session.new (env : Env) (extranonce1 sessionId : Str) (now : ℚ) (isV2 : Bool) : Session where
  extranonce1 := extranonce1
  sessionId := sessionId
  vardiff := .new
    { minDifficulty := min env.coin.activeTier.vardiffMin env.coin.activeTier.startingDifficulty
      maxDifficulty := max env.coin.activeTier.vardiffMax env.coin.activeTier.startingDifficulty }
    env.coin.activeTier.startingDifficulty
  lastDifficulty := env.coin.activeTier.startingDifficulty
  lastDifficultyChangeTs := now
  extranonce2Size := if env.coin.chain = .zcash then 4 else 8
  isV2 := isV2

/-! ## Updates -/

namespace Session

/-- `on_disconnect_local`, which sends nothing. -/
def disconnect (s : Session) : Session := { s with closed := true }

/-- `shares_rejected_.fetch_add(1)`. -/
def countReject (s : Session) : Session := { s with sharesRejected := s.sharesRejected + 1 }

/-- `shares_accepted_.fetch_add(1)`. -/
def countAccept (s : Session) : Session := { s with sharesAccepted := s.sharesAccepted + 1 }

/-- The previous difficulty and the time of the change. -/
def advertised (s : Session) (last changeTs : ℚ) : Session :=
  { s with lastDifficulty := last, lastDifficultyChangeTs := changeTs }

def withVardiff (s : Session) (v : VarDiff) : Session := { s with vardiff := v }

def withMinerId (s : Session) (minerId : Int) : Session := { s with minerId := minerId }

end Session

/-- How a handler ends. -/
inductive Outcome where
  | done (s : Session)
  | threw (s : Session)

@[simp] def Outcome.session : Outcome → Session
  | .done s => s
  | .threw s => s

/-- Go on after a handler that did not throw. -/
def thenDo (p : Act Outcome) (f : Session → Act Outcome) : Act Outcome := do
  match ← p with
  | .done s => f s
  | .threw s => return .threw s

/-- Run a step on a condition. -/
def whenDo (b : Bool) (p : Act Unit) : Act Unit := if b then p else return ()

section Rules
variable {S : Call → Prop}

theorem all_ite {α : Type} {c : Prop} [Decidable c] {p q : Act α} (hp : p.All S)
    (hq : q.All S) : (if c then p else q).All S := by
  split
  · exact hp
  · exact hq

theorem all_whenDo {b : Bool} {p : Act Unit} (hp : p.All S) : (whenDo b p).All S :=
  all_ite hp (Prog.all_ret ())

theorem all_thenDo {p : Act Outcome} {f : Session → Act Outcome} (hp : p.All S)
    (hf : ∀ t, (f t).All S) : (thenDo p f).All S := by
  refine hp.bind fun o => ?_
  cases o with
  | done t => exact hf t
  | threw t => exact Prog.all_ret (Outcome.threw t)

/-- One call, then the end. -/
theorem all_last {c : Call} {o : Outcome} (h : S c) :
    ((ask c >>= fun _ => return o) : Act Outcome).All S :=
  ⟨h, fun _ => trivial⟩

end Rules

/-- `pool_version_mask()`, as `setCoinConfig` stores it. -/
def poolVersionMask (env : Env) : UInt32 :=
  if env.coin.enableVersionRolling then env.coin.versionRollingMask else 0

/-! ## Emitting work to a V1 miner -/

/-- `emit_job_custom`, and the Bitcoin-family half of `emit_job`: the job's
suffix behind coinbase2, forced clean on demand. -/
def notifyOf (env : Env) (s : Session) (job : MiningJob) (front : NotifyPrefix)
    (forceClean : Bool) : Notify where
  front := front
  coinbase2 := buildSessionCoinbase2 env job s.workerScriptHex
  back := { job.notifySuffix with clean := job.notifySuffix.clean || forceClean }

/-- The per-miner Zcash coinbase and its root: the inner `none` is the fall
back to the node's coinbase, the outer one an exception. -/
def zcashJobOf (env : Env) (s : Session) (job : MiningJob) : Option (Option ZcashJob) := do
  if s.workerScriptHex.isEmpty || job.zcashFullCoinbaseHex.isEmpty then return none
  let donScript :=
    if 0 < job.donationPercent ∧ ¬ job.donationAddress.isEmpty then
      env.zcash.taddrToScript job.donationAddress
    else []
  let swapped := env.zcash.swapMinerOutput (← hexToBytes job.zcashFullCoinbaseHex)
    (← hexToBytes s.workerScriptHex) donScript job.donationPercent
  if swapped.isEmpty then return none
  let mr ← Merkle.computeRootLeHex env.hashes (bytesToHex (env.zcash.zip244Txid swapped).bytes)
    job.merkleBranchLe
  return some { coinbaseHex := bytesToHex swapped, merkleRootLe := mr }

theorem zcashJobOf_congr {env : Env} {s t : Session} {job : MiningJob}
    (h : t.workerScriptHex = s.workerScriptHex) :
    zcashJobOf env t job = zcashJobOf env s job := by
  unfold zcashJobOf
  rw [h]

/-- The Zcash notify with the session's own merkle root. -/
def zcashNotifyOf (job : MiningJob) (mr : Str) : NotifyZcash where
  jobId := job.jobId
  version := leHexU32 job.version
  prevhash := byteReverseHex job.previousblockhash
  merkleRoot := mr
  reserved :=
    if job.reserved.isEmpty then List.replicate 64 '0' else byteReverseHex job.reserved
  time := leHexU32 job.curtime
  bits := byteReverseHex job.bits
  clean := job.cleanJobs

/-- Insert into a map that is emptied first when it holds more than 256. -/
def insertBounded {α : Type} (m : AList fun _ : Str => α) (key : Str) (v : α) :
    AList fun _ : Str => α :=
  (if 256 < m.entries.length then ∅ else m).insert key v

/-- `zcash_jobs_[job.job_id] = …`, after its bound. -/
def Session.withZcashJob (s : Session) (jobId : Str) (zj : ZcashJob) : Session :=
  { s with zcashJobs := insertBounded s.zcashJobs jobId zj }

def emitJob (env : Env) (s : Session) (job : MiningJob) (forceClean : Bool := false) :
    Act Outcome := do
  if env.coin.chain = .zcash then
    match zcashJobOf env s job with
    | none => return .threw s
    | some none =>
      let n := job.notifyZcash
      ask (.send (.notifyZcash { n with clean := n.clean || forceClean }))
      return .done s
    | some (some zj) =>
      let n := zcashNotifyOf job zj.merkleRootLe
      ask (.send (.notifyZcash { n with clean := n.clean || forceClean }))
      return .done (s.withZcashJob job.jobId zj)
  else
    ask (.send (.notify (notifyOf env s job job.notifyPrefix forceClean)))
    return .done s

/-- `if (auto j = strat_->latestJob()) emit_job(*j, force_clean)`. -/
def emitLatest (env : Env) (s : Session) (forceClean : Bool) : Act Outcome := do
  match ← ask .latestJob with
  | some j => emitJob env s j forceClean
  | none => return .done s

/-- The eight words of the previous hash in reverse order. -/
def prevhashStratum (prevhash : Str) : Str :=
  if prevhash.length = 64 then
    ((List.range 8).map fun w => (prevhash.drop ((7 - w) * 8)).take 8).flatten
  else prevhash

/-! ## Difficulty -/

/-- The target of a Zcash difficulty, as big-endian hex. -/
def zcashTargetHex (rounded : Int) : Str :=
  let maxTarget : ℚ := 524287 * 2 ^ 224
  let tval := if 0 < rounded then maxTarget / rounded else maxTarget
  bytesToHex (Lib.Wire.leBytes 32 ⌊tval⌋.toNat).reverse

def sendSetDifficulty (env : Env) (s : Session) (d : ℚ) (oldDiff : Option ℚ := none) :
    Act Outcome := do
  let now ← ask .steadyNow
  let s := s.advertised (oldDiff.getD d) now
  ask (.send (.setDifficulty (llround d)))
  whenDo (env.coin.chain = .zcash) (ask (.send (.setTarget (zcashTargetHex (llround d)))))
  if s.authorized then emitLatest env s true else return .done s

/-- `max_target_d`: the target of difficulty 1 on each chain. -/
def maxTarget (chain : ChainKind) : ℚ :=
  if chain = .zcash then 524287 * 2 ^ 224
  else if chain.isScrypt then 0xFFFF * 2 ^ 224
  else 0xFFFF * 2 ^ 208

/-- The difficulty of a big-endian 256-bit number. -/
def difficultyOf (chain : ChainKind) (h : Hash256) : ℚ :=
  if 0 < beValue h.bytes then maxTarget chain / beValue h.bytes else 0

/-- The hash of a share's header, most significant byte first. -/
def headerHash (env : Env) (headerBytes : Bytes) : Hash256 :=
  (if env.coin.chain.isScrypt then env.hashes.scrypt headerBytes
   else env.hashes.sha256d headerBytes).reverse

/-! ## Credit -/

/-- `shares_accepted_.fetch_add`, `note_accepted_share`. -/
def acceptShare (s : Session) (path : SharePath) (hash : Hash256) (job : Option MiningJob)
    (ntime : UInt32) (shareDiff : ℚ) : Act Session := do
  ask (.countAccepted path hash job ntime)
  ask (.noteShareDiff shareDiff)
  return s.countAccept

/-- `if (miner_id_ > 0) enqueue_share(…)`. -/
def persistShare (s : Session) (rec : ShareRecord) : Act Unit :=
  whenDo (0 < s.minerId) (ask (.enqueueShare rec))

end MkPool.ClientSession
