import MkPool.UpstreamSource
import MkPool.Stratum

/-! # `proxy_session.cpp`: a V1 miner of the proxy

What a handler writes goes into `sent`. The locked sections of
`try_attach_and_reply` are separate functions, since the upstream may change
between them. -/
namespace MkPool.ProxySession
open MkPool.Utils MkPool.Config MkPool.Coinbase MkPool.ClientSession MkPool.Stratum
open MkPool.JsonValue MkPool.UpstreamClient MkPool.UpstreamSource

/-! ## State -/

/-- A line to the miner, without the id of the request. Of a notify, the job
and the slot it was written with are not sent. -/
inductive Line where
  | configured (neg : ConfigureResult)
  | subscribed (en1Hex : Str) (en2Size : Nat)
  | setDifficulty (diff : Int)
  | setVersionMask (mask : UInt32)
  | setExtranonce (en1Hex : Str) (en2Size : Nat)
  | notify (line : Str) (job : ProxyNotify) (slot : HeldSlot)
  | result
  | error (code : Nat) (reason : Str)

/-- `ProxyDownstreamSession`. `recentJobs` is in the order of `recent_order_`.
`sent` are the lines to the miner, the latest first. -/
structure Session where
  slot : HeldSlot := {}
  attached : Bool := false
  closed : Bool := false
  subscribed : Bool := false
  authorized : Bool := false
  extranonceSubscribed : Bool := false
  versionRolling : Bool := false
  versionMask : UInt32 := 0
  pendingSubscribe : Bool := false
  upstreamDiff : ℚ := 0
  targetDiff : ℚ := 0
  recentJobs : List (Str × ProxyNotify) := []
  curJob : Option ProxyNotify := none
  sent : List Line := []

def Session.send (s : Session) (line : Line) : Session := { s with sent := line :: s.sent }

/-! ## Jobs -/

/-- `remember_job`. -/
def rememberJob (s : Session) (job : ProxyNotify) : Session :=
  if (s.recentJobs.lookup job.jobId).isSome then s
  else
    let jobs := s.recentJobs ++ [(job.jobId, job)]
    { s with recentJobs := jobs.drop (jobs.length - 8) }

/-- The line of a job, forced clean. -/
def forcedClean (line : Str) : Str :=
  let front := line.take (line.length - 9)
  if 9 ≤ line.length ∧ line.drop (line.length - 9) = ",false]\x7d\n".toList then
    front ++ ",true]\x7d\n".toList
  else line

/-- `emit_current_job`. -/
def emitCurrentJob (s : Session) (forceClean : Bool) : Session :=
  match s.curJob with
  | none => s
  | some job =>
    s.send (.notify (if forceClean then forcedClean job.notifyLine else job.notifyLine) job s.slot)

def sendSetDifficulty (s : Session) (d : ℚ) : Session :=
  s.send (.setDifficulty (llround (if 0 < d then d else 1)))

/-! ## Requests -/

def handleConfigure (env : Env) (s : Session) (params : List Json) : Session :=
  let neg := negotiateConfigure params (poolVersionMask env)
  ({ s with
      versionRolling := neg.versionRolling && neg.versionMask != 0
      versionMask := neg.versionMask
      extranonceSubscribed := s.extranonceSubscribed || neg.subscribeExtranonce }).send
    (.configured neg)

/-- `send_subscribe_reply`. -/
def sendSubscribeReply (s : Session) : Session :=
  s.send (.subscribed s.slot.en1Hex s.slot.en2Size)

/-- The subscribe is held. -/
def held (s : Session) : Session := { s with pendingSubscribe := true }

/-- `attach` returned, and with a slot `current_diff`. -/
def attachReturned (s : Session) (slot : Option ProxySlot) (diff : ℚ) : Session :=
  match slot with
  | none => held { s with slot := {} }
  | some slot =>
    let s := sendSubscribeReply
      { s with
        slot := .of slot, attached := true, pendingSubscribe := false
        upstreamDiff := diff, targetDiff := diff }
    let s := sendSetDifficulty { s with subscribed := true } diff
    if s.versionRolling && s.versionMask != 0 then s.send (.setVersionMask s.versionMask) else s

/-- `current_job` returned. -/
def jobReturned (s : Session) (job : Option ProxyNotify) : Session :=
  let s := { s with curJob := job }
  match job with
  | some job => rememberJob s job
  | none => s

def handleAuthorize (s : Session) : Session :=
  let s := { s.send .result with authorized := true }
  if s.subscribed then emitCurrentJob s true else s

def handleExtranonceSubscribe (s : Session) : Session :=
  { s.send .result with extranonceSubscribed := true }

/-! ## Shares -/

/-- `stratum_prevhash_to_header_le`, and the header a share is scored with. -/
def shareHeader (env : Env) (job : ProxyNotify) (en1Hex en2 ntimeS nonceS : Str)
    (version : UInt32) : Option Bytes := do
  let cbHex := rebuildCoinbase job.coinbase1 job.coinbase2 (en1Hex ++ en2)
  let cbTxidLe ← computeCoinbaseTxidLe env.hashes cbHex
  let merkleRoot ← Merkle.computeRootLeHex env.hashes cbTxidLe job.merkleBranch
  hexToBytes (buildBlockHeader (leHexU32 version) (swapWordsHex job.prevhashStratum) merkleRoot
    (byteReverseHex ntimeS) (byteReverseHex job.bits) (byteReverseHex nonceS))

/-- The texts of a submit. -/
structure Share where
  jobId : Str
  en2 : Str
  ntimeS : Str
  nonceS : Str
  versionBits : Option UInt32

/-- `[worker, job_id, extranonce2, ntime, nonce, (version_bits)]`. The worker
may be anything. -/
def parseSubmit (s : Session) (params : Option (List Json)) : Except Str Share :=
  match params with
  | none => .error "bad params".toList
  | some p =>
    if p.length < 5 then .error "bad params".toList
    else
      match ((p.drop 1).take 4).mapM Json.getString? with
      | some [jobId, en2, ntimeS, nonceS] =>
        let versionBits := (p[5]?.bind Json.getString?).bind parseHexU32
        if !validHex en2 || !validHex ntimeS || !validHex nonceS || ntimeS.length ≠ 8
            || nonceS.length ≠ 8 then
          .error "invalid hex".toList
        else if en2.length ≠ s.slot.en2Size * 2 then .error "bad extranonce2 size".toList
        else .ok { jobId, en2, ntimeS, nonceS, versionBits }
      | _ => .error "bad params types".toList

/-- The version of a share, or nothing where rolling was not negotiated. -/
def rolledVersion (s : Session) (job : ProxyNotify) (versionBits : Option UInt32) :
    Option UInt32 :=
  match versionBits with
  | none => some job.version
  | some bits =>
    if !s.versionRolling || s.versionMask = 0 then none
    else some ((job.version &&& ~~~s.versionMask) ||| (bits &&& s.versionMask))

/-- A share that is forwarded, and the header it was scored with. A share
without a callback did not reach the difficulty. -/
structure Forwarded where
  linkId : Option Nat
  submit : UpstreamSubmit
  callback : Bool
  share : Share
  version : UInt32
  header : Bytes

/-- The difficulty of a hash, most significant byte first. -/
def shareDiff (env : Env) (hash : Hash256) : ℚ :=
  difficultyOf (if env.coin.chain.isScrypt then env.coin.chain else .bitcoin) hash

def reject (s : Session) (code : Nat) (reason : Str) : Session := s.send (.error code reason)

def threshold (s : Session) : ℚ := if 0 < s.targetDiff then s.targetDiff else 1

/-- A share whose header was rebuilt is scored. -/
def scoreShare (env : Env) (s : Session) (job : ProxyNotify) (sh : Share) (version : UInt32)
    (header : Bytes) : Session × Option Forwarded :=
  let hash := headerHash env header
  let submit : UpstreamSubmit :=
    { jobId := sh.jobId, en2FullHex := s.slot.slotHex ++ sh.en2, ntimeHex := sh.ntimeS
      nonceHex := sh.nonceS, versionBits := sh.versionBits }
  let forwarded (callback : Bool) : Forwarded :=
    { linkId := s.slot.linkId, submit, callback, share := sh, version, header }
  if shareDiff env hash < threshold s * (99 / 100) then
    (reject s 23 "low difficulty share".toList,
      if byteLe hash.bytes job.netTargetBe.bytes then some (forwarded false) else none)
  else (s.send .result, some (forwarded true))

/-- A share of a job that is remembered. -/
def submitOnJob (env : Env) (s : Session) (job : ProxyNotify) (sh : Share) (now : UInt32) :
    Session × Option Forwarded :=
  match parseHexU32 sh.ntimeS with
  | none => (reject s 20 "bad ntime".toList, none)
  | some ntime =>
    if !validNtime ntime job.mintime now then (reject s 20 "ntime out of range".toList, none)
    else
      match rolledVersion s job sh.versionBits with
      | none => (reject s 20 "version-rolling not negotiated".toList, none)
      | some version =>
        match shareHeader env job s.slot.en1Hex sh.en2 sh.ntimeS sh.nonceS version with
        | none => (reject s 20 "malformed request".toList, none)
        | some header => scoreShare env s job sh version header

/-- `handle_submit`. The ban that may follow is a close. -/
def handleSubmit (env : Env) (s : Session) (params : Option (List Json)) (now : UInt32) :
    Session × Option Forwarded :=
  if !s.authorized then (reject s 24 "not authorized".toList, none)
  else if !s.subscribed || !s.attached then (reject s 25 "not subscribed".toList, none)
  else
    match parseSubmit s params with
    | .error reason => (reject s 20 reason, none)
    | .ok sh =>
      match s.recentJobs.lookup sh.jobId with
      | none => (reject s 21 "job not found".toList, none)
      | some job => submitOnJob env s job sh now

/-- What a share was scored with. -/
structure Scored (env : Env) (s : Session) (params : Option (List Json)) (job : ProxyNotify)
    (f : Forwarded) : Prop where
  parsed : parseSubmit s params = .ok f.share
  known : s.recentJobs.lookup f.share.jobId = some job
  version : rolledVersion s job f.share.versionBits = some f.version
  header : shareHeader env job s.slot.en1Hex f.share.en2 f.share.ntimeS f.share.nonceS f.version =
    some f.header
  submit : f.submit =
    { jobId := f.share.jobId, en2FullHex := s.slot.slotHex ++ f.share.en2
      ntimeHex := f.share.ntimeS, nonceHex := f.share.nonceS, versionBits := f.share.versionBits }
  link : f.linkId = s.slot.linkId

theorem scored_of_forwarded {env : Env} {s : Session} {params : Option (List Json)} {now : UInt32}
    {f : Forwarded} (h : (handleSubmit env s params now).2 = some f) :
    ∃ job, Scored env s params job f := by
  unfold handleSubmit at h
  split at h
  · cases h
  · split at h
    · cases h
    · split at h
      · cases h
      · rename_i sh hparse
        split at h
        · cases h
        · rename_i job hlookup
          unfold submitOnJob at h
          split at h
          · cases h
          · split at h
            · cases h
            · split at h
              · cases h
              · rename_i version hversion
                split at h
                · cases h
                · rename_i header hheader
                  refine ⟨job, ?_⟩
                  unfold scoreShare at h
                  dsimp only at h
                  split at h
                  · split at h <;> cases h
                    exact ⟨hparse, hlookup, hversion, hheader, rfl, rfl⟩
                  · cases h
                    exact ⟨hparse, hlookup, hversion, hheader, rfl, rfl⟩

/-! ## Events of the upstream -/

/-- `on_upstream_job`. -/
def onUpstreamJob (s : Session) (job : ProxyNotify) : Session :=
  let s := rememberJob { s with curJob := some job } job
  if s.subscribed && s.authorized then emitCurrentJob s false else s

/-- `on_upstream_diff`. -/
def onUpstreamDiff (s : Session) (diff : ℚ) : Session :=
  let s := { s with upstreamDiff := diff, targetDiff := diff }
  if s.subscribed then sendSetDifficulty s diff else s

/-- `on_upstream_extranonce`. -/
def onUpstreamExtranonce (s : Session) (en1Hex : Str) (en2Size : Nat) : Session :=
  let s := { s with slot := s.slot.withExtranonce en1Hex en2Size }
  if s.subscribed then emitCurrentJob (s.send (.setExtranonce en1Hex en2Size)) true else s

/-- `on_rebind`: a miner that cannot be told is dropped. -/
def onRebind (s : Session) (slot : ProxySlot) (job : Option ProxyNotify) (diff : ℚ) : Session :=
  let upstreamDiff := if 0 < diff then diff else s.upstreamDiff
  let s :=
    { s with slot := .of slot, attached := true, upstreamDiff, targetDiff := upstreamDiff }
  if s.extranonceSubscribed then
    let s := sendSetDifficulty (s.send (.setExtranonce slot.en1Hex slot.en2Size)) upstreamDiff
    match job with
    | some job => emitCurrentJob (rememberJob { s with curJob := some job } job) true
    | none => s
  else { s with closed := true }

end MkPool.ProxySession
