import MkPool.UpstreamSource
import MkPool.Sv2Messages
import MkPool.Calls

/-! # `sv2_upstream_client.cpp`: an SV2 pool as the upstream of V1 miners

The client opens one extended channel, makes a `mining.notify` of the pool's
messages and a `SubmitSharesExtended` of a miner's share. A step is one handler
on its strand, or one locked call of a session. What cannot be computed (a shift
past the width) leaves a step without a result. -/
namespace MkPool.Sv2UpstreamClient
open MkPool.Lib MkPool.Utils MkPool.Sv2Messages MkPool.UpstreamSource
open MkPool.UpstreamClient (ProxySlot configNonceBytes rest)

/-! ## State -/

/-- `ExtJob`, where there is one. -/
structure ExtJob where
  sv2JobId : UInt32
  version : UInt32
  versionRollingAllowed : Bool
  merklePath : List Hash256
  cbPrefix : Bytes
  cbSuffix : Bytes
deriving DecidableEq

/-- `PrevHash`, where there is one. -/
structure PrevHash where
  sv2JobId : UInt32
  prevHash : Hash256
  minNtime : UInt32
  nbits : UInt32
deriving DecidableEq

/-- A share posted to the strand. Callbacks are numbered. -/
structure Posted where
  chan : UInt32
  sv2Job : UInt32
  nonce : UInt32
  ntime : UInt32
  version : UInt32
  extranonce : Bytes
  cb : Option Nat

/-- `Sv2UpstreamClient`. Not in the source: `conn` counts the connections,
`callbacks` the callbacks it was handed, `held` are the slots of the sessions
that have not given theirs back, and the sinks in `gone` no longer lock. -/
structure Client where
  user : Str
  running : Bool := false
  connected : Bool := false
  setupOk : Bool := false
  channelOk : Bool := false
  channelId : UInt32 := 0
  extranoncePrefix : Bytes := []
  extranonceSize : UInt16 := 0
  nonceBytes : UInt8
  diff : ℚ := 1
  job : Option ExtJob := none
  prev : Option PrevHash := none
  curNotify : Option ProxyNotify := none
  notifySeq : Nat := 0
  jobidMap : List (Str × UInt32) := []
  jobidOrder : List Str := []
  nextSlot : UInt32 := 0
  subscribers : List (UInt32 × Nat) := []
  waiters : List Nat := []
  nextSeq : UInt32 := 1
  pending : List (UInt32 × Nat) := []
  posted : List Posted := []
  statJobs : Nat := 0
  statForwarded : Nat := 0
  statAccepted : Nat := 0
  statRejected : Nat := 0
  statReconnects : Nat := 0
  conn : Nat := 0
  callbacks : Nat := 0
  held : List (Nat × ProxySlot) := []
  gone : List Nat := []

/-- What leaves the client. `share` names the connection it is written on. -/
inductive Output where
  | send (msg : Request)
  | share (conn : Nat) (msg : SubmitSharesExtended) (cb : Option Nat)
  | verdict (cb : Nat) (accepted : Bool) (err : Str)
  | tell (sinks : List Nat) (event : SinkEvent)
  | attached (sink : Nat) (slot : Option ProxySlot)
  | currentJob (job : Option ProxyNotify)

def Client.liveSinks (c : Client) : List Nat :=
  (c.subscribers.map Prod.snd).filter (· ∉ c.gone)

/-! ## The connection -/

def Client.down (c : Client) : Client :=
  { c with connected := false, setupOk := false, channelOk := false }

def connect (c : Client) : Client := if c.running then c.down else c

/-- The handler of a connect that succeeded. -/
def established (c : Client) : Client × List Output :=
  ({ c with connected := true, conn := c.conn + 1 }, [.send (.setupConnection 0)])

/-- `teardown`. -/
def teardown (c : Client) : Client × List Output :=
  if c.running then
    ({ c.down with statReconnects := c.statReconnects + 1 }, [.tell c.liveSinks (.state false)])
  else (c.down, [])

/-! ## Work -/

/-- `diff_from_target_le`. -/
def diffFromTargetLe (t : Bytes) : ℚ :=
  if 0 < Wire.leValue t then 0xFFFF * 2 ^ 208 / (Wire.leValue t : ℚ) else 1

/-- The line of a job. -/
def notifyLine (jobId prevhash coinbase1 coinbase2 : Str) (branch : List Str) (version : UInt32)
    (bits ntime : Str) (clean : Bool) : Str :=
  "\x7b\"id\":null,\"method\":\"mining.notify\",\"params\":[".toList
    ++ Calls.quoted jobId ++ [','] ++ Calls.quoted prevhash ++ [',']
    ++ Calls.quoted coinbase1 ++ [','] ++ Calls.quoted coinbase2 ++ [',']
    ++ Calls.branchJson branch ++ [','] ++ Calls.quoted (hexPadded 8 version.toNat) ++ [',']
    ++ Calls.quoted bits ++ [','] ++ Calls.quoted ntime ++ [',']
    ++ Calls.trueFalse clean ++ "]\x7d\n".toList

/-- The job made of the two pieces. Its bits have eight digits, so that the
target can be read. -/
def buildNotify (job : ExtJob) (prev : PrevHash) (clean : Bool) (seq : Nat) : ProxyNotify :=
  let jobId := hexPadded 8 job.sv2JobId.toNat
  let prevhashStratum := swapWordsHex (bytesToHex prev.prevHash.bytes)
  let coinbase1 := bytesToHex job.cbPrefix
  let coinbase2 := bytesToHex job.cbSuffix
  let merkleBranch := job.merklePath.map fun m => bytesToHex m.bytes
  let bits := hexPadded 8 prev.nbits.toNat
  let ntime := hexPadded 8 prev.minNtime.toNat
  { notifyLine := notifyLine jobId prevhashStratum coinbase1 coinbase2 merkleBranch job.version
      bits ntime clean
    jobId, prevhashStratum, coinbase1, coinbase2, merkleBranch, version := job.version, bits, ntime
    mintime := prev.minNtime, clean, netTargetBe := (targetFromBitsHex bits).getD .zero, seq }

/-- The id of a broadcast job goes into the map, and the oldest beyond 32 out. -/
def Client.withJobId (c : Client) (jobId : Str) (sv2JobId : UInt32) : Client :=
  let order := c.jobidOrder ++ [jobId]
  let dropped := order.take (order.length - 32)
  let map := (jobId, sv2JobId) :: c.jobidMap.filter fun e => e.1 ≠ jobId
  { c with
    jobidMap := map.filter fun e => e.1 ∉ dropped
    jobidOrder := order.drop (order.length - 32) }

/-- `rebuild_and_broadcast`. -/
def rebuildAndBroadcast (c : Client) (clean : Bool) : Client × List Output :=
  match c.job, c.prev with
  | some job, some prev =>
    let n := buildNotify job prev clean (c.notifySeq + 1)
    let c := { c with notifySeq := c.notifySeq + 1, curNotify := some n }
    let c := c.withJobId n.jobId job.sv2JobId
    (c, [.tell c.liveSinks (.job n)])
  | _, _ => (c, [])

def extJobOf (j : NewExtendedMiningJob) : ExtJob where
  sv2JobId := j.jobId
  version := j.version
  versionRollingAllowed := j.versionRollingAllowed
  merklePath := j.merklePath
  cbPrefix := j.coinbaseTxPrefix
  cbSuffix := j.coinbaseTxSuffix

def prevHashOf (ph : SetNewPrevHash) : PrevHash where
  sv2JobId := ph.jobId
  prevHash := ph.prevHash
  minNtime := ph.minNtime
  nbits := ph.nbits

def onExtendedJob (c : Client) (j : NewExtendedMiningJob) : Client × List Output :=
  let c := { c with job := some (extJobOf j), statJobs := c.statJobs + 1 }
  if j.minNtime.isSome && c.prev.isSome then rebuildAndBroadcast c false else (c, [])

def onSetPrevHash (c : Client) (ph : SetNewPrevHash) : Client × List Output :=
  let c := { c with prev := some (prevHashOf ph) }
  if c.job.isSome then rebuildAndBroadcast c true else (c, [])

def onSetTarget (c : Client) (target : Bytes) : Client × List Output :=
  let d := diffFromTargetLe target
  ({ c with diff := d }, [.tell c.liveSinks (.diff d)])

/-! ## The channel and its slots -/

/-- `std::max<std::uint8_t>(1, extranonce_size_ - 1)`, the difference cut to
eight bits. -/
def narrowed (extranonceSize : UInt16) : UInt8 := max 1 (extranonceSize - 1).toUInt8

def notifyWaiters (c : Client) : Client × List Output :=
  ({ c with waiters := [] }, [.tell (c.waiters.filter (· ∉ c.gone)) (.state true)])

def onChannelOpen (c : Client) (ok : OpenExtendedSuccess) : Client × List Output :=
  notifyWaiters
    { c with
      channelOk := true
      channelId := ok.channelId
      extranoncePrefix := ok.extranoncePrefix
      extranonceSize := ok.extranonceSize
      diff := diffFromTargetLe ok.target
      nonceBytes :=
        if ok.extranonceSize.toNat ≤ c.nonceBytes.toNat then narrowed ok.extranonceSize
        else c.nonceBytes }

/-- The slot id in `nonce_bytes_` bytes, most significant first. A shift of 32
bits or more is undefined. -/
def slotHexOf (nonceBytes : UInt8) (slotId : UInt32) : Option Str :=
  if nonceBytes.toNat ≤ 4 then
    some (bytesToHex (Wire.leBytes nonceBytes.toNat slotId.toNat).reverse)
  else none

/-- The next slot, its number written in `slotHex`. -/
def Client.slotWith (c : Client) (slotHex : Str) : ProxySlot where
  linkId := 0
  slotId := c.nextSlot.toNat
  slotHex
  en1Hex := bytesToHex c.extranoncePrefix ++ slotHex
  en2Size := rest c.extranonceSize.toNat c.nonceBytes.toNat

def attach (c : Client) (sink : Nat) : Option (Client × Option ProxySlot) :=
  if !c.channelOk then some (c, none)
  else
    (slotHexOf c.nonceBytes c.nextSlot).map fun slotHex =>
      let slot := c.slotWith slotHex
      ({ c with
          nextSlot := c.nextSlot + 1
          subscribers := (c.nextSlot, sink) :: c.subscribers.filter fun e => e.1 ≠ c.nextSlot
          held := (sink, slot) :: c.held },
        some slot)

/-- `detach`, called by the session of `sink`. -/
def detach (c : Client) (sink : Nat) (slotId : UInt32) : Client :=
  { c with
    subscribers := c.subscribers.filter fun e => e.1 ≠ slotId
    held := c.held.filter fun h => ¬ (h.1 = sink ∧ h.2.slotId = slotId.toNat) }

/-! ## Shares -/

/-- `parse_hex_u32` of this file, which takes a text of any length. -/
def parseHexU32 (h : Str) : Option UInt32 := (stoul16 h).map UInt64.toUInt32

/-- The callback of a submit, answered in it. -/
def answered (cb : Option Nat) (accepted : Bool) (err : Str) : List Output :=
  match cb with
  | some n => [.verdict n accepted err]
  | none => []

@[simp] theorem answered_none (accepted : Bool) (err : Str) : answered none accepted err = [] := rfl

@[simp] theorem answered_some (n : Nat) (accepted : Bool) (err : Str) :
    answered (some n) accepted err = [.verdict n accepted err] := rfl

/-- `submit`. A text that is not hexadecimal throws; the callback is dropped. -/
def submit (c : Client) (s : UpstreamSubmit) (cb : Option Nat) : Client × List Output :=
  match c.jobidMap.lookup s.jobId, c.channelOk with
  | some sv2Job, true =>
    match hexToBytes s.en2FullHex with
    | none => (c, [])
    | some extranonce =>
      match parseHexU32 s.nonceHex, parseHexU32 s.ntimeHex with
      | some nonce, some ntime =>
        let version := s.versionBits.getD ((c.job.map ExtJob.version).getD 0)
        ({ c with
            posted := c.posted
              ++ [{ chan := c.channelId, sv2Job, nonce, ntime, version, extranonce, cb }] },
          [])
      | _, _ => (c, answered cb false "bad hex".toList)
  | _, _ => (c, answered cb false "stale/notready".toList)

/-- A submit of a session, its callback numbered. -/
def submitNumbered (c : Client) (s : UpstreamSubmit) (cb : Bool) : Client × List Output :=
  if cb then submit { c with callbacks := c.callbacks + 1 } s (some c.callbacks)
  else submit c s none

/-- `write_b0_32` keeps 32 bytes. -/
def b032 (bs : Bytes) : Bytes := bs.take 32

/-- The message of a posted share. -/
def shareMessage (p : Posted) (seq : UInt32) : SubmitSharesExtended where
  channelId := p.chan
  sequenceNumber := seq
  jobId := p.sv2Job
  nonce := p.nonce
  ntime := p.ntime
  version := p.version
  extranonce := b032 p.extranonce

/-- The handler of a posted share. -/
def runPosted (c : Client) (p : Posted) : Client × List Output :=
  if !c.connected then (c, answered p.cb false "link down".toList)
  else
    let seq := c.nextSeq
    let pending := match p.cb with
      | some n => (seq, n) :: c.pending.filter fun e => e.1 ≠ seq
      | none => c.pending
    ({ c with nextSeq := c.nextSeq + 1, pending, statForwarded := c.statForwarded + 1 },
      [.share c.conn (shareMessage p seq) p.cb])

/-- `on_submit_result`. -/
def onSubmitResult (c : Client) (seq : UInt32) (accepted : Bool) (err : Str) :
    Client × List Output :=
  if accepted then
    let cbs := c.pending.filter fun e => e.1 ≤ seq
    ({ c with
        pending := c.pending.filter fun e => ¬ e.1 ≤ seq
        statAccepted := c.statAccepted + cbs.length },
      cbs.map fun e => .verdict e.2 true err)
  else
    let cbs := c.pending.filter fun e => e.1 = seq
    ({ c with
        pending := c.pending.filter fun e => e.1 ≠ seq
        statRejected := c.statRejected + 1 },
      cbs.map fun e => .verdict e.2 false err)

/-! ## Steps -/

/-- `handle_frame`. A prefix of more than 32 bytes is not read. -/
def handleFrame (c : Client) : Reply → Client × List Output
  | .setupConnectionSuccess _ _ =>
    ({ c with setupOk := true },
      [.send (.openExtendedMiningChannel
        { requestId := 1, userIdentity := c.user, nominalHashRate := 10 ^ 12
          minExtranonceSize := c.nonceBytes.toUInt16 + 4 })])
  | .setupConnectionError _ _ => teardown c
  | .openExtendedSuccess ok =>
    if 32 < ok.extranoncePrefix.length then (c, []) else onChannelOpen c ok
  | .openMiningChannelError _ _ => teardown c
  | .newExtendedMiningJob j => onExtendedJob c j
  | .setNewPrevHash ph => onSetPrevHash c ph
  | .setTarget _ t => onSetTarget c t
  | .submitSharesSuccess _ lastSeq _ _ => onSubmitResult c lastSeq true []
  | .submitSharesError _ seq code => onSubmitResult c seq false code
  | _ => (c, [])

/-- What comes from the network, the sessions and the timer. -/
inductive Input where
  | start
  | stop
  | connect
  | established
  | teardown
  | received (msg : Reply)
  | attach (sink : Nat)
  | detach (sink : Nat) (slotId : UInt32)
  | registerWaiter (sink : Nat)
  | currentJob
  | submit (s : UpstreamSubmit) (cb : Bool)
  | runPosted
  | sinkGone (sink : Nat)

/-- The state after an input, and what left the client. -/
def react (c : Client) : Input → Option (Client × List Output)
  | .start => some ({ c with running := true }, [])
  | .stop => some ({ c with running := false }, [])
  | .connect => some (connect c, [])
  | .established => some (established c)
  | .teardown => some (teardown c)
  | .received msg => some (handleFrame c msg)
  | .attach sink => (attach c sink).map fun r => (r.1, [.attached sink r.2])
  | .detach sink slotId => some (detach c sink slotId, [])
  | .registerWaiter sink => some ({ c with waiters := c.waiters ++ [sink] }, [])
  | .currentJob => some (c, [.currentJob c.curNotify])
  | .submit s cb => some (submitNumbered c s cb)
  | .runPosted =>
    match c.posted with
    | [] => some (c, [])
    | p :: posted => some (runPosted { c with posted } p)
  | .sinkGone sink => some ({ c with gone := sink :: c.gone }, [])

/-- Messages come while the connection is up, and who attaches is there. -/
def Offered (c : Client) : Input → Prop
  | .received _ => c.connected = true
  | .attach sink => sink ∉ c.gone
  | _ => True

instance (c : Client) (i : Input) : Decidable (Offered c i) := by
  unfold Offered
  split <;> infer_instance

/-- What came and what left, the latest first. -/
abbrev Log := List (Input × List Output)

/-- A client as it is constructed. -/
def initial (user : Str) (n : UInt8) : Client where
  user
  nonceBytes := UInt8.ofNat (configNonceBytes n)

/-- The runs of a client whose steps meet a condition. -/
inductive Run (ok : Log → Client → Input → Prop) : Log → Client → Prop where
  | init (user : Str) (n : UInt8) : Run ok [] (initial user n)
  | step {log : Log} {c c' : Client} {i : Input} {outs : List Output} (h : Run ok log c)
    (hoffer : Offered c i) (hok : ok log c i) (hs : react c i = some (c', outs)) :
    Run ok ((i, outs) :: log) c'

theorem Run.mono {ok ok' : Log → Client → Input → Prop} {log : Log} {c : Client}
    (run : Run ok log c) (h : ∀ log c i, ok log c i → ok' log c i) : Run ok' log c := by
  induction run with
  | init user n => exact .init user n
  | step run hoffer hok hs ih => exact .step ih hoffer (h _ _ _ hok) hs

/-! ## Playing a run -/

/-- The log and the state after a list of inputs, each made where the check
allows it. -/
def reactAll (check : Log → Client → Input → Bool) : Log × Client → List Input →
    Option (Log × Client)
  | st, [] => some st
  | (log, c), i :: rest =>
    if Offered c i ∧ check log c i = true then
      (react c i).bind fun r => reactAll check ((i, r.2) :: log, r.1) rest
    else none

theorem run_of_reactAll {ok : Log → Client → Input → Prop} {check : Log → Client → Input → Bool}
    (hcheck : ∀ log c i, check log c i = true → ok log c i) {st st' : Log × Client}
    {inputs : List Input} (hrun : Run ok st.1 st.2) (h : reactAll check st inputs = some st') :
    Run ok st'.1 st'.2 := by
  induction inputs generalizing st with
  | nil =>
    cases h
    exact hrun
  | cons i rest ih =>
    unfold reactAll at h
    split at h
    · rename_i hi
      obtain ⟨r, hr, h⟩ := Option.bind_eq_some_iff.mp h
      exact ih (.step hrun hi.1 (hcheck _ _ i hi.2) hr) h
    · cases h

/-- A run that ends in a state of some kind. -/
theorem exists_run (n : UInt8) (inputs : List Input) (kind : Log → Client → Bool)
    (h : (reactAll (fun _ _ _ => true) ([], initial [] n) inputs).any
      (fun st => kind st.1 st.2) = true) :
    ∃ log c, Run (fun _ _ _ => True) log c ∧ kind log c = true := by
  obtain ⟨st, hst, hkind⟩ := (Option.any_eq_true _ _).mp h
  have hrun : Run (fun _ _ _ => True) st.1 st.2 :=
    run_of_reactAll (fun _ _ _ _ => trivial) (.init [] n) hst
  exact ⟨st.1, st.2, hrun, hkind⟩

/-- The client connects, and the pool opens a channel with a prefix of one byte. -/
def channelOpens (extranonceSize : UInt16) : List Input :=
  [.start, .connect, .established, .received (.setupConnectionSuccess 2 0),
    .received (.openExtendedSuccess
      { requestId := 1, channelId := 1, target := List.replicate 32 255, extranonceSize
        extranoncePrefix := [0xaa], groupChannelId := 0 })]

end MkPool.Sv2UpstreamClient
