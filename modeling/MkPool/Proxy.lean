import MkPool.ProxySession
import MkPool.RelaySession
import MkPool.Lib.Mailbox

/-! # The proxy: an upstream client and the sessions it serves

The client runs on one thread and calls sessions, which post the call to
themselves. A session runs one handler at a time, on some other thread: between
the locked sections of `try_attach` the client may go on. A step is a handler,
or such a section. -/
namespace MkPool.Proxy
open MkPool.Utils MkPool.Coinbase MkPool.JsonValue MkPool.Sv2Messages
open MkPool.UpstreamClient MkPool.UpstreamSource

/-! ## State -/

inductive Miner where
  | v1 (s : ProxySession.Session)
  | sv2 (s : RelaySession.Session)

def Miner.slot : Miner → HeldSlot
  | .v1 s => s.slot
  | .sv2 s => s.slot

def Miner.attached : Miner → Bool
  | .v1 s => s.attached
  | .sv2 s => s.attached

def Miner.closed : Miner → Bool
  | .v1 s => s.closed
  | .sv2 s => s.closed

/-- `close`, apart from the detach. -/
def Miner.close : Miner → Miner
  | .v1 s => .v1 { s with closed := true }
  | .sv2 s => .sv2 { s with closed := true }

/-- Where a session is in `try_attach`: about to attach, about to register as a
waiter, or about to ask for the job. -/
inductive Phase where
  | idle
  | attaching
  | registering
  | fetching
deriving DecidableEq

/-- A session and the calls that wait on its strand. -/
structure Party where
  miner : Miner
  phase : Phase := .idle
  mailbox : List SinkEvent := []

/-- `UpstreamClient` with `cur_job` and `up_diff` of its links, and the sessions
by their sinks. A notify is stored before it is handed on. Not in the source:
`issued` are the jobs of all links, and `removed` who detached whose entry. -/
structure State where
  client : Client
  jobs : Nat → Option ProxyNotify := fun _ => none
  diffs : Nat → ℚ := fun _ => 1
  handingOn : Option (Nat × ProxyNotify) := none
  waiters : List Nat := []
  parties : List Party := []
  issued : List (Nat × ProxyNotify) := []
  removed : List (Nat × Nat) := []

/-! ## Calls -/

/-- A call of a session is posted to its strand. -/
def post (parties : List Party) (call : Nat × SinkEvent) : List Party :=
  parties.modify call.1 fun p => { p with mailbox := p.mailbox ++ [call.2] }

def postAll (parties : List Party) (calls : List (Nat × SinkEvent)) : List Party :=
  calls.foldl post parties

/-- `link_sinks`. -/
def linkSinks (c : Client) (i : Nat) : List Nat :=
  match c.links[i]? with
  | none => []
  | some l => (l.subscribers.map fun e => e.2.sink).filter (· ∉ c.gone)

/-- The calls of `set_upstream_extranonce` on a link that is set already. -/
def reissues (c : Client) (i : Nat) : List (Nat × SinkEvent) :=
  match c.links[i]? with
  | none => []
  | some l =>
    (l.subscribers.filter fun e => e.2.sink ∉ c.gone).map fun e =>
      (e.2.sink, .extranonce (l.upEn1 ++ e.2.slotHex) (rest l.upEn2Size l.nonceBytesEff))

/-- `failover_target`. -/
def failoverTarget (c : Client) (i : Nat) : Option Nat :=
  if c.activeActive then none
  else (List.range c.links.length).find? fun j => j ≠ i ∧ readyAt c j

/-- The link that a subscriber is moved to. -/
def standby (c : Client) (i : Nat) (target : Option Nat) : Option Nat :=
  if c.activeActive then
    leastLoaded c ((List.range c.links.length).filter fun j => j ≠ i ∧ readyAt c j)
  else target

/-- The slots that the subscribers are moved to, or none where they are
stranded. -/
def outcomes (i : Nat) (target : Option Nat) :
    Client × List Nat → List (Nat × Subscriber) → List (Nat × Option ProxySlot)
  | _, [] => []
  | st, e :: rest =>
    let after := outcomes i target (migrateOne i target st e) rest
    if e.2.sink ∈ st.1.gone then after
    else (e.2.sink, (standby st.1 i target).bind fun t => (allocateAt st.1 t e.2.sink).2) :: after

/-- A rebind, with the job and the difficulty of the new link. -/
def rebindTo (c : State) (slot : ProxySlot) : SinkEvent :=
  .rebind slot (c.jobs slot.linkId) (c.diffs slot.linkId)

/-- The calls of `migrate_link`. -/
def rebinds (c : State) (moved : List (Nat × Option ProxySlot)) : List (Nat × SinkEvent) :=
  moved.filterMap fun m => m.2.map fun slot => (m.1, rebindTo c slot)

def stranded (moved : List (Nat × Option ProxySlot)) : List (Nat × SinkEvent) :=
  moved.filterMap fun m => if m.2.isNone then some (m.1, .state false) else none

/-- `on_conn_close`, as far as slots go. -/
def closeLink (c : State) (i : Nat) (order : List (Nat × Subscriber)) : State :=
  let client := modifyLink c.client i down
  let target := failoverTarget client i
  let primary := target.or (if client.primary = some i then none else client.primary)
  let moved := outcomes i target ({ client with primary }, []) order
  { c with
    client := migrateLink client i order
    parties := postAll (postAll c.parties (rebinds c moved)) (stranded moved) }

/-! ## Sessions -/

/-- What a handler of a session goes on with. -/
inductive Next where
  | done
  | attach
  | detach

def anyReady (c : Client) : Bool := c.links.any linkReady

/-- `try_attach` until its first lock. -/
def startAttach (c : Client) (p : Party) : Party :=
  if anyReady c then { p with phase := .attaching }
  else
    { p with
      phase := .registering
      miner := match p.miner with
        | .v1 s => .v1 (ProxySession.held s)
        | .sv2 s => .sv2 s }

/-- `detach` by sink `n`. -/
def detachBy (c : State) (n : Nat) (slot : HeldSlot) : State :=
  match slot.linkId with
  | none => c
  | some i =>
    let erased := ((c.client.links[i]?).toList.flatMap Link.subscribers).filter fun e =>
      e.1 = slot.slotId
    { c with
      client := detach c.client i slot.slotId
      removed := erased.map (fun e => (n, e.2.sink)) ++ c.removed }

/-- A session is written back after a handler. -/
def goOn (c : State) (n : Nat) (p : Party) : Next → State
  | .done => { c with parties := c.parties.set n p }
  | .attach => { c with parties := c.parties.set n (startAttach c.client p) }
  | .detach => detachBy { c with parties := c.parties.set n p } n p.miner.slot

/-- `close`, if it is the first. -/
def closeParty (c : State) (n : Nat) (p : Party) : State :=
  if p.miner.closed then c
  else goOn c n { p with miner := p.miner.close } (if p.miner.attached then .detach else .done)

/-- A locked section of `try_attach` runs. -/
def advance (env : Env) (c : State) (n : Nat) (p : Party) : Option State :=
  match p.phase with
  | .idle => some c
  | .registering =>
    some { c with
      waiters := c.waiters ++ [n]
      parties := c.parties.set n { p with phase := .idle } }
  | .attaching =>
    let r := attach c.client n
    let diff := match r.2 with
      | some slot => c.diffs slot.linkId
      | none => 1
    let p : Party := match p.miner with
      | .v1 s =>
        { p with
          miner := .v1 (ProxySession.attachReturned s r.2 diff)
          phase := if r.2.isSome then .fetching else .registering }
      | .sv2 s =>
        let a := RelaySession.attachReturned s r.2 diff
        { p with
          miner := .sv2 a.1
          phase := if a.2 then .fetching else if r.2.isSome then .idle else .registering }
    some { c with client := r.1, parties := c.parties.set n p }
  | .fetching =>
    let job := p.miner.slot.linkId.bind c.jobs
    match p.miner with
    | .v1 s =>
      some { c with
        parties := c.parties.set n { p with
          miner := .v1 (ProxySession.jobReturned s job), phase := .idle } }
    | .sv2 s =>
      (RelaySession.jobReturned env s job).map fun s =>
        { c with parties := c.parties.set n { p with miner := .sv2 s, phase := .idle } }

/-- A call runs in a V1 session. -/
def handleV1 (s : ProxySession.Session) : SinkEvent → ProxySession.Session × Next
  | .job job => (ProxySession.onUpstreamJob s job, .done)
  | .diff diff => (ProxySession.onUpstreamDiff s diff, .done)
  | .extranonce en1Hex en2Size => (ProxySession.onUpstreamExtranonce s en1Hex en2Size, .done)
  | .state up =>
    if up && s.pendingSubscribe then
      if s.subscribed then (ProxySession.sendSubscribeReply s, .done) else (s, .attach)
    else (s, .done)
  | .rebind slot job diff =>
    let s := ProxySession.onRebind s slot job diff
    (s, if s.closed then .detach else .done)

/-- A call runs in an SV2 session. -/
def handleSv2 (env : Env) (s : RelaySession.Session) :
    SinkEvent → Option (RelaySession.Session × Next)
  | .job job => (RelaySession.onUpstreamJob env s job).map (·, .done)
  | .diff diff => some (RelaySession.onUpstreamDiff s diff, .done)
  | .extranonce en1Hex en2Size =>
    (RelaySession.onUpstreamExtranonce env s en1Hex en2Size).map (·, .done)
  | .state up => some (s, if up && s.setupDone && !s.channelOpen then .attach else .done)
  | .rebind slot job diff => (RelaySession.onRebind env s slot job diff).map (·, .done)

/-- The first call of a session's strand runs, unless the session is closed. -/
def deliver (env : Env) (c : State) (n : Nat) (p : Party) : Option State :=
  match p.mailbox with
  | [] => some c
  | ev :: mailbox =>
    if p.miner.closed then some { c with parties := c.parties.set n { p with mailbox } }
    else
      match p.miner with
      | .v1 s =>
        let r := handleV1 s ev
        some (goOn c n { p with miner := .v1 r.1, mailbox } r.2)
      | .sv2 s =>
        (handleSv2 env s ev).map fun r => goOn c n { p with miner := .sv2 r.1, mailbox } r.2

/-- A request of a V1 miner. -/
inductive RequestV1 where
  | configure (params : List Json)
  | subscribe
  | authorize
  | extranonceSubscribe
  | submit (params : Option (List Json)) (now : UInt32)

/-- A request of an SV2 miner. -/
inductive RequestSv2 where
  | setupConnection
  | openStandardChannel (requestId : UInt32)
  | submitShares (msg : SubmitSharesStandard) (now : UInt32)

def requestV1 (env : Env) (s : ProxySession.Session) : RequestV1 → ProxySession.Session × Next
  | .configure params => (ProxySession.handleConfigure env s params, .done)
  | .subscribe =>
    if s.subscribed then (ProxySession.sendSubscribeReply s, .done) else (s, .attach)
  | .authorize => (ProxySession.handleAuthorize s, .done)
  | .extranonceSubscribe => (ProxySession.handleExtranonceSubscribe s, .done)
  | .submit params now => ((ProxySession.handleSubmit env s params now).1, .done)

def requestSv2 (env : Env) (s : RelaySession.Session) :
    RequestSv2 → RelaySession.Session × Next
  | .setupConnection => (RelaySession.handleSetupConnection s, .done)
  | .openStandardChannel requestId => ({ s with openRequestId := requestId }, .attach)
  | .submitShares msg now => ((RelaySession.handleSubmitShares env s msg now).1, .done)

/-! ## Steps -/

/-- What comes from the upstreams and the miners, and what runs next. -/
inductive Input where
  | connectLink (i : Nat)
  | connOpen (i : Nat)
  | connClose (i : Nat) (order : List (Nat × Subscriber))
  | subscribeResult (i : Nat) (en1 : Str) (en2Size : Nat)
  | authorizeResult (i : Nat)
  | setExtranonce (i : Nat) (en1 : Str) (en2Size : Nat)
  | setDifficulty (i : Nat) (diff : ℚ)
  | notify (i : Nat) (job : ProxyNotify)
  | handOn
  | connectV1
  | connectSv2
  | requestV1 (n : Nat) (r : RequestV1)
  | requestSv2 (n : Nat) (r : RequestSv2)
  | advance (n : Nat)
  | deliver (n : Nat)
  | close (n : Nat)
  | destroy (n : Nat)

/-- A step of the client that calls nobody. -/
def clientStep (c : State) (i : UpstreamClient.Input) : Option State :=
  (UpstreamClient.react c.client i).map fun client => { c with client }

def onParty (c : State) (n : Nat) (f : Party → Option State) : Option State :=
  match c.parties[n]? with
  | none => some c
  | some p => f p

/-- The state after an input, unless it is undefined. -/
def react (env : Env) (c : State) : Input → Option State
  | .connectLink i => clientStep c (.connectLink i)
  | .connOpen i => clientStep c (.connOpen i)
  | .connClose i order => some (closeLink c i order)
  | .subscribeResult i en1 en2Size => clientStep c (.subscribeResult i en1 en2Size)
  | .authorizeResult i =>
    (clientStep c (.authorizeResult i)).map fun c =>
      { c with
        parties := postAll c.parties
          ((c.waiters.filter (· ∉ c.client.gone)).map (·, .state true))
        waiters := [] }
  | .setExtranonce i en1 en2Size =>
    (clientStep c (.setExtranonce i en1 en2Size)).map fun c =>
      { c with parties := postAll c.parties (reissues c.client i) }
  | .setDifficulty i diff =>
    if diff ≤ 0 then some c
    else
      some { c with
        diffs := fun j => if j = i then diff else c.diffs j
        parties := postAll c.parties ((linkSinks c.client i).map (·, .diff diff)) }
  | .notify i job =>
    some { c with
      jobs := fun j => if j = i then some job else c.jobs j
      handingOn := some (i, job)
      issued := (i, job) :: c.issued }
  | .handOn =>
    match c.handingOn with
    | none => some c
    | some (i, job) =>
      some { c with
        parties := postAll c.parties ((linkSinks c.client i).map (·, .job job))
        handingOn := none }
  | .connectV1 => some { c with parties := c.parties ++ [{ miner := .v1 {} }] }
  | .connectSv2 => some { c with parties := c.parties ++ [{ miner := .sv2 {} }] }
  | .requestV1 n r => onParty c n fun p =>
    match p.miner with
    | .v1 s => some (goOn c n { p with miner := .v1 (requestV1 env s r).1 } (requestV1 env s r).2)
    | .sv2 _ => some c
  | .requestSv2 n r => onParty c n fun p =>
    match p.miner with
    | .v1 _ => some c
    | .sv2 s =>
      some (goOn c n { p with miner := .sv2 (requestSv2 env s r).1 } (requestSv2 env s r).2)
  | .advance n => onParty c n (advance env c n)
  | .deliver n => onParty c n (deliver env c n)
  | .close n => onParty c n fun p => some (closeParty c n p)
  | .destroy n => clientStep c (.sinkGone n)

/-- A session runs one handler at a time, takes requests while it is open, and is
destroyed when it was closed and nothing waits on its strand. The client hands a
job on before it does anything else. -/
def Offered (c : State) : Input → Prop
  | .connClose i order =>
    c.handingOn = none ∧ ∃ l, c.client.links[i]? = some l ∧ order.Perm l.subscribers
  | .connectLink _ | .connOpen _ | .subscribeResult .. | .authorizeResult _ | .setExtranonce .. |
    .setDifficulty .. | .notify .. => c.handingOn = none
  | .requestV1 n _ | .requestSv2 n _ =>
    ∀ p ∈ c.parties[n]?, p.phase = .idle ∧ p.miner.closed = false
  | .deliver n | .close n => ∀ p ∈ c.parties[n]?, p.phase = .idle
  | .destroy n =>
    ∃ p, c.parties[n]? = some p ∧ p.phase = .idle ∧ p.miner.closed = true ∧ p.mailbox = []
  | .handOn | .connectV1 | .connectSv2 | .advance _ => True

/-- A proxy before anything came. -/
def initial (n : UInt8) (activeActive : Bool) (weights : List Nat) : State where
  client :=
    { nonceBytes := configNonceBytes n, activeActive
      links := weights.map fun weight => { weight } }

/-- The runs of a proxy whose steps meet a condition. -/
inductive Run (env : Env) (ok : State → Input → Prop) : State → Prop where
  | init (n : UInt8) (activeActive : Bool) (weights : List Nat) :
    Run env ok (initial n activeActive weights)
  | step {c c' : State} {i : Input} (h : Run env ok c) (hoffer : Offered c i) (hok : ok c i)
    (hs : react env c i = some c') : Run env ok c'

/-! ## Runs step by step -/

deriving instance DecidableEq for Subscriber

/-- What holds of the value, if there is one. -/
def decideSome {α : Type} (o : Option α) (P : α → Prop) [DecidablePred P] :
    Decidable (∃ a, o = some a ∧ P a) :=
  decidable_of_iff (o.any fun a => decide (P a)) (by simp [Option.any_eq_true])

instance (c : State) (i : Input) : Decidable (Offered c i) :=
  match i with
  | .connClose i order =>
    have := decideSome c.client.links[i]? fun l => order.Perm l.subscribers
    inferInstanceAs (Decidable (_ ∧ _))
  | .connectLink _ | .connOpen _ | .subscribeResult .. | .authorizeResult _ | .setExtranonce .. |
    .setDifficulty .. | .notify .. => inferInstanceAs (Decidable (_ = _))
  | .requestV1 .. | .requestSv2 .. => inferInstanceAs (Decidable (∀ p ∈ _, _ ∧ _))
  | .deliver _ | .close _ => inferInstanceAs (Decidable (∀ p ∈ _, _ = _))
  | .destroy n =>
    decideSome c.parties[n]? fun p => p.phase = .idle ∧ p.miner.closed = true ∧ p.mailbox = []
  | .handOn | .connectV1 | .connectSv2 | .advance _ => inferInstanceAs (Decidable True)

/-- The state after some inputs, where each is offered, passes a test and is
defined. -/
def reactAll (env : Env) (check : State → Input → Bool) : State → List Input → Option State
  | c, [] => some c
  | c, i :: rest =>
    if Offered c i ∧ check c i = true then (react env c i).bind fun c => reactAll env check c rest
    else none

theorem run_of_reactAll {env : Env} {ok : State → Input → Prop} {check : State → Input → Bool}
    (hcheck : ∀ c i, check c i = true → ok c i) {c c' : State} {inputs : List Input}
    (hrun : Run env ok c) (h : reactAll env check c inputs = some c') : Run env ok c' := by
  induction inputs generalizing c with
  | nil =>
    cases h
    exact hrun
  | cons i rest ih =>
    unfold reactAll at h
    split at h
    · rename_i hi
      obtain ⟨c₁, hc₁, h⟩ := Option.bind_eq_some_iff.mp h
      exact ih (.step hrun hi.1 (hcheck c i hi.2) hc₁) h
    · cases h

/-- A run of a proxy that ends in a state of some kind. -/
theorem exists_run (env : Env) {ok : State → Input → Prop} (check : State → Input → Bool)
    (hcheck : ∀ c i, check c i = true → ok c i) (weights : List Nat) (inputs : List Input)
    (kind : State → Bool)
    (h : (reactAll env check (initial 2 false weights) inputs).any kind = true) :
    ∃ c, Run env ok c ∧ kind c = true := by
  obtain ⟨c, hc, hkind⟩ := (Option.any_eq_true _ _).mp h
  exact ⟨c, run_of_reactAll hcheck (.init 2 false weights) hc, hkind⟩

/-- A link is up, with an extranonce 1 and eight bytes of extranonce 2. -/
def linkUp (i : Nat) (en1 : String) : List Input :=
  [.connectLink i, .connOpen i, .subscribeResult i en1.toList 8, .authorizeResult i]

/-- A job with an empty coinbase, of some version. -/
def sampleJob (id : String) (version : UInt32) : ProxyNotify where
  notifyLine := []
  jobId := id.toList
  prevhashStratum := List.replicate 64 '0'
  coinbase1 := "00".toList
  coinbase2 := "00".toList
  merkleBranch := []
  version
  bits := "1d00ffff".toList
  ntime := "00000000".toList
  mintime := 0
  clean := false
  netTargetBe := ⟨List.replicate 32 0, rfl⟩
  seq := 0

/-- A Bitcoin proxy. A hash has the sum of the bytes in its lowest byte. -/
def sampleEnv : Env where
  coin :=
    { chain := .bitcoin
      aux := { payoutAddress := [] }
      coinbaseSignature := []
      donationAddress := [] }
  hashes :=
    { sha256d := fun b => ⟨b.foldl (· + ·) 1 :: List.replicate 31 0, rfl⟩
      scrypt := fun b => ⟨b.foldl (· + ·) 1 :: List.replicate 31 0, rfl⟩ }
  decode _ := .error .empty
  zcash :=
    { taddrToScript := fun _ => []
      swapMinerOutput := fun _ _ _ _ => []
      zip244Txid := fun _ => ⟨List.replicate 32 0, rfl⟩ }
  equihashVerify _ _ := false
  ecashRttOk _ _ _ _ := true
  exp _ := 1
  fmtDouble _ := []
  hasAux := false

end MkPool.Proxy
