import MkPool.Proxy
import MkPool.Sv2UpstreamClient

/-! # V1 miners of an SV2 pool

The sessions are those of the other proxy, and their upstream is the SV2 client.
It has one channel, so that nobody is moved. A step is a handler of the client
or of a session, or a locked section of one. -/
namespace MkPool.Sv2Proxy
open MkPool.Utils MkPool.Coinbase
open MkPool.UpstreamSource MkPool.Sv2UpstreamClient
open MkPool.Proxy (Phase Next RequestV1 handleV1 requestV1)

/-! ## State -/

/-- A V1 session and the calls that wait on its strand. -/
structure Party where
  session : ProxySession.Session := {}
  phase : Phase := .idle
  mailbox : List SinkEvent := []

/-- The client with what came and left, and the sessions by their sinks. -/
structure State where
  client : Client
  log : Log := []
  parties : List Party := []

/-- A call of some sessions is posted to their strands. -/
def tellAll (parties : List Party) : Output → List Party
  | .tell sinks ev =>
    sinks.foldl (fun ps n => ps.modify n fun p => { p with mailbox := p.mailbox ++ [ev] }) parties
  | _ => parties

/-- A step of the client. -/
def clientStep (st : State) (i : Sv2UpstreamClient.Input) : Option State :=
  (Sv2UpstreamClient.react st.client i).map fun r =>
    { client := r.1, log := (i, r.2) :: st.log, parties := r.2.foldl tellAll st.parties }

def State.set (st : State) (n : Nat) (p : Party) : State :=
  { st with parties := st.parties.set n p }

/-! ## Sessions -/

/-- `try_attach_and_reply` until its first call that changes anything. -/
def startAttach (c : Client) (p : Party) : Party :=
  if c.channelOk then { p with phase := .attaching }
  else { p with phase := .registering, session := ProxySession.held p.session }

/-- A session is written back after a handler. -/
def goOn (st : State) (n : Nat) (p : Party) : Next → Option State
  | .done => some (st.set n p)
  | .attach => some (st.set n (startAttach st.client p))
  | .detach => clientStep (st.set n p) (.detach n (UInt32.ofNat p.session.slot.slotId))

/-- `close`, if it is the first. -/
def closeParty (st : State) (n : Nat) (p : Party) : Option State :=
  if p.session.closed then some st
  else
    goOn st n { p with session := { p.session with closed := true } }
      (if p.session.attached then .detach else .done)

/-- A locked section of `try_attach_and_reply` runs. -/
def advance (st : State) (n : Nat) (p : Party) : Option State :=
  match p.phase with
  | .idle => some st
  | .registering => clientStep (st.set n { p with phase := .idle }) (.registerWaiter n)
  | .attaching =>
    (attach st.client n).map fun r =>
      { client := r.1
        log := (.attach n, [.attached n r.2]) :: st.log
        parties := st.parties.set n { p with
          session := ProxySession.attachReturned p.session r.2 r.1.diff
          phase := if r.2.isSome then .fetching else .registering } }
  | .fetching =>
    clientStep
      (st.set n { p with
        session := ProxySession.jobReturned p.session st.client.curNotify, phase := .idle })
      .currentJob

/-- The first call of a session's strand runs, unless the session is closed. -/
def deliver (st : State) (n : Nat) (p : Party) : Option State :=
  match p.mailbox with
  | [] => some st
  | ev :: mailbox =>
    if p.session.closed then some (st.set n { p with mailbox })
    else
      let r := handleV1 p.session ev
      goOn st n { p with session := r.1, mailbox } r.2

/-- A request of a miner. A share that is forwarded is submitted by the client. -/
def request (env : Env) (st : State) (n : Nat) (p : Party) : RequestV1 → Option State
  | .submit params now =>
    let r := ProxySession.handleSubmit env p.session params now
    let st := st.set n { p with session := r.1 }
    match r.2 with
    | none => some st
    | some f => clientStep st (.submit f.submit f.callback)
  | r =>
    let a := requestV1 env p.session r
    goOn st n { p with session := a.1 } a.2

/-! ## Steps -/

/-- What comes from the pool and the miners, and what runs next. -/
inductive Input where
  | client (i : Sv2UpstreamClient.Input)
  | connectV1
  | requestV1 (n : Nat) (r : RequestV1)
  | advance (n : Nat)
  | deliver (n : Nat)
  | close (n : Nat)
  | destroy (n : Nat)

def onParty (st : State) (n : Nat) (f : Party → Option State) : Option State :=
  match st.parties[n]? with
  | none => some st
  | some p => f p

/-- The state after an input, unless it is undefined. -/
def react (env : Env) (st : State) : Input → Option State
  | .client i => clientStep st i
  | .connectV1 => some { st with parties := st.parties ++ [{}] }
  | .requestV1 n r => onParty st n fun p => request env st n p r
  | .advance n => onParty st n (advance st n)
  | .deliver n => onParty st n (deliver st n)
  | .close n => onParty st n (closeParty st n)
  | .destroy n => clientStep st (.sinkGone n)

/-- What the network and the timers bring to the client, or its own strand. -/
def fromOutside : Sv2UpstreamClient.Input → Bool
  | .start | .stop | .connect | .established | .teardown | .received _ | .runPosted => true
  | _ => false

/-- A session runs one handler at a time, takes requests while it is open, and is
destroyed when it was closed and nothing waits on its strand. -/
def Offered (st : State) : Input → Prop
  | .client i => fromOutside i = true ∧ Sv2UpstreamClient.Offered st.client i
  | .requestV1 n _ => ∀ p ∈ st.parties[n]?, p.phase = .idle ∧ p.session.closed = false
  | .deliver n | .close n => ∀ p ∈ st.parties[n]?, p.phase = .idle
  | .destroy n =>
    ∃ p, st.parties[n]? = some p ∧ p.phase = .idle ∧ p.session.closed = true ∧ p.mailbox = []
  | .connectV1 | .advance _ => True

/-- The runs of a proxy. -/
inductive Run (env : Env) : State → Prop where
  | init (user : Str) (n : UInt8) : Run env { client := initial user n }
  | step {st st' : State} {i : Input} (h : Run env st) (hoffer : Offered st i)
    (hs : react env st i = some st') : Run env st'

/-! ## Runs step by step -/

instance (st : State) (i : Input) : Decidable (Offered st i) :=
  match i with
  | .client _ => inferInstanceAs (Decidable (_ ∧ _))
  | .requestV1 .. => inferInstanceAs (Decidable (∀ p ∈ _, _ ∧ _))
  | .deliver _ | .close _ => inferInstanceAs (Decidable (∀ p ∈ _, _ = _))
  | .destroy n =>
    Proxy.decideSome st.parties[n]? fun p =>
      p.phase = .idle ∧ p.session.closed = true ∧ p.mailbox = []
  | .connectV1 | .advance _ => inferInstanceAs (Decidable True)

/-- The state after some inputs, where each is offered and defined. -/
def reactAll (env : Env) : State → List Input → Option State
  | st, [] => some st
  | st, i :: rest =>
    if Offered st i then (react env st i).bind fun st => reactAll env st rest else none

theorem run_of_reactAll {env : Env} {st st' : State} {inputs : List Input} (hrun : Run env st)
    (h : reactAll env st inputs = some st') : Run env st' := by
  induction inputs generalizing st with
  | nil =>
    cases h
    exact hrun
  | cons i rest ih =>
    unfold reactAll at h
    split at h
    · rename_i hi
      obtain ⟨st₁, hst₁, h⟩ := Option.bind_eq_some_iff.mp h
      exact ih (.step hrun hi hst₁) h
    · cases h

end MkPool.Sv2Proxy
