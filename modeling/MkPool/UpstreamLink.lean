import MkPool.UpstreamSource
import MkPool.JsonValue

/-! # `upstream_client.cpp`: connections, requests and verdicts of a V1 upstream

A link has one connection at a time. The connection and the client run on one
thread: a step is one handler, and what a handler posts waits in order. What the
messages do to the slots is `UpstreamClient`. Times are milliseconds. -/
namespace MkPool.UpstreamLink
open MkPool.Utils MkPool.JsonValue MkPool.UpstreamSource

/-! ## State -/

/-- A line to an upstream. -/
inductive Line where
  | configure (id : Nat) (mask : UInt32)
  | subscribe (id : Nat)
  | authorize (id : Nat) (user pass : Str)
  | submit (id : Nat) (user : Str) (s : UpstreamSubmit)
deriving DecidableEq

/-- `UpstreamConn`. `posted` are the lines of `send` whose handler has not run.
Not in the source: `established` is set when the connect is done, `authorized`
when the authorize on this connection succeeded; `begun` are the lines whose
write was begun, with both as they were then. -/
structure Conn where
  gen : Nat
  closed : Bool := false
  queue : List Line := []
  writing : Bool := false
  posted : List Line := []
  established : Bool := false
  authorized : Bool := false
  begun : List (Line × Bool × Bool) := []

/-- `PendingSubmit`, with its id. Callbacks are numbered. -/
structure PendingSubmit where
  id : Nat
  cb : Option Nat
  ts : Nat

/-- `Link`, without its slots. `timer` is set while the reconnect timer runs.
Not in the source: `timedOut` counts the submits that were given up. -/
structure Link where
  user : Str
  pass : Str
  conn : Option Conn := none
  connGen : Nat := 0
  timer : Bool := false
  lastRx : Nat := 0
  nextId : Nat := 1
  idConfigure : Nat := 0
  idSubscribe : Nat := 0
  idAuthorize : Nat := 0
  pending : List PendingSubmit := []
  connected : Bool := false
  authorized : Bool := false
  subscribed : Bool := false
  statForwarded : Nat := 0
  statAccepted : Nat := 0
  statRejected : Nat := 0
  statReconnects : Nat := 0
  timedOut : Nat := 0

/-- A handler that waits on the client's strand. A line that is no JSON is
`none`. -/
inductive Post where
  | startAll
  | stopAll
  | opened (i gen : Nat)
  | closed (i gen : Nat)
  | line (i gen : Nat) (msg : Option Json)
  | submit (linkId : Nat) (s : UpstreamSubmit) (cb : Option Nat)

/-- `UpstreamClient`, with the settings that are read here. Not in the source:
`callbacks` counts the callbacks it was handed. -/
structure Client where
  enableVersionRolling : Bool
  versionRollingMask : UInt32
  idleTimeoutSeconds : Nat
  running : Bool := false
  links : List Link
  posts : List Post := []
  callbacks : Nat := 0

/-- A callback that is called. -/
structure Verdict where
  cb : Nat
  accepted : Bool
  err : Str
deriving DecidableEq

/-- What a handler does to a link, posts and answers. -/
structure Effect where
  link : Link
  posts : List Post := []
  verdicts : List Verdict := []

def answer (cb : Option Nat) (accepted : Bool) (err : Str) : List Verdict :=
  cb.toList.map fun n => { cb := n, accepted, err }

/-! ## The connection -/

/-- `do_write`. -/
def Conn.doWrite (k : Conn) : Conn :=
  match k.queue with
  | [] => { k with writing := false }
  | line :: _ =>
    if k.closed then { k with writing := false }
    else { k with begun := k.begun ++ [(line, k.established, k.authorized)] }

def Conn.send (k : Conn) (line : Line) : Conn := { k with posted := k.posted ++ [line] }

/-- The handler that `send` posts. -/
def Conn.runSend (k : Conn) : Conn :=
  match k.posted with
  | [] => k
  | line :: posted =>
    if k.closed then { k with posted }
    else
      let k := { k with posted, queue := k.queue ++ [line] }
      if k.writing then k else { k with writing := true }.doWrite

/-- `close`, and whether it was the first. -/
def Conn.close (k : Conn) : Conn := { k with closed := true }

/-- The handler of a write that succeeded. -/
def Conn.written (k : Conn) : Conn :=
  if k.closed || k.queue.isEmpty then { k with writing := false }
  else
    let k := { k with queue := k.queue.tail }
    if k.queue.isEmpty then { k with writing := false } else k.doWrite

theorem Conn.doWrite_same (k : Conn) :
    k.doWrite.closed = k.closed ∧ k.doWrite.gen = k.gen ∧ k.doWrite.authorized = k.authorized := by
  unfold Conn.doWrite
  split
  · exact ⟨rfl, rfl, rfl⟩
  · split <;> exact ⟨rfl, rfl, rfl⟩

theorem Conn.runSend_same (k : Conn) :
    k.runSend.closed = k.closed ∧ k.runSend.gen = k.gen ∧ k.runSend.authorized = k.authorized := by
  unfold Conn.runSend
  split
  · exact ⟨rfl, rfl, rfl⟩
  · split
    · exact ⟨rfl, rfl, rfl⟩
    · dsimp only
      split
      · exact ⟨rfl, rfl, rfl⟩
      · exact doWrite_same _

theorem Conn.written_same (k : Conn) :
    k.written.closed = k.closed ∧ k.written.gen = k.gen ∧ k.written.authorized = k.authorized := by
  unfold Conn.written
  split
  · exact ⟨rfl, rfl, rfl⟩
  · dsimp only
    split
    · exact ⟨rfl, rfl, rfl⟩
    · exact doWrite_same _

/-- `L.conn->close(…)`, which posts `on_conn_close` the first time. -/
def closeConn (i : Nat) (l : Link) : Effect :=
  match l.conn with
  | some k =>
    if k.closed then { link := l }
    else { link := { l with conn := some k.close }, posts := [.closed i k.gen] }
  | none => { link := l }

/-- The connection of a link is not there, or closed. -/
def Link.isDown (l : Link) : Bool := l.conn.all Conn.closed

theorem isDown_of_closed {l : Link} {k : Conn} (hconn : l.conn = some k) :
    Link.isDown l = k.closed := by
  unfold Link.isDown
  rw [hconn]
  rfl

/-- What a close does to a link. -/
theorem closeConn_cases (i : Nat) (l : Link) :
    (Link.isDown l = true ∧ closeConn i l = { link := l }) ∨
      ∃ k, l.conn = some k ∧ k.closed = false ∧
        closeConn i l = { link := { l with conn := some k.close }, posts := [.closed i k.gen] } := by
  unfold closeConn
  cases hconn : l.conn with
  | none => exact .inl ⟨by unfold Link.isDown; rw [hconn]; rfl, rfl⟩
  | some k =>
    cases hclosed : k.closed with
    | true => exact .inl ⟨by rw [isDown_of_closed hconn, hclosed], by simp [hclosed]⟩
    | false => exact .inr ⟨k, rfl, hclosed, by simp [hclosed]⟩

def Link.send (l : Link) (line : Line) : Link := { l with conn := l.conn.map fun k => k.send line }

/-! ## Connecting -/

/-- `connect_link`, while the client runs. -/
def connectLink (now : Nat) (l : Link) : Effect where
  link :=
    { l with
      connected := false, authorized := false, subscribed := false
      idConfigure := 0, idSubscribe := 0, idAuthorize := 0
      pending := []
      lastRx := now
      connGen := l.connGen + 1
      conn := some { gen := l.connGen + 1 } }

def sendConfigure (c : Client) (l : Link) : Link :=
  if c.enableVersionRolling then
    { l with idConfigure := l.nextId, nextId := l.nextId + 1 }.send
      (.configure l.nextId c.versionRollingMask)
  else l

def sendSubscribe (l : Link) : Link :=
  { l with idSubscribe := l.nextId, nextId := l.nextId + 1 }.send (.subscribe l.nextId)

def sendAuthorize (l : Link) : Link :=
  { l with idAuthorize := l.nextId, nextId := l.nextId + 1 }.send
    (.authorize l.nextId l.user l.pass)

/-- `on_conn_open`. -/
def onConnOpen (c : Client) (now : Nat) (l : Link) : Effect where
  link := sendAuthorize (sendSubscribe (sendConfigure c { l with connected := true, lastRx := now }))

/-- `on_conn_close`: the timer of a reconnect is set while the client runs. -/
def onConnClose (c : Client) (l : Link) : Effect where
  link :=
    { l with
      connected := false, authorized := false, subscribed := false
      statReconnects := l.statReconnects + 1
      timer := c.running || l.timer }

/-! ## Lines from the upstream -/

/-- The id of a result, as an unsigned number. -/
def resultId (msg : Json) : Option Nat :=
  match msg.find? "id".toList with
  | some (.unsigned n) => some n
  | some (.integer i) => some (i % 2 ^ 64).toNat
  | _ => none

def resultTrue (msg : Json) : Bool :=
  match msg.find? "result".toList with
  | some (.bool b) => b
  | _ => false

def errNull (msg : Json) : Bool :=
  match msg.find? "error".toList with
  | some .null | none => true
  | _ => false

/-- The result of a subscribe can be read. -/
def goodSubscribe (msg : Json) : Bool :=
  match msg.arrayAt? "result".toList with
  | some r => 3 ≤ r.length
  | none => false

/-- The first pending submit with an id. -/
def Link.pendingFor (l : Link) (id : Nat) : Option PendingSubmit :=
  l.pending.find? fun p => p.id = id

/-- The branch of `handle_result` for the result of a share. -/
def shareResult (l : Link) (id : Nat) (msg : Json) : Effect :=
  match l.pendingFor id with
  | none => { link := l }
  | some p =>
    let accepted := errNull msg && resultTrue msg
    { link :=
        { l with
          statAccepted := if accepted then l.statAccepted + 1 else l.statAccepted
          statRejected := if accepted then l.statRejected else l.statRejected + 1
          pending := l.pending.eraseP fun p => p.id = id }
      verdicts := answer p.cb accepted [] }

/-- `handle_result`. The text of a rejection is left out. -/
def handleResult (i : Nat) (l : Link) (msg : Json) : Effect :=
  match resultId msg with
  | none => { link := l }
  | some id =>
    if id = l.idConfigure ∧ l.idConfigure ≠ 0 then { link := l }
    else if id = l.idSubscribe ∧ l.idSubscribe ≠ 0 then
      if goodSubscribe msg then { link := { l with subscribed := true } } else closeConn i l
    else if id = l.idAuthorize ∧ l.idAuthorize ≠ 0 then
      if resultTrue msg then
        { link :=
            { l with
              authorized := true
              conn := l.conn.map fun k => { k with authorized := true } } }
      else closeConn i l
    else shareResult l id msg

/-- `handle_method`, of which only the reconnect concerns the connection. -/
def handleMethod (i : Nat) (l : Link) (method : Str) : Effect :=
  if method = "client.reconnect".toList then closeConn i l else { link := l }

/-- `on_line`. -/
def onLine (i now : Nat) (l : Link) (msg : Option Json) : Effect :=
  let l := { l with lastRx := now }
  match msg with
  | some msg =>
    if msg.isObject then
      match msg.find? "method".toList with
      | some (.string method) => handleMethod i l method
      | _ => if (msg.find? "id".toList).isSome then handleResult i l msg else { link := l }
    else { link := l }
  | none => { link := l }

/-! ## Submits and the watchdog -/

/-- The handler that `submit` posts, on its link. -/
def runSubmit (now : Nat) (s : UpstreamSubmit) (cb : Option Nat) (l : Link) : Effect :=
  if l.conn.all Conn.closed then
    { link :=
        { l with statForwarded := l.statForwarded + 1, statRejected := l.statRejected + 1 }
      verdicts := answer cb false "upstream down".toList }
  else
    { link :=
        { l with
          statForwarded := l.statForwarded + 1
          nextId := l.nextId + 1
          pending := { id := l.nextId, cb, ts := now } :: l.pending }.send
          (.submit l.nextId l.user s) }

/-- More than 30 whole seconds have gone since a submit. -/
def expired (now : Nat) (p : PendingSubmit) : Bool := 30 < (now - p.ts) / 1000

/-- The link is up, and nothing came for longer than the timeout. -/
def idle (c : Client) (now : Nat) (l : Link) : Bool :=
  let timeout := if 0 < c.idleTimeoutSeconds then c.idleTimeoutSeconds else 90
  l.connected && l.conn.isSome && timeout < (now - l.lastRx) / 1000

/-- Expired submits are given up. -/
def expirePending (now : Nat) (l : Link) : Effect where
  link :=
    { l with
      pending := l.pending.filter fun p => !expired now p
      timedOut := l.timedOut + (l.pending.filter (expired now)).length }
  verdicts := (l.pending.filter (expired now)).flatMap fun p => answer p.cb false "timeout".toList

/-- The watchdog at one link. -/
def watchLink (c : Client) (now i : Nat) (l : Link) : Effect :=
  let closing := if idle c now l then closeConn i l else { link := l }
  let rest := expirePending now closing.link
  { rest with posts := closing.posts }

/-- `stop` at one link. -/
def stopLink (i : Nat) (l : Link) : Effect :=
  let closing := closeConn i l
  { closing with link := { closing.link with timer := false, conn := none } }

/-! ## Steps -/

/-- A handler at link `i`. -/
def onLink (c : Client) (i : Nat) (f : Link → Effect) : Client × List Verdict :=
  match c.links[i]? with
  | none => (c, [])
  | some l =>
    ({ c with links := c.links.set i (f l).link, posts := c.posts ++ (f l).posts },
      (f l).verdicts)

/-- A handler that goes through some links. -/
def onLinks (f : Client → Nat → Link → Effect) : Client → List Nat → Client × List Verdict
  | c, [] => (c, [])
  | c, i :: rest =>
    let r := onLink c i (f c i)
    let r' := onLinks f r.1 rest
    (r'.1, r.2 ++ r'.2)

def onAll (c : Client) (f : Client → Nat → Link → Effect) : Client × List Verdict :=
  onLinks f c (List.range c.links.length)

/-- The connection of link `i` is of the generation, for which a handler was
posted. -/
def whenCurrent (gen : Nat) (f : Link → Effect) (l : Link) : Effect :=
  if l.connGen = gen then f l else { link := l }

/-- `connect_link`. -/
def connectWhileRunning (now : Nat) (c : Client) (l : Link) : Effect :=
  if c.running then connectLink now l else { link := l }

/-- A handler of the client's strand. -/
def runPost (c : Client) (now : Nat) : Post → Client × List Verdict
  | .startAll => onAll c fun c _ l => connectWhileRunning now c l
  | .stopAll => onAll c fun _ i l => stopLink i l
  | .opened i gen => onLink c i (whenCurrent gen (onConnOpen c now))
  | .closed i gen => onLink c i (whenCurrent gen (onConnClose c))
  | .line i gen msg => onLink c i (whenCurrent gen fun l => onLine i now l msg)
  | .submit linkId s cb =>
    if linkId < c.links.length then onLink c linkId (runSubmit now s cb)
    else (c, answer cb false "bad link".toList)

/-- What comes from the network, the timers, the sessions and the pool. -/
inductive Input where
  | stop
  | submit (linkId : Nat) (s : UpstreamSubmit) (cb : Bool)
  | runStrand (now : Nat)
  | timerFires (i now : Nat)
  | watchdog (now : Nat)
  | connEstablished (i : Nat)
  | connLost (i : Nat)
  | lineRead (i : Nat) (msg : Option Json)
  | runSend (i : Nat)
  | writeDone (i : Nat) (ok : Bool)

def onConn (l : Link) (f : Conn → Conn) : Effect where
  link := { l with conn := l.conn.map f }

/-- The connect, with the handshake of TLS, is done. -/
def establish (i : Nat) (l : Link) : Effect :=
  match l.conn with
  | some k =>
    { link := { l with conn := some { k with established := true } }, posts := [.opened i k.gen] }
  | none => { link := l }

def readLine (i : Nat) (msg : Option Json) (l : Link) : Effect :=
  match l.conn with
  | some k => { link := l, posts := [.line i k.gen msg] }
  | none => { link := l }

/-- The handler of a write. -/
def writeDone (i : Nat) (ok : Bool) (l : Link) : Effect :=
  if ok then onConn l Conn.written
  else closeConn i { l with conn := l.conn.map fun k => { k with writing := false } }

/-- The timer of link `i` is over. -/
def timerOver (now : Nat) (c : Client) (l : Link) : Effect :=
  connectWhileRunning now c { l with timer := false }

def react (c : Client) : Input → Client × List Verdict
  | .stop => ({ c with running := false, posts := c.posts ++ [.stopAll] }, [])
  | .submit linkId s cb =>
    let n := if cb then some c.callbacks else none
    ({ c with
        posts := c.posts ++ [.submit linkId s n]
        callbacks := if cb then c.callbacks + 1 else c.callbacks }, [])
  | .runStrand now =>
    match c.posts with
    | [] => (c, [])
    | p :: posts => runPost { c with posts } now p
  | .timerFires i now => onLink c i (timerOver now c)
  | .watchdog now => if c.running then onAll c fun c i l => watchLink c now i l else (c, [])
  | .connEstablished i => onLink c i (establish i)
  | .connLost i => onLink c i (closeConn i)
  | .lineRead i msg => onLink c i (readLine i msg)
  | .runSend i => onLink c i fun l => onConn l Conn.runSend
  | .writeDone i ok => onLink c i (writeDone i ok)

/-- A connection is established once and not after it was closed, is read while
it is up, and a write ends that was begun. A timer fires that was set. -/
def Offered (c : Client) : Input → Prop
  | .timerFires i _ => ∀ l ∈ c.links[i]?, l.timer = true
  | .connEstablished i =>
    ∀ l ∈ c.links[i]?, ∀ k ∈ l.conn, k.closed = false ∧ k.established = false
  | .lineRead i _ => ∀ l ∈ c.links[i]?, ∀ k ∈ l.conn, k.closed = false ∧ k.established = true
  | .writeDone i _ => ∀ l ∈ c.links[i]?, ∀ k ∈ l.conn, k.writing = true
  | _ => True

/-- A client that was constructed, its links sorted, and started. -/
def initial (enableVersionRolling : Bool) (versionRollingMask : UInt32) (idleTimeoutSeconds : Nat)
    (endpoints : List (Str × Str)) : Client where
  enableVersionRolling
  versionRollingMask
  idleTimeoutSeconds
  running := true
  posts := [.startAll]
  links := endpoints.map fun e => { user := e.1, pass := e.2 }

/-- The runs of a client whose steps meet a condition, with all verdicts. -/
inductive Run (ok : Client → Input → Prop) : List Verdict → Client → Prop where
  | init (rolling : Bool) (mask : UInt32) (timeout : Nat) (endpoints : List (Str × Str)) :
    Run ok [] (initial rolling mask timeout endpoints)
  | step {verdicts : List Verdict} {c : Client} {i : Input} (h : Run ok verdicts c)
    (hoffer : Offered c i) (hok : ok c i) :
    Run ok (verdicts ++ (react c i).2) (react c i).1

/-! ## Runs step by step -/

instance (c : Client) (i : Input) : Decidable (Offered c i) := by
  unfold Offered
  split <;> infer_instance

/-- The verdicts and the state after some inputs, where each is offered and
passes a test. -/
def reactAll (check : Client → Input → Bool) :
    List Verdict × Client → List Input → Option (List Verdict × Client)
  | st, [] => some st
  | (verdicts, c), i :: rest =>
    if Offered c i ∧ check c i = true then
      reactAll check (verdicts ++ (react c i).2, (react c i).1) rest
    else none

theorem run_of_reactAll {ok : Client → Input → Prop} {check : Client → Input → Bool}
    (hcheck : ∀ c i, check c i = true → ok c i) {st st' : List Verdict × Client}
    {inputs : List Input} (hrun : Run ok st.1 st.2) (h : reactAll check st inputs = some st') :
    Run ok st'.1 st'.2 := by
  induction inputs generalizing st with
  | nil =>
    cases h
    exact hrun
  | cons i rest ih =>
    unfold reactAll at h
    split at h
    · rename_i hi
      exact ih (.step hrun hi.1 (hcheck _ i hi.2)) h
    · cases h

/-- A run of a client that ends in a state of some kind. -/
theorem exists_run {ok : Client → Input → Prop} (check : Client → Input → Bool)
    (hcheck : ∀ c i, check c i = true → ok c i) (rolling : Bool) (endpoints : List (Str × Str))
    (inputs : List Input) (kind : List Verdict → Client → Bool)
    (h : (reactAll check ([], initial rolling 0x1fffe000 90 endpoints) inputs).any
      (fun st => kind st.1 st.2) = true) :
    ∃ verdicts c, Run ok verdicts c ∧ kind verdicts c = true := by
  obtain ⟨st, hst, hkind⟩ := (Option.any_eq_true _ _).mp h
  have hstart : Run ok [] (initial rolling 0x1fffe000 90 endpoints) :=
    .init rolling 0x1fffe000 90 endpoints
  have hrun : Run ok st.1 st.2 := run_of_reactAll hcheck hstart hst
  exact ⟨st.1, st.2, hrun, hkind⟩

/-- The first link of a client that was started is connected. -/
def connects : List Input := [.runStrand 0, .connEstablished 0, .runStrand 0]

end MkPool.UpstreamLink
