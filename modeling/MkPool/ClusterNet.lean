import MkPool.ClusterTrunk
import Mathlib.Logic.Function.Basic

/-! # An edge, its origin, and what is between them

The sessions and the trunk of an edge, the connection to the origin, the ingest
session there and its loopback connections. Each party's strand runs what was
posted to it in order; anything else may come between. A frame stands for its
text, which the other end reads back. -/
namespace MkPool.ClusterNet
open MkPool.Utils MkPool.ClusterProtocol MkPool.Lib

/-! ## The parties -/

/-- A downstream session of the edge, once it has a `cid_`. -/
structure Session where
  closed : Bool := false
  /-- What its running handler is about to post to the trunk. -/
  posting : Option Frame := none
  /-- The lines it has read from its miner. -/
  read : List Str := []
  /-- Lines posted to it, and those it has written to its miner. -/
  outbox : List Str := []
  written : List Str := []

/-- A loopback connection at the origin. -/
structure Loopback where
  up : Bool := false
  closed : Bool := false
  /-- The lines it has read from the pool. -/
  read : List Str := []
  outbox : List Str := []
  written : List Str := []

/-- What is posted to the ingest session's strand. -/
inductive IngestTask where
  | write (f : Frame)
  | connected (cid : Nat)
  | loopClosed (cid : Nat)

/-- A connection of the trunk, with the ingest session at its other end. -/
structure Link where
  up : Bool := false
  /-- `closed_` of the edge's connection. -/
  closed : Bool := false
  toOrigin : List Frame := []
  toEdge : List Frame := []
  ingest : ClusterIngest.State := {}
  tasks : List IngestTask := []
  loops : Nat → Option Loopback := fun _ => none

/-- What is posted to the trunk's strand. -/
inductive TrunkTask where
  | opened
  | frame (f : Frame)
  | closed
  | send (f : Frame)

structure State where
  trunk : ClusterTrunk.State := {}
  tasks : List TrunkTask := []
  sessions : Nat → Session := fun _ => {}
  link : Option Link := none

/-! ## What the origin does -/

def Loopback.close (lp : Loopback) : Loopback := { lp with closed := true }

/-- `conn->send`, which drops what comes after the connection is closed. -/
def Loopback.send (lp : Loopback) (line : Str) : Loopback :=
  if lp.closed then lp else { lp with outbox := lp.outbox ++ [line] }

def Link.setLoop (l : Link) (cid : Nat) (f : Loopback → Loopback) : Link :=
  { l with loops := Function.update l.loops cid ((l.loops cid).map f) }

/-- `conn->close`, whose handler posts to the session. -/
def Link.closeLoop (l : Link) (cid : Nat) : Link :=
  match l.loops cid with
  | none => l
  | some lp =>
    if lp.closed then l
    else { l.setLoop cid Loopback.close with tasks := l.tasks ++ [.loopClosed cid] }

/-- After `closeAll` the table is empty, and what the connections post finds
nothing. -/
def Link.act (l : Link) : ClusterIngest.Action → Link
  | .sendLine f => { l with tasks := l.tasks ++ [.write f] }
  | .registerNode => l
  | .start cid => { l with loops := Function.update l.loops cid (some {}) }
  | .send cid line => l.setLoop cid (·.send line)
  | .closeConn cid => l.closeLoop cid
  | .closeAll => { l with loops := fun cid => (l.loops cid).map Loopback.close }

def Link.handle (l : Link) (r : ClusterIngest.Result) : Link :=
  r.2.foldl Link.act { l with ingest := r.1 }

/-- What the ingest session's strand runs. -/
def Link.run (l : Link) : IngestTask → Link
  | .write f => if l.ingest.closed then l else { l with toEdge := l.toEdge ++ [f] }
  | .connected cid => l.handle (ClusterIngest.loopbackConnected l.ingest cid)
  | .loopClosed cid => l.handle (ClusterIngest.closeClient l.ingest cid true)

/-! ## What the edge does -/

def State.setSession (st : State) (cid : Nat) (f : Session → Session) : State :=
  { st with sessions := Function.update st.sessions cid (f (st.sessions cid)) }

/-- `close` of the trunk's connection. -/
def State.closeLink (st : State) : State :=
  match st.link with
  | none => st
  | some l =>
    if l.closed then st
    else { st with link := some { l with closed := true }, tasks := st.tasks ++ [.closed] }

/-- A session that is told to shut down closes at some time; blocks go to a node
of their own. -/
def State.act (st : State) : ClusterTrunk.Action → State
  | .send f =>
    { st with link := st.link.map fun l =>
        if l.closed then l else { l with toOrigin := l.toOrigin ++ [f] } }
  | .closeConn => st.closeLink
  | .start => { st with link := some {} }
  | .deliver cid line =>
    st.setSession cid fun s => { s with outbox := s.outbox ++ [line ++ ['\n']] }
  | .shutdown _ | .shutdownAll | .submitBlock .. => st

def State.handle (st : State) (r : ClusterTrunk.Result) : State :=
  r.2.foldl State.act { st with trunk := r.1 }

/-- What the trunk's strand runs. -/
def State.run (cfg : ClusterTrunk.Config) (st : State) : TrunkTask → State
  | .opened => st.handle (ClusterTrunk.onOpen cfg st.trunk)
  | .frame f => st.handle (ClusterTrunk.onFrame st.trunk f)
  | .closed => { st.handle (ClusterTrunk.onClose st.trunk) with link := none }
  | .send f => st.handle (ClusterTrunk.sendFrame st.trunk f)

/-! ## Steps -/

inductive Event where
  /-- A session opens and attaches; what it posts comes after. -/
  | accept (ip : Str)
  | post (cid : Nat)
  | readLine (cid : Nat) (l : Str)
  /-- A session closes: its socket fails, or it was told to shut down. -/
  | hangUp (cid : Nat)
  | writeLine (cid : Nat)
  | connect
  | linkUp
  | linkDown
  | runTrunk
  | originReads
  | runOrigin
  /-- The ingest session closes by itself. -/
  | originDown
  | edgeReads
  | loopUp (cid : Nat)
  | loopDown (cid : Nat)
  | loopReads (cid : Nat) (l : Str)
  | loopWrites (cid : Nat)

structure Config where
  trunk : ClusterTrunk.Config
  ingest : ClusterIngest.Config

/-- Sessions have the numbers that were given out. -/
def State.born (st : State) (cid : Nat) : Bool := 0 < cid && cid < st.trunk.nextCid

/-- The session is open and none of its handlers is running. -/
def State.ready (st : State) (cid : Nat) : Bool :=
  st.born cid && !(st.sessions cid).closed && (st.sessions cid).posting.isNone

/-- A loopback connection that is up. -/
def Link.loop? (l : Link) (cid : Nat) : Option Loopback :=
  (l.loops cid).filter fun lp => lp.up && !lp.closed

def step (cfg : Config) (st : State) : Event → Option State
  | .accept ip =>
    let (trunk, cid) := ClusterTrunk.attach st.trunk
    (frameOpen cid ip).map fun _ =>
      { (st.setSession cid fun _ => { posting := some (.openMiner cid ip) }) with trunk }
  | .post cid =>
    (st.sessions cid).posting.map fun f =>
      { (st.setSession cid fun s => { s with posting := none }) with
        tasks := st.tasks ++ [.send f] }
  | .readLine cid l =>
    if st.ready cid && l ≠ [] then
      (ClusterTrunk.clientLine cid l).map fun fs =>
        { (st.setSession cid fun s => { s with read := s.read ++ [l] }) with
          tasks := st.tasks ++ fs.map .send }
    else none
  | .hangUp cid =>
    if st.ready cid then
      let (trunk, had) := ClusterTrunk.detach st.trunk cid
      let posting := if had then some (Frame.close cid) else none
      some { (st.setSession cid fun s => { s with closed := true, posting }) with trunk }
    else none
  | .writeLine cid =>
    match (st.sessions cid).outbox with
    | [] => none
    | m :: rest =>
      if (st.sessions cid).closed then none
      else some (st.setSession cid fun s => { s with outbox := rest, written := s.written ++ [m] })
  | .connect =>
    if st.trunk.conn then none else some (st.handle (ClusterTrunk.connect st.trunk))
  | .linkUp => do
    let l ← st.link
    if l.up || l.closed then none
    else some { st with link := some { l with up := true }, tasks := st.tasks ++ [.opened] }
  | .linkDown => st.link.bind fun l => if l.closed then none else some st.closeLink
  | .runTrunk =>
    match st.tasks with
    | [] => none
    | t :: rest => some (State.run cfg.trunk { st with tasks := rest } t)
  | .originReads => do
    let l ← st.link
    if !l.up || l.ingest.closed then none
    else
      match l.toOrigin with
      | [] => none
      | f :: rest =>
        let r := ClusterIngest.handleFrame cfg.ingest l.ingest f
        some { st with link := some (Link.handle { l with toOrigin := rest } r) }
  | .runOrigin => do
    let l ← st.link
    match l.tasks with
    | [] => none
    | t :: rest => some { st with link := some (Link.run { l with tasks := rest } t) }
  | .originDown => st.link.map fun l => { st with link := some (l.handle l.ingest.close) }
  | .edgeReads => do
    let l ← st.link
    if !l.up || l.closed then none
    else
      match l.toEdge with
      | [] => none
      | f :: rest =>
        some { st with link := some { l with toEdge := rest }, tasks := st.tasks ++ [.frame f] }
  | .loopUp cid => do
    let l ← st.link
    let lp ← l.loops cid
    if lp.up || lp.closed then none
    else
      let l := { (l.setLoop cid fun lp => { lp with up := true }) with
        tasks := l.tasks ++ [.connected cid] }
      some { st with link := some l }
  | .loopDown cid => do
    let l ← st.link
    let lp ← l.loops cid
    if lp.closed then none else some { st with link := some (l.closeLoop cid) }
  | .loopReads cid line => do
    let l ← st.link
    let _ ← l.loop? cid
    let _ ← frameData cid line
    if line = [] then none
    else
      let l := { (l.setLoop cid fun lp => { lp with read := lp.read ++ [line] }) with
        tasks := l.tasks ++ [.write (.data cid line)] }
      some { st with link := some l }
  | .loopWrites cid => do
    let l ← st.link
    let lp ← l.loop? cid
    match lp.outbox with
    | [] => none
    | m :: rest =>
      let l := l.setLoop cid fun lp => { lp with outbox := rest, written := lp.written ++ [m] }
      some { st with link := some l }

/-- What a run reaches, each step under a condition on the state before it. -/
inductive Run (cfg : Config) (ok : State → Event → Prop) : State → Prop where
  | start : Run cfg ok {}
  | step {st st' : State} {e : Event} : Run cfg ok st → ok st e → step cfg st e = some st' →
    Run cfg ok st'

end MkPool.ClusterNet
