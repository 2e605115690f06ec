import MkPool.ClusterNet

/-! # What the trunk holds for one miner

The steps of the net as moves of what concerns one session: its frames on the way
to the origin, its client there, and its frames on the way back. -/
namespace MkPool.ClusterMiner
open MkPool.Utils MkPool.ClusterProtocol MkPool.ClusterNet

/-- The frame concerns the session. -/
def about (cid : Nat) : Frame → Bool
  | .openMiner c _ | .data c _ | .close c => c = cid
  | _ => false

/-- The frame is the session's first. -/
def opens (cid : Nat) : Frame → Bool
  | .openMiner c _ => c = cid
  | _ => false

/-- What the origin holds for a session, and the frames on the way back. -/
structure Remote where
  client : Option ClusterIngest.Client := none
  loop : Option Loopback := none
  back : List Frame := []

structure Miner where
  born : Bool := false
  /-- The trunk's table has the session. -/
  inTable : Bool := false
  closed : Bool := false
  read : List Str := []
  outbox : List Str := []
  written : List Str := []
  /-- Its frames on the way to the origin. -/
  up : List Frame := []
  remote : Remote := {}

/-! ## Moves -/

def sendAll (lines : List Str) (lp : Loopback) : Loopback := lines.foldl Loopback.send lp

/-- The origin's session, its strand and the loopback connection at work. -/
inductive RemoteMove (cid : Nat) : Remote → Remote → Prop where
  | stay (r : Remote) : RemoteMove cid r r
  /-- The ingest session closes. -/
  | shut {r : Remote} {back : List Frame} : back <+: r.back →
    RemoteMove cid r ⟨none, r.loop.map Loopback.close, back⟩
  | connected {r : Remote} {c : ClusterIngest.Client} : r.client = some c →
    RemoteMove cid r ⟨some ⟨true, []⟩, r.loop.map (sendAll c.pending), r.back⟩
  /-- The loopback connection closed, and the edge may be told. -/
  | gone {r : Remote} {told : List Frame} : r.client.isSome → (told = [] ∨ told = [.close cid]) →
    RemoteMove cid r ⟨none, r.loop.map Loopback.close, r.back ++ told⟩
  | loopUp {r : Remote} {lp : Loopback} : r.loop = some lp →
    RemoteMove cid r { r with loop := some { lp with up := true } }
  | loopDown {r : Remote} {lp : Loopback} : r.loop = some lp →
    RemoteMove cid r { r with loop := some lp.close }
  | loopReads {r : Remote} {lp : Loopback} {line : Str} : r.loop = some lp → lp.closed = false →
    RemoteMove cid r
      ⟨r.client, some { lp with read := lp.read ++ [line] }, r.back ++ [.data cid line]⟩
  | loopWrites {r : Remote} {lp : Loopback} {m : Str} {rest : List Str} : r.loop = some lp →
    lp.closed = false → lp.outbox = m :: rest →
    RemoteMove cid r { r with loop := some { lp with outbox := rest, written := lp.written ++ [m] } }

/-- What a run may do to what it carries. -/
structure Rules where
  /-- A frame that a full trunk discards, behind the session's frames before it. -/
  discards : List Frame → Frame → Prop
  /-- A trunk that is lost drops a session whose first frame it has not handled. -/
  strands : Prop
  /-- A client's buffer is full. -/
  overflows : Prop

/-- A frame of the session at the origin. -/
inductive Consumes (R : Rules) (cid : Nat) : Frame → Remote → Remote → Prop where
  | opens {ip : Str} {r : Remote} : r.client = none →
    Consumes R cid (.openMiner cid ip) r ⟨some {}, some {}, r.back⟩
  | reopens {ip : Str} {r : Remote} : r.client.isSome → Consumes R cid (.openMiner cid ip) r r
  | sends {line : Str} {r : Remote} {c : ClusterIngest.Client} : r.client = some c →
    c.connected = true → Consumes R cid (.data cid line) r
      { r with loop := r.loop.map (·.send (line ++ ['\n'])) }
  | keeps {line : Str} {r : Remote} {c : ClusterIngest.Client} : r.client = some c →
    c.connected = false → Consumes R cid (.data cid line) r
      { r with client := some { c with pending := c.pending ++ [line ++ ['\n']] } }
  | overflows {line : Str} {r : Remote} : R.overflows → Consumes R cid (.data cid line) r r
  | closes {r : Remote} : r.client.isSome →
    Consumes R cid (.close cid) r ⟨none, r.loop.map Loopback.close, r.back⟩
  /-- A frame of a client that is not there. -/
  | unknown {f : Frame} {r : Remote} : r.client = none → (∀ ip, f ≠ .openMiner cid ip) →
    Consumes R cid f r r

inductive Move (R : Rules) (cid : Nat) : Miner → Miner → Prop where
  | stay (v : Miner) : Move R cid v v
  | attach (ip : Str) :
    Move R cid {} { born := true, inTable := true, up := [.openMiner cid ip] }
  | line {v : Miner} (l : Str) : v.born = true → v.closed = false →
    Move R cid v { v with up := v.up ++ [.data cid l], read := v.read ++ [l] }
  | hangUp {v : Miner} : v.born = true → v.closed = false →
    Move R cid v { v with
      closed := true
      inTable := false
      up := v.up ++ if v.inTable then [.close cid] else [] }
  | write {v : Miner} {m : Str} {rest : List Str} : v.outbox = m :: rest →
    Move R cid v { v with outbox := rest, written := v.written ++ [m] }
  /-- The connection closes. -/
  | lose {v : Miner} {up back : List Frame} : up <:+ v.up → back <+: v.remote.back →
    Move R cid v { v with up, remote := ⟨none, none, back⟩ }
  /-- The trunk handles the loss. -/
  | forget {v : Miner} {up back : List Frame} : up <:+ v.up → back <+: v.remote.back →
    (R.strands ∨ (v.inTable = true → ∀ ip, Frame.openMiner cid ip ∉ up)) →
    Move R cid v { v with up, inTable := false, remote := ⟨none, none, back⟩ }
  /-- Frames go to a connection that is closed. -/
  | skip {v : Miner} {up : List Frame} : up <:+ v.up → v.remote.client = none →
    v.remote.loop = none → Move R cid v { v with up }
  /-- A trunk that is not welcomed is full. -/
  | discard {v : Miner} {before after : List Frame} {f : Frame} : v.up = before ++ f :: after →
    v.remote.client = none → about cid f = true → R.discards before f →
    Move R cid v { v with up := before ++ after }
  | delivered {v : Miner} {l : Str} {rest : List Frame} : v.remote.back = .data cid l :: rest →
    Move R cid v { v with
      outbox := if v.inTable then v.outbox ++ [l ++ ['\n']] else v.outbox
      remote := { v.remote with back := rest } }
  | dismissed {v : Miner} {rest : List Frame} : v.remote.back = .close cid :: rest →
    Move R cid v { v with inTable := false, remote := { v.remote with back := rest } }
  | ignored {v : Miner} {ip : Str} {rest : List Frame} :
    v.remote.back = .openMiner cid ip :: rest →
    Move R cid v { v with remote := { v.remote with back := rest } }
  | consume {v : Miner} {f : Frame} {rest : List Frame} {r : Remote} : v.up = f :: rest →
    Consumes R cid f v.remote r → Move R cid v { v with up := rest, remote := r }
  /-- The ingest session refuses a frame and closes. -/
  | refuse {v : Miner} {up back : List Frame} : up <:+ v.up → back <+: v.remote.back →
    Move R cid v { v with up, remote := ⟨none, v.remote.loop.map Loopback.close, back⟩ }
  | remote {v : Miner} {r : Remote} : RemoteMove cid v.remote r → Move R cid v { v with remote := r }

/-! ## What the net holds for a session -/

/-- The frames posted to the trunk that are to be sent. -/
def posted (tasks : List TrunkTask) : List Frame :=
  tasks.filterMap fun
    | .send f => some f
    | _ => none

/-- The frames posted to the trunk that have arrived. -/
def arrived (tasks : List TrunkTask) : List Frame :=
  tasks.filterMap fun
    | .frame f => some f
    | _ => none

/-- The frames posted to the ingest session that are to be written. -/
def writes (tasks : List IngestTask) : List Frame :=
  tasks.filterMap fun
    | .write f => some f
    | _ => none

/-- The frames that come back over the connection. -/
def returning (l : Link) : List Frame := l.toEdge ++ if l.ingest.closed then [] else writes l.tasks

def linkRemote (l : Link) (cid : Nat) (before : List Frame) : Remote :=
  ⟨l.ingest.clients cid, l.loops cid, (before ++ returning l).filter (about cid)⟩

/-- The connection, as long as the edge has not closed it. -/
def live (st : State) : Option Link := st.link.filter fun l => !l.closed

def wire (st : State) : List Frame :=
  match live st with
  | some l => l.toOrigin
  | none => []

def remote (st : State) (cid : Nat) : Remote :=
  match live st with
  | some l => linkRemote l cid (arrived st.tasks)
  | none => ⟨none, none, (arrived st.tasks).filter (about cid)⟩

def miner (st : State) (cid : Nat) : Miner where
  born := st.born cid
  inTable := st.trunk.sessions cid
  closed := (st.sessions cid).closed
  read := (st.sessions cid).read
  outbox := (st.sessions cid).outbox
  written := (st.sessions cid).written
  up := (wire st ++ st.trunk.pendingOut ++ posted st.tasks).filter (about cid) ++
    (st.sessions cid).posting.toList
  remote := remote st cid

end MkPool.ClusterMiner
