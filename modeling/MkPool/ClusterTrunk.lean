import MkPool.ClusterIngest

/-! # `cluster_trunk.cpp`: the edge's end of a trunk

What runs on the trunk's strand, and what a downstream session calls. The trunk is
not stopped; back-off and statistics are left out. -/
namespace MkPool.ClusterTrunk
open MkPool.Utils MkPool.JsonValue MkPool.ClusterProtocol

structure Config where
  coin : Str
  token : Str
  nodeRole : Bool

structure State where
  welcomed : Bool := false
  /-- `conn_` is set. -/
  conn : Bool := false
  pendingOut : List Frame := []
  nextCid : Nat := 1
  /-- The keys of `sessions_`. -/
  sessions : Nat → Bool := fun _ => false

inductive Action where
  /-- `conn_->send`. -/
  | send (f : Frame)
  | closeConn
  /-- A new connection is made and started. -/
  | start
  | deliver (cid : Nat) (line : Str)
  | shutdown (cid : Nat)
  /-- `shutdown` of every session that was in the table. -/
  | shutdownAll
  | submitBlock (hex hash : Str) (height : Int)
deriving DecidableEq

abbrev Result := State × List Action

/-! ## What a session calls -/

/-- The first half of `attach`; what it sends comes after. -/
def attach (st : State) : State × Nat :=
  ({ st with
      nextCid := st.nextCid + 1
      sessions := Function.update st.sessions st.nextCid true },
    st.nextCid)

/-- `detach`: whether the table still had the session, and a `close` is to be
sent. -/
def detach (st : State) (cid : Nat) : State × Bool :=
  ({ st with sessions := Function.update st.sessions cid false }, st.sessions cid)

/-- `ClusterEdgeSession::on_line`: the frame it posts; `none` where the frame's
text throws. -/
def clientLine (cid : Nat) (line : Str) : Option (List Frame) :=
  if cid = 0 then some [] else (frameData cid line).map fun _ => [.data cid line]

/-! ## On the strand -/

/-- What `send_frame` posts. -/
def sendFrame (st : State) (f : Frame) : Result :=
  if st.welcomed && st.conn then (st, [.send f])
  else if st.pendingOut.length < 100000 then ({ st with pendingOut := st.pendingOut ++ [f] }, [])
  else (st, [])

def connect (st : State) : Result := ({ st with welcomed := false, conn := true }, [.start])

def role (cfg : Config) : Str := if cfg.nodeRole then "node".toList else "passthrough".toList

def onOpen (cfg : Config) (st : State) : Result :=
  (st, if st.conn then [.send (.hello (role cfg) cfg.coin cfg.token)] else [])

def onClose (st : State) : Result :=
  ({ st with welcomed := false, conn := false, pendingOut := [], sessions := fun _ => false },
    [.shutdownAll])

/-- `on_frame` on `welcome`. -/
def onWelcome (st : State) : Result :=
  ({ st with welcomed := true, pendingOut := [] }, if st.conn then st.pendingOut.map .send else [])

def onData (st : State) (cid : Nat) (line : Str) : Result :=
  (st, if cid ≠ 0 ∧ st.sessions cid then [.deliver cid line] else [])

/-- `on_frame` on `close`. -/
def onCloseFrame (st : State) (cid : Nat) : Result :=
  ({ st with sessions := Function.update st.sessions cid false },
    if st.sessions cid then [.shutdown cid] else [])

/-- `on_frame` behind the parser; `none` where an exception escapes it. -/
def onJson (st : State) (j : Json) : Option Result := do
  let t ← (j.find? "t".toList).bind Json.getString?
  if t = "welcome".toList then return onWelcome st
  else if t = "bye".toList then
    let _ ← j.valueString "msg" "?".toList
    return (st, if st.conn then [.closeConn] else [])
  else if t = "data".toList then
    let cid ← j.valueUInt64 "cid"
    match j.find? "l".toList with
    | some (.string line) => return onData st cid line
    | _ => return (st, [])
  else if t = "close".toList then
    let cid ← j.valueUInt64 "cid"
    return onCloseFrame st cid
  else if t = "block".toList then
    let hex ← j.valueString "hex" []
    let hash ← j.valueString "hash" []
    let height ← j.valueInt64 "height"
    return (st, [.submitBlock hex hash height])
  else if t = "ping".toList then return (st, if st.conn then [.send .pong] else [])
  else return (st, [])

/-! ## The frames of an origin -/

/-- What a frame does to the trunk. -/
def onFrame (st : State) : Frame → Result
  | .welcome => onWelcome st
  | .bye _ => (st, if st.conn then [.closeConn] else [])
  | .data cid line => onData st cid line
  | .close cid => onCloseFrame st cid
  | .block hex hash height => (st, [.submitBlock hex hash height])
  | .ping => (st, if st.conn then [.send .pong] else [])
  | _ => (st, [])

open ClusterIngest (valueUInt64_frame valueString_frame)

/-- A frame that is read back does what the frame does; a block's height is signed. -/
theorem onJson_json (st : State) {f : Frame} (h : ∀ g ∈ f.fields, g.2.Fits)
    (hheight : ∀ hex hash height, f = .block hex hash height → height < 2 ^ 63) :
    onJson st f.json = some (onFrame st f) := by
  have hkind : (f.json.find? "t".toList).bind Json.getString? = some f.kind := by
    rw [f.find_kind]
    rfl
  rw [onJson, hkind]
  cases f with
  | bye msg =>
    have hmsg : (Frame.bye msg).json.valueString "msg" "?".toList = some msg :=
      valueString_frame (by simp [Frame.fields, Frame.body])
    show (((Frame.bye msg).json.valueString "msg" "?".toList).bind fun _ =>
      some (st, if st.conn then [.closeConn] else [])) = some (onFrame st (.bye msg))
    rw [hmsg]
    rfl
  | data cid line =>
    have hcid : (Frame.data cid line).json.valueUInt64 "cid" = some cid :=
      valueUInt64_frame (by simp [Frame.fields, Frame.body])
        (h ("cid".toList, .number cid) (by simp [Frame.fields, Frame.body]))
    have hline : (Frame.data cid line).json.find? "l".toList = some (.string line) :=
      Frame.find_field (v := .text line) (by simp [Frame.fields, Frame.body])
    show (((Frame.data cid line).json.valueUInt64 "cid").bind fun n =>
      match (Frame.data cid line).json.find? "l".toList with
      | some (.string line) => some (onData st n line)
      | _ => some (st, [])) = some (onFrame st (.data cid line))
    rw [hcid, hline]
    rfl
  | close cid =>
    have hcid : (Frame.close cid).json.valueUInt64 "cid" = some cid :=
      valueUInt64_frame (by simp [Frame.fields, Frame.body])
        (h ("cid".toList, .number cid) (by simp [Frame.fields, Frame.body]))
    show (((Frame.close cid).json.valueUInt64 "cid").bind fun n =>
      some (onCloseFrame st n)) = some (onFrame st (.close cid))
    rw [hcid]
    rfl
  | block hex hash height =>
    have hhex : (Frame.block hex hash height).json.valueString "hex" [] = some hex :=
      valueString_frame (by simp [Frame.fields, Frame.body])
    have hhash : (Frame.block hex hash height).json.valueString "hash" [] = some hash :=
      valueString_frame (by simp [Frame.fields, Frame.body])
    have hnumber : (Frame.block hex hash height).json.valueInt64 "height" = some (height : Int) :=
      ClusterIngest.valueInt64_frame (by simp [Frame.fields, Frame.body]) (hheight _ _ _ rfl)
    show (((Frame.block hex hash height).json.valueString "hex" []).bind fun hex' =>
      ((Frame.block hex hash height).json.valueString "hash" []).bind fun hash' =>
        ((Frame.block hex hash height).json.valueInt64 "height").bind fun height' =>
          some (st, [.submitBlock hex' hash' height'])) = some (onFrame st (.block hex hash height))
    rw [hhex, hhash, hnumber]
    rfl
  | _ => rfl

end MkPool.ClusterTrunk
