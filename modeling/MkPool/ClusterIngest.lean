import MkPool.ClusterProtocol

/-! # `cluster_ingest.cpp`: the origin's end of a trunk

A session reads frames and bridges each miner the edge announces to a loopback
connection of its own. What runs on the session's strand is a function of its
state; what it does to others is a list of actions. -/
namespace MkPool.ClusterIngest
open MkPool.Utils MkPool.JsonValue MkPool.ClusterProtocol

/-- What the coin's configuration says of its trunks. -/
structure Config where
  coin : Str
  token : Str
  /-- `block_relay_` is there. -/
  blockRelay : Bool

/-- A downstream miner behind its loopback connection. -/
structure Client where
  connected : Bool := false
  pending : List Str := []
deriving DecidableEq

structure State where
  helloOk : Bool := false
  isNode : Bool := false
  closed : Bool := false
  clients : Nat → Option Client := fun _ => none

inductive Action where
  /-- `send_line`, which posts to the session's strand. -/
  | sendLine (f : Frame)
  | registerNode
  /-- A loopback connection is made and started. -/
  | start (cid : Nat)
  /-- `conn->send`. -/
  | send (cid : Nat) (line : Str)
  /-- `conn->close`. -/
  | closeConn (cid : Nat)
  /-- `conn->close` of every client. -/
  | closeAll
deriving DecidableEq

abbrev Result := State × List Action

/-- `close`, with `on_closed`. -/
def State.close (st : State) : Result :=
  if st.closed then (st, []) else ({ st with closed := true, clients := fun _ => none }, [.closeAll])

/-- A rejection: what is sent is posted, and the session closes before it runs. -/
def State.reject (st : State) (msg : Str) : Result :=
  let (st, actions) := st.close
  (st, .sendLine (.bye msg) :: actions)

def openClient (st : State) (cid : Nat) : Result :=
  if (st.clients cid).isSome then (st, [])
  else ({ st with clients := Function.update st.clients cid (some {}) }, [.start cid])

def loopbackConnected (st : State) (cid : Nat) : Result :=
  match st.clients cid with
  | none => (st, [])
  | some c =>
    ({ st with clients := Function.update st.clients cid (some ⟨true, []⟩) },
      c.pending.map (.send cid))

def clientData (st : State) (cid : Nat) (line : Str) : Result :=
  match st.clients cid with
  | none => (st, [])
  | some c =>
    if c.connected then (st, [.send cid (line ++ ['\n'])])
    else if c.pending.length < 64 then
      ({ st with clients :=
          Function.update st.clients cid (some { c with pending := c.pending ++ [line ++ ['\n']] }) },
        [])
    else (st, [])

def closeClient (st : State) (cid : Nat) (tellEdge : Bool) : Result :=
  match st.clients cid with
  | none => (st, [])
  | some _ =>
    ({ st with clients := Function.update st.clients cid none },
      .closeConn cid :: if tellEdge && !st.closed then [.sendLine (.close cid)] else [])

/-- What `handle_hello` does with the three texts. -/
def greet (cfg : Config) (st : State) (role coin token : Str) : Result :=
  if cfg.token ≠ [] ∧ token ≠ cfg.token then st.reject "auth failed".toList
  else if cfg.coin ≠ [] ∧ coin ≠ [] ∧ coin ≠ cfg.coin then st.reject "coin mismatch".toList
  else if role ≠ "passthrough".toList ∧ role ≠ "node".toList then st.reject "bad role".toList
  else
    let isNode := role = "node".toList
    ({ st with helloOk := true, isNode },
      .sendLine .welcome :: if isNode && cfg.blockRelay then [.registerNode] else [])

def handleHello (cfg : Config) (st : State) (j : Json) : Option Result := do
  let role ← j.valueString "role" []
  let coin ← j.valueString "coin" []
  let token ← j.valueString "token" []
  return greet cfg st role coin token

/-- `on_line` behind the parser. -/
def onJson (cfg : Config) (st : State) (j : Json) : Option Result := do
  let t ← (j.find? "t".toList).bind Json.getString?
  if !st.helloOk then
    if t ≠ "hello".toList then return st.reject "expected hello".toList
    else handleHello cfg st j
  else if t = "open".toList then
    let cid ← j.valueUInt64 "cid"
    if cid = 0 then return (st, [])
    else
      let _ ← j.valueString "ip" "?".toList
      return openClient st cid
  else if t = "data".toList then
    let cid ← j.valueUInt64 "cid"
    match j.find? "l".toList with
    | some (.string line) => return if cid = 0 then (st, []) else clientData st cid line
    | _ => return (st, [])
  else if t = "close".toList then
    let cid ← j.valueUInt64 "cid"
    return if cid = 0 then (st, []) else closeClient st cid false
  else if t = "ping".toList then return (st, [.sendLine .pong])
  else return (st, [])

/-- `on_line`; `none` where an exception escapes it. -/
def onLine (strtod : Str → Option ℚ) (cfg : Config) (st : State) (line : Str) : Option Result :=
  match parse strtod line with
  | none => some st.close
  | some j => onJson cfg st j

/-- The lines of a session in turn, as long as it is not closed. -/
def onLines (strtod : Str → Option ℚ) (cfg : Config) : State → List Str → Option State
  | st, [] => some st
  | st, line :: lines =>
    if st.closed then some st
    else (onLine strtod cfg st line).bind fun r => onLines strtod cfg r.1 lines

/-! ## The frames of an edge -/

/-- What a frame does, once the session has greeted. -/
def onFrame (st : State) : Frame → Result
  | .openMiner cid _ => if cid = 0 then (st, []) else openClient st cid
  | .data cid line => if cid = 0 then (st, []) else clientData st cid line
  | .close cid => if cid = 0 then (st, []) else closeClient st cid false
  | .ping => (st, [.sendLine .pong])
  | _ => (st, [])

/-- What a frame does to a session. -/
def handleFrame (cfg : Config) (st : State) (f : Frame) : Result :=
  if !st.helloOk then
    match f with
    | .hello role coin token => greet cfg st role coin token
    | _ => st.reject "expected hello".toList
  else onFrame st f

theorem value_json {α : Type} (get : Json → Option α) (f : Frame) (key : Str) (fallback : α) :
    f.json.value get key fallback =
      match f.json.find? key with
      | some v => get v
      | none => some fallback := rfl

theorem valueUInt64_frame {f : Frame} {key : String} {n : Nat}
    (h : (key.toList, .number n) ∈ f.fields) (hn : n < 2 ^ 64) :
    f.json.valueUInt64 key = some n := by
  have htrunc : Json.truncate (n : ℚ) = n := by simp [Json.truncate]
  have hget : (Json.unsigned n).getUInt64? = some n := by
    simp only [Json.getUInt64?, Json.number?, Option.map_some, htrunc]
    congr 1
    omega
  have hfind : f.json.find? key.toList = some (.unsigned n) := f.find_field h
  rewrite [Json.valueUInt64, value_json, hfind]
  exact hget

theorem valueInt64_frame {f : Frame} {key : String} {n : Nat}
    (h : (key.toList, .number n) ∈ f.fields) (hn : n < 2 ^ 63) :
    f.json.valueInt64 key = some (n : Int) := by
  have htrunc : Json.truncate (n : ℚ) = n := by simp [Json.truncate]
  have hget : (Json.unsigned n).getInt64? = some (n : Int) := by
    simp only [Json.getInt64?, Json.number?, Option.map_some, htrunc]
    rw [Int.bmod_eq_of_le (by omega) (by omega)]
  have hfind : f.json.find? key.toList = some (.unsigned n) := f.find_field h
  rewrite [Json.valueInt64, value_json, hfind]
  exact hget

theorem valueString_frame {f : Frame} {key : String} {s fallback : Str}
    (h : (key.toList, .text s) ∈ f.fields) : f.json.valueString key fallback = some s := by
  have hfind : f.json.find? key.toList = some (.string s) := f.find_field h
  rewrite [Json.valueString, value_json, hfind]
  rfl

theorem valueString_absent {f : Frame} {key : String} {fallback : Str}
    (h : key.toList ∉ f.fields.map Prod.fst) :
    f.json.valueString key fallback = some fallback := by
  have hfind : f.json.find? key.toList = none := f.find_absent h
  rewrite [Json.valueString, value_json, hfind]
  rfl

theorem kind_eq_hello {f : Frame} (h : f.kind = "hello".toList) :
    ∃ role coin token, f = .hello role coin token := by
  unfold Frame.kind at h
  cases f <;> first | exact ⟨_, _, _, rfl⟩ | exact absurd h (by dsimp only; decide)

theorem handleHello_json (cfg : Config) (st : State) (role coin token : Str) :
    handleHello cfg st (Frame.hello role coin token).json = some (greet cfg st role coin token) := by
  have hmem (g : Str × JsonText.Field) (hg : g ∈ [("ver".toList, .number kProtocolVersion),
      ("role".toList, .text role), ("coin".toList, .text coin)]) :
      g ∈ (Frame.hello role coin token).fields :=
    List.mem_cons_of_mem _ (List.mem_append_left _ hg)
  have hrole : (Frame.hello role coin token).json.valueString "role" [] = some role :=
    valueString_frame (hmem _ (by simp))
  have hcoin : (Frame.hello role coin token).json.valueString "coin" [] = some coin :=
    valueString_frame (hmem _ (by simp))
  have htoken : (Frame.hello role coin token).json.valueString "token" [] = some token := by
    by_cases h : token = []
    · rw [h]
      refine valueString_absent ?_
      show "token".toList ∉ ["t".toList, "ver".toList, "role".toList, "coin".toList]
      decide
    · refine valueString_frame (List.mem_cons_of_mem _ ?_)
      rw [Frame.body, if_neg h]
      exact List.mem_append_right _ List.mem_cons_self
  rw [handleHello, hrole, hcoin, htoken]
  rfl

/-- A frame that is read back does what the frame does. -/
theorem onJson_json (cfg : Config) (st : State) {f : Frame} (h : ∀ g ∈ f.fields, g.2.Fits) :
    onJson cfg st f.json = some (handleFrame cfg st f) := by
  have hkind : (f.json.find? "t".toList).bind Json.getString? = some f.kind := by
    rw [f.find_kind]
    rfl
  rw [onJson, hkind]
  unfold handleFrame
  cases hhello : st.helloOk
  · by_cases hk : f.kind = "hello".toList
    · obtain ⟨role, coin, token, rfl⟩ := kind_eq_hello hk
      exact handleHello_json cfg st role coin token
    · cases f <;> first | rfl | exact absurd rfl hk
  · have number (cid : Nat) (hmem : ("cid".toList, JsonText.Field.number cid) ∈ f.fields) :
        f.json.valueUInt64 "cid" = some cid := valueUInt64_frame hmem (h _ hmem)
    cases f with
    | openMiner cid ip =>
      have hcid := number cid (by simp [Frame.fields, Frame.body])
      have hip : (Frame.openMiner cid ip).json.valueString "ip" "?".toList = some ip :=
        valueString_frame (by simp [Frame.fields, Frame.body])
      show (((Frame.openMiner cid ip).json.valueUInt64 "cid").bind fun n =>
        if n = 0 then some (st, [])
        else ((Frame.openMiner cid ip).json.valueString "ip" "?".toList).bind fun _ =>
          some (openClient st n)) = some (onFrame st (.openMiner cid ip))
      rw [hcid, hip]
      exact (apply_ite some (cid = 0) _ _).symm
    | data cid line =>
      have hcid := number cid (by simp [Frame.fields, Frame.body])
      have hline : (Frame.data cid line).json.find? "l".toList = some (.string line) :=
        Frame.find_field (v := .text line) (by simp [Frame.fields, Frame.body])
      show (((Frame.data cid line).json.valueUInt64 "cid").bind fun n =>
        match (Frame.data cid line).json.find? "l".toList with
        | some (.string line) => some (if n = 0 then (st, []) else clientData st n line)
        | _ => some (st, [])) = some (onFrame st (.data cid line))
      rw [hcid, hline]
      rfl
    | close cid =>
      have hcid := number cid (by simp [Frame.fields, Frame.body])
      show (((Frame.close cid).json.valueUInt64 "cid").bind fun n =>
        some (if n = 0 then (st, []) else closeClient st n false)) = some (onFrame st (.close cid))
      rw [hcid]
      rfl
    | _ => rfl

end MkPool.ClusterIngest
