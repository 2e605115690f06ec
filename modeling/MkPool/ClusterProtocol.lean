import MkPool.JsonRoundTrip

/-! # `cluster_protocol.hpp`: the frames of a cluster trunk

One JSON object a line, between an edge and its origin. -/
namespace MkPool.ClusterProtocol
open MkPool.Utils MkPool.JsonValue MkPool.JsonText MkPool.Lib

def kProtocolVersion : Nat := 1

/-- What is said on a trunk. -/
inductive Frame where
  | hello (role coin token : Str)
  | welcome
  | bye (msg : Str)
  /-- A downstream miner connected. -/
  | openMiner (cid : Nat) (ip : Str)
  /-- One line from or for a miner. -/
  | data (cid : Nat) (line : Str)
  | close (cid : Nat)
  | block (hex hash : Str) (height : Nat)
  | ping
  | pong
deriving DecidableEq

/-- The text of a frame's `t`. -/
def Frame.kind : Frame → Str
  | .hello .. => "hello".toList
  | .welcome => "welcome".toList
  | .bye _ => "bye".toList
  | .openMiner .. => "open".toList
  | .data .. => "data".toList
  | .close _ => "close".toList
  | .block .. => "block".toList
  | .ping => "ping".toList
  | .pong => "pong".toList

/-- The fields beside `t`. -/
def Frame.body : Frame → List (Str × Field)
  | .hello role coin token =>
    [("ver".toList, .number kProtocolVersion), ("role".toList, .text role),
      ("coin".toList, .text coin)] ++ if token = [] then [] else [("token".toList, .text token)]
  | .welcome => [("ver".toList, .number kProtocolVersion)]
  | .bye msg => [("msg".toList, .text msg)]
  | .openMiner cid ip => [("cid".toList, .number cid), ("ip".toList, .text ip)]
  | .data cid line => [("cid".toList, .number cid), ("l".toList, .text line)]
  | .close cid => [("cid".toList, .number cid)]
  | .block hex hash height =>
    [("hex".toList, .text hex), ("hash".toList, .text hash), ("height".toList, .number height)]
  | .ping => []
  | .pong => []

def Frame.fields (f : Frame) : List (Str × Field) := ("t".toList, .text f.kind) :: f.body

/-- The line of a frame, with its end; `none` where `dump` throws. -/
def Frame.text (f : Frame) : Option Str := (dump f.fields).map (· ++ ['\n'])

def frameHello (role coin token : Str) : Option Str := (Frame.hello role coin token).text
def frameWelcome : Option Str := Frame.welcome.text
def frameBye (msg : Str) : Option Str := (Frame.bye msg).text
def frameOpen (cid : Nat) (ip : Str) : Option Str := (Frame.openMiner cid ip).text
def frameData (cid : Nat) (line : Str) : Option Str := (Frame.data cid line).text
def frameClose (cid : Nat) : Option Str := (Frame.close cid).text
def frameBlock (hex hash : Str) (height : Nat) : Option Str := (Frame.block hex hash height).text
def framePing : Option Str := Frame.ping.text
def framePong : Option Str := Frame.pong.text

/-- `parse`: an object whose `t` is a string. -/
def parse (strtod : Str → Option ℚ) (line : Str) : Option Json :=
  (JsonText.parse strtod line).filter fun j => (j.find? "t".toList).any Json.isString

/-- The object a frame's line is read as. -/
def Frame.json (f : Frame) : Json := .object (setFields [] (object f.fields))

/-- The texts of a frame that come from elsewhere. -/
def Frame.texts : Frame → List Str
  | .hello role coin token => [role, coin, token]
  | .bye msg => [msg]
  | .openMiner _ ip => [ip]
  | .data _ line => [line]
  | .block hex hash _ => [hex, hash]
  | _ => []

theorem Frame.keys_nodup (f : Frame) : (f.fields.map Prod.fst).Nodup := by
  cases f with
  | hello role coin token => by_cases h : token = [] <;> simp [fields, body, h]
  | _ => simp [fields, body]

theorem Frame.find_field {f : Frame} {key : Str} {v : Field} (h : (key, v) ∈ f.fields) :
    f.json.find? key = some v.json := by
  have hperm := object_perm f.keys_nodup
  exact find?_setFields ((hperm.map Prod.fst).nodup_iff.mpr f.keys_nodup) (hperm.mem_iff.mpr h) []

theorem Frame.find_absent {f : Frame} {key : Str} (h : key ∉ f.fields.map Prod.fst) :
    f.json.find? key = none := by
  have hperm := object_perm f.keys_nodup
  exact find?_setFields_aside (fun hmem => h ((hperm.map Prod.fst).mem_iff.mp hmem)) []

theorem Frame.find_kind (f : Frame) : f.json.find? "t".toList = some (.string f.kind) :=
  f.find_field (v := .text f.kind) List.mem_cons_self

/-- A frame is written exactly where its texts are UTF-8. -/
theorem Frame.text_isSome (f : Frame) : f.text.isSome = f.texts.all Utf8.valid := by
  rw [text, Option.isSome_map, dump_isSome f.keys_nodup]
  cases f with
  | hello role coin token =>
    by_cases h : token = []
    · rw [h]
      rfl
    · rw [fields, body, if_neg h]
      rfl
  | _ => rfl

theorem Frame.text_braces {f : Frame} {line : Str} (h : f.text = some (line ++ ['\n'])) :
    ∃ s, line = '\x7b' :: s ++ ['\x7d'] := by
  obtain ⟨out, hout, heq⟩ := Option.map_eq_some_iff.mp h
  obtain ⟨s, -, rfl⟩ := Option.map_eq_some_iff.mp hout
  exact ⟨s, (List.append_cancel_right heq).symm⟩

/-- What a frame's line holds is read back as the frame's object. -/
theorem Frame.parse_text (strtod : Str → Option ℚ) {f : Frame} {out : Str} (h : f.text = some out)
    (hfits : ∀ g ∈ f.fields, g.2.Fits) :
    ∃ line, out = line ++ ['\n'] ∧ '\n' ∉ line ∧ parse strtod line = some f.json := by
  obtain ⟨line, hline, rfl⟩ := Option.map_eq_some_iff.mp h
  have hperm := object_perm f.keys_nodup
  refine ⟨line, rfl, newline_dump hline, ?_⟩
  have hne : object f.fields ≠ [] := fun hnil => by
    rw [hnil] at hperm
    cases hperm.symm.eq_nil
  rw [parse, parse_dump hline hne fun g hg => hfits g (hperm.mem_iff.mp hg)]
  have hkind : ((Json.object (setFields [] (object f.fields))).find? "t".toList).any Json.isString =
      true := by
    rw [show Json.object (setFields [] (object f.fields)) = f.json from rfl, f.find_kind]
    rfl
  rw [Option.filter_some, if_pos hkind]
  rfl

end MkPool.ClusterProtocol
