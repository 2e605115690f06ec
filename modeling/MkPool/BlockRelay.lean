import MkPool.ClusterFraming
import MkPool.Lib.Lines

/-! # `cluster_block_relay.cpp`: blocks for the node trunks

The relay sends each raw block to the trunks that greeted as nodes. A trunk's
queue closes the session over its mark, the edge's reader over its limit. -/
namespace MkPool.BlockRelay
open MkPool.Utils MkPool.JsonValue MkPool.ClusterProtocol MkPool.Lib

/-! ## The block -/

/-- The bytes of a wide varint behind its marker. -/
def wideVarint (b : Bytes) (p width : Nat) : Option (Nat × Nat) :=
  if p + 1 + width ≤ b.length then
    some (Wire.leValue ((b.drop (p + 1)).take width), p + 1 + width)
  else none

/-- `read_varint`: the value, and where it ends. -/
def readVarint (b : Bytes) (p : Nat) : Option (Nat × Nat) := do
  let c ← b[p]?
  if c.toNat < 0xfd then some (c.toNat, p + 1)
  else if c.toNat = 0xfd then wideVarint b p 2
  else if c.toNat = 0xfe then wideVarint b p 4
  else wideVarint b p 8

/-- Where the input count stands behind the version: a segwit block has a marker
and a flag before it. -/
def inputsAt (block : Bytes) (p : Nat) : Nat :=
  if p + 1 < block.length ∧ block[p]? = some 0 ∧ block[p + 1]? = some 1 then p + 2 else p

/-- The height at the start of the coinbase's script. -/
def scriptHeight (block : Bytes) (p : Nat) : Option Nat := do
  let hlen ← block[p]?
  if hlen.toNat = 0 ∨ 7 < hlen.toNat ∨ block.length < p + 1 + hlen.toNat then none
  else some (Wire.leValue ((block.drop (p + 1)).take hlen.toNat))

/-- `bip34_height`: nought where it cannot be read. -/
def bip34Height (block : Bytes) : Nat :=
  (do
    let (_, p) ← readVarint block 80
    let (_, p) ← readVarint block (inputsAt block (p + 4))
    let (_, p) ← readVarint block (p + 36)
    scriptHeight block p).getD 0

theorem scriptHeight_lt {block : Bytes} {p n : Nat} (h : scriptHeight block p = some n) :
    n < 2 ^ 56 := by
  obtain ⟨hlen, -, h⟩ := Option.bind_eq_some_iff.mp h
  split at h
  · cases h
  · cases h
    have hvalue := Wire.leValue_lt ((block.drop (p + 1)).take hlen.toNat)
    rw [show (2 : Nat) ^ 56 = 256 ^ 7 from rfl]
    refine hvalue.trans_le (Nat.pow_le_pow_right (by omega) ?_)
    exact (List.length_take_le _ _).trans (by omega)

theorem bip34Height_lt (block : Bytes) : bip34Height block < 2 ^ 56 := by
  unfold bip34Height
  cases h : (do
    let (_, p) ← readVarint block 80
    let (_, p) ← readVarint block (inputsAt block (p + 4))
    let (_, p) ← readVarint block (p + 36)
    scriptHeight block p : Option Nat) with
  | none => exact Nat.two_pow_pos 56
  | some n =>
    obtain ⟨⟨_, p⟩, -, h⟩ := Option.bind_eq_some_iff.mp h
    obtain ⟨⟨_, p⟩, -, h⟩ := Option.bind_eq_some_iff.mp h
    obtain ⟨⟨_, p⟩, -, h⟩ := Option.bind_eq_some_iff.mp h
    exact scriptHeight_lt h

/-- The frame of a block. -/
def blockFrame (hashes : Hashes) (raw : Bytes) : Frame :=
  .block (bytesToHex raw) (byteReverseHex (bytesToHex (hashes.sha256d (raw.take 80)).bytes))
    (bip34Height raw)

/-! ## The queue -/

/-- `WriteQueue`. -/
structure WriteQueue where
  queue : List Str := []
  queuedBytes : Nat := 0
  stopped : Bool := false
deriving DecidableEq

def highWater : Nat := 2 ^ 20

/-- `push`, and whether it calls the drop handler. -/
def WriteQueue.push (q : WriteQueue) (msg : Str) : WriteQueue × Bool :=
  if q.stopped then (q, false)
  else
    let queuedBytes := q.queuedBytes + msg.length
    if highWater < queuedBytes then ({ q with queuedBytes }, true)
    else ({ q with queue := q.queue ++ [msg], queuedBytes }, false)

/-! ## The trunks -/

/-- `sizeof(read_buf_)` of the edge's connection. -/
def readSize : Nat := 8192

/-- The most an edge's connection holds without a newline. -/
def lineLimit : Nat := 4 * 2 ^ 20

/-- A trunk: the origin's session with its queue, and the edge's reader. -/
structure Trunk where
  ingest : ClusterIngest.State := {}
  queue : WriteQueue := {}
  reader : Lines.Reader := {}

def Trunk.close (t : Trunk) : Trunk :=
  { t with ingest := t.ingest.close.1, queue := { t.queue with stopped := true } }

/-- What `send_line` posts: the drop handler closes the session. -/
def Trunk.sendLine (t : Trunk) (msg : Str) : Trunk :=
  if t.ingest.closed then t
  else
    let (queue, drop) := t.queue.push msg
    if drop then { t with queue }.close else { t with queue }

/-- The sessions by number, and the numbers in `nodes_`. -/
structure State where
  trunks : Nat → Option Trunk := fun _ => none
  nodes : List Nat := []
  next : Nat := 0

/-- `on_rawblock`: what is delivered to which session. Sessions that are gone are
dropped from the table. -/
def onRawblock (hashes : Hashes) (st : State) (raw : Bytes) : State × List (Nat × Frame) :=
  if raw.length < 80 then (st, [])
  else
    let live := st.nodes.filter fun i => (st.trunks i).isSome
    ({ st with nodes := live }, live.map fun i => (i, blockFrame hashes raw))

/-- The frames a session is given of a block. -/
def sent (hashes : Hashes) (st : State) (raw : Bytes) (i : Nat) : List Frame :=
  ((onRawblock hashes st raw).2.filter fun d => d.1 = i).map Prod.snd

/-! ## Runs -/

inductive Event where
  | accept
  /-- A line of the edge. -/
  | line (i : Nat) (l : Str)
  /-- What else is written and read leaves the queue and the reader in some state. -/
  | traffic (i : Nat) (queue : WriteQueue) (reader : Lines.Reader)
  | close (i : Nat)
  /-- The last reference to a session is gone. -/
  | gone (i : Nat)
  | rawblock (raw : Bytes)

def State.setTrunk (st : State) (i : Nat) (t : Option Trunk) : State :=
  { st with trunks := Function.update st.trunks i t }

@[simp] theorem State.setTrunk_nodes (st : State) (i : Nat) (t : Option Trunk) :
    (st.setTrunk i t).nodes = st.nodes := rfl

@[simp] theorem State.setTrunk_next (st : State) (i : Nat) (t : Option Trunk) :
    (st.setTrunk i t).next = st.next := rfl

theorem State.setTrunk_trunks (st : State) (i j : Nat) (t : Option Trunk) :
    (st.setTrunk i t).trunks j = if j = i then t else st.trunks j := Function.update_apply ..

def step (strtod : Str → Option ℚ) (hashes : Hashes) (cfg : ClusterIngest.Config) (st : State) :
    Event → Option State
  | .accept => some { st.setTrunk st.next (some {}) with next := st.next + 1 }
  | .line i l => do
    let t ← st.trunks i
    if t.ingest.closed then none
    else
      let (ingest, actions) ← ClusterIngest.onLine strtod cfg t.ingest l
      let st := st.setTrunk i (some { t with ingest })
      return if .registerNode ∈ actions then { st with nodes := st.nodes ++ [i] } else st
  | .traffic i queue reader => (st.trunks i).map fun t => st.setTrunk i (some { t with queue, reader })
  | .close i => (st.trunks i).map fun t => st.setTrunk i (some t.close)
  | .gone i => some (st.setTrunk i none)
  | .rawblock raw => some (onRawblock hashes st raw).1

inductive Run (strtod : Str → Option ℚ) (hashes : Hashes) (cfg : ClusterIngest.Config) :
    State → Prop where
  | start : Run strtod hashes cfg {}
  | step {st st' : State} {e : Event} : Run strtod hashes cfg st →
    step strtod hashes cfg st e = some st' → Run strtod hashes cfg st'

/-! ## The text of a block -/

theorem plain_hex {bs : Bytes} {c : Char} (h : c ∈ bytesToHex bs) : JsonText.Plain c := by
  have hall : ∀ d < 16, JsonText.Plain (Hex.digit d) := by
    unfold JsonText.Plain
    decide
  obtain ⟨b, -, hb⟩ := List.mem_flatMap.mp h
  have hbyte := b.toNat_lt
  simp only [Hex.encodeByte, List.mem_cons, List.not_mem_nil, or_false] at hb
  rcases hb with rfl | rfl
  · exact hall _ (by omega)
  · exact hall _ (by omega)

theorem dumpMember_plain {key v out : Str} (hkey : ∀ c ∈ key, JsonText.Plain c) {f : JsonText.Field}
    (h : f.dump = some v) (hout : out = '"' :: key ++ '"' :: ':' :: v) :
    JsonText.dumpMember (key, f) = some out := by
  rw [JsonText.dumpMember, JsonText.dumpString_plain hkey, h, hout]
  simp

theorem text_block {hex hash : Str} (height : Nat) (hhex : ∀ c ∈ hex, JsonText.Plain c)
    (hhash : ∀ c ∈ hash, JsonText.Plain c) :
    (Frame.block hex hash height).text =
      some ("\x7b\"hash\":\"".toList ++ hash ++ "\",\"height\":".toList ++ Nat.toDigits 10 height ++
        ",\"hex\":\"".toList ++ hex ++ "\",\"t\":\"block\"\x7d\n".toList) := by
  have hobject : JsonText.object (Frame.block hex hash height).fields =
      [("hash".toList, .text hash), ("height".toList, .number height), ("hex".toList, .text hex),
        ("t".toList, .text "block".toList)] := rfl
  have hnumber : (JsonText.Field.number height).dump = some (Nat.toDigits 10 height) := by
    rw [← Nat.toList_repr]
    rfl
  have hall : ["hash", "height", "hex", "t", "block"].all
      (fun k => k.toList.all fun c => JsonText.Plain c) = true := by decide
  have hkeys (k : String) (hk : k ∈ ["hash", "height", "hex", "t", "block"]) :
      ∀ c ∈ k.toList, JsonText.Plain c := fun c hc =>
    of_decide_eq_true (List.all_eq_true.mp (List.all_eq_true.mp hall k hk) c hc)
  have textOf {s : Str} (h : ∀ c ∈ s, JsonText.Plain c) :
      (JsonText.Field.text s).dump = some ('"' :: s ++ ['"']) := JsonText.dumpString_plain h
  have h1 := dumpMember_plain (hkeys "hash" (by simp)) (textOf hhash) rfl
  have h2 := dumpMember_plain (hkeys "height" (by simp)) hnumber rfl
  have h3 := dumpMember_plain (hkeys "hex" (by simp)) (textOf hhex) rfl
  have h4 := dumpMember_plain (hkeys "t" (by simp)) (textOf (hkeys "block" (by simp))) rfl
  rw [Frame.text, JsonText.dump, hobject]
  simp only [JsonText.dumpMembers, h1, h2, h3, h4]
  simp

/-- The bytes of a block's line, with its newline. -/
def lineLength (raw : Bytes) : Nat :=
  107 + (Nat.toDigits 10 (bip34Height raw)).length + 2 * raw.length

theorem blockFrame_text (hashes : Hashes) (raw : Bytes) :
    ∃ text, (blockFrame hashes raw).text = some text ∧ text.length = lineLength raw := by
  have hhash : byteReverseHex (bytesToHex (hashes.sha256d (raw.take 80)).bytes) =
      bytesToHex (hashes.sha256d (raw.take 80)).bytes.reverse := by
    unfold byteReverseHex bytesToHex
    rw [if_pos (by rw [Hex.length_encode]; omega), Hex.reversePairs_encode]
  have hsize : (hashes.sha256d (raw.take 80)).bytes.reverse.length = 32 := by
    rw [List.length_reverse, (hashes.sha256d (raw.take 80)).size]
  rw [blockFrame, hhash, text_block (bip34Height raw) (fun c => plain_hex) fun c => plain_hex]
  refine ⟨_, rfl, ?_⟩
  simp only [List.length_append, bytesToHex, Hex.length_encode, hsize, lineLength]
  simp
  omega

/-! ## Delivery -/

/-- Nothing is under way on the trunk. -/
structure Trunk.Idle (t : Trunk) : Prop where
  queue : t.queue = {}
  buffer : t.reader.buffer = []
  reading : t.reader.closed = false

/-- However the edge's reads cut the line, the reader gives it out and stays open. -/
def Reads (r : Lines.Reader) (line : Str) : Prop :=
  ∀ reads : List Str, reads.flatten = line ++ ['\n'] →
    (∀ chunk ∈ reads, chunk ≠ [] ∧ chunk.length ≤ readSize) →
    r.feed lineLimit reads = { r with buffer := [], lines := r.lines ++ [line] }

/-- The frame is accepted whole at both ends, and closes neither. -/
def Trunk.Accepts (strtod : Str → Option ℚ) (t : Trunk) (f : Frame) : Prop :=
  ∃ line, f.text = some (line ++ ['\n']) ∧
    (t.sendLine (line ++ ['\n'])).ingest.closed = false ∧
    (t.sendLine (line ++ ['\n'])).queue.queue = [line ++ ['\n']] ∧
    Reads t.reader line ∧ parse strtod line = some f.json

/-- Each open node trunk is sent the block once and accepts it; the others are
sent nothing. -/
def Delivers (strtod : Str → Option ℚ) (hashes : Hashes) (st : State) (raw : Bytes) : Prop :=
  (∀ i t, st.trunks i = some t → i ∈ st.nodes → t.ingest.closed = false →
    sent hashes st raw i = [blockFrame hashes raw] ∧ t.Accepts strtod (blockFrame hashes raw)) ∧
  ∀ i t, st.trunks i = some t → t.ingest.isNode = false → sent hashes st raw i = []

theorem sendLine_open {t : Trunk} {msg : Str} (hopen : t.ingest.closed = false)
    (hidle : t.Idle) (hlen : msg.length ≤ highWater) :
    t.sendLine msg = { t with queue := ⟨[msg], msg.length, false⟩ } := by
  have hpush : t.queue.push msg = (⟨[msg], msg.length, false⟩, false) := by
    rw [hidle.queue, WriteQueue.push, if_neg (by simp)]
    simp only [Nat.zero_add, List.nil_append]
    rw [if_neg (by omega)]
  rw [Trunk.sendLine, if_neg (by simp [hopen]), hpush]
  rfl

theorem sendLine_drop {t : Trunk} {msg : Str} (hidle : t.Idle) (hlen : highWater < msg.length) :
    (t.sendLine msg).ingest.closed = true := by
  cases hopen : t.ingest.closed
  · have hpush : t.queue.push msg = (⟨[], msg.length, false⟩, true) := by
      rw [hidle.queue, WriteQueue.push, if_neg (by simp)]
      simp only [Nat.zero_add]
      rw [if_pos hlen]
    rw [Trunk.sendLine, if_neg (by simp [hopen]), hpush]
    simp [Trunk.close, ClusterIngest.State.close, hopen]
  · rw [Trunk.sendLine, if_pos hopen, hopen]

/-- An idle trunk takes a block exactly up to the mark of its queue. -/
theorem accepts_iff (strtod : Str → Option ℚ) (hashes : Hashes) {t : Trunk} (raw : Bytes)
    (hopen : t.ingest.closed = false) (hidle : t.Idle) :
    t.Accepts strtod (blockFrame hashes raw) ↔ lineLength raw ≤ highWater := by
  obtain ⟨text, htext, hlength⟩ := blockFrame_text hashes raw
  constructor
  · rintro ⟨line, hline, hclosed, -⟩
    obtain rfl : text = line ++ ['\n'] := Option.some.inj (htext.symm.trans hline)
    by_contra hlong
    rw [sendLine_drop hidle (by omega)] at hclosed
    cases hclosed
  · intro hfits
    have hnumbers : ∀ g ∈ (blockFrame hashes raw).fields, g.2.Fits := by
      have := bip34Height_lt raw
      simp [blockFrame, Frame.fields, Frame.body, JsonText.Field.Fits]
      omega
    obtain ⟨line, rfl, hnewline, hparse⟩ := Frame.parse_text strtod htext hnumbers
    obtain ⟨s, hs⟩ := Frame.text_braces htext
    have htrim : Lines.trim line = line := by
      rw [Lines.trim, if_neg]
      rw [hs, List.getLast?_concat]
      decide
    have hline : line ≠ [] := by
      rw [hs]
      simp
    refine ⟨line, htext, ?_, ?_, ?_, hparse⟩
    · rw [sendLine_open hopen hidle (by omega)]
      exact hopen
    · rw [sendLine_open hopen hidle (by omega)]
    · intro reads hflat hreads
      have hlen : line.length < lineLimit := by
        rw [List.length_append, List.length_singleton] at hlength
        rw [highWater] at hfits
        rw [lineLimit]
        omega
      have := Lines.Reader.feed_line hidle.reading (by rw [hidle.buffer, List.nil_append, hflat])
        (fun c hc => (hreads c hc).1) (by simp [hidle.buffer]) hnewline (by rwa [htrim]) hlen
      rwa [htrim] at this

/-! ## The table -/

/-- The step leaves the greeting alone and registers nothing. -/
structure Keeps (st : ClusterIngest.State) (r : ClusterIngest.Result) : Prop where
  helloOk : r.1.helloOk = st.helloOk
  isNode : r.1.isNode = st.isNode
  registers : .registerNode ∉ r.2

theorem Keeps.same (st : ClusterIngest.State) : Keeps st (st, []) := ⟨rfl, rfl, by simp⟩

theorem Keeps.close (st : ClusterIngest.State) : Keeps st st.close := by
  unfold ClusterIngest.State.close
  split
  · exact .same st
  · exact ⟨rfl, rfl, by simp⟩

theorem Keeps.reject (st : ClusterIngest.State) (msg : Str) : Keeps st (st.reject msg) := by
  have h := Keeps.close st
  exact ⟨h.helloOk, h.isNode, by simpa [ClusterIngest.State.reject] using h.registers⟩

theorem Keeps.openClient (st : ClusterIngest.State) (cid : Nat) :
    Keeps st (ClusterIngest.openClient st cid) := by
  unfold ClusterIngest.openClient
  split
  · exact .same st
  · exact ⟨rfl, rfl, by simp⟩

theorem Keeps.clientData (st : ClusterIngest.State) (cid : Nat) (line : Str) :
    Keeps st (ClusterIngest.clientData st cid line) := by
  unfold ClusterIngest.clientData
  split
  · exact .same st
  · split_ifs
    · exact ⟨rfl, rfl, by simp⟩
    · exact ⟨rfl, rfl, by simp⟩
    · exact .same st

theorem Keeps.closeClient (st : ClusterIngest.State) (cid : Nat) (tellEdge : Bool) :
    Keeps st (ClusterIngest.closeClient st cid tellEdge) := by
  unfold ClusterIngest.closeClient
  split
  · exact .same st
  · refine ⟨rfl, rfl, ?_⟩
    split_ifs <;> simp

/-- The step greets: it registers a node only. -/
structure Greets (st : ClusterIngest.State) (r : ClusterIngest.Result) : Prop where
  before : st.helloOk = false
  after : r.1.helloOk = true
  registers : .registerNode ∈ r.2 → r.1.isNode = true

theorem greet_cases (cfg : ClusterIngest.Config) {st : ClusterIngest.State} (role coin token : Str)
    (hst : st.helloOk = false) :
    Keeps st (ClusterIngest.greet cfg st role coin token) ∨
      Greets st (ClusterIngest.greet cfg st role coin token) := by
  unfold ClusterIngest.greet
  split_ifs
  · exact Or.inl (.reject st _)
  · exact Or.inl (.reject st _)
  · exact Or.inl (.reject st _)
  · refine Or.inr ⟨hst, rfl, fun hmem => ?_⟩
    rcases List.mem_cons.mp hmem with hmem | hmem
    · cases hmem
    · by_contra hnode
      have hrole : decide (role = "node".toList) = false := Bool.eq_false_iff.mpr hnode
      rw [hrole, Bool.false_and, if_neg (by decide)] at hmem
      cases hmem

theorem onLine_cases {strtod : Str → Option ℚ} {cfg : ClusterIngest.Config}
    {st : ClusterIngest.State} {line : Str} {r : ClusterIngest.Result}
    (h : ClusterIngest.onLine strtod cfg st line = some r) : Keeps st r ∨ Greets st r := by
  unfold ClusterIngest.onLine at h
  split at h
  · cases h
    exact Or.inl (.close st)
  · obtain ⟨t, -, h⟩ := Option.bind_eq_some_iff.mp h
    split_ifs at h with hhello hkind hopen hdata hclose hping
    · cases h
      exact Or.inl (.reject st _)
    · obtain ⟨role, -, h⟩ := Option.bind_eq_some_iff.mp h
      obtain ⟨coin, -, h⟩ := Option.bind_eq_some_iff.mp h
      obtain ⟨token, -, h⟩ := Option.bind_eq_some_iff.mp h
      cases h
      exact greet_cases cfg role coin token (by simpa using hhello)
    · obtain ⟨cid, -, h⟩ := Option.bind_eq_some_iff.mp h
      split at h
      · cases h
        exact Or.inl (.same st)
      · obtain ⟨ip, -, h⟩ := Option.bind_eq_some_iff.mp h
        cases h
        exact Or.inl (.openClient st cid)
    · obtain ⟨cid, -, h⟩ := Option.bind_eq_some_iff.mp h
      split at h
      · cases h
        split_ifs
        · exact Or.inl (.same st)
        · exact Or.inl (.clientData st cid _)
      · cases h
        exact Or.inl (.same st)
    · obtain ⟨cid, -, h⟩ := Option.bind_eq_some_iff.mp h
      cases h
      split_ifs
      · exact Or.inl (.same st)
      · exact Or.inl (.closeClient st cid false)
    · cases h
      exact Or.inl ⟨rfl, rfl, by simp⟩
    · cases h
      exact Or.inl (.same st)

/-- The table holds the sessions that greeted as nodes, each once. -/
structure Kept (st : State) : Prop where
  nodup : st.nodes.Nodup
  bound : ∀ i ∈ st.nodes, i < st.next
  trunk_bound : ∀ i t, st.trunks i = some t → i < st.next
  greeted : ∀ i t, st.trunks i = some t → i ∈ st.nodes →
    t.ingest.helloOk = true ∧ t.ingest.isNode = true

namespace Kept

variable {st : State}

theorem start : Kept {} where
  nodup := List.nodup_nil
  bound := by simp
  trunk_bound := by simp
  greeted := by simp

/-- A trunk that keeps its greeting may change in any other way. -/
theorem setTrunk (h : Kept st) {i : Nat} {t t' : Trunk} (ht : st.trunks i = some t)
    (hhello : t'.ingest.helloOk = t.ingest.helloOk) (hnode : t'.ingest.isNode = t.ingest.isNode) :
    Kept (st.setTrunk i (some t')) where
  nodup := h.nodup
  bound := h.bound
  trunk_bound j u hu := by
    rw [State.setTrunk_trunks] at hu
    split at hu
    · rename_i hj
      exact hj ▸ h.trunk_bound i t ht
    · exact h.trunk_bound j u hu
  greeted j u hu hmem := by
    rw [State.setTrunk_trunks] at hu
    split at hu
    · rename_i hj
      cases hu
      rw [hhello, hnode]
      exact h.greeted i t ht (hj ▸ hmem)
    · exact h.greeted j u hu hmem

/-- A trunk that greets is in no table yet, and comes into it as a node. -/
theorem greet (h : Kept st) {i : Nat} {t : Trunk} (ht : st.trunks i = some t)
    {r : ClusterIngest.Result} (hg : Greets t.ingest r) (nodes : List Nat)
    (hnodes : nodes = st.nodes ∨ (nodes = st.nodes ++ [i] ∧ .registerNode ∈ r.2)) :
    Kept { st.setTrunk i (some { t with ingest := r.1 }) with nodes } := by
  have hfresh : i ∉ st.nodes := fun hmem => by
    have := (h.greeted i t ht hmem).1
    rw [hg.before] at this
    cases this
  have hi := h.trunk_bound i t ht
  have hmem : ∀ j ∈ nodes, j ∈ st.nodes ∨ (j = i ∧ .registerNode ∈ r.2) := by
    rcases hnodes with rfl | ⟨rfl, hreg⟩
    · exact fun j hj => Or.inl hj
    · intro j hj
      rcases List.mem_append.mp hj with hj | hj
      · exact Or.inl hj
      · exact Or.inr ⟨List.mem_singleton.mp hj, hreg⟩
  refine ⟨?_, fun j hj => ?_, fun j u hu => ?_, fun j u hu hj => ?_⟩
  · rcases hnodes with rfl | ⟨rfl, -⟩
    · exact h.nodup
    · exact List.nodup_append.mpr ⟨h.nodup, List.nodup_singleton i, fun a ha b hb hab =>
        hfresh (List.mem_singleton.mp hb ▸ hab ▸ ha)⟩
  · rcases hmem j hj with hj | ⟨rfl, -⟩
    · exact h.bound j hj
    · exact hi
  · rw [show ({ st.setTrunk i (some { t with ingest := r.1 }) with nodes } : State).trunks j =
      (st.setTrunk i (some { t with ingest := r.1 })).trunks j from rfl, State.setTrunk_trunks] at hu
    split at hu
    · rename_i hj
      exact hj ▸ hi
    · exact h.trunk_bound j u hu
  · rw [show ({ st.setTrunk i (some { t with ingest := r.1 }) with nodes } : State).trunks j =
      (st.setTrunk i (some { t with ingest := r.1 })).trunks j from rfl, State.setTrunk_trunks] at hu
    split at hu
    · rename_i hji
      subst hji
      cases hu
      rcases hmem j hj with hj | ⟨-, hreg⟩
      · exact absurd hj hfresh
      · exact ⟨hg.after, hg.registers hreg⟩
    · rename_i hji
      rcases hmem j hj with hj | ⟨rfl, -⟩
      · exact h.greeted j u hu hj
      · exact absurd rfl hji

theorem step {strtod : Str → Option ℚ} {hashes : Hashes} {cfg : ClusterIngest.Config} {st' : State}
    {e : Event} (h : Kept st) (hs : BlockRelay.step strtod hashes cfg st e = some st') :
    Kept st' := by
  cases e with
  | accept =>
    cases hs
    refine ⟨h.nodup, fun j hj => Nat.lt_succ_of_lt (h.bound j hj), fun j u hu => ?_,
      fun j u hu hj => ?_⟩
    · change (st.setTrunk st.next (some {})).trunks j = some u at hu
      rw [State.setTrunk_trunks] at hu
      split at hu
      · rename_i hj
        exact hj ▸ Nat.lt_succ_self _
      · exact Nat.lt_succ_of_lt (h.trunk_bound j u hu)
    · change (st.setTrunk st.next (some {})).trunks j = some u at hu
      rw [State.setTrunk_trunks, if_neg (Nat.ne_of_lt (h.bound j hj))] at hu
      exact h.greeted j u hu hj
  | line i l =>
    obtain ⟨t, ht, hs⟩ := Option.bind_eq_some_iff.mp hs
    split at hs
    · cases hs
    · obtain ⟨⟨ingest, actions⟩, hr, hs⟩ := Option.bind_eq_some_iff.mp hs
      rcases onLine_cases hr with hk | hg
      · cases hs
        rw [if_neg hk.registers]
        exact h.setTrunk ht hk.helloOk hk.isNode
      · cases hs
        split
        · rename_i hreg
          exact h.greet ht hg _ (Or.inr ⟨rfl, hreg⟩)
        · exact h.greet ht hg _ (Or.inl rfl)
  | traffic i queue reader =>
    obtain ⟨t, ht, rfl⟩ := Option.map_eq_some_iff.mp hs
    exact h.setTrunk ht rfl rfl
  | close i =>
    obtain ⟨t, ht, rfl⟩ := Option.map_eq_some_iff.mp hs
    have hk := Keeps.close t.ingest
    exact h.setTrunk ht hk.helloOk hk.isNode
  | gone i =>
    cases hs
    refine ⟨h.nodup, h.bound, fun j u hu => ?_, fun j u hu hj => ?_⟩
    · rw [State.setTrunk_trunks] at hu
      split at hu
      · cases hu
      · exact h.trunk_bound j u hu
    · rw [State.setTrunk_trunks] at hu
      split at hu
      · cases hu
      · exact h.greeted j u hu hj
  | rawblock raw =>
    cases hs
    unfold onRawblock
    split
    · exact h
    · exact ⟨h.nodup.filter _, fun j hj => h.bound j (List.mem_filter.mp hj).1, h.trunk_bound,
        fun j u hu hj => h.greeted j u hu (List.mem_filter.mp hj).1⟩

end Kept

theorem Run.kept {strtod : Str → Option ℚ} {hashes : Hashes} {cfg : ClusterIngest.Config}
    {st : State} (h : Run strtod hashes cfg st) : Kept st := by
  induction h with
  | start => exact .start
  | step _ hs ih => exact ih.step hs

/-! ## Who is sent a block -/

theorem sent_eq (hashes : Hashes) {st : State} (hkept : Kept st) (raw : Bytes) {i : Nat} {t : Trunk}
    (ht : st.trunks i = some t) :
    sent hashes st raw i =
      if 80 ≤ raw.length ∧ i ∈ st.nodes then [blockFrame hashes raw] else [] := by
  unfold sent onRawblock
  by_cases hshort : raw.length < 80
  · rw [if_pos hshort, if_neg (by omega)]
    rfl
  · rw [if_neg hshort]
    have hlive : i ∈ st.nodes.filter (fun j => (st.trunks j).isSome) ↔ i ∈ st.nodes := by
      simp [ht]
    have hnodup : (st.nodes.filter fun j => (st.trunks j).isSome).Nodup := hkept.nodup.filter _
    have hpair : ((fun d : Nat × Frame => decide (d.1 = i)) ∘ fun j => (j, blockFrame hashes raw)) =
        fun j => decide (j = i) := rfl
    rw [List.filter_map, hpair, List.filter_eq, hnodup.count]
    by_cases hmem : i ∈ st.nodes
    · rw [if_pos (hlive.mpr hmem), if_pos ⟨by omega, hmem⟩]
      rfl
    · rw [if_neg (hlive.not.mpr hmem), if_neg (fun h => hmem h.2)]
      rfl

/-- Every trunk in the table that is open is idle. -/
def State.Idle (st : State) : Prop :=
  ∀ i t, st.trunks i = some t → i ∈ st.nodes → t.ingest.closed = false → t.Idle

/-- A block reaches the open node trunks exactly where there are none, or where it
has a header and its line is within the mark of a queue. -/
theorem delivers_iff {strtod : Str → Option ℚ} {hashes : Hashes} {st : State} (hkept : Kept st)
    (hidle : st.Idle) (raw : Bytes) :
    Delivers strtod hashes st raw ↔
      (∀ i t, st.trunks i = some t → i ∈ st.nodes → t.ingest.closed = true) ∨
        (80 ≤ raw.length ∧ lineLength raw ≤ highWater) := by
  constructor
  · rintro ⟨hnodes, -⟩
    by_contra hnone
    obtain ⟨hopen, hfail⟩ := not_or.mp hnone
    simp only [not_forall, Bool.not_eq_true] at hopen
    obtain ⟨i, t, ht, hmem, hopen⟩ := hopen
    obtain ⟨hsent, haccepts⟩ := hnodes i t ht hmem hopen
    rw [sent_eq hashes hkept raw ht] at hsent
    split at hsent
    · rename_i hlong
      exact hfail ⟨hlong.1, (accepts_iff strtod hashes raw hopen (hidle i t ht hmem hopen)).mp haccepts⟩
    · cases hsent
  · intro h
    refine ⟨fun i t ht hmem hopen => ?_, fun i t ht hnode => ?_⟩
    · rcases h with h | ⟨hlong, hfits⟩
      · rw [h i t ht hmem] at hopen
        cases hopen
      · rw [sent_eq hashes hkept raw ht, if_pos ⟨hlong, hmem⟩]
        exact ⟨rfl, (accepts_iff strtod hashes raw hopen (hidle i t ht hmem hopen)).mpr hfits⟩
    · rw [sent_eq hashes hkept raw ht, if_neg]
      rintro ⟨-, hmem⟩
      rw [(hkept.greeted i t ht hmem).2] at hnode
      cases hnode

/-- In every state the relay reaches. -/
theorem block_delivered_iff {strtod : Str → Option ℚ} {hashes : Hashes} {cfg : ClusterIngest.Config}
    {st : State} (hrun : Run strtod hashes cfg st) (hidle : st.Idle) (raw : Bytes) :
    Delivers strtod hashes st raw ↔
      (∀ i t, st.trunks i = some t → i ∈ st.nodes → t.ingest.closed = true) ∨
        (80 ≤ raw.length ∧ lineLength raw ≤ highWater) :=
  delivers_iff hrun.kept hidle raw

/-! ## A short block and a long one -/

def zeroHashes : Hashes := ⟨fun _ => .zero, fun _ => .zero⟩

/-- One trunk, which has greeted as a node. -/
def oneNode : State where
  trunks := Function.update (Function.update (fun _ => none) 0 (some {})) 0
    (some { ingest := { helloOk := true, isNode := true } })
  nodes := [0]
  next := 1

theorem oneNode_run : Run (fun _ => none) zeroHashes ⟨[], [], true⟩ oneNode := by
  have haccept : Run (fun _ => none) zeroHashes ⟨[], [], true⟩
      { ({} : State).setTrunk 0 (some {}) with next := 1 } := .step (e := .accept) .start rfl
  exact .step (e := .line 0 "\x7b\"t\":\"hello\",\"role\":\"node\"\x7d".toList) haccept rfl

theorem oneNode_idle : oneNode.Idle := by
  intro i t ht hmem _
  obtain rfl := List.mem_singleton.mp hmem
  cases ht
  exact ⟨rfl, rfl, rfl⟩

theorem block_delivered_iff_short :
    Delivers (fun _ => none) zeroHashes oneNode (List.replicate 81 0) :=
  (block_delivered_iff oneNode_run oneNode_idle _).mpr (Or.inr ⟨by decide, by decide⟩)

theorem oneNode_long {raw : Bytes} (h : 2 ^ 19 ≤ raw.length) :
    ¬ Delivers (fun _ => none) zeroHashes oneNode raw := by
  intro hdelivers
  have haccepts := (hdelivers.1 0 _ rfl (List.mem_singleton_self 0) rfl).2
  have hlen := (accepts_iff _ _ _ rfl ⟨rfl, rfl, rfl⟩).mp haccepts
  rw [lineLength, highWater] at hlen
  omega

/-- A block of half a mebibyte closes the trunk it is sent down. -/
theorem long_block_lost :
    Run (fun _ => none) zeroHashes ⟨[], [], true⟩ oneNode ∧ oneNode.Idle ∧
      ¬ Delivers (fun _ => none) zeroHashes oneNode (List.replicate (2 ^ 19) 0) :=
  ⟨oneNode_run, oneNode_idle, oneNode_long (by rw [List.length_replicate])⟩

end MkPool.BlockRelay
