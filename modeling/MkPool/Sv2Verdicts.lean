import MkPool.Sv2UpstreamClient
import MkPool.Lib.Tickets

/-! # Verdicts of an SV2 upstream

The pool acknowledges every share of a connection up to a sequence number, or
refuses one. The numbers run on over connections, and what is pending stays
when a connection is lost. -/
namespace MkPool.Sv2Verdicts
open MkPool.Lib MkPool.Lib.Tickets MkPool.Utils MkPool.Sv2Messages MkPool.UpstreamSource
open MkPool.Sv2UpstreamClient

/-! ## What the pool said -/

/-- A share as it was written, and what the pool said of it. -/
structure Entry where
  conn : Nat
  seq : UInt32
  cb : Option Nat
  said : Option Bool := none

/-- The share is on the connection, and the pool said nothing of it yet. -/
def Entry.isOpen (conn : Nat) (s : Entry) : Bool := s.conn = conn && s.said.isNone

/-- An answer for some numbers of a connection is for the share. -/
def hit (conn : Nat) (for_ : UInt32 → Bool) (s : Entry) : Bool := s.isOpen conn && for_ s.seq

/-- The answer is noted for the shares that it is for. -/
def note (conn : Nat) (for_ : UInt32 → Bool) (answer : Bool) (s : Entry) : Entry :=
  if hit conn for_ s then { s with said := some answer } else s

/-- What a message of the pool says of the shares. -/
def heard (conn : Nat) : Input → List Entry → List Entry
  | .received (.submitSharesSuccess _ lastSeq _ _) => List.map (note conn (· ≤ lastSeq) true)
  | .received (.submitSharesError _ seq _) => List.map (note conn (· = seq) false)
  | _ => id

/-- The shares that a step writes. -/
def written (outs : List Output) : List Entry :=
  outs.filterMap fun
    | .share conn msg cb => some { conn, seq := msg.sequenceNumber, cb }
    | _ => none

/-- The verdicts that a step gives. -/
def given (outs : List Output) : List (Nat × Bool) :=
  outs.filterMap fun
    | .verdict cb accepted _ => some (cb, accepted)
    | _ => none

/-- How many connections there were. -/
def connections : Log → Nat
  | [] => 0
  | (.established, _) :: log => connections log + 1
  | _ :: log => connections log

/-- All shares, the latest first. -/
def ledger : Log → List Entry
  | [] => []
  | (i, outs) :: log => written outs ++ heard (connections log) i (ledger log)

/-- All verdicts, the latest first. -/
def verdicts : Log → List (Nat × Bool)
  | [] => []
  | (_, outs) :: log => given outs ++ verdicts log

def acknowledged (s : Entry) : Bool := s.said = some true

/-- Every callback is on its way to the strand, pending or answered, and once
so. What is pending is an open share of the live connection. A callback that got
`true` is that of an acknowledged share, and these are counted. -/
structure Sound (log : Log) (c : Client) : Prop where
  once : Once c.callbacks
    (c.posted.filterMap Posted.cb ++ c.pending.map Prod.snd ++ (verdicts log).map Prod.fst)
  live : ∀ e ∈ c.pending, c.connected = true ∧
    ∃ s ∈ ledger log, s.isOpen c.conn = true ∧ s.seq = e.1 ∧ s.cb = some e.2
  accepted : ∀ n, (n, true) ∈ verdicts log → ∃ s ∈ ledger log, s.cb = some n ∧ acknowledged s = true
  count : c.statAccepted = (ledger log).countP acknowledged

/-! ## The condition -/

/-- Nothing is pending when the connection goes or another comes; an
acknowledgement is for shares with callbacks only; a share with a callback gets
a number that no pending one has; and its extranonce can be read. -/
def Clear (log : Log) (c : Client) : Input → Prop
  | .connect => c.running = true → c.pending = []
  | .established | .teardown => c.pending = []
  | .received (.setupConnectionError _ _) | .received (.openMiningChannelError _ _) => c.pending = []
  | .received (.submitSharesSuccess _ lastSeq _ _) =>
    ∀ s ∈ ledger log, s.isOpen c.conn = true → s.seq ≤ lastSeq → s.cb.isSome = true
  | .submit s true =>
    (c.jobidMap.lookup s.jobId).isSome = true → c.channelOk = true →
      (hexToBytes s.en2FullHex).isSome = true
  | .runPosted => ∀ p ∈ c.posted.head?, c.connected = true → p.cb.isSome = true →
    c.nextSeq ∉ c.pending.map Prod.fst
  | _ => True

/-! ## The books -/

/-- The open shares with callbacks, as the table of pending ones. -/
def openShares (conn : Nat) (entries : List Entry) : List (UInt32 × Nat) :=
  (entries.filter (Entry.isOpen conn)).filterMap fun s => s.cb.map fun n => (s.seq, n)

/-- What is kept: the pending table is that of the pool's open shares. -/
structure Books (log : Log) (c : Client) : Prop where
  conn : connections log = c.conn
  conns : ∀ s ∈ ledger log, s.conn ≤ c.conn
  pending : c.pending = openShares c.conn (ledger log)
  live : c.pending ≠ [] → c.connected = true
  once : Once c.callbacks
    (c.posted.filterMap Posted.cb ++ c.pending.map Prod.snd ++ (verdicts log).map Prod.fst)
  accepted : ∀ n, (n, true) ∈ verdicts log → ∃ s ∈ ledger log, s.cb = some n ∧ acknowledged s = true
  count : c.statAccepted = (ledger log).countP acknowledged

section
variable {log : Log} {c : Client} {i : Input} {outs : List Output} {conn : Nat}

theorem mem_openShares {entries : List Entry} {e : UInt32 × Nat} :
    e ∈ openShares conn entries ↔
      ∃ s ∈ entries, s.isOpen conn = true ∧ s.seq = e.1 ∧ s.cb = some e.2 := by
  unfold openShares
  simp only [List.mem_filterMap, List.mem_filter, Option.map_eq_some_iff]
  constructor
  · rintro ⟨s, ⟨hs, ho⟩, n, hn, rfl⟩
    exact ⟨s, hs, ho, rfl, hn⟩
  · rintro ⟨s, hs, ho, hseq, hcb⟩
    exact ⟨s, ⟨hs, ho⟩, e.2, hcb, by rw [hseq]⟩

theorem Books.sound (h : Books log c) : Sound log c where
  once := h.once
  live e he := by
    refine ⟨h.live (List.ne_nil_of_mem he), ?_⟩
    rw [h.pending] at he
    exact mem_openShares.mp he
  accepted := h.accepted
  count := h.count

theorem books_initial (user : Str) (n : UInt8) : Books [] (initial user n) where
  conn := rfl
  conns := by simp [ledger]
  pending := rfl
  live := fun hp => absurd rfl hp
  once := once_nil
  accepted := by simp [verdicts]
  count := rfl

/-! ## Steps aside -/

/-- A step that neither shares nor verdicts have a part in. -/
structure Aside (c : Client) (r : Client × List Output) : Prop where
  posted : r.1.posted = c.posted
  pending : r.1.pending = c.pending
  connected : r.1.connected = c.connected
  conn : r.1.conn = c.conn
  count : r.1.statAccepted = c.statAccepted
  callbacks : r.1.callbacks = c.callbacks
  written : written r.2 = []
  given : given r.2 = []

/-- The input says nothing of shares, and opens no connection. -/
def Silent : Input → Prop
  | .established | .received (.submitSharesSuccess ..) | .received (.submitSharesError ..) => False
  | _ => True

theorem log_of_silent (h : Silent i) :
    connections ((i, outs) :: log) = connections log ∧
      ledger ((i, outs) :: log) = written outs ++ ledger log := by
  cases i with
  | established => exact h.elim
  | received msg => cases msg <;> first | exact h.elim | exact ⟨rfl, rfl⟩
  | _ => exact ⟨rfl, rfl⟩

theorem Books.aside (h : Books log c) {r : Client × List Output} (hs : Silent i)
    (ha : Aside c r) : Books ((i, r.2) :: log) r.1 := by
  obtain ⟨hconn, hledger⟩ := @log_of_silent log i r.2 hs
  rw [ha.written, List.nil_append] at hledger
  have hverdicts : verdicts ((i, r.2) :: log) = verdicts log := by
    show given r.2 ++ verdicts log = _
    rw [ha.given, List.nil_append]
  refine ⟨?_, ?_, ?_, ?_, ?_, ?_, ?_⟩
  · rw [hconn, ha.conn]
    exact h.conn
  · rw [hledger, ha.conn]
    exact h.conns
  · rw [hledger, ha.conn, ha.pending]
    exact h.pending
  · rw [ha.pending, ha.connected]
    exact h.live
  · rw [hverdicts, ha.posted, ha.pending, ha.callbacks]
    exact h.once
  · rw [hledger, hverdicts]
    exact h.accepted
  · rw [hledger, ha.count]
    exact h.count

/-- A connection goes while nothing is pending. -/
theorem Books.disconnect (h : Books log c) {r : Client × List Output} (hs : Silent i)
    (hempty : c.pending = []) (ha : Aside { c with connected := r.1.connected } r) :
    Books ((i, r.2) :: log) r.1 := by
  refine Books.aside (c := { c with connected := r.1.connected }) ?_ hs ha
  exact ⟨h.conn, h.conns, h.pending, fun hp => absurd hempty hp, h.once, h.accepted, h.count⟩

theorem aside_teardown :
    Aside { c with connected := (teardown c).1.connected } (teardown c) := by
  unfold teardown
  split <;> exact ⟨rfl, rfl, rfl, rfl, rfl, rfl, rfl, rfl⟩

theorem aside_rebuild (clean : Bool) : Aside c (rebuildAndBroadcast c clean) := by
  unfold rebuildAndBroadcast
  split <;> exact ⟨rfl, rfl, rfl, rfl, rfl, rfl, rfl, rfl⟩

/-- The messages that are not about shares or an error. -/
def Ordinary : Reply → Prop
  | .setupConnectionError .. | .openMiningChannelError .. => False
  | .submitSharesSuccess .. | .submitSharesError .. => False
  | _ => True

theorem aside_handleFrame {msg : Reply} (h : Ordinary msg) : Aside c (handleFrame c msg) := by
  cases msg with
  | setupConnectionError => exact h.elim
  | openMiningChannelError => exact h.elim
  | submitSharesSuccess => exact h.elim
  | submitSharesError => exact h.elim
  | openExtendedSuccess ok =>
    unfold handleFrame
    dsimp only
    split <;> exact ⟨rfl, rfl, rfl, rfl, rfl, rfl, rfl, rfl⟩
  | newExtendedMiningJob j =>
    unfold handleFrame onExtendedJob
    dsimp only
    split
    · have ha := aside_rebuild (c := { c with job := some (extJobOf j), statJobs := c.statJobs + 1 })
        false
      exact ⟨ha.posted, ha.pending, ha.connected, ha.conn, ha.count, ha.callbacks, ha.written,
        ha.given⟩
    · exact ⟨rfl, rfl, rfl, rfl, rfl, rfl, rfl, rfl⟩
  | setNewPrevHash ph =>
    unfold handleFrame onSetPrevHash
    dsimp only
    split
    · have ha := aside_rebuild (c := { c with prev := some (prevHashOf ph) }) true
      exact ⟨ha.posted, ha.pending, ha.connected, ha.conn, ha.count, ha.callbacks, ha.written,
        ha.given⟩
    · exact ⟨rfl, rfl, rfl, rfl, rfl, rfl, rfl, rfl⟩
  | _ => exact ⟨rfl, rfl, rfl, rfl, rfl, rfl, rfl, rfl⟩

/-! ## A new connection -/

theorem openShares_new {entries : List Entry} (h : ∀ s ∈ entries, s.conn ≤ conn) :
    openShares (conn + 1) entries = [] := by
  refine List.eq_nil_iff_forall_not_mem.mpr fun e he => ?_
  obtain ⟨s, hs, ho, -⟩ := mem_openShares.mp he
  have hle := h s hs
  simp only [Entry.isOpen, Bool.and_eq_true, decide_eq_true_eq] at ho
  omega

theorem Books.established (h : Books log c) (hempty : c.pending = []) :
    Books ((.established, (established c).2) :: log) (established c).1 where
  conn := congrArg (· + 1) h.conn
  conns := fun s hs => (h.conns s hs).trans (Nat.le_succ _)
  pending := hempty.trans (openShares_new h.conns).symm
  live := fun _ => rfl
  once := h.once
  accepted := h.accepted
  count := h.count

/-! ## A submit -/

/-- The callback of a call is answered in it. -/
theorem Books.answered (h : Books log c) (err : Str) (hi : Silent i) :
    Books ((i, Sv2UpstreamClient.answered (some c.callbacks) false err) :: log)
      { c with callbacks := c.callbacks + 1 } := by
  obtain ⟨hconn, hledger⟩ := @log_of_silent log i
    (Sv2UpstreamClient.answered (some c.callbacks) false err) hi
  refine ⟨hconn.trans h.conn, ?_, ?_, h.live, ?_, ?_, ?_⟩
  · rw [hledger]
    exact h.conns
  · rw [hledger]
    exact h.pending
  · refine h.once.issue ?_
    exact List.perm_middle
  · rintro n hn
    rw [hledger]
    rcases List.mem_cons.mp hn with hn | hn
    · cases hn
    · exact h.accepted n hn
  · rw [hledger]
    exact h.count

/-- The callback of a call is posted with its share. -/
theorem Books.post (h : Books log c) {p : Posted} (hcb : p.cb = some c.callbacks) (hi : Silent i) :
    Books ((i, []) :: log) { c with callbacks := c.callbacks + 1, posted := c.posted ++ [p] } := by
  obtain ⟨hconn, hledger⟩ := @log_of_silent log i [] hi
  refine ⟨hconn.trans h.conn, ?_, ?_, h.live, ?_, ?_, ?_⟩
  · rw [hledger]
    exact h.conns
  · rw [hledger]
    exact h.pending
  · refine h.once.issue ?_
    show ((c.posted ++ [p]).filterMap Posted.cb ++ c.pending.map Prod.snd ++ _).Perm _
    rw [List.filterMap_append, List.filterMap_cons_some hcb, List.filterMap_nil]
    simp only [List.append_assoc]
    exact List.perm_middle
  · rw [hledger]
    exact h.accepted
  · rw [hledger]
    exact h.count

/-- What a submit does. -/
theorem submit_cases (c : Client) (s : UpstreamSubmit) (cb : Option Nat) :
    (∃ err, submit c s cb = (c, Sv2UpstreamClient.answered cb false err)) ∨
      ((c.jobidMap.lookup s.jobId).isSome = true ∧ c.channelOk = true ∧
        hexToBytes s.en2FullHex = none ∧ submit c s cb = (c, [])) ∨
      ∃ p : Posted, p.cb = cb ∧ (hexToBytes s.en2FullHex).isSome = true ∧
        submit c s cb = ({ c with posted := c.posted ++ [p] }, []) := by
  unfold submit
  split
  · rename_i sv2Job hjob hup
    split
    · rename_i hhex
      exact .inr (.inl ⟨by rw [hjob]; rfl, hup, hhex, rfl⟩)
    · rename_i extranonce hhex
      split
      · exact .inr (.inr ⟨_, rfl, by rw [hhex]; rfl, rfl⟩)
      · exact .inl ⟨_, rfl⟩
  · exact .inl ⟨_, rfl⟩

theorem aside_submit (s : UpstreamSubmit) : (∃ p : Posted, p.cb = none ∧
    submit c s none = ({ c with posted := c.posted ++ [p] }, [])) ∨ submit c s none = (c, []) := by
  rcases submit_cases c s none with ⟨err, h⟩ | ⟨_, _, _, h⟩ | ⟨p, hp, _, h⟩
  · exact .inr h
  · exact .inr h
  · exact .inl ⟨p, hp, h⟩

theorem Books.submit (h : Books log c) {s : UpstreamSubmit} {cb : Bool}
    (hok : Clear log c (.submit s cb)) :
    Books ((.submit s cb, (submitNumbered c s cb).2) :: log) (submitNumbered c s cb).1 := by
  unfold submitNumbered
  cases cb with
  | true =>
    rw [if_pos rfl]
    rcases submit_cases { c with callbacks := c.callbacks + 1 } s (some c.callbacks) with
      ⟨err, hs⟩ | ⟨hjob, hup, hhex, hs⟩ | ⟨p, hp, _, hs⟩
    · rw [hs]
      exact h.answered err trivial
    · have hread := hok hjob hup
      rw [hhex] at hread
      cases hread
    · rw [hs]
      exact h.post hp trivial
  | false =>
    rw [if_neg (by simp)]
    rcases aside_submit (c := c) s with ⟨p, hp, hs⟩ | hs
    · rw [hs]
      refine ⟨h.conn, h.conns, h.pending, h.live, ?_, h.accepted, h.count⟩
      show Once c.callbacks ((c.posted ++ [p]).filterMap Posted.cb ++ _ ++ _)
      rw [List.filterMap_append, List.filterMap_cons_none hp, List.filterMap_nil, List.append_nil]
      exact h.once
    · rw [hs]
      exact ⟨h.conn, h.conns, h.pending, h.live, h.once, h.accepted, h.count⟩

/-! ## A posted share -/

theorem openShares_cons (s : Entry) (entries : List Entry) :
    openShares conn (s :: entries) =
      (if s.isOpen conn = true then (s.cb.map fun n => (s.seq, n)).toList else []) ++
        openShares conn entries := by
  unfold openShares
  by_cases ho : s.isOpen conn = true
  · rw [if_pos ho, List.filter_cons_of_pos ho]
    cases hcb : s.cb with
    | none => rw [List.filterMap_cons_none (by rw [hcb]; rfl)]; rfl
    | some n => rw [List.filterMap_cons_some (b := (s.seq, n)) (by rw [hcb]; rfl)]; rfl
  · rw [if_neg ho, List.filter_cons_of_neg ho]
    rfl

/-- The number is new, and nothing is thrown out for it. -/
theorem filter_new {seq : UInt32} (h : seq ∉ c.pending.map Prod.fst) :
    (c.pending.filter fun e => e.1 ≠ seq) = c.pending := by
  refine List.filter_eq_self.mpr fun e he => decide_eq_true fun hseq => h ?_
  exact hseq ▸ List.mem_map_of_mem he

/-- A posted share finds the link down. -/
theorem Books.linkDown (h : Books log c) {p : Posted} {posted : List Posted}
    (hp : c.posted = p :: posted) (err : Str) :
    Books ((.runPosted, Sv2UpstreamClient.answered p.cb false err) :: log) { c with posted } := by
  have honce := h.once
  rw [hp] at honce
  cases hcb : p.cb with
  | none =>
    rw [List.filterMap_cons_none hcb] at honce
    exact ⟨h.conn, h.conns, h.pending, h.live, honce, h.accepted, h.count⟩
  | some n =>
    rw [List.filterMap_cons_some hcb] at honce
    refine ⟨h.conn, h.conns, h.pending, h.live, honce.perm List.perm_middle, ?_, h.count⟩
    rintro m hm
    rcases List.mem_cons.mp hm with hm | hm
    · cases hm
    · exact h.accepted m hm

/-- A posted share is written. -/
theorem Books.write (h : Books log c) {p : Posted} {posted : List Posted}
    (hp : c.posted = p :: posted) (hup : c.connected = true)
    (hnew : p.cb.isSome = true → c.nextSeq ∉ c.pending.map Prod.fst) :
    Books ((.runPosted, (runPosted { c with posted } p).2) :: log)
      (runPosted { c with posted } p).1 := by
  have honce := h.once
  rw [hp] at honce
  unfold Sv2UpstreamClient.runPosted
  simp only [hup, Bool.not_true, Bool.false_eq_true, if_false]
  have hopen : Entry.isOpen c.conn { conn := c.conn, seq := c.nextSeq, cb := p.cb } = true := by
    simp [Entry.isOpen]
  have hledger : openShares c.conn ({ conn := c.conn, seq := c.nextSeq, cb := p.cb } :: ledger log)
      = (p.cb.map fun n => (c.nextSeq, n)).toList ++ c.pending := by
    rw [openShares_cons, if_pos hopen, h.pending]
  refine ⟨h.conn, ?_, ?_, fun _ => rfl, ?_, ?_, ?_⟩
  · intro s hs
    rcases List.mem_cons.mp hs with rfl | hs
    · exact Nat.le_refl _
    · exact h.conns s hs
  · refine Eq.trans ?_ hledger.symm
    cases hcb : p.cb with
    | none => rfl
    | some n =>
      show (c.nextSeq, n) :: (c.pending.filter fun e => e.1 ≠ c.nextSeq) = _
      rw [filter_new (hnew (by rw [hcb]; rfl))]
      rfl
  · cases hcb : p.cb with
    | none =>
      rw [List.filterMap_cons_none hcb] at honce
      exact honce
    | some n =>
      rw [List.filterMap_cons_some hcb] at honce
      show Once c.callbacks (posted.filterMap Posted.cb ++
        ((c.nextSeq, n) :: (c.pending.filter fun e => e.1 ≠ c.nextSeq)).map Prod.snd ++ _)
      rw [filter_new (hnew (by rw [hcb]; rfl))]
      refine honce.perm ?_
      rw [List.map_cons]
      exact (List.perm_middle.append_right _)
  · intro n hn
    obtain ⟨s, hs, hsaid⟩ := h.accepted n hn
    exact ⟨s, List.mem_cons_of_mem _ hs, hsaid⟩
  · exact h.count

theorem Books.runPosted (h : Books log c) {p : Posted} {posted : List Posted}
    (hp : c.posted = p :: posted) (hok : Clear log c .runPosted) :
    Books ((.runPosted, (runPosted { c with posted } p).2) :: log)
      (runPosted { c with posted } p).1 := by
  by_cases hup : c.connected = true
  · exact h.write hp hup (hok p (by rw [hp]; rfl) hup)
  · have hdown : Sv2UpstreamClient.runPosted { c with posted } p =
        ({ c with posted }, Sv2UpstreamClient.answered p.cb false "link down".toList) := by
      rw [Bool.not_eq_true] at hup
      simp [Sv2UpstreamClient.runPosted, hup]
    rw [hdown]
    exact h.linkDown hp _

/-! ## An answer -/

theorem note_open {k : Nat} {for_ : UInt32 → Bool} {answer : Bool} {s : Entry} :
    (note conn for_ answer s).isOpen k = (s.isOpen k && !hit conn for_ s) := by
  unfold note
  by_cases hs : hit conn for_ s = true
  · rw [if_pos hs, hs]
    simp [Entry.isOpen]
  · rw [if_neg hs]
    simp [hs]

theorem openShares_note (for_ : UInt32 → Bool) (answer : Bool) (entries : List Entry) :
    openShares conn (entries.map (note conn for_ answer)) =
      (openShares conn entries).filter fun e => !for_ e.1 := by
  induction entries with
  | nil => rfl
  | cons s rest ih =>
    rw [List.map_cons, openShares_cons, openShares_cons, List.filter_append, ih, note_open]
    congr 1
    unfold note hit
    cases ho : s.isOpen conn <;> cases hf : for_ s.seq <;> cases hcb : s.cb <;> simp [hf, hcb]

theorem acknowledged_note (for_ : UInt32 → Bool) (answer : Bool) (s : Entry) :
    acknowledged (note conn for_ answer s) = (acknowledged s || (hit conn for_ s && answer)) := by
  unfold note
  cases hs : hit conn for_ s with
  | true =>
    have hopen : s.said = none := by
      simp only [hit, Entry.isOpen, Bool.and_eq_true] at hs
      exact Option.isNone_iff_eq_none.mp hs.1.2
    rw [if_pos rfl]
    cases answer <;> simp [acknowledged, hopen]
  | false => simp

/-- An acknowledgement is one more for every share it is for. -/
theorem count_note (for_ : UInt32 → Bool) (entries : List Entry) :
    (entries.map (note conn for_ true)).countP acknowledged =
      entries.countP acknowledged + entries.countP (hit conn for_) := by
  induction entries with
  | nil => rfl
  | cons s rest ih =>
    have hone : acknowledged s = true → hit conn for_ s = false := by
      simp only [acknowledged, hit, Entry.isOpen, decide_eq_true_eq]
      intro hsaid
      simp [hsaid]
    rw [List.map_cons, List.countP_cons, List.countP_cons, List.countP_cons, ih,
      acknowledged_note]
    cases hs : acknowledged s with
    | true =>
      rw [hone hs]
      simp only [Bool.true_or, if_true, Bool.false_eq_true, if_false]
      omega
    | false =>
      simp only [Bool.false_or, Bool.and_true, Bool.false_eq_true, if_false]
      omega

/-- A refusal is none. -/
theorem count_note_refused (for_ : UInt32 → Bool) (entries : List Entry) :
    (entries.map (note conn for_ false)).countP acknowledged = entries.countP acknowledged := by
  rw [List.countP_map]
  refine List.countP_congr fun s _ => ?_
  show acknowledged (note conn for_ false s) = true ↔ _
  rw [acknowledged_note, Bool.and_false, Bool.or_false]

/-- The callbacks of the shares that an answer is for. -/
theorem length_answered (for_ : UInt32 → Bool) (entries : List Entry) :
    ((openShares conn entries).filter fun e => for_ e.1).length =
      entries.countP fun s => hit conn for_ s && s.cb.isSome := by
  induction entries with
  | nil => rfl
  | cons s rest ih =>
    rw [openShares_cons, List.filter_append, List.length_append, ih, List.countP_cons]
    unfold hit
    cases ho : s.isOpen conn <;> cases hf : for_ s.seq <;> cases hcb : s.cb
    all_goals simp [hf]
    omega

theorem given_verdicts (cbs : List (UInt32 × Nat)) (accepted : Bool) (err : Str) :
    given (cbs.map fun e => .verdict e.2 accepted err) = cbs.map fun e => (e.2, accepted) := by
  unfold given
  rw [List.filterMap_map]
  exact List.filterMap_eq_map_iff_forall_eq_some.mpr fun e _ => rfl

theorem written_verdicts (cbs : List (UInt32 × Nat)) (accepted : Bool) (err : Str) :
    written (cbs.map fun e => .verdict e.2 accepted err) = [] := by
  unfold written
  rw [List.filterMap_map, List.filterMap_eq_nil_iff]
  exact fun e _ => rfl

/-- The tickets of the shares that are answered move on. -/
theorem once_answered {posted answered : List Nat} {pending : List (UInt32 × Nat)} {n : Nat}
    (for_ : UInt32 → Bool) (accepted : Bool)
    (h : Once n (posted ++ pending.map Prod.snd ++ answered)) :
    Once n (posted ++ (pending.filter fun e => !for_ e.1).map Prod.snd ++
      (((pending.filter fun e => for_ e.1).map fun e => (e.2, accepted)).map Prod.fst
        ++ answered)) := by
  refine h.perm ?_
  have hsplit := ((List.perm_append_comm.trans
    (List.filter_append_perm (fun e => for_ e.1) pending)).map Prod.snd)
  rw [List.map_append] at hsplit
  rw [List.map_map, show (Prod.fst ∘ fun e : UInt32 × Nat => (e.2, accepted)) = Prod.snd from rfl,
    List.append_assoc, List.append_assoc]
  refine List.Perm.append_left posted ?_
  rw [← List.append_assoc]
  exact hsplit.append_right answered

theorem mem_note {for_ : UInt32 → Bool} {answer : Bool} {entries : List Entry} {n : Nat}
    (h : ∃ s ∈ entries, s.cb = some n ∧ acknowledged s = true) :
    ∃ s ∈ entries.map (note conn for_ answer), s.cb = some n ∧ acknowledged s = true := by
  obtain ⟨s, hs, hcb, hsaid⟩ := h
  refine ⟨_, List.mem_map_of_mem hs, ?_, ?_⟩
  · unfold note
    split <;> exact hcb
  · rw [acknowledged_note, hsaid]
    rfl

theorem conns_note {for_ : UInt32 → Bool} {answer : Bool} {entries : List Entry} {k : Nat}
    (h : ∀ s ∈ entries, s.conn ≤ k) : ∀ s ∈ entries.map (note conn for_ answer), s.conn ≤ k := by
  intro s hs
  obtain ⟨s', hs', rfl⟩ := List.mem_map.mp hs
  unfold note
  split <;> exact h s' hs'

/-- **An acknowledgement.** Each share it is for has a callback. -/
theorem Books.success (h : Books log c) {channelId lastSeq count : UInt32} {sum : UInt64}
    (hok : ∀ s ∈ ledger log, s.isOpen c.conn = true → s.seq ≤ lastSeq → s.cb.isSome = true) :
    Books ((.received (.submitSharesSuccess channelId lastSeq count sum),
      (onSubmitResult c lastSeq true []).2) :: log) (onSubmitResult c lastSeq true []).1 := by
  have hledger : ledger ((.received (.submitSharesSuccess channelId lastSeq count sum),
      (onSubmitResult c lastSeq true []).2) :: log) =
      (ledger log).map (note c.conn (· ≤ lastSeq) true) := by
    show written _ ++ (ledger log).map (note (connections log) _ true) = _
    rw [h.conn]
    exact congrArg (· ++ _) (written_verdicts _ true [])
  have hverdicts : verdicts ((.received (.submitSharesSuccess channelId lastSeq count sum),
      (onSubmitResult c lastSeq true []).2) :: log) =
      ((c.pending.filter fun e => decide (e.1 ≤ lastSeq)).map fun e => (e.2, true))
        ++ verdicts log :=
    congrArg (· ++ verdicts log) (given_verdicts _ true [])
  refine ⟨h.conn, ?_, ?_, ?_, ?_, ?_, ?_⟩
  · rw [hledger]
    exact conns_note h.conns
  · rw [hledger]
    show c.pending.filter _ = openShares c.conn _
    rw [openShares_note, ← h.pending]
    exact List.filter_congr fun e _ => decide_not
  · intro hne
    refine h.live fun hnil => hne ?_
    show c.pending.filter _ = []
    rw [hnil]
    rfl
  · rw [hverdicts]
    have honce := once_answered (fun seq => decide (seq ≤ lastSeq)) true h.once
    rw [List.map_append]
    refine honce.perm (List.Perm.of_eq ?_)
    show _ ++ (c.pending.filter fun e => decide ¬ e.1 ≤ lastSeq).map Prod.snd ++ _ = _
    simp only [decide_not]
    rfl
  · intro n hn
    rw [hledger]
    rw [hverdicts] at hn
    rcases List.mem_append.mp hn with hn | hn
    · obtain ⟨e, he, heq⟩ := List.mem_map.mp hn
      obtain ⟨he, hle⟩ := List.mem_filter.mp he
      rw [h.pending] at he
      obtain ⟨s, hs, ho, hseq, hcb⟩ := mem_openShares.mp he
      cases heq
      refine ⟨_, List.mem_map_of_mem hs, ?_, ?_⟩
      · unfold note
        split <;> exact hcb
      · rw [acknowledged_note, hit, ho, hseq, hle]
        simp
    · exact mem_note (h.accepted n hn)
  · rw [hledger, count_note]
    show c.statAccepted + (c.pending.filter fun e => decide (e.1 ≤ lastSeq)).length = _
    rw [h.count, h.pending, length_answered (fun seq => decide (seq ≤ lastSeq))]
    congr 1
    refine List.countP_congr fun s hs => ?_
    rw [Bool.and_eq_true]
    refine ⟨And.left, fun hhit => ⟨hhit, ?_⟩⟩
    simp only [hit, Bool.and_eq_true, decide_eq_true_eq] at hhit
    exact hok s hs hhit.1 hhit.2

/-- A refusal. -/
theorem Books.error (h : Books log c) {channelId seq : UInt32} {code : Str} :
    Books ((.received (.submitSharesError channelId seq code),
      (onSubmitResult c seq false code).2) :: log) (onSubmitResult c seq false code).1 := by
  have hledger : ledger ((.received (.submitSharesError channelId seq code),
      (onSubmitResult c seq false code).2) :: log) =
      (ledger log).map (note c.conn (· = seq) false) := by
    show written _ ++ (ledger log).map (note (connections log) _ false) = _
    rw [h.conn]
    exact congrArg (· ++ _) (written_verdicts _ false code)
  have hverdicts : verdicts ((.received (.submitSharesError channelId seq code),
      (onSubmitResult c seq false code).2) :: log) =
      ((c.pending.filter fun e => decide (e.1 = seq)).map fun e => (e.2, false))
        ++ verdicts log :=
    congrArg (· ++ verdicts log) (given_verdicts _ false code)
  refine ⟨h.conn, ?_, ?_, ?_, ?_, ?_, ?_⟩
  · rw [hledger]
    exact conns_note h.conns
  · rw [hledger]
    show c.pending.filter _ = openShares c.conn _
    rw [openShares_note, ← h.pending]
    exact List.filter_congr fun e _ => decide_not
  · intro hne
    refine h.live fun hnil => hne ?_
    show c.pending.filter _ = []
    rw [hnil]
    rfl
  · rw [hverdicts]
    have honce := once_answered (fun k => decide (k = seq)) false h.once
    rw [List.map_append]
    refine honce.perm (List.Perm.of_eq ?_)
    show _ ++ (c.pending.filter fun e => decide (e.1 ≠ seq)).map Prod.snd ++ _ = _
    simp only [ne_eq, decide_not]
    rfl
  · intro n hn
    rw [hledger]
    rw [hverdicts] at hn
    rcases List.mem_append.mp hn with hn | hn
    · obtain ⟨e, he, heq⟩ := List.mem_map.mp hn
      cases heq
    · exact mem_note (h.accepted n hn)
  · rw [hledger, count_note_refused]
    exact h.count

/-! ## Runs -/

theorem Books.step (h : Books log c) (hok : Clear log c i) {r : Client × List Output}
    (hr : react c i = some r) : Books ((i, r.2) :: log) r.1 := by
  cases i with
  | established =>
    obtain rfl := Option.some.inj hr
    exact h.established hok
  | teardown =>
    obtain rfl := Option.some.inj hr
    exact h.disconnect trivial hok aside_teardown
  | connect =>
    obtain rfl := Option.some.inj hr
    unfold connect
    split
    · rename_i hrun
      exact h.disconnect (r := (c.down, [])) trivial (hok hrun)
        ⟨rfl, rfl, rfl, rfl, rfl, rfl, rfl, rfl⟩
    · exact h.aside (r := (c, [])) trivial ⟨rfl, rfl, rfl, rfl, rfl, rfl, rfl, rfl⟩
  | submit s cb =>
    obtain rfl := Option.some.inj hr
    exact h.submit hok
  | runPosted =>
    unfold react at hr
    dsimp only at hr
    cases hp : c.posted with
    | nil =>
      rw [hp] at hr
      obtain rfl := Option.some.inj hr
      exact h.aside (r := (c, [])) trivial ⟨rfl, rfl, rfl, rfl, rfl, rfl, rfl, rfl⟩
    | cons p posted =>
      rw [hp] at hr
      obtain rfl := Option.some.inj hr
      exact h.runPosted hp hok
  | received msg =>
    obtain rfl := Option.some.inj hr
    cases msg with
    | setupConnectionError => exact h.disconnect trivial hok aside_teardown
    | openMiningChannelError => exact h.disconnect trivial hok aside_teardown
    | submitSharesSuccess => exact h.success hok
    | submitSharesError => exact h.error
    | _ => exact h.aside trivial (aside_handleFrame trivial)
  | attach sink =>
    obtain ⟨r', hr', rfl⟩ := Option.map_eq_some_iff.mp hr
    unfold attach at hr'
    split at hr'
    · obtain rfl := Option.some.inj hr'
      exact h.aside (r := (c, [.attached sink none])) trivial
        ⟨rfl, rfl, rfl, rfl, rfl, rfl, rfl, rfl⟩
    · obtain ⟨slotHex, _, rfl⟩ := Option.map_eq_some_iff.mp hr'
      exact h.aside (r := (_, [_])) trivial ⟨rfl, rfl, rfl, rfl, rfl, rfl, rfl, rfl⟩
  | _ =>
    obtain rfl := Option.some.inj hr
    exact h.aside (r := (_, _)) trivial ⟨rfl, rfl, rfl, rfl, rfl, rfl, rfl, rfl⟩

theorem books_of_run (run : Run Clear log c) : Books log c := by
  induction run with
  | init user n => exact books_initial user n
  | step run hoffer hok hs ih => exact ih.step hok hs

/-- **Every submit gets one verdict, and it is the pool's**, in every state of a
run whose steps meet the condition. -/
theorem verdicts_sound (log : Log) (c : Client) (run : Run Clear log c) : Sound log c :=
  (books_of_run run).sound

end

/-! ## Runs of one client -/

/-- The pool sends work. -/
def workComes : List Input :=
  channelOpens 8 ++
    [.received (.newExtendedMiningJob
        { channelId := 1, jobId := 1, minNtime := none, version := 0x20000000
          versionRollingAllowed := true, merklePath := [], coinbaseTxPrefix := [1]
          coinbaseTxSuffix := [2] }),
      .received (.setNewPrevHash
        { channelId := 1, jobId := 1, prevHash := .zero, minNtime := 7, nbits := 0x207fffff })]

/-- A share of that work is posted and written. -/
def shareGoes (cb : Bool) : List Input :=
  [.submit { jobId := hexPadded 8 1, en2FullHex := "0000000000000000".toList
             ntimeHex := "00000007".toList, nonceHex := "00000001".toList, versionBits := none } cb,
    .runPosted]

def acknowledges (lastSeq : UInt32) : Input := .received (.submitSharesSuccess 1 lastSeq 1 1)

/-- A callback got `true` for a share that was not acknowledged. -/
def falselyAccepted (log : Log) : Bool :=
  (verdicts log).any fun v =>
    v.2 && !(ledger log).any fun s => decide (s.cb = some v.1) && acknowledged s

theorem not_sound_of_false {log : Log} {c : Client} (h : falselyAccepted log = true) :
    ¬ Sound log c := by
  intro hs
  obtain ⟨v, hv, hbad⟩ := List.any_eq_true.mp h
  rw [Bool.and_eq_true, Bool.not_eq_true', List.any_eq_false] at hbad
  obtain ⟨s, hmem, hcb, hsaid⟩ := hs.accepted v.1 (by rw [← hbad.1]; exact hv)
  exact hbad.2 s hmem (by rw [hcb, hsaid]; simp)

/-- **A lost share is reported as accepted** by an acknowledgement for another
connection; and an acknowledged share without a callback is not counted. -/
theorem lost_share_accepted :
    (∃ log c, Run (fun _ _ _ => True) log c ∧ (ledger log).length = 2 ∧ ¬ Sound log c) ∧
      ∃ log c, Run (fun _ _ _ => True) log c ∧ (ledger log).length = 1 ∧ ¬ Sound log c := by
  constructor
  · obtain ⟨log, c, hrun, hbad⟩ := exists_run 2
      (workComes ++ shareGoes true ++ [.teardown] ++ workComes ++ shareGoes true
        ++ [acknowledges 2])
      (fun log _ => decide ((ledger log).length = 2) && falselyAccepted log) (by decide +kernel)
    simp only [Bool.and_eq_true, decide_eq_true_eq] at hbad
    exact ⟨log, c, hrun, hbad.1, not_sound_of_false hbad.2⟩
  · obtain ⟨log, c, hrun, hbad⟩ := exists_run 2
      (workComes ++ shareGoes false ++ [acknowledges 1])
      (fun log c => decide ((ledger log).length = 1) &&
        decide (c.statAccepted ≠ (ledger log).countP acknowledged)) (by decide +kernel)
    simp only [Bool.and_eq_true, decide_eq_true_eq] at hbad
    exact ⟨log, c, hrun, hbad.1, fun hs => hbad.2 hs.count⟩

/-- No connection is lost, every share has a callback, and numbers are new. -/
def clearly (_ : Log) (c : Client) : Input → Bool
  | .connect | .established => c.pending.isEmpty
  | .teardown | .received (.setupConnectionError _ _) | .received (.openMiningChannelError _ _) =>
    false
  | .received (.submitSharesSuccess _ _ _ _) => false
  | .submit s cb => cb && (hexToBytes s.en2FullHex).isSome
  | .runPosted => !(c.pending.map Prod.fst).contains c.nextSeq
  | _ => true

theorem clear_of_clearly (log : Log) (c : Client) (i : Input) (h : clearly log c i = true) :
    Clear log c i := by
  cases i with
  | received msg => cases msg <;> first | exact trivial | cases h
  | connect => exact fun _ => List.isEmpty_iff.mp h
  | established => exact List.isEmpty_iff.mp h
  | teardown => cases h
  | submit s cb =>
    cases cb with
    | true => exact fun _ _ => h
    | false => cases h
  | runPosted =>
    intro p _ _ _
    simpa [clearly] using h
  | _ => exact trivial

/-- A share is written and acknowledged. -/
theorem verdicts_sound_once :
    ∃ log c, Run Clear log c ∧ verdicts log = [(0, true)] ∧ Sound log c := by
  have h : (reactAll clearly ([], initial [] 2) (workComes ++ shareGoes true)).any
      (fun st => st.2.connected && (ledger st.1).all (fun s => s.cb.isSome) &&
        decide (verdicts ((acknowledges 1, (onSubmitResult st.2 1 true []).2) :: st.1) =
          [(0, true)])) = true := by
    decide +kernel
  obtain ⟨st, hst, hx⟩ := (Option.any_eq_true _ _).mp h
  simp only [Bool.and_eq_true, List.all_eq_true, decide_eq_true_eq] at hx
  obtain ⟨⟨hup, hcb⟩, hv⟩ := hx
  have hbefore : Run Clear st.1 st.2 := run_of_reactAll clear_of_clearly (.init [] 2) hst
  have hok : Clear st.1 st.2 (acknowledges 1) := fun s hs _ _ => hcb s hs
  have hrun : Run Clear ((acknowledges 1, (onSubmitResult st.2 1 true []).2) :: st.1)
      (onSubmitResult st.2 1 true []).1 := hbefore.step hup hok rfl
  exact ⟨_, _, hrun, hv, verdicts_sound _ _ hrun⟩

end MkPool.Sv2Verdicts
