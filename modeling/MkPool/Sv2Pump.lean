import MkPool.Sv2Wire

/-! # `sv2_upstream_client.cpp`: the write pump

What `send_sv2` posts to the strand, the queue its handlers fill, and the writes
on the socket, which is reused from one connection to the next. A write is on
the connection its socket was of; where there was none it can only fail. -/
namespace MkPool.Sv2Pump
open MkPool.Utils MkPool.Sv2Codec MkPool.Sv2Wire

/-! ## The pump -/

/-- A frame, with the connection `send_sv2` was called on. -/
structure Sent where
  conn : Option Nat
  bytes : Bytes
deriving DecidableEq

/-- An `async_write` that has not completed. -/
structure Write where
  num : Nat
  conn : Option Nat
deriving DecidableEq

/-- The write side of `Sv2UpstreamClient`. Not in the source: the connection the
socket is of, numbers for the frames, and what was queued, handed to
`async_write` and popped, the first first. -/
structure Pump where
  socket : Option Nat := none
  connections : Nat := 0
  posted : List Sent := []
  wq : List (Nat × Bytes) := []
  writing : Bool := false
  writes : List Write := []
  /-- The frames that were pushed, with the connection they were pushed on. -/
  pushes : List (Sent × Option Nat) := []
  handed : List (Nat × Bytes) := []
  /-- The frame that was written and the frame that was popped. -/
  pops : List (Nat × Nat) := []
deriving DecidableEq

/-- `SetupConnection`: the mining protocol, versions 2 to 2. -/
def setupPayload : Bytes :=
  writeU8 0 ++ writeU16 2 ++ writeU16 2 ++ writeU32 0 ++ writeStr0_255 [] ++ writeU16 0 ++
    writeStr0_255 "mkpool".toList ++ writeStr0_255 ['1'] ++ writeStr0_255 ['1'] ++
    writeStr0_255 "proxy".toList

def setupConnection : Bytes := wrapMessage 0 0 setupPayload

namespace Pump
variable (p : Pump)

/-- `send_sv2`. -/
def sendSv2 (msgType : UInt8) (payload : Bytes) : Pump :=
  { p with posted := p.posted ++ [{ conn := p.socket, bytes := wrapMessage 0 msgType payload }] }

def doWrite : Pump :=
  match p.wq with
  | [] => { p with writing := false }
  | (num, front) :: _ =>
    { p with
      writes := p.writes ++ [{ num, conn := p.socket }]
      handed := p.handed ++ p.socket.toList.map fun c => (c, front) }

/-- The handler of `send_sv2`. -/
def push (f : Sent) : Pump :=
  let p := { p with
    wq := p.wq ++ [(p.pushes.length, f.bytes)]
    pushes := p.pushes ++ [(f, p.socket)] }
  if p.writing then p else ({ p with writing := true }).doWrite

def teardown : Pump := { p with socket := none, wq := [], writing := false }

/-- The completion handler of `do_write`. A pop of an empty queue leaves no
result. -/
def onWritten (w : Write) (error : Bool) : Option Pump :=
  let p := { p with writes := p.writes.erase w }
  if error then some ({ p with writing := false }).teardown
  else
    match p.wq with
    | [] => none
    | (num, _) :: rest =>
      let p := { p with wq := rest, pops := p.pops ++ [(w.num, num)] }
      some (if rest.isEmpty then { p with writing := false } else p.doWrite)

end Pump

inductive Input where
  | send (msgType : UInt8) (payload : Bytes)
  /-- The next frame that was posted. -/
  | runs
  | completes (w : Write) (error : Bool)
  | teardown
  /-- A connect closes the socket before it opens it. -/
  | reopens
  | connects

/-- A write without a connection fails, and a connect is on a closed socket. -/
def Enabled (p : Pump) : Input → Prop
  | .runs => p.posted ≠ []
  | .completes w error => w ∈ p.writes ∧ (error = false → w.conn ≠ none)
  | .connects => p.socket = none
  | _ => True

def step (p : Pump) : Input → Option Pump
  | .send msgType payload => some (p.sendSv2 msgType payload)
  | .runs =>
    match p.posted with
    | [] => none
    | f :: rest => some ({ p with posted := rest }.push f)
  | .completes w error => p.onWritten w error
  | .teardown => some p.teardown
  | .reopens => some { p with socket := none }
  | .connects =>
    let p := { p with
      connections := p.connections + 1
      socket := some (p.connections + 1) }
    some (p.sendSv2 0 setupPayload)

/-! ## The property -/

/-- What was written on a connection, frame by frame. -/
def streamOn (p : Pump) (c : Nat) : List Bytes :=
  (p.handed.filter fun x => x.1 = c).map Prod.snd

/-- What was sent and queued while a connection was up. -/
def queuedOn (p : Pump) (c : Nat) : List Bytes :=
  (p.pushes.filter fun x => x.1.conn = some c ∧ x.2 = some c).map fun x => x.1.bytes

def writesOn (p : Pump) (c : Nat) : List Write := p.writes.filter fun w => w.conn = some c

/-- What the pump is to keep to, where the steps are as given. -/
structure Clean (fits : Pump → Input → Prop) (p : Pump) : Prop where
  pops_own : ∀ x ∈ p.pops, x.1 = x.2
  /-- An empty queue is not popped. -/
  front : ∀ input, Enabled p input → fits p input → (step p input).isSome
  one_write : ∀ c, (writesOn p c).length ≤ 1
  in_order : ∀ c, streamOn p c <+: queuedOn p c
  begins : ∀ c, ∀ f ∈ (streamOn p c).head?, f = setupConnection

/-- The steps that keep to it: a write that succeeded completes on its own
connection, and no frame waits for the strand when a connect completes. -/
def Fits (p : Pump) : Input → Prop
  | .completes w false => w.conn = p.socket
  | .connects => p.posted = []
  | _ => True

/-- The runs of a pump whose steps are as given. -/
inductive Run (fits : Pump → Input → Prop) : Pump → Prop where
  | new : Run fits {}
  | step {p p' : Pump} (h : Run fits p) (input : Input) (henabled : Enabled p input)
    (hfits : fits p input) (hstep : step p input = some p') : Run fits p'

/-! ## What every step keeps -/

/-- What holds of every connection there was. -/
structure Settled (p : Pump) : Prop where
  pops_own : ∀ x ∈ p.pops, x.1 = x.2
  one_write : ∀ c, (writesOn p c).length ≤ 1
  in_order : ∀ c, streamOn p c <+: queuedOn p c
  begins : ∀ c, ∀ f ∈ (queuedOn p c).head?, f = setupConnection
  unused : ∀ c, p.connections < c → streamOn p c = [] ∧ queuedOn p c = [] ∧ writesOn p c = []

/-- What holds of the connection that is up: all that waits for the strand is its
own, and it begins with `SetupConnection`. -/
structure Up (p : Pump) (c : Nat) : Prop where
  latest : c = p.connections
  own : ∀ f ∈ p.posted, f.conn = some c
  setup : queuedOn p c = [] → p.posted.head?.map Sent.bytes = some setupConnection

/-- The frames of the connection go out one after the other. -/
def Flows (p : Pump) (c : Nat) : Prop :=
  ∃ pre, queuedOn p c = pre ++ p.wq.map Prod.snd ∧
    streamOn p c = pre ++ (p.wq.map Prod.snd).take 1 ∧
    writesOn p c = (p.wq.take 1).map fun x => { num := x.1, conn := some c }

/-- They wait for a write of before the connection. -/
def Waits (p : Pump) (c : Nat) : Prop := p.wq ≠ [] ∧ streamOn p c = [] ∧ writesOn p c = []

structure Kept (p : Pump) : Prop extends Settled p where
  busy : p.writing = !p.wq.isEmpty
  current : ∀ c, p.socket = some c → Up p c ∧ (Flows p c ∨ Waits p c)

/-- The front is to be handed over. -/
structure Ready (p : Pump) : Prop extends Settled p where
  current : ∀ c, p.socket = some c → Up p c ∧
    ∃ pre, queuedOn p c = pre ++ p.wq.map Prod.snd ∧ streamOn p c = pre ∧ writesOn p c = []

section Logs
variable {p p' : Pump} {s : Option Nat}

theorem streamOn_append {bytes : Bytes}
    (h : p'.handed = p.handed ++ s.toList.map fun c => (c, bytes)) (c : Nat) :
    streamOn p' c = streamOn p c ++ if s = some c then [bytes] else [] := by
  unfold streamOn
  rw [h, List.filter_append, List.map_append]
  cases s with
  | none => rfl
  | some d =>
    by_cases hd : d = c
    · simp [hd]
    · simp [hd]

theorem queuedOn_append {f : Sent} (h : p'.pushes = p.pushes ++ [(f, s)]) (c : Nat) :
    queuedOn p' c = queuedOn p c ++ if f.conn = some c ∧ s = some c then [f.bytes] else [] := by
  unfold queuedOn
  rw [h, List.filter_append, List.map_append]
  by_cases hf : f.conn = some c ∧ s = some c
  · simp [hf]
  · simp [hf]

theorem writesOn_append {w : Write} (h : p'.writes = p.writes ++ [w]) (c : Nat) :
    writesOn p' c = writesOn p c ++ if w.conn = some c then [w] else [] := by
  unfold writesOn
  rw [h, List.filter_append]
  by_cases hw : w.conn = some c
  · simp [hw]
  · simp [hw]

theorem writesOn_erase {w : Write} (h : p'.writes = p.writes.erase w) (c : Nat) :
    writesOn p' c = (writesOn p c).erase w := by
  unfold writesOn
  rw [h, List.erase_filter]

end Logs

section Steps
variable {p : Pump}

theorem Ready.doWrite (h : Ready p) (hwriting : p.writing = true) (hwq : p.wq ≠ []) :
    Kept p.doWrite := by
  cases hfront : p.wq with
  | nil => exact absurd hfront hwq
  | cons x rest =>
    obtain ⟨num, front⟩ := x
    have hdo : p.doWrite = { p with
        writes := p.writes ++ [{ num, conn := p.socket }]
        handed := p.handed ++ p.socket.toList.map fun c => (c, front) } := by
      unfold Pump.doWrite
      rw [hfront]
    have hhanded : p.doWrite.handed = p.handed ++ p.socket.toList.map fun c => (c, front) := by
      rw [hdo]
    have hlast : p.doWrite.writes = p.writes ++ [{ num, conn := p.socket }] := by rw [hdo]
    have hstream (c : Nat) : streamOn p.doWrite c =
        streamOn p c ++ if p.socket = some c then [front] else [] := streamOn_append hhanded c
    have hwrites (c : Nat) : writesOn p.doWrite c = writesOn p c ++
        if p.socket = some c then [{ num, conn := p.socket }] else [] := writesOn_append hlast c
    have hqueued (c : Nat) : queuedOn p.doWrite c = queuedOn p c := by rw [hdo]; rfl
    have hwq' : p.doWrite.wq = (num, front) :: rest := by rw [hdo]; exact hfront
    refine {
      pops_own := ?_
      one_write := ?_
      in_order := ?_
      begins := ?_
      unused := ?_
      busy := ?_
      current := ?_ }
    · rw [hdo]
      exact h.pops_own
    · intro c
      rw [hwrites c]
      split
      · rename_i hc
        obtain ⟨-, pre, -, -, hnone⟩ := h.current c hc
        rw [hnone]
        exact Nat.le_refl 1
      · rw [List.append_nil]
        exact h.one_write c
    · intro c
      rw [hstream c, hqueued c]
      split
      · rename_i hc
        obtain ⟨-, pre, hqueue, hpre, -⟩ := h.current c hc
        rw [hqueue, hpre, hfront]
        exact (List.prefix_append_right_inj pre).mpr ⟨rest.map Prod.snd, rfl⟩
      · rw [List.append_nil]
        exact h.in_order c
    · intro c
      rw [hqueued c]
      exact h.begins c
    · intro c hc
      rw [hstream c, hqueued c, hwrites c]
      have hconn : p.connections < c := by rw [hdo] at hc; exact hc
      have hother : p.socket ≠ some c := fun hs => by
        have := (h.current c hs).1.latest
        omega
      rw [if_neg hother, if_neg hother, List.append_nil, List.append_nil]
      exact h.unused c hconn
    · rw [hwq', hdo]
      exact hwriting
    · intro c hc
      have hsocket : p.socket = some c := by rw [hdo] at hc; exact hc
      obtain ⟨hup, pre, hqueue, hpre, hnone⟩ := h.current c hsocket
      refine ⟨?_, .inl ⟨pre, ?_, ?_, ?_⟩⟩
      · rw [hdo]
        exact ⟨hup.latest, hup.own, hup.setup⟩
      · rw [hqueued c, hwq', hqueue, hfront]
      · rw [hstream c, hwq', if_pos hsocket, hpre]
        rfl
      · rw [hwrites c, hwq', if_pos hsocket, hnone, hsocket]
        rfl

/-- A frame joins the queue. -/
def Pump.join (p : Pump) (f : Sent) (rest : List Sent) : Pump :=
  { p with
    posted := rest
    wq := p.wq ++ [(p.pushes.length, f.bytes)]
    pushes := p.pushes ++ [(f, p.socket)] }

theorem Kept.join (h : Kept p) {f : Sent} {rest : List Sent} (hposted : p.posted = f :: rest) :
    Settled (p.join f rest) ∧ ∀ c, p.socket = some c → Up (p.join f rest) c ∧
      queuedOn (p.join f rest) c = queuedOn p c ++ [f.bytes] := by
  have hlog : (p.join f rest).pushes = p.pushes ++ [(f, p.socket)] := rfl
  have hqueued := queuedOn_append hlog
  have hown (c : Nat) (hc : p.socket = some c) : f.conn = some c :=
    (h.current c hc).1.own f (hposted ▸ List.mem_cons_self)
  have hhere (c : Nat) (hc : p.socket = some c) :
      queuedOn (p.join f rest) c = queuedOn p c ++ [f.bytes] := by
    rw [hqueued c, if_pos ⟨hown c hc, hc⟩]
  have hthere (c : Nat) (hc : p.socket ≠ some c) :
      queuedOn (p.join f rest) c = queuedOn p c := by
    rw [hqueued c, if_neg fun hboth => hc hboth.2, List.append_nil]
  refine ⟨?_, ?_⟩
  · refine {
      pops_own := h.pops_own
      one_write := h.one_write
      in_order := ?_
      begins := ?_
      unused := ?_ }
    · intro c
      rw [hqueued c]
      exact (h.in_order c).trans (List.prefix_append _ _)
    · intro c
      by_cases hc : p.socket = some c
      · rw [hhere c hc]
        cases hempty : queuedOn p c with
        | nil =>
          have hsetup := (h.current c hc).1.setup hempty
          rw [hposted] at hsetup
          rintro _ ⟨⟩
          exact Option.some.inj hsetup
        | cons g gs =>
          rintro _ ⟨⟩
          exact h.begins c g (by rw [hempty]; rfl)
      · rw [hthere c hc]
        exact h.begins c
    · intro c hc
      have hother : p.socket ≠ some c := fun hs => by
        have := (h.current c hs).1.latest
        have : p.connections < c := hc
        omega
      obtain ⟨hstream, hqueue, hwrites⟩ := h.unused c hc
      exact ⟨hstream, (hthere c hother).trans hqueue, hwrites⟩
  · intro c hc
    refine ⟨⟨(h.current c hc).1.latest, fun g hg => ?_, fun hempty => ?_⟩, hhere c hc⟩
    · exact (h.current c hc).1.own g (hposted ▸ List.mem_cons_of_mem f hg)
    · rw [hhere c hc] at hempty
      exact absurd (List.append_eq_nil_iff.mp hempty).2 (List.cons_ne_nil _ _)

theorem Kept.push (h : Kept p) {f : Sent} {rest : List Sent} (hposted : p.posted = f :: rest) :
    Kept ({ p with posted := rest }.push f) := by
  obtain ⟨hsettled, hcurrent⟩ := h.join hposted
  have hpush : { p with posted := rest }.push f = if p.writing then p.join f rest
      else ({ p.join f rest with writing := true }).doWrite := rfl
  have hmore : (p.join f rest).wq ≠ [] :=
    List.append_ne_nil_of_right_ne_nil _ (List.cons_ne_nil _ _)
  rw [hpush]
  cases hwq : p.wq with
  | nil =>
    have hidle : p.writing = false := by rw [h.busy, hwq]; rfl
    have hjoined : (p.join f rest).wq = [(p.pushes.length, f.bytes)] := by
      rw [Pump.join, hwq]
      rfl
    rw [if_neg (ne_true_of_eq_false hidle)]
    refine Ready.doWrite { toSettled := ?_, current := ?_ } rfl hmore
    · exact ⟨hsettled.pops_own, hsettled.one_write, hsettled.in_order, hsettled.begins,
        hsettled.unused⟩
    · intro c hc
      obtain ⟨hup, hqueue⟩ := hcurrent c hc
      rcases (h.current c hc).2 with ⟨pre, hpre, hstream, hwrites⟩ | ⟨hne, -, -⟩
      · rw [hwq] at hpre hstream hwrites
        refine ⟨⟨hup.latest, hup.own, hup.setup⟩, pre, ?_, ?_, hwrites⟩
        · show queuedOn (p.join f rest) c = pre ++ (p.join f rest).wq.map Prod.snd
          rw [hqueue, hpre, hjoined]
          simp
        · exact hstream.trans (List.append_nil pre)
      · exact absurd hwq hne
  | cons x xs =>
    have hbusy : p.writing = true := by rw [h.busy, hwq]; rfl
    have hjoined : (p.join f rest).wq = x :: (xs ++ [(p.pushes.length, f.bytes)]) := by
      rw [Pump.join, hwq]
      rfl
    rw [if_pos hbusy]
    refine { toSettled := hsettled, busy := ?_, current := ?_ }
    · rw [hjoined]
      exact hbusy
    · intro c hc
      obtain ⟨hup, hqueue⟩ := hcurrent c hc
      refine ⟨hup, ?_⟩
      rcases (h.current c hc).2 with ⟨pre, hpre, hstream, hwrites⟩ | ⟨-, hstream, hwrites⟩
      · rw [hwq] at hpre hstream hwrites
        refine .inl ⟨pre, ?_, ?_, ?_⟩
        · rw [hqueue, hpre, hjoined]
          simp
        · rw [hjoined]
          exact hstream
        · rw [hjoined]
          exact hwrites
      · exact .inr ⟨hmore, hstream, hwrites⟩

theorem Settled.teardown (h : Settled p) : Kept p.teardown where
  pops_own := h.pops_own
  one_write := h.one_write
  in_order := h.in_order
  begins := h.begins
  unused := h.unused
  busy := rfl
  current c hc := by cases hc

/-- A write is done with, whatever came of it. -/
theorem Settled.erase (h : Settled p) (w : Write) :
    Settled { p with writes := p.writes.erase w } := by
  have hwrites (c : Nat) : writesOn { p with writes := p.writes.erase w } c =
      (writesOn p c).erase w := writesOn_erase rfl c
  refine {
    pops_own := h.pops_own
    one_write := ?_
    in_order := h.in_order
    begins := h.begins
    unused := ?_ }
  · intro c
    rw [hwrites c]
    exact (List.erase_sublist.length_le).trans (h.one_write c)
  · intro c hc
    obtain ⟨hstream, hqueue, hnone⟩ := h.unused c hc
    refine ⟨hstream, hqueue, ?_⟩
    rw [hwrites c, hnone]
    rfl

theorem Ready.idle (h : Ready p) (hwriting : p.writing = false) (hwq : p.wq = []) : Kept p where
  toSettled := h.toSettled
  busy := by rw [hwriting, hwq]; rfl
  current c hc := by
    obtain ⟨hup, pre, hqueue, hstream, hwrites⟩ := h.current c hc
    refine ⟨hup, .inl ⟨pre, hqueue, ?_, ?_⟩⟩
    · rw [hwq, hstream]
      exact (List.append_nil pre).symm
    · rw [hwq]
      exact hwrites

/-- **A write completes.** A frame that was written is the one at the front. -/
theorem Kept.onWritten (h : Kept p) {w : Write} {error : Bool} (hw : w ∈ p.writes)
    (hconn : error = false → w.conn ≠ none) (hown : error = false → w.conn = p.socket) :
    ∃ p', p.onWritten w error = some p' ∧ Kept p' := by
  have hsettled := h.toSettled.erase w
  cases error with
  | true =>
    refine ⟨_, rfl, Settled.teardown ?_⟩
    exact ⟨hsettled.pops_own, hsettled.one_write, hsettled.in_order, hsettled.begins,
      hsettled.unused⟩
  | false =>
    obtain ⟨c, hc⟩ := Option.ne_none_iff_exists'.mp (hconn rfl)
    have hsocket : p.socket = some c := (hown rfl).symm.trans hc
    obtain ⟨hup, hflow⟩ := h.current c hsocket
    have hmem : w ∈ writesOn p c := List.mem_filter.mpr ⟨hw, decide_eq_true hc⟩
    rcases hflow with ⟨pre, hqueue, hstream, hwrites⟩ | ⟨-, -, hnone⟩
    · cases hwq : p.wq with
      | nil =>
        rw [hwrites, hwq] at hmem
        cases hmem
      | cons x rest =>
        obtain ⟨num, front⟩ := x
        rw [hwq] at hqueue hstream hwrites
        obtain rfl : w = { num, conn := some c } := by
          rw [hwrites] at hmem
          exact List.mem_singleton.mp hmem
        have hready : Ready { p with
            writes := p.writes.erase { num, conn := some c }
            wq := rest
            pops := p.pops ++ [(num, num)] } := by
          refine { toSettled := ⟨?_, hsettled.one_write, hsettled.in_order, hsettled.begins,
            hsettled.unused⟩, current := ?_ }
          · intro x hx
            rcases List.mem_append.mp hx with hx | hx
            · exact h.pops_own x hx
            · rw [List.mem_singleton.mp hx]
          · intro c' hc'
            obtain rfl : c = c' := Option.some.inj (hsocket.symm.trans hc')
            refine ⟨⟨hup.latest, hup.own, hup.setup⟩, pre ++ [front], ?_, hstream, ?_⟩
            · refine hqueue.trans ?_
              rw [List.append_assoc]
              rfl
            · refine (writesOn_erase rfl c).trans ?_
              rw [hwrites]
              exact List.erase_cons_head ..
        unfold Pump.onWritten
        rw [if_neg Bool.false_ne_true]
        dsimp only
        rw [hwq]
        dsimp only
        cases rest with
        | nil =>
          refine ⟨_, rfl, ?_⟩
          rw [List.isEmpty_nil, if_pos rfl]
          refine Ready.idle ⟨⟨hready.pops_own, hready.one_write, hready.in_order, hready.begins,
            hready.unused⟩, fun c' hc' => ?_⟩ rfl rfl
          obtain ⟨hup', rest'⟩ := hready.current c' hc'
          exact ⟨⟨hup'.latest, hup'.own, hup'.setup⟩, rest'⟩
        | cons y rest =>
          refine ⟨_, rfl, ?_⟩
          rw [List.isEmpty_cons, if_neg Bool.false_ne_true]
          refine hready.doWrite ?_ (List.cons_ne_nil _ _)
          show p.writing = true
          rw [h.busy, hwq]
          rfl
    · rw [hnone] at hmem
      cases hmem

theorem Kept.sendSv2 (h : Kept p) (msgType : UInt8) (payload : Bytes) :
    Kept (p.sendSv2 msgType payload) := by
  refine { toSettled := ?_, busy := h.busy, current := ?_ }
  · exact ⟨h.pops_own, h.one_write, h.in_order, h.begins, h.unused⟩
  · intro c hc
    obtain ⟨hup, hflow⟩ := h.current c hc
    refine ⟨⟨hup.latest, ?_, ?_⟩, hflow⟩
    · intro f hf
      rcases List.mem_append.mp hf with hf | hf
      · exact hup.own f hf
      · rw [List.mem_singleton.mp hf]
        exact hc
    · intro hempty
      have hsetup := hup.setup hempty
      cases hposted : p.posted with
      | nil =>
        rw [hposted] at hsetup
        cases hsetup
      | cons g gs =>
        rw [hposted] at hsetup
        rw [Pump.sendSv2, hposted]
        exact hsetup

/-- A new connection has written nothing, and its first frame waits. -/
theorem Kept.connects (h : Kept p) (hposted : p.posted = []) :
    Kept ({ p with
      connections := p.connections + 1
      socket := some (p.connections + 1) }.sendSv2 0 setupPayload) := by
  obtain ⟨hstream, hqueue, hwrites⟩ := h.unused (p.connections + 1) (Nat.lt_succ_self _)
  refine { toSettled := ?_, busy := h.busy, current := ?_ }
  · refine ⟨h.pops_own, h.one_write, h.in_order, h.begins, fun c hc => h.unused c ?_⟩
    have : p.connections + 1 < c := hc
    omega
  · rintro _ ⟨⟩
    refine ⟨⟨rfl, ?_, ?_⟩, ?_⟩
    · intro f hf
      have hone : f ∈ p.posted ++ [{ conn := some (p.connections + 1), bytes := _ }] := hf
      rw [hposted] at hone
      rw [List.mem_singleton.mp hone]
    · intro _
      rw [Pump.sendSv2, hposted]
      rfl
    · cases hwq : p.wq with
      | nil => exact .inl ⟨[], hqueue, hstream, hwrites⟩
      | cons x xs => exact .inr ⟨List.cons_ne_nil x xs, hstream, hwrites⟩

theorem Kept.after (h : Kept p) {input : Input} (henabled : Enabled p input)
    (hfits : Fits p input) : ∃ p', step p input = some p' ∧ Kept p' := by
  cases input with
  | send msgType payload => exact ⟨_, rfl, h.sendSv2 msgType payload⟩
  | runs =>
    cases hposted : p.posted with
    | nil => exact absurd hposted henabled
    | cons f rest =>
      refine ⟨_, ?_, h.push hposted⟩
      unfold step
      dsimp only
      rw [hposted]
  | completes w error =>
    refine h.onWritten henabled.1 henabled.2 ?_
    rintro rfl
    exact hfits
  | teardown => exact ⟨_, rfl, h.toSettled.teardown⟩
  | reopens =>
    refine ⟨_, rfl, ⟨⟨h.pops_own, h.one_write, h.in_order, h.begins, h.unused⟩, h.busy, ?_⟩⟩
    intro c hc
    cases hc
  | connects => exact ⟨_, rfl, h.connects hfits⟩

theorem Run.kept (h : Run Fits p) : Kept p := by
  induction h with
  | new =>
    refine ⟨⟨?_, ?_, ?_, ?_, ?_⟩, rfl, ?_⟩
    · intro x hx
      cases hx
    · exact fun _ => Nat.zero_le 1
    · exact fun _ => List.nil_prefix
    · intro c f hf
      cases hf
    · exact fun _ _ => ⟨rfl, rfl, rfl⟩
    · intro c hc
      cases hc
  | step _ input henabled hfits hstep ih =>
    obtain ⟨p', hp', hkept⟩ := ih.after henabled hfits
    obtain rfl := Option.some.inj (hp'.symm.trans hstep)
    exact hkept

end Steps

/-- **The pump never mixes connections** in a run of steps that fit. -/
theorem clean_of_fits {p : Pump} (h : Run Fits p) : Clean Fits p where
  pops_own := h.kept.pops_own
  front input henabled hfits := by
    obtain ⟨p', hp', -⟩ := h.kept.after henabled hfits
    rw [hp']
    rfl
  one_write := h.kept.one_write
  in_order := h.kept.in_order
  begins c f hf := by
    obtain ⟨rest, hrest⟩ := h.kept.in_order c
    refine h.kept.begins c f ?_
    cases hstream : streamOn p c with
    | nil =>
      rw [hstream] at hf
      cases hf
    | cons g gs =>
      rw [hstream] at hf hrest
      rw [← hrest]
      exact hf

/-- The first connection, with its first frame posted. -/
def connected : Pump where
  socket := some 1
  connections := 1
  posted := [{ conn := some 1, bytes := setupConnection }]

/-- The frame is being written. -/
def begun : Pump where
  socket := some 1
  connections := 1
  wq := [(0, setupConnection)]
  writing := true
  writes := [{ num := 0, conn := some 1 }]
  pushes := [({ conn := some 1, bytes := setupConnection }, some 1)]
  handed := [(1, setupConnection)]

theorem begun_run {fits : Pump → Input → Prop} (hconnects : fits {} .connects)
    (hruns : fits connected .runs) : Run fits begun := by
  have hconnected : Run fits connected := .step .new .connects rfl hconnects rfl
  exact .step hconnected .runs (List.cons_ne_nil _ _) hruns rfl

theorem clean_of_fits_begun : Clean Fits begun := clean_of_fits (begun_run rfl trivial)

/-- **An empty queue is popped.** The frame is written when the read fails: the
teardown runs first, and then the completion. -/
theorem teardown_before_completion :
    ¬ ∀ p, Run (fun _ _ => True) p → Clean (fun _ _ => True) p := by
  intro h
  have hdown : Run (fun _ _ => True) begun.teardown :=
    .step (begun_run trivial trivial) .teardown trivial trivial rfl
  have hsome := (h _ hdown).front (.completes { num := 0, conn := some 1 } false)
    ⟨List.mem_cons_self, fun _ => nofun⟩ trivial
  cases hsome

end MkPool.Sv2Pump
