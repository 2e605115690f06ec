import MkPool.Utils
import Mathlib.Logic.Function.Iterate

/-! # `zmq_client.cpp`: the notifications of the node

The socket's descriptor only reports that messages have come, where the socket
was seen to have none. So a handler that is woken must take all there are before
it waits again. -/
namespace MkPool.ZmqClient
open MkPool.Utils (Str)

/-! ## The client -/

/-- Where `asyncReceive` is: not there, at its wait, at the loop's test, or before
one of the three `recv`. -/
inductive Phase where
  | idle
  | waiting
  | polling
  | topic
  | data (topic : Str)
  | seq (topic data : Str)

/-- The client and its socket: the frames that have come, whether the socket was
seen to have none, and whether its descriptor has something to report. -/
structure State where
  queue : List Str := []
  drained : Bool := true
  edge : Bool := false
  running : Bool := false
  stopped : Bool := false
  phase : Phase := .idle
  published : List (List Str) := []
  delivered : List (Str × Str) := []

/-- A message comes, with all its frames at once. -/
def publish (s : State) (frames : List Str) : State :=
  { s with
    queue := s.queue ++ frames
    edge := s.edge || s.drained
    drained := false
    published := s.published ++ [frames] }

/-- The descriptor is gone after a `stop`. -/
def start (s : State) : State :=
  { s with running := true, phase := if s.stopped then .idle else .waiting }

def stop (s : State) : State :=
  if s.stopped then s
  else
    { s with
      stopped := true
      running := false
      phase := match s.phase with
        | .waiting => .idle
        | ph => ph }

/-- The end of the handler: `asyncReceive` again, or not. -/
def leave (s : State) : State := { s with phase := if s.running then .waiting else .idle }

/-- `ZMQ_EVENTS`, and the loop's tests. -/
def poll (s : State) : State :=
  if !s.running then leave s
  else if s.queue.isEmpty then leave { s with drained := true }
  else { s with phase := .topic }

/-- A `recv` that does not wait: an empty message where none has come. -/
def recv (s : State) : Str × State :=
  match s.queue with
  | [] => ([], { s with drained := true })
  | f :: queue => (f, { s with queue })

/-- The handler up to its next access of the socket. -/
def go (s : State) : State :=
  match s.phase with
  | .idle | .waiting => s
  | .polling => poll s
  | .topic =>
    match recv s with
    | ([], s) => leave s
    | (f, s) => { s with phase := .data f }
  | .data t =>
    match recv s with
    | (f, s) => { s with phase := .seq t f }
  | .seq t d =>
    match recv s with
    | (_, s) => { s with phase := .polling, delivered := s.delivered ++ [(t, d)] }

/-- An access of the socket that throws, as one does that a signal interrupts. -/
def interrupt (s : State) : Option State :=
  match s.phase with
  | .idle | .waiting => none
  | _ => some (leave s)

inductive Input where
  | publish (frames : List Str)
  | start
  | wake
  | go
  | interrupt
  | stop

/-- A client is started once. It is stopped by its callback, or while it waits. -/
def step (s : State) : Input → Option State
  | .publish frames => some (publish s frames)
  | .start => match s.phase with
    | .idle => some (start s)
    | _ => none
  | .wake => match s.phase with
    | .waiting => if s.edge then some { s with edge := false, phase := .polling } else none
    | _ => none
  | .go => match s.phase with
    | .idle | .waiting => none
    | _ => some (go s)
  | .interrupt => interrupt s
  | .stop => match s.phase with
    | .topic | .data _ | .seq _ _ => none
    | _ => some (stop s)

inductive Run (ok : State → Input → Prop) : State → Prop where
  | init : Run ok {}
  | step {s s' : State} {i : Input} (h : Run ok s) (hok : ok s i) (hs : step s i = some s') :
    Run ok s'

/-! ## The handler's stretches -/

section Stretches

variable {s : State} {f t d : Str} {queue : List Str}

theorem go_off (hp : s.phase = .polling) (hr : s.running = false) :
    go s = { s with phase := .idle } := by
  unfold go poll leave
  rw [hp, hr]
  rfl

theorem go_empty (hp : s.phase = .polling) (hr : s.running = true) (hq : s.queue = []) :
    go s = { s with drained := true, phase := .waiting } := by
  unfold go poll leave
  rw [hp, hr, hq]
  rfl

theorem go_more (hp : s.phase = .polling) (hr : s.running = true) (hq : s.queue = f :: queue) :
    go s = { s with phase := .topic } := by
  unfold go poll
  rw [hp, hr, hq]
  rfl

theorem go_topic (hp : s.phase = .topic) (hq : s.queue = f :: queue) (hf : f ≠ []) :
    go s = { s with queue, phase := .data f } := by
  unfold go recv
  rw [hp, hq]
  cases f with
  | nil => exact absurd rfl hf
  | cons c f => rfl

theorem go_data (hp : s.phase = .data t) (hq : s.queue = f :: queue) :
    go s = { s with queue, phase := .seq t f } := by
  unfold go recv
  rw [hp, hq]

theorem go_seq (hp : s.phase = .seq t d) (hq : s.queue = f :: queue) :
    go s = { s with queue, phase := .polling, delivered := s.delivered ++ [(t, d)] } := by
  unfold go recv
  rw [hp, hq]

end Stretches

/-! ## Runs without interrupts -/

/-- Topic, data and sequence number. -/
structure Message where
  topic : Str
  data : Str
  seq : Str

def Message.frames (m : Message) : List Str := [m.topic, m.data, m.seq]

def Message.pair (m : Message) : Str × Str := (m.topic, m.data)

/-- The node's messages have three frames. -/
def Framed : State → Input → Prop
  | _, .publish frames => ∃ m : Message, m.topic ≠ [] ∧ frames = m.frames
  | _, _ => True

/-- No access is interrupted either. -/
def Calm (s : State) (i : Input) : Prop := Framed s i ∧ i ≠ .interrupt

/-- The handler has been woken, and has not come to its end. -/
def Handling : Phase → Prop
  | .idle | .waiting => False
  | _ => True

/-- The frames of the messages `rest` that have not been taken yet. -/
def Left (rest : List Message) (s : State) : Prop :=
  match s.phase with
  | .data t => ∃ m later, rest = m :: later ∧ t = m.topic ∧
      s.queue = m.data :: m.seq :: later.flatMap Message.frames
  | .seq t d => ∃ m later, rest = m :: later ∧ t = m.topic ∧ d = m.data ∧
      s.queue = m.seq :: later.flatMap Message.frames
  | _ => s.queue = rest.flatMap Message.frames

/-- What holds in such a run, with the messages that were handed on and those
that were not. -/
structure Sound (s : State) (done rest : List Message) : Prop where
  published : s.published = (done ++ rest).map Message.frames
  delivered : s.delivered = done.map Message.pair
  topics : ∀ m ∈ rest, m.topic ≠ []
  left : Left rest s
  drained : s.drained = true → s.queue = []
  polled : s.phase = .topic → s.queue ≠ []
  armed : s.stopped = false → (s.phase = .idle ∨ s.phase = .waiting) →
    s.drained = true ∨ s.edge = true
  halted : s.running = false → s.stopped = true ∨ s.phase = .idle
  ended : s.stopped = true → s.phase ≠ .idle → s.running = false
  waits : s.phase = .waiting → s.stopped = false
  reports : s.edge = true → s.drained = false
  busy : Handling s.phase → s.drained = false ∧ s.edge = false

section Steps

variable {s s' : State} {done rest : List Message}

/-- What a message's arrival leaves of the frames to take. -/
theorem Left.publish (h : Left rest s) (m : Message) :
    Left (rest ++ [m]) (publish s m.frames) := by
  unfold Left at h ⊢
  unfold ZmqClient.publish
  cases hp : s.phase with
  | data t =>
    rw [hp] at h
    obtain ⟨n, later, rfl, ht, hq⟩ := h
    exact ⟨n, later ++ [m], rfl, ht, by simp [hq]⟩
  | seq t d =>
    rw [hp] at h
    obtain ⟨n, later, rfl, ht, hd, hq⟩ := h
    exact ⟨n, later ++ [m], rfl, ht, hd, by simp [hq]⟩
  | _ =>
    rw [hp] at h
    simp only at h ⊢
    simp [h]

theorem Sound.publish (h : Sound s done rest) {m : Message} (hm : m.topic ≠ []) :
    Sound (publish s m.frames) done (rest ++ [m]) where
  published := by
    show s.published ++ [m.frames] = _
    rw [h.published, ← List.append_assoc, @List.map_append _ _ _ _ [m]]
    rfl
  delivered := h.delivered
  topics n hn := by
    rcases List.mem_append.mp hn with hn | hn
    · exact h.topics n hn
    · rw [List.mem_singleton.mp hn]
      exact hm
  left := h.left.publish m
  drained hd := (nomatch hd)
  polled _ := by
    show s.queue ++ m.frames ≠ []
    simp [Message.frames]
  armed hs hp := .inr (by
    show (s.edge || s.drained) = true
    rw [Bool.or_comm, Bool.or_eq_true]
    exact h.armed hs hp)
  halted := h.halted
  ended := h.ended
  waits := h.waits
  reports _ := rfl
  busy hb := by
    obtain ⟨hd, he⟩ := h.busy hb
    exact ⟨rfl, by show (s.edge || s.drained) = false; rw [hd, he]; rfl⟩

/-- The handler's next stretch: a message is handed on when its last frame is
taken. -/
theorem Sound.go (h : Sound s done rest) : ∃ done' rest', done' ++ rest' = done ++ rest ∧
    Sound (go s) done' rest' := by
  have hleft := h.left
  unfold Left at hleft
  cases hp : s.phase with
  | idle | waiting =>
    unfold ZmqClient.go
    rw [hp]
    exact ⟨done, rest, rfl, h⟩
  | polling =>
    rw [hp] at hleft
    have hbusy := h.busy (by rw [hp]; trivial)
    refine ⟨done, rest, rfl, ?_⟩
    cases hr : s.running with
    | false =>
      have hstopped : s.stopped = true :=
        (h.halted hr).resolve_right (by rw [hp]; exact nofun)
      rw [go_off hp hr]
      exact ⟨h.published, h.delivered, h.topics, hleft, h.drained, nofun,
        fun hs => absurd (hstopped.symm.trans hs) nofun, fun _ => .inl hstopped,
        fun _ hne => absurd rfl hne, nofun, h.reports, False.elim⟩
    | true =>
      have hopen : s.stopped = false := by
        by_contra hs
        have hoff := h.ended (by simpa using hs) (by rw [hp]; exact nofun)
        rw [hr] at hoff
        cases hoff
      cases hq : s.queue with
      | nil =>
        rw [go_empty hp hr hq]
        exact ⟨h.published, h.delivered, h.topics, hleft, fun _ => hq, nofun,
          fun _ _ => .inl rfl, fun hf => absurd (hr.symm.trans hf) nofun,
          fun hs _ => h.ended hs (by rw [hp]; exact nofun), fun _ => hopen,
          fun he => absurd (hbusy.2.symm.trans he) nofun, False.elim⟩
      | cons f queue =>
        rw [go_more hp hr hq]
        exact ⟨h.published, h.delivered, h.topics, hleft, h.drained,
          fun _ => hq ▸ List.cons_ne_nil f queue,
          fun _ hor => (by rcases hor with hor | hor <;> cases hor),
          fun hf => absurd (hr.symm.trans hf) nofun,
          fun hs _ => h.ended hs (by rw [hp]; exact nofun), nofun, h.reports, fun _ => hbusy⟩
  | topic =>
    rw [hp] at hleft
    have hbusy := h.busy (by rw [hp]; trivial)
    have hdrained (hd : s.drained = true) : False := absurd (hbusy.1.symm.trans hd) nofun
    cases rest with
    | nil => exact absurd hleft (h.polled hp)
    | cons m later =>
      have hq : s.queue = m.topic :: m.data :: m.seq :: later.flatMap Message.frames := hleft
      rw [go_topic hp hq (h.topics m List.mem_cons_self)]
      exact ⟨done, m :: later, rfl, h.published, h.delivered, h.topics, ⟨m, later, rfl, rfl, rfl⟩,
        fun hd => (hdrained hd).elim, nofun,
        fun _ hor => (by rcases hor with hor | hor <;> cases hor),
        fun hf => .inl ((h.halted hf).resolve_right (by rw [hp]; exact nofun)),
        fun hs _ => h.ended hs (by rw [hp]; exact nofun), nofun, h.reports, fun _ => hbusy⟩
  | data t =>
    rw [hp] at hleft
    obtain ⟨m, later, rfl, rfl, hq⟩ := hleft
    have hbusy := h.busy (by rw [hp]; trivial)
    have hdrained (hd : s.drained = true) : False := absurd (hbusy.1.symm.trans hd) nofun
    rw [go_data hp hq]
    exact ⟨done, m :: later, rfl, h.published, h.delivered, h.topics,
      ⟨m, later, rfl, rfl, rfl, rfl⟩, fun hd => (hdrained hd).elim, nofun,
      fun _ hor => (by rcases hor with hor | hor <;> cases hor),
      fun hf => .inl ((h.halted hf).resolve_right (by rw [hp]; exact nofun)),
      fun hs _ => h.ended hs (by rw [hp]; exact nofun), nofun, h.reports, fun _ => hbusy⟩
  | seq t d =>
    rw [hp] at hleft
    obtain ⟨m, later, rfl, rfl, rfl, hq⟩ := hleft
    have hbusy := h.busy (by rw [hp]; trivial)
    have hdrained (hd : s.drained = true) : False := absurd (hbusy.1.symm.trans hd) nofun
    rw [go_seq hp hq]
    refine ⟨done ++ [m], later, by simp, ⟨?_, ?_, ?_, rfl, fun hd => (hdrained hd).elim, nofun,
      fun _ hor => (by rcases hor with hor | hor <;> cases hor),
      fun hf => .inl ((h.halted hf).resolve_right (by rw [hp]; exact nofun)),
      fun hs _ => h.ended hs (by rw [hp]; exact nofun), nofun, h.reports, fun _ => hbusy⟩⟩
    · rw [h.published, List.append_assoc]
      rfl
    · rw [List.map_append, ← h.delivered]
      rfl
    · exact fun n hn => h.topics n (List.mem_cons_of_mem _ hn)

theorem Sound.step {i : Input} (h : Sound s done rest) (hok : Framed s i) (hi : i ≠ .interrupt)
    (hs : step s i = some s') : ∃ done' rest', Sound s' done' rest' := by
  have hleft := h.left
  unfold Left at hleft
  cases i with
  | publish frames =>
    obtain ⟨m, hm, rfl⟩ := hok
    cases hs
    exact ⟨done, _, h.publish hm⟩
  | interrupt => exact absurd rfl hi
  | go =>
    simp only [ZmqClient.step] at hs
    obtain ⟨done', rest', -, h'⟩ := h.go
    split at hs <;> cases hs
    exact ⟨done', rest', h'⟩
  | start =>
    simp only [ZmqClient.step] at hs
    split at hs <;> cases hs
    rename_i hp
    rw [hp] at hleft
    refine ⟨done, rest, ?_⟩
    unfold start
    cases hstopped : s.stopped with
    | true =>
      exact ⟨h.published, h.delivered, h.topics, hleft, h.drained, nofun, nofun, nofun,
        fun _ hne => absurd rfl hne, nofun, h.reports, False.elim⟩
    | false =>
      exact ⟨h.published, h.delivered, h.topics, hleft, h.drained, nofun,
        fun _ _ => h.armed hstopped (.inl hp), nofun, nofun, fun _ => rfl, h.reports,
        False.elim⟩
  | wake =>
    simp only [ZmqClient.step] at hs
    split at hs
    · rename_i hp
      rw [hp] at hleft
      split at hs <;> cases hs
      rename_i hedge
      exact ⟨done, rest, h.published, h.delivered, h.topics, hleft, h.drained, nofun,
        fun _ hor => (by rcases hor with hor | hor <;> cases hor),
        fun hf => .inl ((h.halted hf).resolve_right (by rw [hp]; exact nofun)),
        fun hs _ => h.ended hs (by rw [hp]; exact nofun), nofun, nofun,
        fun _ => ⟨h.reports hedge, rfl⟩⟩
    · cases hs
  | stop =>
    simp only [ZmqClient.step] at hs
    refine ⟨done, rest, ?_⟩
    cases hp : s.phase with
    | topic | data | seq =>
      rw [hp] at hs
      cases hs
    | idle | waiting | polling =>
      rw [hp] at hs hleft
      cases hs
      unfold stop
      split
      · exact h
      · rw [hp]
        exact ⟨h.published, h.delivered, h.topics, hleft, h.drained, nofun, nofun,
          fun _ => .inl rfl, fun _ _ => rfl, nofun, h.reports,
          fun hb => h.busy (by rw [hp]; exact hb)⟩

theorem sound_of_run (h : Run Calm s) : ∃ done rest, Sound s done rest := by
  induction h with
  | init =>
    exact ⟨[], [], rfl, rfl, nofun, rfl, fun _ => rfl, nofun, fun _ _ => .inl rfl,
      fun _ => .inr rfl, nofun, nofun, nofun, False.elim⟩
  | step _ hok hs ih =>
    obtain ⟨done, rest, h⟩ := ih
    exact h.step hok.1 hok.2 hs

/-! ## A handler that is woken -/

/-- A message takes four stretches. -/
theorem go_message {m : Message} {queue : List Str} (hp : s.phase = .polling)
    (hr : s.running = true) (hm : m.topic ≠ []) (hq : s.queue = m.frames ++ queue) :
    go^[4] s = { s with queue, delivered := s.delivered ++ [m.pair] } := by
  have hq' : s.queue = m.topic :: m.data :: m.seq :: queue := hq
  have htopic := go_topic (s := { s with phase := .topic }) rfl hq' hm
  have hdata := go_data (s := { s with queue := m.data :: m.seq :: queue, phase := .data m.topic })
    rfl rfl
  have hseq := go_seq (s := { s with queue := m.seq :: queue, phase := .seq m.topic m.data })
    rfl rfl
  show go (go (go (go s))) = _
  rw [go_more hp hr hq', htopic, hdata, hseq, hp]
  rfl

/-- All the messages there are, and the wait. -/
theorem go_messages (hp : s.phase = .polling) (hr : s.running = true)
    (hm : ∀ m ∈ rest, m.topic ≠ []) (hq : s.queue = rest.flatMap Message.frames) :
    go^[4 * rest.length + 1] s =
      { s with
        queue := []
        drained := true
        phase := .waiting
        delivered := s.delivered ++ rest.map Message.pair } := by
  induction rest generalizing s with
  | nil =>
    have hq : s.queue = [] := hq
    show go s = _
    rw [go_empty hp hr hq, ← hq, List.map_nil, List.append_nil]
  | cons m later ih =>
    have hlen : 4 * (m :: later).length + 1 = (4 * later.length + 1) + 4 := by
      rw [List.length_cons]
      omega
    have hlater := ih (s := { s with
      queue := later.flatMap Message.frames, delivered := s.delivered ++ [m.pair] })
      hp hr (fun n hn => hm n (List.mem_cons_of_mem _ hn)) rfl
    rw [hlen, Function.iterate_add_apply,
      go_message hp hr (hm m List.mem_cons_self) (hq.trans List.flatMap_cons), hlater,
      List.append_assoc]
    rfl

end Steps

/-- Nothing wakes the client any more: messages have come since its socket was
seen to have none, and the descriptor has reported them. -/
structure Deaf (s : State) : Prop where
  phase : s.phase = .waiting ∨ s.phase = .idle ∧ s.stopped = true
  edge : s.edge = false
  drained : s.drained = false

/-- What can follow a state. -/
inductive Later (s : State) : State → Prop where
  | refl : Later s s
  | step {t t' : State} {i : Input} (h : Later s t) (hs : step t i = some t') : Later s t'

section Interrupts

variable {s s' : State}

theorem Deaf.wake (h : Deaf s) : step s .wake = none := by
  rcases h.phase with hp | ⟨hp, _⟩
  · simp [ZmqClient.step, hp, h.edge]
  · simp [ZmqClient.step, hp]

theorem Deaf.step {i : Input} (h : Deaf s) (hs : step s i = some s') :
    Deaf s' ∧ s'.delivered = s.delivered := by
  cases i with
  | publish frames =>
    cases hs
    refine ⟨⟨h.phase, ?_, rfl⟩, rfl⟩
    show (s.edge || s.drained) = false
    rw [h.edge, h.drained]
    rfl
  | wake =>
    rw [h.wake] at hs
    cases hs
  | go | interrupt =>
    rcases h.phase with hp | ⟨hp, _⟩ <;>
      simp [ZmqClient.step, interrupt, hp] at hs
  | start =>
    simp only [ZmqClient.step] at hs
    rcases h.phase with hp | ⟨hp, hstopped⟩ <;> rw [hp] at hs <;> cases hs
    refine ⟨⟨.inr ⟨?_, hstopped⟩, h.edge, h.drained⟩, rfl⟩
    show (if s.stopped = true then Phase.idle else .waiting) = .idle
    rw [if_pos hstopped]
  | stop =>
    have hs' : s' = stop s := by
      simp only [ZmqClient.step] at hs
      rcases h.phase with hp | ⟨hp, _⟩ <;> rw [hp] at hs <;> cases hs <;> rfl
    subst hs'
    unfold stop
    split
    · exact ⟨h, rfl⟩
    · refine ⟨⟨.inr ⟨?_, rfl⟩, h.edge, h.drained⟩, rfl⟩
      rcases h.phase with hp | ⟨hp, _⟩
      · simp only [hp]
      · simp only [hp]

theorem Deaf.later (h : Deaf s) (hl : Later s s') : Deaf s' ∧ s'.delivered = s.delivered := by
  induction hl with
  | refl => exact ⟨h, rfl⟩
  | step _ hs ih =>
    obtain ⟨hdeaf, heq⟩ := ih.1.step hs
    exact ⟨hdeaf, heq.trans ih.2⟩

/-- An interrupt in the handler leaves it deaf. -/
theorem Sound.interrupt {done rest : List Message} (h : Sound s done rest)
    (hs : interrupt s = some s') : Deaf s' ∧ s'.delivered = s.delivered := by
  have hhandling : Handling s.phase ∧ s' = leave s := by
    unfold ZmqClient.interrupt at hs
    split at hs <;> cases hs
    rename_i hwaiting hidle
    cases hp : s.phase with
    | idle => exact absurd hp hwaiting
    | waiting => exact absurd hp hidle
    | _ => exact ⟨trivial, rfl⟩
  obtain ⟨hp, rfl⟩ := hhandling
  obtain ⟨hdrained, hedge⟩ := h.busy hp
  refine ⟨⟨?_, hedge, hdrained⟩, rfl⟩
  unfold leave
  cases hr : s.running with
  | true => exact .inl rfl
  | false =>
    refine .inr ⟨rfl, (h.halted hr).resolve_right fun hidle => ?_⟩
    rw [hidle] at hp
    exact hp

theorem sound_or_deaf (h : Run Framed s) : (∃ done rest, Sound s done rest) ∨ Deaf s := by
  induction h with
  | init => exact .inl (sound_of_run .init)
  | @step s s' i _ hok hs ih =>
    rcases ih with ⟨done, rest, h⟩ | h
    · by_cases hi : i = .interrupt
      · rw [hi] at hs
        exact .inr (h.interrupt hs).1
      · exact .inl (h.step hok hi hs)
    · exact .inr (h.step hs).1

end Interrupts

def aBlock : Message := ⟨"hashblock".toList, "00".toList, "1".toList⟩

/-- Started, told of a block and woken. -/
theorem run_woken {ok : State → Input → Prop} (hok : ∀ s i, Calm s i → ok s i) :
    Run ok (State.mk aBlock.frames false false true false .polling [aBlock.frames] []) := by
  have h0 : Run ok {} := .init
  have h1 := h0.step (i := .start) (hok _ _ ⟨trivial, nofun⟩) rfl
  have h2 := h1.step (i := .publish aBlock.frames)
    (hok _ _ ⟨⟨aBlock, by decide, rfl⟩, nofun⟩) rfl
  exact h2.step (i := .wake) (hok _ _ ⟨trivial, nofun⟩) rfl

end MkPool.ZmqClient
