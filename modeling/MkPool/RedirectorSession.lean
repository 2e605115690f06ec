import MkPool.Lib.Lines
import MkPool.RequestIds

/-! # `redirector_session.cpp`: a miner that is sent away

The session reads lines as every relay session does. What it sends it posts to
its strand, and what is posted is dropped once the session is closed. -/
namespace MkPool.RedirectorSession
open MkPool.Utils MkPool.JsonValue MkPool.RequestIds MkPool.Lib.Lines

/-! ## Messages -/

/-- What the session sends. -/
inductive Message where
  | configured (idJson : Str)
  | subscribed (idJson sessionId : Str)
  | reconnect (host : Str) (port : UInt16) (wait : UInt16)

/-- The line of a message. -/
def Message.text : Message → Str
  | .configured idJson =>
    "\x7b\"id\":".toList ++ idJson ++ ",\"result\":\x7b\x7d,\"error\":null\x7d\n".toList
  | .subscribed idJson sessionId =>
    "\x7b\"id\":".toList ++ idJson ++ ",\"result\":[[[\"mining.set_difficulty\",\"".toList ++
      sessionId ++ "\"],[\"mining.notify\",\"".toList ++ sessionId ++
      "\"]],\"00000000\",4],\"error\":null\x7d\n".toList
  | .reconnect host port wait =>
    "\x7b\"id\":null,\"method\":\"client.reconnect\",\"params\":[\"".toList ++ host ++
      "\",".toList ++ Nat.toDigits 10 port.toNat ++ ",".toList ++ Nat.toDigits 10 wait.toNat ++
      "]\x7d\n".toList

/-! ## The session -/

/-- What a session is given: its id, how lines are parsed, whether there are
backends, the one the policy picks, and `wait()`. -/
structure Setup where
  sessionId : Str
  parse : Str → Option Json
  backends : Bool
  host : Str
  port : UInt16
  wait : UInt16

/-- A handler posted to the strand. -/
inductive Posted where
  | opened
  | push (m : Message)
  | close

/-- The state of a session, with the stream it has read, the lines it was given
and how often it has asked the policy. -/
structure Session where
  buffer : Str := []
  redirected : Bool := false
  closed : Bool := false
  reading : Bool := false
  timer : Bool := false
  strand : List Posted := [.opened]
  sent : List Message := []
  stream : Str := []
  heard : List Str := []
  picks : Nat := 0

def close (s : Session) : Session := { s with closed := true }

def sendLine (s : Session) (m : Message) : Session := { s with strand := s.strand ++ [.push m] }

def redirectNow (setup : Setup) (s : Session) : Session :=
  if s.redirected then s
  else
    let s := { s with redirected := true }
    if !setup.backends then close s
    else
      let s := sendLine s (.reconnect setup.host setup.port setup.wait)
      { s with picks := s.picks + 1, timer := true }

/-- What a line asks for. -/
inductive Ask where
  | configure (idJson : Str)
  | subscribe (idJson : Str)

def askOf (setup : Setup) (line : Str) : Option Ask :=
  match setup.parse line with
  | some msg =>
    match msg.find? "method".toList with
    | some (.string method) =>
      if method = "mining.configure".toList then some (.configure (redirectorSafeIdJson msg))
      else if method = "mining.subscribe".toList then some (.subscribe (redirectorSafeIdJson msg))
      else none
    | _ => none
  | none => none

def onLine (setup : Setup) (s : Session) (line : Str) : Session :=
  let s := { s with heard := s.heard ++ [line] }
  match askOf setup line with
  | some (.configure idJson) => sendLine s (.configured idJson)
  | some (.subscribe idJson) => redirectNow setup (sendLine s (.subscribed idJson setup.sessionId))
  | none => s

/-- The loop over the lines of the buffer. A session that is closed takes no
further line. -/
def onLines (setup : Setup) (s : Session) : List Str → Session
  | [] => s
  | l :: ls =>
    let s := if trim l = [] then s else onLine setup s (trim l)
    if s.closed then s else onLines setup s ls

/-- `1u << 20`. -/
def cap : Nat := 2 ^ 20

/-- `on_read`. What a closed session keeps in its buffer is not read again. -/
def onRead (setup : Setup) (s : Session) (chunk : Str) : Session :=
  let buffer := s.buffer ++ chunk
  let s := { s with buffer, stream := s.stream ++ chunk, reading := false }
  if cap < buffer.length then close s
  else
    let (ls, rest) := split buffer
    let s := onLines setup { s with buffer := rest } ls
    if s.closed then s else { s with reading := true }

/-- The strand's next handler. -/
def runPosted (s : Session) (p : Posted) (rest : List Posted) : Session :=
  let s := { s with strand := rest }
  match p with
  | .opened => if s.closed then s else { s with reading := true }
  | .push m => if s.closed then s else { s with sent := s.sent ++ [m] }
  | .close => close s

/-- Bytes come, or an error instead; a posted handler runs; the timer expires;
the writes pass their watermark; the pool shuts the session down. -/
inductive Input where
  | read (chunk : Str)
  | readError
  | run
  | timer
  | drop
  | shutdown

def step (setup : Setup) (s : Session) : Input → Option Session
  | .read chunk => if s.reading then some (onRead setup s chunk) else none
  | .readError => if s.reading then some (close { s with reading := false }) else none
  | .run => match s.strand with
    | [] => none
    | p :: rest => some (runPosted s p rest)
  | .timer =>
    if s.timer then some { s with timer := false, strand := s.strand ++ [.close] } else none
  | .drop => some (close s)
  | .shutdown => some { s with strand := s.strand ++ [.close] }

inductive Run (setup : Setup) : Session → Prop where
  | init : Run setup {}
  | step {s s' : Session} {i : Input} (h : Run setup s) (hs : step setup s i = some s') :
    Run setup s'

/-! ## What the miner is told -/

/-- The answers to lines, and whether the miner was redirected. -/
structure Answers where
  redirected : Bool := false
  messages : List Message := []

/-- A `configure` and a `subscribe` have a reply each, and the first `subscribe`
is followed by the redirection. -/
def Answers.hear (setup : Setup) (a : Answers) (line : Str) : Answers :=
  match askOf setup line with
  | some (.configure idJson) => { a with messages := a.messages ++ [.configured idJson] }
  | some (.subscribe idJson) =>
    { redirected := true
      messages := a.messages ++ .subscribed idJson setup.sessionId ::
        (if a.redirected || !setup.backends then []
        else [.reconnect setup.host setup.port setup.wait]) }
  | none => a

def answers (setup : Setup) (lines : List Str) : Answers := lines.foldl (Answers.hear setup) {}

theorem answers_snoc (setup : Setup) (lines : List Str) (l : Str) :
    answers setup (lines ++ [l]) = (answers setup lines).hear setup l := by
  unfold answers
  rw [List.foldl_append]
  rfl

def Message.isReconnect : Message → Bool
  | .reconnect .. => true
  | _ => false

/-- The lines of a stream, without those that are empty. -/
def linesOf (stream : Str) : List Str := ((split stream).1.map trim).filter (· ≠ [])

/-- The messages that are posted. -/
def pushes : List Posted → List Message := List.filterMap fun
  | .push m => some m
  | _ => none

/-! ## What holds in every run -/

/-- The state of a session, by the lines it was given. -/
structure Spoken (setup : Setup) (s : Session) : Prop where
  redirected : s.redirected = (answers setup s.heard).redirected
  picks : s.picks = if s.redirected && setup.backends then 1 else 0
  told : s.closed = false → s.sent ++ pushes s.strand = (answers setup s.heard).messages
  sent : s.sent <+: (answers setup s.heard).messages
  ends : s.redirected = true → s.closed = true ∨ s.timer = true ∨ .close ∈ s.strand

/-- The lines are those of the stream, up to the one that closed the session. -/
structure Sound (setup : Setup) (s : Session) : Prop extends Spoken setup s where
  heard : s.heard <+: linesOf s.stream
  whole : s.closed = false ∨ s.reading = true →
    s.heard = linesOf s.stream ∧ s.buffer = (split s.stream).2

/-- What the lines leave alone. -/
structure Alike (s s' : Session) : Prop where
  stream : s'.stream = s.stream
  buffer : s'.buffer = s.buffer
  reading : s'.reading = s.reading
  closed : s.closed = true → s'.closed = true

section Steps

variable {setup : Setup} {s s' : Session}

theorem pushes_append (ps qs : List Posted) : pushes (ps ++ qs) = pushes ps ++ pushes qs :=
  List.filterMap_append

/-- The lines of a stream that goes on. -/
theorem linesOf_append (stream chunk : Str) : linesOf (stream ++ chunk) =
    linesOf stream ++ linesOf ((split stream).2 ++ chunk) := by
  unfold linesOf
  rw [split_append, List.map_append, List.filter_append]

theorem Alike.trans {s'' : Session} (h : Alike s s') (h' : Alike s' s'') : Alike s s'' :=
  ⟨h'.stream.trans h.stream, h'.buffer.trans h.buffer, h'.reading.trans h.reading,
    fun hc => h'.closed (h.closed hc)⟩

theorem pushes_snoc (ps : List Posted) (m : Message) : pushes (ps ++ [.push m]) = pushes ps ++ [m] :=
  pushes_append ps _

theorem redirectNow_again (hr : s.redirected = true) : redirectNow setup s = s := if_pos hr

theorem redirectNow_closes (hr : s.redirected = false) (hb : setup.backends = false) :
    redirectNow setup s = { s with redirected := true, closed := true } := by
  unfold redirectNow close
  rw [hr, hb]
  rfl

theorem redirectNow_sends (hr : s.redirected = false) (hb : setup.backends = true) :
    redirectNow setup s =
      { s with
        redirected := true
        picks := s.picks + 1
        timer := true
        strand := s.strand ++ [.push (.reconnect setup.host setup.port setup.wait)] } := by
  unfold redirectNow sendLine
  rw [hr, hb]
  rfl

/-- One line: its answer is posted, and a miner that is not redirected yet may
be. -/
theorem Spoken.onLine (h : Spoken setup s) (l : Str) : Spoken setup (onLine setup s l) ∧
    (onLine setup s l).heard = s.heard ++ [l] ∧ Alike s (onLine setup s l) := by
  have hear := answers_snoc setup s.heard l
  unfold Answers.hear at hear
  unfold RedirectorSession.onLine
  cases hask : askOf setup l with
  | none =>
    rw [hask] at hear
    refine ⟨⟨?_, h.picks, fun hc => ?_, ?_, h.ends⟩, rfl, rfl, rfl, rfl, id⟩
    · exact h.redirected.trans (congrArg Answers.redirected hear).symm
    · exact (h.told hc).trans (congrArg Answers.messages hear).symm
    · exact h.sent.trans (by rw [hear])
  | some ask =>
    rw [hask] at hear
    cases ask with
    | configure idJson =>
      dsimp only at hear
      refine ⟨⟨?_, h.picks, fun hc => ?_, ?_, fun hr => ?_⟩, rfl, rfl, rfl, rfl, id⟩
      · exact h.redirected.trans (congrArg Answers.redirected hear).symm
      · show s.sent ++ pushes (s.strand ++ [_]) = (answers setup (s.heard ++ [l])).messages
        rw [hear, pushes_snoc, ← List.append_assoc, h.told hc]
      · show s.sent <+: (answers setup (s.heard ++ [l])).messages
        rw [hear]
        exact h.sent.trans (List.prefix_append _ _)
      · exact (h.ends hr).imp_right (.imp_right fun hm => List.mem_append_left _ hm)
    | subscribe idJson =>
      dsimp only at hear
      have hsent : s.sent <+: (answers setup (s.heard ++ [l])).messages := by
        rw [hear]
        exact h.sent.trans (List.prefix_append _ _)
      dsimp only
      rcases Bool.eq_false_or_eq_true s.redirected with hr | hr
      · rw [← h.redirected, hr, Bool.true_or, if_pos rfl] at hear
        rw [redirectNow_again (by exact hr)]
        refine ⟨⟨?_, h.picks, fun hc => ?_, hsent, fun _ => ?_⟩, rfl, rfl, rfl, rfl, id⟩
        · exact hr.trans (congrArg Answers.redirected hear).symm
        · show s.sent ++ pushes (s.strand ++ [_]) = (answers setup (s.heard ++ [l])).messages
          rw [hear, pushes_snoc, ← List.append_assoc, h.told hc]
        · exact (h.ends hr).imp_right (.imp_right fun hm => List.mem_append_left _ hm)
      · have hzero : s.picks = 0 := by
          rw [h.picks, hr]
          rfl
        rw [← h.redirected, hr, Bool.false_or] at hear
        rcases Bool.eq_false_or_eq_true setup.backends with hb | hb
        · rw [hb, Bool.not_true, if_neg Bool.false_ne_true] at hear
          rw [redirectNow_sends (by exact hr) hb]
          refine ⟨⟨?_, ?_, fun hc => ?_, hsent, fun _ => .inr (.inl rfl)⟩, rfl, rfl, rfl, rfl, id⟩
          · exact (congrArg Answers.redirected hear).symm
          · show s.picks + 1 = _
            rw [hzero, hb]
            rfl
          · show s.sent ++ pushes (s.strand ++ [_] ++ [_]) =
              (answers setup (s.heard ++ [l])).messages
            rw [hear, pushes_snoc, pushes_snoc, ← h.told hc]
            simp
        · rw [redirectNow_closes (by exact hr) hb]
          refine ⟨⟨?_, ?_, nofun, hsent, fun _ => .inl rfl⟩, rfl, rfl, rfl, rfl, fun _ => rfl⟩
          · exact (congrArg Answers.redirected hear).symm
          · exact hzero.trans (by rw [hb]; rfl)

/-- The loop takes lines up to one that closes the session. -/
theorem Spoken.onLines (h : Spoken setup s) (ls : List Str) : Spoken setup (onLines setup s ls) ∧
    Alike s (onLines setup s ls) ∧
    ∃ taken, (onLines setup s ls).heard = s.heard ++ taken ∧
      taken <+: (ls.map trim).filter (· ≠ []) ∧
      ((onLines setup s ls).closed = false → taken = (ls.map trim).filter (· ≠ [])) := by
  induction ls generalizing s with
  | nil => exact ⟨h, ⟨rfl, rfl, rfl, id⟩, [], (List.append_nil _).symm, List.nil_prefix, fun _ => rfl⟩
  | cons l ls ih =>
    unfold RedirectorSession.onLines
    dsimp only
    by_cases hl : trim l = []
    · rw [if_pos hl]
      have hfilter : ((l :: ls).map trim).filter (· ≠ []) = (ls.map trim).filter (· ≠ []) := by
        rw [List.map_cons, List.filter_cons_of_neg (by simp [hl])]
      rw [hfilter]
      split
      · next hc =>
        exact ⟨h, ⟨rfl, rfl, rfl, id⟩, [], (List.append_nil _).symm, List.nil_prefix,
          fun hopen => absurd (hc.symm.trans hopen) nofun⟩
      · exact ih h
    · rw [if_neg hl]
      have hfilter : ((l :: ls).map trim).filter (· ≠ []) =
          trim l :: (ls.map trim).filter (· ≠ []) := by
        rw [List.map_cons, List.filter_cons_of_pos (by simp [hl])]
      rw [hfilter]
      obtain ⟨hone, hheard, halike⟩ := h.onLine (trim l)
      split
      · next hc =>
        exact ⟨hone, halike, [trim l], hheard, ⟨_, rfl⟩,
          fun hopen => absurd (hc.symm.trans hopen) nofun⟩
      · obtain ⟨hall, hsame, taken, htaken, hprefix, hopen⟩ := ih hone
        refine ⟨hall, halike.trans hsame, trim l :: taken, ?_, ?_, fun hc => ?_⟩
        · rw [htaken, hheard, List.append_assoc]
          rfl
        · exact List.prefix_cons_inj _ |>.mpr hprefix
        · rw [hopen hc]

theorem Spoken.close (h : Spoken setup s) : Spoken setup (close s) :=
  ⟨h.redirected, h.picks, nofun, h.sent, fun _ => .inl rfl⟩

theorem Sound.close (h : Sound setup s) : Sound setup (close s) where
  toSpoken := h.toSpoken.close
  heard := h.heard
  whole := fun hr => h.whole (.inr (hr.resolve_left nofun))

theorem Sound.onRead (h : Sound setup s) (hr : s.reading = true) (chunk : Str) :
    Sound setup (onRead setup s chunk) := by
  obtain ⟨hheard, hbuffer⟩ := h.whole (.inr hr)
  have hlines : linesOf (s.stream ++ chunk) = s.heard ++ linesOf (s.buffer ++ chunk) := by
    rw [linesOf_append, hheard, hbuffer]
  unfold RedirectorSession.onRead
  dsimp only
  split
  · have hs : Spoken setup
        { s with buffer := s.buffer ++ chunk, stream := s.stream ++ chunk, reading := false } :=
      ⟨h.redirected, h.picks, h.told, h.sent, h.ends⟩
    refine ⟨hs.close, ?_, fun hor => absurd hor (by rintro (hc | hc) <;> cases hc)⟩
    show s.heard <+: linesOf (s.stream ++ chunk)
    rw [hlines]
    exact List.prefix_append _ _
  · have hs : Spoken setup
        { s with buffer := (split (s.buffer ++ chunk)).2, stream := s.stream ++ chunk,
                 reading := false } :=
      ⟨h.redirected, h.picks, h.told, h.sent, h.ends⟩
    obtain ⟨hspoken, halike, taken, htaken, hprefix, hopen⟩ :=
      hs.onLines (split (s.buffer ++ chunk)).1
    have hstream := halike.stream
    have hrest := halike.buffer
    have hreading := halike.reading
    have hheard' : (onLines setup { s with
        buffer := (split (s.buffer ++ chunk)).2, stream := s.stream ++ chunk,
        reading := false } (split (s.buffer ++ chunk)).1).heard <+:
        linesOf (s.stream ++ chunk) := by
      rw [htaken, hlines]
      exact (List.prefix_append_right_inj _).mpr hprefix
    split
    · next hc =>
      refine ⟨hspoken, hstream ▸ hheard', fun hor => absurd hor ?_⟩
      rw [hc, hreading]
      rintro (hc | hc) <;> cases hc
    · next hc =>
      have hall := hopen (by simpa using hc)
      refine ⟨⟨hspoken.redirected, hspoken.picks, hspoken.told, hspoken.sent, hspoken.ends⟩,
        hstream ▸ hheard', fun _ => ⟨?_, ?_⟩⟩
      · rw [hstream, hlines]
        exact htaken.trans (congrArg _ hall)
      · have hbehind : (split (s.stream ++ chunk)).2 = (split (s.buffer ++ chunk)).2 := by
          rw [split_append, hbuffer]
        exact hrest.trans (hbehind.symm.trans (congrArg (fun t => (split t).2) hstream.symm))

theorem Sound.runPosted (h : Sound setup s) {p : Posted} {rest : List Posted}
    (hp : s.strand = p :: rest) : Sound setup (runPosted s p rest) := by
  have htold := h.told
  have hends := h.ends
  rw [hp] at htold hends
  cases p with
  | opened =>
    have hends' : s.redirected = true → s.closed = true ∨ s.timer = true ∨ .close ∈ rest :=
      fun hr => (hends hr).imp_right (.imp_right fun hm => by simpa using hm)
    unfold RedirectorSession.runPosted
    dsimp only
    split
    · exact ⟨⟨h.redirected, h.picks, htold, h.sent, hends'⟩, h.heard, h.whole⟩
    · next hc =>
      exact ⟨⟨h.redirected, h.picks, htold, h.sent, hends'⟩, h.heard,
        fun _ => h.whole (.inl (by simpa using hc))⟩
  | push m =>
    have hends' : s.redirected = true → s.closed = true ∨ s.timer = true ∨ .close ∈ rest :=
      fun hr => (hends hr).imp_right (.imp_right fun hm => by simpa using hm)
    unfold RedirectorSession.runPosted
    dsimp only
    split
    · next hc =>
      exact ⟨⟨h.redirected, h.picks, fun ho => absurd (hc.symm.trans ho) nofun, h.sent, hends'⟩,
        h.heard, h.whole⟩
    · next hc =>
      have hall : s.sent ++ m :: pushes rest = (answers setup s.heard).messages :=
        htold (by simpa using hc)
      refine ⟨⟨h.redirected, h.picks, fun _ => ?_, ?_, hends'⟩, h.heard, h.whole⟩
      · show s.sent ++ [m] ++ pushes rest = _
        rw [List.append_assoc]
        exact hall
      · show s.sent ++ [m] <+: _
        exact ⟨pushes rest, by rw [List.append_assoc]; exact hall⟩
  | close =>
    exact ⟨⟨h.redirected, h.picks, nofun, h.sent, fun _ => .inl rfl⟩, h.heard,
      fun hor => h.whole (.inr (hor.resolve_left nofun))⟩

theorem Sound.step {i : Input} (h : Sound setup s) (hs : step setup s i = some s') :
    Sound setup s' := by
  cases i with
  | read chunk =>
    simp only [RedirectorSession.step] at hs
    split at hs <;> cases hs
    next hr => exact h.onRead hr chunk
  | readError =>
    simp only [RedirectorSession.step] at hs
    split at hs <;> cases hs
    have hs : Spoken setup { s with reading := false } :=
      ⟨h.redirected, h.picks, h.told, h.sent, h.ends⟩
    exact ⟨hs.close, h.heard, fun hor => absurd hor (by rintro (hc | hc) <;> cases hc)⟩
  | run =>
    simp only [RedirectorSession.step] at hs
    split at hs <;> cases hs
    next hp => exact h.runPosted hp
  | timer =>
    simp only [RedirectorSession.step] at hs
    split at hs <;> cases hs
    refine ⟨⟨h.redirected, h.picks, fun hc => ?_, h.sent, fun _ => .inr (.inr ?_)⟩, h.heard,
      h.whole⟩
    · show s.sent ++ pushes (s.strand ++ [_]) = _
      rw [pushes_append, show pushes [.close] = [] from rfl, List.append_nil]
      exact h.told hc
    · exact List.mem_append_right _ (List.mem_singleton_self _)
  | drop =>
    cases hs
    exact h.close
  | shutdown =>
    cases hs
    refine ⟨⟨h.redirected, h.picks, fun hc => ?_, h.sent, fun _ => .inr (.inr ?_)⟩, h.heard,
      h.whole⟩
    · show s.sent ++ pushes (s.strand ++ [_]) = _
      rw [pushes_append, show pushes [.close] = [] from rfl, List.append_nil]
      exact h.told hc
    · exact List.mem_append_right _ (List.mem_singleton_self _)

theorem sound_of_run (h : Run setup s) : Sound setup s := by
  induction h with
  | init => exact ⟨⟨rfl, rfl, fun _ => rfl, List.nil_prefix, nofun⟩, List.nil_prefix,
      fun _ => ⟨rfl, rfl⟩⟩
  | step _ hs ih => exact ih.step hs

/-- There is a redirection in the answers once there was a `subscribe`, and one
at most. -/
theorem count_reconnect (setup : Setup) (lines : List Str) :
    (answers setup lines).messages.countP Message.isReconnect =
      if (answers setup lines).redirected && setup.backends then 1 else 0 := by
  induction lines using List.reverseRecOn with
  | nil => rfl
  | append_singleton lines l ih =>
    rw [answers_snoc]
    unfold Answers.hear
    split
    · rw [List.countP_append, ih]
      rfl
    · dsimp only
      rw [List.countP_append, ih, Bool.true_and]
      cases (answers setup lines).redirected <;> cases setup.backends <;> rfl
    · exact ih

end Steps

/-- **A miner is sent away once.** In every run a session asks the policy at
most once and redirects the miner at most once. What it has sent is a beginning
of the answers to the lines it was given, and these are lines of the stream,
however the stream was cut; while the session is open they are all its lines, and
all the answers are sent or about to be. A session whose miner was told to go is
closed, or will be. -/
theorem sent_away_once {setup : Setup} {s : Session} (h : Run setup s) :
    s.picks ≤ 1 ∧ s.sent.countP Message.isReconnect ≤ 1 ∧
    s.sent <+: (answers setup s.heard).messages ∧ s.heard <+: linesOf s.stream ∧
    (s.closed = false → s.heard = linesOf s.stream ∧
      s.sent ++ pushes s.strand = (answers setup s.heard).messages) ∧
    ((answers setup s.heard).redirected = true →
      s.closed = true ∨ s.timer = true ∨ .close ∈ s.strand) := by
  have hs := sound_of_run h
  refine ⟨?_, ?_, hs.sent, hs.heard, fun hc => ⟨(hs.whole (.inl hc)).1, hs.told hc⟩,
    fun hr => hs.ends (hs.redirected.trans hr)⟩
  · rw [hs.picks]
    split <;> decide
  · refine hs.sent.sublist.countP_le.trans ?_
    rw [count_reconnect]
    split <;> decide

/-- One backend. -/
def sampleSetup : Setup where
  sessionId := "aa".toList
  parse := JsonText.parse fun _ => none
  backends := true
  host := "pool".toList
  port := 3333
  wait := 0

/-- The session after inputs. -/
def play (setup : Setup) (s : Session) : List Input → Option Session
  | [] => some s
  | i :: is => (step setup s i).bind (play setup · is)

theorem run_of_play {setup : Setup} : ∀ {is : List Input} {s s' : Session}, Run setup s →
    play setup s is = some s' → Run setup s'
  | [], _, _, h, hp => by cases hp; exact h
  | i :: is, s, s', h, hp => by
    obtain ⟨t, ht, hp⟩ := Option.bind_eq_some_iff.mp hp
    exact run_of_play (h.step ht) hp

/-- A `subscribe` comes in two reads, and is answered with the redirection. -/
def subscribes : List Input :=
  [.run, .read "\x7b\"id\":1,\"method\":\"mining.sub".toList, .read "scribe\"\x7d\r\n".toList,
    .run, .run]

theorem sent_away : ∃ s : Session, (answers sampleSetup s.heard).messages.length = 2 ∧
    s.sent.length = 2 ∧ s.sent.countP Message.isReconnect ≤ 1 := by
  have h : (play sampleSetup {} subscribes).any (fun s =>
      decide (s.sent.length = 2) &&
        decide ((answers sampleSetup s.heard).messages.length = 2)) = true := by
    decide +kernel
  obtain ⟨s, hs, hx⟩ := (Option.any_eq_true _ _).mp h
  simp only [Bool.and_eq_true, decide_eq_true_eq] at hx
  exact ⟨s, hx.2, hx.1, (sent_away_once (run_of_play .init hs)).2.1⟩

end MkPool.RedirectorSession
