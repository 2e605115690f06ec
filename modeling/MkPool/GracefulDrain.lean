import Mathlib

/-! # `pool_manager.cpp`, `mkpool.cpp`: draining before a restart

The first signal starts a drain, when one is configured: no more connections are
taken, and the sessions are told in waves to connect again. What is left after a
last wait is closed. A second signal ends it at once. The handlers of the main
context run one at a time. -/
namespace MkPool.GracefulDrain

variable {Sess : Type}

/-! ## State -/

/-- What is done to others. -/
inductive Effect (Sess : Type) where
  | stopAccepting
  | requestReconnect (s : Sess)
  | expiresAfter (ms : Nat)
  | stopRest
  | shutdown (s : Sess)
  | workersStop

/-- What `drain_timer_` waits for. -/
inductive Wait where
  | wave (sent : Nat)
  | grace
  deriving DecidableEq

structure State (Sess : Type) where
  /-- `draining` of the signal handler. -/
  signalled : Bool := false
  /-- `draining_`. -/
  draining : Bool := false
  /-- `on_drained_` is set. -/
  onDrained : Bool := false
  sessions : List Sess := []
  windowSeconds : Nat := 1
  timer : Option Wait := none
  /-- The contexts have been stopped. -/
  halted : Bool := false
  log : List (Effect Sess) := []

def State.emit (st : State Sess) (es : List (Effect Sess)) : State Sess :=
  { st with log := st.log ++ es }

/-! ## Handlers -/

def kWaves : Nat := 10

def perWave (total : Nat) : Nat := max 1 ((total + kWaves - 1) / kWaves)

def gapMs (window : Nat) : Nat := max 1 (window * 1000 / kWaves)

def graceMs (window : Nat) : Nat := max 2 (window / 5) * 1000

/-- `static_cast<int>`, and at least a second. -/
def clampWindow (secs : UInt32) : Nat := (max 1 secs.toBitVec.toInt).toNat

def armGrace (st : State Sess) : State Sess :=
  { st.emit [.expiresAfter (graceMs st.windowSeconds)] with timer := some .grace }

def scheduleDrainWave (st : State Sess) (sent : Nat) : State Sess :=
  let total := st.sessions.length
  if sent < total then
    let upTo := min total (sent + perWave total)
    let told := st.emit (((st.sessions.take upTo).drop sent).map .requestReconnect)
    if upTo < total then
      { told.emit [.expiresAfter (gapMs st.windowSeconds)] with timer := some (.wave upTo) }
    else armGrace told
  else armGrace st

def beginGracefulShutdown (st : State Sess) (secs : UInt32) (table : List Sess) : State Sess :=
  if st.draining then st
  else scheduleDrainWave { st.emit [.stopAccepting] with
    draining := true
    onDrained := true
    sessions := table
    windowSeconds := clampWindow secs } 0

def stop (st : State Sess) (table : List Sess) : State Sess :=
  st.emit (.stopRest :: table.map .shutdown)

def workersStop (st : State Sess) : State Sess :=
  { st.emit [.workersStop] with halted := true }

def finishShutdown (st : State Sess) (table : List Sess) : State Sess :=
  let st := stop st table
  if st.onDrained then workersStop { st with onDrained := false } else st

def onTimer (st : State Sess) (table : List Sess) : State Sess :=
  match st.timer with
  | none => st
  | some (.wave sent) => scheduleDrainWave { st with timer := none } sent
  | some .grace =>
    finishShutdown ({ st with timer := none }.emit (st.sessions.map .shutdown)) table

def onSignal (secs : UInt32) (st : State Sess) (table : List Sess) : State Sess :=
  if 0 < secs ∧ st.signalled = false then
    beginGracefulShutdown { st with signalled := true } secs table
  else workersStop (stop st table)

/-- What may happen, with the sessions that stand in the table then. -/
inductive Input (Sess : Type) where
  | signal (table : List Sess)
  | timer (table : List Sess)

def step (secs : UInt32) (st : State Sess) : Input Sess → State Sess
  | .signal table => if st.halted then st else onSignal secs st table
  | .timer table => if st.halted then st else onTimer st table

def run (secs : UInt32) (inputs : List (Input Sess)) : State Sess := inputs.foldl (step secs) {}

/-! ## The log of a drain -/

/-- The log when `k` waves have been sent, and more are to be. -/
def wavesLog (sessions : List Sess) (window : Nat) : Nat → List (Effect Sess)
  | 0 => [.stopAccepting]
  | k + 1 => wavesLog sessions window k ++
      ((sessions.take ((k + 1) * perWave sessions.length)).drop
        (k * perWave sessions.length)).map .requestReconnect ++ [.expiresAfter (gapMs window)]

/-- The log when the wave after `k` was the last one. -/
def graceLog (sessions : List Sess) (window k : Nat) : List (Effect Sess) :=
  wavesLog sessions window k ++
    (sessions.drop (k * perWave sessions.length)).map .requestReconnect ++
      [.expiresAfter (graceMs window)]

def stopLog (table : List Sess) : List (Effect Sess) :=
  .stopRest :: table.map .shutdown ++ [.workersStop]

/-- After `k` waves there are more to send, or none was sent. -/
def Few (sessions : List Sess) (k : Nat) : Prop :=
  k = 0 ∨ k * perWave sessions.length < sessions.length

/-- What is the same all through a drain. -/
structure On (secs : UInt32) (st : State Sess) : Prop where
  signalled : st.signalled = true
  draining : st.draining = true
  onDrained : st.onDrained = true
  window : st.windowSeconds = clampWindow secs
  halted : st.halted = false

/-- A drain that no signal has cut short, and how many inputs end it. -/
inductive Drains (secs : UInt32) (st : State Sess) : Nat → Prop
  | waving (k : Nat) (on : On secs st) (first : 1 ≤ k)
      (more : k * perWave st.sessions.length < st.sessions.length)
      (timer : st.timer = some (.wave (k * perWave st.sessions.length)))
      (log : st.log = wavesLog st.sessions (clampWindow secs) k) : Drains secs st (11 - k)
  | grace (k : Nat) (on : On secs st) (few : Few st.sessions k) (timer : st.timer = some .grace)
      (log : st.log = graceLog st.sessions (clampWindow secs) k) : Drains secs st 1
  | finished (k : Nat) (table : List Sess) (few : Few st.sessions k) (halted : st.halted = true)
      (log : st.log = graceLog st.sessions (clampWindow secs) k ++
        st.sessions.map .shutdown ++ stopLog table) : Drains secs st 0

/-- How much of a drain there was when it was cut short. -/
inductive Part (sessions : List Sess) (window : Nat) : List (Effect Sess) → Prop
  | none : Part sessions window []
  | waves (k : Nat) (few : Few sessions k) : Part sessions window (wavesLog sessions window k)
  | all (k : Nat) (few : Few sessions k) : Part sessions window (graceLog sessions window k)

/-- A signal has ended it. -/
structure Forced (secs : UInt32) (st : State Sess) : Prop where
  halted : st.halted = true
  log : ∃ part table, Part st.sessions (clampWindow secs) part ∧ st.log = part ++ stopLog table

/-! ## Steps -/

/-- Ten waves are enough. -/
theorem le_waves (n : Nat) : n ≤ 10 * perWave n := by
  rw [perWave, kWaves]
  omega

theorem lt_ten {n k : Nat} (h : k * perWave n < n) : k < 10 := by
  by_contra hk
  have hle := Nat.mul_le_mul_right (perWave n) (Nat.le_of_not_lt hk)
  have := le_waves n
  omega

section Steps

variable {secs : UInt32} {st : State Sess} {k r : Nat}

/-- The wave after `k`. -/
theorem drains_wave (on : On secs st) (few : Few st.sessions k)
    (hlog : st.log = wavesLog st.sessions (clampWindow secs) k) :
    ∃ r, r ≤ 10 - k ∧ Drains secs (scheduleDrainWave st (k * perWave st.sessions.length)) r := by
  obtain ⟨p, hp⟩ : ∃ p, p = perWave st.sessions.length := ⟨_, rfl⟩
  have hstep : k * p + p = (k + 1) * p := (Nat.succ_mul k p).symm
  rw [← hp]
  by_cases hsent : k * p < st.sessions.length
  · by_cases hmore : (k + 1) * p < st.sessions.length
    · -- A wave, and more to come.
      have hmin : min st.sessions.length (k * p + p) = (k + 1) * p := by omega
      refine ⟨10 - k, Nat.le_refl _, ?_⟩
      have hten := lt_ten (hp ▸ hmore)
      rw [show 10 - k = 11 - (k + 1) by omega]
      simp only [scheduleDrainWave, ← hp, if_pos hsent, hmin, if_pos hmore]
      refine .waving (k + 1) ⟨on.signalled, on.draining, on.onDrained, on.window, on.halted⟩
        (Nat.le_add_left 1 k) (hp ▸ hmore) (hp ▸ rfl) ?_
      show (st.log ++ _) ++ [.expiresAfter (gapMs st.windowSeconds)] =
        wavesLog st.sessions (clampWindow secs) (k + 1)
      rw [hlog, wavesLog, on.window, hp]
    · -- The last wave.
      have hmin : min st.sessions.length (k * p + p) = st.sessions.length := by omega
      have hten := lt_ten (hp ▸ hsent)
      refine ⟨1, by omega, ?_⟩
      simp only [scheduleDrainWave, ← hp, if_pos hsent, hmin, lt_irrefl, if_false,
        List.take_length]
      refine .grace k ⟨on.signalled, on.draining, on.onDrained, on.window, on.halted⟩ few rfl ?_
      show (st.log ++ _) ++ [.expiresAfter (graceMs st.windowSeconds)] =
        graceLog st.sessions (clampWindow secs) k
      rw [hlog, graceLog, on.window, hp]
  · -- There was nobody.
    obtain rfl : k = 0 := few.resolve_right (hp ▸ hsent)
    refine ⟨1, by omega, ?_⟩
    simp only [scheduleDrainWave, if_neg hsent]
    refine .grace 0 ⟨on.signalled, on.draining, on.onDrained, on.window, on.halted⟩ few rfl ?_
    have hnone : st.sessions = [] := List.length_eq_zero_iff.mp (by omega)
    show st.log ++ [.expiresAfter (graceMs st.windowSeconds)] =
      graceLog st.sessions (clampWindow secs) 0
    rw [hlog, graceLog, on.window, hnone, List.drop_nil, List.map_nil, List.append_nil]

/-- The timer brings a drain nearer to its end. -/
theorem drains_timer (h : Drains secs st r) (table : List Sess) :
    ∃ r', r' ≤ r - 1 ∧ Drains secs (step secs st (.timer table)) r' := by
  cases h with
  | waving k on first more timer log =>
    have on' : On secs { st with timer := none } :=
      ⟨on.signalled, on.draining, on.onDrained, on.window, on.halted⟩
    obtain ⟨r', hr', hdrains⟩ := drains_wave on' (.inr more) log
    refine ⟨r', by omega, ?_⟩
    simpa [step, on.halted, onTimer, timer] using hdrains
  | grace k on few timer log =>
    refine ⟨0, Nat.zero_le _, ?_⟩
    have hstep : step secs st (.timer table) =
        workersStop { stop ({ st with timer := none }.emit (st.sessions.map .shutdown)) table with
          onDrained := false } := by
      simp [step, on.halted, onTimer, timer, finishShutdown, stop, State.emit, on.onDrained]
    rw [hstep]
    refine .finished k table few rfl ?_
    simp [workersStop, stop, State.emit, log, stopLog]
  | finished k table' few halted log =>
    refine ⟨0, Nat.zero_le _, ?_⟩
    simpa only [step, halted, if_true] using Drains.finished k table' few halted log

/-- A signal ends it. -/
theorem forced_signal (h : Drains secs st r) (hr : 1 ≤ r) (table : List Sess) :
    Forced secs (step secs st (.signal table)) := by
  have ends (on : On secs st) {part : List (Effect Sess)} (hlog : st.log = part)
      (hpart : Part st.sessions (clampWindow secs) part) :
      Forced secs (step secs st (.signal table)) := by
    have hstep : step secs st (.signal table) = workersStop (stop st table) := by
      simp [step, on.halted, onSignal, on.signalled]
    rw [hstep]
    refine ⟨rfl, part, table, hpart, ?_⟩
    simp [workersStop, stop, State.emit, hlog, stopLog]
  cases h with
  | waving k on first more timer log => exact ends on log (.waves k (.inr more))
  | grace k on few timer log => exact ends on log (.all k few)
  | finished => omega

/-- What a run without a signal, one with a drain, and one that was cut short
look like. -/
inductive Stands (secs : UInt32) (signals : Nat) (st : State Sess) : Prop
  | idle (none : signals = 0) (fresh : st = {})
  | drains (r : Nat) (one : 1 ≤ signals) (drain : Drains secs st r)
  | forced (many : secs = 0 ∨ 2 ≤ signals) (some : 1 ≤ signals) (cut : Forced secs st)

def isSignal : Input Sess → Bool
  | .signal _ => true
  | .timer _ => false

/-- The first signal. -/
theorem stands_first (secs : UInt32) (table : List Sess) :
    Stands secs 1 (step secs {} (.signal table)) := by
  by_cases hsecs : 0 < secs
  · have on : On secs { ({} : State Sess).emit [.stopAccepting] with
        signalled := true
        draining := true
        onDrained := true
        sessions := table
        windowSeconds := clampWindow secs } := ⟨rfl, rfl, rfl, rfl, rfl⟩
    have few : Few table 0 := .inl rfl
    obtain ⟨r, -, hdrains⟩ := drains_wave on few rfl
    rw [Nat.zero_mul] at hdrains
    refine .drains r (Nat.le_refl 1) ?_
    have hstep : step secs ({} : State Sess) (.signal table) = _ := if_pos ⟨hsecs, rfl⟩
    rw [hstep]
    exact hdrains
  · have hstep : step secs ({} : State Sess) (.signal table) = workersStop (stop {} table) :=
      if_neg fun h => hsecs h.1
    rw [hstep]
    refine .forced (.inl ?_) (Nat.le_refl 1) ⟨rfl, [], table, .none, by
      simp [workersStop, stop, State.emit, stopLog]⟩
    exact UInt32.toNat_inj.mp (by simpa [UInt32.lt_iff_toNat_lt] using hsecs)

theorem stands_step {n : Nat} (h : Stands secs n st) (i : Input Sess) :
    Stands secs (n + if isSignal i then 1 else 0) (step secs st i) := by
  cases h with
  | idle none fresh =>
    subst none fresh
    cases i with
    | signal table => exact stands_first secs table
    | timer table => exact .idle rfl rfl
  | drains r one drain =>
    cases i with
    | timer table =>
      obtain ⟨r', -, hdrains⟩ := drains_timer drain table
      exact .drains r' one hdrains
    | signal table =>
      by_cases hr : 1 ≤ r
      · exact .forced (.inr (Nat.succ_le_succ one)) (Nat.le_add_left 1 n) (forced_signal drain hr table)
      · cases drain with
        | waving k on first more => exact absurd (lt_ten more) (by omega)
        | grace => exact absurd (Nat.le_refl 1) hr
        | finished k table' few halted log =>
          refine .drains 0 (Nat.le_add_left 1 n) ?_
          simpa only [step, halted, if_true] using Drains.finished k table' few halted log
  | forced many some cut =>
    have hstep : step secs st i = st := by cases i <;> simp only [step, cut.halted, if_true]
    rw [hstep]
    exact .forced (many.imp_right (Nat.le_trans · (Nat.le_add_right _ _)))
      (Nat.le_trans some (Nat.le_add_right _ _)) cut

theorem stands_run (secs : UInt32) (inputs : List (Input Sess)) :
    Stands secs (inputs.countP isSignal) (run secs inputs) := by
  induction inputs using List.reverseRecOn with
  | nil => exact .idle rfl rfl
  | append_singleton inputs i ih =>
    have hstep := stands_step ih i
    rw [run, List.foldl_append, List.countP_append, List.countP_singleton]
    exact hstep

theorem drains_le (h : Drains secs st r) : r ≤ 10 := by
  cases h <;> omega

theorem halted_foldl (h : st.halted = true) (inputs : List (Input Sess)) :
    inputs.foldl (step secs) st = st := by
  induction inputs with
  | nil => rfl
  | cons i inputs ih =>
    have hstep : step secs st i = st := by cases i <;> simp only [step, h, if_true]
    rw [List.foldl_cons, hstep, ih]

/-- Whatever comes next, a drain comes to its end. -/
theorem halted_of_drains (h : Drains secs st r) (inputs : List (Input Sess))
    (hlen : r ≤ inputs.length) : (inputs.foldl (step secs) st).halted = true := by
  have ended {st : State Sess} {r : Nat} (h : Drains secs st r) (hr : r = 0) : st.halted = true := by
    cases h with
    | waving k on first more => exact absurd (lt_ten more) (by omega)
    | grace => cases hr
    | finished k table few halted => exact halted
  induction inputs generalizing st r with
  | nil => exact ended h (Nat.le_zero.mp hlen)
  | cons i inputs ih =>
    rw [List.length_cons] at hlen
    rw [List.foldl_cons]
    cases i with
    | timer table =>
      obtain ⟨r', hr', hdrains⟩ := drains_timer h table
      exact ih hdrains (by omega)
    | signal table =>
      have hhalted : (step secs st (.signal table)).halted = true := by
        by_cases hr : 1 ≤ r
        · exact (forced_signal h hr table).halted
        · have hst := ended h (by omega)
          simp only [step, hst, if_true]
      rw [halted_foldl hhalted]
      exact hhalted

end Steps

/-! ## What a log says -/

def toldIn : Effect Sess → Option Sess
  | .requestReconnect s => some s
  | _ => none

def closedIn : Effect Sess → Option Sess
  | .shutdown s => some s
  | _ => none

def waitIn : Effect Sess → Option Nat
  | .expiresAfter ms => some ms
  | _ => none

def haltIn : Effect Sess → Bool
  | .workersStop => true
  | _ => false

/-- Who is told to connect again. -/
def told (log : List (Effect Sess)) : List Sess := log.filterMap toldIn

/-- Who is closed. -/
def closed (log : List (Effect Sess)) : List Sess := log.filterMap closedIn

/-- How long is waited. -/
def waited (log : List (Effect Sess)) : Nat := (log.filterMap waitIn).sum

/-- How often the contexts are stopped. -/
def halts (log : List (Effect Sess)) : Nat := log.countP haltIn

/-- All that a part of a log says. -/
structure Says (log : List (Effect Sess)) (t c : List Sess) (w h : Nat) : Prop where
  told : told log = t
  closed : closed log = c
  waited : waited log = w
  halts : halts log = h

section Logs

variable {l m : List (Effect Sess)} {t c t' c' : List Sess} {w h w' h' : Nat}

theorem Says.append (hl : Says l t c w h) (hm : Says m t' c' w' h') :
    Says (l ++ m) (t ++ t') (c ++ c') (w + w') (h + h') where
  told := by rw [← hl.told, ← hm.told]; exact List.filterMap_append
  closed := by rw [← hl.closed, ← hm.closed]; exact List.filterMap_append
  waited := by
    rw [← hl.waited, ← hm.waited, GracefulDrain.waited, List.filterMap_append, List.sum_append]
    rfl
  halts := by rw [← hl.halts, ← hm.halts]; exact List.countP_append

variable (sessions table : List Sess) (window k : Nat)

theorem says_reconnects : Says (sessions.map .requestReconnect) sessions [] 0 0 := by
  induction sessions with
  | nil => exact ⟨rfl, rfl, rfl, rfl⟩
  | cons s sessions ih =>
    have hone : Says [.requestReconnect s] [s] [] 0 0 := ⟨rfl, rfl, rfl, rfl⟩
    exact hone.append ih

theorem says_shutdowns : Says (sessions.map .shutdown) [] sessions 0 0 := by
  induction sessions with
  | nil => exact ⟨rfl, rfl, rfl, rfl⟩
  | cons s sessions ih =>
    have hone : Says [.shutdown s] [] [s] 0 0 := ⟨rfl, rfl, rfl, rfl⟩
    exact hone.append ih

theorem says_wait (ms : Nat) : Says [.expiresAfter ms] ([] : List Sess) [] ms 0 := ⟨rfl, rfl, rfl, rfl⟩

theorem says_stopLog : Says (stopLog table) [] table 0 1 := by
  have hstop : Says [.stopRest] ([] : List Sess) [] 0 0 := ⟨rfl, rfl, rfl, rfl⟩
  have hworkers : Says [.workersStop] ([] : List Sess) [] 0 1 := ⟨rfl, rfl, rfl, rfl⟩
  have hall := (hstop.append (says_shutdowns table)).append hworkers
  simp only [List.append_nil, List.nil_append] at hall
  exact hall

/-- The first waves. -/
theorem says_wavesLog : Says (wavesLog sessions window k)
    (sessions.take (k * perWave sessions.length)) [] (k * gapMs window) 0 := by
  induction k with
  | zero =>
    rw [Nat.zero_mul, Nat.zero_mul, List.take_zero]
    exact ⟨rfl, rfl, rfl, rfl⟩
  | succ k ih =>
    have hwave := (ih.append (says_reconnects ((sessions.take
      ((k + 1) * perWave sessions.length)).drop (k * perWave sessions.length)))).append
        (says_wait (gapMs window))
    have htake : sessions.take (k * perWave sessions.length) ++ (sessions.take
        ((k + 1) * perWave sessions.length)).drop (k * perWave sessions.length) =
        sessions.take ((k + 1) * perWave sessions.length) := by
      have hle : k * perWave sessions.length ≤ (k + 1) * perWave sessions.length :=
        Nat.mul_le_mul_right _ (Nat.le_succ k)
      conv_rhs => rw [← List.take_append_drop (k * perWave sessions.length) (sessions.take _),
        List.take_take, Nat.min_eq_left hle]
    have hwait : (k + 1) * gapMs window = k * gapMs window + 0 + gapMs window := Nat.succ_mul k _
    rw [List.append_nil, htake] at hwave
    rw [hwait]
    exact hwave

/-- Up to the last wait, everybody has been told once. -/
theorem says_graceLog : Says (graceLog sessions window k) sessions []
    (k * gapMs window + graceMs window) 0 := by
  have hall := ((says_wavesLog sessions window k).append (says_reconnects
    (sessions.drop (k * perWave sessions.length)))).append (says_wait (graceMs window))
  rw [List.append_nil, List.take_append_drop] at hall
  exact hall

end Logs

/-! ## Runs -/

/-- What may be said of a log at any time: everybody is told at most once and in
order, nobody after the first was closed, and the waits are bounded. -/
structure Orderly (sessions : List Sess) (window : Nat) (log : List (Effect Sess)) : Prop where
  told : told log <+: sessions
  apart : ∃ pre post, log = pre ++ post ∧ closed pre = [] ∧ GracefulDrain.told post = []
  waited : waited log ≤ 9 * gapMs window + graceMs window

theorem few_le_nine {sessions : List Sess} {k : Nat} (h : Few sessions k) : k ≤ 9 := by
  rcases h with rfl | h
  · omega
  · have := lt_ten h
    omega

/-- A log that closes somebody only after all it tells. -/
theorem orderly_of_parts {sessions t : List Sess} {window w h : Nat} {pre post : List (Effect Sess)}
    {c : List Sess} {h' : Nat} (hpre : Says pre t [] w h) (hpost : Says post [] c 0 h')
    (ht : t <+: sessions) (hw : w ≤ 9 * gapMs window + graceMs window) :
    Orderly sessions window (pre ++ post) := by
  have hall := hpre.append hpost
  rw [List.append_nil] at hall
  exact ⟨hall.told ▸ ht, ⟨pre, post, rfl, hpre.closed, hpost.told⟩, by rw [hall.waited]; exact hw⟩

theorem says_nil : Says ([] : List (Effect Sess)) [] [] 0 0 := ⟨rfl, rfl, rfl, rfl⟩

section Parts

variable {sessions : List Sess} {window k : Nat}

theorem wavesLog_wait (h : Few sessions k) :
    k * gapMs window ≤ 9 * gapMs window + graceMs window :=
  (Nat.mul_le_mul_right _ (few_le_nine h)).trans (Nat.le_add_right _ _)

theorem graceLog_wait (h : Few sessions k) :
    k * gapMs window + graceMs window ≤ 9 * gapMs window + graceMs window :=
  Nat.add_le_add_right (Nat.mul_le_mul_right _ (few_le_nine h)) _

/-- A part says nothing of closing. -/
theorem says_part {part : List (Effect Sess)} (h : Part sessions window part) :
    ∃ t w, Says part t [] w 0 ∧ t <+: sessions ∧ w ≤ 9 * gapMs window + graceMs window := by
  cases h with
  | none => exact ⟨[], 0, says_nil, List.nil_prefix, Nat.zero_le _⟩
  | waves k few =>
    exact ⟨_, _, says_wavesLog sessions window k, List.take_prefix _ _, wavesLog_wait few⟩
  | all k few => exact ⟨_, _, says_graceLog sessions window k, List.prefix_refl _, graceLog_wait few⟩

end Parts

def Input.table : Input Sess → List Sess
  | .signal table => table
  | .timer table => table

theorem wave_keeps (st : State Sess) (sent : Nat) :
    (scheduleDrainWave st sent).sessions = st.sessions ∧
    (scheduleDrainWave st sent).draining = st.draining ∧
    (scheduleDrainWave st sent).halted = st.halted := by
  unfold scheduleDrainWave
  dsimp only
  split
  · split <;> exact ⟨rfl, rfl, rfl⟩
  · exact ⟨rfl, rfl, rfl⟩

section Steps

variable {secs : UInt32} {st : State Sess}

/-- The table is closed by the input that stops the contexts. -/
theorem stopLog_of_step (h : st.halted = false) (i : Input Sess)
    (hi : (step secs st i).halted = true) :
    ∃ pre, (step secs st i).log = pre ++ stopLog i.table := by
  have stops (st : State Sess) (table : List Sess) :
      (workersStop (stop st table)).log = st.log ++ stopLog table := by
    simp [workersStop, stop, State.emit, stopLog]
  cases i with
  | signal table =>
    have hstep : step secs st (.signal table) = onSignal secs st table := by
      simp only [step, h, Bool.false_eq_true, if_false]
    rw [hstep] at hi ⊢
    unfold onSignal at hi ⊢
    split at hi
    · -- A drain begins, and does not stop them.
      unfold beginGracefulShutdown at hi
      split at hi
      · exact absurd hi (by simp [h])
      · rw [(wave_keeps _ _).2.2] at hi
        exact absurd hi (by simp [State.emit, h])
    · rename_i hc
      rw [if_neg hc]
      exact ⟨st.log, stops st table⟩
  | timer table =>
    have hstep : step secs st (.timer table) = onTimer st table := by
      simp only [step, h, Bool.false_eq_true, if_false]
    rw [hstep] at hi ⊢
    unfold onTimer at hi ⊢
    split at hi
    · exact absurd hi (by simp [h])
    · rw [(wave_keeps _ _).2.2] at hi
      exact absurd hi (by simp [h])
    · unfold finishShutdown at hi ⊢
      dsimp only at hi ⊢
      split at hi
      · rename_i hc
        rw [if_pos hc]
        exact ⟨_, stops ({ st with timer := none }.emit (st.sessions.map .shutdown)) table⟩
      · exact absurd hi (by simp [stop, State.emit, h])

/-- A drain keeps to the sessions it began with. -/
theorem sessions_step (h : st.draining = true) (i : Input Sess) :
    (step secs st i).sessions = st.sessions ∧ (step secs st i).draining = true := by
  cases i with
  | signal table =>
    unfold step
    dsimp only
    split
    · exact ⟨rfl, h⟩
    · unfold onSignal
      split
      · rw [beginGracefulShutdown, if_pos h]
        exact ⟨rfl, h⟩
      · exact ⟨rfl, h⟩
  | timer table =>
    unfold step
    dsimp only
    split
    · exact ⟨rfl, h⟩
    · unfold onTimer
      split
      · exact ⟨rfl, h⟩
      · obtain ⟨hsessions, hdraining, -⟩ := wave_keeps { st with timer := none } _
        exact ⟨hsessions, hdraining.trans h⟩
      · unfold finishShutdown
        dsimp only
        split <;> exact ⟨rfl, h⟩

end Steps

theorem sessions_foldl {secs : UInt32} {st : State Sess} (h : st.draining = true)
    (inputs : List (Input Sess)) : (inputs.foldl (step secs) st).sessions = st.sessions := by
  induction inputs generalizing st with
  | nil => rfl
  | cons i inputs ih =>
    obtain ⟨hsessions, hdraining⟩ := sessions_step h i
    rw [List.foldl_cons, ih hdraining, hsessions]

/-- Nothing happens before the first signal. -/
theorem run_of_timers {secs : UInt32} {inputs : List (Input Sess)}
    (h : inputs.countP isSignal = 0) : run secs inputs = {} := by
  cases stands_run secs inputs with
  | idle _ fresh => exact fresh
  | drains _ one | forced _ one => omega

/-- Whoever stands in the table at the end is closed. -/
theorem table_closed {secs : UInt32} (inputs : List (Input Sess))
    (h : (run secs inputs).halted = true) :
    ∃ i ∈ inputs, ∃ pre, (run secs inputs).log = pre ++ stopLog i.table := by
  induction inputs using List.reverseRecOn with
  | nil => cases h
  | append_singleton inputs i ih =>
    rw [run, List.foldl_append] at h ⊢
    by_cases hbefore : (run secs inputs).halted = true
    · obtain ⟨j, hj, hlog⟩ := ih hbefore
      refine ⟨j, List.mem_append_left _ hj, ?_⟩
      have hsame : [i].foldl (step secs) (run secs inputs) = run secs inputs :=
        halted_foldl hbefore [i]
      rw [show inputs.foldl (step secs) {} = run secs inputs from rfl, hsame]
      exact hlog
    · exact ⟨i, List.mem_append_right _ List.mem_cons_self,
        stopLog_of_step (Bool.eq_false_iff.mpr hbefore) i h⟩

/-- What a run has said, by how far it has come. -/
theorem says_run (secs : UInt32) (inputs : List (Input Sess)) :
    Orderly (run secs inputs).sessions (clampWindow secs) (run secs inputs).log ∧
    halts (run secs inputs).log = (if (run secs inputs).halted then 1 else 0) ∧
    (0 < secs → inputs.countP isSignal = 1 → (run secs inputs).halted = true →
      told (run secs inputs).log = (run secs inputs).sessions ∧
      (run secs inputs).sessions <+: closed (run secs inputs).log) := by
  have part {st : State Sess} {part : List (Effect Sess)}
      (hpart : Part st.sessions (clampWindow secs) part) (hlog : st.log = part) :
      Orderly st.sessions (clampWindow secs) st.log ∧ halts st.log = 0 := by
    obtain ⟨t, w, hsays, ht, hw⟩ := says_part hpart
    rw [hlog]
    refine ⟨?_, hsays.halts⟩
    simpa using orderly_of_parts hsays says_nil ht hw
  cases stands_run secs inputs with
  | idle none fresh =>
    rw [fresh]
    have hlog : ({} : State Sess).log = [] := rfl
    exact ⟨(part .none hlog).1, rfl, fun _ _ h => by cases h⟩
  | drains r one drain =>
    generalize run secs inputs = st at drain
    cases drain with
    | waving k on first more timer log =>
      obtain ⟨hord, hhalts⟩ := part (.waves k (.inr more)) log
      exact ⟨hord, by simp [hhalts, on.halted], fun _ _ h => absurd h (by simp [on.halted])⟩
    | grace k on few timer log =>
      obtain ⟨hord, hhalts⟩ := part (.all k few) log
      exact ⟨hord, by simp [hhalts, on.halted], fun _ _ h => absurd h (by simp [on.halted])⟩
    | finished k table few halted log =>
      have hpre := says_graceLog st.sessions (clampWindow secs) k
      have hpost := (says_shutdowns st.sessions).append (says_stopLog table)
      have hall := hpre.append hpost
      rw [log, List.append_assoc]
      refine ⟨orderly_of_parts hpre hpost (List.prefix_refl _) (graceLog_wait few), ?_, ?_⟩
      · rw [hall.halts, if_pos halted]
      · intro _ _ _
        rw [hall.told, hall.closed]
        exact ⟨by simp, by simp⟩
  | forced many some cut =>
    generalize run secs inputs = st at cut
    obtain ⟨pre, table, hpart, hlog⟩ := cut.log
    obtain ⟨t, w, hsays, ht, hw⟩ := says_part hpart
    have hall := hsays.append (says_stopLog table)
    rw [hlog]
    refine ⟨orderly_of_parts hsays (says_stopLog table) ht hw, ?_, ?_⟩
    · rw [hall.halts, if_pos cut.halted]
    · rintro hsecs hone -
      rcases many with rfl | htwo
      · exact absurd hsecs (by decide)
      · omega

/-- **A drain leaves nobody behind.** In every run the sessions of the first
signal are told once, in order, to connect again, and nobody is told after the
closing has begun. Ten more inputs end the drain, in a bounded time. Where no
second signal cuts it short, all have been told by then and are closed, and so
is whoever stands in the table at the end. -/
theorem drain_run (secs : UInt32) (inputs : List (Input Sess)) :
    Orderly (run secs inputs).sessions (clampWindow secs) (run secs inputs).log ∧
    halts (run secs inputs).log = (if (run secs inputs).halted then 1 else 0) ∧
    (0 < secs → inputs.countP isSignal = 1 → (run secs inputs).halted = true →
      told (run secs inputs).log = (run secs inputs).sessions ∧
      (run secs inputs).sessions <+: closed (run secs inputs).log) ∧
    ((run secs inputs).halted = true →
      ∃ i ∈ inputs, ∃ pre, (run secs inputs).log = pre ++ stopLog i.table) ∧
    ∀ before table after, inputs = before ++ .signal table :: after →
      before.countP isSignal = 0 →
      (0 < secs → (run secs inputs).sessions = table) ∧
      (10 ≤ after.length → (run secs inputs).halted = true) := by
  obtain ⟨horderly, hhalts, hdrained⟩ := says_run secs inputs
  refine ⟨horderly, hhalts, hdrained, table_closed inputs, ?_⟩
  rintro before table after rfl hnone
  have hrun : run secs (before ++ .signal table :: after) =
      after.foldl (step secs) (step secs {} (.signal table)) := by
    rw [run, List.foldl_append, show before.foldl (step secs) {} = {} from run_of_timers hnone]
    rfl
  rw [hrun]
  constructor
  · intro hsecs
    have hfirst : step secs ({} : State Sess) (.signal table) = _ := if_pos ⟨hsecs, rfl⟩
    have hbegin := wave_keeps { ({ signalled := true } : State Sess).emit [.stopAccepting] with
      draining := true
      onDrained := true
      sessions := table
      windowSeconds := clampWindow secs } 0
    rw [sessions_foldl (hfirst ▸ hbegin.2.1), hfirst]
    exact hbegin.1
  · intro hlen
    cases stands_first secs table with
    | idle none => cases none
    | drains r _ drain =>
      exact halted_of_drains drain after ((drains_le drain).trans hlen)
    | forced _ _ cut =>
      rw [halted_foldl cut.halted]
      exact cut.halted

end MkPool.GracefulDrain
