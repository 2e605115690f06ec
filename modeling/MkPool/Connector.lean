import MkPool.RateLimits

/-! # `connector.cpp`: accepted connections, and what is counted of them

A connection is counted under the address the acceptor read, and given back
under the address the session read again when it started. The three listeners
of the pool accept alike and share one rate limiter; only the sessions of a
`Connector` are registered before they start. -/
namespace MkPool.Connector
open MkPool.Utils MkPool.RateLimits

inductive Listener where
  | connector
  | relayListener
  | sv2RelayListener
deriving DecidableEq

/-- How far an accepted session is. -/
inductive Phase where
  | allowed
  | registered
  | started
  /-- `on_session_` or `start` threw, and the session was left. -/
  | failed
deriving DecidableEq

structure Session where
  listener : Listener
  acceptedFrom : Str
  clientIp : Str := []
  phase : Phase := .allowed
  closed : Bool := false
deriving DecidableEq

structure World where
  rl : RateLimiter
  sessions : List Session := []

/-- What may happen to a listener or to one of the sessions. -/
inductive Event where
  /-- An `async_accept` completes; the address is `?` where there is none. -/
  | accept (listener : Listener) (running error : Bool) (ip : Str) (now : ℚ)
  | register (n : Nat)
  | registerThrows (n : Nat)
  /-- `start` reads the address and begins to read. -/
  | start (n : Nat) (ip : Str)
  /-- `start` throws, before it has read the address or after. -/
  | startThrows (n : Nat) (ip : Option Str)
  /-- `on_disconnect_local`, by a handler of the session or posted by `shutdown`. -/
  | close (n : Nat)
  | invalidShare (n : Nat) (now : ℚ)
  | acceptedShare (n : Nat)

/-- `handle_accept` up to `on_session_`. -/
def handleAccept (w : World) (listener : Listener) (running error : Bool) (ip : Str) (now : ℚ) :
    World :=
  if !running then w
  else if error then w
  else
    let (allowed, rl) := w.rl.allowConnection now ip
    if allowed then { w with rl, sessions := w.sessions ++ [{ listener, acceptedFrom := ip }] }
    else { w with rl }

def World.set (w : World) (n : Nat) (s : Session) : World :=
  { w with sessions := w.sessions.set n s }

/-- `on_disconnect_local`. -/
def onDisconnectLocal (w : World) (n : Nat) (s : Session) : World :=
  if s.closed then w
  else { w.set n { s with closed := true } with rl := w.rl.onDisconnect s.clientIp }

/-- `start` comes after `on_session_`, where there is one. -/
def Session.ready (s : Session) : Bool :=
  match s.listener with
  | .connector => s.phase = .registered
  | _ => s.phase = .allowed

/-- Somebody else has a reference to the session. -/
def Session.known (s : Session) : Bool := s.phase ≠ .allowed

/-- A step, where it can be taken. -/
def step (w : World) : Event → Option World
  | .accept listener running error ip now => some (handleAccept w listener running error ip now)
  | .register n => do
    let s ← w.sessions[n]?
    guard (s.listener = .connector ∧ s.phase = .allowed)
    return w.set n { s with phase := .registered }
  | .registerThrows n => do
    let s ← w.sessions[n]?
    guard (s.listener = .connector ∧ s.phase = .allowed)
    return w.set n { s with phase := .failed }
  | .start n ip => do
    let s ← w.sessions[n]?
    guard s.ready
    return w.set n { s with phase := .started, clientIp := ip }
  | .startThrows n ip => do
    let s ← w.sessions[n]?
    guard s.ready
    return w.set n { s with phase := .failed, clientIp := ip.getD s.clientIp }
  | .close n => do
    let s ← w.sessions[n]?
    guard s.known
    return onDisconnectLocal w n s
  | .invalidShare n now => do
    let s ← w.sessions[n]?
    guard (s.phase = .started)
    let (banned, rl) := w.rl.recordInvalidShare now s.clientIp
    return if banned then onDisconnectLocal { w with rl } n s else { w with rl }
  | .acceptedShare n => do
    let s ← w.sessions[n]?
    guard (s.phase = .started)
    return { w with rl := w.rl.clearInvalid s.clientIp }

/-- The runs whose steps are all of a kind, from a rate limiter without history. -/
inductive Reach (cfg : RateLimitConfig) (ok : World → Event → Prop) : World → Prop where
  | init : Reach cfg ok { rl := { cfg } }
  | step {w w' : World} {e : Event} (reach : Reach cfg ok w) (hok : ok w e)
      (hs : step w e = some w') : Reach cfg ok w'

/-! ## Counting sessions -/

/-- In service: neither closed nor left by an exception. -/
def Session.live (s : Session) : Bool := s.phase ≠ .failed && !s.closed

/-- Live sessions accepted from the address. -/
def World.liveFrom (w : World) (ip : Str) : Nat :=
  w.sessions.countP fun s => s.live && s.acceptedFrom == ip

/-- **What keeps the books.** Nothing throws while a session is set up, it finds
the address that it was accepted from, and nothing closes it before it looked. -/
def KeepsBooks (w : World) : Event → Prop
  | .registerThrows _ | .startThrows _ _ => False
  | .start n ip => ∀ s, w.sessions[n]? = some s → s.acceptedFrom = ip
  | .close n => ∀ s, w.sessions[n]? = some s → s.phase = .started
  | _ => True

/-- A session that has started knows where it was accepted from, and only such a
one is closed. -/
structure Settled (s : Session) : Prop where
  ip : s.phase = .started → s.clientIp = s.acceptedFrom
  closed : s.closed = true → s.phase = .started
  kept : s.phase ≠ .failed

structure Books (limits : RateLimitConfig) (w : World) : Prop where
  cfg : w.rl.cfg = limits
  sessions : ∀ s ∈ w.sessions, Settled s
  count : ∀ ip, w.rl.openConnections ip = w.liveFrom ip
  room : ∀ ip, w.rl.openConnections ip ≤ limits.maxConnectionsPerIp

section Books

variable {limits : RateLimitConfig} {w w' : World} {s s' : Session} {n : Nat} {ip : Str}

theorem liveFrom_set (h : w.sessions[n]? = some s) :
    (w.set n s').liveFrom ip + (if s.live && s.acceptedFrom == ip then 1 else 0) =
      w.liveFrom ip + if s'.live && s'.acceptedFrom == ip then 1 else 0 := by
  obtain ⟨hn, rfl⟩ := List.getElem?_eq_some_iff.mp h
  unfold World.liveFrom World.set
  dsimp only
  rw [List.countP_set (by exact hn)]
  have hpos : (if (w.sessions[n].live && w.sessions[n].acceptedFrom == ip) = true then 1 else 0) ≤
      w.sessions.countP fun s => s.live && s.acceptedFrom == ip := by
    split
    · rename_i hlive
      exact List.countP_pos_iff.mpr ⟨_, List.getElem_mem hn, hlive⟩
    · exact Nat.zero_le _
  omega

/-- A session that stays as live as it was leaves the counts alone. -/
theorem liveFrom_set_same (h : w.sessions[n]? = some s) (hlive : s'.live = s.live)
    (hip : s'.acceptedFrom = s.acceptedFrom) : (w.set n s').liveFrom ip = w.liveFrom ip := by
  have hset := @liveFrom_set w s s' n ip h
  rw [hlive, hip] at hset
  omega

theorem Books.set (hb : Books limits w) (h : w.sessions[n]? = some s) (hs : Settled s')
    (hlive : s'.live = s.live) (hip : s'.acceptedFrom = s.acceptedFrom) :
    Books limits (w.set n s') where
  cfg := hb.cfg
  sessions t ht := by
    rcases List.mem_or_eq_of_mem_set ht with ht | rfl
    · exact hb.sessions t ht
    · exact hs
  count ip := (hb.count ip).trans (liveFrom_set_same h hlive hip).symm
  room := hb.room

/-- A rate limiter with the same counts keeps the books. -/
theorem Books.limiter (hb : Books limits w) {rl : RateLimiter} (hcfg : rl.cfg = w.rl.cfg)
    (hopen : ∀ ip, rl.openConnections ip = w.rl.openConnections ip) :
    Books limits { w with rl } where
  cfg := hcfg.trans hb.cfg
  sessions := hb.sessions
  count ip := (hopen ip).trans (hb.count ip)
  room ip := (hopen ip).trans_le (hb.room ip)

theorem Books.settled (hb : Books limits w) (h : w.sessions[n]? = some s) : Settled s :=
  hb.sessions s (List.mem_of_getElem? h)

theorem guard_holds {p : Prop} [Decidable p] {u : Unit} (h : (guard p : Option Unit) = some u) :
    p := by
  by_contra hp
  rw [guard, if_neg hp] at h
  cases h

theorem Books.accept (hb : Books limits w) (listener : Listener) (running error : Bool) (ip : Str)
    (now : ℚ) : Books limits (handleAccept w listener running error ip now) := by
  unfold handleAccept
  split
  · exact hb
  · split
    · exact hb
    · obtain ⟨hopen, hroom⟩ := forall_and.mp fun other => @open_allowConnection w.rl now ip other
      dsimp only
      split
      · rename_i hallowed
        have hcount (other : Str) : (w.rl.allowConnection now ip).2.openConnections other =
            w.rl.openConnections other + if other = ip then 1 else 0 := by
          rw [hopen, if_congr (and_iff_right hallowed) rfl rfl]
          split <;> rfl
        refine ⟨cfg_allowConnection.trans hb.cfg, ?_, fun other => ?_, fun other => ?_⟩
        · intro s hs
          rcases List.mem_append.mp hs with hs | hs
          · exact hb.sessions s hs
          · rw [List.mem_singleton.mp hs]
            exact ⟨fun h => (by cases h), fun h => (by cases h), (by decide : Phase.allowed ≠ .failed)⟩
        · rw [hcount, hb.count]
          unfold World.liveFrom
          rw [List.countP_append, List.countP_singleton]
          by_cases h : other = ip
          · subst h
            simp [Session.live]
          · have hne : ip ≠ other := Ne.symm h
            simp [h, hne]
        · rw [hcount]
          have hmax := hb.room other
          have hcfg := hb.cfg
          split
          · rename_i heq
            have hlt := hroom other hallowed
            rw [heq]
            rw [hcfg] at hlt
            omega
          · omega
      · rename_i hrefused
        refine hb.limiter cfg_allowConnection fun other => ?_
        rw [hopen, if_neg (by simp [hrefused])]

theorem Books.disconnect (hb : Books limits w) (h : w.sessions[n]? = some s)
    (hstarted : s.phase = .started) : Books limits (onDisconnectLocal w n s) := by
  unfold onDisconnectLocal
  split
  · exact hb
  · rename_i hopen
    have hlive : s.live = true := by simp [Session.live, hstarted, hopen]
    have hcount (ip : Str) : (w.set n { s with closed := true }).liveFrom ip +
        (if s.acceptedFrom = ip then 1 else 0) = w.liveFrom ip := by
      have hset := @liveFrom_set w s { s with closed := true } n ip h
      have hdead : ({ s with closed := true } : Session).live = false := by simp [Session.live]
      rw [hlive, hdead] at hset
      simpa using hset
    refine ⟨cfg_onDisconnect.trans hb.cfg, ?_, fun ip => ?_, fun ip => ?_⟩
    · intro t ht
      rcases List.mem_or_eq_of_mem_set ht with ht | rfl
      · exact hb.sessions t ht
      · have hsettled := hb.settled h
        exact ⟨hsettled.ip, fun _ => hstarted, hsettled.kept⟩
    · -- the address that is given back is the one that was counted
      have hips := hcount ip
      have hip := (hb.settled h).ip hstarted
      have hbooks := hb.count ip
      show (w.rl.onDisconnect s.clientIp).openConnections ip =
        (w.set n { s with closed := true }).liveFrom ip
      rw [open_onDisconnect]
      split
      · rename_i heq
        have hopen : w.rl.openConnections s.clientIp = w.rl.openConnections ip := by rw [heq]
        rw [if_pos (hip.symm.trans heq.symm)] at hips
        omega
      · rename_i hne
        rw [if_neg fun heq => hne (heq.symm.trans hip.symm)] at hips
        omega
    · show (w.rl.onDisconnect s.clientIp).openConnections ip ≤ _
      have hroom := hb.room ip
      rw [open_onDisconnect]
      split
      · rename_i heq
        rw [← heq]
        omega
      · exact hroom

theorem books_step {e : Event} (hb : Books limits w) (hok : KeepsBooks w e)
    (hs : step w e = some w') : Books limits w' := by
  cases e with
  | accept listener running error ip now =>
    obtain rfl := Option.some.inj hs
    exact hb.accept listener running error ip now
  | register n =>
    obtain ⟨s, hn, hs⟩ := Option.bind_eq_some_iff.mp hs
    obtain ⟨_, hguard, hs⟩ := Option.bind_eq_some_iff.mp hs
    obtain ⟨_, hphase⟩ := guard_holds hguard
    obtain rfl := Option.some.inj hs
    have hsettled := hb.settled hn
    refine hb.set hn ⟨fun h => (by cases h), fun h => ?_, fun h => (by cases h)⟩ ?_ rfl
    · have hstarted := hsettled.closed h
      rw [hphase] at hstarted
      cases hstarted
    · simp [Session.live, hphase]
  | registerThrows n => exact hok.elim
  | start n ip =>
    obtain ⟨s, hn, hs⟩ := Option.bind_eq_some_iff.mp hs
    obtain ⟨_, hguard, hs⟩ := Option.bind_eq_some_iff.mp hs
    obtain rfl := Option.some.inj hs
    have hsettled := hb.settled hn
    refine hb.set hn ⟨fun _ => (hok s hn).symm, fun _ => rfl, fun h => (by cases h)⟩ ?_ rfl
    simp [Session.live, hsettled.kept]
  | startThrows n ip => exact hok.elim
  | close n =>
    obtain ⟨s, hn, hs⟩ := Option.bind_eq_some_iff.mp hs
    obtain ⟨_, _, hs⟩ := Option.bind_eq_some_iff.mp hs
    obtain rfl := Option.some.inj hs
    exact hb.disconnect hn (hok s hn)
  | invalidShare n now =>
    obtain ⟨s, hn, hs⟩ := Option.bind_eq_some_iff.mp hs
    obtain ⟨_, hguard, hs⟩ := Option.bind_eq_some_iff.mp hs
    have hstarted := guard_holds hguard
    have hcounted : Books limits { w with rl := (w.rl.recordInvalidShare now s.clientIp).2 } :=
      hb.limiter cfg_recordInvalidShare open_recordInvalidShare
    obtain rfl := Option.some.inj hs
    dsimp only
    split
    · exact hcounted.disconnect hn hstarted
    · exact hcounted
  | acceptedShare n =>
    obtain ⟨s, hn, hs⟩ := Option.bind_eq_some_iff.mp hs
    obtain ⟨_, _, hs⟩ := Option.bind_eq_some_iff.mp hs
    obtain rfl := Option.some.inj hs
    exact hb.limiter cfg_clearInvalid open_clearInvalid

theorem books_reach (h : Reach limits KeepsBooks w) : Books limits w := by
  induction h with
  | init =>
    have hzero (ip : Str) : ({ cfg := limits } : RateLimiter).openConnections ip = 0 := rfl
    refine ⟨rfl, fun s hs => (by cases hs), fun ip => rfl, fun ip => ?_⟩
    rw [hzero]
    exact Nat.zero_le _
  | step _ hok hs ih => exact books_step ih hok hs

end Books

/-- **Connections are counted exactly.** In every run that keeps the books, each
address has as many open connections as live sessions were accepted from it, and
that is no more than it may have. -/
theorem connections_counted (limits : RateLimitConfig) (w : World)
    (h : Reach limits KeepsBooks w) (ip : Str) :
    w.rl.openConnections ip = w.liveFrom ip ∧ w.liveFrom ip ≤ limits.maxConnectionsPerIp := by
  have hb := books_reach h
  refine ⟨hb.count ip, ?_⟩
  rw [← hb.count ip]
  exact hb.room ip

instance (w : World) (e : Event) : Decidable (KeepsBooks w e) :=
  match e with
  | .start n ip => inferInstanceAs (Decidable (∀ s ∈ w.sessions[n]?, s.acceptedFrom = ip))
  | .close n => inferInstanceAs (Decidable (∀ s ∈ w.sessions[n]?, s.phase = .started))
  | .registerThrows _ | .startThrows _ _ => isFalse fun h => h
  | .accept .. | .register _ | .invalidShare _ _ | .acceptedShare _ => isTrue trivial

/-- The state after events that are all of a kind. -/
def after (limits : RateLimitConfig) (ok : World → Event → Bool) (events : List Event) :
    Option World :=
  events.foldlM (fun w e => if ok w e then step w e else none) { rl := { cfg := limits } }

theorem reach_of_after {limits : RateLimitConfig} {kind : World → Event → Prop}
    {ok : World → Event → Bool} (hok : ∀ w e, ok w e = true → kind w e) {events : List Event}
    {w : World} (h : after limits ok events = some w) : Reach limits kind w := by
  have steps (v : World) (hv : Reach limits kind v) (events : List Event)
      (h : events.foldlM (fun w e => if ok w e then step w e else none) v = some w) :
      Reach limits kind w := by
    induction events generalizing v with
    | nil =>
      cases h
      exact hv
    | cons e events ih =>
      obtain ⟨u, hu, h⟩ := Option.bind_eq_some_iff.mp h
      dsimp only at hu
      split at hu
      · rename_i he
        exact ih u (.step hv (hok v e he) hu) h
      · cases hu
  exact steps _ .init events h

def peer : Str := "10.0.0.1".toList

/-- A connection comes and starts. -/
theorem one_connection_counted :
    ∃ w, Reach {} KeepsBooks w ∧ w.sessions.length = 1 ∧
      w.rl.openConnections peer = w.liveFrom peer ∧ w.liveFrom peer ≤ 50000 := by
  have h : (after {} (fun w e => decide (KeepsBooks w e)) [.accept .connector true false peer 1,
      .register 0, .start 0 peer]).any (fun w => w.sessions.length == 1) = true := by
    decide +kernel
  obtain ⟨w, hw, hone⟩ := (Option.any_eq_true _ _).mp h
  have hreach : Reach {} KeepsBooks w := reach_of_after (fun _ _ he => of_decide_eq_true he) hw
  exact ⟨w, hreach, beq_iff_eq.mp hone, connections_counted {} w hreach peer⟩

/-- **A connection that is never given back.** The peer resets it between the
accept and the start of the session, which then finds no address. -/
theorem reset_connection_counted :
    ∃ w, Reach {} (fun _ _ => True) w ∧ w.liveFrom peer = 0 ∧ w.rl.openConnections peer = 1 := by
  have h : (after {} (fun _ _ => true) [.accept .connector true false peer 1, .register 0,
      .start 0 "?".toList, .close 0]).any
        (fun w => w.liveFrom peer == 0 && w.rl.openConnections peer == 1) = true := by
    decide +kernel
  obtain ⟨w, hw, hcounts⟩ := (Option.any_eq_true _ _).mp h
  obtain ⟨hlive, hopen⟩ := Bool.and_eq_true_iff.mp hcounts
  exact ⟨w, reach_of_after (fun _ _ _ => trivial) hw, beq_iff_eq.mp hlive, beq_iff_eq.mp hopen⟩

end MkPool.Connector
