import Mathlib.Data.Nat.ModEq
import Mathlib.Data.List.Nodup
import MkPool.Utils

/-! # `beast_client.cpp` and `bitcoin_client.cpp`: a request to the nodes

One call of `asyncRPC` or `asyncSubmitWithRetry`, among others that share the
endpoint to start from. Each request has a client of its own, which resolves,
connects, writes and reads; above it are the failover over the endpoints and the
retries of a block submission. -/
namespace MkPool.NodeRequest

variable {Code Json : Type}

/-- What a callback is given: an `ec`, or a body with no `ec`. -/
abbrev Reply (Code Json : Type) := Except Code Json

inductive Thrown where
  | stdException
  | other
deriving DecidableEq

structure Env (Code Json : Type) where
  /-- The size of `endpoints_`. -/
  endpoints : Nat
  /-- The primary node is always endpoint 0. -/
  primary : 0 < endpoints
  /-- `asyncSubmitWithRetry` instead of `asyncRPC`. -/
  retries : Bool
  /-- What the caller's callback throws, by its earlier invocations. -/
  callback : List (Reply Code Json) → Reply Code Json → Option Thrown
  /-- `boost::asio::error::invalid_argument`. -/
  invalidArgument : Code

/-- The handler of a client that is due next. -/
inductive Stage where
  | onResolve
  | onConnect
  | onWrite
  | onRead
deriving DecidableEq

inductive Pending where
  | client (attempt idx tried : Nat) (stage : Stage)
  | timer (attempt : Nat)
deriving DecidableEq

/-- A request that went to an endpoint. -/
structure Try where
  idx : Nat
  answered : Bool := false
deriving DecidableEq

/-- An attempt: where it began, and its tries, the latest first. -/
structure Attempt where
  current : Nat
  tries : List Try := []
deriving DecidableEq

/-- The state of a call, with a log of what it did, the latest first. -/
structure Call (Code Json : Type) where
  current : Nat
  pending : Option Pending := none
  told : List (Reply Code Json) := []
  log : List Attempt := []

def kSubmitMaxAttempts : Nat := 5

/-- `BeastClient::run`. -/
def Call.run (s : Call Code Json) (attempt idx tried : Nat) : Call Code Json :=
  { s with
    pending := some (.client attempt idx tried .onResolve)
    log := s.log.modifyHead fun a => { a with tries := { idx } :: a.tries } }

/-- Notes an answer of the endpoint last tried. -/
def Call.answer (s : Call Code Json) : Call Code Json :=
  { s with log := s.log.modifyHead fun a =>
      { a with tries := a.tries.modifyHead fun t => { t with answered := true } } }

namespace Env
variable (env : Env Code Json)

def asyncRPC (s : Call Code Json) (attempt : Nat) : Call Code Json :=
  let s := { s with log := { current := s.current } :: s.log }
  if env.endpoints ≤ 1 then s.run attempt 0 0
  else s.run attempt s.current 0

def submitAttempt (s : Call Code Json) (attempt : Nat) : Call Code Json :=
  env.asyncRPC s (attempt + 1)

def invoke (s : Call Code Json) (reply : Reply Code Json) : Call Code Json × Option Thrown :=
  ({ s with told := reply :: s.told }, env.callback s.told reply)

/-- The callback of `submitAttempt`. -/
def submitCallback (attempt : Nat) (s : Call Code Json) (reply : Reply Code Json) :
    Call Code Json × Option Thrown :=
  match reply with
  | .ok _ => env.invoke s reply
  | .error _ =>
    if kSubmitMaxAttempts ≤ attempt then env.invoke s reply
    else ({ s with pending := some (.timer attempt) }, none)

/-- The callback that `asyncRPC` is given. -/
def rpcCallback (attempt : Nat) (s : Call Code Json) (reply : Reply Code Json) :
    Call Code Json × Option Thrown :=
  if env.retries then env.submitCallback attempt s reply else env.invoke s reply

/-- The callback of `rpcTryEndpoint`. -/
def endpointCallback (attempt idx tried : Nat) (s : Call Code Json) (reply : Reply Code Json) :
    Call Code Json × Option Thrown :=
  match reply with
  | .ok _ => env.rpcCallback attempt { s with current := idx } reply
  | .error _ =>
    if env.endpoints ≤ tried + 1 then env.rpcCallback attempt s reply
    else (s.run attempt ((idx + 1) % env.endpoints) (tried + 1), none)

/-- The `callback_` of a client. -/
def clientCallback (attempt idx tried : Nat) (s : Call Code Json) (reply : Reply Code Json) :
    Call Code Json × Option Thrown :=
  if env.endpoints ≤ 1 then env.rpcCallback attempt s reply
  else env.endpointCallback attempt idx tried s reply

/-- `on_read` with a body: the callback is called in the `try` that parses. -/
def onRead (attempt idx tried : Nat) (s : Call Code Json) (body : Option Json) :
    Call Code Json × Option Thrown :=
  match body with
  | none => env.clientCallback attempt idx tried s (.error env.invalidArgument)
  | some answer =>
    match env.clientCallback attempt idx tried s.answer (.ok answer) with
    | (s, some .stdException) =>
      env.clientCallback attempt idx tried s (.error env.invalidArgument)
    | outcome => outcome

end Env

inductive Input (Code Json : Type) where
  /-- The handler that is due gets an `ec`. -/
  | fails (ec : Code)
  | resolved
  | connected
  | written
  /-- A response; a body that does not parse is none. -/
  | reads (body : Option Json)
  | fires
  /-- Another call or the watchdog stores `current_`. -/
  | stores (idx : Nat)

/-- A handler runs. What a handler throws ends it, and leaves nothing due. -/
def step (env : Env Code Json) (s : Call Code Json) : Input Code Json → Option (Call Code Json)
  | .fails ec =>
    match s.pending with
    | some (.client attempt idx tried _) =>
      some (env.clientCallback attempt idx tried { s with pending := none } (.error ec)).1
    | _ => none
  | .resolved =>
    match s.pending with
    | some (.client attempt idx tried .onResolve) =>
      some { s with pending := some (.client attempt idx tried .onConnect) }
    | _ => none
  | .connected =>
    match s.pending with
    | some (.client attempt idx tried .onConnect) =>
      some { s with pending := some (.client attempt idx tried .onWrite) }
    | _ => none
  | .written =>
    match s.pending with
    | some (.client attempt idx tried .onWrite) =>
      some { s with pending := some (.client attempt idx tried .onRead) }
    | _ => none
  | .reads body =>
    match s.pending with
    | some (.client attempt idx tried .onRead) =>
      some (env.onRead attempt idx tried { s with pending := none } body).1
    | _ => none
  | .fires =>
    match s.pending with
    | some (.timer attempt) => some (env.submitAttempt { s with pending := none } attempt)
    | _ => none
  | .stores idx => if idx < env.endpoints then some { s with current := idx } else none

/-- What the handlers of the call itself do, and not of others. -/
def Input.own : Input Code Json → Nat
  | .stores _ => 0
  | _ => 1

/-- The runs of a call, with the number of its handlers that ran. -/
inductive Run (env : Env Code Json) : Nat → Call Code Json → Prop where
  | start {current : Nat} (h : current < env.endpoints) :
    Run env 0 (env.submitAttempt { current } 0)
  | step {k : Nat} {s s' : Call Code Json} {input : Input Code Json} (h : Run env k s)
    (hstep : step env s input = some s') : Run env (k + input.own) s'

/-! ## The property -/

def Env.maxAttempts (env : Env Code Json) : Nat := if env.retries then kSubmitMaxAttempts else 1

/-- An attempt goes through the endpoints from the one it began with, and past
none again. -/
structure Cyclic (env : Env Code Json) (a : Attempt) : Prop where
  order : (a.tries.map Try.idx).reverse =
    (List.range a.tries.length).map fun i => (a.current + i) % env.endpoints
  once : (a.tries.map Try.idx).Nodup

/-- What a call is to keep to. -/
structure Served (env : Env Code Json) (k : Nat) (s : Call Code Json) : Prop where
  told_le : s.told.length ≤ 1
  told_of_done : s.pending = none → s.told.length = 1
  /-- Every call comes to its end. -/
  ends : k ≤ env.maxAttempts * (4 * env.endpoints + 1)
  /-- No try came after one that was answered. -/
  not_resent : ∀ t ∈ (s.log.flatMap Attempt.tries).tail, t.answered = false
  cyclic : ∀ a ∈ s.log, Cyclic env a
  attempts_le : s.log.length ≤ env.maxAttempts

/-! ## Endpoints in cyclic order -/

theorem cyclic_of_order {env : Env Code Json} {a : Attempt}
    (hlen : a.tries.length ≤ env.endpoints)
    (horder : (a.tries.map Try.idx).reverse =
      (List.range a.tries.length).map fun i => (a.current + i) % env.endpoints) :
    Cyclic env a := by
  refine ⟨horder, List.nodup_reverse.mp ?_⟩
  rw [horder]
  refine List.nodup_range.map_on fun i hi j hj hij => ?_
  have hi := (List.mem_range.mp hi).trans_le hlen
  have hj := (List.mem_range.mp hj).trans_le hlen
  exact (Nat.ModEq.add_left_cancel' a.current hij).eq_of_lt_of_lt hi hj

/-- The endpoint after those that were tried. -/
theorem Cyclic.next {env : Env Code Json} {a : Attempt} (h : Cyclic env a)
    (hlt : a.tries.length < env.endpoints) :
    Cyclic env { a with
      tries := { idx := (a.current + a.tries.length) % env.endpoints } :: a.tries } := by
  refine cyclic_of_order hlt ?_
  rw [List.map_cons, List.reverse_cons, List.length_cons, List.range_succ, List.map_append, h.order]
  rfl

/-- An answer changes no endpoint. -/
theorem Cyclic.answer {env : Env Code Json} {a : Attempt} (h : Cyclic env a) :
    Cyclic env { a with
      tries := a.tries.modifyHead fun t => { t with answered := true } } := by
  cases a with
  | mk current tries =>
    cases tries with
    | nil => exact h
    | cons t tries => exact ⟨h.order, h.once⟩

/-! ## What every handler keeps -/

/-- The tries of a log, the latest first. -/
abbrev tries (log : List Attempt) : List Try := log.flatMap Attempt.tries

/-- A call that has told nothing, and was not answered. -/
structure Open (env : Env Code Json) (s : Call Code Json) : Prop where
  current_lt : s.current < env.endpoints
  told : s.told = []
  unanswered : ∀ t ∈ tries s.log, t.answered = false
  cyclic : ∀ a ∈ s.log, Cyclic env a
  attempts_le : s.log.length ≤ env.maxAttempts

/-- The latest attempt, and the endpoint it tried last. -/
structure Trying (env : Env Code Json) (s : Call Code Json) (attempt idx tried : Nat) : Prop
    extends Open env s where
  attempt_eq : attempt = s.log.length
  tried_lt : tried < env.endpoints
  head : ∃ a log, s.log = a :: log ∧ a.tries.length = tried + 1 ∧
    idx = (a.current + tried) % env.endpoints

structure Waiting (env : Env Code Json) (s : Call Code Json) (attempt : Nat) : Prop
    extends Open env s where
  attempt_eq : attempt = s.log.length
  attempt_lt : attempt < env.maxAttempts

structure Done (env : Env Code Json) (s : Call Code Json) : Prop where
  current_lt : s.current < env.endpoints
  told : s.told.length = 1
  not_resent : ∀ t ∈ (tries s.log).tail, t.answered = false
  cyclic : ∀ a ∈ s.log, Cyclic env a
  attempts_le : s.log.length ≤ env.maxAttempts

def Kept (env : Env Code Json) (s : Call Code Json) : Prop :=
  match s.pending with
  | some (.client attempt idx tried _) => Trying env s attempt idx tried
  | some (.timer attempt) => Waiting env s attempt
  | none => Done env s

/-! The handlers a call can still run. -/

def Stage.left : Stage → Nat
  | .onResolve => 4
  | .onConnect => 3
  | .onWrite => 2
  | .onRead => 1

def left (env : Env Code Json) : Option Pending → Nat
  | some (.client attempt _ tried stage) =>
    (env.maxAttempts - attempt) * (4 * env.endpoints + 1) + 4 * (env.endpoints - (tried + 1)) +
      stage.left
  | some (.timer attempt) => (env.maxAttempts - attempt) * (4 * env.endpoints + 1)
  | none => 0

section Handlers
variable {env : Env Code Json} {s : Call Code Json} {attempt idx tried : Nat}

theorem left_client (stage : Stage) : left env (some (.client attempt idx tried stage)) =
    (env.maxAttempts - attempt) * (4 * env.endpoints + 1) +
      4 * (env.endpoints - (tried + 1)) + stage.left := rfl

theorem left_timer : left env (some (.timer attempt)) =
    (env.maxAttempts - attempt) * (4 * env.endpoints + 1) := rfl

theorem left_none : left env none = 0 := rfl

/-! What is due, and the endpoint to start from, are no part of it. -/

theorem Open.of_eq {s' : Call Code Json} (h : Open env s) (hcurrent : s'.current < env.endpoints)
    (htold : s'.told = s.told) (hlog : s'.log = s.log) : Open env s' where
  current_lt := hcurrent
  told := htold.trans h.told
  unanswered := hlog ▸ h.unanswered
  cyclic := hlog ▸ h.cyclic
  attempts_le := hlog ▸ h.attempts_le

theorem Trying.of_eq {s' : Call Code Json} (h : Trying env s attempt idx tried)
    (hcurrent : s'.current < env.endpoints) (htold : s'.told = s.told) (hlog : s'.log = s.log) :
    Trying env s' attempt idx tried where
  toOpen := h.toOpen.of_eq hcurrent htold hlog
  attempt_eq := hlog ▸ h.attempt_eq
  tried_lt := h.tried_lt
  head := hlog ▸ h.head

theorem Waiting.of_eq {s' : Call Code Json} (h : Waiting env s attempt)
    (hcurrent : s'.current < env.endpoints) (htold : s'.told = s.told) (hlog : s'.log = s.log) :
    Waiting env s' attempt where
  toOpen := h.toOpen.of_eq hcurrent htold hlog
  attempt_eq := hlog ▸ h.attempt_eq
  attempt_lt := h.attempt_lt

theorem Open.done (h : Open env s) (reply : Reply Code Json) :
    Done env (env.invoke s reply).1 where
  current_lt := h.current_lt
  told := by rw [Env.invoke, h.told]; rfl
  not_resent t ht := h.unanswered t (List.mem_of_mem_tail ht)
  cyclic := h.cyclic
  attempts_le := h.attempts_le

/-- An attempt begins at the current endpoint. -/
theorem Open.asyncRPC (h : Open env s) (hlt : s.log.length < env.maxAttempts) :
    ∃ idx, (env.asyncRPC s (s.log.length + 1)).pending =
        some (.client (s.log.length + 1) idx 0 .onResolve) ∧
      Trying env (env.asyncRPC s (s.log.length + 1)) (s.log.length + 1) idx 0 := by
  have hrun : env.asyncRPC s (s.log.length + 1) =
      Call.run { s with log := { current := s.current } :: s.log } (s.log.length + 1)
        s.current 0 := by
    unfold Env.asyncRPC
    dsimp only
    split
    · rename_i hone
      have := h.current_lt
      rw [show s.current = 0 by omega]
    · rfl
  rw [hrun]
  have hmod : s.current % env.endpoints = s.current := Nat.mod_eq_of_lt h.current_lt
  refine ⟨s.current, rfl, ?_⟩
  refine {
    current_lt := h.current_lt
    told := h.told
    unanswered := ?_
    cyclic := ?_
    attempts_le := hlt
    attempt_eq := rfl
    tried_lt := env.primary
    head := ⟨_, _, rfl, rfl, hmod.symm⟩ }
  · intro t ht
    rcases List.mem_cons.mp ht with rfl | ht
    · rfl
    · exact h.unanswered t ht
  · intro a ha
    rcases List.mem_cons.mp ha with rfl | ha
    · refine cyclic_of_order env.primary ?_
      show [s.current] = [(s.current + 0) % env.endpoints]
      rw [Nat.add_zero, hmod]
    · exact h.cyclic a ha

/-- The attempt goes on with the next endpoint. -/
theorem Trying.run (h : Trying env s attempt idx tried) (hlt : tried + 1 < env.endpoints) :
    Trying env (s.run attempt ((idx + 1) % env.endpoints) (tried + 1)) attempt
      ((idx + 1) % env.endpoints) (tried + 1) := by
  obtain ⟨a, log, hlog, hlen, hidx⟩ := h.head
  have hnext : (idx + 1) % env.endpoints = (a.current + (tried + 1)) % env.endpoints := by
    rw [hidx, Nat.mod_add_mod, Nat.add_assoc]
  have hlog' : (s.run attempt ((idx + 1) % env.endpoints) (tried + 1)).log =
      { a with tries := { idx := (idx + 1) % env.endpoints } :: a.tries } :: log := by
    rw [Call.run, hlog]
    rfl
  have hunanswered := h.unanswered
  have hcyclic := h.cyclic
  have hattempts := h.attempts_le
  have hattempt := h.attempt_eq
  rw [hlog] at hunanswered hcyclic hattempts hattempt
  refine {
    current_lt := h.current_lt
    told := h.told
    unanswered := ?_
    cyclic := ?_
    attempts_le := ?_
    attempt_eq := ?_
    tried_lt := hlt
    head := ⟨_, log, hlog', congrArg (· + 1) hlen, hnext⟩ }
  · rw [hlog']
    intro t ht
    rcases List.mem_cons.mp ht with rfl | ht
    · rfl
    · exact hunanswered t ht
  · rw [hlog']
    intro b hb
    rcases List.mem_cons.mp hb with rfl | hb
    · rw [hnext, ← hlen]
      exact (hcyclic a List.mem_cons_self).next (by omega)
    · exact hcyclic b (List.mem_cons_of_mem a hb)
  · rw [hlog']
    exact hattempts
  · rw [hlog']
    exact hattempt

/-- No answer came: the callback is told, or a timer is set. -/
theorem Trying.rpcCallback (h : Trying env s attempt idx tried) (hpending : s.pending = none)
    (ec : Code) :
    (env.rpcCallback attempt s (.error ec)).1.pending = none ∧
        Done env (env.rpcCallback attempt s (.error ec)).1 ∨
      (env.rpcCallback attempt s (.error ec)).1.pending = some (.timer attempt) ∧
        Waiting env (env.rpcCallback attempt s (.error ec)).1 attempt := by
  unfold Env.rpcCallback
  split
  · rename_i hretries
    dsimp only [Env.submitCallback]
    split
    · exact .inl ⟨hpending, h.toOpen.done _⟩
    · rename_i hmore
      refine .inr ⟨rfl, ?_⟩
      exact {
        current_lt := h.current_lt
        told := h.told
        unanswered := h.unanswered
        cyclic := h.cyclic
        attempts_le := h.attempts_le
        attempt_eq := h.attempt_eq
        attempt_lt := by rw [Env.maxAttempts, if_pos hretries]; omega }
  · exact .inl ⟨hpending, h.toOpen.done _⟩

/-- **No answer came.** The next endpoint is tried, the callback is told, or a
timer is set; and there is less left to run. -/
theorem Trying.clientCallback (h : Trying env s attempt idx tried) (hpending : s.pending = none)
    (ec : Code) (stage : Stage) :
    Kept env (env.clientCallback attempt idx tried s (.error ec)).1 ∧
      left env (env.clientCallback attempt idx tried s (.error ec)).1.pending <
        left env (some (.client attempt idx tried stage)) := by
  have hstage : 0 < stage.left := by cases stage <;> decide
  have hrpc : Kept env (env.rpcCallback attempt s (.error ec)).1 ∧
      left env (env.rpcCallback attempt s (.error ec)).1.pending <
        left env (some (.client attempt idx tried stage)) := by
    unfold Kept
    rcases h.rpcCallback hpending ec with ⟨hnone, hdone⟩ | ⟨htimer, hwaiting⟩
    · rw [hnone, left_none, left_client]
      exact ⟨hdone, by omega⟩
    · rw [htimer, left_timer, left_client]
      exact ⟨hwaiting, by omega⟩
  unfold Env.clientCallback
  split
  · exact hrpc
  · dsimp only [Env.endpointCallback]
    split
    · exact hrpc
    · rename_i hmore
      have hlt := not_le.mp hmore
      refine ⟨h.run hlt, ?_⟩
      rw [Call.run, left_client, left_client]
      show _ + _ + 4 < _
      omega

theorem rpcCallback_ok (env : Env Code Json) (s : Call Code Json) (attempt : Nat)
    (answer : Json) : env.rpcCallback attempt s (.ok answer) = env.invoke s (.ok answer) := by
  unfold Env.rpcCallback
  split
  · rfl
  · rfl

/-- An answer is told as it is. -/
theorem clientCallback_ok (env : Env Code Json) (s : Call Code Json) (attempt idx tried : Nat)
    (answer : Json) : ∃ current,
    env.clientCallback attempt idx tried s (.ok answer) =
      env.invoke { s with current } (.ok answer) ∧ (current = s.current ∨ current = idx) := by
  unfold Env.clientCallback Env.endpointCallback
  split
  · exact ⟨s.current, rpcCallback_ok .., .inl rfl⟩
  · exact ⟨idx, rpcCallback_ok .., .inr rfl⟩

/-- **An answer came.** If the callback lets no `std::exception` out, it is told
and nothing is left. -/
theorem Trying.onRead (hcallback : ∀ answer, env.callback [] (.ok answer) ≠ some .stdException)
    (h : Trying env s attempt idx tried) (hpending : s.pending = none) (answer : Json) :
    (env.onRead attempt idx tried s (some answer)).1.pending = none ∧
      Done env (env.onRead attempt idx tried s (some answer)).1 := by
  obtain ⟨current, hok, hcurrent⟩ :=
    clientCallback_ok env s.answer attempt idx tried answer
  obtain ⟨a, log, hlog, hlen, hidx⟩ := h.head
  have hidx_lt : idx < env.endpoints := hidx ▸ Nat.mod_lt _ env.primary
  have hunanswered := h.unanswered
  have hcyclic := h.cyclic
  have hattempts := h.attempts_le
  rw [hlog] at hunanswered hcyclic hattempts
  have hlog' : s.answer.log =
      { a with tries := a.tries.modifyHead fun t => { t with answered := true } } :: log := by
    rw [Call.answer, hlog]
    rfl
  have hread : env.onRead attempt idx tried s (some answer) =
      env.invoke { s.answer with current } (.ok answer) := by
    unfold Env.onRead
    dsimp only
    rw [hok]
    split
    · rename_i heq
      have hthrown := congrArg Prod.snd heq
      refine absurd hthrown ?_
      show env.callback s.told (.ok answer) ≠ _
      rw [h.told]
      exact hcallback answer
    · rfl
  rw [hread]
  refine ⟨hpending, ?_⟩
  refine {
    current_lt := ?_
    told := ?_
    not_resent := ?_
    cyclic := ?_
    attempts_le := ?_ }
  · rcases hcurrent with rfl | rfl
    · exact h.current_lt
    · exact hidx_lt
  · show (_ :: s.told).length = 1
    rw [h.told]
    rfl
  · show ∀ t ∈ (tries s.answer.log).tail, _
    rw [hlog']
    intro t ht
    refine hunanswered t ?_
    cases a with
    | mk c ts =>
      cases ts with
      | nil => cases hlen
      | cons t' ts => exact List.mem_cons_of_mem t' ht
  · show ∀ b ∈ s.answer.log, _
    rw [hlog']
    intro b hb
    rcases List.mem_cons.mp hb with rfl | hb
    · exact (hcyclic a List.mem_cons_self).answer
    · exact hcyclic b (List.mem_cons_of_mem a hb)
  · show s.answer.log.length ≤ _
    rw [hlog']
    exact hattempts

/-- A handler that succeeds hands on to the next of its attempt. -/
theorem Kept.next {stage stage' : Stage} (h : Kept env s)
    (hpending : s.pending = some (.client attempt idx tried stage))
    (hless : stage'.left < stage.left) :
    Kept env { s with pending := some (.client attempt idx tried stage') } ∧
      left env (some (.client attempt idx tried stage')) + 1 ≤ left env s.pending := by
  rw [Kept, hpending] at h
  rw [hpending]
  exact ⟨h.of_eq h.current_lt rfl rfl, Nat.add_le_add_left hless _⟩

/-- **One handler keeps the call in order**, and leaves less to run. -/
theorem Kept.after {s' : Call Code Json} {input : Input Code Json}
    (hcallback : ∀ answer, env.callback [] (.ok answer) ≠ some .stdException) (h : Kept env s)
    (hstep : step env s input = some s') :
    Kept env s' ∧ left env s'.pending + input.own ≤ left env s.pending := by
  cases input with
  | fails ec =>
    unfold step at hstep
    dsimp only at hstep
    split at hstep
    · rename_i attempt idx tried stage hpending
      cases hstep
      rw [Kept, hpending] at h
      rw [hpending]
      have h : Trying env { s with pending := none } attempt idx tried :=
        h.of_eq h.current_lt rfl rfl
      exact h.clientCallback rfl ec stage
    · cases hstep
  | resolved =>
    unfold step at hstep
    dsimp only at hstep
    split at hstep
    · rename_i attempt idx tried hpending
      cases hstep
      exact h.next hpending (by decide)
    · cases hstep
  | connected =>
    unfold step at hstep
    dsimp only at hstep
    split at hstep
    · rename_i attempt idx tried hpending
      cases hstep
      exact h.next hpending (by decide)
    · cases hstep
  | written =>
    unfold step at hstep
    dsimp only at hstep
    split at hstep
    · rename_i attempt idx tried hpending
      cases hstep
      exact h.next hpending (by decide)
    · cases hstep
  | reads body =>
    unfold step at hstep
    dsimp only at hstep
    split at hstep
    · rename_i attempt idx tried hpending
      cases hstep
      rw [Kept, hpending] at h
      rw [hpending]
      have h : Trying env { s with pending := none } attempt idx tried :=
        h.of_eq h.current_lt rfl rfl
      cases body with
      | none => exact h.clientCallback rfl env.invalidArgument .onRead
      | some answer =>
        obtain ⟨hnone, hdone⟩ := h.onRead hcallback rfl answer
        rw [Kept, hnone, left_none, left_client]
        refine ⟨hdone, ?_⟩
        show 0 + 1 ≤ _ + 1
        omega
    · cases hstep
  | fires =>
    unfold step at hstep
    dsimp only at hstep
    split at hstep
    · rename_i attempt hpending
      cases hstep
      rw [Kept, hpending] at h
      rw [hpending]
      have hopen : Open env { s with pending := none } := h.toOpen.of_eq h.current_lt rfl rfl
      obtain ⟨idx, hnext, htrying⟩ := hopen.asyncRPC (h.attempt_eq ▸ h.attempt_lt)
      rw [Env.submitAttempt, h.attempt_eq, Kept, hnext, left_client, left_timer]
      refine ⟨htrying, ?_⟩
      have hlt := h.attempt_eq ▸ h.attempt_lt
      obtain ⟨more, hmore⟩ := Nat.exists_eq_add_of_lt hlt
      have hthis : env.maxAttempts - s.log.length = more + 1 := by omega
      have hrest : env.maxAttempts - (s.log.length + 1) = more := by omega
      have := env.primary
      rw [hthis, hrest, Nat.add_one_mul more]
      show _ + _ + 4 + 1 ≤ _
      omega
    · cases hstep
  | stores idx =>
    unfold step at hstep
    dsimp only at hstep
    split at hstep
    · rename_i hlt
      cases hstep
      refine ⟨?_, le_refl _⟩
      unfold Kept at h ⊢
      dsimp only
      split
      · rename_i hpending
        rw [hpending] at h
        exact h.of_eq hlt rfl rfl
      · rename_i hpending
        rw [hpending] at h
        exact h.of_eq hlt rfl rfl
      · rename_i hpending
        rw [hpending] at h
        exact ⟨hlt, h.told, h.not_resent, h.cyclic, h.attempts_le⟩
    · cases hstep

theorem Run.kept (hcallback : ∀ answer, env.callback [] (.ok answer) ≠ some .stdException)
    {k : Nat} (h : Run env k s) :
    Kept env s ∧ k + left env s.pending ≤ env.maxAttempts * (4 * env.endpoints + 1) := by
  induction h with
  | @start current hlt =>
    have hopen : Open env ({ current } : Call Code Json) := {
      current_lt := hlt
      told := rfl
      unanswered := fun t ht => by cases ht
      cyclic := fun a ha => by cases ha
      attempts_le := Nat.zero_le _ }
    have hmax : 0 < env.maxAttempts := by
      unfold Env.maxAttempts
      split <;> decide
    obtain ⟨idx, hnext, htrying⟩ := hopen.asyncRPC hmax
    change (env.submitAttempt { current } 0).pending = _ at hnext
    rw [Kept, hnext, left_client]
    refine ⟨htrying, ?_⟩
    obtain ⟨more, hmore⟩ := Nat.exists_eq_add_of_lt hmax
    have hrest : env.maxAttempts - (0 + 1) = more := by omega
    have := env.primary
    show 0 + ((env.maxAttempts - (0 + 1)) * _ + _ + 4) ≤ _
    rw [hrest, hmore, Nat.zero_add, Nat.zero_add more, Nat.add_one_mul more]
    omega
  | step _ hstep ih =>
    obtain ⟨hkept, hleft⟩ := ih.1.after hcallback hstep
    exact ⟨hkept, by omega⟩

theorem Kept.served {k : Nat} (h : Kept env s)
    (hends : k ≤ env.maxAttempts * (4 * env.endpoints + 1)) : Served env k s := by
  unfold Kept at h
  split at h
  · rename_i hpending
    exact {
      told_le := by rw [h.told]; exact Nat.zero_le 1
      told_of_done := fun hnone => by rw [hpending] at hnone; cases hnone
      ends := hends
      not_resent := fun t ht => h.unanswered t (List.mem_of_mem_tail ht)
      cyclic := h.cyclic
      attempts_le := h.attempts_le }
  · rename_i hpending
    exact {
      told_le := by rw [h.told]; exact Nat.zero_le 1
      told_of_done := fun hnone => by rw [hpending] at hnone; cases hnone
      ends := hends
      not_resent := fun t ht => h.unanswered t (List.mem_of_mem_tail ht)
      cyclic := h.cyclic
      attempts_le := h.attempts_le }
  · exact {
      told_le := h.told.le
      told_of_done := fun _ => h.told
      ends := hends
      not_resent := h.not_resent
      cyclic := h.cyclic
      attempts_le := h.attempts_le }

/-- A handler is due for as long as the caller was told nothing. -/
theorem step_of_pending (hpending : s.pending ≠ none) (ec : Code) :
    ∃ input, input.own = 1 ∧ (step env s input).isSome := by
  cases hp : s.pending with
  | none => exact absurd hp hpending
  | some p =>
    cases p with
    | client attempt idx tried stage =>
      refine ⟨.fails ec, rfl, ?_⟩
      unfold step
      dsimp only
      rw [hp]
      rfl
    | timer attempt =>
      refine ⟨.fires, rfl, ?_⟩
      unfold step
      dsimp only
      rw [hp]
      rfl

end Handlers

/-! ## An answer that is told twice, or sent again -/

section Rethrown
variable {env : Env Code Json}

/-- The first try of a call. -/
def first (pending : Option Pending) (answered : Bool) (told : List (Reply Code Json)) :
    Call Code Json where
  current := 0
  pending := pending
  told := told
  log := [{ current := 0, tries := [{ idx := 0, answered }] }]

theorem run_first (env : Env Code Json) (answer : Json) : Run env 4
    (env.onRead 1 0 0 (first none false []) (some answer)).1 := by
  have hstart : env.submitAttempt { current := 0 } 0 =
      first (some (.client 1 0 0 .onResolve)) false [] := by
    unfold Env.submitAttempt Env.asyncRPC
    dsimp only
    split <;> rfl
  have hrun : Run env 0 (first (some (.client 1 0 0 .onResolve)) false []) :=
    hstart ▸ .start env.primary
  have hresolved : Run env 1 (first (some (.client 1 0 0 .onConnect)) false []) :=
    hrun.step (show step env _ .resolved = some _ from rfl)
  have hconnected : Run env 2 (first (some (.client 1 0 0 .onWrite)) false []) :=
    hresolved.step (show step env _ .connected = some _ from rfl)
  have hwritten : Run env 3 (first (some (.client 1 0 0 .onRead)) false []) :=
    hconnected.step (show step env _ .written = some _ from rfl)
  exact hwritten.step (show step env _ (.reads (some answer)) = some _ from rfl)

/-- The exception comes back as no answer. -/
theorem onRead_first {answer : Json} (hthrows : env.callback [] (.ok answer) = some .stdException) :
    env.onRead 1 0 0 (first none false []) (some answer) =
      env.clientCallback 1 0 0 (first none true [.ok answer]) (.error env.invalidArgument) := by
  obtain ⟨current, hok, hcurrent⟩ :=
    clientCallback_ok env (first none false []).answer 1 0 0 answer
  obtain rfl : current = 0 := hcurrent.elim id id
  unfold Env.onRead
  dsimp only
  rw [hok]
  split
  · rename_i heq
    exact congrArg (fun s => env.clientCallback 1 0 0 s (.error env.invalidArgument))
      (congrArg Prod.fst heq).symm
  · rename_i hnot
    exact (hnot _ (Prod.ext rfl hthrows)).elim

theorem not_served {answer : Json} (hthrows : env.callback [] (.ok answer) = some .stdException) :
    ∃ k s, Run env k s ∧ ¬ Served env k s := by
  have hrun := run_first env answer
  rw [onRead_first hthrows] at hrun
  unfold Env.clientCallback at hrun
  split at hrun
  · rename_i hone
    unfold Env.rpcCallback at hrun
    split at hrun
    · -- the retry sends the request again
      have hagain := hrun.step (show step env _ .fires = some _ from rfl)
      unfold Env.submitAttempt Env.asyncRPC at hagain
      rw [if_pos hone] at hagain
      exact ⟨5, _, hagain, fun h => Bool.noConfusion
        (h.not_resent { idx := 0, answered := true } (List.mem_singleton.mpr rfl))⟩
    · exact ⟨4, _, hrun, fun h => absurd h.told_le (Nat.not_succ_le_self 1)⟩
  · -- the failover sends it to the next endpoint
    dsimp only [Env.endpointCallback] at hrun
    rw [if_neg (by omega)] at hrun
    exact ⟨4, _, hrun, fun h => Bool.noConfusion
      (h.not_resent { idx := 0, answered := true } (List.mem_singleton.mpr rfl))⟩

end Rethrown

/-- **A request is answered once** if and only if the callback lets no
`std::exception` out when it is told the answer of a node. -/
theorem served_iff (env : Env Code Json) : (∀ k s, Run env k s → Served env k s) ↔
    ∀ answer, env.callback [] (.ok answer) ≠ some .stdException := by
  constructor
  · intro h answer hthrows
    obtain ⟨k, s, hrun, hnot⟩ := not_served hthrows
    exact hnot (h k s hrun)
  · intro hcallback k s hrun
    obtain ⟨hkept, hends⟩ := hrun.kept hcallback
    exact hkept.served (by omega)

/-- A block submission to one node, whose callback throws when told. -/
def throwing : Env Unit Unit where
  endpoints := 1
  primary := by decide
  retries := true
  callback := fun _ reply => match reply with
    | .ok _ => some .stdException
    | .error _ => none
  invalidArgument := ()

/-- **A block that was answered is submitted again.** -/
theorem throwing_not_served : ¬ ∀ k s, Run throwing k s → Served throwing k s := by
  intro h
  obtain ⟨k, s, hrun, hnot⟩ := not_served (show throwing.callback [] (.ok ()) = _ from rfl)
  exact hnot (h k s hrun)

end MkPool.NodeRequest
