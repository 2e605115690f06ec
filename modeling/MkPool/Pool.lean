import MkPool.Desk

/-! # Many sessions and one feed of work

Every session runs its tasks one after the other on its strand, and
`updateWork` runs on the strand of the generator. Between any two calls of one
program the others may make theirs. A call is one locked access, or what leaves
the session, so a run is an order of such calls, kept in the log. -/
namespace MkPool.Pool
open MkPool.Lib.Interaction MkPool.Utils MkPool.Config MkPool.Job MkPool.Coinbase
open MkPool.Stratifier MkPool.Calls MkPool.ClientSession MkPool.JsonValue MkPool.Tasks MkPool.Desk

/-- What a task starts from: the listener's tier, the session and the task. -/
structure Start where
  tier : StratumTier
  session : Session
  task : Task

/-- The settings of the sessions on a tier. -/
def atTier (env : Env) (tier : StratumTier) : Env :=
  { env with coin := { env.coin with activeTier := tier } }

def Start.env (env : Env) (start : Start) : Env := atTier env start.tier

/-- One line of the log. Sessions are numbered. -/
inductive Entry where
  | began (n : Nat) (start : Start)
  | did (n : Nat) (e : Event)
  | ended (n : Nat)
  | fed (e : Event)
  | ticked (now : UInt32)

/-- What the sessions share, with the log of what was done, the latest entry
first. -/
structure History where
  strat : StratState
  now : UInt32 := 0
  log : List Entry := []

/-- A task under way, with the calls it has yet to make. -/
structure Running where
  start : Start
  rest : Act Outcome

structure Connection where
  tier : StratumTier
  session : Session
  posted : List MiningJob := []
  running : Option Running := none

structure PoolState extends History where
  connections : Nat → Option Connection := fun _ => none
  feed : Option (Act Unit) := none

/-- The wall clock reads as it stands. -/
def History.Gives (h : History) : (c : Call) → Answer c → Prop
  | .nowUnix, x => x = h.now
  | _, _ => True

/-- One more entry, with the state of the stratifier after it. -/
def History.add (h : History) (strat : StratState) (e : Entry) : History :=
  { h with strat, log := e :: h.log }

def Connection.start (env : Env) (c : Connection) (t : Task) : Connection :=
  { c with running := some ⟨⟨c.tier, c.session, t⟩, t.prog (atTier env c.tier) c.session⟩ }

/-- A new job goes to every session. -/
def Connection.post (c : Connection) : Call → Connection
  | .callbacks job => { c with posted := c.posted ++ [job] }
  | _ => c

def PoolState.put (p : PoolState) (n : Nat) (c : Connection) : PoolState :=
  { p with connections := Function.update p.connections n (some c) }

def PoolState.add (p : PoolState) (strat : StratState) (e : Entry) : PoolState :=
  { p with toHistory := p.toHistory.add strat e }

/-- The feed has made a call and goes on. -/
def PoolState.feedOn (p : PoolState) (cl : Call) (rest : Act Unit) : PoolState :=
  { p with
    connections := fun n => (p.connections n).map fun c => c.post cl
    feed := some rest }

/-- A task a session can be given from outside. -/
def Offered (p : PoolState) (n : Nat) (c : Connection) : Task → Prop
  | .line _ => c.session.isV2 = false
  | .message _ => c.session.isV2 = true
  | .notify _ => False
  | .validated v _ _ => .did n ⟨.validateAddress v, ()⟩ ∈ p.log
  | .resetShareCounters | .disconnect => True

/-- A step of one of the strands, with the entry it adds. -/
inductive Step (env : Env) : PoolState → Option Entry → PoolState → Prop where
  | connect {p : PoolState} {n : Nat} {tier : StratumTier} {extranonce1 sessionId : Str} {now : ℚ}
      {isV2 : Bool} (free : p.connections n = none) :
      Step env p none
        (p.put n { tier, session := .new (atTier env tier) extranonce1 sessionId now isV2 })
  | begin {p : PoolState} {n : Nat} {c : Connection} {t : Task}
      (conn : p.connections n = some c) (idle : c.running = none) (offered : Offered p n c t) :
      Step env p (some (.began n ⟨c.tier, c.session, t⟩))
        ((p.put n (c.start env t)).add p.strat (.began n ⟨c.tier, c.session, t⟩))
  | notify {p : PoolState} {n : Nat} {c : Connection} {job : MiningJob} {rest : List MiningJob}
      (conn : p.connections n = some c) (idle : c.running = none) (head : c.posted = job :: rest) :
      Step env p (some (.began n ⟨c.tier, c.session, .notify job⟩))
        ((p.put n ({ c with posted := rest }.start env (.notify job))).add p.strat
          (.began n ⟨c.tier, c.session, .notify job⟩))
  | call {p : PoolState} {n : Nat} {c : Connection} {start : Start} {cl : Call}
      {k : Answer cl → Act Outcome} {x : Answer cl} {strat : StratState}
      (conn : p.connections n = some c) (running : c.running = some ⟨start, .call cl k⟩)
      (answer : StratStep cl p.strat x strat) (gives : p.Gives cl x) :
      Step env p (some (.did n ⟨cl, x⟩))
        ((p.put n { c with running := some ⟨start, k x⟩ }).add strat (.did n ⟨cl, x⟩))
  | finish {p : PoolState} {n : Nat} {c : Connection} {start : Start} {o : Outcome}
      (conn : p.connections n = some c) (running : c.running = some ⟨start, .ret o⟩) :
      Step env p (some (.ended n))
        ((p.put n { c with session := o.session, running := none }).add p.strat (.ended n))
  | feed {p : PoolState} {gbt : Json} (idle : p.feed = none) :
      Step env p none { p with feed := some (updateWork env.coin env.hashes gbt) }
  | feedCall {p : PoolState} {cl : Call} {k : Answer cl → Act Unit} {x : Answer cl}
      {strat : StratState} (feed : p.feed = some (.call cl k))
      (answer : StratStep cl p.strat x strat) :
      Step env p (some (.fed ⟨cl, x⟩))
        ((p.feedOn cl (k x)).add strat (.fed ⟨cl, x⟩))
  | feedDone {p : PoolState} (feed : p.feed = some (.ret ())) :
      Step env p none { p with feed := none }
  | tick {p : PoolState} {now : UInt32} :
      Step env p (some (.ticked now)) { p.add p.strat (.ticked now) with now }

/-- A pool with no work and no sessions. -/
def fresh (env : Env) : PoolState where
  strat := { jobs := { capacity := env.coin.jobWindowSize } }

/-- The states of a run all of whose entries meet a condition on the history
before. -/
inductive Reach (env : Env) (ok : History → Entry → Prop) : PoolState → Prop where
  | fresh : Reach env ok (fresh env)
  | quiet {p p' : PoolState} (h : Reach env ok p) (hs : Step env p none p') : Reach env ok p'
  | step {p p' : PoolState} {e : Entry} (h : Reach env ok p) (hok : ok p.toHistory e)
      (hs : Step env p (some e) p') : Reach env ok p'

end MkPool.Pool
