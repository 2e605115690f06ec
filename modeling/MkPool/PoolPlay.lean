import MkPool.Pool
import MkPool.Play

/-! # Runs of a pool that can be computed

Each task is played to its end before the next move, and `updateWork` too, with
every entry of the log checked as it is made. What is played is a run of the
pool (`reach_of_play`). -/
namespace MkPool.PoolPlay
open MkPool.Lib MkPool.Lib.Interaction MkPool.Utils MkPool.Job MkPool.Coinbase
open MkPool.Stratifier MkPool.Sv2Messages MkPool.Calls MkPool.ClientSession MkPool.JsonValue
open MkPool.Tasks MkPool.Desk MkPool.Pool

/-- What happens next. The check that is answered is the last one a session
asked for. -/
inductive Move where
  | connect (n : Nat) (extranonce1 : Str) (isV2 : Bool)
  | line (n : Nat) (msg : Json)
  | message (n : Nat) (msg : Request)
  | validated (n : Nat) (error : Option Str) (valid : Bool)
  | notify (n : Nat)
  | work (gbt : Json) (jobId : Str)
  | tick (now : UInt32)

/-- The answer of a call in a pool, and the stratifier after it. -/
def reply (r : Play.Replies) (nextId : Str) (h : History) (c : Call) :
    Option (Answer c × StratState) :=
  Play.reply { r with nowUnix := h.now } (some r.now)
    { strat := h.strat, nextId, readings := {r.now} } c

/-- The pool after a call of a session. -/
def answer (r : Play.Replies) (check : History → Entry → Bool) (n : Nat) (c : Call)
    (p : PoolState) : Option (Answer c × PoolState) :=
  (reply r [] p.toHistory c).bind fun y =>
    if check p.toHistory (.did n ⟨c, y.1⟩) then some (y.1, p.add y.2 (.did n ⟨c, y.1⟩)) else none

/-- A new job goes to every session. -/
def posted (p : PoolState) (c : Call) : PoolState :=
  { p with connections := fun n => (p.connections n).map fun conn => Connection.post conn c }

/-- The pool after a call of `updateWork`. -/
def feedAnswer (r : Play.Replies) (check : History → Entry → Bool) (nextId : Str) (c : Call)
    (p : PoolState) : Option (Answer c × PoolState) :=
  (reply r nextId p.toHistory c).bind fun y =>
    if check p.toHistory (.fed ⟨c, y.1⟩) then
      some (y.1, (posted p c).add y.2 (.fed ⟨c, y.1⟩))
    else none

/-- The pool after a session ran a task. -/
def runTask (env : Env) (r : Play.Replies) (check : History → Entry → Bool) (p : PoolState)
    (n : Nat) (c : Connection) (t : Task) : Option PoolState :=
  if check p.toHistory (.began n ⟨c.tier, c.session, t⟩) then
    ((t.prog (atTier env c.tier) c.session).eval (answer r check n)
      (p.add p.strat (.began n ⟨c.tier, c.session, t⟩))).bind fun y =>
        if check y.2.toHistory (.ended n) then
          some ((y.2.put n { c with session := y.1.session, running := none }).add y.2.strat
            (.ended n))
        else none
  else none

/-- The check an entry asks for, of a session. -/
def askedIn (n : Nat) : Entry → Option Validation
  | .did m e => if m = n then Play.askedIn e else none
  | _ => none

/-- The pool after a move, where it can be made. -/
def perform (env : Env) (r : Play.Replies) (check : History → Entry → Bool) (p : PoolState) :
    Move → Option PoolState
  | .connect n extranonce1 isV2 =>
    match p.connections n with
    | some _ => none
    | none => some (p.put n
        { tier := env.coin.activeTier
          session := .new (atTier env env.coin.activeTier) extranonce1 [] 0 isV2 })
  | .line n msg =>
    match p.connections n with
    | some c =>
      if c.running.isNone && !c.session.isV2 then runTask env r check p n c (.line (some msg))
      else none
    | none => none
  | .message n msg =>
    match p.connections n with
    | some c =>
      if c.running.isNone && c.session.isV2 then runTask env r check p n c (.message msg)
      else none
    | none => none
  | .validated n error valid =>
    match p.connections n, p.log.findSome? (askedIn n) with
    | some c, some v =>
      if c.running.isNone then runTask env r check p n c (.validated v error valid) else none
    | _, _ => none
  | .notify n =>
    match p.connections n with
    | some c =>
      match c.posted with
      | [] => none
      | job :: rest =>
        if c.running.isNone then runTask env r check p n { c with posted := rest } (.notify job)
        else none
    | none => none
  | .work gbt jobId =>
    match p.feed with
    | some _ => none
    | none =>
      ((updateWork env.coin env.hashes gbt).eval (feedAnswer r check jobId) p).map fun y => y.2
  | .tick now =>
    if check p.toHistory (.ticked now) then some { p.add p.strat (.ticked now) with now } else none

/-- The pool after a list of moves. -/
def play (env : Env) (check : History → Entry → Bool) : PoolState → List (Play.Replies × Move) →
    Option PoolState
  | p, [] => some p
  | p, (r, m) :: moves => (perform env r check p m).bind fun p' => play env check p' moves

section Played

variable {env : Env} {ok : History → Entry → Prop} {check : History → Entry → Bool}

theorem reply_allowed {r : Play.Replies} {nextId : Str} {h : History} {c : Call} {x : Answer c}
    {st : StratState} (hr : reply r nextId h c = some (x, st)) :
    StratStep c h.strat x st ∧ h.Gives c x := by
  have hclock : ∀ now, some r.now = some now → now ∈ ({r.now} : Set ℚ) :=
    fun now hnow => (Option.some.inj hnow).symm
  refine ⟨(Play.reply_allowed (w := { strat := h.strat, nextId, readings := {r.now} })
    hclock hr).1, ?_⟩
  cases c with
  | nowUnix =>
    have hx := (Prod.mk.inj (Option.some.inj hr)).1
    exact hx.symm
  | _ => trivial

theorem put_put (p : PoolState) (n : Nat) (c c' : Connection) :
    (p.put n c).put n c' = p.put n c' := by
  unfold PoolState.put
  rw [Function.update_idem]

/-- The calls of a task that is played are steps of the pool. -/
theorem reach_of_calls (hcheck : ∀ h e, check h e = true → ok h e) {r : Play.Replies} {n : Nat}
    {c : Connection} {start : Start} {prog : Act Outcome} {p p' : PoolState} {o : Outcome}
    (hp : Reach env ok (p.put n { c with running := some ⟨start, prog⟩ }))
    (h : prog.eval (answer r check n) p = some (o, p')) :
    Reach env ok (p'.put n { c with running := some ⟨start, .ret o⟩ }) := by
  induction prog generalizing p with
  | ret a =>
    obtain ⟨rfl, rfl⟩ := Prod.mk.inj (Option.some.inj h)
    exact hp
  | call cl k ih =>
    obtain ⟨⟨x, p₁⟩, hx, hk⟩ := Option.bind_eq_some_iff.mp h
    obtain ⟨⟨y, st⟩, hy, hx⟩ := Option.bind_eq_some_iff.mp hx
    split at hx
    · rename_i hok
      obtain ⟨rfl, rfl⟩ := Prod.mk.inj (Option.some.inj hx)
      obtain ⟨hst, hgives⟩ := reply_allowed hy
      refine ih y ?_ hk
      have hs := Reach.step hp (hcheck _ _ hok)
        (.call (Function.update_self _ _ _) rfl hst hgives)
      rw [put_put] at hs
      exact hs
    · cases hx

/-- A task that is played is begun, carried out and finished. -/
theorem reach_of_runTask (hcheck : ∀ h e, check h e = true → ok h e) {r : Play.Replies} {n : Nat}
    {c : Connection} {t : Task} {p p' : PoolState}
    (begun : ok p.toHistory (.began n ⟨c.tier, c.session, t⟩) →
      Reach env ok ((p.put n (c.start env t)).add p.strat (.began n ⟨c.tier, c.session, t⟩)))
    (h : runTask env r check p n c t = some p') : Reach env ok p' := by
  unfold runTask at h
  split at h
  · rename_i hbegan
    obtain ⟨⟨o, p₁⟩, hrun, h⟩ := Option.bind_eq_some_iff.mp h
    split at h
    · rename_i hended
      obtain rfl := Option.some.inj h
      have hp := reach_of_calls hcheck (c := c)
        (p := p.add p.strat (.began n ⟨c.tier, c.session, t⟩)) (begun (hcheck _ _ hbegan)) hrun
      have hs := Reach.step hp (hcheck _ _ hended) (.finish (Function.update_self _ _ _) rfl)
      rw [put_put] at hs
      exact hs
    · cases h
  · cases h

/-- The calls of `updateWork` that are played are steps of the pool. -/
theorem reach_of_feed (hcheck : ∀ h e, check h e = true → ok h e) {r : Play.Replies}
    {nextId : Str} {prog : Act Unit} {p p' : PoolState}
    (hp : Reach env ok { p with feed := some prog })
    (h : prog.eval (feedAnswer r check nextId) p = some ((), p')) :
    Reach env ok { p' with feed := some (.ret ()) } := by
  induction prog generalizing p with
  | ret a =>
    obtain ⟨rfl, rfl⟩ := Prod.mk.inj (Option.some.inj h)
    exact hp
  | call cl k ih =>
    obtain ⟨⟨x, p₁⟩, hx, hk⟩ := Option.bind_eq_some_iff.mp h
    obtain ⟨⟨y, st⟩, hy, hx⟩ := Option.bind_eq_some_iff.mp hx
    split at hx
    · rename_i hok
      obtain ⟨rfl, rfl⟩ := Prod.mk.inj (Option.some.inj hx)
      refine ih y ?_ hk
      exact Reach.step hp (hcheck _ _ hok) (.feedCall rfl (reply_allowed hy).1)
    · cases hx

theorem feed_of_calls {r : Play.Replies} {nextId : Str} {prog : Act Unit} {p p' : PoolState}
    (h : prog.eval (feedAnswer r check nextId) p = some ((), p')) : p'.feed = p.feed := by
  induction prog generalizing p with
  | ret a =>
    obtain ⟨rfl, rfl⟩ := Prod.mk.inj (Option.some.inj h)
    rfl
  | call cl k ih =>
    obtain ⟨⟨x, p₁⟩, hx, hk⟩ := Option.bind_eq_some_iff.mp h
    obtain ⟨⟨y, st⟩, hy, hx⟩ := Option.bind_eq_some_iff.mp hx
    split at hx
    · obtain ⟨rfl, rfl⟩ := Prod.mk.inj (Option.some.inj hx)
      exact (ih y hk).trans rfl
    · cases hx

theorem mem_of_askedIn {n : Nat} {log : List Entry} {v : Validation}
    (h : log.findSome? (askedIn n) = some v) : .did n ⟨.validateAddress v, ()⟩ ∈ log := by
  obtain ⟨e, he, hv⟩ := List.exists_of_findSome?_eq_some h
  cases e with
  | did m e =>
    simp only [askedIn] at hv
    split at hv
    · rename_i hm
      subst hm
      unfold Play.askedIn at hv
      split at hv
      · cases hv
        exact he
      · cases hv
    · cases hv
  | began | ended | fed | ticked => cases hv

theorem reach_of_perform (hcheck : ∀ h e, check h e = true → ok h e) {r : Play.Replies}
    {m : Move} {p p' : PoolState} (hp : Reach env ok p) (h : perform env r check p m = some p') :
    Reach env ok p' := by
  have begin {n : Nat} {c : Connection} {t : Task} (conn : p.connections n = some c)
      (idle : c.running = none) (offered : Offered p n c t)
      (h : runTask env r check p n c t = some p') : Reach env ok p' :=
    reach_of_runTask hcheck (fun hok => .step hp hok (.begin conn idle offered)) h
  cases m with
  | connect n extranonce1 isV2 =>
    simp only [perform] at h
    split at h
    · cases h
    · rename_i free
      obtain rfl := Option.some.inj h
      exact .quiet hp (.connect free)
  | line n msg =>
    simp only [perform] at h
    split at h
    · rename_i c conn
      split at h
      · rename_i hc
        simp only [Bool.and_eq_true, Option.isNone_iff_eq_none, Bool.not_eq_true'] at hc
        exact begin (t := .line (some msg)) conn hc.1 hc.2 h
      · cases h
    · cases h
  | message n msg =>
    simp only [perform] at h
    split at h
    · rename_i c conn
      split at h
      · rename_i hc
        simp only [Bool.and_eq_true, Option.isNone_iff_eq_none] at hc
        exact begin (t := .message msg) conn hc.1 hc.2 h
      · cases h
    · cases h
  | validated n error valid =>
    simp only [perform] at h
    split at h
    · rename_i c v conn hv
      split at h
      · rename_i hc
        exact begin (t := .validated v error valid) conn (Option.isNone_iff_eq_none.mp hc)
          (mem_of_askedIn hv) h
      · cases h
    · cases h
  | notify n =>
    simp only [perform] at h
    split at h
    · rename_i c conn
      split at h
      · cases h
      · rename_i job rest head
        split at h
        · rename_i hc
          have hs := @Pool.Step.notify env _ _ _ _ _ conn (Option.isNone_iff_eq_none.mp hc) head
          exact reach_of_runTask hcheck (fun hok => Reach.step hp hok hs) h
        · cases h
    · cases h
  | work gbt jobId =>
    simp only [perform] at h
    split at h
    · cases h
    · rename_i idle
      obtain ⟨⟨_, p₁⟩, hrun, rfl⟩ := Option.map_eq_some_iff.mp h
      have hq := reach_of_feed hcheck (.quiet hp (.feed idle)) hrun
      have hfeed : p₁ = { p₁ with feed := none } := by
        rw [← (feed_of_calls hrun).trans idle]
      rw [hfeed]
      exact .quiet hq (.feedDone rfl)
  | tick now =>
    simp only [perform] at h
    split at h
    · rename_i hok
      obtain rfl := Option.some.inj h
      exact .step hp (hcheck _ _ hok) .tick
    · cases h

/-- **What is played is a run.** -/
theorem reach_of_play (hcheck : ∀ h e, check h e = true → ok h e)
    {moves : List (Play.Replies × Move)} {p p' : PoolState} (hp : Reach env ok p)
    (h : play env check p moves = some p') : Reach env ok p' := by
  induction moves generalizing p with
  | nil =>
    cases h
    exact hp
  | cons rm moves ih =>
    obtain ⟨p₁, h₁, h⟩ := Option.bind_eq_some_iff.mp h
    exact ih (reach_of_perform hcheck hp h₁) h

end Played

end MkPool.PoolPlay
