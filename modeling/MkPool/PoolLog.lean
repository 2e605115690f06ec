import MkPool.Pool
import MkPool.ShareWatch

/-! # What the log of a pool tells

A task keeps to its watch, so the log alone says how far each session is with
its share. `Happens` is the step of the pool as the log sees it: the pool's
steps are such steps (`happens_of_step`), and what these keep holds of every
run (`Reach.history`). -/
namespace MkPool.PoolLog
open MkPool.Lib.Interaction MkPool.Utils MkPool.Config MkPool.Job MkPool.Coinbase
open MkPool.Stratifier MkPool.Calls MkPool.ClientSession MkPool.Tasks MkPool.Desk
open MkPool.ShareWatch MkPool.Pool

/-! ## Stages -/

/-- A task under way: what it started from and what it has done. -/
structure Stage where
  start : Start
  phase : Phase

def Stage.next (u : Stage) (e : Event) : Stage := { u with phase := Phase.next e.1 u.phase e.2 }

/-- How far a session is with its task, if it is at one. -/
def stageOf (n : Nat) : List Entry → Option Stage
  | [] => none
  | .began m start :: l => if m = n then some ⟨start, {}⟩ else stageOf n l
  | .did m e :: l => if m = n then (stageOf n l).map (·.next e) else stageOf n l
  | .ended m :: l => if m = n then none else stageOf n l
  | .fed _ :: l => stageOf n l
  | .ticked _ :: l => stageOf n l

/-- The calls of `updateWork` in order: the table is cleared after a new tip
only, and before the next. -/
def feedWatch : Monitor Call Answer Bool where
  allow
    | .swapPrevhash _, due => due = false
    | .clearShares, due => due = true
    | .newJobId _, _ | .resetBestShare, _ | .pushJob _, _ | .callbacks _, _ => True
    | _, _ => False
  next
    | .swapPrevhash _, _, x => x
    | .clearShares, _, _ => false
    | _, due, _ => due

/-- The table is of an older tip, and `updateWork` has yet to clear it. -/
def due : List Entry → Bool
  | [] => false
  | .fed e :: l => feedWatch.next e.1 (due l) e.2
  | _ :: l => due l

/-- The entry is a change of the tip. -/
def tipChange : Entry → Bool
  | .fed ⟨.swapPrevhash _, x⟩ => x
  | _ => false

/-- The entries since the tip changed. -/
def sinceTip (l : List Entry) : List Entry := l.takeWhile fun e => !tipChange e

theorem sinceTip_cons (e : Entry) (l : List Entry) :
    sinceTip (e :: l) = if tipChange e then [] else e :: sinceTip l := by
  unfold sinceTip
  rw [List.takeWhile_cons]
  cases tipChange e <;> rfl

section Stages

variable {n m : Nat} {l : List Entry}

@[simp] theorem stageOf_began {start : Start} :
    stageOf n (.began m start :: l) = if m = n then some ⟨start, {}⟩ else stageOf n l := rfl

@[simp] theorem stageOf_did {e : Event} :
    stageOf n (.did m e :: l) = if m = n then (stageOf n l).map (·.next e) else stageOf n l := rfl

@[simp] theorem stageOf_ended :
    stageOf n (.ended m :: l) = if m = n then none else stageOf n l := rfl

@[simp] theorem stageOf_fed {e : Event} : stageOf n (.fed e :: l) = stageOf n l := rfl

@[simp] theorem stageOf_ticked {now : UInt32} : stageOf n (.ticked now :: l) = stageOf n l := rfl

/-- The stage of a session after a call of one of them. -/
theorem stage_of_did {e : Event} {t : Stage} (h : stageOf m (.did n e :: l) = some t) :
    (n = m ∧ ∃ u, stageOf n l = some u ∧ t = u.next e) ∨ n ≠ m ∧ stageOf m l = some t := by
  rw [stageOf_did] at h
  split at h
  · rename_i hnm
    obtain ⟨u, hu, rfl⟩ := Option.map_eq_some_iff.mp h
    exact .inl ⟨hnm, u, hnm ▸ hu, rfl⟩
  · rename_i hnm
    exact .inr ⟨hnm, h⟩

/-- What holds at the start of a task, and is kept by the calls that pass a check,
holds of every phase while all entries pass it. -/
theorem phase_of_all {check : Entry → Bool} {P : Phase → Prop} (init : P {})
    (step : ∀ m c x q, check (.did m ⟨c, x⟩) = true → P q → P (Phase.next c q x))
    (hl : l.all check = true) {u : Stage} (hu : stageOf n l = some u) : P u.phase := by
  induction l generalizing u with
  | nil => cases hu
  | cons e l ih =>
    rw [List.all_cons, Bool.and_eq_true] at hl
    obtain ⟨he, htail⟩ := hl
    cases e with
    | began m start =>
      rw [stageOf_began] at hu
      split at hu
      · cases hu
        exact init
      · exact ih htail hu
    | ended m =>
      rw [stageOf_ended] at hu
      split at hu
      · cases hu
      · exact ih htail hu
    | fed | ticked => exact ih htail hu
    | did m ev =>
      rcases stage_of_did hu with ⟨rfl, u', hu', rfl⟩ | ⟨_, hu⟩
      · exact step m ev.1 ev.2 u'.phase he (ih htail hu')
      · exact ih htail hu

end Stages

/-! ## What happens -/

/-- A step of the pool, as the log sees it. -/
inductive Happens (env : Env) (h : History) : Entry → History → Prop where
  | began {n : Nat} {start : Start} (idle : stageOf n h.log = none) :
      Happens env h (.began n start) (h.add h.strat (.began n start))
  | did {n : Nat} {u : Stage} {c : Call} {x : Answer c} {strat : StratState}
      (stage : stageOf n h.log = some u)
      (allowed : u.phase.Allows (u.start.env env) u.start.session u.start.task c)
      (answer : StratStep c h.strat x strat) (gives : h.Gives c x) :
      Happens env h (.did n ⟨c, x⟩) (h.add strat (.did n ⟨c, x⟩))
  | ended {n : Nat} {u : Stage} (stage : stageOf n h.log = some u)
      (settled : Settled (u.start.env env) u.start.session u.phase) :
      Happens env h (.ended n) (h.add h.strat (.ended n))
  | fed {c : Call} {x : Answer c} {strat : StratState} (allowed : feedWatch.allow c (due h.log))
      (answer : StratStep c h.strat x strat) :
      Happens env h (.fed ⟨c, x⟩) (h.add strat (.fed ⟨c, x⟩))
  | ticked {now : UInt32} :
      Happens env h (.ticked now) { h.add h.strat (.ticked now) with now }

/-! ## Every step of the pool -/

/-- The task under way has made the calls the log shows, and keeps to its watch
from there on. -/
def OnCourse (env : Env) (l : List Entry) (n : Nat) (r : Running) : Prop :=
  ∃ q, stageOf n l = some ⟨r.start, q⟩ ∧
    Watched (r.start.env env) r.start.session r.start.task r.rest
      (fun _ => Settled (r.start.env env) r.start.session) q

/-- The log shows what the sessions and the feed are at. -/
structure Tracked (env : Env) (p : PoolState) : Prop where
  vacant : ∀ n, p.connections n = none → stageOf n p.log = none
  idle : ∀ n c, p.connections n = some c → c.running = none → stageOf n p.log = none
  running : ∀ n c r, p.connections n = some c → c.running = some r → OnCourse env p.log n r
  feedIdle : p.feed = none → due p.log = false
  feed : ∀ prog, p.feed = some prog →
    feedWatch.Obeys prog (fun _ due => due = false) (due p.log)

section Steps

variable {env : Env} {p p' : PoolState}

theorem running_post (c : Connection) (cl : Call) : (c.post cl).running = c.running := by
  unfold Connection.post
  split <;> rfl

theorem obeys_updateWork {gbt : JsonValue.Json} :
    feedWatch.Obeys (updateWork env.coin env.hashes gbt) (fun _ due => due = false) false := by
  unfold updateWork
  split
  · rfl
  · refine (Monitor.obeys_call _ _ _ _ _).mpr ⟨trivial, fun jobId => ?_⟩
    refine (Monitor.obeys_call _ _ _ _ _).mpr ⟨rfl, fun clean => ?_⟩
    cases clean with
    | false =>
      refine (Monitor.obeys_call _ _ _ _ _).mpr ⟨trivial, fun _ => ?_⟩
      exact (Monitor.obeys_call _ _ _ _ _).mpr ⟨trivial, fun _ => rfl⟩
    | true =>
      refine (Monitor.obeys_call _ _ _ _ _).mpr ⟨rfl, fun _ => ?_⟩
      refine (Monitor.obeys_call _ _ _ _ _).mpr ⟨trivial, fun _ => ?_⟩
      refine (Monitor.obeys_call _ _ _ _ _).mpr ⟨trivial, fun _ => ?_⟩
      exact (Monitor.obeys_call _ _ _ _ _).mpr ⟨trivial, fun _ => rfl⟩

/-- What one session does leaves the others where they are. -/
theorem Tracked.update {n : Nat} {c' : Connection} (h : Tracked env p)
    (hconn : p'.connections = Function.update p.connections n (some c'))
    (hfeed : p'.feed = p.feed) (hdue : due p'.log = due p.log)
    (hothers : ∀ m, m ≠ n → stageOf m p'.log = stageOf m p.log)
    (hidle : c'.running = none → stageOf n p'.log = none)
    (hrunning : ∀ r, c'.running = some r → OnCourse env p'.log n r) : Tracked env p' where
  vacant := by
    intro m hm
    by_cases hmn : m = n
    · rw [hconn, hmn, Function.update_self] at hm
      cases hm
    · rw [hconn, Function.update_of_ne hmn] at hm
      exact (hothers m hmn).trans (h.vacant m hm)
  idle := by
    intro m c hm hc
    by_cases hmn : m = n
    · rw [hconn, hmn, Function.update_self] at hm
      cases hm
      rw [hmn]
      exact hidle hc
    · rw [hconn, Function.update_of_ne hmn] at hm
      exact (hothers m hmn).trans (h.idle m c hm hc)
  running := by
    intro m c r hm hc
    by_cases hmn : m = n
    · rw [hconn, hmn, Function.update_self] at hm
      cases hm
      rw [hmn]
      exact hrunning r hc
    · rw [hconn, Function.update_of_ne hmn] at hm
      obtain ⟨q, hq, hw⟩ := h.running m c r hm hc
      exact ⟨q, (hothers m hmn).trans hq, hw⟩
  feedIdle := by
    rw [hfeed, hdue]
    exact h.feedIdle
  feed := by
    rw [hfeed, hdue]
    exact h.feed

/-- A task that is given to an idle session. -/
theorem Tracked.begun {n : Nat} {c : Connection} {t : Task} (h : Tracked env p)
    (hconn : p'.connections = Function.update p.connections n (some (c.start env t)))
    (hfeed : p'.feed = p.feed)
    (hlog : p'.log = .began n ⟨c.tier, c.session, t⟩ :: p.log) : Tracked env p' := by
  refine h.update hconn hfeed (by rw [hlog]; rfl) ?_ (fun hc => by cases hc) ?_
  · intro m hm
    rw [hlog]
    simp [Ne.symm hm]
  · intro r hr
    cases hr
    rw [hlog]
    exact ⟨{}, by simp, task_watched _ _ _⟩

/-- **The pool's steps are steps of the log**, and the log keeps track. -/
theorem Tracked.step {e : Option Entry} (h : Tracked env p) (hs : Step env p e p') :
    Tracked env p' ∧ match e with
      | some e => Happens env p.toHistory e p'.toHistory
      | none => p'.toHistory = p.toHistory := by
  cases hs with
  | @connect n tier extranonce1 sessionId now isV2 free =>
    refine ⟨h.update rfl rfl rfl (fun _ _ => rfl) (fun _ => h.vacant n free) ?_, rfl⟩
    intro r hr
    cases hr
  | @begin n c t conn idle offered =>
    exact ⟨h.begun rfl rfl rfl, .began (h.idle n c conn idle)⟩
  | @notify n c job rest conn idle head =>
    exact ⟨h.begun (c := { c with posted := rest }) rfl rfl rfl, .began (h.idle n c conn idle)⟩
  | @call n c start cl k x strat conn running answer gives =>
    obtain ⟨q, hq, hw⟩ := h.running n c _ conn running
    obtain ⟨hallow, hk⟩ := (Monitor.obeys_call _ _ _ _ _).mp hw
    refine ⟨h.update rfl rfl rfl ?_ (fun hc => by cases hc) ?_, .did hq hallow answer gives⟩
    · intro m hm
      show stageOf m (.did n ⟨cl, x⟩ :: p.log) = _
      simp [Ne.symm hm]
    · intro r hr
      cases hr
      refine ⟨_, ?_, hk x⟩
      show stageOf n (.did n ⟨cl, x⟩ :: p.log) = _
      simp only [stageOf_did, if_true, hq]
      rfl
  | @finish n c start o conn running =>
    obtain ⟨q, hq, hw⟩ := h.running n c _ conn running
    refine ⟨h.update rfl rfl rfl ?_ (fun _ => ?_) (fun r hr => by cases hr), .ended hq hw⟩
    · intro m hm
      show stageOf m (.ended n :: p.log) = _
      simp [Ne.symm hm]
    · show stageOf n (.ended n :: p.log) = none
      simp
  | @feed gbt idle =>
    refine ⟨⟨h.vacant, h.idle, h.running, fun hf => (by cases hf), ?_⟩, rfl⟩
    intro prog hf
    cases hf
    show feedWatch.Obeys _ _ (due p.log)
    rw [h.feedIdle idle]
    exact obeys_updateWork
  | @feedCall cl k x strat feed answer =>
    obtain ⟨hallow, hk⟩ := (Monitor.obeys_call _ _ _ _ _).mp (h.feed _ feed)
    refine ⟨⟨?_, ?_, ?_, fun hf => (by cases hf), ?_⟩, .fed hallow answer⟩
    · intro n hn
      exact h.vacant n (Option.map_eq_none_iff.mp hn)
    · intro n c hn hc
      obtain ⟨c₀, hc₀, rfl⟩ := Option.map_eq_some_iff.mp hn
      exact h.idle n c₀ hc₀ (by rwa [running_post] at hc)
    · intro n c r hn hc
      obtain ⟨c₀, hc₀, rfl⟩ := Option.map_eq_some_iff.mp hn
      exact h.running n c₀ r hc₀ (by rwa [running_post] at hc)
    · intro prog hf
      cases hf
      exact hk x
  | feedDone feed =>
    refine ⟨⟨h.vacant, h.idle, h.running, fun _ => h.feed _ feed, ?_⟩, rfl⟩
    intro prog hf
    cases hf
  | @tick now =>
    exact ⟨⟨h.vacant, h.idle, h.running, h.feedIdle, h.feed⟩, .ticked⟩

end Steps

/-! ## Runs -/

section Runs

variable {env : Env} {ok : History → Entry → Prop} {p p' : PoolState}

theorem tracked_reach (h : Reach env ok p) : Tracked env p := by
  induction h with
  | fresh => exact ⟨fun _ _ => rfl, fun _ _ hn => (by cases hn), fun _ _ _ hn => (by cases hn),
      fun _ => rfl, fun _ hf => (by cases hf)⟩
  | quiet _ hs ih => exact (ih.step hs).1
  | step _ _ hs ih => exact (ih.step hs).1

/-- Every logged step is one the log allows. -/
theorem happens_of_step {e : Entry} (h : Reach env ok p) (hs : Step env p (some e) p') :
    Happens env p.toHistory e p'.toHistory :=
  ((tracked_reach h).step hs).2

/-- **Invariants of runs.** What holds of the empty log and is kept by whatever
happens holds of every run. -/
theorem Reach.history {I : History → Prop} (h : Reach env ok p) (init : I (fresh env).toHistory)
    (step : ∀ h e h', I h → ok h e → Happens env h e h' → I h') : I p.toHistory := by
  induction h with
  | fresh => exact init
  | quiet h hs ih =>
    have same := ((tracked_reach h).step hs).2
    rw [same]
    exact ih
  | step h hok hs ih => exact step _ _ _ ih hok (happens_of_step h hs)

end Runs

end MkPool.PoolLog
