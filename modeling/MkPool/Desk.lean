import MkPool.Tasks

/-! # One session at its desk

The session, the stratifier it reads, the queue of posted notifications and
the log of its calls. A task runs to its end before the next begins, as on the
strand; new work and the shares of other sessions come in between. -/
namespace MkPool.Desk
open MkPool.Lib.Interaction MkPool.Utils MkPool.Job MkPool.Coinbase MkPool.Stratifier
open MkPool.Calls MkPool.ClientSession MkPool.JsonValue MkPool.Tasks

/-- A call that was answered. -/
abbrev Event := (c : Call) × Answer c

/-- What the session's programs run against. The log has the latest event
first. `nextId` is the id the next job is given, and `readings` are the values
the steady clock shows to the task that runs. -/
structure World where
  strat : StratState
  posted : List MiningJob := []
  log : List Event := []
  nextId : Str := []
  readings : Set ℚ := ∅

/-- The queue after a call. -/
def World.post (w : World) : Call → List MiningJob
  | .callbacks job => w.posted ++ [job]
  | _ => w.posted

/-- Answers that are settled before the call is made. -/
def World.Gives (w : World) : (c : Call) → Answer c → Prop
  | .newJobId _, x => x = w.nextId
  | .steadyNow, x => x ∈ w.readings
  | _, _ => True

/-- A call at the desk: the stratifier's own step, logged. -/
structure DeskCall (c : Call) (w : World) (x : Answer c) (w' : World) : Prop where
  strat : StratStep c w.strat x w'.strat
  gives : w.Gives c x
  posted : w'.posted = w.post c
  log : w'.log = ⟨c, x⟩ :: w.log
  nextId : w'.nextId = w.nextId
  readings : w'.readings = w.readings

/-- A call determines the world after it but for the stratifier's state. -/
theorem DeskCall.world {c : Call} {w w' : World} {x : Answer c} (h : DeskCall c w x w') :
    w' = { w with strat := w'.strat, posted := w.post c, log := ⟨c, x⟩ :: w.log } := by
  obtain ⟨_, _, hp, hl, hn, hr⟩ := h
  cases w'
  simp only at hp hl hn hr
  rw [hp, hl, hn, hr]

/-- The machine of the desk. -/
def desk : Machine Call Answer World where
  guard _ _ := True
  step := DeskCall

/-- A run adds to the log. What every call of the program has, its events have. -/
theorem exec_log {α : Type} {S : Call → Prop} {p : Act α} {w w' : World} {a : α}
    (run : desk.Exec p w a w') (hp : p.All S) :
    ∃ evs, w'.log = evs ++ w.log ∧ ∀ e ∈ evs, S e.1 := by
  induction run with
  | ret a w => exact ⟨[], rfl, by simp⟩
  | @call c k w w₁ w₂ x a hs _ ih =>
    obtain ⟨evs, hlog, hevs⟩ := ih (hp.2 x)
    refine ⟨evs ++ [⟨c, x⟩], by rw [hlog, hs.log, List.append_assoc, List.singleton_append], ?_⟩
    intro e he
    rcases List.mem_append.mp he with he | he
    · exact hevs e he
    · rw [List.mem_singleton.mp he]
      exact hp.1

/-- What was done stays in the log. -/
theorem exec_mem {α : Type} {p : Act α} {w w' : World} {a : α} (run : desk.Exec p w a w')
    {e : Event} (he : e ∈ w.log) : e ∈ w'.log := by
  obtain ⟨evs, hlog, _⟩ := exec_log (S := fun _ => True) run (Prog.all_true p)
  rw [hlog]
  exact List.mem_append_right _ he

theorem thenDo_inv {p : Act Outcome} {f : Session → Act Outcome} {w w' : World} {o : Outcome}
    (run : desk.Exec (thenDo p f) w o w') :
    (∃ s w₁, desk.Exec p w (.done s) w₁ ∧ desk.Exec (f s) w₁ o w') ∨
      ∃ s, o = .threw s ∧ desk.Exec p w (.threw s) w' := by
  obtain ⟨o₁, w₁, hp, run⟩ := run.bind_inv
  cases o₁ with
  | done s => exact .inl ⟨s, w₁, hp, run⟩
  | threw s =>
    obtain ⟨rfl, rfl⟩ := run.ret_inv
    exact .inr ⟨s, rfl, hp⟩

structure DeskState where
  session : Session
  world : World

/-- What can happen next. -/
inductive Input where
  | task (t : Task) (readings : Set ℚ)
  | notify
  | work (gbt : Json) (jobId : Str)
  | others (seenShares : Finset Str) (bestShareRound : ℚ)

/-- A task the session can be given from outside: lines on a V1 connection,
messages on a V2 one, and the answers to the checks it asked for. -/
def Task.Offered (d : DeskState) : Task → Prop
  | .line _ => d.session.isV2 = false
  | .message _ => d.session.isV2 = true
  | .notify _ => False
  | .validated v _ _ => (⟨.validateAddress v, ()⟩ : Event) ∈ d.world.log
  | .resetShareCounters | .disconnect => True

inductive Step (env : Env) : DeskState → Input → DeskState → Prop where
  | task {s : Session} {w w' : World} {t : Task} {readings : Set ℚ} {o : Outcome}
      (offered : Task.Offered ⟨s, w⟩ t)
      (run : desk.Exec (t.prog env s) { w with readings } o w') :
      Step env ⟨s, w⟩ (.task t readings) ⟨o.session, w'⟩
  | notify {s : Session} {w w' : World} {job : MiningJob} {rest : List MiningJob} {o : Outcome}
      (head : w.posted = job :: rest)
      (run : desk.Exec (Task.prog env s (.notify job)) { w with posted := rest } o w') :
      Step env ⟨s, w⟩ .notify ⟨o.session, w'⟩
  | work {s : Session} {w w' : World} {gbt : Json} {jobId : Str}
      (run : desk.Exec (updateWork env.coin env.hashes gbt) { w with nextId := jobId } () w') :
      Step env ⟨s, w⟩ (.work gbt jobId) ⟨s, w'⟩
  | others {s : Session} {w : World} {seenShares : Finset Str} {bestShareRound : ℚ} :
      Step env ⟨s, w⟩ (.others seenShares bestShareRound)
        ⟨s, { w with strat := { w.strat with seenShares, bestShareRound } }⟩

/-- A session that was just constructed, at a pool with no work yet. -/
def Initial (env : Env) (isV2 : Bool) (d : DeskState) : Prop :=
  ∃ extranonce1 sessionId now,
    d = ⟨Session.new env extranonce1 sessionId now isV2,
      { strat := { jobs := { capacity := env.coin.jobWindowSize } } }⟩

/-- The states of a run all of whose steps meet a condition on the state
before and the input. -/
inductive Reach (env : Env) (isV2 : Bool) (ok : DeskState → Input → Prop) : DeskState → Prop where
  | init {d : DeskState} (h : Initial env isV2 d) : Reach env isV2 ok d
  | step {d d' : DeskState} {i : Input} (h : Reach env isV2 ok d) (hok : ok d i)
      (hs : Step env d i d') : Reach env isV2 ok d'

/-- **Invariants of runs.** What holds at the start and is kept by every
allowed step holds in every state reached. -/
theorem Reach.invariant {env : Env} {isV2 : Bool} {ok : DeskState → Input → Prop} {I : DeskState → Prop}
    (hinit : ∀ d, Initial env isV2 d → I d)
    (hstep : ∀ d i d', I d → ok d i → Step env d i d' → I d')
    {d : DeskState} (h : Reach env isV2 ok d) : I d := by
  induction h with
  | init h => exact hinit _ h
  | step _ hok hs ih => exact hstep _ _ _ ih hok hs

/-! ## New work -/

/-- The events `updateWork` leaves, the latest first. -/
def workEvents (width32 clean : Bool) (job : MiningJob) : List Event :=
  [⟨.callbacks job, ()⟩, ⟨.pushJob job, ()⟩]
    ++ (if clean then [⟨.resetBestShare, ()⟩, ⟨.clearShares, ()⟩] else [])
    ++ [⟨.swapPrevhash job.previousblockhash, clean⟩, ⟨.newJobId width32, job.jobId⟩]

/-- The world once a job was published. -/
def World.published (w : World) (width32 : Bool) (job : MiningJob) : World :=
  { w with
    strat :=
      { jobs := w.strat.jobs.push job.jobId job
        lastPrevhash := job.previousblockhash
        seenShares := if job.cleanJobs then ∅ else w.strat.seenShares
        bestShareRound := if job.cleanJobs then 0 else w.strat.bestShareRound }
    posted := w.posted ++ [job]
    log := workEvents width32 job.cleanJobs job ++ w.log }

/-- The job `updateWork` makes of a template in a world, if it makes one. -/
def World.jobOf (w : World) (env : Env) (gbt : Json) : Option MiningJob :=
  ((parseTemplate gbt).bind (draftJob env.coin env.hashes)).map fun draft =>
    publishJob draft w.nextId (draft.previousblockhash ≠ w.strat.lastPrevhash)

/-- **What `updateWork` does.** Nothing, or one job published. -/
theorem work_cases {env : Env} {gbt : Json} {w w' : World}
    (run : desk.Exec (updateWork env.coin env.hashes gbt) w () w') :
    w.jobOf env gbt = none ∧ w' = w ∨
      ∃ job, w.jobOf env gbt = some job ∧
        w' = w.published (env.coin.chain = .zcash) job := by
  unfold World.jobOf
  unfold updateWork at run
  cases hd : (parseTemplate gbt).bind (draftJob env.coin env.hashes) with
  | none =>
    rw [hd] at run
    cases run
    exact .inl ⟨rfl, rfl⟩
  | some draft =>
    rw [hd] at run
    refine .inr ⟨_, rfl, ?_⟩
    simp only [Prog.perform_bind] at run
    obtain _ | ⟨hid, run⟩ := run
    obtain _ | ⟨hswap, run⟩ := run
    obtain rfl := hid.gives
    obtain ⟨hclean, hprev⟩ := hswap.strat
    have h1 := hid.world
    have h2 := hswap.world
    rw [hid.strat.2] at h1 hprev hclean
    rw [hprev] at h2
    subst hclean
    beta_reduce at run
    split at run
    · rename_i hc
      obtain _ | ⟨hclear, run⟩ := run
      obtain _ | ⟨hreset, run⟩ := run
      obtain _ | ⟨hpush, run⟩ := run
      obtain _ | ⟨hcb, run⟩ := run
      cases run
      have h3 := hclear.world
      have h4 := hreset.world
      have h5 := hpush.world
      have h6 := hcb.world
      rw [show _ = _ from hclear.strat] at h3
      rw [show _ = _ from hreset.strat] at h4
      rw [show _ = _ from hpush.strat] at h5
      rw [show _ = _ from hcb.strat] at h6
      subst h1 h2 h3 h4 h5 h6
      simp [World.published, publishJob, World.post, workEvents, hc]
    · rename_i hc
      obtain _ | ⟨hpush, run⟩ := run
      obtain _ | ⟨hcb, run⟩ := run
      cases run
      have h5 := hpush.world
      have h6 := hcb.world
      rw [show _ = _ from hpush.strat] at h5
      rw [show _ = _ from hcb.strat] at h6
      subst h1 h2 h5 h6
      simp [World.published, publishJob, World.post, workEvents, hc]

/-- A call by which work is published. -/
def Publishes : Call → Prop
  | .newJobId _ | .swapPrevhash _ | .clearShares | .resetBestShare => True
  | .pushJob _ | .callbacks _ => True
  | _ => False

theorem publishes_workEvents {width32 clean : Bool} {job : MiningJob} :
    ∀ e ∈ workEvents width32 clean job, Publishes e.1 := by
  unfold workEvents
  cases clean <;> simp [Publishes]

/-- `updateWork` makes no other calls. -/
theorem publishes_of_work {env : Env} {gbt : Json} {w w' : World} {evs : List Event}
    (run : desk.Exec (updateWork env.coin env.hashes gbt) w () w')
    (hlog : w'.log = evs ++ w.log) : ∀ e ∈ evs, Publishes e.1 := by
  rcases work_cases run with ⟨_, rfl⟩ | ⟨job, _, rfl⟩
  · obtain rfl : evs = [] := by simpa using hlog
    simp
  · obtain rfl : workEvents _ job.cleanJobs job = evs := List.append_cancel_right hlog
    exact publishes_workEvents

end MkPool.Desk
