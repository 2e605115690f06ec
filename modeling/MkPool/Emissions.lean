import MkPool.Effects
import MkPool.PayoutIdentity
import MkPool.EmittedWork

/-! # Which work a task sends

Work reaches a miner by the posted broadcast, and by handlers that read the
latest job. A task that is no broadcast sends the latest job of the window and
no other. -/
namespace MkPool.Emissions
open MkPool.Lib.Interaction MkPool.Utils MkPool.Config MkPool.Job MkPool.Coinbase
open MkPool.Stratifier MkPool.Sv2Messages MkPool.Calls MkPool.ClientSession MkPool.JsonValue
open MkPool.Tasks MkPool.Stratum MkPool.Submit MkPool.StratumV2 MkPool.Desk MkPool.Published
open MkPool.SessionV2 MkPool.Effects MkPool.EmittedWork MkPool.PayoutIdentity

/-- The call sends work to the miner. -/
def sendsWork : Call → Bool
  | .send (.notify _) | .send (.notifyZcash _) => true
  | .sendV2 (.newMiningJob _) | .sendV2 (.newExtendedMiningJob _) => true
  | _ => false

/-- The call sends the job, as it is made for some session. -/
def Emission (env : Env) (job : MiningJob) : Call → Prop
  | .send (.notify n) => ∃ s front forceClean, n = notifyOf env s job front forceClean ∧
      (front = job.notifyPrefix ∨ ∃ aux, front = customPrefix job aux)
  | .send (.notifyZcash n) => ∃ s m forceClean, n = { m with clean := m.clean || forceClean } ∧
      (zcashJobOf env s job = some none ∧ m = job.notifyZcash ∨
        ∃ zj, zcashJobOf env s job = some (some zj) ∧ m = zcashNotifyOf job zj.merkleRootLe)
  | .sendV2 (.newMiningJob m) => ∃ s, newMiningJob env s job = some m
  | .sendV2 (.newExtendedMiningJob m) => ∃ s, newExtendedMiningJob env s job = some m
  | _ => False

theorem Emission.sendsWork {env : Env} {job : MiningJob} {c : Call} (h : Emission env job c) :
    sendsWork c = true := by
  unfold Emission at h
  split at h <;> first | rfl | exact h.elim

/-- A call that sends no work and publishes none. -/
structure Off (c : Call) : Prop where
  silent : sendsWork c = false
  work : OffWork c

theorem off_send {l : Line} (h : Emissions.sendsWork (.send l) = false) : Off (.send l) :=
  ⟨h, trivial⟩

/-- What a task without a reason to send work leaves of a session. -/
structure Like (s t : Session) : Prop where
  subscribed : t.subscribed = s.subscribed
  authorized : t.authorized = s.authorized
  channelId : t.sv2ChannelId = s.sv2ChannelId
  isV2 : t.isV2 = s.isV2
  script : t.workerScriptHex = s.workerScriptHex
  closed : s.closed = true → t.closed = true

/-- Nor are the Zcash jobs touched that were sent. -/
structure Tidy (s t : Session) : Prop extends Like s t where
  zcashJobs : t.zcashJobs = s.zcashJobs

theorem Like.refl (s : Session) : Like s s := ⟨rfl, rfl, rfl, rfl, rfl, id⟩

theorem Tidy.refl (s : Session) : Tidy s s := ⟨.refl s, rfl⟩

theorem Like.trans {s t u : Session} (h : Like s t) (h' : Like t u) : Like s u :=
  ⟨h'.subscribed.trans h.subscribed, h'.authorized.trans h.authorized,
    h'.channelId.trans h.channelId, h'.isV2.trans h.isV2, h'.script.trans h.script,
    fun hc => h'.closed (h.closed hc)⟩

/-- Silent calls, written fields, and so many emissions of the latest job. -/
inductive Path (env : Env) : Nat → DeskState → DeskState → Prop where
  | stay {n : Nat} {d : DeskState} : Path env n d d
  | call {n : Nat} {s : Session} {w w' : World} {c : Call} {x : Answer c} {d : DeskState}
      (hc : Off c) (hs : DeskCall c w x w') (rest : Path env n ⟨s, w'⟩ d) : Path env n ⟨s, w⟩ d
  | fields {n : Nat} {s t : Session} {w : World} {d : DeskState} (h : Tidy s t)
      (rest : Path env n ⟨t, w⟩ d) : Path env n ⟨s, w⟩ d
  | emit {n : Nat} {s : Session} {w w' : World} {job : MiningJob} {forceClean : Bool} {o : Outcome}
      {d : DeskState} (latest : w.strat.jobs.latest = some job)
      (run : desk.Exec (emitJob env s job forceClean) w o w')
      (rest : Path env n ⟨o.session, w'⟩ d) : Path env (n + 1) ⟨s, w⟩ d
  | emitV2 {n : Nat} {s : Session} {w w' : World} {job : MiningJob} {o : Outcome}
      {d : DeskState} (latest : w.strat.jobs.latest = some job)
      (run : desk.Exec (emitJobV2 env s job) w o w')
      (rest : Path env n ⟨o.session, w'⟩ d) : Path env (n + 1) ⟨s, w⟩ d

/-- Every run of the program, with these readings of the clock, is such a path. -/
def Walk (env : Env) (readings : Set ℚ) (n : Nat) (s : Session) (p : Act Outcome) : Prop :=
  ∀ w o w', w.readings = readings → desk.Exec p w o w' → Path env n ⟨s, w⟩ ⟨o.session, w'⟩

section Paths

variable {env : Env} {a b c : DeskState} {n m : Nat}

theorem Path.mono (h : Path env n a b) (hle : n ≤ m) : Path env m a b := by
  induction h generalizing m with
  | stay => exact .stay
  | call hc hs _ ih => exact .call hc hs (ih hle)
  | fields h _ ih => exact .fields h (ih hle)
  | emit latest run _ ih =>
    obtain ⟨k, rfl⟩ := Nat.exists_eq_add_of_lt hle
    exact .emit latest run (ih (by omega))
  | emitV2 latest run _ ih =>
    obtain ⟨k, rfl⟩ := Nat.exists_eq_add_of_lt hle
    exact .emitV2 latest run (ih (by omega))

/-- A path, and then one without an emission. -/
theorem Path.trans (h : Path env n a b) (h' : Path env 0 b c) : Path env n a c := by
  induction h with
  | stay => exact h'.mono (Nat.zero_le _)
  | call hc hs _ ih => exact .call hc hs (ih h')
  | fields h _ ih => exact .fields h (ih h')
  | emit latest run _ ih => exact .emit latest run (ih h')
  | emitV2 latest run _ ih => exact .emitV2 latest run (ih h')

end Paths

section Rules

variable {env : Env} {R : Set ℚ} {n m : Nat} {s t : Session} {w w' : World} {α β : Type}

theorem silent_off {p : Act α} {a : α} (hp : p.All Off)
    (run : desk.Exec p w a w') : w'.strat.jobs = w.strat.jobs ∧ w'.posted = w.posted ∧
      ∃ evs, w'.log = evs ++ w.log ∧ ∀ e ∈ evs, sendsWork e.1 = false := by
  have hfixed : w'.strat.jobs = w.strat.jobs ∧ w'.posted = w.posted :=
    run.keeps (I := fun u => u.strat.jobs = w.strat.jobs ∧ u.posted = w.posted) desk hp
      (fun c u x u' hc hs hu => ⟨(jobs_offWork hs hc.work).trans hu.1,
        (posted_offWork hs hc.work).trans hu.2⟩) ⟨rfl, rfl⟩
  obtain ⟨evs, hlog, hevs⟩ := exec_log run hp
  exact ⟨hfixed.1, hfixed.2, evs, hlog, fun e he => (hevs e he).silent⟩

theorem readings_of_run {p : Act α} {a : α} (run : desk.Exec p w a w') :
    w'.readings = w.readings :=
  run.keeps (I := fun u => u.readings = w.readings) desk (Prog.all_true p)
    (fun _ _ _ _ _ hs hu => hs.readings.trans hu) rfl

theorem path_off {p : Act α} {a : α} {d : DeskState} (run : desk.Exec p w a w')
    (hp : p.All Off) (rest : Path env n ⟨s, w'⟩ d) : Path env n ⟨s, w⟩ d := by
  induction run with
  | ret a w => exact rest
  | call hs _ ih => exact .call hp.1 hs (ih (hp.2 _) rest)

theorem Walk.mono {p : Act Outcome} (hp : Walk env R n s p) (hle : n ≤ m) : Walk env R m s p :=
  fun w o w' hr run => (hp w o w' hr run).mono hle

theorem walk_done (h : Tidy s t) : Walk env R n s (.ret (.done t)) := by
  intro w o w' _ run
  obtain ⟨rfl, rfl⟩ := run.ret_inv
  exact .fields h .stay

theorem walk_threw (h : Tidy s t) : Walk env R n s (.ret (.threw t)) := by
  intro w o w' _ run
  obtain ⟨rfl, rfl⟩ := run.ret_inv
  exact .fields h .stay

theorem walk_bind {p : Act α} {k : α → Act Outcome} (hp : p.All Off)
    (hk : ∀ a, Walk env R n s (k a)) : Walk env R n s (p >>= k) := by
  intro w o w' hr run
  obtain ⟨a, w₁, first, rest⟩ := run.bind_inv
  exact path_off first hp (hk a _ _ _ ((readings_of_run first).trans hr) rest)

theorem walk_ask {c : Call} {k : Answer c → Act Outcome} (hc : Off c)
    (hk : ∀ x, Walk env R n s (k x)) : Walk env R n s (ask c >>= k) :=
  walk_bind (Prog.all_perform hc) hk

/-- The clock is read. -/
theorem walk_clock {k : ℚ → Act Outcome} (hk : ∀ now ∈ R, Walk env R n s (k now)) :
    Walk env R n s (ask .steadyNow >>= k) := by
  intro w o w' hr run
  obtain ⟨now, w₁, hs, run⟩ := run.perform_inv
  have hnow : now ∈ w.readings := hs.gives
  have hoff : Off .steadyNow := ⟨rfl, trivial⟩
  exact .call hoff hs (hk now (hr ▸ hnow) _ _ _ (hs.readings.trans hr) run)

theorem Walk.trans {p : Act Outcome} (hp : Walk env R n t p) (h : Tidy s t) : Walk env R n s p :=
  fun w o w' hr run => .fields h (hp w o w' hr run)

theorem walk_thenDo {p : Act Outcome} {f : Session → Act Outcome} (hp : Walk env R n s p)
    (hf : ∀ t, Walk env R 0 t (f t)) : Walk env R n s (thenDo p f) := by
  intro w o w' hr run
  rcases thenDo_inv run with ⟨t, w₁, first, rest⟩ | ⟨t, rfl, first⟩
  · exact (hp _ _ _ hr first).trans (hf t _ _ _ ((readings_of_run first).trans hr) rest)
  · exact hp _ _ _ hr first

theorem walk_ite {c : Prop} [Decidable c] {p q : Act Outcome} (hp : c → Walk env R n s p)
    (hq : ¬ c → Walk env R n s q) : Walk env R n s (if c then p else q) := by
  by_cases hc : c
  · rw [if_pos hc]
    exact hp hc
  · rw [if_neg hc]
    exact hq hc

theorem off_ask {c : Call} (hc : Off c) : (ask c).All Off := Prog.all_perform hc

end Rules

/-! ## Emission -/

section Emission

variable {env : Env} {R : Set ℚ} {n : Nat} {s t : Session} {job : MiningJob} {w w' : World}
  {o : Outcome}

/-- What one emission of a job sends. -/
theorem emitJob_sends {forceClean : Bool}
    (run : desk.Exec (emitJob env s job forceClean) w o w') :
    Like s o.session ∧ w'.strat.jobs = w.strat.jobs ∧ w'.posted = w.posted ∧
      ∃ evs, w'.log = evs ++ w.log ∧ (∀ e ∈ evs, Emission env job e.1) ∧
        ((env.coin.chain = .zcash → zcashJobOf env s job ≠ none) →
          ∃ e ∈ evs, Emission env job e.1) := by
  have one {c : Call} {x : Answer c} {w₁ : World} (hs : DeskCall c w x w₁) (hoff : OffWork c)
      (hc : Emission env job c) : w₁.strat.jobs = w.strat.jobs ∧ w₁.posted = w.posted ∧
      ∃ evs, w₁.log = evs ++ w.log ∧ (∀ e ∈ evs, Emission env job e.1) ∧
        ((env.coin.chain = .zcash → zcashJobOf env s job ≠ none) →
          ∃ e ∈ evs, Emission env job e.1) :=
    ⟨jobs_offWork hs hoff, posted_offWork hs hoff, [⟨c, x⟩], hs.log,
      by simpa using hc, fun _ => ⟨⟨c, x⟩, List.mem_singleton_self _, hc⟩⟩
  unfold emitJob at run
  split at run
  · rename_i hchain
    split at run
    · rename_i hnone
      obtain ⟨rfl, rfl⟩ := run.ret_inv
      exact ⟨.refl s, rfl, rfl, [], rfl, by simp, fun h => absurd hnone (h hchain)⟩
    · rename_i hnone
      obtain ⟨_, w₁, hs, run⟩ := run.perform_inv
      obtain ⟨rfl, rfl⟩ := run.ret_inv
      exact ⟨.refl s, one hs trivial ⟨s, _, forceClean, rfl, .inl ⟨hnone, rfl⟩⟩⟩
    · rename_i zj hzj
      obtain ⟨_, w₁, hs, run⟩ := run.perform_inv
      obtain ⟨rfl, rfl⟩ := run.ret_inv
      exact ⟨⟨rfl, rfl, rfl, rfl, rfl, id⟩,
        one hs trivial ⟨s, _, forceClean, rfl, .inr ⟨zj, hzj, rfl⟩⟩⟩
  · obtain ⟨_, w₁, hs, run⟩ := run.perform_inv
    obtain ⟨rfl, rfl⟩ := run.ret_inv
    exact ⟨.refl s, one hs trivial ⟨s, _, forceClean, rfl, .inl rfl⟩⟩

/-- The latest job is sent, where it can be made. -/
theorem emitLatest_sends {forceClean : Bool}
    (run : desk.Exec (emitLatest env s forceClean) w o w') :
    Like s o.session ∧ w'.strat.jobs = w.strat.jobs ∧ w'.posted = w.posted ∧
      ∃ evs, w'.log = evs ++ w.log ∧
        (∀ e ∈ evs, sendsWork e.1 = true →
          ∃ job, w.strat.jobs.latest = some job ∧ Emission env job e.1) ∧
        ∀ job, w.strat.jobs.latest = some job →
          (env.coin.chain = .zcash → zcashJobOf env s job ≠ none) →
          ∃ e ∈ evs, Emission env job e.1 := by
  obtain ⟨latest, w₁, hs, run⟩ := run.perform_inv
  obtain ⟨hl, hstrat⟩ := hs.strat
  have hposted := posted_offWork hs trivial
  cases latest with
  | none =>
    obtain ⟨rfl, rfl⟩ := run.ret_inv
    refine ⟨.refl s, by rw [hstrat], hposted, [_], hs.log, ?_, fun job hjob => ?_⟩
    · intro e he hsends
      rw [List.mem_singleton.mp he] at hsends
      cases hsends
    · rw [← hl] at hjob
      cases hjob
  | some job =>
    obtain ⟨hlike, hjobs, hposted', evs, hlog, hevs, hsent⟩ := emitJob_sends run
    refine ⟨hlike, by rw [hjobs, hstrat], hposted'.trans hposted, evs ++ [⟨.latestJob, some job⟩],
      by rw [hlog, hs.log, List.append_assoc, List.singleton_append], ?_, fun j hj hmake => ?_⟩
    · intro e he hsends
      rcases List.mem_append.mp he with he | he
      · exact ⟨job, hl.symm, hevs e he⟩
      · rw [List.mem_singleton.mp he] at hsends
        cases hsends
    · obtain rfl : job = j := by
        rw [← hl] at hj
        exact Option.some.inj hj
      obtain ⟨e, he, hemit⟩ := hsent hmake
      exact ⟨e, List.mem_append_left _ he, hemit⟩

theorem walk_emitLatest {forceClean : Bool} (hn : 0 < n) :
    Walk env R n s (emitLatest env s forceClean) := by
  refine Walk.mono (n := 1) ?_ hn
  intro w o w' _ run
  obtain ⟨latest, w₁, hs, run⟩ := run.perform_inv
  obtain ⟨hl, hstrat⟩ := hs.strat
  have hoff : Off .latestJob := ⟨rfl, trivial⟩
  refine .call hoff hs ?_
  cases latest with
  | none =>
    obtain ⟨rfl, rfl⟩ := run.ret_inv
    exact .stay
  | some job => exact .emit (by rw [hstrat, hl]) run .stay

theorem walk_sendSetDifficulty {d : ℚ} {old : Option ℚ} (hn : s.authorized = true → 0 < n) :
    Walk env R n s (sendSetDifficulty env s d old) := by
  refine walk_ask ⟨rfl, trivial⟩ fun now => walk_ask ⟨rfl, trivial⟩ fun _ => ?_
  refine walk_bind (all_whenDo (off_ask ⟨rfl, trivial⟩)) fun _ => ?_
  have hlike : Tidy s (s.advertised (old.getD d) now) := ⟨⟨rfl, rfl, rfl, rfl, rfl, id⟩, rfl⟩
  exact walk_ite (fun hauth => (walk_emitLatest (hn hauth)).trans hlike) fun _ => walk_done hlike

theorem off_sendV2 {msg : Reply} (h : Emissions.sendsWork (.sendV2 msg) = false) :
    (sendV2 s msg).All Off := by
  unfold sendV2
  split
  · trivial
  · exact ⟨⟨h, trivial⟩, fun _ => trivial⟩

/-- What one emission of a job sends on a channel. -/
theorem emitJobV2_sends (run : desk.Exec (emitJobV2 env s job) w o w') :
    o.session = s ∧ w'.strat.jobs = w.strat.jobs ∧ w'.posted = w.posted ∧
      (∃ evs, w'.log = evs ++ w.log ∧
        ∀ e ∈ evs, sendsWork e.1 = true → Emission env job e.1) ∧
      (s.closed = false → workFor env s job ≠ none →
        ∃ evs, w'.log = evs ++ w.log ∧ ∃ e ∈ evs, Emission env job e.1) := by
  have hemission {r : Reply} (hr : workFor env s job = some r) :
      Emission env job (.sendV2 r) := by
    unfold workFor at hr
    split at hr
    · obtain ⟨m, hm, rfl⟩ := Option.map_eq_some_iff.mp hr
      exact ⟨s, hm⟩
    · obtain ⟨m, hm, rfl⟩ := Option.map_eq_some_iff.mp hr
      exact ⟨s, hm⟩
  unfold emitJobV2 at run
  dsimp only at run
  cases hwork : workFor env s job with
  | none =>
    have hnone := hwork
    unfold workFor at hnone
    rw [hnone] at run
    obtain ⟨rfl, rfl⟩ := run.ret_inv
    exact ⟨rfl, rfl, rfl, ⟨[], rfl, by simp⟩, fun _ h => absurd rfl h⟩
  | some r =>
    have hsome := hwork
    unfold workFor at hsome
    rw [hsome] at run
    obtain ⟨_, w₁, first, rest⟩ := run.bind_inv
    have hrest : o.session = s ∧ w'.strat.jobs = w₁.strat.jobs ∧ w'.posted = w₁.posted ∧
        ∃ evs, w'.log = evs ++ w₁.log ∧ ∀ e ∈ evs, sendsWork e.1 = false := by
      split at rest
      · obtain ⟨rfl, rfl⟩ := rest.ret_inv
        exact ⟨rfl, rfl, rfl, [], rfl, by simp⟩
      · obtain ⟨_, w₂, hprev, rest⟩ := rest.bind_inv
        obtain ⟨rfl, rfl⟩ := rest.ret_inv
        exact ⟨rfl, silent_off (off_sendV2 rfl) hprev⟩
    obtain ⟨hsession, hjobs, hposted, evs, hlog, hevs⟩ := hrest
    have silent {e : Event} (he : e ∈ evs) (hsends : sendsWork e.1 = true) : False := by
      rw [hevs e he] at hsends
      cases hsends
    unfold sendV2 at first
    split at first
    · rename_i hclosed
      obtain ⟨_, rfl⟩ := first.ret_inv
      refine ⟨hsession, hjobs, hposted, ⟨evs, hlog, fun e he hsends => (silent he hsends).elim⟩, ?_⟩
      intro hopen
      rw [hclosed] at hopen
      cases hopen
    · obtain ⟨_, w₂, hs, hret⟩ := first.call_inv
      obtain ⟨_, rfl⟩ := hret.ret_inv
      have hsent : w'.log = (evs ++ [⟨.sendV2 r, ()⟩]) ++ w.log := by
        rw [hlog, hs.log, List.append_assoc]
        rfl
      refine ⟨hsession, hjobs.trans (jobs_offWork hs trivial),
        hposted.trans (posted_offWork hs trivial), ⟨_, hsent, fun e he hsends => ?_⟩,
        fun _ _ => ⟨_, hsent, ⟨.sendV2 r, ()⟩, by simp, hemission hwork⟩⟩
      rcases List.mem_append.mp he with he | he
      · exact (silent he hsends).elim
      · rw [List.mem_singleton.mp he]
        exact hemission hwork

theorem walk_emitLatestV2 (hn : 0 < n) : Walk env R n s (emitLatestV2 env s) := by
  refine Walk.mono (n := 1) ?_ hn
  intro w o w' _ run
  obtain ⟨latest, w₁, hs, run⟩ := run.perform_inv
  obtain ⟨hl, hstrat⟩ := hs.strat
  have hoff : Off .latestJob := ⟨rfl, trivial⟩
  refine .call hoff hs ?_
  cases latest with
  | none =>
    obtain ⟨rfl, rfl⟩ := run.ret_inv
    exact .stay
  | some job => exact .emitV2 (by rw [hstrat, hl]) run .stay

/-- What a path leaves behind: work that was sent is the latest job. -/
structure Carries (env : Env) (a b : DeskState) : Prop where
  like : Like a.session b.session
  jobs : b.world.strat.jobs = a.world.strat.jobs
  posted : b.world.posted = a.world.posted
  log : ∃ evs, b.world.log = evs ++ a.world.log ∧ ∀ e ∈ evs, sendsWork e.1 = true →
    ∃ job, a.world.strat.jobs.latest = some job ∧ Emission env job e.1

theorem Carries.trans {a b c : DeskState} (h : Carries env a b) (h' : Carries env b c) :
    Carries env a c where
  like := h.like.trans h'.like
  jobs := h'.jobs.trans h.jobs
  posted := h'.posted.trans h.posted
  log := by
    obtain ⟨evs, hlog, hevs⟩ := h.log
    obtain ⟨evs', hlog', hevs'⟩ := h'.log
    rw [h.jobs] at hevs'
    refine ⟨evs' ++ evs, by rw [hlog', hlog, List.append_assoc], fun e he => ?_⟩
    rcases List.mem_append.mp he with he | he
    · exact hevs' e he
    · exact hevs e he

theorem carries_off {c : Call} {x : Answer c} (hc : Off c) (hs : DeskCall c w x w') :
    Carries env ⟨s, w⟩ ⟨s, w'⟩ := by
  refine ⟨.refl s, jobs_offWork hs hc.work, posted_offWork hs hc.work, [⟨c, x⟩], hs.log, ?_⟩
  intro e he hsends
  rw [List.mem_singleton.mp he, hc.silent] at hsends
  cases hsends

theorem Path.carries {a b : DeskState} (h : Path env n a b) : Carries env a b := by
  induction h with
  | stay => exact ⟨.refl _, rfl, rfl, [], rfl, by simp⟩
  | call hc hs _ ih => exact (carries_off hc hs).trans ih
  | @fields _ s t w d h _ ih =>
    have hfields : Carries env ⟨s, w⟩ ⟨t, w⟩ := ⟨h.toLike, rfl, rfl, [], rfl, by simp⟩
    exact hfields.trans ih
  | emit latest run _ ih =>
    obtain ⟨hlike, hjobs, hposted, evs, hlog, hevs, _⟩ := emitJob_sends run
    exact Carries.trans
      ⟨hlike, hjobs, hposted, evs, hlog, fun e he _ => ⟨_, latest, hevs e he⟩⟩ ih
  | emitV2 latest run _ ih =>
    obtain ⟨hsession, hjobs, hposted, ⟨evs, hlog, hevs⟩, _⟩ := emitJobV2_sends run
    exact Carries.trans ⟨hsession ▸ .refl _, hjobs, hposted, evs, hlog,
      fun e he hsends => ⟨_, latest, hevs e he hsends⟩⟩ ih

end Emission

/-! ## V1 requests -/

section V1

variable {env : Env} {R : Set ℚ} {n : Nat} {s t : Session} {msg : Json} {sh : Share} {idJson : Str}

theorem walk_send {l : Line} (h : Emissions.sendsWork (.send l) = false) :
    Walk env R n s (do
      ask (.send l)
      return .done s) :=
  walk_ask (off_send h) fun _ => walk_done (.refl s)

theorem walk_handleConfigure : Walk env R n s (handleConfigure env s msg) :=
  walk_ask ⟨rfl, trivial⟩ fun _ => walk_done ⟨⟨rfl, rfl, rfl, rfl, rfl, id⟩, rfl⟩

theorem walk_handleSuggestDifficulty
    (hn : s.authorized = true → suggestedDiff env msg ≠ none → 0 < n) :
    Walk env R n s (handleSuggestDifficulty env s msg) := by
  refine walk_thenDo ?_ fun t => walk_send rfl
  cases hd : suggestedDiff env msg with
  | none => exact walk_done (.refl s)
  | some d => exact walk_sendSetDifficulty fun hauth => hn hauth (by simp [hd])

theorem walk_handleExtranonceSubscribe (hn : 0 < n) :
    Walk env R n s (handleExtranonceSubscribe env s msg) := by
  have hlike : Tidy s { s with extranonceSubscribed := true } := ⟨⟨rfl, rfl, rfl, rfl, rfl, id⟩, rfl⟩
  exact walk_ask ⟨rfl, trivial⟩ fun _ => (walk_emitLatest hn).trans hlike

theorem walk_handleAuthorize : Walk env R n s (handleAuthorize env s msg) := by
  unfold handleAuthorize
  split
  · refine walk_ite (fun _ => walk_send rfl) fun _ => ?_
    split
    · exact walk_send rfl
    · refine walk_ask ⟨rfl, trivial⟩ fun bl => ?_
      refine walk_ite (fun _ => walk_send rfl) fun _ => ?_
      refine walk_ite (fun _ => walk_send rfl) fun _ => ?_
      refine walk_ite (fun _ => walk_send rfl) fun _ => ?_
      exact walk_ask ⟨rfl, trivial⟩ fun _ => walk_done (.refl s)
  · exact walk_send rfl

theorem withUserAgent_eq : ∃ ua, withUserAgent s msg = { s with userAgent := ua } := by
  unfold withUserAgent
  split
  · exact ⟨_, rfl⟩
  · exact ⟨s.userAgent, rfl⟩

/-- The difficulty of an authorization's password is advertised. -/
theorem walk_advertise {req : AuthRequest}
    (hn : s.authorized = true → req.customDiff ≠ none → 0 < n) :
    Walk env R n (withPayout env s req) (match req.customDiff with
      | some d => sendSetDifficulty env (withCustomDiff (withPayout env s req) d) d
      | none => return Outcome.done (withPayout env s req)) := by
  cases hd : req.customDiff with
  | none => exact walk_done (.refl _)
  | some d =>
    refine Walk.trans (t := withCustomDiff (withPayout env s req) d)
      (walk_sendSetDifficulty fun hauth => hn hauth (by simp [hd])) ?_
    exact ⟨⟨rfl, rfl, rfl, rfl, rfl, id⟩, rfl⟩

/-- **The answer to an address check.** It goes on with `proceed_auth`, or sends
no work. -/
theorem validated_cases {v : Validation} {error : Option Str} {valid : Bool} {w w' : World}
    {o : Outcome} (run : desk.Exec (Task.prog env s (.validated v error valid)) w o w') :
    Path env 0 ⟨s, w⟩ ⟨o.session, w'⟩ ∨
      ∃ req t, completes env s (.task (.validated v error valid) R) = some req ∧ Tidy s t ∧
        desk.Exec (proceedAuth env t req) w o w' := by
  have tidyDoge (addr script : Str) : Tidy s (withDoge s addr script) :=
    ⟨⟨rfl, rfl, rfl, rfl, rfl, id⟩, rfl⟩
  cases v with
  | payout req =>
    replace run : desk.Exec (onPayoutValidated env s req error valid) w o w' := run
    unfold onPayoutValidated at run
    split at run
    · exact .inl (walk_done (.refl s) _ _ _ rfl run)
    · rename_i hopen
      split at run
      · exact .inl (walk_send rfl _ _ _ rfl run)
      · rename_i hok
        obtain ⟨rfl, rfl⟩ : error = none ∧ valid = true := by simpa using hok
        split at run
        · have hwalk : Walk env w.readings 0 s (do
              ask (.validateAddress (.doge req))
              return .done s) := walk_ask ⟨rfl, trivial⟩ fun _ => walk_done (.refl s)
          exact .inl (hwalk _ _ _ rfl run)
        · rename_i hown
          have hc : completes env s (.task (.validated (.payout req) none true) R) = some req := by
            simp only [completes]
            rw [if_neg hopen, if_neg hown]
          split at run
          · split at run
            · exact .inr ⟨req, _, hc, tidyDoge _ _, run⟩
            · exact .inr ⟨req, s, hc, .refl s, run⟩
          · exact .inr ⟨req, s, hc, .refl s, run⟩
  | doge req =>
    replace run : desk.Exec (onDogeValidated env s req error valid) w o w' := run
    unfold onDogeValidated at run
    split at run
    · exact .inl (walk_done (.refl s) _ _ _ rfl run)
    · rename_i hopen
      split at run
      · exact .inl (walk_send rfl _ _ _ rfl run)
      · rename_i hok
        obtain ⟨rfl, rfl⟩ : error = none ∧ valid = true := by simpa using hok
        have hc : completes env s (.task (.validated (.doge req) none true) R) = some req := by
          simp only [completes]
          rw [if_neg hopen]
        exact .inr ⟨req, _, hc, tidyDoge _ _, run⟩
  | payoutV2 addr =>
    have hwalk : Walk env w.readings 0 s (onPayoutV2Validated s error.isSome valid) := by
      refine walk_ite (fun _ => walk_done (.refl s)) fun _ => ?_
      refine walk_ite (fun _ => walk_done ?_) fun _ => walk_done (.refl s)
      exact ⟨⟨rfl, rfl, rfl, rfl, rfl, fun _ => rfl⟩, rfl⟩
    exact .inl (hwalk _ _ _ rfl run)

theorem tidy_countReject : Tidy s s.countReject := ⟨⟨rfl, rfl, rfl, rfl, rfl, id⟩, rfl⟩

theorem walk_reject {reason : Str} {code : Nat} : Walk env R n s (reject s idJson reason code) := by
  refine walk_ask ⟨rfl, trivial⟩ fun _ => walk_ask ⟨rfl, trivial⟩ fun ban => walk_done ?_
  cases ban with
  | false => exact tidy_countReject
  | true => exact ⟨⟨rfl, rfl, rfl, rfl, rfl, fun _ => rfl⟩, rfl⟩

theorem off_rttAllows {job : MiningJob} {hash : Hash256} : (rttAllows env job hash).All Off := by
  unfold rttAllows
  split
  · exact ⟨⟨rfl, trivial⟩, fun _ => trivial⟩
  · trivial

theorem off_submitBlockCandidate : (submitBlockCandidate env s sh).All Off := by
  refine off_rttAllows.bind fun allowed => ?_
  cases allowed <;> exact ⟨⟨rfl, trivial⟩, fun _ => trivial⟩

theorem walk_maybeSubmitAuxBlock : Walk env R n s (maybeSubmitAuxBlock env s sh) := by
  unfold maybeSubmitAuxBlock
  split
  · exact walk_done (.refl s)
  · split
    · refine walk_ite (fun _ => walk_done (.refl s)) fun _ => ?_
      refine walk_ite (fun _ => walk_done (.refl s)) fun _ => ?_
      exact walk_ask ⟨rfl, trivial⟩ fun _ => walk_done ⟨⟨rfl, rfl, rfl, rfl, rfl, id⟩, rfl⟩
    · exact walk_threw (.refl s)

theorem walk_staleShare : Walk env R n s (staleShare env s idJson sh) := by
  refine walk_ask ⟨rfl, trivial⟩ fun _ => walk_ask ⟨rfl, trivial⟩ fun first => ?_
  refine walk_thenDo ?_ fun t => walk_ask ⟨rfl, trivial⟩ fun _ => walk_done tidy_countReject
  refine walk_ite (fun _ => ?_) fun _ => walk_done (.refl s)
  exact walk_bind (all_whenDo off_submitBlockCandidate) fun _ => walk_maybeSubmitAuxBlock

theorem walk_lowDiffShare : Walk env R n s (lowDiffShare env s idJson sh) :=
  walk_ask ⟨rfl, trivial⟩ fun _ =>
    walk_bind (all_whenDo off_submitBlockCandidate) fun _ => walk_reject

theorem walk_vardiffTick {targetDiff : ℚ}
    (hn : s.authorized = true → Retargets env s R → 0 < n) :
    Walk env R n s (vardiffTick env s sh targetDiff) := by
  refine walk_ite (fun hon => walk_clock fun now hnow => ?_) fun _ => walk_done (.refl s)
  dsimp only
  split
  · rename_i nd hnd
    refine Walk.trans (t := s.withVardiff _) (walk_sendSetDifficulty fun hauth => hn hauth ?_)
      ⟨⟨rfl, rfl, rfl, rfl, rfl, id⟩, rfl⟩
    simp only [Bool.and_eq_true, Bool.not_eq_true'] at hon
    exact ⟨hon.1, hon.2, now, hnow, targetDiff, sh.netTarget, by rw [hnd]; simp⟩
  · exact walk_done ⟨⟨rfl, rfl, rfl, rfl, rfl, id⟩, rfl⟩

theorem walk_finishFresh {targetDiff : ℚ} : Walk env R n s (finishFresh env s sh targetDiff) := by
  refine walk_bind (all_whenDo (off_ask ⟨rfl, trivial⟩)) fun _ => ?_
  refine walk_thenDo walk_maybeSubmitAuxBlock fun t => ?_
  exact walk_bind (all_whenDo off_submitBlockCandidate) fun _ => walk_done (.refl t)

theorem walk_freshShare {targetDiff : ℚ}
    (hn : s.authorized = true → Retargets env s R → 0 < n) :
    Walk env R n s (freshShare env s idJson sh targetDiff) := by
  refine walk_ask ⟨rfl, trivial⟩ fun _ => walk_ask ⟨rfl, trivial⟩ fun first => ?_
  refine walk_ite (fun _ => walk_ask ⟨rfl, trivial⟩ fun _ => walk_done tidy_countReject) fun _ => ?_
  refine walk_ask ⟨rfl, trivial⟩ fun _ => walk_ask ⟨rfl, trivial⟩ fun _ => ?_
  refine walk_ask ⟨rfl, trivial⟩ fun _ => walk_ask ⟨rfl, trivial⟩ fun _ => ?_
  refine Walk.trans (t := s.countAccept) ?_ ⟨⟨rfl, rfl, rfl, rfl, rfl, id⟩, rfl⟩
  exact walk_thenDo (walk_vardiffTick hn) fun t => walk_finishFresh

theorem off_graceTarget {shareDiff : ℚ} : (graceTarget env s shareDiff).All Off := by
  unfold graceTarget
  split
  · refine Prog.All.bind (off_ask ⟨rfl, trivial⟩) fun now => ?_
    split <;> trivial
  · trivial

theorem walk_submitOnJob {sub : Submission} {job : MiningJob}
    (hn : s.authorized = true → Retargets env s R → 0 < n) :
    Walk env R n s (submitOnJob env s idJson sub job) := by
  refine walk_ask ⟨rfl, trivial⟩ fun curPrev => ?_
  dsimp only
  split
  · exact walk_reject
  · refine walk_ask ⟨rfl, trivial⟩ fun now => walk_ite (fun _ => walk_reject) fun _ => ?_
    split
    · exact walk_reject
    · split
      · exact walk_threw (.refl s)
      · exact walk_reject
      · refine walk_ite (fun _ => walk_staleShare) fun _ => walk_bind off_graceTarget fun _ => ?_
        exact walk_ite (fun _ => walk_lowDiffShare) fun _ => walk_freshShare hn

theorem walk_handleSubmit (hn : s.authorized = true → Retargets env s R → 0 < n) :
    Walk env R n s (handleSubmit env s msg) := by
  unfold handleSubmit
  dsimp only
  refine walk_ite (fun _ => walk_reject) fun _ => ?_
  split
  · exact walk_reject
  · refine walk_ite (fun _ => walk_reject) fun _ => walk_ask ⟨rfl, trivial⟩ fun found => ?_
    cases found with
    | none => exact walk_reject
    | some job => exact walk_submitOnJob hn

/-- A method that is no subscribe. -/
theorem walk_dispatch {method : Str}
    (hm : (msg.find? "method".toList).bind Json.getString? = some method)
    (h : method ≠ "mining.subscribe".toList)
    (hn : (Turn.mk env s R (.line (some msg))).Emits → 0 < n) :
    Walk env R n s (dispatch env s method msg) := by
  refine walk_ite (fun _ => walk_handleConfigure) fun _ => ?_
  refine walk_ite (fun hsubscribe => absurd hsubscribe h) fun _ => ?_
  refine walk_ite (fun _ => walk_handleAuthorize) fun _ => ?_
  refine walk_ite (fun hc => walk_handleSubmit fun hauth hr => hn ?_) fun _ => ?_
  · exact .inr ⟨hauth, .inr (.inr ⟨hm.trans (congrArg some hc), hr⟩)⟩
  · refine walk_ite (fun hc => walk_handleSuggestDifficulty fun hauth hd => hn ?_) fun _ => ?_
    · exact .inr ⟨hauth, .inr (.inl ⟨hm.trans (congrArg some hc), hd⟩)⟩
    · refine walk_ite (fun hc => walk_handleExtranonceSubscribe (hn ?_)) fun _ => walk_send rfl
      exact .inl (hm.trans (congrArg some hc))

end V1

/-! ## V2 messages -/

section V2

variable {env : Env} {R : Set ℚ} {n : Nat} {s t : Session} {sh : ShareV2}

theorem walk_sendV2 {msg : Reply} (h : Emissions.sendsWork (.sendV2 msg) = false)
    (hlike : Tidy s t) : Walk env R n s (do
      sendV2 t msg
      return .done t) :=
  walk_bind (off_sendV2 h) fun _ => walk_done hlike

theorem walk_rejectV2 {sequenceNumber : UInt32} {code : String} :
    Walk env R n s (rejectV2 s sequenceNumber code) :=
  walk_bind (off_sendV2 rfl) fun _ => walk_done tidy_countReject

theorem off_submitAtFirstSight {path : SharePath} {emptyBlock : Bool} :
    (submitAtFirstSight env s path sh emptyBlock).All Off := by
  refine ⟨⟨rfl, trivial⟩, fun _ => all_whenDo ⟨⟨rfl, trivial⟩, fun first => all_whenDo ?_⟩⟩
  have guard : (rttAllowsV2 env sh).All Off := by
    unfold rttAllowsV2
    split
    · exact off_rttAllows
    · trivial
  refine guard.bind fun allowed => ?_
  cases allowed <;> exact ⟨⟨rfl, trivial⟩, fun _ => trivial⟩

theorem off_graceTargetV2 {shareDiff seconds tolerance : ℚ} :
    (graceTargetV2 s shareDiff seconds tolerance).All Off := by
  unfold graceTargetV2
  split
  · refine Prog.All.bind (off_ask ⟨rfl, trivial⟩) fun now => ?_
    split <;> trivial
  · trivial

theorem walk_vardiffTickV2 {targetDiff networkDiff : ℚ} :
    Walk env R n s (vardiffTickV2 env s targetDiff networkDiff) := by
  refine walk_ask ⟨rfl, trivial⟩ fun now => ?_
  dsimp only
  split
  · exact walk_ask ⟨rfl, trivial⟩ fun _ => walk_sendV2 rfl ⟨⟨rfl, rfl, rfl, rfl, rfl, id⟩, rfl⟩
  · exact walk_done ⟨⟨rfl, rfl, rfl, rfl, rfl, id⟩, rfl⟩

theorem walk_creditV2 {path : SharePath} {hash : Hash256} {job : Option MiningJob}
    {ntime : UInt32} {diff targetDiff networkDiff : ℚ} {tick : Bool} {rec : Session → ShareRecord} :
    Walk env R n s (do
      let s ← acceptShare s path hash job ntime diff
      thenDo (if tick then vardiffTickV2 env s targetDiff networkDiff else return .done s)
        fun s => do
          persistShare s (rec s)
          return .done s) := by
  refine walk_ask ⟨rfl, trivial⟩ fun _ => walk_ask ⟨rfl, trivial⟩ fun _ => ?_
  have hlike : Tidy s s.countAccept := ⟨⟨rfl, rfl, rfl, rfl, rfl, id⟩, rfl⟩
  refine Walk.trans (walk_thenDo ?_ fun t => ?_) hlike
  · exact walk_ite (fun _ => walk_vardiffTickV2) fun _ => walk_done (.refl _)
  · exact walk_bind (all_whenDo (off_ask ⟨rfl, trivial⟩)) fun _ => walk_done (.refl t)

theorem walk_scoreStandard {msg : SubmitSharesStandard} :
    Walk env R n s (scoreStandard env s msg sh) := by
  refine walk_bind off_submitAtFirstSight fun _ => walk_bind off_graceTargetV2 fun _ => ?_
  refine walk_ite (fun _ => walk_rejectV2) fun _ => ?_
  exact walk_bind (off_sendV2 rfl) fun _ => walk_creditV2

theorem walk_scoreExtended {msg : SubmitSharesExtended} {job : MiningJob} :
    Walk env R n s (scoreExtended env s msg job sh) := by
  refine walk_bind off_submitAtFirstSight fun _ => walk_bind off_graceTargetV2 fun _ => ?_
  refine walk_ite (fun _ => walk_rejectV2) fun _ => walk_ask ⟨rfl, trivial⟩ fun now => ?_
  refine walk_ite (fun _ => walk_rejectV2) fun _ => ?_
  exact walk_bind (off_sendV2 rfl) fun _ => walk_creditV2

theorem off_findShareJob {id : UInt32} : (findShareJob id).All Off := by
  refine Prog.All.bind (off_ask ⟨rfl, trivial⟩) fun latest => ?_
  cases latest with
  | none => exact ⟨⟨rfl, trivial⟩, fun _ => trivial⟩
  | some j =>
    dsimp only
    split
    · trivial
    · exact ⟨⟨rfl, trivial⟩, fun _ => trivial⟩

theorem walk_handleSubmitSharesV2 {msg : SubmitSharesStandard} :
    Walk env R n s (handleSubmitSharesV2 env s msg) := by
  unfold handleSubmitSharesV2
  split
  · split
    · exact walk_threw (.refl s)
    · exact walk_scoreStandard
  · refine walk_bind off_findShareJob fun job => ?_
    cases job with
    | none => exact walk_rejectV2
    | some job =>
      dsimp only
      split
      · exact walk_threw (.refl s)
      · exact walk_scoreStandard

theorem walk_handleSubmitSharesExtendedV2 {msg : SubmitSharesExtended} :
    Walk env R n s (handleSubmitSharesExtendedV2 env s msg) := by
  refine walk_ite (fun _ => walk_done (.refl s)) fun _ => walk_bind off_findShareJob fun job => ?_
  cases job with
  | none => exact walk_rejectV2
  | some job =>
    dsimp only
    split
    · exact walk_threw (.refl s)
    · exact walk_scoreExtended

theorem walk_handleSetCustomMiningJobV2 {msg : SetCustomMiningJob} :
    Walk env R n s (handleSetCustomMiningJobV2 env s msg) := by
  have fail (code : String) : Walk env R n s (do
      sendV2 s (.setCustomMiningJobError s.sv2ChannelId msg.requestId code.toList)
      return .done s) := walk_sendV2 rfl (.refl s)
  refine walk_ite (fun _ => fail _) fun _ => walk_ite (fun _ => fail _) fun _ => ?_
  exact walk_sendV2 rfl ⟨⟨rfl, rfl, rfl, rfl, rfl, id⟩, rfl⟩

/-- A message that opens no channel and sets up no connection. -/
theorem walk_processMessageV2 {msg : Request} (hop : opening env msg = none)
    (hsetup : ∀ protocol, msg ≠ .setupConnection protocol) :
    Walk env R n s (processMessageV2 env s msg) := by
  have refused (userIdentity : Str) (requestId : UInt32) : Walk env R n s (do
      sendV2 (withIdentity s userIdentity)
        (.openMiningChannelError requestId "invalid-username-or-address".toList)
      return .done (withIdentity s userIdentity)) := walk_sendV2 rfl ⟨⟨rfl, rfl, rfl, rfl, rfl, id⟩, rfl⟩
  cases msg with
  | setupConnection protocol => exact absurd rfl (hsetup protocol)
  | openStandardMiningChannel msg =>
    obtain ⟨e, he⟩ := refused_of_openingFor (s := s) hop
    show Walk env R n s (handleOpenStandard env s msg)
    unfold handleOpenStandard
    dsimp only
    rw [he]
    exact refused _ _
  | openExtendedMiningChannel msg =>
    obtain ⟨e, he⟩ := refused_of_openingFor (s := s) hop
    show Walk env R n s (handleOpenExtended env s msg)
    unfold handleOpenExtended
    dsimp only
    rw [he]
    exact refused _ _
  | updateChannel | closeChannel | unknown => exact walk_done (.refl s)
  | submitSharesStandard msg => exact walk_handleSubmitSharesV2
  | submitSharesExtended msg => exact walk_handleSubmitSharesExtendedV2
  | setCustomMiningJob msg => exact walk_handleSetCustomMiningJobV2

end V2

end MkPool.Emissions
