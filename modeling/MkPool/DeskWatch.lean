import MkPool.ShareWatch
import MkPool.Published

/-! # What a task leaves in the log

A task that runs at the desk keeps to its watch, so everything it does with a
share is explained by the session and the world it began in: the events it adds
to the log (`Explains`), and what it has settled by its end (`task_seen`). -/
namespace MkPool.DeskWatch
open MkPool.Lib.Interaction MkPool.Utils MkPool.Config MkPool.Job MkPool.Coinbase
open MkPool.Stratifier MkPool.Sv2Messages MkPool.Calls MkPool.ClientSession MkPool.JsonValue
open MkPool.Tasks MkPool.Submit MkPool.StratumV2 MkPool.Desk MkPool.Published MkPool.ShareWatch

/-! ## Shares in the log -/

def verdictIn : Event → Option Verdict
  | ⟨.scored path hash job meets, _⟩ => some ⟨path, hash, job, meets⟩
  | _ => none

def auxHashIn : Event → Option Str
  | ⟨.submitAuxBlock b, _⟩ => some b.dogeBlockHash
  | _ => none

/-- The shares that reached the target comparison, the latest first. -/
def verdicts (w : World) : List Verdict := w.log.filterMap verdictIn

/-- The Dogecoin blocks submitted, the latest first. -/
def auxHashes (w : World) : List Str := w.log.filterMap auxHashIn

/-- The job is of another block than the pool's tip. -/
def Superseded (w : World) (job : MiningJob) : Prop :=
  w.strat.lastPrevhash ≠ [] ∧ job.previousblockhash ≠ w.strat.lastPrevhash

/-- The share is below the session's difficulty at some reading of the clock. -/
def FallsShort (env : Env) (s : Session) (readings : Set ℚ) (sh : Share) : Prop :=
  ∃ r : Option ℚ, (∀ now, r = some now → now ∈ readings) ∧ TooLow env s r sh

/-- The pool job a Stratum V2 share names: the latest one by its emitted id, or
one of the window by the window's. -/
def Named (w : World) (id : UInt32) (job : MiningJob) : Prop :=
  w.strat.jobs.latest = some job ∧ emitIdU32 job.jobId = id ∨ w.strat.jobs.findU32 id = some job

/-! ## Explained by the start of the task -/

/-- A V1 share: its job is in the window, and the branch it takes is that of
the tip and of the difficulty. -/
structure JudgedV1 (env : Env) (s : Session) (task : Task) (w : World) (v : Verdict)
    (sh : Share) : Prop where
  rebuilt : RebuiltShare env s task sh
  found : w.strat.jobs.find sh.sub.jobId = some sh.job
  stale : v.path = .v1Stale ↔ Superseded w sh.job
  low : v.path = .v1LowDiff → FallsShort env s w.readings sh
  hash : v.hash = sh.hash
  job : v.job = some sh.job
  meets : v.meets = sh.meetsNetwork

def Judged (env : Env) (s : Session) (task : Task) (w : World) (v : Verdict) : Prop :=
  match v.path with
  | .v2Standard => ∃ sh, RebuiltStandard env s task (Named w) sh ∧
      v.hash = sh.hash ∧ v.job = sh.job ∧ v.meets = sh.meetsNetwork
  | .v2Extended => ∃ sh, RebuiltExtended env s task (Named w) sh ∧
      v.hash = sh.hash ∧ v.job = sh.job ∧ v.meets = sh.meetsNetwork
  | _ => ∃ sh, JudgedV1 env s task w v sh

/-- The block of a share of a job in the window. -/
def Assembled (env : Env) (s : Session) (task : Task) (w : World) (b : BlockSubmission) : Prop :=
  (∃ sh, RebuiltShare env s task sh ∧ w.strat.jobs.find sh.sub.jobId = some sh.job ∧
    b.block = candidateBlock env sh ∧ b.hash = sh.hash ∧ sh.meetsNetwork = true) ∨
  (∃ sh, RebuiltStandard env s task (Named w) sh ∧
    b.block = sv2Block sh env.coin.stratumV2EmptyBlocks ∧ b.hash = sh.hash ∧
    sh.meetsNetwork = true) ∨
  (∃ sh, RebuiltExtended env s task (Named w) sh ∧
    b.block = sv2Block sh false ∧ b.hash = sh.hash ∧ sh.meetsNetwork = true)

/-- The Dogecoin block of a share that meets the target of the work kept for
its job. -/
structure SolvedAux (env : Env) (s : Session) (task : Task) (w : World) (b : AuxSubmission)
    (sh : Share) (saj : SessionAuxJob) : Prop where
  rebuilt : RebuiltShare env s task sh
  found : w.strat.jobs.find sh.sub.jobId = some sh.job
  work : auxWorkFor env s sh = some saj
  meets : ∃ target, hexToBytes saj.auxTarget = some target ∧
    byteLe sh.hash.bytes target = true
  block : ∃ parentHash, computeCoinbaseTxidLe env.hashes sh.headerHex = some parentHash ∧
    b = { block := dogeBlock saj sh parentHash, dogeBlockHash := saj.dogeBlockHash }
  fresh : saj.dogeBlockHash ∉ s.dogeSubmitted

/-- What is known of an event of a task from the session and the world the task
began in. -/
def Explains (env : Env) (s : Session) (task : Task) (w : World) : Call → Prop
  | .scored path hash job meets => Judged env s task w ⟨path, hash, job, meets⟩
  | .submitBlock b => Assembled env s task w b ∧ b.minerId = s.minerId
  | .submitAuxBlock b => ∃ sh saj, SolvedAux env s task w b sh saj
  | .enqueueShare rec => rec.minerId = s.minerId
  | _ => True

/-! ## The world behind a phase -/

/-- What the task has learned, it learned of the world it began in. -/
structure Learned (w₀ : World) (q : Phase) : Prop where
  found : ∀ id job, q.found = some (id, job) → w₀.strat.jobs.find id = some job
  found32 : ∀ id job, q.found32 = some (id, job) → w₀.strat.jobs.findU32 id = some job
  latest : ∀ job, q.latest = some job → w₀.strat.jobs.latest = some job
  tip : ∀ tip, q.tip = some tip → tip = w₀.strat.lastPrevhash
  steady : ∀ now, q.steady = some now → now ∈ w₀.readings

/-- What the task has done so far. -/
structure Seen (env : Env) (s : Session) (task : Task) (w₀ : World) (q : Phase) (w : World) :
    Prop where
  jobs : w.strat.jobs = w₀.strat.jobs
  prevhash : w.strat.lastPrevhash = w₀.strat.lastPrevhash
  posted : w.posted = w₀.posted
  nextId : w.nextId = w₀.nextId
  readings : w.readings = w₀.readings
  learned : Learned w₀ q
  share : ∀ v, q.verdict = some v → v.path.isV2 = false → ∃ sh,
    q.found = some (sh.sub.jobId, sh.job) ∧ JudgedV1 env s task w₀ v sh
  table : q.first = none → w.strat.seenShares = w₀.strat.seenShares
  first : ∀ b, q.first = some b → ∃ v, q.verdict = some v ∧
    b = decide (bytesToHex v.hash.bytes ∉ shareRoom w₀.strat.seenShares)
  log : ∃ evs, w.log = evs ++ w₀.log ∧ ∀ e ∈ evs, OffWork e.1 ∧ Explains env s task w₀ e.1
  verdicts : verdicts w = q.verdict.toList ++ verdicts w₀
  aux : auxHashes w = q.aux.toList ++ auxHashes w₀

section Steps

variable {env : Env} {s : Session} {task : Task} {w₀ w w' : World} {q : Phase} {c : Call}
  {x : Answer c}

theorem offWork_of_allows (h : q.Allows env s task c) : OffWork c := by
  cases c <;> first | exact h.elim | trivial

theorem prevhash_offWork (h : DeskCall c w x w') (hc : OffWork c) :
    w'.strat.lastPrevhash = w.strat.lastPrevhash := by
  have hs := h.strat
  cases c <;> simp only [StratStep] at hs <;> first | exact hc.elim | simp_all

theorem Learned.next (h : Learned w₀ q) (hj : w.strat.jobs = w₀.strat.jobs)
    (hp : w.strat.lastPrevhash = w₀.strat.lastPrevhash) (hr : w.readings = w₀.readings)
    (hs : DeskCall c w x w') : Learned w₀ (q.next c x) := by
  have hst := hs.strat
  cases c with
  | findJob id =>
    refine ⟨?_, h.found32, h.latest, h.tip, h.steady⟩
    intro id' job he
    obtain ⟨j, hx, he⟩ := Option.map_eq_some_iff.mp he
    obtain ⟨rfl, rfl⟩ := Prod.mk.inj he
    rw [← hj, ← hst.1]
    exact hx
  | findJobU32 id =>
    refine ⟨h.found, ?_, h.latest, h.tip, h.steady⟩
    intro id' job he
    obtain ⟨j, hx, he⟩ := Option.map_eq_some_iff.mp he
    obtain ⟨rfl, rfl⟩ := Prod.mk.inj he
    rw [← hj, ← hst.1]
    exact hx
  | latestJob =>
    refine ⟨h.found, h.found32, ?_, h.tip, h.steady⟩
    intro job he
    rw [← hj, ← hst.1]
    exact he
  | currentPrevhash =>
    refine ⟨h.found, h.found32, h.latest, ?_, h.steady⟩
    intro tip he
    rw [← hp, ← hst.1]
    exact (Option.some.inj he).symm
  | steadyNow =>
    refine ⟨h.found, h.found32, h.latest, h.tip, ?_⟩
    intro now he
    obtain rfl := Option.some.inj he
    rw [← hr]
    exact hs.gives
  | _ => exact ⟨h.found, h.found32, h.latest, h.tip, h.steady⟩

theorem Learned.named (h : Learned w₀ q) {id : UInt32} {job : MiningJob} (hn : q.Names id job) :
    Named w₀ id job :=
  hn.imp (fun hl => ⟨h.latest job hl.1, hl.2⟩) fun hf => h.found32 id job hf

theorem Learned.standard (h : Learned w₀ q) {sh : ShareV2}
    (hr : RebuiltStandard env s task q.Names sh) : RebuiltStandard env s task (Named w₀) sh := by
  obtain ⟨msg, ht, ⟨hnone, job, hn, hsh⟩ | hcustom⟩ := hr
  · exact ⟨msg, ht, .inl ⟨hnone, job, h.named hn, hsh⟩⟩
  · exact ⟨msg, ht, .inr hcustom⟩

theorem Learned.extended (h : Learned w₀ q) {sh : ShareV2}
    (hr : RebuiltExtended env s task q.Names sh) : RebuiltExtended env s task (Named w₀) sh := by
  obtain ⟨msg, ht, job, hn, hsh⟩ := hr
  exact ⟨msg, ht, job, h.named hn, hsh⟩

/-- A V1 verdict is about a share of the task. -/
theorem Learned.judgedV1 (h : Learned w₀ q) {v : Verdict} (hv : v.path.isV2 = false)
    (hj : q.Judges env s task v) :
    ∃ sh, q.found = some (sh.sub.jobId, sh.job) ∧ JudgedV1 env s task w₀ v sh := by
  have hj' : ∃ sh, RebuiltShare env s task sh ∧ q.found = some (sh.sub.jobId, sh.job) ∧
      (if v.path = .v1Stale then q.Superseded sh.job else q.Current sh.job) ∧
      (v.path = .v1LowDiff → TooLow env s q.steady sh) ∧
      v.hash = sh.hash ∧ v.job = some sh.job ∧ v.meets = sh.meetsNetwork := by
    unfold Phase.Judges at hj
    split at hj
    · rename_i hp
      rw [hp] at hv
      cases hv
    · rename_i hp
      rw [hp] at hv
      cases hv
    · exact hj
  obtain ⟨sh, hr, hf, htip, hlow, hhash, hjob, hm⟩ := hj'
  refine ⟨sh, hf, hr, h.found _ _ hf, ?_, fun hp => ⟨q.steady, h.steady, hlow hp⟩, hhash, hjob, hm⟩
  split at htip
  · rename_i hp
    obtain ⟨tip, ht, hne, hprev⟩ := htip
    obtain rfl := h.tip tip ht
    exact ⟨fun _ => ⟨hne, hprev⟩, fun _ => hp⟩
  · rename_i hp
    obtain ⟨tip, ht, hcur⟩ := htip
    obtain rfl := h.tip tip ht
    exact ⟨fun hs => absurd hs hp, fun hs => (hcur.elim hs.1 hs.2).elim⟩

theorem Learned.judged (h : Learned w₀ q) {v : Verdict} (hj : q.Judges env s task v) :
    Judged env s task w₀ v := by
  obtain ⟨path, hash, job, meets⟩ := v
  cases path with
  | v2Standard =>
    obtain ⟨sh, hr, rest⟩ := hj
    exact ⟨sh, h.standard hr, rest⟩
  | v2Extended =>
    obtain ⟨sh, hr, rest⟩ := hj
    exact ⟨sh, h.extended hr, rest⟩
  | v1Fresh | v1Stale | v1LowDiff =>
    obtain ⟨sh, _, hsh⟩ := h.judgedV1 rfl hj
    exact ⟨sh, hsh⟩

/-- What the watch allows is explained. -/
theorem Learned.explains (h : Learned w₀ q) (ha : q.Allows env s task c) :
    Explains env s task w₀ c := by
  cases c with
  | scored => exact h.judged ha.2
  | submitBlock b =>
    refine ⟨?_, ha.2.2⟩
    rcases ha.2.1 with ⟨sh, hr, hf, rest⟩ | ⟨sh, hr, rest⟩ | ⟨sh, hr, rest⟩
    · exact .inl ⟨sh, hr, h.found _ _ hf, rest⟩
    · exact .inr (.inl ⟨sh, h.standard hr, rest⟩)
    · exact .inr (.inr ⟨sh, h.extended hr, rest⟩)
  | submitAuxBlock b =>
    obtain ⟨⟨sh, v, saj, target, parentHash, _, _, hr, hf, hwork, ht, hle, hp, hnew, hb⟩, _⟩ := ha
    exact ⟨sh, saj, hr, h.found _ _ hf, hwork, ⟨target, ht, hle⟩, ⟨parentHash, hp, hb⟩, hnew⟩
  | enqueueShare rec =>
    obtain ⟨_, _, _, hm, _⟩ := ha
    exact hm
  | _ => exact trivial

theorem Seen.next (h : Seen env s task w₀ q w) (ha : q.Allows env s task c)
    (hs : DeskCall c w x w') : Seen env s task w₀ (q.next c x) w' := by
  have hc := offWork_of_allows ha
  have table (hreg : ∀ fp, c ≠ .registerShare fp) : w'.strat.seenShares = w.strat.seenShares := by
    have hst := hs.strat
    cases c <;> simp only [StratStep] at hst <;> first | exact hc.elim | simp_all
  refine ⟨(jobs_offWork hs hc).trans h.jobs, (prevhash_offWork hs hc).trans h.prevhash,
    (posted_offWork hs hc).trans h.posted, hs.nextId.trans h.nextId, hs.readings.trans h.readings,
    h.learned.next h.jobs h.prevhash h.readings hs, ?_, ?_, ?_, ?_, ?_, ?_⟩
  · cases c with
    | scored path hash job meets =>
      intro v hv hpath
      obtain rfl := Option.some.inj hv
      exact h.learned.judgedV1 hpath ha.2
    | findJob id =>
      intro v hv
      exact absurd (hv.symm.trans ha) (by simp)
    | _ => exact h.share
  · cases c with
    | registerShare fp =>
      intro hf
      cases hf
    | _ => exact fun hf => (table (by simp)).trans (h.table hf)
  · cases c with
    | registerShare fp =>
      intro b hb
      obtain rfl := Option.some.inj hb
      obtain ⟨v, hv, rfl, hfirst, _⟩ := ha
      refine ⟨v, hv, ?_⟩
      rw [← h.table hfirst]
      exact hs.strat.1
    | scored path hash job meets =>
      intro b hb
      obtain ⟨v, hv, _⟩ := h.first b hb
      exact absurd (hv.symm.trans ha.1) (by simp)
    | _ => exact h.first
  · obtain ⟨evs, hlog, hevs⟩ := h.log
    refine ⟨⟨c, x⟩ :: evs, by rw [hs.log, hlog, List.cons_append], fun e he => ?_⟩
    rcases List.mem_cons.mp he with rfl | he
    · exact ⟨hc, h.learned.explains ha⟩
    · exact hevs e he
  · have hv := h.verdicts
    unfold DeskWatch.verdicts at hv ⊢
    rw [hs.log]
    cases c with
    | scored path hash job meets =>
      rw [ha.1] at hv
      rw [List.filterMap_cons_some (f := verdictIn) (b := ⟨path, hash, job, meets⟩) rfl, hv]
      rfl
    | _ => exact hv
  · have hv := h.aux
    unfold auxHashes at hv ⊢
    rw [hs.log]
    cases c with
    | submitAuxBlock b =>
      rw [ha.2.1] at hv
      rw [List.filterMap_cons_some (f := auxHashIn) (b := b.dogeBlockHash) rfl, hv]
      rfl
    | _ => exact hv

end Steps

/-- **What a task does at the desk.** It ends in a phase that is settled, with
everything in the log explained by its start. -/
theorem task_seen {env : Env} {s : Session} {task : Task} {w w' : World} {o : Outcome}
    (run : desk.Exec (task.prog env s) w o w') :
    ∃ q, Settled env s q ∧ Seen env s task w q w' := by
  refine run.watched (task_watched env s task) (fun c q w x w' ha hs h => h.next ha hs) ?_
  refine ⟨rfl, rfl, rfl, rfl, rfl, ?_, ?_, fun _ => rfl, ?_, ⟨[], rfl, ?_⟩, rfl, rfl⟩
  · constructor <;> intros <;> simp_all
  all_goals intros; simp_all

/-! ## The shelves of any run -/

theorem Seen.pushed {env : Env} {s : Session} {task : Task} {w w' : World} {q : Phase}
    (h : Seen env s task w q w') : pushed w' = pushed w := by
  obtain ⟨evs, hlog, hevs⟩ := h.log
  have none : evs.filterMap pushedBy = [] := by
    refine List.filterMap_eq_nil_iff.mpr fun e he => ?_
    obtain ⟨c, x⟩ := e
    have hc := (hevs _ he).1
    cases c <;> first | exact hc.elim | rfl
  unfold Published.pushed
  rw [hlog, List.filterMap_append, none, List.nil_append]

theorem Seen.shelved {env : Env} {s : Session} {task : Task} {w w' : World} {q : Phase}
    (h : Seen env s task w q w') (hw : Shelved env w) : Shelved env w' :=
  hw.transfer h.jobs h.pushed (h.posted ▸ .refl _)

/-- With fresh ids, the window and the queue of any run hold pushed jobs. -/
theorem shelved_reach {env : Env} {isV2 : Bool} {ok : DeskState → Input → Prop} {d : DeskState}
    (fresh : ∀ d gbt jobId, ok d (.work gbt jobId) → ∀ job ∈ pushed d.world, job.jobId ≠ jobId)
    (h : Reach env isV2 ok d) : Shelved env d.world := by
  refine Reach.invariant (I := fun d => Shelved env d.world) ?_ ?_ h
  · exact fun d hd => shelved_initial hd
  · intro d i d' hd hok hs
    cases hs with
    | task offered run =>
      obtain ⟨q, _, hseen⟩ := task_seen run
      exact hseen.shelved (hd.transfer rfl rfl (.refl _))
    | @notify s w w' job rest o head run =>
      obtain ⟨q, _, hseen⟩ := task_seen run
      refine hseen.shelved (hd.transfer rfl rfl ?_)
      rw [head]
      exact List.sublist_cons_self _ _
    | @work s w w' gbt jobId run =>
      have hd' : Shelved env { w with nextId := jobId } := hd.transfer rfl rfl (.refl _)
      rcases work_cases run with ⟨_, rfl⟩ | ⟨job, hj, rfl⟩
      · exact hd'
      · refine hd'.publish _ (made_of_jobOf hj) ?_
        rw [jobId_of_jobOf hj]
        exact fresh _ _ _ hok
    | others => exact hd.transfer rfl rfl (.refl _)

end MkPool.DeskWatch
