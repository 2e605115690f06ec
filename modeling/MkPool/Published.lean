import MkPool.Desk

/-! # The jobs a run has published

A job is pushed once, under an id of its own as long as the ids differ, and
then waits to be notified. The window and the queue hold pushed jobs only, so
an id names one job in both. -/
namespace MkPool.Published
open MkPool.Lib.Interaction MkPool.Utils MkPool.Job MkPool.Coinbase MkPool.Stratifier
open MkPool.Calls MkPool.ClientSession MkPool.JsonValue MkPool.Desk

/-- The job an event pushes. -/
def pushedBy : Event → Option MiningJob
  | ⟨.pushJob job, _⟩ => some job
  | _ => none

/-- The jobs pushed so far, the latest first. -/
def pushed (w : World) : List MiningJob := w.log.filterMap pushedBy

/-- A call that `updateWork` does not make. -/
def OffWork : Call → Prop
  | .newJobId _ | .swapPrevhash _ | .clearShares | .resetBestShare => False
  | .pushJob _ | .callbacks _ => False
  | _ => True

/-- A job `updateWork` makes. -/
def Made (env : Env) (job : MiningJob) : Prop :=
  ∃ gbt draft, (parseTemplate gbt).bind (draftJob env.coin env.hashes) = some draft ∧
    job = publishJob draft job.jobId job.cleanJobs

/-- The jobs in the window, in the queue and in the log. -/
structure Shelved (env : Env) (w : World) : Prop where
  made : ∀ job ∈ pushed w, Made env job
  distinct : ∀ a ∈ pushed w, ∀ b ∈ pushed w, a.jobId = b.jobId → a = b
  window : ∀ e ∈ w.strat.jobs.items, e.1 = e.2.jobId ∧ e.2 ∈ pushed w
  queued : ∀ job ∈ w.posted, job ∈ pushed w
  once : (w.posted.map (·.jobId)).Nodup

section Calls

variable {c : Call} {w w' : World} {x : Answer c}

theorem jobs_offWork (h : DeskCall c w x w') (hc : OffWork c) :
    w'.strat.jobs = w.strat.jobs := by
  have hs := h.strat
  cases c <;> simp only [StratStep] at hs <;> first | exact hc.elim | simp_all

theorem pushed_offWork (h : DeskCall c w x w') (hc : OffWork c) : pushed w' = pushed w := by
  unfold pushed
  rw [h.log]
  cases c <;> first | exact hc.elim | rfl

theorem posted_offWork (h : DeskCall c w x w') (hc : OffWork c) : w'.posted = w.posted := by
  rw [h.posted]
  cases c <;> first | exact hc.elim | rfl

end Calls

section Shelves

variable {env : Env} {w w' : World}

/-- Only the window, the queue and the pushed jobs matter. -/
theorem Shelved.transfer (h : Shelved env w) (hj : w'.strat.jobs = w.strat.jobs)
    (hp : pushed w' = pushed w) (hq : w'.posted.Sublist w.posted) : Shelved env w' where
  made := hp ▸ h.made
  distinct := hp ▸ h.distinct
  window := by rw [hj, hp]; exact h.window
  queued := by rw [hp]; exact fun job hm => h.queued job (hq.subset hm)
  once := h.once.sublist (hq.map _)

theorem Shelved.call {c : Call} {x : Answer c} (h : Shelved env w) (hs : DeskCall c w x w')
    (hc : OffWork c) : Shelved env w' :=
  h.transfer (jobs_offWork hs hc) (pushed_offWork hs hc) (posted_offWork hs hc ▸ .refl _)

theorem pushed_published (width32 : Bool) (job : MiningJob) :
    pushed (w.published width32 job) = job :: pushed w := by
  unfold pushed World.published workEvents
  cases job.cleanJobs <;> rfl

theorem made_of_jobOf {gbt : Json} {job : MiningJob} (h : w.jobOf env gbt = some job) :
    Made env job := by
  obtain ⟨draft, hd, rfl⟩ := Option.map_eq_some_iff.mp h
  exact ⟨gbt, draft, hd, rfl⟩

theorem jobId_of_jobOf {gbt : Json} {job : MiningJob} (h : w.jobOf env gbt = some job) :
    job.jobId = w.nextId := by
  obtain ⟨draft, _, rfl⟩ := Option.map_eq_some_iff.mp h
  rfl

/-- A job under a new id goes onto the shelves. -/
theorem Shelved.publish {job : MiningJob} (h : Shelved env w) (width32 : Bool)
    (hmade : Made env job) (fresh : ∀ j ∈ pushed w, j.jobId ≠ job.jobId) :
    Shelved env (w.published width32 job) where
  made := by
    rw [pushed_published]
    intro j hj
    rcases List.mem_cons.mp hj with rfl | hj
    · exact hmade
    · exact h.made j hj
  distinct := by
    rw [pushed_published]
    intro a ha b hb hab
    rcases List.mem_cons.mp ha with rfl | ha' <;> rcases List.mem_cons.mp hb with rfl | hb'
    · rfl
    · exact absurd hab.symm (fresh b hb')
    · exact absurd hab (fresh a ha')
    · exact h.distinct a ha' b hb' hab
  window := by
    rw [pushed_published]
    intro e he
    rcases JobWindow.mem_push he with he | rfl
    · exact ⟨(h.window e he).1, List.mem_cons_of_mem _ (h.window e he).2⟩
    · exact ⟨rfl, List.mem_cons_self⟩
  queued := by
    rw [pushed_published]
    intro j hj
    rcases List.mem_append.mp hj with hj | hj
    · exact List.mem_cons_of_mem _ (h.queued j hj)
    · rw [List.mem_singleton.mp hj]
      exact List.mem_cons_self
  once := by
    show ((w.posted ++ [job]).map (·.jobId)).Nodup
    rw [List.map_append, List.map_singleton, List.nodup_append]
    refine ⟨h.once, List.nodup_singleton _, ?_⟩
    intro i hi k hk
    rw [List.mem_singleton.mp hk]
    obtain ⟨j, hj, rfl⟩ := List.mem_map.mp hi
    exact fresh j (h.queued j hj)

/-- The id of a job in the window finds that job. -/
theorem Shelved.find (h : Shelved env w) {id : Str} {job : MiningJob}
    (hf : w.strat.jobs.find id = some job) : job.jobId = id ∧ job ∈ pushed w := by
  obtain ⟨hid, hp⟩ := h.window _ (JobWindow.mem_jobs_of_find hf)
  exact ⟨hid.symm, hp⟩

theorem Shelved.latest (h : Shelved env w) {job : MiningJob}
    (hl : w.strat.jobs.latest = some job) : job ∈ pushed w := by
  obtain ⟨id, hm⟩ := JobWindow.mem_jobs_of_latest hl
  exact (h.window _ hm).2

theorem Made.front {job : MiningJob} (h : Made env job) :
    job.notifyPrefix = { jobId := job.jobId, coinbase1 := job.coinbase1,
                         prevhash := prevhashStratum job.previousblockhash } := by
  obtain ⟨_, draft, _, hj⟩ := h
  rw [hj]
  rfl

end Shelves

theorem shelved_initial {env : Env} {isV2 : Bool} {d : DeskState} (h : Initial env isV2 d) :
    Shelved env d.world := by
  obtain ⟨_, _, _, rfl⟩ := h
  constructor <;> simp [pushed]

end MkPool.Published
