import MkPool.DeskWatch
import MkPool.Effects
import MkPool.Play

/-! # Dogecoin solves of a V1 session

A share may solve the Dogecoin work its miner was notified of, whatever becomes
of it as a share. Its block has to be submitted, and not again while it is
among the last 512. A session remembers the blocks it submitted in a set that
it empties past 512, and looks at the aux work only where a share is new and
not below the difficulty. -/
namespace MkPool.AuxSolves
open MkPool.Lib.Interaction MkPool.Utils MkPool.Config MkPool.Job MkPool.Coinbase
open MkPool.Stratifier MkPool.Calls MkPool.ClientSession MkPool.Tasks MkPool.Desk
open MkPool.Published MkPool.Effects MkPool.Submit MkPool.ShareWatch MkPool.DeskWatch MkPool.Play

/-! ## Lists without near repetitions -/

section Spread

variable {α : Type} [DecidableEq α]

/-- No value stands twice in a stretch of at most `n` distinct ones. -/
def Spread (n : Nat) (l : List α) : Prop :=
  ∀ seg, seg <:+: l → seg.toFinset.card ≤ n → seg.Nodup

/-- The value is among the first `n` distinct ones. -/
def Recent (n : Nat) (l : List α) (a : α) : Prop :=
  ∃ seg, seg <+: l ∧ a ∈ seg ∧ seg.toFinset.card ≤ n

theorem Spread.cons {n : Nat} {l : List α} {a : α} (h : Spread n l) (ha : ¬ Recent n l a) :
    Spread n (a :: l) := by
  intro seg hseg hcard
  rcases List.infix_cons_iff.mp hseg with hpre | hin
  · rcases List.prefix_cons_iff.mp hpre with rfl | ⟨seg', rfl, hpre'⟩
    · exact List.nodup_nil
    · have hsub : seg'.toFinset ⊆ (a :: seg').toFinset := by
        rw [List.toFinset_cons]
        exact Finset.subset_insert _ _
      have hcard' := (Finset.card_le_card hsub).trans hcard
      refine List.nodup_cons.mpr ⟨fun hm => ha ⟨seg', hpre', hm, hcard'⟩, ?_⟩
      exact h seg' hpre'.isInfix hcard'
  · exact h seg hin hcard

end Spread

/-! ## What the session remembers -/

/-- The set that is kept of the hashes submitted: emptied where it is past its
bound. -/
def remembered : List Str → Finset Str
  | [] => ∅
  | h :: hs => insert h (if 512 < (remembered hs).card then ∅ else remembered hs)

theorem remembered_subset (hs : List Str) : remembered hs ⊆ hs.toFinset := by
  induction hs with
  | nil => exact Finset.empty_subset _
  | cons h hs ih =>
    unfold remembered
    rw [List.toFinset_cons]
    refine Finset.insert_subset_insert h ?_
    split
    · exact Finset.empty_subset _
    · exact ih

/-- Nothing is forgotten before 514 different blocks were submitted. -/
theorem remembered_of_few {hs : List Str} (h : hs.tail.toFinset.card ≤ 512) :
    remembered hs = hs.toFinset := by
  induction hs with
  | nil => rfl
  | cons a hs ih =>
    have hfew : hs.toFinset.card ≤ 512 := h
    have hall : remembered hs = hs.toFinset := by
      refine ih (le_trans (Finset.card_le_card ?_) hfew)
      intro x hx
      exact List.mem_toFinset.mpr (List.tail_subset hs (List.mem_toFinset.mp hx))
    unfold remembered
    rw [hall, if_neg (by omega), List.toFinset_cons]

/-! ## The property -/

/-- The step from `d` to `d'` notifies the session of a job with its own aux
work. -/
structure Hears (env : Env) (d d' : DeskState) (job : MiningJob) (saj : SessionAuxJob) :
    Prop where
  step : Step env d .notify d'
  head : ∃ rest, d.world.posted = job :: rest
  address : d.session.auxDogeAddress ≠ []
  client : env.hasAux = true
  work : buildSessionAux env d.session.dogeScriptHex job = some (some saj)
  sent : ∃ n, d'.world.log = ⟨.send (.notify n), ()⟩ :: d.world.log ∧
    n.front = customPrefix job saj

/-- A run goes on from one state to another. -/
def Onward (env : Env) (ok : DeskState → Input → Prop) : DeskState → DeskState → Prop :=
  Relation.ReflTransGen fun d d' => ∃ i, ok d i ∧ Step env d i d'

/-- In a run to `d`, the session was notified of the job with the aux work. -/
def Notified (env : Env) (ok : DeskState → Input → Prop) (d : DeskState) (job : MiningJob)
    (saj : SessionAuxJob) : Prop :=
  ∃ d₀ d₁, Reach env false ok d₀ ∧ ok d₀ .notify ∧ Hears env d₀ d₁ job saj ∧ Onward env ok d₁ d

/-- Every share scored in the step that meets the target of the aux work
notified for its job has its Dogecoin block submitted by the end. -/
def Submitted (env : Env) (ok : DeskState → Input → Prop) (d d' : DeskState) : Prop :=
  ∀ evs v job saj target, d'.world.log = evs ++ d.world.log → v ∈ evs.filterMap verdictIn →
    v.job = some job → Notified env ok d job saj → hexToBytes saj.auxTarget = some target →
    byteLe v.hash.bytes target = true → saj.dogeBlockHash ∈ auxHashes d'.world

/-- No aux solve is dropped, and none is submitted again among the last 512. -/
structure NoneDropped (env : Env) (ok : DeskState → Input → Prop) : Prop where
  submitted : ∀ d t readings d', Reach env false ok d → ok d (.task t readings) →
    Step env d (.task t readings) d' → Submitted env ok d d'
  spread : ∀ d, Reach env false ok d → Spread 512 (auxHashes d.world)

/-! ## The condition -/

/-- The task submits a share that solves the aux work kept for its job. -/
structure Solves (env : Env) (d : DeskState) (t : Task) (sh : Share) (saj : SessionAuxJob) :
    Prop where
  rebuilt : RebuiltShare env d.session t sh
  found : d.world.strat.jobs.find sh.sub.jobId = some sh.job
  work : auxWorkFor env d.session sh = some saj
  meets : ∃ target, hexToBytes saj.auxTarget = some target ∧ byteLe sh.hash.bytes target = true

/-- A share whose aux work is not looked at: below the difficulty of a session
that is not behind, seen before, or followed by Zcash work that cannot be sent. -/
def Overlooked (env : Env) (d : DeskState) (readings : Set ℚ) (sh : Share) : Prop :=
  ¬ Superseded d.world sh.job ∧ FallsShort env d.session readings sh ∨
    bytesToHex sh.hash.bytes ∈ shareRoom d.world.strat.seenShares ∨
    env.coin.chain = .zcash ∧ ∃ job, d.world.strat.jobs.latest = some job ∧
      zcashJobOf env d.session job = none

/-- **The steps that drop no aux solve.** A share that solves aux work is not
overlooked, unless the block was submitted; a block submitted recently is still
remembered; the kept aux work is emptied only when there is none for a job in
the window; a new job has a new id. -/
def Watchful (env : Env) (d : DeskState) : Input → Prop
  | .task t readings => ∀ sh saj, Solves env d t sh saj →
      (saj.dogeBlockHash ∈ auxHashes d.world ∨ ¬ Overlooked env d readings sh) ∧
      (Recent 512 (auxHashes d.world) saj.dogeBlockHash →
        saj.dogeBlockHash ∈ d.session.dogeSubmitted)
  | .notify => 256 < d.session.sessionAuxJobs.entries.length →
      ∀ job ∈ d.world.strat.jobs.jobs, job.jobId ∉ d.session.sessionAuxJobs
  | .work _ jobId => ∀ job ∈ pushed d.world, job.jobId ≠ jobId
  | .others .. => True

/-! ## What the session keeps -/

/-- The set kept is what is remembered of the blocks submitted. -/
def Remembers (d : DeskState) : Prop := d.session.dogeSubmitted = remembered (auxHashes d.world)

theorem auxHashes_call {c : Call} {w w' : World} {x : Answer c} (hs : DeskCall c w x w')
    (hc : ∀ b, c ≠ .submitAuxBlock b) : auxHashes w' = auxHashes w := by
  unfold auxHashes
  rw [hs.log]
  cases c <;> first | exact absurd rfl (hc _) | rfl

theorem auxHashes_published (w : World) (width32 : Bool) (job : MiningJob) :
    auxHashes (w.published width32 job) = auxHashes w := by
  unfold auxHashes World.published workEvents
  cases job.cleanJobs <;> rfl

section Effects

variable {T : Turn} {a b : DeskState}

theorem Remembers.effect (h : Remembers a) (he : Effect T a b) : Remembers b := by
  unfold Remembers at h ⊢
  cases he with
  | @quiet s w w' c x hc hs =>
    have hne : ∀ b, c ≠ .submitAuxBlock b := by
      rintro b rfl
      exact hc
    rw [auxHashes_call hs hne]
    exact h
  | tidy hcore =>
    have hset := congrArg Session.dogeSubmitted hcore
    exact Eq.trans hset h
  | emit _ _ hs =>
    rw [auxHashes_call hs (by simp)]
    exact h
  | advertise _ same hs =>
    have hset := congrArg Session.dogeSubmitted same
    rw [auxHashes_call hs (by simp)]
    exact Eq.trans hset h
  | tooEasy _ hs =>
    rw [auxHashes_call hs (by simp)]
    exact h
  | @auxBlock s w w' block sh saj _ _ hs =>
    have hw : auxHashes w' = saj.dogeBlockHash :: auxHashes w := by
      unfold auxHashes
      rw [hs.log]
      rfl
    rw [hw]
    show insert saj.dogeBlockHash (dogeSubmittedRoom s) = _
    unfold dogeSubmittedRoom
    rw [show s.dogeSubmitted = _ from h]
    rfl
  | observe | payout | doge => exact h

theorem Remembers.effects (h : Remembers a) (he : EffectRun T a b) : Remembers b := by
  induction he with
  | refl => exact h
  | tail _ he ih => exact ih.effect he

end Effects

section Runs

variable {env : Env} {ok : DeskState → Input → Prop} {d d' : DeskState}

theorem remembers_reach (h : Reach env false ok d) : Remembers d := by
  refine (v1_invariant (I := Remembers) ?_ ?_ ?_ ?_ ?_ ?_ h).2
  · rintro d ⟨_, _, _, rfl⟩
    rfl
  · exact fun s w nextId h => h
  · intro s w t readings o w' hv offered h _ run
    have h' : Remembers ⟨s, { w with readings }⟩ := h
    exact h'.effects (hv.effects offered run)
  · intro s w job rest o w' hv h _ _ run
    have h' : s.dogeSubmitted = remembered (auxHashes { w with posted := rest }) := h
    rcases notify_cases hv.v1 run with ⟨ho, rfl⟩ | ⟨aux, _, _, _, _, ho, hs⟩ | ⟨_, run⟩
    · rw [ho]
      exact h
    · rw [ho]
      unfold Remembers
      rw [auxHashes_call hs (by simp)]
      exact h'
    · obtain ⟨hcore, hw⟩ := emitJob_line run
      have hset := congrArg Session.dogeSubmitted hcore
      refine Eq.trans hset ?_
      rcases hw with rfl | ⟨line, _, hs⟩
      · exact h'
      · rw [auxHashes_call hs (by simp)]
        exact h'
  · intro s w gbt jobId job h _ _
    unfold Remembers
    rw [auxHashes_published]
    exact h
  · exact fun s w seenShares bestShareRound h => h

/-- The aux work of a notified job stays as long as the job is in the window. -/
structure Kept (job : MiningJob) (saj : SessionAuxJob) (d : DeskState) : Prop where
  pushed : job ∈ pushed d.world
  done : job.jobId ∉ d.world.posted.map (·.jobId)
  kept : job ∈ d.world.strat.jobs.jobs →
    d.session.sessionAuxJobs.lookup job.jobId = some saj
  address : d.session.auxDogeAddress ≠ []

variable {job : MiningJob} {saj : SessionAuxJob}

theorem buildSessionAux_fields {script : Str}
    (h : buildSessionAux env script job = some (some saj)) :
    job.auxEnabled = true ∧ saj.auxTarget.length = 64 := by
  unfold buildSessionAux at h
  split at h
  · cases h
  · rename_i hon
    split at h
    · cases h
    · split at h
      · cases h
      · rename_i hlen
        obtain ⟨cb, _, h⟩ := Option.bind_eq_some_iff.mp h
        split at h
        · cases h
        · obtain ⟨root, _, h⟩ := Option.bind_eq_some_iff.mp h
          obtain ⟨hash, _, h⟩ := Option.bind_eq_some_iff.mp h
          cases h
          exact ⟨by simp_all, by simpa using hlen⟩

theorem lookup_withAuxJob_ne {s : Session} {id id' : Str} {aux : SessionAuxJob} (hne : id ≠ id')
    (hroom : ¬ 256 < s.sessionAuxJobs.entries.length) :
    (withAuxJob s id' aux).sessionAuxJobs.lookup id = s.sessionAuxJobs.lookup id := by
  show (insertBounded s.sessionAuxJobs id' aux).lookup id = _
  unfold insertBounded
  rw [if_neg hroom, AList.lookup_insert_ne hne]

theorem Kept.still {s t : Session} {w w' : World} (h : Kept job saj ⟨s, w⟩) (hs : Still w w')
    (hmap : t.sessionAuxJobs = s.sessionAuxJobs)
    (haddr : s.auxDogeAddress ≠ [] → t.auxDogeAddress ≠ []) : Kept job saj ⟨t, w'⟩ := by
  refine ⟨hs.pushed ▸ h.pushed, hs.posted ▸ h.done, ?_, haddr h.address⟩
  intro hj
  rw [hs.jobs] at hj
  show t.sessionAuxJobs.lookup job.jobId = some saj
  rw [hmap]
  exact h.kept hj

theorem Kept.notify {s : Session} {w w' : World} {job' : MiningJob} {rest : List MiningJob}
    {o : Outcome} (h : Kept job saj ⟨s, w⟩) (hv : s.isV2 = false)
    (hok : Watchful env ⟨s, w⟩ .notify) (head : w.posted = job' :: rest)
    (run : desk.Exec (notifyNewJob env s job') { w with posted := rest } o w') :
    Kept job saj ⟨o.session, w'⟩ := by
  have hne : job.jobId ≠ job'.jobId := by
    intro he
    refine h.done ?_
    show job.jobId ∈ w.posted.map (·.jobId)
    rw [head, List.map_cons, he]
    exact List.mem_cons_self
  have hpop : Kept job saj ⟨s, { w with posted := rest }⟩ := by
    refine ⟨h.pushed, fun hm => h.done ?_, h.kept, h.address⟩
    show job.jobId ∈ w.posted.map (·.jobId)
    rw [head, List.map_cons]
    exact List.mem_cons_of_mem _ hm
  rcases notify_cases hv run with ⟨ho, rfl⟩ | ⟨aux, _, _, _, _, ho, hs⟩ | ⟨_, run⟩
  · rw [ho]
    exact hpop
  · rw [ho]
    have still := still_of_call hs trivial
    refine ⟨still.pushed ▸ hpop.pushed, still.posted ▸ hpop.done, ?_, h.address⟩
    intro hj
    rw [still.jobs] at hj
    have hlook := h.kept hj
    refine (lookup_withAuxJob_ne hne fun hfull => ?_).trans hlook
    exact hok hfull job hj (AList.lookup_isSome.mp (by rw [hlook]; rfl))
  · obtain ⟨hcore, hw⟩ := emitJob_line run
    have hmap := congrArg Session.sessionAuxJobs hcore
    have haddr := congrArg Session.auxDogeAddress hcore
    refine hpop.still ?_ hmap fun hne he => hne (haddr.symm.trans he)
    rcases hw with rfl | ⟨line, _, hs⟩
    · exact .refl _
    · exact still_of_call hs trivial

theorem Kept.step {i : Input} (h : Kept job saj d) (hv : IsV1 d) (hok : Watchful env d i)
    (hs : Step env d i d') : Kept job saj d' := by
  cases hs with
  | @task s w w' t readings o offered run =>
    have he := hv.effects offered run
    have still := he.still
    refine h.still ⟨still.jobs, still.pushed, still.posted⟩ ?_ ?_
    · exact (EffectRun.keepsAux he).1
    · exact (EffectRun.keepsAux he).2
  | notify head run => exact h.notify hv.v1 hok head run
  | @work s w w' gbt jobId run =>
    have h' : Kept job saj ⟨s, { w with nextId := jobId }⟩ := h.still ⟨rfl, rfl, rfl⟩ rfl id
    rcases work_cases run with ⟨_, rfl⟩ | ⟨job', hj, rfl⟩
    · exact h'
    · have hne : job.jobId ≠ job'.jobId := by
        rw [jobId_of_jobOf hj]
        exact hok job h.pushed
      refine ⟨?_, ?_, ?_, h.address⟩
      · rw [pushed_published]
        exact List.mem_cons_of_mem _ h'.pushed
      · show job.jobId ∉ (w.posted ++ [job']).map (·.jobId)
        have hdone : job.jobId ∉ w.posted.map (·.jobId) := h.done
        rw [List.map_append, List.mem_append]
        rintro (hm | hm)
        · exact hdone hm
        · exact hne (by simpa using hm)
      · intro hm
        obtain ⟨e, hm, he⟩ := List.mem_map.mp hm
        rcases JobWindow.mem_push hm with hm | rfl
        · exact h.kept (List.mem_map.mpr ⟨e, hm, he⟩)
        · exact absurd (congrArg MiningJob.jobId he.symm) hne
  | others => exact h.still ⟨rfl, rfl, rfl⟩ rfl id

/-- The step that notifies keeps the aux work. -/
theorem Hears.keeps (h : Hears env d d' job saj) (hv : d.session.isV2 = false)
    (hs : Shelved env d.world) : Kept job saj d' := by
  obtain ⟨step, ⟨rest, head⟩, address, client, work, n, sent, front⟩ := h
  cases step with
  | @notify s w w' job' rest' o head' run =>
    obtain ⟨rfl, rfl⟩ := List.cons.inj (head.symm.trans head')
    have hpushed : job ∈ Published.pushed w := hs.queued job (by rw [head]; exact List.mem_cons_self)
    have hdone : job.jobId ∉ rest.map (·.jobId) := by
      have hnodup := hs.once
      rw [head, List.map_cons, List.nodup_cons] at hnodup
      exact hnodup.1
    have enabled : job.auxEnabled = true := by
      exact (buildSessionAux_fields work).1
    rcases notify_cases hv run with ⟨_, rfl⟩ | ⟨aux, _, _, _, haux, ho, hcall⟩ | ⟨hnone, _⟩
    · exact absurd sent (by simp)
    · obtain rfl : saj = aux := Option.some.inj (Option.some.inj (work.symm.trans haux))
      rw [ho]
      have still := still_of_call hcall trivial
      exact ⟨still.pushed ▸ hpushed, still.posted ▸ hdone, fun _ => AList.lookup_insert _, address⟩
    · exact absurd work (hnone address enabled client saj)

theorem fresh_of_watchful (d : DeskState) (gbt : JsonValue.Json) (jobId : Str)
    (h : Watchful env d (.work gbt jobId)) : ∀ job ∈ pushed d.world, job.jobId ≠ jobId := h

theorem kept_of_notified (h : Notified env (Watchful env) d job saj) : Kept job saj d := by
  obtain ⟨d₀, d₁, hreach, hok, hears, honward⟩ := h
  have hv := isV1_reach hreach
  have hstart := hears.keeps hv.v1 (shelved_reach fresh_of_watchful hreach)
  have hreach₁ : Reach env false (Watchful env) d₁ := .step hreach hok hears.step
  suffices h : Reach env false (Watchful env) d ∧ Kept job saj d from h.2
  induction honward with
  | refl => exact ⟨hreach₁, hstart⟩
  | tail _ hstep ih =>
    obtain ⟨i, hi, hs⟩ := hstep
    exact ⟨.step ih.1 hi hs, ih.2.step (isV1_reach ih.1) hi hs⟩

/-! ## Steps -/

/-- A block submitted by a task is that of a share the task submits, and was
not remembered. -/
theorem solves_of_submitted {s : Session} {w w' : World} {t : Task} {readings : Set ℚ}
    {q : Phase} {h : Str} (hseen : Seen env s t { w with readings } q w') (hq : q.aux = some h) :
    ∃ sh saj, Solves env ⟨s, w⟩ t sh saj ∧ h = saj.dogeBlockHash ∧
      saj.dogeBlockHash ∉ s.dogeSubmitted := by
  obtain ⟨evs, hlog, hevs⟩ := hseen.log
  have haux := hseen.aux
  unfold auxHashes at haux
  rw [hlog, List.filterMap_append, hq] at haux
  have hm : h ∈ evs.filterMap auxHashIn := by
    rw [List.append_cancel_right haux]
    simp
  obtain ⟨⟨c, x⟩, he, hh⟩ := List.mem_filterMap.mp hm
  have hex := (hevs _ he).2
  cases c with
  | submitAuxBlock b =>
    obtain ⟨sh, saj, hs⟩ := hex
    obtain ⟨parentHash, _, rfl⟩ := hs.block
    exact ⟨sh, saj, ⟨hs.rebuilt, hs.found, hs.work, hs.meets⟩, (Option.some.inj hh).symm, hs.fresh⟩
  | _ => cases hh

/-- A share of a notified job is tested against the aux work that was kept. -/
theorem Kept.work {s : Session} {w : World} {t : Task} {sh : Share} {script : Str}
    {target : Bytes} (h : Kept job saj ⟨s, w⟩) (hshelved : Shelved env w)
    (hbuilt : buildSessionAux env script job = some (some saj)) (hclient : env.hasAux = true)
    (hr : RebuiltShare env s t sh) (hf : w.strat.jobs.find sh.sub.jobId = some sh.job)
    (hjob : sh.job = job) (htarget : hexToBytes saj.auxTarget = some target)
    (hle : byteLe sh.hash.bytes target = true) : Solves env ⟨s, w⟩ t sh saj := by
  subst hjob
  refine ⟨hr, hf, ?_, target, htarget, hle⟩
  obtain ⟨hon, hlen⟩ := buildSessionAux_fields hbuilt
  obtain ⟨hid, _⟩ := hshelved.find hf
  have hmem : sh.job ∈ w.strat.jobs.jobs :=
    List.mem_map.mpr ⟨_, JobWindow.mem_jobs_of_find hf, rfl⟩
  have hlook : s.sessionAuxJobs.lookup sh.job.jobId = some saj := h.kept hmem
  have haddr : s.auxDogeAddress ≠ [] := h.address
  unfold auxWorkFor
  rw [← hid, hlook, hon]
  simp [haddr, hlen, hclient]

theorem built_of_notified (h : Notified env ok d job saj) :
    env.hasAux = true ∧ ∃ script, buildSessionAux env script job = some (some saj) := by
  obtain ⟨d₀, d₁, _, _, hears, _⟩ := h
  exact ⟨hears.client, _, hears.work⟩

theorem submitted_of_step {t : Task} {readings : Set ℚ} (h : Reach env false (Watchful env) d)
    (hok : Watchful env d (.task t readings)) (hs : Step env d (.task t readings) d') :
    Submitted env (Watchful env) d d' := by
  intro evs v job saj target hlog hv hjob hnotified htarget hle
  have hv1 := isV1_reach h
  have hshelved := shelved_reach fresh_of_watchful h
  have hkept := kept_of_notified hnotified
  have hremembers := remembers_reach h
  obtain ⟨hclient, script, hbuilt⟩ := built_of_notified hnotified
  cases hs with
  | @task s w w' _ _ o offered run =>
    obtain ⟨q, settled, seen⟩ := task_seen run
    have hverdict : q.verdict = some v := by
      have heq := seen.verdicts
      unfold verdicts at heq
      rw [show w'.log = evs ++ w.log from hlog, List.filterMap_append] at heq
      rw [List.append_cancel_right heq] at hv
      exact Option.mem_toList.mp hv
    have hpath : v.path.isV2 = false := by
      by_contra hv2
      obtain ⟨evs', hlog', hevs⟩ := seen.log
      obtain rfl : evs = evs' := List.append_cancel_right (hlog.symm.trans hlog')
      obtain ⟨⟨c, x⟩, he, hve⟩ := List.mem_filterMap.mp hv
      have hex := (hevs _ he).2
      cases c with
      | scored path hash j meets =>
        obtain rfl := Option.some.inj hve
        have message : ∃ msg, t = .message msg := by
          cases path with
          | v2Standard =>
            obtain ⟨sh, ⟨msg, ht, _⟩, _⟩ := hex
            exact ⟨_, ht⟩
          | v2Extended =>
            obtain ⟨sh, ⟨msg, ht, _⟩, _⟩ := hex
            exact ⟨_, ht⟩
          | v1Fresh | v1Stale | v1LowDiff => exact absurd rfl hv2
        obtain ⟨msg, rfl⟩ := message
        have hoff : s.isV2 = true := offered
        exact absurd (hv1.v1.symm.trans hoff) (by simp)
      | _ => cases hve
    obtain ⟨sh, hfound, judged⟩ := seen.share v hverdict hpath
    have hsame : sh.job = job := Option.some.inj (judged.job.symm.trans hjob)
    rw [judged.hash] at hle
    have solves : Solves env ⟨s, w⟩ t sh saj :=
      hkept.work hshelved hbuilt hclient judged.rebuilt judged.found hsame htarget hle
    have haux := seen.aux
    rcases (hok sh saj solves).1 with hold | hlooked
    · show saj.dogeBlockHash ∈ auxHashes w'
      rw [haux]
      exact List.mem_append_right _ hold
    -- The share was new, and not below the difficulty: its aux work was looked at.
    have hnotLow : v.path ≠ .v1LowDiff := by
      intro hlow
      refine hlooked (.inl ⟨fun hsup => ?_, judged.low hlow⟩)
      rw [judged.stale.mpr hsup] at hlow
      cases hlow
    have hfirst : q.first = some true := by
      cases hb : q.first with
      | none => exact absurd hb (settled.registered v hverdict hnotLow (by simp [hpath]))
      | some b =>
        obtain ⟨v', hv', rfl⟩ := seen.first b hb
        obtain rfl := Option.some.inj (hverdict.symm.trans hv')
        refine congrArg some (decide_eq_true fun hdup => hlooked (.inr (.inl ?_)))
        rw [← judged.hash]
        exact hdup
    have hpaths : v.path = .v1Fresh ∨ v.path = .v1Stale := by
      cases hp : v.path <;> simp_all [SharePath.isV2]
    show saj.dogeBlockHash ∈ auxHashes w'
    rcases settled.aux v sh saj target hverdict hpaths hfirst hfound solves.work htarget
      (judged.hash ▸ hle) with hold | hnew | hbroken
    · have hset : s.dogeSubmitted = remembered (auxHashes w) := hremembers
      rw [hset] at hold
      rw [haux]
      exact List.mem_append_right _ (List.mem_toFinset.mp (remembered_subset _ hold))
    · rw [haux, hnew]
      exact List.mem_append_left _ (by simp)
    · obtain ⟨hzcash, j, hlatest, hnone⟩ := hbroken
      exact absurd (.inr (.inr ⟨hzcash, j, seen.learned.latest j hlatest, hnone⟩)) hlooked

theorem spread_reach (h : Reach env false (Watchful env) d) : Spread 512 (auxHashes d.world) := by
  refine Reach.invariant (I := fun d => Spread 512 (auxHashes d.world)) ?_ ?_ h
  · rintro d ⟨_, _, _, rfl⟩ seg hseg _
    rw [List.infix_nil.mp hseg]
    exact List.nodup_nil
  · intro d i d' hd hok hs
    cases hs with
    | @task s w w' t readings o offered run =>
      obtain ⟨q, _, seen⟩ := task_seen run
      have haux := seen.aux
      show Spread 512 (auxHashes w')
      rw [haux]
      cases hq : q.aux with
      | none => exact hd
      | some h =>
        obtain ⟨sh, saj, solves, rfl, hnew⟩ := solves_of_submitted seen hq
        exact hd.cons fun hrecent => hnew ((hok sh saj solves).2 hrecent)
    | @notify s w w' job rest o head run =>
      obtain ⟨q, _, seen⟩ := task_seen run
      have haux := seen.aux
      show Spread 512 (auxHashes w')
      rw [haux]
      cases hq : q.aux with
      | none => exact hd
      | some h =>
        have hseen : Seen env s (.notify job)
          { ({ w with posted := rest } : World) with readings := w.readings } q w' := seen
        obtain ⟨sh, saj, ⟨⟨msg, version, ht, _⟩, _⟩, _⟩ := solves_of_submitted hseen hq
        cases ht
    | @work s w w' gbt jobId run =>
      rcases work_cases run with ⟨_, rfl⟩ | ⟨job, _, rfl⟩
      · exact hd
      · show Spread 512 (auxHashes ({ w with nextId := jobId }.published _ job))
        rw [auxHashes_published]
        exact hd
    | others => exact hd

end Runs

/-- **No aux solve is dropped.** In every run of watchful steps, a share that
meets the target of the aux work its miner was notified of has its block
submitted, and no block is submitted again among the last 512. -/
theorem no_aux_solve_dropped (env : Env) : NoneDropped env (Watchful env) :=
  ⟨fun _ _ _ _ h hok hs => submitted_of_step h hok hs, fun _ h => spread_reach h⟩

/-! ## Two runs -/

def sampleId : Str := "0100000000000000".toList

/-- A miner connects and is authorized, and a job with Dogecoin work is
published. -/
def beforeNotify : List (Replies × Move) :=
  [(usual, .line (request "mining.subscribe" [])),
    (usual, .line (request "mining.authorize" ["miner.1", "x"])),
    (usual, .validated none true),
    (usual, .work (sampleTemplate 'a' 'b') sampleId)]

/-- A share of the job. -/
def sampleShare : Move :=
  .line (request "mining.submit"
    ["miner.1", "0100000000000000", "0000000000000000", "00000000", "00000000"])

/-- A header hash of difficulty 2047 and a bit, as scrypt gives it. -/
def easyHash : Hash256 := lowHash

/-- The pool where every share has that hash, and the difficulty is 1. -/
def easyEnv : Env :=
  { sampleEnv with
    coin := { sampleEnv.coin with activeTier := { startingDifficulty := 1 } }
    hashes := { sha256d := fun _ => sampleHash, scrypt := fun _ => easyHash } }

theorem hash_easy {s : Session} {t : Task} {sh : Share} (h : RebuiltShare easyEnv s t sh) :
    sh.hash = easyHash.reverse := by
  obtain ⟨_, _, _, _, _, _, h⟩ := h
  unfold rebuildShare at h
  split at h
  · cases h
  · dsimp only at h
    split at h
    · split at h
      · rename_i hchain
        cases hchain
      · have hhash := congrArg Share.hash (Rebuilt.share.inj h)
        exact hhash.symm
    · cases h

/-- No share was submitted yet, every share meets the difficulty, and a job is
the first one. -/
def calm (d : DeskState) (m : Move) : Bool :=
  (auxHashes d.world).isEmpty && decide (d.world.strat.seenShares = ∅) &&
    decide (d.session.sessionAuxJobs.entries.length ≤ 256) &&
    decide (d.session.vardiff.current * tolerance easyEnv ≤
      difficultyOf easyEnv.coin.chain easyHash.reverse) &&
    match m with
    | .work .. => (pushed d.world).isEmpty
    | _ => true

theorem watchful_of_calm {r : Replies} {d : DeskState} {m : Move} {i : Input}
    (hc : calm d m = true) (hi : m.input r d = some i) : Watchful easyEnv d i := by
  simp only [calm, Bool.and_eq_true, List.isEmpty_iff, decide_eq_true_eq] at hc
  obtain ⟨⟨⟨⟨haux, hseen⟩, hroom⟩, hdiff⟩, hpushed⟩ := hc
  cases i with
  | task t readings =>
    intro sh saj solves
    refine ⟨.inr ?_, ?_⟩
    · rintro (⟨_, r, _, hlow, _⟩ | hdup | ⟨hzcash, _⟩)
      · unfold Share.diff at hlow
        rw [hash_easy solves.rebuilt] at hlow
        exact absurd hlow (not_lt.mpr hdiff)
      · rw [hseen] at hdup
        exact absurd hdup (by simp [shareRoom])
      · cases hzcash
    · rintro ⟨seg, hseg, hm, _⟩
      rw [haux, List.prefix_nil] at hseg
      subst hseg
      cases hm
  | notify => exact fun hfull => absurd hfull (not_lt.mpr hroom)
  | work gbt jobId =>
    obtain rfl := Move.eq_work hi
    intro job hj
    rw [List.isEmpty_iff.mp hpushed] at hj
    cases hj
  | others => trivial

/-- A share solves the Dogecoin work in a watchful run, and its block is
submitted. -/
theorem no_aux_solve_dropped_once :
    ∃ d : DeskState, (auxHashes d.world).length = 1 ∧ Spread 512 (auxHashes d.world) := by
  have h : (play easyEnv calm (start easyEnv false)
      (beforeNotify ++ [(usual, .notify), (usual, sampleShare)])).any (fun d =>
        decide ((auxHashes d.world).length = 1)) = true := by
    decide +kernel
  obtain ⟨d, hd, hx⟩ := (Option.any_eq_true _ _).mp h
  have hreach := reach_of_play (Watchful easyEnv) (fun _ _ _ _ hc hi =>
    watchful_of_calm hc hi) reach_start hd
  exact ⟨d, of_decide_eq_true hx, (no_aux_solve_dropped easyEnv).spread d hreach⟩

/-- A notification that builds aux work sends it. -/
theorem hears_of_notify {env : Env} {d d' : DeskState} {job : MiningJob} {rest : List MiningJob}
    {saj : SessionAuxJob} (hs : Step env d .notify d') (head : d.world.posted = job :: rest)
    (hopen : d.session.subscribed = true ∧ d.session.closed = false)
    (haddr : d.session.auxDogeAddress ≠ []) (hclient : env.hasAux = true)
    (hwork : buildSessionAux env d.session.dogeScriptHex job = some (some saj)) :
    Hears env d d' job saj := by
  refine ⟨hs, ⟨rest, head⟩, haddr, hclient, hwork, ?_⟩
  cases hs with
  | @notify s w w' job' rest' o head' run =>
    obtain ⟨rfl, rfl⟩ := List.cons.inj (head.symm.trans head')
    replace run : desk.Exec (notifyNewJob env s job) { w with posted := rest } o w' := run
    have hon : job.auxEnabled = true := (buildSessionAux_fields hwork).1
    unfold notifyNewJob at run
    rw [if_neg (by simpa using hopen), if_pos (by simp_all), hwork] at run
    obtain ⟨_, w₁, hcall, run⟩ := run.call_inv
    obtain ⟨rfl, rfl⟩ := run.ret_inv
    exact ⟨_, hcall.log, rfl⟩

/-- The moves of a share below the session's difficulty that solves the aux
work, from just before its job is notified. -/
def lowSolve (d : DeskState) : Bool :=
  match d.world.posted with
  | [] => false
  | job :: _ =>
    match buildSessionAux sampleEnv d.session.dogeScriptHex job with
    | some (some saj) =>
      d.session.subscribed && !d.session.closed && !d.session.auxDogeAddress.isEmpty &&
        (perform sampleEnv usual d .notify).any fun d₁ => (verdicts d₁.world).isEmpty &&
          ((sampleShare.input usual d₁).bind (perform sampleEnv usual d₁)).any fun d₂ =>
            (auxHashes d₂.world).isEmpty && match verdicts d₂.world with
              | [v] => decide (v.job = some job) &&
                  (hexToBytes saj.auxTarget).any fun target => byteLe v.hash.bytes target
              | _ => false
    | _ => false

/-- **A solve below the difficulty is dropped.** -/
theorem low_solve_dropped : ∃ env, ¬ NoneDropped env fun _ _ => True := by
  have h : (play sampleEnv anyMove (start sampleEnv false) beforeNotify).any lowSolve = true := by
    decide +kernel
  obtain ⟨d, hd, hx⟩ := (Option.any_eq_true _ _).mp h
  have hreach : Reach sampleEnv false (fun _ _ => True) d :=
    reach_of_play _ (fun _ _ _ _ _ _ => trivial) reach_start hd
  refine ⟨sampleEnv, fun hnone => ?_⟩
  unfold lowSolve at hx
  split at hx
  · cases hx
  · rename_i job rest head
    split at hx
    · rename_i saj hwork
      simp only [Bool.and_eq_true, Option.any_eq_true, Bool.not_eq_true', List.isEmpty_iff,
        List.isEmpty_eq_false_iff] at hx
      obtain ⟨⟨⟨hsub, hopen⟩, haddr⟩, d₁, h₁, hquiet, d₂, h₂', haux, hv⟩ := hx
      have hs₁ : Step sampleEnv d .notify d₁ := step_of_perform (m := .notify) (r := usual) rfl h₁
      obtain ⟨i, hi, h₂⟩ := Option.bind_eq_some_iff.mp h₂'
      have hs₂ := step_of_perform hi h₂
      obtain ⟨t, readings, rfl⟩ := Move.task_of_line hi
      have hnotified : Notified sampleEnv (fun _ _ => True) d₁ job saj :=
        ⟨d, d₁, hreach, trivial,
          hears_of_notify hs₁ head ⟨hsub, hopen⟩ haddr rfl hwork, .refl⟩
      split at hv
      · rename_i v hverdicts
        simp only [Bool.and_eq_true, decide_eq_true_eq, Option.any_eq_true] at hv
        obtain ⟨hjob, target, htarget, hle⟩ := hv
        have hsub := hnone.submitted d₁ t readings d₂ (.step hreach trivial hs₁) trivial hs₂
        obtain ⟨evs, hlog⟩ : ∃ evs, d₂.world.log = evs ++ d₁.world.log := by
          cases hs₂ with
          | task _ run =>
            obtain ⟨q, _, seen⟩ := task_seen run
            obtain ⟨evs, hlog, _⟩ := seen.log
            exact ⟨evs, hlog⟩
        have hm : v ∈ evs.filterMap verdictIn := by
          have heq : verdicts d₂.world = evs.filterMap verdictIn ++ verdicts d₁.world := by
            unfold verdicts
            rw [hlog, List.filterMap_append]
          rw [hverdicts, hquiet, List.append_nil] at heq
          rw [← heq]
          exact List.mem_cons_self
        have hin := hsub evs v job saj target hlog hm hjob hnotified htarget hle
        rw [haux] at hin
        cases hin
      · cases hv
    · cases hx

end MkPool.AuxSolves
