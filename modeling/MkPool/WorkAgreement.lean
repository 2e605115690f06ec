import MkPool.EmittedWork
import MkPool.Channels

/-! # A Stratum V2 miner hashes the header the pool rebuilds

A share is checked against the job, the payout script and the extranonce as
they are when it arrives. The miner built its header from the last messages it
was sent for the job. An open request sends only the latest job again, so a
script it changes leaves the miner with old work for the others. -/
namespace MkPool.WorkAgreement
open MkPool.Lib MkPool.Lib.Interaction MkPool.Utils MkPool.Config MkPool.Job MkPool.Coinbase
open MkPool.Stratifier MkPool.Sv2Messages MkPool.Calls MkPool.ClientSession MkPool.JsonValue
open MkPool.Tasks MkPool.StratumV2 MkPool.Desk MkPool.Published MkPool.DeskWatch MkPool.SessionV2
open MkPool.JobIds MkPool.EmittedWork MkPool.Play

/-! ## The last messages of a job -/

/-- The work message of a wire id that an event sends. -/
def workIn (id : UInt32) : Event → Option Reply
  | ⟨.sendV2 (.newMiningJob m), _⟩ => if m.jobId = id then some (.newMiningJob m) else none
  | ⟨.sendV2 (.newExtendedMiningJob m), _⟩ =>
    if m.jobId = id then some (.newExtendedMiningJob m) else none
  | _ => none

def prevHashIn (id : UInt32) : Event → Option SetNewPrevHash
  | ⟨.sendV2 (.setNewPrevHash p), _⟩ => if p.jobId = id then some p else none
  | _ => none

/-- The events since the job was pushed, the latest first. -/
def since (w : World) (job : MiningJob) : List Event :=
  w.log.takeWhile fun e => pushedBy e ≠ some job

/-- The last work message sent for a job. -/
def lastWork (w : World) (job : MiningJob) : Option Reply :=
  (since w job).findSome? (workIn (emitIdU32 job.jobId))

/-- The last `SetNewPrevHash` sent for a job. -/
def lastPrevHash (w : World) (job : MiningJob) : Option SetNewPrevHash :=
  (since w job).findSome? (prevHashIn (emitIdU32 job.jobId))

/-! ## The shares that are rebuilt -/

/-- The pool job a share names: the latest by its emitted id, else one of the
window by the window's. -/
def namedJob (jobs : JobWindow) (id : UInt32) : Option MiningJob :=
  match jobs.latest with
  | some j => if emitIdU32 j.jobId = id then some j else jobs.findU32 id
  | none => jobs.findU32 id

/-- The share `handle_submit_shares_v2` makes of a message. -/
def rebuiltStandard (env : Env) (d : DeskState) (msg : SubmitSharesStandard) : Option ShareV2 :=
  match d.session.sv2CustomJobs.lookup msg.jobId with
  | some cj => rebuildCustom env cj msg
  | none => (namedJob d.world.strat.jobs msg.jobId).bind fun job =>
    rebuildStandard env d.session job msg

/-- The share `handle_submit_shares_extended_v2` makes of a message. -/
def rebuiltExtended (env : Env) (d : DeskState) (msg : SubmitSharesExtended) : Option ShareV2 :=
  (namedJob d.world.strat.jobs msg.jobId).bind fun job => rebuildExtended env d.session job msg

/-- The jobs of the window have distinct wire ids. -/
def Distinct (w : World) : Prop :=
  ∀ a ∈ w.strat.jobs.jobs, ∀ b ∈ w.strat.jobs.jobs,
    emitIdU32 a.jobId = emitIdU32 b.jobId → a = b

instance (w : World) : Decidable (Distinct w) :=
  inferInstanceAs (Decidable (∀ a ∈ w.strat.jobs.jobs, ∀ b ∈ w.strat.jobs.jobs,
    emitIdU32 a.jobId = emitIdU32 b.jobId → a = b))

/-- A standard share of a job that was sent is rebuilt with the header of the
messages. -/
def StandardAgrees (env : Env) (d : DeskState) (msg : SubmitSharesStandard) : Prop :=
  ∀ job ∈ d.world.strat.jobs.jobs, emitIdU32 job.jobId = msg.jobId →
    ∀ m p, lastWork d.world job = some (.newMiningJob m) → lastPrevHash d.world job = some p →
      ∃ sh, rebuiltStandard env d msg = some sh ∧
        hexToBytes sh.headerHex = some (standardHeader m p msg)

/-- An extended share of a job that was sent is rebuilt with the header of the
messages and the prefix of the channel. -/
def ExtendedAgrees (env : Env) (d : DeskState) (msg : SubmitSharesExtended) : Prop :=
  ∀ job ∈ d.world.strat.jobs.jobs, emitIdU32 job.jobId = msg.jobId →
    ∀ m p, lastWork d.world job = some (.newExtendedMiningJob m) →
      lastPrevHash d.world job = some p →
      ∀ success : OpenExtendedSuccess,
        (⟨.sendV2 (.openExtendedSuccess success), ()⟩ : Event) ∈ d.world.log →
        ∃ sh, rebuiltExtended env d msg = some sh ∧
          hexToBytes sh.headerHex = some (extendedHeader env m p success.extranoncePrefix msg)

/-- The share an input submits, if it is one, is rebuilt as it was sent. -/
def Agrees (env : Env) (d : DeskState) : Input → Prop
  | .task (.message (.submitSharesStandard msg)) _ => Distinct d.world → StandardAgrees env d msg
  | .task (.message (.submitSharesExtended msg)) _ => Distinct d.world → ExtendedAgrees env d msg
  | _ => True

/-! ## The condition -/

/-- What an open request makes of the fields that work is built from. -/
def reopened (s : Session) (msg : Request) (op : Opening) : Session :=
  { s with
    workerScriptHex := Address.scriptPubkeyHex op.decoded
    isExtendedChannel :=
      match msg with
      | .openExtendedMiningChannel _ => true
      | _ => s.isExtendedChannel }

/-- The job is the one an open request sends again. -/
structure SentAgain (env : Env) (d : DeskState) (msg : Request) (op : Opening) (job : MiningJob) :
    Prop where
  latest : d.world.strat.jobs.latest = some job
  connected : d.session.closed = false
  extranonce : hexToBytes d.session.extranonce1 ≠ none
  work : workFor env (reopened d.session msg op) job ≠ none

/-- **The steps that keep the miner's header and the pool's together.** An open
request keeps the payout script, or no job but the one it sends again has been
sent; no custom job has the id of a share that names a job of the window; a new
job can be read, and its wire id is not that of a waiting one. -/
def Careful (env : Env) (d : DeskState) : Input → Prop
  | .task t _ =>
    (∀ msg op, t = .message msg → opening env msg = some op →
      ∀ job ∈ d.world.strat.jobs.jobs, lastWork d.world job ≠ none →
        Address.scriptPubkeyHex op.decoded = d.session.workerScriptHex ∨
          SentAgain env d msg op job) ∧
    ∀ msg, t = .message (.submitSharesStandard msg) →
      ∀ job ∈ d.world.strat.jobs.jobs, emitIdU32 job.jobId = msg.jobId →
        d.session.sv2CustomJobs.lookup msg.jobId = none
  | .work gbt jobId =>
    ∀ job, ({ d.world with nextId := jobId } : World).jobOf env gbt = some job →
      Readable job ∧ ∀ j ∈ d.world.posted, emitIdU32 j.jobId ≠ emitIdU32 job.jobId
  | _ => True

/-! ## The log after a step -/

section Log

variable {env : Env} {s : Session} {w w' : World} {job : MiningJob}

theorem workIn_plain {e : Event} (h : Plain e.1) (id : UInt32) : workIn id e = none := by
  unfold workIn
  split <;> first | exact h.elim | rfl

theorem prevHashIn_plain {e : Event} (h : Plain e.1) (id : UInt32) : prevHashIn id e = none := by
  unfold prevHashIn
  split <;> first | exact h.elim | rfl

theorem pushedBy_plain {e : Event} (h : Plain e.1) : pushedBy e = none := by
  unfold pushedBy
  split <;> first | exact h.elim | rfl

/-- Events that push nothing come after the push. -/
theorem since_append (evs : List Event) (hlog : w'.log = evs ++ w.log)
    (hevs : ∀ e ∈ evs, pushedBy e ≠ some job) : since w' job = evs ++ since w job := by
  unfold since
  rw [hlog, List.takeWhile_append_of_pos]
  exact fun e he => decide_eq_true (hevs e he)

theorem findSome_append {α : Type} {f : Event → Option α} {evs : List Event}
    (hlog : w'.log = evs ++ w.log) (hpush : ∀ e ∈ evs, pushedBy e ≠ some job)
    (hnone : ∀ e ∈ evs, f e = none) :
    (since w' job).findSome? f = (since w job).findSome? f := by
  rw [since_append evs hlog hpush, List.findSome?_append, List.findSome?_eq_none_iff.mpr hnone,
    Option.none_or]

theorem lastWork_plain {evs : List Event} (hlog : w'.log = evs ++ w.log)
    (hevs : ∀ e ∈ evs, Plain e.1) : lastWork w' job = lastWork w job :=
  findSome_append hlog (fun e he => by rw [pushedBy_plain (hevs e he)]; simp)
    fun e he => workIn_plain (hevs e he) _

theorem lastPrevHash_plain {evs : List Event} (hlog : w'.log = evs ++ w.log)
    (hevs : ∀ e ∈ evs, Plain e.1) : lastPrevHash w' job = lastPrevHash w job :=
  findSome_append hlog (fun e he => by rw [pushedBy_plain (hevs e he)]; simp)
    fun e he => prevHashIn_plain (hevs e he) _

/-! ### A job that was sent -/

theorem workIn_workFor {r : Reply} (h : workFor env s job = some r) (id : UInt32) :
    workIn id ⟨.sendV2 r, ()⟩ = if emitIdU32 job.jobId = id then some r else none := by
  unfold workFor at h
  split at h
  · obtain ⟨m, hm, rfl⟩ := Option.map_eq_some_iff.mp h
    obtain ⟨_, _, hm⟩ := Option.bind_eq_some_iff.mp hm
    obtain ⟨_, _, hm⟩ := Option.bind_eq_some_iff.mp hm
    obtain ⟨_, _, hm⟩ := Option.bind_eq_some_iff.mp hm
    obtain rfl := Option.some.inj hm
    rfl
  · obtain ⟨m, hm, rfl⟩ := Option.map_eq_some_iff.mp h
    obtain ⟨_, _, hm⟩ := Option.bind_eq_some_iff.mp hm
    obtain ⟨_, _, hm⟩ := Option.bind_eq_some_iff.mp hm
    obtain rfl := Option.some.inj hm
    rfl

/-- The world once a job was sent. -/
def sent (w : World) (r : Reply) (p : SetNewPrevHash) : World :=
  { w with log := ⟨.sendV2 (.setNewPrevHash p), ()⟩ :: ⟨.sendV2 r, ()⟩ :: w.log }

theorem since_sent {r : Reply} {p : SetNewPrevHash} {j : MiningJob} :
    since (sent w r p) j =
      ⟨.sendV2 (.setNewPrevHash p), ()⟩ :: ⟨.sendV2 r, ()⟩ :: since w j :=
  since_append [⟨.sendV2 (.setNewPrevHash p), ()⟩, ⟨.sendV2 r, ()⟩] rfl
    (by simp [pushedBy])

theorem lastWork_sent {r : Reply} {p : SetNewPrevHash} (h : workFor env s job = some r)
    (j : MiningJob) : lastWork (sent w r p) j =
      if emitIdU32 job.jobId = emitIdU32 j.jobId then some r else lastWork w j := by
  have hp : workIn (emitIdU32 j.jobId) ⟨.sendV2 (.setNewPrevHash p), ()⟩ = none := rfl
  unfold lastWork
  rw [since_sent, List.findSome?_cons, List.findSome?_cons, hp, workIn_workFor h]
  by_cases hid : emitIdU32 job.jobId = emitIdU32 j.jobId
  · rw [if_pos hid, if_pos hid]
  · rw [if_neg hid, if_neg hid]

theorem lastPrevHash_sent {r : Reply} {p : SetNewPrevHash} (h : workFor env s job = some r)
    (hp : PrevHashOf job p) (j : MiningJob) : lastPrevHash (sent w r p) j =
      if emitIdU32 job.jobId = emitIdU32 j.jobId then some p else lastPrevHash w j := by
  have hr : prevHashIn (emitIdU32 j.jobId) ⟨.sendV2 r, ()⟩ = none := by
    unfold workFor at h
    split at h <;>
    · obtain ⟨m, _, rfl⟩ := Option.map_eq_some_iff.mp h
      rfl
  unfold lastPrevHash
  rw [since_sent, List.findSome?_cons, List.findSome?_cons, hr]
  have hpid : prevHashIn (emitIdU32 j.jobId) ⟨.sendV2 (.setNewPrevHash p), ()⟩ =
      if emitIdU32 job.jobId = emitIdU32 j.jobId then some p else none := by
    rw [← hp.jobId]
    rfl
  rw [hpid]
  by_cases hid : emitIdU32 job.jobId = emitIdU32 j.jobId
  · rw [if_pos hid, if_pos hid]
  · rw [if_neg hid, if_neg hid]

/-! ### A job that was published -/

theorem sent_published {width32 : Bool} {j : MiningJob} (hne : j ≠ job) :
    lastWork (w.published width32 job) j = lastWork w j ∧
      lastPrevHash (w.published width32 job) j = lastPrevHash w j := by
  have hpush : ∀ e ∈ workEvents width32 job.cleanJobs job, pushedBy e ≠ some j := by
    unfold workEvents
    cases job.cleanJobs <;> simp [pushedBy, Ne.symm hne]
  refine ⟨findSome_append rfl hpush ?_, findSome_append rfl hpush ?_⟩
  · unfold workEvents
    cases job.cleanJobs <;> simp [workIn]
  · unfold workEvents
    cases job.cleanJobs <;> simp [prevHashIn]

/-- Nothing was sent for a job that was just published. -/
theorem unsent_published {width32 : Bool} :
    lastWork (w.published width32 job) job = none ∧
      lastPrevHash (w.published width32 job) job = none := by
  have hsince : since (w.published width32 job) job = [⟨.callbacks job, ()⟩] := by
    unfold since World.published workEvents
    simp [pushedBy]
  unfold lastWork lastPrevHash
  rw [hsince]
  exact ⟨rfl, rfl⟩

end Log

/-! ## The window by wire ids -/

/-- Jobs of the window are kept under ids of the pool. -/
def Keyed (jobs : JobWindow) : Prop := ∀ e ∈ jobs.items, e.1 = e.2.jobId ∧ HexId e.1

section Window

variable {jobs : JobWindow} {job : MiningJob} {id : UInt32}

theorem Keyed.wireId (h : Keyed jobs) {e : Str × MiningJob} (he : e ∈ jobs.items) :
    idU32 e.1 = some (emitIdU32 e.2.jobId) := by
  obtain ⟨hid, hhex⟩ := h e he
  rw [idU32_of_hexId hhex, hid]

theorem Keyed.findU32 (h : Keyed jobs) (hf : jobs.findU32 id = some job) :
    job ∈ jobs.jobs ∧ emitIdU32 job.jobId = id := by
  obtain ⟨jobId, hm, hid⟩ := JobWindow.mem_jobs_of_findU32 hf
  refine ⟨List.mem_map_of_mem hm, ?_⟩
  rw [h.wireId hm] at hid
  exact Option.some.inj hid

/-- A wire id of the window names a job. -/
theorem Keyed.exists_findU32 (h : Keyed jobs) (hj : job ∈ jobs.jobs) :
    ∃ found, jobs.findU32 (emitIdU32 job.jobId) = some found := by
  obtain ⟨e, he, rfl⟩ := List.mem_map.mp hj
  have hsome : (jobs.items.reverse.find? fun x => idU32 x.1 = some (emitIdU32 e.2.jobId)).isSome := by
    rw [List.find?_isSome]
    exact ⟨e, List.mem_reverse.mpr he, by simp [h.wireId he]⟩
  obtain ⟨x, hx⟩ := Option.isSome_iff_exists.mp hsome
  exact ⟨x.2, by unfold JobWindow.findU32; rw [hx]; rfl⟩

/-- The latest job is the one its wire id names. -/
theorem Keyed.latest (h : Keyed jobs) (hl : jobs.latest = some job) :
    jobs.findU32 (emitIdU32 job.jobId) = some job := by
  obtain ⟨e, he, rfl⟩ := Option.map_eq_some_iff.mp hl
  obtain ⟨items, hitems⟩ := List.getLast?_eq_some_iff.mp he
  have hid := h.wireId (e := e) (by rw [hitems]; simp)
  unfold JobWindow.findU32
  rw [hitems, List.reverse_append, List.reverse_singleton, List.singleton_append,
    List.find?_cons_of_pos (by simp [hid])]
  rfl

/-- Both look-ups of a submit agree. -/
theorem Keyed.namedJob_eq (h : Keyed jobs) (id : UInt32) : namedJob jobs id = jobs.findU32 id := by
  unfold namedJob
  cases hl : jobs.latest with
  | none => rfl
  | some j =>
    dsimp only
    split
    · rename_i hid
      rw [← hid]
      exact (h.latest hl).symm
    · rfl

theorem Keyed.push (h : Keyed jobs) (hid : HexId job.jobId) : Keyed (jobs.push job.jobId job) := by
  intro e he
  rcases JobWindow.mem_push he with he | rfl
  · exact h e he
  · exact ⟨rfl, hid⟩

/-- A push leaves a wire id to the new job, or to the job that had it. -/
theorem findU32_push {j : MiningJob} (hid : HexId job.jobId)
    (hf : (jobs.push job.jobId job).findU32 id = some j) :
    if emitIdU32 job.jobId = id then j = job else jobs.findU32 id = some j := by
  unfold JobWindow.findU32 JobWindow.push at hf
  dsimp only at hf
  rw [List.reverse_append, List.reverse_singleton, List.singleton_append, List.find?_cons,
    idU32_of_hexId hid] at hf
  by_cases he : emitIdU32 job.jobId = id
  · rw [if_pos he]
    simp only [he, decide_true, Option.map_some, Option.some.injEq] at hf
    exact hf.symm
  · rw [if_neg he]
    simp only [Option.some.injEq, he, decide_false] at hf
    obtain ⟨e, hfound, rfl⟩ := Option.map_eq_some_iff.mp hf
    unfold JobWindow.findU32
    split at hfound
    · cases hitems : jobs.items with
      | nil =>
        rw [hitems] at hfound
        cases hfound
      | cons e₀ items =>
        rw [hitems, List.tail_cons] at hfound
        rw [List.reverse_cons, List.find?_append, hfound]
        rfl
    · rw [hfound]
      rfl

end Window

/-! ## The invariant -/

/-- A session with the same script and extranonce sends the message for the
job. -/
def SentFor (env : Env) (s : Session) (job : MiningJob) (r : Reply) : Prop :=
  ∃ t : Session, t.workerScriptHex = s.workerScriptHex ∧ t.extranonce1 = s.extranonce1 ∧
    workFor env t job = some r

/-- What was sent last for a job of the window is what the session would send,
but for one job that may be left out. -/
structure Inv (env : Env) (skip : Option MiningJob) (d : DeskState) : Prop where
  keyed : Keyed d.world.strat.jobs
  readable : ∀ job ∈ d.world.strat.jobs.jobs, WellFormed job
  waiting : ∀ job ∈ d.world.posted, WellFormed job ∧
    ∀ j, d.world.strat.jobs.findU32 (emitIdU32 job.jobId) = some j → j = job
  extranonce : ∀ msg, (⟨.sendV2 (.openExtendedSuccess msg), ()⟩ : Event) ∈ d.world.log →
    hexToBytes d.session.extranonce1 = some msg.extranoncePrefix
  work : ∀ id job, d.world.strat.jobs.findU32 id = some job → some job ≠ skip →
    ∀ r, lastWork d.world job = some r → SentFor env d.session job r
  prevHash : ∀ id job, d.world.strat.jobs.findU32 id = some job →
    ∀ p, lastPrevHash d.world job = some p → PrevHashOf job p

section Steps

variable {env : Env} {skip : Option MiningJob} {s t : Session} {w w' : World} {job : MiningJob}

theorem SentFor.congr {r : Reply} (h : SentFor env s job r)
    (hscript : t.workerScriptHex = s.workerScriptHex) (hextra : t.extranonce1 = s.extranonce1) :
    SentFor env t job r := by
  obtain ⟨u, hu, hx, hr⟩ := h
  exact ⟨u, hu.trans hscript.symm, hx.trans hextra.symm, hr⟩

/-- Nothing was sent, nothing published, and the fields are the same. -/
theorem Inv.plain (evs : List Event) (h : Inv env skip ⟨s, w⟩)
    (hj : w'.strat.jobs = w.strat.jobs) (hq : w'.posted.Sublist w.posted)
    (hlog : w'.log = evs ++ w.log) (hevs : ∀ e ∈ evs, Plain e.1)
    (hscript : t.workerScriptHex = s.workerScriptHex) (hextra : t.extranonce1 = s.extranonce1) :
    Inv env skip ⟨t, w'⟩ where
  keyed := by rw [hj]; exact h.keyed
  readable := by rw [hj]; exact h.readable
  waiting := by rw [hj]; exact fun job hm => h.waiting job (hq.subset hm)
  extranonce := by
    intro msg hm
    rw [hextra]
    refine h.extranonce msg ?_
    rw [hlog] at hm
    rcases List.mem_append.mp hm with hm | hm
    · exact (hevs _ hm).elim
    · exact hm
  work := by
    intro id job hf hne r hr
    rw [hj] at hf
    rw [lastWork_plain hlog hevs] at hr
    exact (h.work id job hf hne r hr).congr hscript hextra
  prevHash := by
    intro id job hf p hp
    rw [hj] at hf
    rw [lastPrevHash_plain hlog hevs] at hp
    exact h.prevHash id job hf p hp

/-- A job its wire id names was sent by the session. -/
theorem Inv.sent {skip' : Option MiningJob} {r : Reply} {p : SetNewPrevHash}
    (h : Inv env skip ⟨s, w⟩)
    (hnamed : ∀ j, w.strat.jobs.findU32 (emitIdU32 job.jobId) = some j → j = job)
    (hr : workFor env s job = some r) (hp : PrevHashOf job p)
    (hskip : ∀ j, some j ≠ skip' → j ≠ job → some j ≠ skip) :
    Inv env skip' ⟨s, sent w r p⟩ where
  keyed := h.keyed
  readable := h.readable
  waiting := h.waiting
  extranonce := by
    intro msg hm
    refine h.extranonce msg ?_
    rcases List.mem_cons.mp hm with he | hm
    · cases he
    · rcases List.mem_cons.mp hm with he | hm
      · unfold workFor at hr
        split at hr <;>
        · obtain ⟨_, _, rfl⟩ := Option.map_eq_some_iff.mp hr
          cases he
      · exact hm
  work := by
    intro id j hf hne r' hr'
    rw [lastWork_sent hr] at hr'
    split at hr'
    · rename_i hid
      obtain rfl : j = job := hnamed j (by rw [hid, (h.keyed.findU32 hf).2]; exact hf)
      cases hr'
      exact ⟨s, rfl, rfl, hr⟩
    · rename_i hid
      exact h.work id j hf (hskip j hne fun he => hid (by rw [he])) r' hr'
  prevHash := by
    intro id j hf p' hp'
    rw [lastPrevHash_sent hr hp] at hp'
    split at hp'
    · rename_i hid
      obtain rfl : j = job := hnamed j (by rw [hid, (h.keyed.findU32 hf).2]; exact hf)
      cases hp'
      exact hp
    · exact h.prevHash id j hf p' hp'

theorem Inv.publish (h : Inv env none ⟨s, w⟩) (width32 : Bool) (hid : HexId job.jobId)
    (wf : WellFormed job)
    (hfresh : ∀ j ∈ w.posted, emitIdU32 j.jobId ≠ emitIdU32 job.jobId) :
    Inv env none ⟨s, w.published width32 job⟩ where
  keyed := h.keyed.push hid
  readable := by
    intro j hj
    obtain ⟨e, he, rfl⟩ := List.mem_map.mp hj
    rcases JobWindow.mem_push he with he | rfl
    · exact h.readable _ (List.mem_map_of_mem he)
    · exact wf
  waiting := by
    intro j hj
    rcases List.mem_append.mp hj with hj | hj
    · refine ⟨(h.waiting j hj).1, fun k hk => ?_⟩
      have hk := findU32_push hid hk
      rw [if_neg (Ne.symm (hfresh j hj))] at hk
      exact (h.waiting j hj).2 k hk
    · obtain rfl := List.mem_singleton.mp hj
      refine ⟨wf, fun k hk => ?_⟩
      have hk := findU32_push hid hk
      rwa [if_pos rfl] at hk
  extranonce := by
    intro msg hm
    refine h.extranonce msg ?_
    rcases List.mem_append.mp hm with hm | hm
    · unfold workEvents at hm
      cases hc : job.cleanJobs <;> simp [hc] at hm
    · exact hm
  work := by
    intro id j hf _ r hr
    by_cases hj : j = job
    · rw [hj, unsent_published.1] at hr
      cases hr
    · have hf := findU32_push hid hf
      split at hf
      · exact absurd hf hj
      · rw [(sent_published hj).1] at hr
        exact h.work id j hf (by simp) r hr
  prevHash := by
    intro id j hf p hp
    by_cases hj : j = job
    · rw [hj, unsent_published.2] at hp
      cases hp
    · have hf := findU32_push hid hf
      split at hf
      · exact absurd hf hj
      · rw [(sent_published hj).2] at hp
        exact h.prevHash id j hf p hp

/-! ### Calls that send no work -/

theorem Inv.call {c : Call} {x : Answer c} (h : Inv env skip ⟨s, w⟩) (hs : DeskCall c w x w')
    (hc : Plain c) (hoff : OffWork c) : Inv env skip ⟨s, w'⟩ :=
  h.plain [⟨c, x⟩] (jobs_offWork hs hoff) (posted_offWork hs hoff ▸ .refl _) hs.log
    (by simpa using hc) rfl rfl

theorem Inv.send {msg : Reply} (h : Inv env skip ⟨s, w⟩) (hc : Plain (.sendV2 msg))
    (run : desk.Exec (sendV2 t msg) w () w') : Inv env skip ⟨s, w'⟩ := by
  unfold sendV2 at run
  split at run
  · obtain ⟨_, rfl⟩ := run.ret_inv
    exact h
  · obtain ⟨_, w₁, hs, run⟩ := run.call_inv
    obtain ⟨_, rfl⟩ := run.ret_inv
    exact h.call hs hc trivial

theorem jobs_of_sendV2 {msg : Reply} (run : desk.Exec (sendV2 t msg) w () w') :
    w'.strat.jobs = w.strat.jobs := by
  unfold sendV2 at run
  split at run
  · obtain ⟨_, rfl⟩ := run.ret_inv
    rfl
  · obtain ⟨_, w₁, hs, run⟩ := run.call_inv
    obtain ⟨_, rfl⟩ := run.ret_inv
    exact jobs_offWork hs trivial

/-- A channel is announced with the extranonce of the session. -/
theorem Inv.announce {success : OpenExtendedSuccess} (h : Inv env skip ⟨s, w⟩)
    (hx : hexToBytes s.extranonce1 = some success.extranoncePrefix)
    (run : desk.Exec (sendV2 t (.openExtendedSuccess success)) w () w') :
    Inv env skip ⟨s, w'⟩ := by
  unfold sendV2 at run
  split at run
  · obtain ⟨_, rfl⟩ := run.ret_inv
    exact h
  · obtain ⟨_, w₁, hs, run⟩ := run.call_inv
    obtain ⟨_, rfl⟩ := run.ret_inv
    have hw := hs.world
    rw [show _ = _ from hs.strat] at hw
    subst hw
    have hlog (job : MiningJob) : ∀ e ∈ [(⟨.sendV2 (.openExtendedSuccess success), ()⟩ : Event)],
        pushedBy e ≠ some job := by simp [pushedBy]
    refine ⟨h.keyed, h.readable, h.waiting, ?_, ?_, ?_⟩
    · intro msg hm
      rcases List.mem_cons.mp hm with he | hm
      · cases he
        exact hx
      · exact h.extranonce msg hm
    · intro id job hf hne r hr
      refine h.work id job hf hne r ?_
      rw [← hr]
      exact (findSome_append (w := w) rfl (hlog job) (by simp [workIn])).symm
    · intro id job hf p hp
      refine h.prevHash id job hf p ?_
      rw [← hp]
      exact (findSome_append (w := w) rfl (hlog job) (by simp [prevHashIn])).symm

/-! ### Emissions -/

/-- An emission brings the job that was left out up to date. -/
theorem Inv.emit {o : Outcome} (h : Inv env skip ⟨s, w⟩) (wf : WellFormed job)
    (hnamed : ∀ j, w.strat.jobs.findU32 (emitIdU32 job.jobId) = some j → j = job)
    (hskip : skip = none ∨ skip = some job ∧ s.closed = false ∧ workFor env s job ≠ none)
    (run : desk.Exec (emitJobV2 env s job) w o w') : Inv env none ⟨o.session, w'⟩ := by
  obtain ⟨ho, ⟨rfl, hquiet⟩ | ⟨r, p, _, hr, hp, rfl⟩⟩ := emitJobV2_run wf run
  · rw [ho]
    rcases hskip with rfl | ⟨_, hopen, hwork⟩
    · exact h
    · rcases hquiet with hc | hw
      · rw [hopen] at hc
        cases hc
      · exact absurd hw hwork
  · rw [ho]
    refine h.sent hnamed hr hp fun j _ hne => ?_
    rcases hskip with rfl | ⟨rfl, _⟩
    · simp
    · simpa using hne

theorem Inv.emitLatest {o : Outcome} (h : Inv env skip ⟨s, w⟩)
    (hskip : skip = none ∨ ∃ job, skip = some job ∧ w.strat.jobs.latest = some job ∧
      s.closed = false ∧ workFor env s job ≠ none)
    (run : desk.Exec (emitLatestV2 env s) w o w') : Inv env none ⟨o.session, w'⟩ := by
  obtain ⟨x, w₁, hs, run⟩ := run.perform_inv
  have hj := jobs_offWork hs trivial
  have h₁ := h.call hs trivial trivial
  obtain rfl := hs.strat.1
  cases hl : w.strat.jobs.latest with
  | none =>
    rw [hl] at run
    obtain ⟨rfl, rfl⟩ := run.ret_inv
    rcases hskip with rfl | ⟨job, _, hlatest, _⟩
    · exact h₁
    · rw [hl] at hlatest
      cases hlatest
  | some job =>
    rw [hl] at run
    obtain ⟨id, hm⟩ := JobWindow.mem_jobs_of_latest hl
    have hname := h.keyed.latest hl
    refine h₁.emit (h.readable job (List.mem_map_of_mem hm)) ?_ ?_ run
    · intro j hf
      rw [hj, hname] at hf
      exact (Option.some.inj hf).symm
    · refine hskip.imp_right fun ⟨j, hj, hlatest, rest⟩ => ?_
      rw [hl] at hlatest
      cases hlatest
      exact ⟨hj, rest⟩

theorem Inv.finishOpen {o : Outcome} (h : Inv env skip ⟨s, w⟩)
    (hskip : skip = none ∨ ∃ job, skip = some job ∧ w.strat.jobs.latest = some job ∧
      s.closed = false ∧ workFor env s job ≠ none)
    (run : desk.Exec (finishOpen env s) w o w') : Inv env none ⟨o.session, w'⟩ := by
  obtain ⟨minerId, w₁, hs, run⟩ := run.perform_inv
  have hj := jobs_offWork hs trivial
  have h₁ : Inv env skip ⟨s.withMinerId minerId, w₁⟩ :=
    h.plain [⟨.ensureMiner s.workerAddress s.workerName, minerId⟩] hj
      (posted_offWork hs trivial ▸ .refl _) hs.log (by simp [Plain]) rfl rfl
  rw [← hj] at hskip
  rcases thenDo_inv run with ⟨u, w₂, latest, rest⟩ | ⟨u, rfl, latest⟩
  · have h₂ := h₁.emitLatest hskip latest
    obtain ⟨_, w₃, hs, rest⟩ := rest.perform_inv
    obtain ⟨rfl, rfl⟩ := rest.ret_inv
    exact h₂.call hs trivial trivial
  · exact h₁.emitLatest hskip latest

/-! ### Open requests -/

/-- The fields of an open request leave out at most the latest job, and then it
is sent again. -/
theorem Inv.reopen {msg : Request} {op : Opening} (h : Inv env none ⟨s, w⟩)
    (hok : ∀ job ∈ w.strat.jobs.jobs, lastWork w job ≠ none →
      Address.scriptPubkeyHex op.decoded = s.workerScriptHex ∨ SentAgain env ⟨s, w⟩ msg op job)
    (hscript : t.workerScriptHex = Address.scriptPubkeyHex op.decoded)
    (hextra : t.extranonce1 = s.extranonce1) (hclosed : t.closed = s.closed)
    (hext : t.isExtendedChannel = (reopened s msg op).isExtendedChannel) :
    ∃ skip, Inv env skip ⟨t, w⟩ ∧ (skip = none ∨ ∃ job, skip = some job ∧
      w.strat.jobs.latest = some job ∧ t.closed = false ∧ workFor env t job ≠ none ∧
        hexToBytes s.extranonce1 ≠ none) := by
  have fields (skip : Option MiningJob) (hwork : ∀ id job, w.strat.jobs.findU32 id = some job →
      some job ≠ skip → lastWork w job ≠ none → t.workerScriptHex = s.workerScriptHex) :
      Inv env skip ⟨t, w⟩ := by
    refine ⟨h.keyed, h.readable, h.waiting, ?_, ?_, h.prevHash⟩
    · intro success hm
      rw [hextra]
      exact h.extranonce success hm
    · intro id job hf hne r hr
      refine (h.work id job hf (by simp) r hr).congr (hwork id job hf hne ?_) hextra
      rw [hr]
      simp
  by_cases hagain : ∃ job, SentAgain env ⟨s, w⟩ msg op job
  · obtain ⟨job, again⟩ := hagain
    refine ⟨some job, fields _ ?_, .inr ⟨job, rfl, again.latest, hclosed.trans again.connected,
      ?_, again.extranonce⟩⟩
    · intro id j hf hne hsent
      rcases hok j (h.keyed.findU32 hf).1 hsent with hkept | hlast
      · exact hscript.trans hkept
      · exact absurd (hlast.latest.symm.trans again.latest) hne
    · exact fun hnone => again.work (workFor_eq_none hscript hextra hext hnone)
  · refine ⟨none, fields _ ?_, .inl rfl⟩
    intro id j hf _ hsent
    rcases hok j (h.keyed.findU32 hf).1 hsent with hkept | hlast
    · exact hscript.trans hkept
    · exact absurd ⟨j, hlast⟩ hagain

theorem Inv.opened {msg : Request} {op : Opening} {o : Outcome} (h : Inv env none ⟨s, w⟩)
    (hop : opening env msg = some op)
    (hok : ∀ job ∈ w.strat.jobs.jobs, lastWork w job ≠ none →
      Address.scriptPubkeyHex op.decoded = s.workerScriptHex ∨ SentAgain env ⟨s, w⟩ msg op job)
    (run : desk.Exec (processMessageV2 env s msg) w o w') : Inv env none ⟨o.session, w'⟩ := by
  cases msg with
  | openStandardMiningChannel msg =>
    obtain ⟨hd, _, _⟩ := decoded_of_openingFor (s := s) hop
    replace run : desk.Exec (handleOpenStandard env s msg) w o w' := run
    unfold handleOpenStandard at run
    dsimp only at run
    rw [hd] at run
    obtain ⟨r, w₁, hs, run⟩ := run.perform_inv
    obtain ⟨_, w₂, hsend, run⟩ := run.bind_inv
    obtain ⟨skip, h₀, hskip⟩ := h.reopen
      (t := openedStandard env (withIdentity s msg.userIdentity) op.decoded r) hok rfl rfl rfl rfl
    have hlatest : w₂.strat.jobs = w.strat.jobs :=
      (jobs_of_sendV2 hsend).trans (jobs_offWork hs trivial)
    refine ((h₀.call hs trivial trivial).send
      (show Plain (.sendV2 (.openStandardSuccess _)) from trivial) hsend).finishOpen ?_ run
    rw [hlatest]
    exact hskip.imp_right fun ⟨job, he, hl, hc, hw, _⟩ => ⟨job, he, hl, hc, hw⟩
  | openExtendedMiningChannel msg =>
    obtain ⟨hd, _, _⟩ := decoded_of_openingFor (s := s) hop
    replace run : desk.Exec (handleOpenExtended env s msg) w o w' := run
    unfold handleOpenExtended at run
    dsimp only at run
    rw [hd] at run
    obtain ⟨r, w₁, hs, run⟩ := run.perform_inv
    obtain ⟨skip, h₀, hskip⟩ := h.reopen
      (t := openedExtended env (withIdentity s msg.userIdentity) msg op.decoded r)
      hok rfl rfl rfl rfl
    have h₁ := h₀.call hs trivial trivial
    split at run
    · rename_i hnone
      obtain ⟨rfl, rfl⟩ := run.ret_inv
      rcases hskip with rfl | ⟨_, _, _, _, _, hx⟩
      · exact h₁
      · exact absurd hnone hx
    · rename_i extranoncePrefix hx
      obtain ⟨_, w₂, hsend, run⟩ := run.bind_inv
      have hlatest : w₂.strat.jobs = w.strat.jobs :=
        (jobs_of_sendV2 hsend).trans (jobs_offWork hs trivial)
      have h₂ := h₁.announce hx hsend
      have h₃ : Inv env skip ⟨setUp (openedExtended env (withIdentity s msg.userIdentity) msg
          op.decoded r), w₂⟩ := h₂.plain [] rfl (.refl _) rfl (by simp) rfl rfl
      refine h₃.finishOpen ?_ run
      rw [hlatest]
      exact hskip.imp_right fun ⟨job, he, hl, hc, hw, _⟩ => ⟨job, he, hl, hc, hw⟩
  | _ => cases hop

/-! ### Notifications and other tasks -/

theorem Inv.notify {rest : List MiningJob} {o : Outcome} (h : Inv env none ⟨s, w⟩)
    (hv : s.isV2 = true) (head : w.posted = job :: rest)
    (run : desk.Exec (notifyNewJob env s job) { w with posted := rest } o w') :
    Inv env none ⟨o.session, w'⟩ := by
  obtain ⟨wf, hnamed⟩ := h.waiting job (by rw [head]; exact List.mem_cons_self)
  have hpop : Inv env none ⟨s, { w with posted := rest }⟩ :=
    h.plain [] rfl (by rw [head]; exact List.sublist_cons_self _ _) rfl (by simp) rfl rfl
  have plain {w' : World} (run : desk.Exec (notifyPlain env s job) { w with posted := rest } o w') :
      Inv env none ⟨o.session, w'⟩ := by
    unfold notifyPlain at run
    rw [if_pos hv] at run
    exact hpop.emit wf hnamed (.inl rfl) run
  unfold notifyNewJob at run
  split at run
  · obtain ⟨rfl, rfl⟩ := run.ret_inv
    exact hpop
  · split at run
    · split at run
      · obtain ⟨rfl, rfl⟩ := run.ret_inv
        exact hpop
      · exact plain run
      · rename_i aux _
        obtain ⟨_, w₁, hs, run⟩ := run.perform_inv
        obtain ⟨rfl, rfl⟩ := run.ret_inv
        have hsent := hpop.call hs trivial trivial
        exact hsent.plain [] rfl (.refl _) rfl (by simp) rfl rfl
    · exact plain run

/-- A task that opens no channel sends no work. -/
theorem plain_task {t : Task} {readings : Set ℚ} (hv : IsV2 ⟨s, w⟩)
    (offered : Task.Offered ⟨s, w⟩ t) (hop : openedBy env (.task t readings) = none) :
    (t.prog env s).All Plain := by
  cases t with
  | line l => exact absurd (hv.v2.symm.trans offered) (by simp)
  | message msg => exact plain_processMessageV2 hop
  | notify job => exact offered.elim
  | validated v error valid =>
    have hown := hv.asked v offered
    cases v with
    | payout req => exact hown.elim
    | doge req => exact hown.elim
    | payoutV2 addr => exact all_ite trivial (all_ite trivial trivial)
  | resetShareCounters | disconnect => exact trivial

theorem Inv.task {t : Task} {readings : Set ℚ} {o : Outcome} (h : Inv env none ⟨s, w⟩)
    (hv : IsV2 ⟨s, w⟩) (offered : Task.Offered ⟨s, w⟩ t)
    (hok : Careful env ⟨s, w⟩ (.task t readings))
    (run : desk.Exec (t.prog env s) { w with readings } o w') : Inv env none ⟨o.session, w'⟩ := by
  have h₀ : Inv env none ⟨s, { w with readings }⟩ :=
    h.plain [] rfl (.refl _) rfl (by simp) rfl rfl
  cases hop : openedBy env (.task t readings) with
  | none =>
    obtain ⟨q, _, seen⟩ := task_seen run
    obtain ⟨evs, hlog, hevs⟩ := exec_log run (plain_task hv offered hop)
    have hsame := run.yields _ ((task_v2 env hv offered).2.2 readings hop)
    exact h₀.plain evs seen.jobs (seen.posted ▸ .refl _) hlog hevs hsame.script hsame.extranonce1
  | some op =>
    cases t with
    | message msg =>
      refine h₀.opened hop (fun job hj hsent => ?_) run
      exact (hok.1 msg op rfl hop job hj hsent).imp_right fun again =>
        ⟨again.latest, again.connected, again.extranonce, again.work⟩
    | _ => cases hop

theorem Inv.step {d d' : DeskState} {i : Input} (h : Inv env none d) (hv : IsV2 d)
    (hok : Careful env d i) (hs : Step env d i d') : Inv env none d' := by
  cases hs with
  | task offered run => exact h.task hv offered hok run
  | notify head run => exact h.notify hv.v2 head run
  | @work s w w' gbt jobId run =>
    have h₀ : Inv env none ⟨s, { w with nextId := jobId }⟩ :=
      h.plain [] rfl (.refl _) rfl (by simp) rfl rfl
    have hid := hexId_of_work run
    rcases work_cases run with ⟨_, rfl⟩ | ⟨job, hj, rfl⟩
    · exact h₀
    · obtain ⟨hread, hfresh⟩ := hok job hj
      exact h₀.publish _ (hid job hj) ⟨hread, branch_of_made (made_of_jobOf hj)⟩ hfresh
  | others => exact h.plain [] rfl (.refl _) rfl (by simp) rfl rfl

end Steps

/-! ## Runs -/

section Runs

variable {env : Env} {d : DeskState}

theorem inv_reach (h : Reach env true (Careful env) d) : IsV2 d ∧ Inv env none d := by
  refine Reach.invariant (I := fun d => IsV2 d ∧ Inv env none d) ?_ ?_ h
  · intro d hd
    refine ⟨isV2_initial hd, ?_⟩
    obtain ⟨_, _, _, rfl⟩ := hd
    constructor <;> simp [Keyed, JobWindow.jobs, JobWindow.findU32]
  · intro d i d' hd hok hs
    exact ⟨(hd.1.step hs).1, hd.2.step hd.1 hok hs⟩

/-- The wire id of a job of a distinct window names it. -/
theorem Inv.named (h : Inv env none d) (hdist : Distinct d.world) {job : MiningJob}
    (hj : job ∈ d.world.strat.jobs.jobs) :
    d.world.strat.jobs.findU32 (emitIdU32 job.jobId) = some job := by
  obtain ⟨found, hf⟩ := h.keyed.exists_findU32 hj
  obtain ⟨hmem, hid⟩ := h.keyed.findU32 hf
  rw [hf, hdist found hmem job hj hid]

theorem Inv.standardAgrees {msg : SubmitSharesStandard} (h : Inv env none d)
    (hcustom : ∀ job ∈ d.world.strat.jobs.jobs, emitIdU32 job.jobId = msg.jobId →
      d.session.sv2CustomJobs.lookup msg.jobId = none)
    (hdist : Distinct d.world) : StandardAgrees env d msg := by
  intro job hj hid m p hm hp
  have hf := h.named hdist hj
  obtain ⟨t, hscript, hextra, hwork⟩ := h.work _ job hf (by simp) _ hm
  have hm' : newMiningJob env t job = some m := by
    unfold workFor at hwork
    split at hwork
    · obtain ⟨_, _, he⟩ := Option.map_eq_some_iff.mp hwork
      cases he
    · obtain ⟨_, hm', he⟩ := Option.map_eq_some_iff.mp hwork
      cases he
      exact hm'
  obtain ⟨sh, hsh, hread⟩ := rebuildStandard_header (h.readable job hj) hscript hextra hm'
    (h.prevHash _ job hf p hp) msg
  refine ⟨sh, ?_, hread⟩
  unfold rebuiltStandard
  rw [hcustom job hj hid, h.keyed.namedJob_eq, ← hid, hf]
  exact hsh

theorem Inv.extendedAgrees {msg : SubmitSharesExtended} (h : Inv env none d)
    (hdist : Distinct d.world) : ExtendedAgrees env d msg := by
  intro job hj hid m p hm hp success hsuccess
  have hf := h.named hdist hj
  obtain ⟨t, hscript, _, hwork⟩ := h.work _ job hf (by simp) _ hm
  have hm' : newExtendedMiningJob env t job = some m := by
    unfold workFor at hwork
    split at hwork
    · obtain ⟨_, hm', he⟩ := Option.map_eq_some_iff.mp hwork
      cases he
      exact hm'
    · obtain ⟨_, _, he⟩ := Option.map_eq_some_iff.mp hwork
      cases he
  obtain ⟨sh, hsh, hread⟩ := rebuildExtended_header (h.readable job hj) hscript
    (h.extranonce success hsuccess) hm' (h.prevHash _ job hf p hp) msg
  refine ⟨sh, ?_, hread⟩
  unfold rebuiltExtended
  rw [h.keyed.namedJob_eq, ← hid, hf]
  exact hsh

/-- **The pool rebuilds the header the miner was sent.** In every run of
careful steps, for every share of a job that was sent and is in the window. -/
theorem sent_work_agrees (env : Env) (d : DeskState) (i : Input)
    (h : Reach env true (Careful env) d) (hok : Careful env d i) : Agrees env d i := by
  have inv := (inv_reach h).2
  unfold Agrees
  split
  · rename_i msg readings
    exact inv.standardAgrees (hok.2 msg rfl)
  · exact inv.extendedAgrees
  · trivial

theorem Keyed.named {w : World} (h : Keyed w.strat.jobs) {id : UInt32} {job : MiningJob}
    (hn : Named w id job) : namedJob w.strat.jobs id = some job := by
  rw [h.namedJob_eq]
  rcases hn with ⟨hl, rfl⟩ | hf
  · exact h.latest hl
  · exact hf

/-- **The handlers score what is rebuilt.** A share that reaches the target
comparison is the one a submit is rebuilt as. -/
theorem scored_rebuilt {d' : DeskState} {t : Task} {readings : Set ℚ} {evs : List Event}
    (h : Reach env true (Careful env) d) (hs : Step env d (.task t readings) d')
    (hlog : d'.world.log = evs ++ d.world.log) {path : SharePath} {hash : Hash256}
    {job : Option MiningJob} {meets : Bool}
    (he : (⟨.scored path hash job meets, ()⟩ : Event) ∈ evs) :
    ∃ sh : ShareV2, hash = sh.hash ∧
      ((∃ msg, t = .message (.submitSharesStandard msg) ∧ rebuiltStandard env d msg = some sh) ∨
        ∃ msg, t = .message (.submitSharesExtended msg) ∧ rebuiltExtended env d msg = some sh) := by
  obtain ⟨hv, inv⟩ := inv_reach h
  cases hs with
  | @task s w w' _ _ o offered run =>
    obtain ⟨q, _, seen⟩ := task_seen run
    obtain ⟨evs', hlog', hevs⟩ := seen.log
    obtain rfl : evs = evs' := List.append_cancel_right (hlog.symm.trans hlog')
    have judged := (hevs _ he).2
    cases path with
    | v2Standard =>
      obtain ⟨sh, ⟨msg, ht, hsh⟩, hhash, _⟩ := judged
      refine ⟨sh, hhash, .inl ⟨msg, ht, ?_⟩⟩
      unfold rebuiltStandard
      rcases hsh with ⟨hnone, j, hn, hsh⟩ | ⟨cj, hcustom, hsh⟩
      · rw [hnone, inv.keyed.named hn]
        exact hsh
      · rw [hcustom]
        exact hsh
    | v2Extended =>
      obtain ⟨sh, ⟨msg, ht, j, hn, hsh⟩, hhash, _⟩ := judged
      refine ⟨sh, hhash, .inr ⟨msg, ht, ?_⟩⟩
      unfold rebuiltExtended
      rw [inv.keyed.named hn]
      exact hsh
    | v1Fresh | v1Stale | v1LowDiff =>
      obtain ⟨sh, hsh⟩ := judged
      obtain ⟨msg, rfl⟩ := Channels.RebuiltShare.line hsh.rebuilt
      exact absurd (hv.v2.symm.trans offered) (by simp)

end Runs

/-! ## Two runs -/

def sampleId : Str := "0100000000000000".toList

def laterId : Str := "0200000000000000".toList

/-- A pool whose hashes tell texts of different lengths apart. -/
def lengthEnv : Env :=
  { sampleEnv with
    hashes :=
      { sha256d := fun bs => ⟨Wire.leBytes 32 bs.length, Wire.length_leBytes 32 bs.length⟩
        scrypt := fun _ => sampleHash } }

def openForMiner : Request :=
  .openStandardMiningChannel { requestId := 1, userIdentity := "miner.1".toList }

/-- A channel is opened, and a job sent. -/
def sentOnce : List (Replies × Move) :=
  [(usual, .message (.setupConnection 0)), (usual, .message openForMiner),
    (usual, .work (sampleTemplate 'a' 'b') sampleId), (usual, .notify)]

/-- Two jobs are sent, and a channel opened only then. -/
def openedLate : List (Replies × Move) :=
  [(usual, .message (.setupConnection 0)),
    (usual, .work (sampleTemplate 'a' 'b') sampleId), (usual, .notify),
    (usual, .work (sampleTemplate 'a' 'b') laterId), (usual, .notify),
    (usual, .message openForMiner)]

def shareOfFirst : SubmitSharesStandard :=
  { channelId := 1000, sequenceNumber := 1, jobId := 0x01000000, nonce := 0, ntime := 0, version := 1 }

/-- No job waits or is in the window yet, but for one that was published. -/
def settingUp (d : DeskState) : Move → Bool
  | .message _ => d.world.strat.jobs.items.isEmpty
  | .work gbt jobId => d.world.posted.isEmpty &&
      (({ d.world with nextId := jobId } : World).jobOf lengthEnv gbt).all fun job =>
        decide ((hexToBytes job.previousblockhash).map List.length = some 32 ∧
          (hexToBytes job.bits).map List.length = some 4)
  | .notify => true
  | _ => false

theorem careful_settingUp {r : Replies} {d : DeskState} {m : Move} {i : Input}
    (hc : settingUp d m = true) (hi : m.input r d = some i) : Careful lengthEnv d i := by
  cases m with
  | message msg =>
    obtain ⟨readings, rfl⟩ := Move.task_of_message hi
    have hnone : d.world.strat.jobs.jobs = [] := by
      simpa [settingUp, JobWindow.jobs] using hc
    refine ⟨fun msg' op _ _ job hj => ?_, fun msg' _ job hj => ?_⟩
    all_goals
      rw [hnone] at hj
      cases hj
  | work gbt jobId =>
    cases hi
    simp only [settingUp, Bool.and_eq_true, Option.all_eq_true, decide_eq_true_eq,
      List.isEmpty_iff] at hc
    intro job hj
    obtain ⟨hp, hb⟩ := hc.2 job hj
    refine ⟨⟨hp, hb⟩, fun j hmem => ?_⟩
    rw [hc.1] at hmem
    cases hmem
  | notify =>
    cases hi
    trivial
  | line | validated => cases hc

/-- A job is sent on an open channel, and a share of it is rebuilt as it was
sent. -/
theorem sent_work_agrees_once :
    ∃ d : DeskState, (∃ job ∈ d.world.strat.jobs.jobs,
        emitIdU32 job.jobId = shareOfFirst.jobId ∧ (lastWork d.world job).isSome = true ∧
          (lastPrevHash d.world job).isSome = true) ∧
      Agrees lengthEnv d (.task (.message (.submitSharesStandard shareOfFirst)) ∅) := by
  have h : (play lengthEnv settingUp (start lengthEnv true) sentOnce).any (fun d =>
      (d.world.strat.jobs.jobs.any fun job =>
        decide (emitIdU32 job.jobId = shareOfFirst.jobId) && (lastWork d.world job).isSome &&
          (lastPrevHash d.world job).isSome) &&
        d.session.sv2CustomJobs.entries.isEmpty) = true := by
    decide +kernel
  obtain ⟨d, hd, hx⟩ := (Option.any_eq_true _ _).mp h
  have hreach := reach_of_play (Careful lengthEnv) (fun _ _ _ _ hc hi =>
    careful_settingUp hc hi) reach_start hd
  simp only [Bool.and_eq_true, List.any_eq_true, decide_eq_true_eq, List.isEmpty_iff] at hx
  obtain ⟨⟨job, hj, ⟨hid, hwork⟩, hprev⟩, hnone⟩ := hx
  refine ⟨d, ⟨job, hj, hid, hwork, hprev⟩, ?_⟩
  refine sent_work_agrees lengthEnv d _ hreach ⟨?_, ?_⟩
  · intro msg op ht hop
    cases ht
    cases hop
  · intro msg _ _ _ _
    refine AList.lookup_eq_none.mpr fun hk => ?_
    have hk' := AList.mem_keys.mp hk
    simp [AList.keys, hnone] at hk'

/-- The event opens a channel. -/
def opensIn : Event → Bool
  | ⟨.sendV2 (.openStandardSuccess _), _⟩ => true
  | ⟨.sendV2 (.openExtendedSuccess _), _⟩ => true
  | _ => false

/-- The header of the first channel's share is rebuilt otherwise than the
messages of `job` define it. -/
def rebuiltAnew (d : DeskState) (job : MiningJob) : Bool :=
  match lastWork d.world job, lastPrevHash d.world job with
  | some (.newMiningJob m), some p =>
    (rebuiltStandard lengthEnv d shareOfFirst).any fun sh =>
      decide (hexToBytes sh.headerHex ≠ some (standardHeader m p shareOfFirst))
  | _, _ => false

/-- **Work from before a channel is opened goes stale.** Exactly one channel is
opened, and a share of a job that was sent before is rebuilt with another
header than its messages define. -/
theorem earlier_work_rebuilt_anew :
    ∃ env d, Reach env true (fun _ _ => True) d ∧ (d.world.log.filter opensIn).length = 1 ∧
      Distinct d.world ∧ ∃ msg, ¬ StandardAgrees env d msg := by
  have h : (play lengthEnv anyMove (start lengthEnv true) openedLate).any (fun d =>
      decide ((d.world.log.filter opensIn).length = 1) &&
      decide (Distinct d.world) &&
        d.world.strat.jobs.jobs.any fun job =>
          decide (emitIdU32 job.jobId = shareOfFirst.jobId) && rebuiltAnew d job) = true := by
    decide +kernel
  obtain ⟨d, hd, hx⟩ := (Option.any_eq_true _ _).mp h
  simp only [Bool.and_eq_true, List.any_eq_true, decide_eq_true_eq] at hx
  obtain ⟨⟨hone, hdist⟩, job, hj, hid, hx⟩ := hx
  refine ⟨lengthEnv, d, reach_of_play _ (fun _ _ _ _ _ _ => trivial) reach_start hd, hone, hdist,
    shareOfFirst, fun agrees => ?_⟩
  unfold rebuiltAnew at hx
  split at hx
  · rename_i m p hm hp
    obtain ⟨sh, hsh, hread⟩ := agrees job hj hid m p hm hp
    rw [hsh] at hx
    exact of_decide_eq_true hx hread
  · cases hx

end MkPool.WorkAgreement
