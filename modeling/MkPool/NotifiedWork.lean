import MkPool.Effects
import MkPool.Play

/-! # A V1 miner hashes the coinbase the pool rebuilds

The coinbase a submit is checked against is built from the job, the payout
script and the commitment kept for the job, all as they are when the share
arrives. The miner built its own from the last notify it was sent. The two are
the same as long as nothing is sent or changed behind the other's back, which a
plain emission of a spliced job does. -/
namespace MkPool.NotifiedWork
open MkPool.Lib.Interaction MkPool.Utils MkPool.Config MkPool.Job MkPool.Coinbase
open MkPool.Stratifier MkPool.Calls MkPool.ClientSession MkPool.Tasks MkPool.Desk
open MkPool.Published MkPool.Effects MkPool.Stratum MkPool.Submit MkPool.Play

/-! ## The last notify -/

/-- The notify an event writes. -/
def notifyIn : Event → Option Notify
  | ⟨.send (.notify n), _⟩ => some n
  | _ => none

/-- The last notify written for a job id. -/
def lastNotify (w : World) (id : Str) : Option Notify :=
  (w.log.filterMap notifyIn).find? fun n => n.front.jobId = id

/-- A share of a notified job still in the window is checked against the
coinbase of the last notify for the job. -/
def Agrees (env : Env) (d : DeskState) : Prop :=
  ∀ id job n, d.world.strat.jobs.find id = some job → lastNotify d.world id = some n →
    ∀ extranonce2, sessionCoinbase env d.session job id extranonce2 =
      n.front.coinbase1 ++ d.session.extranonce1 ++ extranonce2 ++ n.coinbase2

theorem lastNotify_send {w w' : World} {n : Notify}
    (hs : DeskCall (.send (.notify n)) w () w') (id : Str) :
    lastNotify w' id = if n.front.jobId = id then some n else lastNotify w id := by
  unfold lastNotify
  rw [hs.log, List.filterMap_cons_some (f := notifyIn) (b := n) rfl, List.find?_cons]
  by_cases h : n.front.jobId = id <;> simp [h]

theorem lastNotify_cons {w w' : World} {c : Call} {x : Answer c} (hs : DeskCall c w x w')
    (hc : ∀ n, c ≠ .send (.notify n)) (id : Str) : lastNotify w' id = lastNotify w id := by
  have hn : notifyIn ⟨c, x⟩ = none := by
    unfold notifyIn
    split
    · rename_i n _ he
      exact absurd (Sigma.mk.inj he).1 (hc n)
    · rfl
  unfold lastNotify
  rw [hs.log, List.filterMap_cons_none hn]

theorem lastNotify_quiet {w w' : World} {c : Call} {x : Answer c} (hs : DeskCall c w x w')
    (hc : Quiet c) (id : Str) : lastNotify w' id = lastNotify w id :=
  lastNotify_cons hs (fun n h => by rw [h] at hc; exact hc) id

theorem lastNotify_published (w : World) (width32 : Bool) (job : MiningJob) (id : Str) :
    lastNotify (w.published width32 job) id = lastNotify w id := by
  unfold lastNotify World.published workEvents
  cases job.cleanJobs <;> rfl

/-! ## The condition -/

/-- The session keeps a commitment for the job. -/
def Spliced (s : Session) (job : MiningJob) : Prop := job.jobId ∈ s.sessionAuxJobs

/-- A notified job of the window that is not the latest. -/
def OlderNotified (w : World) (job : MiningJob) : Prop :=
  job ∈ w.strat.jobs.jobs ∧ w.strat.jobs.latest ≠ some job ∧ lastNotify w job.jobId ≠ none

/-- The script an authorization installs. -/
def payoutScript (env : Env) (req : AuthRequest) : Str :=
  if env.coin.chain = .zcash then bytesToHex (env.zcash.taddrToScript req.addr)
  else Address.scriptPubkeyHex req.decoded

/-- **The steps that keep the miner's coinbase and the pool's together.** The
latest job is sent again only when no commitment is kept for it; the payout
script changes only when no older job was notified; the map of commitments is
emptied only when no notified job in the window has one; a new job has a new
id. -/
def Careful (env : Env) (d : DeskState) : Input → Prop
  | .task t readings =>
    ((Turn.mk env d.session readings t).Emits →
      ∀ job, d.world.strat.jobs.latest = some job → ¬ Spliced d.session job) ∧
    ∀ req, (Turn.mk env d.session readings t).authorizes = some req →
      payoutScript env req = d.session.workerScriptHex ∨ ∀ job, ¬ OlderNotified d.world job
  | .notify =>
    256 < d.session.sessionAuxJobs.entries.length →
      ∀ job ∈ d.world.strat.jobs.jobs, lastNotify d.world job.jobId ≠ none →
        ¬ Spliced d.session job
  | .work _ jobId => ∀ job ∈ pushed d.world, job.jobId ≠ jobId
  | .others .. => True

/-! ## The invariant -/

/-- The notify has the coinbase the session would rebuild for the job. -/
structure Matches (env : Env) (s : Session) (job : MiningJob) (n : Notify) : Prop where
  front : n.front.coinbase1 = activeCoinbase1 s job job.jobId
  payout : n.coinbase2 = buildSessionCoinbase2 env job s.workerScriptHex

/-- Every notified job in the window matches its last notify, but for one that
may be left out. -/
structure Inv (env : Env) (skip : Option MiningJob) (d : DeskState) : Prop where
  shelved : Shelved env d.world
  notified : ∀ id, lastNotify d.world id ≠ none → ∃ job ∈ pushed d.world, job.jobId = id
  kept : ∀ id ∈ d.session.sessionAuxJobs, ∃ job ∈ pushed d.world, job.jobId = id
  waiting : ∀ job ∈ d.world.posted, ¬ Spliced d.session job
  address : ∀ id ∈ d.session.sessionAuxJobs, d.session.auxDogeAddress ≠ []
  agree : ∀ job ∈ d.world.strat.jobs.jobs, some job ≠ skip →
    ∀ n, lastNotify d.world job.jobId = some n → Matches env d.session job n

/-- The session fields the rebuilt coinbase is made of. -/
def payFields (s : Session) : (AList fun _ : Str => SessionAuxJob) × Str × Str :=
  (s.sessionAuxJobs, s.auxDogeAddress, s.workerScriptHex)

section Steps

variable {env : Env} {skip : Option MiningJob}

theorem Matches.congr {s t : Session} {job : MiningJob} {n : Notify} (h : Matches env s job n)
    (hp : payFields t = payFields s) : Matches env t job n := by
  obtain ⟨hmap, haddr, hscript⟩ : t.sessionAuxJobs = s.sessionAuxJobs ∧
      t.auxDogeAddress = s.auxDogeAddress ∧ t.workerScriptHex = s.workerScriptHex := by
    simpa [payFields] using hp
  refine ⟨?_, ?_⟩
  · rw [h.front]
    unfold activeCoinbase1
    rw [hmap, haddr]
  · rw [h.payout, hscript]

/-- The same shelves, the same notifies and the same fields. -/
theorem Inv.transfer {s t : Session} {w w' : World} (h : Inv env skip ⟨s, w⟩) (hs : Still w w')
    (hl : ∀ id, lastNotify w' id = lastNotify w id) (hp : payFields t = payFields s) :
    Inv env skip ⟨t, w'⟩ := by
  obtain ⟨hmap, haddr, hscript⟩ : t.sessionAuxJobs = s.sessionAuxJobs ∧
      t.auxDogeAddress = s.auxDogeAddress ∧ t.workerScriptHex = s.workerScriptHex := by
    simpa [payFields] using hp
  refine ⟨Shelved.still h.shelved hs, ?_, ?_, ?_, ?_, ?_⟩
  · intro id hid
    rw [hl] at hid
    rw [hs.pushed]
    exact h.notified id hid
  · intro id hid
    rw [hs.pushed]
    exact h.kept id (hmap ▸ hid)
  · intro job hj hk
    rw [hs.posted] at hj
    exact h.waiting job hj (show _ ∈ _ from hmap ▸ hk)
  · intro id hid
    show t.auxDogeAddress ≠ []
    rw [haddr]
    exact h.address id (hmap ▸ hid)
  · intro job hj hskip n hn
    rw [hs.jobs] at hj
    rw [hl] at hn
    exact (h.agree job hj hskip n hn).congr hp

/-- One more notify, for a pushed job. The job need not have matched before,
and must match now unless it is still left out. -/
theorem Inv.send {skip' : Option MiningJob} {s : Session} {w w' : World} {job : MiningJob}
    {n : Notify} (h : Inv env skip ⟨s, w⟩) (hs : DeskCall (.send (.notify n)) w () w')
    (hid : n.front.jobId = job.jobId) (hpushed : job ∈ pushed w)
    (hmatch : some job ≠ skip' → Matches env s job n)
    (hskip : ∀ j, some j ≠ skip' → j ≠ job → some j ≠ skip) : Inv env skip' ⟨s, w'⟩ := by
  have still := still_of_call hs trivial
  refine ⟨Shelved.still h.shelved still, ?_, ?_, ?_, h.address, ?_⟩
  · intro id hn
    rw [still.pushed]
    rw [lastNotify_send hs] at hn
    split at hn
    · rename_i he
      exact ⟨job, hpushed, hid ▸ he⟩
    · exact h.notified id hn
  · rw [still.pushed]
    exact h.kept
  · rw [still.posted]
    exact h.waiting
  · intro j hj hne m hm
    rw [still.jobs] at hj
    rw [lastNotify_send hs] at hm
    obtain ⟨e, hmem, rfl⟩ := List.mem_map.mp hj
    split at hm
    · rename_i he
      obtain rfl : e.2 = job :=
        h.shelved.distinct _ (h.shelved.window e hmem).2 _ hpushed (he ▸ hid)
      cases hm
      exact hmatch hne
    · rename_i he
      refine h.agree _ hj (hskip _ hne ?_) m hm
      rintro rfl
      exact he hid

/-- Where no commitment is kept, the job's own coinbase1 is active. -/
theorem activeCoinbase1_plain {s : Session} {job : MiningJob} (h : ¬ Spliced s job) :
    activeCoinbase1 s job job.jobId = job.coinbase1 := by
  unfold activeCoinbase1
  rw [AList.lookup_eq_none.mpr h]
  split <;> rfl

theorem matches_plain {s : Session} {job : MiningJob} {forceClean : Bool} (hm : Made env job)
    (h : ¬ Spliced s job) :
    Matches env s job (notifyOf env s job job.notifyPrefix forceClean) := by
  refine ⟨?_, rfl⟩
  rw [activeCoinbase1_plain h]
  show job.notifyPrefix.coinbase1 = job.coinbase1
  rw [hm.front]

theorem Inv.emit {skip' : Option MiningJob} {s : Session} {w w' : World} {job : MiningJob}
    {forceClean : Bool} (h : Inv env skip ⟨s, w⟩) (hpushed : job ∈ pushed w)
    (hs : DeskCall (.send (.notify (notifyOf env s job job.notifyPrefix forceClean))) w () w')
    (hplain : some job ≠ skip' → ¬ Spliced s job)
    (hskip : ∀ j, some j ≠ skip' → j ≠ job → some j ≠ skip) : Inv env skip' ⟨s, w'⟩ := by
  have hm := h.shelved.made job hpushed
  refine h.send hs ?_ hpushed (fun hne => matches_plain hm (hplain hne)) hskip
  show job.notifyPrefix.jobId = job.jobId
  rw [hm.front]

/-! ## New work -/

theorem Inv.publish {s : Session} {w : World} {job : MiningJob} (h : Inv env none ⟨s, w⟩)
    (width32 : Bool) (hmade : Made env job) (fresh : ∀ j ∈ pushed w, j.jobId ≠ job.jobId) :
    Inv env none ⟨s, w.published width32 job⟩ := by
  have unseen : lastNotify w job.jobId = none := by
    by_contra hne
    obtain ⟨j, hj, he⟩ := h.notified _ hne
    exact fresh j hj he
  refine ⟨h.shelved.publish width32 hmade fresh, ?_, ?_, ?_, h.address, ?_⟩
  · intro id hn
    rw [lastNotify_published] at hn
    rw [pushed_published]
    obtain ⟨j, hj, he⟩ := h.notified id hn
    exact ⟨j, List.mem_cons_of_mem _ hj, he⟩
  · intro id hk
    rw [pushed_published]
    obtain ⟨j, hj, he⟩ := h.kept id hk
    exact ⟨j, List.mem_cons_of_mem _ hj, he⟩
  · intro j hj
    rcases List.mem_append.mp hj with hj | hj
    · exact h.waiting j hj
    · obtain rfl := List.mem_singleton.mp hj
      intro hk
      obtain ⟨i, hi, he⟩ := h.kept _ hk
      exact fresh i hi he
  · intro j hj _ n hn
    rw [lastNotify_published] at hn
    obtain ⟨e, hmem, rfl⟩ := List.mem_map.mp hj
    rcases JobWindow.mem_push hmem with hmem | rfl
    · exact h.agree _ (List.mem_map_of_mem hmem) (by simp) n hn
    · rw [unseen] at hn
      cases hn

/-! ## Notifications -/

theorem Inv.pop {s : Session} {w : World} {job : MiningJob} {rest : List MiningJob}
    (h : Inv env skip ⟨s, w⟩) (head : w.posted = job :: rest) :
    Inv env skip ⟨s, { w with posted := rest }⟩ where
  shelved := h.shelved.transfer rfl rfl (by rw [head]; exact List.sublist_cons_self _ _)
  notified := h.notified
  kept := h.kept
  waiting := fun j hj => h.waiting j (by rw [head]; exact List.mem_cons_of_mem _ hj)
  address := h.address
  agree := h.agree

theorem mem_insertBounded {α : Type} {m : AList fun _ : Str => α} {key id : Str} {v : α}
    (h : id ∈ insertBounded m key v) : id = key ∨ id ∈ m := by
  unfold insertBounded at h
  rcases (AList.mem_insert _).mp h with h | h
  · exact .inl h
  · split at h
    · exact absurd h (AList.notMem_empty _)
    · exact .inr h

/-- A commitment kept for one job is not read for another, unless room had to
be made. -/
theorem activeCoinbase1_withAuxJob {s : Session} {id : Str} {aux : SessionAuxJob}
    {job : MiningJob} (hne : job.jobId ≠ id)
    (hroom : 256 < s.sessionAuxJobs.entries.length → ¬ Spliced s job) :
    activeCoinbase1 (withAuxJob s id aux) job job.jobId = activeCoinbase1 s job job.jobId := by
  by_cases hlen : 256 < s.sessionAuxJobs.entries.length
  · rw [activeCoinbase1_plain (hroom hlen), activeCoinbase1_plain]
    intro hk
    rcases mem_insertBounded hk with he | hk
    · exact hne he
    · exact hroom hlen hk
  · have hlook : (withAuxJob s id aux).sessionAuxJobs.lookup job.jobId =
        s.sessionAuxJobs.lookup job.jobId := by
      show (insertBounded s.sessionAuxJobs id aux).lookup job.jobId = _
      unfold insertBounded
      rw [if_neg hlen, AList.lookup_insert_ne hne]
    unfold activeCoinbase1
    rw [hlook]
    rfl

theorem activeCoinbase1_spliced {s : Session} {job : MiningJob} {aux : SessionAuxJob}
    (haddr : s.auxDogeAddress ≠ []) :
    activeCoinbase1 (withAuxJob s job.jobId aux) job job.jobId =
      spliceCommit job.coinbase1 aux.auxCommit := by
  have hlook : (withAuxJob s job.jobId aux).sessionAuxJobs.lookup job.jobId = some aux :=
    AList.lookup_insert _
  unfold activeCoinbase1
  rw [hlook, if_neg]
  simpa [withAuxJob] using haddr

/-- Keeping a commitment leaves the other jobs matched. -/
theorem Inv.keep {s : Session} {w : World} {job : MiningJob} {aux : SessionAuxJob}
    (h : Inv env none ⟨s, w⟩) (hpushed : job ∈ pushed w) (haddr : s.auxDogeAddress ≠ [])
    (hwait : job.jobId ∉ w.posted.map (·.jobId))
    (hroom : 256 < s.sessionAuxJobs.entries.length →
      ∀ j ∈ w.strat.jobs.jobs, lastNotify w j.jobId ≠ none → ¬ Spliced s j) :
    Inv env (some job) ⟨withAuxJob s job.jobId aux, w⟩ := by
  refine ⟨h.shelved, h.notified, ?_, ?_, fun _ _ => haddr, ?_⟩
  · intro id hk
    rcases mem_insertBounded hk with rfl | hk
    · exact ⟨job, hpushed, rfl⟩
    · exact h.kept id hk
  · intro j hj hk
    rcases mem_insertBounded hk with he | hk
    · exact hwait (List.mem_map.mpr ⟨j, hj, he⟩)
    · exact h.waiting j hj hk
  · intro j hj hne n hn
    obtain ⟨hfront, hpay⟩ := h.agree j hj (by simp) n hn
    obtain ⟨e, hmem, rfl⟩ := List.mem_map.mp hj
    have hid : e.2.jobId ≠ job.jobId := by
      intro he
      have := h.shelved.distinct _ (h.shelved.window e hmem).2 _ hpushed he
      exact hne (congrArg some this)
    refine ⟨?_, hpay⟩
    rw [activeCoinbase1_withAuxJob hid fun hlen => hroom hlen _ hj (by simp [hn])]
    exact hfront

theorem Inv.notify {s : Session} {w w' : World} {job : MiningJob} {rest : List MiningJob}
    {o : Outcome} (hchain : env.coin.chain ≠ .zcash) (hv : s.isV2 = false)
    (h : Inv env none ⟨s, w⟩) (hok : Careful env ⟨s, w⟩ .notify) (head : w.posted = job :: rest)
    (run : desk.Exec (notifyNewJob env s job) { w with posted := rest } o w') :
    Inv env none ⟨o.session, w'⟩ := by
  have hmem : job ∈ w.posted := by rw [head]; exact List.mem_cons_self
  have hpushed : job ∈ pushed w := h.shelved.queued job hmem
  have hwait : job.jobId ∉ rest.map (·.jobId) := by
    have hnodup := h.shelved.once
    rw [head, List.map_cons, List.nodup_cons] at hnodup
    exact hnodup.1
  have hpop := h.pop head
  rcases notify_cases hv run with ⟨ho, rfl⟩ | ⟨aux, haddr, _, _, _, ho, hs⟩ | ⟨_, run⟩
  · rw [ho]
    exact hpop
  · rw [ho]
    refine (hpop.keep hpushed haddr hwait hok).send hs rfl hpushed ?_ ?_
    · exact fun _ => ⟨(activeCoinbase1_spliced haddr).symm, rfl⟩
    · exact fun j _ hne he => hne (Option.some.inj he)
  · obtain ⟨rfl, hs⟩ := emitJob_cases hchain run
    exact hpop.emit hpushed hs (fun _ => h.waiting job hmem) fun _ hne _ => hne

/-! ## Effects -/

theorem payFields_of_diffless {s t : Session} (h : diffless t = diffless s) :
    payFields t = payFields s := by
  have hmap := congrArg Session.sessionAuxJobs h
  have haddr := congrArg Session.auxDogeAddress h
  have hscript := congrArg Session.workerScriptHex h
  unfold payFields
  rw [show t.sessionAuxJobs = s.sessionAuxJobs from hmap,
    show t.auxDogeAddress = s.auxDogeAddress from haddr,
    show t.workerScriptHex = s.workerScriptHex from hscript]

theorem payFields_of_core {s t : Session} (h : core t = core s) : payFields t = payFields s := by
  refine payFields_of_diffless ?_
  unfold diffless
  rw [h]

/-- What a task of the turn may rely on from effect to effect. -/
structure Carry (T : Turn) (skip : Option MiningJob) (a : DeskState) : Prop where
  inv : Inv T.env skip a
  emits : T.Emits → ∀ job, a.world.strat.jobs.latest = some job → ¬ Spliced a.session job
  authorizes : ∀ req, T.authorizes = some req →
    a.world.strat.jobs.latest = skip ∧
    (payoutScript T.env req = a.session.workerScriptHex ∨
      ∀ job ∈ a.world.strat.jobs.jobs, some job ≠ skip → lastNotify a.world job.jobId = none)

/-- Where nothing is sent and the fields stay, all is carried over. -/
theorem Carry.transfer {T : Turn} {s t : Session} {w w' : World} (h : Carry T skip ⟨s, w⟩)
    (hs : Still w w') (hl : ∀ id, lastNotify w' id = lastNotify w id)
    (hp : payFields t = payFields s) : Carry T skip ⟨t, w'⟩ := by
  obtain ⟨hmap, _, hscript⟩ : t.sessionAuxJobs = s.sessionAuxJobs ∧
      t.auxDogeAddress = s.auxDogeAddress ∧ t.workerScriptHex = s.workerScriptHex := by
    simpa [payFields] using hp
  refine ⟨h.inv.transfer hs hl hp, ?_, ?_⟩
  · intro he job hj hk
    rw [hs.jobs] at hj
    exact h.emits he job hj (show _ ∈ _ from hmap ▸ hk)
  · intro req hreq
    obtain ⟨hlatest, hpay⟩ := h.authorizes req hreq
    rw [hs.jobs]
    refine ⟨hlatest, hpay.imp (fun hpay => hpay.trans hscript.symm) fun hnone => ?_⟩
    intro job hj hne
    rw [hl]
    exact hnone job hj hne

theorem Carry.emit {T : Turn} {s : Session} {w w' : World} {job : MiningJob} {forceClean : Bool}
    (h : Carry T skip ⟨s, w⟩) (may : T.Emits) (latest : w.strat.jobs.latest = some job)
    (hs : DeskCall (.send (.notify (notifyOf T.env s job job.notifyPrefix forceClean))) w () w') :
    Carry T skip ⟨s, w'⟩ := by
  have still := still_of_call hs trivial
  have hpushed := h.inv.shelved.latest latest
  refine ⟨h.inv.emit hpushed hs (fun _ => h.emits may job latest) fun _ hne _ => hne, ?_, ?_⟩
  · rw [still.jobs]
    exact h.emits
  · intro req hreq
    obtain ⟨hlatest, hpay⟩ := h.authorizes req hreq
    rw [still.jobs]
    refine ⟨hlatest, hpay.imp_right fun hnone => ?_⟩
    intro j hj hne
    rw [lastNotify_send hs, if_neg]
    · exact hnone j hj hne
    · intro he
      obtain ⟨e, hmem, rfl⟩ := List.mem_map.mp hj
      have hid : job.jobId = e.2.jobId := by
        rw [← he]
        show job.jobId = job.notifyPrefix.jobId
        rw [(h.inv.shelved.made job hpushed).front]
      have heq := h.inv.shelved.distinct _ hpushed _ (h.inv.shelved.window e hmem).2 hid
      exact hne (by rw [← hlatest, latest, heq])

/-- The payout script changes where it may. -/
theorem Carry.payout {T : Turn} {s : Session} {w : World} {req : AuthRequest}
    (h : Carry T skip ⟨s, w⟩) (auth : T.authorizes = some req) :
    Carry T skip ⟨withPayout T.env s req, w⟩ := by
  obtain ⟨hlatest, hpay⟩ := h.authorizes req auth
  refine ⟨⟨h.inv.shelved, h.inv.notified, h.inv.kept, h.inv.waiting, h.inv.address, ?_⟩,
    h.emits, ?_⟩
  · intro job hj hne n hn
    rcases hpay with hscript | hnone
    · obtain ⟨hfront, hsecond⟩ := h.inv.agree job hj hne n hn
      refine ⟨hfront, hsecond.trans ?_⟩
      show buildSessionCoinbase2 T.env job s.workerScriptHex =
        buildSessionCoinbase2 T.env job (payoutScript T.env req)
      rw [hscript]
    · rw [hnone job hj hne] at hn
      cases hn
  · intro req' hreq
    obtain rfl : req = req' := Option.some.inj (auth.symm.trans hreq)
    exact ⟨hlatest, .inl rfl⟩

/-- With an address to splice for, the commitments kept are those used before:
there are none where there was no address. -/
theorem Carry.doge {T : Turn} {s : Session} {w : World} {addr script : Str}
    (h : Carry T skip ⟨s, w⟩) (haddr : addr ≠ []) : Carry T skip ⟨withDoge s addr script, w⟩ := by
  refine ⟨⟨h.inv.shelved, h.inv.notified, h.inv.kept, h.inv.waiting, fun _ _ => haddr, ?_⟩,
    h.emits, h.authorizes⟩
  intro job hj hne n hn
  obtain ⟨hfront, hsecond⟩ := h.inv.agree job hj hne n hn
  refine ⟨hfront.trans ?_, hsecond⟩
  by_cases hk : Spliced s job
  · have hold : s.auxDogeAddress ≠ [] := h.inv.address _ hk
    unfold activeCoinbase1
    rw [if_neg (by simpa using hold), if_neg (by simpa [withDoge] using haddr)]
    rfl
  · rw [activeCoinbase1_plain hk, activeCoinbase1_plain]
    exact hk

theorem Carry.effect {T : Turn} {a b : DeskState} (h : Carry T skip a) (he : Effect T a b) :
    Carry T skip b := by
  cases he with
  | quiet hc hs =>
    exact h.transfer (still_of_call hs (offWork_of_quiet hc)) (lastNotify_quiet hs hc) rfl
  | tidy hcore => exact h.transfer (.refl _) (fun _ => rfl) (payFields_of_core hcore)
  | emit may latest hs => exact h.emit may latest hs
  | advertise _ same hs =>
    have hp := payFields_of_diffless same
    exact h.transfer (still_of_call hs trivial) (lastNotify_cons hs (by simp)) hp
  | observe => exact h.transfer (.refl _) (fun _ => rfl) rfl
  | tooEasy _ hs =>
    exact h.transfer (still_of_call hs trivial) (lastNotify_cons hs (by simp)) rfl
  | auxBlock _ _ hs =>
    exact h.transfer (still_of_call hs trivial) (lastNotify_cons hs (by simp)) rfl
  | payout auth => exact h.payout auth
  | doge _ addr script haddr => exact h.doge haddr

theorem Carry.effects {T : Turn} {a b : DeskState} (h : Carry T skip a) (he : EffectRun T a b) :
    Carry T skip b := by
  induction he with
  | refl => exact h
  | tail _ he ih => exact ih.effect he

/-! ## Tasks -/

/-- The last step of an authorization sends the latest job, the one that may
have been left out. -/
theorem Carry.finishAuth {T : Turn} {s : Session} {w w' : World} {idJson : Str} {o : Outcome}
    {req : AuthRequest} (hchain : T.env.coin.chain ≠ .zcash) (h : Carry T skip ⟨s, w⟩)
    (auth : T.authorizes = some req) (may : T.Emits)
    (run : desk.Exec (finishAuth T.env s idJson) w o w') : Inv T.env none ⟨o.session, w'⟩ := by
  unfold Stratum.finishAuth at run
  obtain ⟨_, w₁, hs, run⟩ := run.perform_inv
  have h₁ := h.effect (.quiet (show Quiet (.send (.result idJson)) from trivial) hs)
  obtain ⟨minerId, w₂, hs, run⟩ := run.perform_inv
  have h₂ := h₁.effect (.quiet (show Quiet (.ensureMiner _ _) from trivial) hs)
  have h₃ : Carry T skip ⟨{ s with minerId := minerId, authorized := true }, w₂⟩ :=
    h₂.transfer (.refl _) (fun _ => rfl) rfl
  unfold emitLatest at run
  obtain ⟨x, w₄, hs, run⟩ := run.perform_inv
  have h₄ := h₃.effect (.quiet (show Quiet .latestJob from trivial) hs)
  obtain ⟨hlatest, _⟩ := h₄.authorizes req auth
  obtain ⟨hx, hst⟩ := hs.strat
  rw [← hst] at hx
  cases x with
  | none =>
    obtain ⟨rfl, rfl⟩ := run.ret_inv
    obtain rfl : skip = none := hlatest.symm.trans hx.symm
    exact h₄.inv
  | some job =>
    obtain ⟨rfl, hs⟩ := emitJob_cases hchain run
    obtain rfl : skip = some job := hlatest.symm.trans hx.symm
    exact h₄.inv.emit (h₄.inv.shelved.latest hx.symm) hs (fun _ => h₄.emits may job hx.symm)
      fun j _ hne he => hne (Option.some.inj he)

/-- A task that completes no authorization leaves nothing out. -/
theorem Inv.task {s : Session} {w w' : World} {t : Task} {readings : Set ℚ} {o : Outcome}
    (hchain : env.coin.chain ≠ .zcash) (hv : IsV1 ⟨s, w⟩) (offered : Task.Offered ⟨s, w⟩ t)
    (h : Inv env none ⟨s, w⟩) (hok : Careful env ⟨s, w⟩ (.task t readings))
    (run : desk.Exec (t.prog env s) { w with readings } o w') : Inv env none ⟨o.session, w'⟩ := by
  obtain ⟨hemits, hauth⟩ := hok
  have h₀ : Inv env none ⟨s, { w with readings }⟩ :=
    h.transfer ⟨rfl, rfl, rfl⟩ (fun _ => rfl) rfl
  cases ha : (Turn.mk env s readings t).authorizes with
  | none =>
    have carry : Carry ⟨env, s, readings, t⟩ none ⟨s, { w with readings }⟩ :=
      ⟨h₀, hemits, fun req hreq => by rw [ha] at hreq; cases hreq⟩
    exact (carry.effects (hv.effects offered run)).inv
  | some req =>
    have may : (Turn.mk env s readings t).Emits := by
      unfold Turn.Emits
      split
      · rename_i msg ht
        obtain rfl : t = .line (some msg) := ht
        cases ha
      · simp [ha]
    have carry : Carry ⟨env, s, readings, t⟩ w.strat.jobs.latest ⟨s, { w with readings }⟩ := by
      refine ⟨⟨h₀.shelved, h₀.notified, h₀.kept, h₀.waiting, h₀.address, ?_⟩, hemits, ?_⟩
      · exact fun job hj _ => h₀.agree job hj (by simp)
      · intro req' hreq
        refine ⟨rfl, (hauth req' hreq).imp_right fun hnone job hj hne => ?_⟩
        by_contra hn
        exact hnone job ⟨hj, Ne.symm hne, hn⟩
    obtain ⟨s₁, heff, hv₁, run⟩ := authorizes_run ha (hv.doge offered) run
    obtain ⟨s₂, w₂, heff', run⟩ := proceedAuth_run ha may hchain hv₁ rfl run
    exact ((carry.effects heff).effects heff').finishAuth hchain ha may run

end Steps

/-! ## Runs -/

theorem inv_initial {env : Env} {d : DeskState} (h : Initial env false d) : Inv env none d := by
  have hs := shelved_initial h
  obtain ⟨_, _, _, rfl⟩ := h
  refine ⟨hs, ?_, ?_, ?_, ?_, ?_⟩ <;> simp [lastNotify, Session.new, JobWindow.jobs]

theorem inv_reach {env : Env} {d : DeskState} (hchain : env.coin.chain ≠ .zcash)
    (h : Reach env false (Careful env) d) : Inv env none d := by
  refine (v1_invariant (I := fun d => Inv env none d) ?_ ?_ ?_ ?_ ?_ ?_ h).2
  · exact fun d => inv_initial
  · exact fun s w nextId h => h.transfer ⟨rfl, rfl, rfl⟩ (fun _ => rfl) rfl
  · exact fun s w t readings o w' hv offered h hok run => h.task hchain hv offered hok run
  · exact fun s w job rest o w' hv h hok head run => h.notify hchain hv.v1 hok head run
  · intro s w gbt jobId job h hok hj
    have h' : Inv env none ⟨s, { w with nextId := jobId }⟩ :=
      h.transfer ⟨rfl, rfl, rfl⟩ (fun _ => rfl) rfl
    refine h'.publish _ (made_of_jobOf hj) ?_
    rw [jobId_of_jobOf hj]
    exact hok
  · exact fun s w seenShares bestShareRound h => h.transfer ⟨rfl, rfl, rfl⟩ (fun _ => rfl) rfl

/-- **The pool rebuilds the coinbase the miner was sent.** In every run of
careful steps, for every notified job still in the window. -/
theorem notified_work_agrees (env : Env) (d : DeskState) (hchain : env.coin.chain ≠ .zcash)
    (h : Reach env false (Careful env) d) : Agrees env d := by
  have inv := inv_reach hchain h
  intro id job n hf hn extranonce2
  obtain ⟨rfl, _⟩ := inv.shelved.find hf
  have hmem : job ∈ d.world.strat.jobs.jobs :=
    List.mem_map.mpr ⟨_, JobWindow.mem_jobs_of_find hf, rfl⟩
  obtain ⟨hfront, hpay⟩ := inv.agree job hmem (by simp) n hn
  unfold sessionCoinbase rebuildCoinbase
  rw [hfront, hpay, List.append_assoc _ d.session.extranonce1]

/-! ## Two runs -/

def sampleId : Str := "0100000000000000".toList

/-- A miner connects, is authorized, and is notified of a job with the pool's
Dogecoin work. -/
def firstJob : List (Replies × Move) :=
  [(usual, .line (request "mining.subscribe" [])),
    (usual, .line (request "mining.authorize" ["miner.1", "x"])),
    (usual, .validated none true),
    (usual, .work (sampleTemplate 'a' 'b') sampleId),
    (usual, .notify)]

/-- The same miner then subscribes to extranonces. -/
def jobTwice : List (Replies × Move) :=
  firstJob ++ [(usual, .line (request "mining.extranonce.subscribe" []))]

/-- Nothing was kept yet, and nothing published when the first job is. -/
def startingUp (d : DeskState) : Move → Bool
  | .notify => d.session.sessionAuxJobs.entries.isEmpty
  | _ => d.session.sessionAuxJobs.entries.isEmpty && (pushed d.world).isEmpty
      && d.world.strat.jobs.items.isEmpty

theorem careful_startingUp {r : Replies} {d : DeskState} {m : Move} {i : Input}
    (hc : startingUp d m = true) (hi : m.input r d = some i) : Careful sampleEnv d i := by
  have hkept : d.session.sessionAuxJobs.entries = [] := by
    cases m <;> simp_all [startingUp]
  have unkept (job : MiningJob) : ¬ Spliced d.session job := by
    intro hk
    have hk' := AList.mem_keys.mp hk
    simp [AList.keys, hkept] at hk'
  have hnone : i ≠ .notify → pushed d.world = [] ∧ d.world.strat.jobs.items = [] := by
    cases m <;> simp_all [startingUp, Move.input]
  cases i with
  | task t readings =>
    refine ⟨fun _ job _ => unkept job, fun req _ => .inr fun job hold => ?_⟩
    have hj := hold.1
    simp [JobWindow.jobs, (hnone (by simp)).2] at hj
  | notify => exact fun _ job _ _ => unkept job
  | work gbt jobId =>
    intro job hj
    rw [(hnone (by simp)).1] at hj
    cases hj
  | others => trivial

/-- A first job is notified in a careful run, and the two coinbases agree. -/
theorem notified_work_agrees_first :
    ∃ d, ((d.world.strat.jobs.find sampleId).isSome = true ∧
      (lastNotify d.world sampleId).isSome = true) ∧ Agrees sampleEnv d := by
  have h : (play sampleEnv startingUp (start sampleEnv false) firstJob).any (fun d =>
      (d.world.strat.jobs.find sampleId).isSome && (lastNotify d.world sampleId).isSome) = true := by
    decide +kernel
  obtain ⟨d, hd, hx⟩ := (Option.any_eq_true _ _).mp h
  have hreach := reach_of_play (Careful sampleEnv) (fun _ _ _ _ hc hi =>
    careful_startingUp hc hi) reach_start hd
  exact ⟨d, by simpa using hx, notified_work_agrees sampleEnv d (by decide) hreach⟩

/-- The coinbase of the sample job is another than its last notify describes. -/
def differs (d : DeskState) : Bool :=
  match d.world.strat.jobs.find sampleId, lastNotify d.world sampleId with
  | some job, some n => decide (sessionCoinbase sampleEnv d.session job sampleId [] ≠
      n.front.coinbase1 ++ d.session.extranonce1 ++ [] ++ n.coinbase2)
  | _, _ => false

/-- **A spliced job that is sent again is sent plain.** The coinbase of the
last notify is then not the one a share is checked against. -/
theorem spliced_job_sent_plain :
    ∃ env d, env.coin.chain ≠ .zcash ∧ Reach env false (fun _ _ => True) d ∧ ¬ Agrees env d := by
  have h : (play sampleEnv anyMove (start sampleEnv false) jobTwice).any differs = true := by
    decide +kernel
  obtain ⟨d, hd, hx⟩ := (Option.any_eq_true _ _).mp h
  refine ⟨sampleEnv, d, by decide, reach_of_play _ (fun _ _ _ _ _ _ => trivial) reach_start hd, ?_⟩
  intro agrees
  unfold differs at hx
  split at hx
  · rename_i job n hf hn
    exact of_decide_eq_true hx (agrees sampleId job n hf hn [])
  · cases hx

end MkPool.NotifiedWork
