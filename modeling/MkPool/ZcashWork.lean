import MkPool.Emissions
import MkPool.NotifiedWork
import MkPool.CustomJobs

/-! # A Zcash miner hashes the root the pool rebuilds

The node's coinbase is redirected to the miner and its root sent with the job. A
share is checked against the root that is kept for its job, or against the
node's where none is kept. What is kept is emptied as a whole when there is too
much of it, while the window still has the jobs. -/
namespace MkPool.ZcashWork
open MkPool.Lib MkPool.Lib.Interaction MkPool.Utils MkPool.Config MkPool.Job MkPool.Coinbase
open MkPool.Merkle MkPool.Stratifier MkPool.Calls MkPool.ClientSession MkPool.JsonValue
open MkPool.Tasks MkPool.Stratum MkPool.Submit MkPool.StratumV2 MkPool.Desk MkPool.Published
open MkPool.Standing MkPool.Admission MkPool.PayoutIdentity MkPool.Effects MkPool.Emissions
open MkPool.Play

/-! ## The last notify -/

/-- The notify for a job id that an event writes. -/
def notifiedIn (id : Str) : Event → Option Line
  | ⟨.send (.notify n), _⟩ => if n.front.jobId = id then some (.notify n) else none
  | ⟨.send (.notifyZcash n), _⟩ => if n.jobId = id then some (.notifyZcash n) else none
  | _ => none

/-- The last notify written for a job id. -/
def lastNotify (w : World) (id : Str) : Option Line := w.log.findSome? (notifiedIn id)

/-- The header up to the nonce, as a miner makes it from a notify. -/
def headerPrefix (n : NotifyZcash) (ntimeS : Str) : Str :=
  n.version ++ n.prevhash ++ n.merkleRoot ++ n.reserved ++ byteReverseHex ntimeS ++ n.bits

/-- The root of a coinbase, through the branch of the job. -/
def rootOf (env : Env) (job : MiningJob) (cbHex : Str) : Option Str := do
  let cb ← hexToBytes cbHex
  computeRootLeHex env.hashes (bytesToHex (env.zcash.zip244Txid cb).bytes) job.merkleBranchLe

/-- The header and the coinbase of a submission are those of the notify. -/
structure Rebuilds (env : Env) (s : Session) (job : MiningJob) (n : NotifyZcash)
    (sub : Submission) : Prop where
  version : (rollVersion env s job sub.versionBits).map leHexU32 = some n.version
  prevhash : byteReverseHex job.previousblockhash = n.prevhash
  reserved : byteReverseHex (if job.reserved.isEmpty then List.replicate 64 '0' else job.reserved)
    = n.reserved
  bits : byteReverseHex job.bits = n.bits
  work : ∃ cbHex, coinbaseAndRoot env s job sub = some (cbHex, n.merkleRoot) ∧
    rootOf env job cbHex = some n.merkleRoot
  header : ∀ version ntimeS, rollVersion env s job sub.versionBits = some version →
    submitHeader env job version n.merkleRoot ntimeS sub.nonceS
      = headerPrefix n ntimeS ++ sub.nonceS

/-- A share of a notified job still in the window is checked against the last
notify for the job. -/
def Agrees (env : Env) (d : DeskState) : Prop :=
  ∀ id job line, d.world.strat.jobs.find id = some job → lastNotify d.world id = some line →
    ∃ n, line = .notifyZcash n ∧ ∀ msg sub, parseSubmit env d.session msg = .ok sub →
      sub.jobId = id → Rebuilds env d.session job n sub

/-! ## The condition -/

/-- The job can be sent from the session: the node's coinbase where nothing is
kept for the job, its own coinbase without emptying what is kept for others. -/
structure Sends (env : Env) (s : Session) (jobs : JobWindow) (job : MiningJob) : Prop where
  plain : zcashJobOf env s job = some none → job.jobId ∉ s.zcashJobs
  room : ∀ zj, zcashJobOf env s job = some (some zj) → 256 < s.zcashJobs.entries.length →
    ∀ j ∈ jobs.jobs, j ≠ job → j.jobId ∉ s.zcashJobs

/-- The notify of the job is a Bitcoin one, with the session's commitment. -/
def Spliced (env : Env) (s : Session) (job : MiningJob) : Prop :=
  s.auxDogeAddress ≠ [] ∧ job.auxEnabled = true ∧ env.hasAux = true ∧
    ∃ aux, buildSessionAux env s.dogeScriptHex job = some (some aux)

/-- The templates of the node: the root of a job is that of its own coinbase. -/
def Consistent (env : Env) (d : DeskState) : Input → Prop
  | .work gbt jobId => ∀ job, ({ d.world with nextId := jobId } : World).jobOf env gbt = some job →
      rootOf env job job.zcashFullCoinbaseHex = some job.zcashMerkleRootLe
  | _ => True

/-- **The steps that keep the miner's root and the pool's together.** Where the
latest job may be sent it can be, also twice by an authorization that advertises
a difficulty; so can the job of a notification; a new job has a new id. -/
def Careful (env : Env) (d : DeskState) : Input → Prop
  | .task t readings => ∀ job, d.world.strat.jobs.latest = some job →
      (completes env d.session (.task t readings) = none →
        (Turn.mk env d.session readings t).Emits → Sends env d.session d.world.strat.jobs job) ∧
      ∀ req, completes env d.session (.task t readings) = some req →
        Sends env (withPayout env d.session req) d.world.strat.jobs job ∧
        (req.customDiff ≠ none → d.session.authorized = true →
          ∀ zj, zcashJobOf env (withPayout env d.session req) job = some (some zj) →
            Sends env ((withPayout env d.session req).withZcashJob job.jobId zj)
              d.world.strat.jobs job)
  | .notify => d.session.subscribed = true → d.session.closed = false →
      ∀ job ∈ d.world.posted.head?,
        Sends env d.session d.world.strat.jobs job ∧ ¬ Spliced env d.session job
  | .work _ jobId => ∀ job ∈ pushed d.world, job.jobId ≠ jobId
  | .others .. => True

/-! ## The invariant -/

/-- The node's coinbase of a job, and its root. -/
def nodeWork (job : MiningJob) : ZcashJob where
  coinbaseHex := job.zcashFullCoinbaseHex
  merkleRootLe := job.zcashMerkleRootLe

/-- What is kept for a job, or the node's work. -/
def keptFor (s : Session) (job : MiningJob) : ZcashJob :=
  (s.zcashJobs.lookup job.jobId).getD (nodeWork job)

/-- The notify of a job with this work. -/
def notifyWith (job : MiningJob) (zj : ZcashJob) (clean : Bool) : NotifyZcash :=
  { zcashNotifyOf job zj.merkleRootLe with clean }

/-- The notify has the root that is kept, and the root is that of its coinbase. -/
def Matches (env : Env) (s : Session) (job : MiningJob) (line : Line) : Prop :=
  (∃ clean, line = .notifyZcash (notifyWith job (keptFor s job) clean)) ∧
    rootOf env job (keptFor s job).coinbaseHex = some (keptFor s job).merkleRootLe

/-- Every notified job in the window matches its last notify. -/
structure Inv (env : Env) (d : DeskState) : Prop where
  shelved : Shelved env d.world
  own : ∀ job ∈ pushed d.world, rootOf env job job.zcashFullCoinbaseHex = some job.zcashMerkleRootLe
  notified : ∀ id, lastNotify d.world id ≠ none → ∃ job ∈ pushed d.world, job.jobId = id
  kept : ∀ id ∈ d.session.zcashJobs, ∃ job ∈ pushed d.world, job.jobId = id
  agree : ∀ job ∈ d.world.strat.jobs.jobs,
    ∀ line, lastNotify d.world job.jobId = some line → Matches env d.session job line

/-- A call that publishes nothing and writes no notify. -/
structure Unheard (c : Call) : Prop where
  work : OffWork c
  plain : ∀ n, c ≠ .send (.notify n)
  zcash : ∀ n, c ≠ .send (.notifyZcash n)

section Steps

variable {env : Env} {s t : Session} {w w' : World} {job : MiningJob} {o : Outcome}

theorem unheard_off {c : Call} (h : Off c) : Unheard c := by
  refine ⟨h.work, fun n hc => ?_, fun n hc => ?_⟩
  · have hs := h.silent
    rw [hc] at hs
    cases hs
  · have hs := h.silent
    rw [hc] at hs
    cases hs

theorem lastNotify_unheard {c : Call} {x : Answer c} (hs : DeskCall c w x w') (hc : Unheard c)
    (id : Str) : lastNotify w' id = lastNotify w id := by
  have hnone : notifiedIn id ⟨c, x⟩ = none := by
    unfold notifiedIn
    split
    · rename_i n _ he
      exact absurd (Sigma.mk.inj he).1 (hc.plain n)
    · rename_i n _ he
      exact absurd (Sigma.mk.inj he).1 (hc.zcash n)
    · rfl
  unfold lastNotify
  rw [hs.log, List.findSome?_cons, hnone]

theorem lastNotify_send {n : NotifyZcash} (hs : DeskCall (.send (.notifyZcash n)) w () w')
    (id : Str) :
    lastNotify w' id = if n.jobId = id then some (.notifyZcash n) else lastNotify w id := by
  unfold lastNotify
  rw [hs.log, List.findSome?_cons]
  by_cases h : n.jobId = id <;> simp [notifiedIn, h]

theorem lastNotify_published (width32 : Bool) (id : Str) :
    lastNotify (w.published width32 job) id = lastNotify w id := by
  unfold lastNotify World.published workEvents
  cases job.cleanJobs <;> rfl

theorem Matches.congr {line : Line} (h : Matches env s job line)
    (hk : t.zcashJobs.lookup job.jobId = s.zcashJobs.lookup job.jobId) :
    Matches env t job line := by
  unfold Matches keptFor at h ⊢
  rw [hk]
  exact h

theorem matches_kept {zj : ZcashJob} {clean : Bool} (hkept : keptFor s job = zj)
    (hroot : rootOf env job zj.coinbaseHex = some zj.merkleRootLe) :
    Matches env s job (.notifyZcash (notifyWith job zj clean)) := by
  subst hkept
  exact ⟨⟨clean, rfl⟩, hroot⟩

/-- The same shelves and notifies, and the same roots kept. -/
theorem Inv.transfer (h : Inv env ⟨s, w⟩) (hs : Still w w')
    (hl : ∀ id, lastNotify w' id = lastNotify w id) (hz : t.zcashJobs = s.zcashJobs) :
    Inv env ⟨t, w'⟩ := by
  refine ⟨Shelved.still h.shelved hs, ?_, fun id hid => ?_, fun id hid => ?_,
    fun j hj line hline => ?_⟩
  · rw [hs.pushed]
    exact h.own
  · rw [hl] at hid
    rw [hs.pushed]
    exact h.notified id hid
  · rw [hs.pushed]
    exact h.kept id (hz ▸ hid)
  · rw [hs.jobs] at hj
    rw [hl] at hline
    exact (h.agree j hj line hline).congr (by rw [hz])

theorem Inv.fields (h : Inv env ⟨s, w⟩) (hz : t.zcashJobs = s.zcashJobs) : Inv env ⟨t, w⟩ :=
  h.transfer (.refl w) (fun _ => rfl) hz

theorem Inv.call {c : Call} {x : Answer c} (h : Inv env ⟨s, w⟩) (hs : DeskCall c w x w')
    (hc : Unheard c) : Inv env ⟨s, w'⟩ :=
  h.transfer (still_of_call hs hc.work) (lastNotify_unheard hs hc) rfl

/-- One more notify for a pushed job, which matches it. -/
theorem Inv.send {n : NotifyZcash} (h : Inv env ⟨s, w⟩)
    (hs : DeskCall (.send (.notifyZcash n)) w () w') (hid : n.jobId = job.jobId)
    (hpushed : job ∈ pushed w) (hkept : ∀ id ∈ t.zcashJobs, id = job.jobId ∨ id ∈ s.zcashJobs)
    (hmatch : Matches env t job (.notifyZcash n))
    (hothers : ∀ j ∈ w.strat.jobs.jobs, j.jobId ≠ job.jobId →
      t.zcashJobs.lookup j.jobId = s.zcashJobs.lookup j.jobId) : Inv env ⟨t, w'⟩ := by
  have still := still_of_call hs trivial
  refine ⟨Shelved.still h.shelved still, ?_, fun id hn => ?_, fun id hk => ?_,
    fun j hj line hline => ?_⟩
  · rw [still.pushed]
    exact h.own
  · rw [still.pushed]
    rw [lastNotify_send hs] at hn
    split at hn
    · rename_i he
      exact ⟨job, hpushed, hid ▸ he⟩
    · exact h.notified id hn
  · rw [still.pushed]
    rcases hkept id hk with rfl | hk
    · exact ⟨job, hpushed, rfl⟩
    · exact h.kept id hk
  · rw [still.jobs] at hj
    rw [lastNotify_send hs] at hline
    obtain ⟨e, hmem, rfl⟩ := List.mem_map.mp hj
    split at hline
    · rename_i he
      obtain rfl : e.2 = job :=
        h.shelved.distinct _ (h.shelved.window e hmem).2 _ hpushed (he ▸ hid)
      cases hline
      exact hmatch
    · rename_i hne
      refine (h.agree _ hj line hline).congr (hothers _ hj ?_)
      rw [← hid]
      exact Ne.symm hne

/-! ### Emission -/

theorem rootOf_zcashJobOf {zj : ZcashJob} (h : zcashJobOf env s job = some (some zj)) :
    rootOf env job zj.coinbaseHex = some zj.merkleRootLe := by
  unfold zcashJobOf at h
  split at h
  · cases h
  · obtain ⟨node, _, h⟩ := Option.bind_eq_some_iff.mp h
    obtain ⟨script, _, h⟩ := Option.bind_eq_some_iff.mp h
    dsimp only at h
    generalize env.zcash.swapMinerOutput node script _ job.donationPercent = swapped at h
    split at h
    · cases h
    · obtain ⟨root, hroot, h⟩ := Option.bind_eq_some_iff.mp h
      cases h
      unfold rootOf
      rw [hexToBytes_bytesToHex]
      exact hroot

theorem notifyZcash_of_made (h : Made env job) :
    job.notifyZcash = zcashNotifyOf job job.zcashMerkleRootLe := by
  obtain ⟨_, draft, _, hj⟩ := h
  rw [hj]
  rfl

theorem lookup_withZcashJob {id : Str} {zj : ZcashJob} (hne : id ≠ job.jobId)
    (hroom : 256 < s.zcashJobs.entries.length → id ∉ s.zcashJobs) :
    (s.withZcashJob job.jobId zj).zcashJobs.lookup id = s.zcashJobs.lookup id := by
  show (insertBounded s.zcashJobs job.jobId zj).lookup id = _
  unfold insertBounded
  rw [AList.lookup_insert_ne hne]
  split
  · rename_i hlen
    rw [AList.lookup_eq_none.mpr (hroom hlen), AList.lookup_empty]
  · rfl

/-- **A job that can be sent matches its notify, and the others keep to theirs.** -/
theorem Inv.emit {forceClean : Bool} (h : Inv env ⟨s, w⟩) (hchain : env.coin.chain = .zcash)
    (hpushed : job ∈ pushed w) (hok : Sends env s w.strat.jobs job)
    (run : desk.Exec (emitJob env s job forceClean) w o w') : Inv env ⟨o.session, w'⟩ := by
  unfold emitJob at run
  rw [if_pos hchain] at run
  split at run
  · obtain ⟨rfl, rfl⟩ := run.ret_inv
    exact h
  · rename_i hnone
    obtain ⟨_, w₁, hs, run⟩ := run.perform_inv
    obtain ⟨rfl, rfl⟩ := run.ret_inv
    have hn := notifyZcash_of_made (h.shelved.made job hpushed)
    have hkept : keptFor s job = nodeWork job := by
      unfold keptFor
      rw [AList.lookup_eq_none.mpr (hok.plain hnone)]
      rfl
    rw [hn] at hs
    exact h.send hs rfl hpushed (fun id hk => .inr hk)
      (matches_kept hkept (h.own job hpushed)) fun _ _ _ => rfl
  · rename_i zj hzj
    obtain ⟨_, w₁, hs, run⟩ := run.perform_inv
    obtain ⟨rfl, rfl⟩ := run.ret_inv
    have hkept : keptFor (s.withZcashJob job.jobId zj) job = zj := by
      have hlook : (s.withZcashJob job.jobId zj).zcashJobs.lookup job.jobId = some zj :=
        AList.lookup_insert _
      unfold keptFor
      rw [hlook]
      rfl
    refine h.send (t := s.withZcashJob job.jobId zj) hs rfl hpushed
      (fun id hk => NotifiedWork.mem_insertBounded hk)
      (matches_kept hkept (rootOf_zcashJobOf hzj)) fun j hj hne => ?_
    refine lookup_withZcashJob hne fun hlen => hok.room zj hzj hlen j hj ?_
    rintro rfl
    exact hne rfl

/-! ### Paths -/

theorem Sends.congr {jobs : JobWindow} (h : Sends env s jobs job)
    (hscript : t.workerScriptHex = s.workerScriptHex) (hz : t.zcashJobs = s.zcashJobs) :
    Sends env t jobs job := by
  refine ⟨fun hnone => ?_, fun zj hzj => ?_⟩
  · rw [hz]
    exact h.plain (zcashJobOf_congr (t := t) hscript ▸ hnone)
  · rw [hz]
    exact h.room zj (zcashJobOf_congr (t := t) hscript ▸ hzj)

theorem unheard_emitJobV2 : (emitJobV2 env s job).All Unheard := by
  have sendV2 {msg : Sv2Messages.Reply} : (sendV2 s msg).All Unheard := by
    unfold StratumV2.sendV2
    split
    · trivial
    · exact ⟨⟨trivial, by simp, by simp⟩, fun _ => trivial⟩
  unfold emitJobV2
  dsimp only
  split
  · trivial
  · refine sendV2.bind fun _ => ?_
    split
    · trivial
    · exact sendV2.bind fun _ => trivial

/-- One emission at most, of a job that can be sent. -/
theorem Inv.path {n : Nat} {a b : DeskState} (p : Path env n a b) (h : Inv env a)
    (hchain : env.coin.chain = .zcash) (hn : n ≤ 1)
    (hok : n = 1 → ∀ job, a.world.strat.jobs.latest = some job →
      Sends env a.session a.world.strat.jobs job) : Inv env b := by
  induction p with
  | stay => exact h
  | call hc hs _ ih =>
    refine ih (h.call hs (unheard_off hc)) hn fun h1 job hjob => ?_
    rw [jobs_offWork hs hc.work] at hjob ⊢
    exact hok h1 job hjob
  | fields htidy _ ih =>
    exact ih (h.fields htidy.zcashJobs) hn fun h1 job hjob =>
      (hok h1 job hjob).congr htidy.script htidy.zcashJobs
  | emit latest run _ ih =>
    refine ih (h.emit hchain (h.shelved.latest latest) (hok (by omega) _ latest) run) (by omega) ?_
    omega
  | @emitV2 _ s w w' job o _ latest run _ ih =>
    have hsession := (emitJobV2_sends run).1
    have hsent : Inv env ⟨o.session, w'⟩ := by
      rw [hsession]
      exact run.keeps (I := fun w => Inv env ⟨s, w⟩) desk unheard_emitJobV2
        (fun _ _ _ _ hc hs h => h.call hs hc) h
    exact ih hsent (by omega) (by omega)

/-! ### Tasks -/

theorem Inv.walk {p : Act Outcome} {n : Nat} (h : Inv env ⟨s, w⟩)
    (hwalk : Walk env w.readings n s p) (run : desk.Exec p w o w')
    (hchain : env.coin.chain = .zcash) (hn : n ≤ 1)
    (hok : n = 1 → ∀ job, w.strat.jobs.latest = some job → Sends env s w.strat.jobs job) :
    Inv env ⟨o.session, w'⟩ :=
  Inv.path (hwalk _ _ _ rfl run) h hchain hn hok

theorem Inv.subscribeLine {msg : Json} {n : Nat} (h : Inv env ⟨s, w⟩)
    (hchain : env.coin.chain = .zcash) (hn : n ≤ 1)
    (hok : n = 1 → ∀ job, w.strat.jobs.latest = some job → Sends env s w.strat.jobs job)
    (may : s.authorized = true → 0 < n) (run : desk.Exec (handleSubscribe env s msg) w o w') :
    Inv env ⟨o.session, w'⟩ := by
  obtain ⟨ua, hua⟩ := @withUserAgent_eq s msg
  unfold handleSubscribe at run
  dsimp only at run
  rw [hua] at run
  split at run
  · refine h.walk (n := n) ?_ run hchain hn hok
    exact walk_ask (off_send rfl) fun _ => walk_done ⟨⟨rfl, rfl, rfl, rfl, rfl, fun _ => rfl⟩, rfl⟩
  · obtain ⟨_, w₁, hs, run⟩ := run.perform_inv
    have hjobs := jobs_offWork hs trivial
    have hcall := h.call hs (unheard_off (off_send rfl))
    have hfields : Inv env ⟨subscribe env { s with userAgent := ua }, w₁⟩ := hcall.fields rfl
    refine hfields.walk (n := n) ?_ run hchain hn fun h1 job hjob => ?_
    · refine walk_thenDo (walk_sendSetDifficulty may) fun t => ?_
      exact walk_bind (all_whenDo (off_ask ⟨rfl, trivial⟩)) fun _ => walk_done (.refl t)
    · rw [hjobs] at hjob ⊢
      exact (hok h1 job hjob).congr rfl rfl

theorem Inv.line {line : Option Json} {n : Nat} (h : Inv env ⟨s, w⟩)
    (hchain : env.coin.chain = .zcash) (hn : n ≤ 1)
    (hok : n = 1 → ∀ job, w.strat.jobs.latest = some job → Sends env s w.strat.jobs job)
    (may : (Turn.mk env s w.readings (.line line)).Emits → 0 < n)
    (run : desk.Exec (processLine env s line) w o w') : Inv env ⟨o.session, w'⟩ := by
  unfold processLine at run
  cases line with
  | none => exact h.walk (walk_send rfl) run hchain hn hok
  | some msg =>
    dsimp only at run
    cases hm : (msg.find? "method".toList).bind Json.getString? with
    | none =>
      rw [hm] at run
      exact h.walk (walk_send rfl) run hchain hn hok
    | some method =>
      rw [hm] at run
      obtain ⟨o₁, w₁, first, rest⟩ := run.bind_inv
      have hfirst : Inv env ⟨o₁.session, w₁⟩ := by
        by_cases hsub : method = "mining.subscribe".toList
        · subst hsub
          exact h.subscribeLine hchain hn hok (fun hauth => may (.inr ⟨hauth, .inl hm⟩)) first
        · exact h.walk (walk_dispatch hm hsub may) first hchain hn hok
      cases o₁ with
      | done t =>
        obtain ⟨rfl, rfl⟩ := rest.ret_inv
        exact hfirst
      | threw t => exact hfirst.walk (n := 0) (walk_send rfl) rest hchain (by omega) (by omega)

/-- What an emission keeps. -/
theorem kept_emitJob {forceClean : Bool} (hchain : env.coin.chain = .zcash)
    (run : desk.Exec (emitJob env s job forceClean) w o w') :
    o.session.zcashJobs = s.zcashJobs ∨ ∃ zj, zcashJobOf env s job = some (some zj) ∧
      o.session.zcashJobs = (s.withZcashJob job.jobId zj).zcashJobs := by
  unfold emitJob at run
  rw [if_pos hchain] at run
  split at run
  · obtain ⟨rfl, rfl⟩ := run.ret_inv
    exact .inl rfl
  · obtain ⟨_, w₁, hs, run⟩ := run.perform_inv
    obtain ⟨rfl, rfl⟩ := run.ret_inv
    exact .inl rfl
  · rename_i zj hzj
    obtain ⟨_, w₁, hs, run⟩ := run.perform_inv
    obtain ⟨rfl, rfl⟩ := run.ret_inv
    exact .inr ⟨zj, hzj, rfl⟩

/-- What a path with one emission at most keeps. -/
theorem kept_path {n : Nat} {a b : DeskState} (p : Path env n a b)
    (hchain : env.coin.chain = .zcash) (hn : n ≤ 1) :
    b.session.zcashJobs = a.session.zcashJobs ∨ n = 1 ∧ ∃ job zj,
      a.world.strat.jobs.latest = some job ∧ zcashJobOf env a.session job = some (some zj) ∧
        b.session.zcashJobs = (a.session.withZcashJob job.jobId zj).zcashJobs := by
  induction p with
  | stay => exact .inl rfl
  | call hc hs _ ih =>
    refine (ih hn).imp_right fun ⟨h1, job, zj, hjob, hrest⟩ => ⟨h1, job, zj, ?_, hrest⟩
    rw [← jobs_offWork hs hc.work]
    exact hjob
  | fields htidy _ ih =>
    rcases ih hn with hz | ⟨h1, job, zj, hjob, hzj, hz⟩
    · exact .inl (hz.trans htidy.zcashJobs)
    · refine .inr ⟨h1, job, zj, hjob, ?_, hz.trans ?_⟩
      · exact (zcashJobOf_congr htidy.script).symm.trans hzj
      · show insertBounded _ _ _ = insertBounded _ _ _
        rw [htidy.zcashJobs]
  | emit latest run _ ih =>
    obtain rfl : _ = 0 := Nat.le_zero.mp (Nat.le_of_succ_le_succ hn)
    have hz := (ih (by omega)).resolve_right fun h => by omega
    rcases kept_emitJob hchain run with hsame | ⟨zj, hzj, hnew⟩
    · exact .inl (hz.trans hsame)
    · exact .inr ⟨rfl, _, zj, latest, hzj, hz.trans hnew⟩
  | emitV2 latest run _ ih =>
    obtain rfl : _ = 0 := Nat.le_zero.mp (Nat.le_of_succ_le_succ hn)
    have hz := (ih (by omega)).resolve_right fun h => by omega
    rw [(emitJobV2_sends run).1] at hz
    exact .inl hz

theorem Inv.proceedAuth {req : AuthRequest} (h : Inv env ⟨s, w⟩)
    (hchain : env.coin.chain = .zcash)
    (hok : ∀ job, w.strat.jobs.latest = some job →
      Sends env (withPayout env s req) w.strat.jobs job ∧
      (req.customDiff ≠ none → s.authorized = true →
        ∀ zj, zcashJobOf env (withPayout env s req) job = some (some zj) →
          Sends env ((withPayout env s req).withZcashJob job.jobId zj) w.strat.jobs job))
    (run : desk.Exec (proceedAuth env s req) w o w') : Inv env ⟨o.session, w'⟩ := by
  obtain ⟨n, hn, hpos, hone⟩ : ∃ n, n ≤ 1 ∧
      (s.authorized = true → req.customDiff ≠ none → 0 < n) ∧
      (n = 1 → req.customDiff ≠ none ∧ s.authorized = true) := by
    by_cases hsends : req.customDiff ≠ none ∧ s.authorized = true
    · exact ⟨1, by omega, fun _ _ => by omega, fun _ => hsends⟩
    · exact ⟨0, by omega, fun hauth hd => absurd ⟨hd, hauth⟩ hsends, by omega⟩
  have hpaid : Inv env ⟨withPayout env s req, w⟩ := h.fields rfl
  unfold Stratum.proceedAuth at run
  rcases thenDo_inv run with ⟨t, w₁, first, rest⟩ | ⟨t, rfl, first⟩
  · have hpath := walk_advertise hpos _ _ _ rfl first
    have hfirst := Inv.path hpath hpaid hchain hn fun _ job hjob => (hok job hjob).1
    have hlike := hpath.carries.like
    have hjobs : w₁.strat.jobs = w.strat.jobs := hpath.carries.jobs
    unfold finishAuth at rest
    obtain ⟨_, w₂, hreply, rest⟩ := rest.perform_inv
    obtain ⟨minerId, w₃, hrow, rest⟩ := rest.perform_inv
    have hcalls := (hfirst.call hreply (unheard_off (off_send rfl))).call hrow
      (unheard_off ⟨rfl, trivial⟩)
    have hjobs₃ : w₃.strat.jobs = w.strat.jobs :=
      (jobs_offWork hrow trivial).trans ((jobs_offWork hreply trivial).trans hjobs)
    have hrowed : Inv env ⟨asRow t minerId, w₃⟩ := hcalls.fields rfl
    refine hrowed.walk (n := 1) (walk_emitLatest Nat.one_pos) rest hchain le_rfl
      fun _ job hjob => ?_
    rw [hjobs₃] at hjob ⊢
    obtain ⟨hsends, hagain⟩ := hok job hjob
    rcases kept_path hpath hchain hn with hz | ⟨h1, j, zj, hj, hzj, hz⟩
    · exact hsends.congr (t := asRow t minerId) hlike.script hz
    · obtain rfl : j = job := Option.some.inj (hj.symm.trans hjob)
      obtain ⟨hd, hauth⟩ := hone h1
      exact (hagain hd hauth zj hzj).congr (t := asRow t minerId) hlike.script hz
  · exact Inv.path (walk_advertise hpos _ _ _ rfl first) hpaid hchain hn
      fun _ job hjob => (hok job hjob).1

theorem Inv.task {t : Task} {readings : Set ℚ} (hchain : env.coin.chain = .zcash)
    (hv : IsV1 ⟨s, w⟩) (offered : Task.Offered ⟨s, w⟩ t) (h : Inv env ⟨s, w⟩)
    (hok : Careful env ⟨s, w⟩ (.task t readings))
    (run : desk.Exec (t.prog env s) { w with readings } o w') : Inv env ⟨o.session, w'⟩ := by
  have h₀ : Inv env ⟨s, { w with readings }⟩ := h.transfer ⟨rfl, rfl, rfl⟩ (fun _ => rfl) rfl
  cases t with
  | line line =>
    by_cases may : (Turn.mk env s readings (.line line)).Emits
    · exact h₀.line (n := 1) hchain le_rfl (fun _ job hjob => (hok job hjob).1 rfl may)
        (fun _ => Nat.one_pos) run
    · exact h₀.line (n := 0) hchain (by omega) (by omega) (fun hm => absurd hm may) run
  | message msg => exact absurd (hv.v1.symm.trans offered) (by simp)
  | notify job => exact offered.elim
  | validated v error valid =>
    rcases validated_cases (R := readings) run with hpath | ⟨req, t, hc, htidy, run⟩
    · exact Inv.path hpath h₀ hchain (by omega) (by omega)
    · refine (h₀.fields htidy.zcashJobs).proceedAuth hchain (fun job hjob => ?_) run
      obtain ⟨hsends, hagain⟩ := (hok job hjob).2 req hc
      refine ⟨hsends.congr rfl htidy.zcashJobs, fun hd hauth zj hzj => ?_⟩
      refine (hagain hd (htidy.authorized.symm.trans hauth) zj hzj).congr rfl ?_
      show insertBounded _ _ _ = insertBounded _ _ _
      rw [show (withPayout env t req).zcashJobs = _ from htidy.zcashJobs]
      rfl
  | resetShareCounters =>
    obtain ⟨rfl, rfl⟩ := run.ret_inv
    exact h₀.fields rfl
  | disconnect =>
    obtain ⟨rfl, rfl⟩ := run.ret_inv
    exact h₀.fields rfl

/-! ### Notifications and new work -/

theorem Inv.notify {rest : List MiningJob} (hchain : env.coin.chain = .zcash)
    (hv : s.isV2 = false) (h : Inv env ⟨s, w⟩) (hok : Careful env ⟨s, w⟩ .notify)
    (head : w.posted = job :: rest)
    (run : desk.Exec (notifyNewJob env s job) { w with posted := rest } o w') :
    Inv env ⟨o.session, w'⟩ := by
  have hpushed : job ∈ pushed w := h.shelved.queued job (by rw [head]; exact List.mem_cons_self)
  have hpop : Inv env ⟨s, { w with posted := rest }⟩ :=
    ⟨h.shelved.transfer rfl rfl (by rw [head]; exact List.sublist_cons_self _ _),
      h.own, h.notified, h.kept, h.agree⟩
  by_cases hopen : s.subscribed = true ∧ s.closed = false
  · obtain ⟨hsends, hplain⟩ := hok hopen.1 hopen.2 job (by rw [head]; rfl)
    rcases notify_cases hv run with ⟨hs, rfl⟩ | ⟨aux, haddr, hjob, haux, hbuild, _, _⟩ | ⟨_, run⟩
    · rw [hs]
      exact hpop
    · exact absurd ⟨haddr, hjob, haux, aux, hbuild⟩ hplain
    · exact hpop.emit hchain hpushed hsends run
  · have hidle : (!s.subscribed || s.closed) = true := by
      cases hsub : s.subscribed <;> cases hclosed : s.closed <;> simp [hsub, hclosed] at hopen ⊢
    unfold notifyNewJob at run
    rw [if_pos hidle] at run
    obtain ⟨rfl, rfl⟩ := run.ret_inv
    exact hpop

theorem Inv.publish (h : Inv env ⟨s, w⟩) (width32 : Bool) (hmade : Made env job)
    (hroot : rootOf env job job.zcashFullCoinbaseHex = some job.zcashMerkleRootLe)
    (fresh : ∀ j ∈ pushed w, j.jobId ≠ job.jobId) : Inv env ⟨s, w.published width32 job⟩ := by
  have unseen : lastNotify w job.jobId = none := by
    by_contra hne
    obtain ⟨j, hj, he⟩ := h.notified _ hne
    exact fresh j hj he
  have older {id : Str} (hid : ∃ j ∈ pushed w, j.jobId = id) :
      ∃ j ∈ pushed (w.published width32 job), j.jobId = id := by
    obtain ⟨j, hj, he⟩ := hid
    rw [pushed_published]
    exact ⟨j, List.mem_cons_of_mem _ hj, he⟩
  refine ⟨h.shelved.publish width32 hmade fresh, ?_, fun id hn => ?_, fun id hk => ?_,
    fun j hj line hline => ?_⟩
  · rw [pushed_published]
    exact List.forall_mem_cons.mpr ⟨hroot, h.own⟩
  · rw [lastNotify_published] at hn
    exact older (h.notified id hn)
  · exact older (h.kept id hk)
  · rw [lastNotify_published] at hline
    obtain ⟨e, hmem, rfl⟩ := List.mem_map.mp hj
    rcases JobWindow.mem_push hmem with hmem | rfl
    · exact h.agree _ (List.mem_map_of_mem hmem) line hline
    · rw [unseen] at hline
      cases hline

end Steps

/-! ## Runs -/

section Runs

variable {env : Env} {d : DeskState}

theorem inv_initial (h : Initial env false d) : Inv env d := by
  have hs := shelved_initial h
  obtain ⟨_, _, _, rfl⟩ := h
  refine ⟨hs, ?_, ?_, ?_, ?_⟩ <;> simp [lastNotify, Session.new, JobWindow.jobs, pushed]

theorem inv_reach (hchain : env.coin.chain = .zcash)
    (h : Reach env false (fun d i => Consistent env d i ∧ Careful env d i) d) :
    IsV1 d ∧ Inv env d := by
  refine v1_invariant (I := Inv env) ?_ ?_ ?_ ?_ ?_ ?_ h
  · exact fun d => inv_initial
  · exact fun s w nextId h => h.transfer ⟨rfl, rfl, rfl⟩ (fun _ => rfl) rfl
  · exact fun s w t readings o w' hv offered h hok run => h.task hchain hv offered hok.2 run
  · exact fun s w job rest o w' hv h hok head run => h.notify hchain hv.v1 hok.2 head run
  · intro s w gbt jobId job h hok hj
    have h' : Inv env ⟨s, { w with nextId := jobId }⟩ :=
      h.transfer ⟨rfl, rfl, rfl⟩ (fun _ => rfl) rfl
    refine h'.publish _ (made_of_jobOf hj) (hok.1 job hj) ?_
    rw [jobId_of_jobOf hj]
    exact hok.2
  · exact fun s w seenShares bestShareRound h => h.transfer ⟨rfl, rfl, rfl⟩ (fun _ => rfl) rfl

/-- No version bits are read from a Zcash submission. -/
theorem versionBits_zcash {s : Session} {msg : Json} {sub : Submission}
    (hchain : env.coin.chain = .zcash) (h : parseSubmit env s msg = .ok sub) :
    sub.versionBits = none := by
  unfold parseSubmit at h
  split at h
  · rw [if_pos hchain] at h
    split at h
    · cases h
    · unfold parseSubmitZcash at h
      split at h
      · dsimp only at h
        split_ifs at h
        all_goals cases h
        all_goals rfl
      · cases h
  · cases h

theorem reserved_notify (job : MiningJob) (mr : Str) :
    byteReverseHex (if job.reserved.isEmpty then List.replicate 64 '0' else job.reserved)
      = (zcashNotifyOf job mr).reserved := by
  unfold zcashNotifyOf
  dsimp only
  split
  · decide
  · rfl

theorem coinbaseAndRoot_kept {s : Session} {job : MiningJob} {sub : Submission}
    (hchain : env.coin.chain = .zcash) (hid : sub.jobId = job.jobId) :
    coinbaseAndRoot env s job sub
      = some ((keptFor s job).coinbaseHex, (keptFor s job).merkleRootLe) := by
  unfold coinbaseAndRoot keptFor
  rw [if_pos hchain, hid]
  cases s.zcashJobs.lookup job.jobId <;> rfl

theorem Matches.rebuilds {s : Session} {job : MiningJob} {line : Line} {msg : Json}
    {sub : Submission} (hchain : env.coin.chain = .zcash) (h : Matches env s job line)
    (hsub : parseSubmit env s msg = .ok sub) (hid : sub.jobId = job.jobId) :
    ∃ n, line = .notifyZcash n ∧ Rebuilds env s job n sub := by
  obtain ⟨⟨clean, rfl⟩, hroot⟩ := h
  refine ⟨_, rfl, ?_, rfl, reserved_notify job (keptFor s job).merkleRootLe, rfl, ?_,
    fun version ntimeS hver => ?_⟩
  · rw [versionBits_zcash hchain hsub]
    rfl
  · exact ⟨_, coinbaseAndRoot_kept hchain hid, hroot⟩
  · rw [versionBits_zcash hchain hsub] at hver
    obtain rfl : job.version = version := Option.some.inj hver
    unfold submitHeader
    rw [if_pos hchain]
    dsimp only
    rw [reserved_notify job (keptFor s job).merkleRootLe]
    rfl

/-- **The pool rebuilds the header the miner was sent.** In every run of careful
steps, for every notified job still in the window. -/
theorem notified_header_agrees (env : Env) (d : DeskState) (hchain : env.coin.chain = .zcash)
    (h : Reach env false (fun d i => Consistent env d i ∧ Careful env d i) d) : Agrees env d := by
  obtain ⟨_, inv⟩ := inv_reach hchain h
  intro id job line hf hline
  obtain ⟨rfl, _⟩ := inv.shelved.find hf
  have hmem : job ∈ d.world.strat.jobs.jobs :=
    List.mem_map.mpr ⟨_, JobWindow.mem_jobs_of_find hf, rfl⟩
  have hmatch := inv.agree job hmem line hline
  obtain ⟨⟨clean, rfl⟩, _⟩ := id hmatch
  refine ⟨_, rfl, fun msg sub hsub hid => ?_⟩
  obtain ⟨n, hn, hre⟩ := hmatch.rebuilds hchain hsub hid
  cases hn
  exact hre

end Runs

/-! ## A pool for Zcash -/

/-- Every address decodes to one script, and the coinbase that pays it is the
script. -/
def zcashPool : Env :=
  { sampleEnv with
    coin := { sampleEnv.coin with chain := .zcash, jobWindowSize := 3 }
    hasAux := false
    zcash :=
      { taddrToScript := fun _ => [1]
        swapMinerOutput := fun _ script _ _ => script
        zip244Txid := fun cb =>
          if cb = [1] then sampleHash else ⟨List.replicate 32 2, List.length_replicate⟩ } }

/-- A template whose root is that of its coinbase. -/
def zcashTemplate : Json :=
  .object [field "result" (.object [
    field "previousblockhash" (hex64 'a'), field "bits" (.string "1d00ffff".toList),
    field "coinbasevalue" (.unsigned 1000), field "height" (.unsigned 0),
    field "defaultroots" (.object [
      field "merkleroot" (.string (List.replicate 32 ['0', '2']).flatten)]),
    field "coinbasetxn" (.object [field "data" (.string "00".toList)])])]

/-- The id of the n-th job. -/
def idOf (n : Nat) : Str := intToHex (UInt32.ofNat n) 8

/-- Nothing is kept yet, and nothing published when the first job is. -/
def startingUp (d : DeskState) : Move → Bool
  | .notify => d.session.zcashJobs.entries.isEmpty
  | .work gbt jobId => (pushed d.world).isEmpty &&
      (({ d.world with nextId := jobId } : World).jobOf zcashPool gbt).all fun job =>
        rootOf zcashPool job job.zcashFullCoinbaseHex = some job.zcashMerkleRootLe
  | _ => d.world.strat.jobs.items.isEmpty

theorem careful_startingUp {r : Replies} {d : DeskState} {m : Move} {i : Input}
    (hc : startingUp d m = true) (hi : m.input r d = some i) :
    Consistent zcashPool d i ∧ Careful zcashPool d i := by
  have task (hm : d.world.strat.jobs.items.isEmpty = true) {t : Task} {readings : Set ℚ}
      (ht : i = .task t readings) : Consistent zcashPool d i ∧ Careful zcashPool d i := by
    subst ht
    refine ⟨trivial, fun job hjob => ?_⟩
    rw [JobWindow.latest, List.isEmpty_iff.mp hm] at hjob
    cases hjob
  cases m with
  | line msg =>
    obtain ⟨t, readings, ht⟩ := Move.task_of_line hi
    exact task hc ht
  | message msg =>
    obtain ⟨readings, ht⟩ := Move.task_of_message hi
    exact task hc ht
  | validated error valid =>
    obtain ⟨v, _, ht⟩ := Option.map_eq_some_iff.mp hi
    exact task hc ht.symm
  | notify =>
    cases hi
    have hnil : d.session.zcashJobs.entries = [] := List.isEmpty_iff.mp hc
    refine ⟨trivial, fun _ _ job _ => ⟨⟨fun _ hk => ?_, fun _ _ hlen => ?_⟩, fun h => ?_⟩⟩
    · have hk' := AList.mem_keys.mp hk
      simp [AList.keys, hnil] at hk'
    · rw [hnil] at hlen
      exact absurd hlen (by decide)
    · exact Bool.noConfusion h.2.2.1
  | work gbt jobId =>
    cases hi
    obtain ⟨hfresh, hroot⟩ := Bool.and_eq_true_iff.mp hc
    refine ⟨fun job hjob => ?_, fun job hjob => ?_⟩
    · rw [hjob] at hroot
      exact of_decide_eq_true hroot
    · rw [List.isEmpty_iff.mp hfresh] at hjob
      cases hjob

/-- A first job is notified in a careful run, and the two headers agree. -/
theorem notified_header_agrees_first :
    ∃ d, ((d.world.strat.jobs.find (idOf 0)).isSome = true ∧
      (lastNotify d.world (idOf 0)).isSome = true) ∧ Agrees zcashPool d := by
  have h : (play zcashPool startingUp (start zcashPool false)
      (minerJoins ++ [(usual, .work zcashTemplate (idOf 0)), (usual, .notify)])).any (fun d =>
      (d.world.strat.jobs.find (idOf 0)).isSome &&
        (lastNotify d.world (idOf 0)).isSome) = true := by
    decide +kernel
  obtain ⟨d, hd, hx⟩ := (Option.any_eq_true _ _).mp h
  have hreach := reach_of_play (fun d i => Consistent zcashPool d i ∧ Careful zcashPool d i)
    (fun _ _ _ _ hc hi => careful_startingUp hc hi) reach_start hd
  exact ⟨d, by simpa using hx, notified_header_agrees zcashPool d rfl hreach⟩

/-! ## Hundreds of jobs

Nothing is asked of the node but new templates, and of the miner nothing at all.
What is kept grows by one entry with each job. -/

/-- The draft of the template. -/
theorem draft_zcash : ∃ draft,
    (parseTemplate zcashTemplate).bind (draftJob zcashPool.coin zcashPool.hashes) = some draft ∧
      draft.zcashFullCoinbaseHex = "00".toList ∧ draft.merkleBranchLe = [] ∧
      draft.zcashMerkleRootLe = (List.replicate 32 ['0', '2']).flatten := by
  have h : ((parseTemplate zcashTemplate).bind
      (draftJob zcashPool.coin zcashPool.hashes)).any (fun draft =>
        decide (draft.zcashFullCoinbaseHex = "00".toList ∧ draft.merkleBranchLe = [] ∧
          draft.zcashMerkleRootLe = (List.replicate 32 ['0', '2']).flatten)) = true := by
    decide +kernel
  obtain ⟨draft, hd, hx⟩ := (Option.any_eq_true _ _).mp h
  exact ⟨draft, hd, of_decide_eq_true hx⟩

/-- What is kept for each of the jobs. -/
def redirected : ZcashJob where
  coinbaseHex := "01".toList
  merkleRootLe := (List.replicate 32 ['0', '1']).flatten

/-- A job of the template. -/
structure Redirects (job : MiningJob) (id : Str) : Prop where
  jobId : job.jobId = id
  coinbase : job.zcashFullCoinbaseHex = "00".toList
  branch : job.merkleBranchLe = []
  root : job.zcashMerkleRootLe = (List.replicate 32 ['0', '2']).flatten

theorem zcashJobOf_redirects {s : Session} {job : MiningJob} {id : Str} (h : Redirects job id)
    (hs : s.workerScriptHex = "01".toList) :
    zcashJobOf zcashPool s job = some (some redirected) := by
  have hswap : ∀ don, zcashPool.zcash.swapMinerOutput [0] [1] don job.donationPercent = [1] :=
    fun _ => rfl
  have hroot : computeRootLeHex zcashPool.hashes
      (bytesToHex (zcashPool.zcash.zip244Txid [1]).bytes) [] = some redirected.merkleRootLe := by
    decide +kernel
  have hbytes : bytesToHex [1] = redirected.coinbaseHex := by decide
  unfold zcashJobOf
  rw [hs, h.coinbase, h.branch]
  simp only [show hexToBytes "00".toList = some [0] by decide,
    show hexToBytes "01".toList = some [1] by decide, hswap, hroot, hbytes,
    Option.bind_eq_bind, Option.bind_some]
  rfl

theorem consistent_zcash {d : DeskState} {jobId : Str} :
    Consistent zcashPool d (.work zcashTemplate jobId) := by
  intro job hjob
  obtain ⟨draft, hd, hcb, hbranch, hroot⟩ := draft_zcash
  unfold World.jobOf at hjob
  rw [hd] at hjob
  cases hjob
  unfold rootOf publishJob
  dsimp only
  rw [hcb, hbranch, hroot]
  decide +kernel

/-- A call that the stratifier takes can be made. -/
theorem exec_call {α : Type} {c : Call} {k : Answer c → Act α} {w : World} {x : Answer c}
    {st : StratState} {a : α} (hs : StratStep c w.strat x st) (hg : w.Gives c x)
    (rest : ∃ w', desk.Exec (k x)
      { w with strat := st, posted := w.post c, log := ⟨c, x⟩ :: w.log } a w') :
    ∃ w', desk.Exec (.call c k) w a w' := by
  obtain ⟨w', run⟩ := rest
  have call : DeskCall c w x { w with strat := st, posted := w.post c, log := ⟨c, x⟩ :: w.log } :=
    ⟨hs, hg, rfl, rfl, rfl, rfl⟩
  exact ⟨w', .call call run⟩

/-- A template is always taken. -/
theorem exec_updateWork {env : Env} {w : World} {gbt : Json} (hchain : env.coin.chain = .zcash)
    (hid : ∃ v : UInt32, w.nextId = intToHex v 8) :
    ∃ w', desk.Exec (updateWork env.coin env.hashes gbt) w () w' := by
  unfold updateWork
  cases (parseTemplate gbt).bind (draftJob env.coin env.hashes) with
  | none => exact ⟨w, .ret () w⟩
  | some draft =>
    have publish (job : MiningJob) (w : World) :
        ∃ w', desk.Exec (do ask (.pushJob job); ask (.callbacks job)) w () w' :=
      exec_call (x := ()) rfl trivial (exec_call (x := ()) rfl trivial ⟨_, .ret () _⟩)
    have hgives : w.Gives (.newJobId (env.coin.chain = .zcash)) w.nextId := rfl
    simp only [Prog.perform_bind]
    refine exec_call ⟨by simpa [hchain] using hid, rfl⟩ hgives ?_
    refine exec_call ⟨rfl, rfl⟩ trivial ?_
    cases decide (draft.previousblockhash ≠ w.strat.lastPrevhash) with
    | true => exact exec_call (x := ()) rfl trivial (exec_call (x := ()) rfl trivial (publish _ _))
    | false => exact publish _ _

theorem idOf_inj {m n : Nat} (hm : m < 2 ^ 32) (hn : n < 2 ^ 32) (h : idOf m = idOf n) : m = n := by
  unfold idOf at h
  rw [CompactTarget.intToHex_eq, CompactTarget.intToHex_eq] at h
  have hbytes := congrArg hexToBytes h
  rw [hexToBytes_bytesToHex, hexToBytes_bytesToHex, Option.some_inj, List.reverse_inj] at hbytes
  have hvalue := congrArg Wire.leValue hbytes
  rwa [Wire.leValue_leBytes (UInt32.toNat_lt _), Wire.leValue_leBytes (UInt32.toNat_lt _),
    UInt32.toNat_ofNat', UInt32.toNat_ofNat', Nat.mod_eq_of_lt hm, Nat.mod_eq_of_lt hn] at hvalue

/-- A miner that joined, with no notification waiting. -/
structure Ready (d : DeskState) : Prop where
  reach : Reach zcashPool false (Consistent zcashPool) d
  subscribed : d.session.subscribed = true
  closed : d.session.closed = false
  v1 : d.session.isV2 = false
  script : d.session.workerScriptHex = "01".toList
  extranonce1 : d.session.extranonce1 = "0a0b0c0d".toList
  posted : d.world.posted = []
  capacity : d.world.strat.jobs.capacity = 3

/-- A notification is one notify, of the redirected root. -/
theorem notifyNewJob_redirects {s : Session} {job : MiningJob} {id : Str} (h : Redirects job id)
    (hsub : s.subscribed = true) (hclosed : s.closed = false) (hv1 : s.isV2 = false)
    (hscript : s.workerScriptHex = "01".toList) :
    notifyNewJob zcashPool s job =
      .call (.send (.notifyZcash (notifyWith job redirected (job.cleanJobs || false)))) fun _ =>
        .ret (.done (s.withZcashJob job.jobId redirected)) := by
  have haux : zcashPool.hasAux = false := rfl
  have hchain : zcashPool.coin.chain = .zcash := rfl
  unfold notifyNewJob
  rw [hsub, hclosed, haux, Bool.and_false]
  unfold notifyPlain
  rw [hv1]
  unfold emitJob
  rw [zcashJobOf_redirects h hscript, if_pos hchain]
  rfl

/-- A ready session is notified of a new job. -/
theorem Ready.next {d : DeskState} (h : Ready d) (n : Nat) :
    ∃ job w' clean, Redirects job (idOf n) ∧
      Ready ⟨d.session.withZcashJob (idOf n) redirected, w'⟩ ∧
      w'.strat.jobs = d.world.strat.jobs.push (idOf n) job ∧
      lastNotify w' (idOf n) = some (.notifyZcash (notifyWith job redirected clean)) ∧
      ∀ id, id ≠ idOf n → lastNotify w' id = lastNotify d.world id := by
  obtain ⟨s, w⟩ := d
  obtain ⟨hreach, hsub, hclosed, hv1, hscript, hextra, hposted, hcap⟩ := h
  obtain ⟨draft, hd, hcb, hbranch, hroot⟩ := draft_zcash
  obtain ⟨w₁, hwork⟩ : ∃ w₁, desk.Exec (updateWork zcashPool.coin zcashPool.hashes zcashTemplate)
      { w with nextId := idOf n } () w₁ := exec_updateWork rfl ⟨UInt32.ofNat n, rfl⟩
  rcases work_cases hwork with ⟨hnone, _⟩ | ⟨job, hjob, hw₁⟩
  · unfold World.jobOf at hnone
    rw [hd] at hnone
    cases hnone
  · have hjob' : Redirects job (idOf n) := by
      unfold World.jobOf at hjob
      rw [hd] at hjob
      cases hjob
      exact ⟨rfl, hcb, hbranch, hroot⟩
    have hposted₁ : w₁.posted = [job] := by
      rw [hw₁]
      show w.posted ++ [job] = [job]
      rw [show w.posted = [] from hposted]
      rfl
    have hreach₁ := hreach.step consistent_zcash (.work hwork)
    let line : Line := .notifyZcash (notifyWith job redirected (job.cleanJobs || false))
    let w₂ : World := { w₁ with posted := [], log := ⟨.send line, ()⟩ :: w₁.log }
    have hsend : DeskCall (.send line) { w₁ with posted := [] } () w₂ :=
      ⟨rfl, trivial, rfl, rfl, rfl, rfl⟩
    have hnotify : desk.Exec (Task.prog zcashPool s (.notify job)) { w₁ with posted := [] }
        (.done (s.withZcashJob job.jobId redirected)) w₂ := by
      show desk.Exec (notifyNewJob zcashPool s job) _ _ _
      rw [notifyNewJob_redirects hjob' hsub hclosed hv1 hscript]
      exact .call hsend (.ret _ _)
    have hreach₂ := hreach₁.step (i := .notify) trivial (.notify hposted₁ hnotify)
    have hjobs : w₂.strat.jobs = w.strat.jobs.push (idOf n) job := by
      show w₁.strat.jobs = _
      rw [hw₁, ← hjob'.jobId]
      rfl
    have hlast (id : Str) : lastNotify w₂ id =
        if job.jobId = id then some line else lastNotify w id := by
      rw [lastNotify_send hsend]
      congr 1
      show lastNotify w₁ id = _
      rw [hw₁, lastNotify_published]
      rfl
    rw [hjob'.jobId] at hreach₂ hlast
    refine ⟨job, w₂, job.cleanJobs || false, hjob', ⟨hreach₂, hsub, hclosed, hv1, hscript, hextra,
      rfl, ?_⟩, hjobs, ?_, fun id hid => ?_⟩
    · rw [hjobs]
      exact hcap
    · rw [hlast, if_pos rfl]
    · rw [hlast, if_neg hid.symm]

/-- As many jobs are kept as were notified. -/
structure Loaded (n : Nat) (d : DeskState) : Prop extends Ready d where
  length : d.session.zcashJobs.entries.length = n
  keys : ∀ id ∈ d.session.zcashJobs, ∃ m < n, id = idOf m

theorem Loaded.fresh {n : Nat} {d : DeskState} (h : Loaded n d) (hn : n < 2 ^ 32) :
    idOf n ∉ d.session.zcashJobs := by
  intro hk
  obtain ⟨m, hm, he⟩ := h.keys _ hk
  have := idOf_inj hn (by omega) he
  omega

/-- Up to 256 entries one more is kept beside them. -/
theorem Loaded.next {n : Nat} {d : DeskState} (h : Loaded n d) (hn : n ≤ 256) {w' : World}
    (ready : Ready ⟨d.session.withZcashJob (idOf n) redirected, w'⟩) :
    Loaded (n + 1) ⟨d.session.withZcashJob (idOf n) redirected, w'⟩ := by
  have hlen := h.length
  have hmap : (d.session.withZcashJob (idOf n) redirected).zcashJobs =
      d.session.zcashJobs.insert (idOf n) redirected := by
    show insertBounded _ _ _ = _
    unfold insertBounded
    rw [if_neg (by omega)]
  refine ⟨ready, ?_, fun id hk => ?_⟩
  · show (d.session.withZcashJob (idOf n) redirected).zcashJobs.entries.length = n + 1
    rw [hmap, AList.entries_insert_of_notMem (h.fresh (by omega)), List.length_cons, hlen]
  · have hk' : id ∈ d.session.zcashJobs.insert (idOf n) redirected := hmap ▸ hk
    rcases (AList.mem_insert _).mp hk' with rfl | hk'
    · exact ⟨n, by omega, rfl⟩
    · obtain ⟨m, hm, he⟩ := h.keys id hk'
      exact ⟨m, by omega, he⟩

def noWork (_ : DeskState) : Move → Bool
  | .work .. => false
  | _ => true

theorem consistent_noWork {env : Env} {r : Replies} {d : DeskState} {m : Move} {i : Input}
    (hc : noWork d m = true) (hi : m.input r d = some i) : Consistent env d i := by
  cases i with
  | work gbt jobId =>
    obtain rfl := Move.eq_work hi
    cases hc
  | task | notify | others => trivial

theorem loaded_joined : ∃ d, Loaded 0 d := by
  have h : (play zcashPool noWork (start zcashPool false) minerJoins).any (fun d =>
      decide (d.session.subscribed = true ∧ d.session.closed = false ∧ d.session.isV2 = false ∧
        d.session.workerScriptHex = "01".toList ∧ d.session.extranonce1 = "0a0b0c0d".toList ∧
        d.world.posted.length = 0 ∧ d.world.strat.jobs.capacity = 3 ∧
        d.session.zcashJobs.entries.length = 0)) = true := by
    decide +kernel
  obtain ⟨d, hd, hx⟩ := (Option.any_eq_true _ _).mp h
  obtain ⟨hsub, hclosed, hv1, hscript, hextra, hposted, hcap, hkept⟩ := of_decide_eq_true hx
  have hreach : Reach zcashPool false (Consistent zcashPool) d :=
    reach_of_play (Consistent zcashPool) (fun _ _ _ _ hc hi => consistent_noWork hc hi)
      reach_start hd
  refine ⟨d, ⟨hreach, hsub, hclosed, hv1, hscript, hextra, List.length_eq_zero_iff.mp hposted,
    hcap⟩, hkept, fun id hk => ?_⟩
  have hk' := AList.mem_keys.mp hk
  simp [AList.keys, List.length_eq_zero_iff.mp hkept] at hk'

theorem loaded_by {n : Nat} (hn : n ≤ 256) : ∃ d, Loaded n d := by
  induction n with
  | zero => exact loaded_joined
  | succ n ih =>
    obtain ⟨d, hd⟩ := ih (by omega)
    obtain ⟨_, w', _, _, ready, _⟩ := hd.toReady.next n
    exact ⟨_, hd.next (by omega) ready⟩

/-- With room for two, a job is found once another was pushed. -/
theorem find_push_push {jobs : JobWindow} {a b : Str} {ja jb : MiningJob}
    (hcap : jobs.capacity ≠ 1) (hne : b ≠ a) :
    ((jobs.push a ja).push b jb).find a = some ja := by
  obtain ⟨items, htail⟩ : ∃ items, ((jobs.push a ja).push b jb).items
      = items ++ [(a, ja), (b, jb)] := by
    unfold JobWindow.push
    dsimp only
    generalize (if jobs.items.length = jobs.capacity then jobs.items.tail else jobs.items) = kept
    cases kept with
    | nil => exact ⟨[], by rw [if_neg (by simpa using hcap.symm)]; rfl⟩
    | cons e kept =>
      split
      · exact ⟨kept, by simp⟩
      · exact ⟨e :: kept, by simp⟩
  unfold JobWindow.find
  rw [htail]
  simp [hne]

/-- A submission for a job. -/
def submission (id : Str) : Json :=
  .object [field "method" (.string "mining.submit".toList),
    field "params" (.array (["miner.1".toList, id, List.replicate 8 '0', ['0', '0'],
      List.replicate 2688 '0'].map Json.string))]

theorem validHex_zeros {n : Nat} (h : n ≠ 0) : validHex (List.replicate n '0') = true := by
  have hzero : isHexDigit '0' = true := by decide
  unfold validHex
  simp [hzero, h]

theorem parse_submission {s : Session} (id : Str) (h : s.extranonce1 = "0a0b0c0d".toList) :
    ∃ sub, parseSubmit zcashPool s (submission id) = .ok sub ∧ sub.jobId = id := by
  have htime : validHex (List.replicate 8 '0') = true := validHex_zeros (by decide)
  have hnonce : validHex ['0', '0'] = true := validHex_zeros (n := 2) (by decide)
  have hsolution : validHex (List.replicate 2688 '0') = true := validHex_zeros (by decide)
  have hparse : parseSubmit zcashPool s (submission id) = parseSubmitZcash s
      (["miner.1".toList, id, List.replicate 8 '0', ['0', '0'], List.replicate 2688 '0'].map
        Json.string) := rfl
  have hread (solution : Str) : ((["miner.1".toList, id, List.replicate 8 '0', ['0', '0'],
      solution].map Json.string).take 5).mapM Json.getString? =
        some ["miner.1".toList, id, List.replicate 8 '0', ['0', '0'], solution] := rfl
  rw [hparse]
  unfold parseSubmitZcash
  rw [hread]
  dsimp only
  have hsize : (List.replicate 2688 '0').length = 2688 := List.length_replicate
  have hplain : (if (List.replicate 2688 '0').length = 2694 then (List.replicate 2688 '0').drop 6
      else List.replicate 2688 '0') = List.replicate 2688 '0' := if_neg (by omega)
  rw [h, htime, hnonce, hsolution, hplain, if_neg (by decide), if_neg (by decide),
    if_neg (by decide +kernel), if_neg (by decide), if_neg (by omega)]
  exact ⟨_, rfl, rfl⟩

/-- **What is kept is emptied under the jobs of the window.** After 258 jobs a
share of the last but one is checked against the node's root. -/
theorem root_forgotten : ∃ env d, env.coin.chain = .zcash ∧
    Reach env false (Consistent env) d ∧ ¬ Agrees env d := by
  obtain ⟨d, hd⟩ := loaded_by (n := 256) le_rfl
  obtain ⟨job, w₁, clean, hjob, ready₁, hpush₁, hlast, _⟩ := hd.toReady.next 256
  have full := hd.next le_rfl ready₁
  obtain ⟨job', w₂, _, _, ready₂, hpush₂, _, hothers⟩ := full.toReady.next 257
  have hne : idOf 257 ≠ idOf 256 := fun he => by
    have := idOf_inj (by decide) (by decide) he
    omega
  refine ⟨zcashPool, _, rfl, ready₂.reach, fun agrees => ?_⟩
  have hfind : w₂.strat.jobs.find (idOf 256) = some job := by
    rw [hpush₂, hpush₁]
    refine find_push_push ?_ hne
    rw [hd.capacity]
    decide
  have hline : lastNotify w₂ (idOf 256) = some (.notifyZcash (notifyWith job redirected clean)) :=
    (hothers _ hne.symm).trans hlast
  obtain ⟨n, hn, rebuilds⟩ := agrees _ job _ hfind hline
  cases hn
  obtain ⟨sub, hsub, hid⟩ := parse_submission (idOf 256) ready₂.extranonce1
  obtain ⟨cbHex, hroot, _⟩ := (rebuilds _ sub hsub hid).work
  have hforgot : ((d.session.withZcashJob (idOf 256) redirected).withZcashJob (idOf 257)
      redirected).zcashJobs.lookup (idOf 256) = none := by
    show (insertBounded _ _ _).lookup _ = none
    unfold insertBounded
    rw [if_pos (by rw [full.length]; decide), AList.lookup_insert_ne hne.symm, AList.lookup_empty]
  unfold coinbaseAndRoot at hroot
  rw [hid, hforgot] at hroot
  have hnode : job.zcashMerkleRootLe = redirected.merkleRootLe :=
    (Prod.mk.inj (Option.some.inj hroot)).2
  rw [hjob.root] at hnode
  exact absurd hnode (by decide)

end MkPool.ZcashWork
