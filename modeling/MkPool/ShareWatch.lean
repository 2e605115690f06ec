import MkPool.Requests

/-! # The order of a task's calls, watched

What a handler may do with a share depends on what it did before: a share is
scored once, registered under its hash, credited, and handed to the node when
it meets the target. `Phase` is what a task has done so far, `shareWatch` what
it may do next, and `Settled` what it has done by its end. Every task of a
session keeps to it (`task_watched`), so these are the facts that runs with
many sessions are built on. -/
namespace MkPool.ShareWatch
open MkPool.Lib.Interaction MkPool.Utils MkPool.Config MkPool.Job MkPool.Coinbase
open MkPool.Sv2Messages MkPool.Calls MkPool.ClientSession MkPool.JsonValue MkPool.Tasks
open MkPool.Stratum MkPool.Submit MkPool.StratumV2 MkPool.Requests

/-! ## Phases -/

/-- A share at its target comparison. -/
structure Verdict where
  path : SharePath
  hash : Hash256
  job : Option MiningJob
  meets : Bool

/-- What a task has learned and done so far. -/
structure Phase where
  found : Option (Str × MiningJob) := none
  found32 : Option (UInt32 × MiningJob) := none
  latest : Option MiningJob := none
  tip : Option Str := none
  clock : Option UInt32 := none
  steady : Option ℚ := none
  verdict : Option Verdict := none
  first : Option Bool := none
  credited : Bool := false
  stored : Bool := false
  handed : Bool := false
  aux : Option Str := none

def Phase.next : (c : Call) → Phase → Answer c → Phase
  | .findJob id, q, x => { q with found := x.map fun job => (id, job) }
  | .findJobU32 id, q, x => { q with found32 := x.map fun job => (id, job) }
  | .latestJob, q, x => { q with latest := x }
  | .currentPrevhash, q, x => { q with tip := some x }
  | .nowUnix, q, x => { q with clock := some x }
  | .steadyNow, q, x => { q with steady := some x }
  | .scored path hash job meets, q, _ => { q with verdict := some ⟨path, hash, job, meets⟩ }
  | .registerShare _, q, x => { q with first := some x }
  | .countAccepted .., q, _ => { q with credited := true }
  | .enqueueShare _, q, _ => { q with stored := true }
  | .submitBlock _, q, _ | .withholdBlock _, q, _ => { q with handed := true }
  | .submitAuxBlock b, q, _ => { q with aux := some b.dogeBlockHash }
  | _, q, _ => q

/-- The job is of the tip the task read. -/
def Phase.Current (q : Phase) (job : MiningJob) : Prop :=
  ∃ tip, q.tip = some tip ∧ (tip = [] ∨ job.previousblockhash = tip)

/-- The job is of another block than the tip the task read. -/
def Phase.Superseded (q : Phase) (job : MiningJob) : Prop :=
  ∃ tip, q.tip = some tip ∧ tip ≠ [] ∧ job.previousblockhash ≠ tip

/-- The pool job a Stratum V2 share names was looked up: as the latest one, or
in the window. -/
def Phase.Names (q : Phase) (id : UInt32) (job : MiningJob) : Prop :=
  q.latest = some job ∧ emitIdU32 job.jobId = id ∨
    q.found32 = some (id, job)

/-! ## Shares that were rebuilt -/

/-- The time text of a submission, in the order it is read. -/
def ntimeText (env : Env) (sub : Submission) : Str :=
  if env.coin.chain = .zcash then byteReverseHex sub.ntimeS else sub.ntimeS

/-- A V1 share as the session rebuilds one. -/
def RebuiltShare (env : Env) (s : Session) (task : Task) (sh : Share) : Prop :=
  ∃ msg version, task = .line (some msg) ∧ parseSubmit env s msg = .ok sh.sub ∧
    parseHexU32 (ntimeText env sh.sub) = some sh.ntime ∧
    rollVersion env s sh.job sh.sub.versionBits = some version ∧
    rebuildShare env s sh.job sh.sub (ntimeText env sh.sub) sh.ntime version = .share sh

/-- A share on a standard channel: of a custom job, or of the pool job it
names. -/
def RebuiltStandard (env : Env) (s : Session) (task : Task) (names : UInt32 → MiningJob → Prop)
    (sh : ShareV2) : Prop :=
  ∃ msg, task = .message (.submitSharesStandard msg) ∧
    ((s.sv2CustomJobs.lookup msg.jobId = none ∧ ∃ job, names msg.jobId job ∧
        rebuildStandard env s job msg = some sh) ∨
      ∃ cj, s.sv2CustomJobs.lookup msg.jobId = some cj ∧ rebuildCustom env cj msg = some sh)

/-- A share on an extended channel. -/
def RebuiltExtended (env : Env) (s : Session) (task : Task) (names : UInt32 → MiningJob → Prop)
    (sh : ShareV2) : Prop :=
  ∃ msg, task = .message (.submitSharesExtended msg) ∧ ∃ job, names msg.jobId job ∧
    rebuildExtended env s job msg = some sh

/-- The share fails the difficulty the session holds it to: the current one, and
it is not let through on the previous one. -/
def TooLow (env : Env) (s : Session) (steady : Option ℚ) (sh : Share) : Prop :=
  sh.diff env < s.vardiff.current * tolerance env ∧
    (sh.diff env < s.vardiff.current → ∃ now, steady = some now ∧
      ¬ (now - s.lastDifficultyChangeTs < 40 ∧ s.lastDifficulty * tolerance env ≤ sh.diff env))

/-- The verdict is that of a share the session rebuilt in this phase. -/
def Phase.Judges (env : Env) (s : Session) (task : Task) (q : Phase) (v : Verdict) : Prop :=
  match v.path with
  | .v2Standard => ∃ sh, RebuiltStandard env s task q.Names sh ∧
      v.hash = sh.hash ∧ v.job = sh.job ∧ v.meets = sh.meetsNetwork
  | .v2Extended => ∃ sh, RebuiltExtended env s task q.Names sh ∧
      v.hash = sh.hash ∧ v.job = sh.job ∧ v.meets = sh.meetsNetwork
  | path => ∃ sh, RebuiltShare env s task sh ∧ q.found = some (sh.sub.jobId, sh.job) ∧
      (if path = .v1Stale then q.Superseded sh.job else q.Current sh.job) ∧
      (path = .v1LowDiff → TooLow env s q.steady sh) ∧
      v.hash = sh.hash ∧ v.job = some sh.job ∧ v.meets = sh.meetsNetwork

/-- The text handed to the node is the block of a share the session rebuilt. -/
def Phase.Assembles (env : Env) (s : Session) (task : Task) (q : Phase) (b : BlockSubmission) : Prop :=
  (∃ sh, RebuiltShare env s task sh ∧ q.found = some (sh.sub.jobId, sh.job) ∧
    b.block = candidateBlock env sh ∧ b.hash = sh.hash ∧ sh.meetsNetwork = true) ∨
  (∃ sh, RebuiltStandard env s task q.Names sh ∧
    b.block = sv2Block sh env.coin.stratumV2EmptyBlocks ∧ b.hash = sh.hash ∧
    sh.meetsNetwork = true) ∨
  (∃ sh, RebuiltExtended env s task q.Names sh ∧
    b.block = sv2Block sh false ∧ b.hash = sh.hash ∧ sh.meetsNetwork = true)

/-! ## What may be done -/

/-- A solved share may be handed to the node: it is the one that was scored,
and it is new or on the path that does not ask. -/
def Phase.Hands (q : Phase) (hash : Hash256) : Prop :=
  ∃ v, q.verdict = some v ∧ v.hash = hash ∧ v.meets = true ∧ q.handed = false ∧
    (v.path = .v1LowDiff ∨ q.first = some true)

/-- An aux block may be submitted: its work is kept for the share's job, the
share meets its target, and it was not submitted before. -/
def Phase.SolvesAux (env : Env) (s : Session) (task : Task) (q : Phase)
    (b : AuxSubmission) : Prop :=
  ∃ sh v saj target parentHash, q.verdict = some v ∧ v.hash = sh.hash ∧ RebuiltShare env s task sh ∧
    q.found = some (sh.sub.jobId, sh.job) ∧ auxWorkFor env s sh = some saj ∧
    hexToBytes saj.auxTarget = some target ∧ byteLe sh.hash.bytes target = true ∧
    computeCoinbaseTxidLe env.hashes sh.headerHex = some parentHash ∧
    saj.dogeBlockHash ∉ s.dogeSubmitted ∧
    b = { block := dogeBlock saj sh parentHash, dogeBlockHash := saj.dogeBlockHash }

def Phase.Allows (env : Env) (s : Session) (task : Task) : Call → Phase → Prop
  | .findJob _, q | .findJobU32 _, q | .currentPrevhash, q => q.verdict = none
  | .scored path hash job meets, q =>
    q.verdict = none ∧ q.Judges env s task ⟨path, hash, job, meets⟩
  | .registerShare fp, q =>
    ∃ v, q.verdict = some v ∧ fp = bytesToHex v.hash.bytes ∧ q.first = none ∧
      q.handed = false ∧ q.credited = false ∧ v.path ≠ .v1LowDiff ∧
      (v.path.isV2 = true → v.meets = true)
  | .countAccepted path hash job ntime, q =>
    ∃ v, q.verdict = some v ∧ v.path = path ∧ v.hash = hash ∧ v.job = job ∧
      q.credited = false ∧ path ≠ .v1Stale ∧ path ≠ .v1LowDiff ∧
      (path = .v1Fresh → q.first = some true) ∧
      (path ≠ .v2Standard →
        ∃ j now, job = some j ∧ q.clock = some now ∧ validNtime ntime j.mintime now = true) ∧
      (path = .v2Standard → ∃ msg, task = .message (.submitSharesStandard msg) ∧ msg.ntime = ntime)
  | .enqueueShare rec, q =>
    ∃ v, q.verdict = some v ∧ rec.shareHash = bytesToHex v.hash.bytes ∧
      rec.minerId = s.minerId ∧ q.credited = true ∧ q.stored = false
  | .submitBlock b, q => q.Hands b.hash ∧ q.Assembles env s task b ∧ b.minerId = s.minerId
  | .withholdBlock hash, q => q.Hands hash
  | .submitAuxBlock b, q => q.SolvesAux env s task b ∧ q.aux = none ∧ q.first = some true
  | .newJobId _, _ | .swapPrevhash _, _ | .clearShares, _ | .resetBestShare, _ => False
  | .pushJob _, _ | .callbacks _, _ => False
  | _, _ => True

/-- Watches a task that the session starts in `s`. -/
def shareWatch (env : Env) (s : Session) (task : Task) : Monitor Call Answer Phase where
  allow := Phase.Allows env s task
  next := Phase.next

/-! ## What is done in the end -/

/-- The latest Zcash job cannot be sent again, which throws. -/
def Unsendable (env : Env) (s : Session) (q : Phase) : Prop :=
  env.coin.chain = .zcash ∧ ∃ job, q.latest = some job ∧ zcashJobOf env s job = none

/-- Why a handler can throw after the share was registered: the latest job
cannot be sent again, or the aux target kept for the share's job is not hex. -/
def Broken (env : Env) (s : Session) (q : Phase) : Prop :=
  Unsendable env s q ∨ ∃ id job saj, q.found = some (id, job) ∧
    s.sessionAuxJobs.lookup id = some saj ∧ hexToBytes saj.auxTarget = none

structure Settled (env : Env) (s : Session) (q : Phase) : Prop where
  registered : ∀ v, q.verdict = some v → v.path ≠ .v1LowDiff →
    (v.path.isV2 = true → v.meets = true) → q.first ≠ none
  handed : ∀ v, q.verdict = some v → v.meets = true →
    (v.path = .v1LowDiff ∨ q.first = some true) → q.handed = true ∨ Broken env s q
  aux : ∀ v sh saj target, q.verdict = some v → v.path = .v1Fresh ∨ v.path = .v1Stale →
    q.first = some true → q.found = some (sh.sub.jobId, sh.job) →
    auxWorkFor env s sh = some saj → hexToBytes saj.auxTarget = some target →
    byteLe v.hash.bytes target = true →
    saj.dogeBlockHash ∈ s.dogeSubmitted ∨ q.aux = some saj.dogeBlockHash ∨ Unsendable env s q

/-! ## Calls on the side -/

/-- A call that the watch does not look at, but for the latest job and the
clocks. -/
def Aside : Call → Prop
  | .findJob _ | .findJobU32 _ | .currentPrevhash | .scored .. | .registerShare _ => False
  | .countAccepted .. | .enqueueShare _ | .submitBlock _ | .withholdBlock _ => False
  | .submitAuxBlock _ | .newJobId _ | .swapPrevhash _ | .clearShares => False
  | .resetBestShare | .pushJob _ | .callbacks _ => False
  | _ => True

/-- A phase without the latest job and the clocks. -/
def Phase.base (q : Phase) : Phase := { q with latest := none, clock := none, steady := none }

/-- The program keeps to the watch from a phase on, and ends with `P`. -/
abbrev Watched (env : Env) (s : Session) (task : Task) {α : Type} (p : Act α) (P : α → Phase → Prop)
    (q : Phase) : Prop :=
  (shareWatch env s task).Obeys p P q

section Rules

variable {env : Env} {s : Session} {task : Task} {α β : Type} {q : Phase}

theorem watched_ask {c : Call} {k : Answer c → Act α} {P : α → Phase → Prop}
    (hc : q.Allows env s task c) (hk : ∀ x, Watched env s task (k x) P (Phase.next c q x)) :
    Watched env s task (ask c >>= k) P q :=
  (Monitor.obeys_call _ c k P q).mpr ⟨hc, hk⟩

theorem watched_bind {p : Act α} {f : α → Act β} {P : β → Phase → Prop}
    (h : Watched env s task p (fun a => Watched env s task (f a) P) q) : Watched env s task (p >>= f) P q :=
  (Monitor.obeys_bind _ p f P q).mpr h

theorem aside_step {c : Call} (hc : Aside c) (x : Answer c) :
    q.Allows env s task c ∧ (Phase.next c q x).base = q.base := by
  cases c <;> first | exact hc.elim | exact ⟨trivial, rfl⟩

/-- Calls on the side end in the phase they began in, but for the latest job
and the clock. -/
theorem watched_aside {p : Act α} {P : α → Phase → Prop} (hp : p.All Aside)
    (hP : ∀ a q', q'.base = q.base → P a q') : Watched env s task p P q := by
  induction p generalizing q with
  | ret a => exact hP a q rfl
  | call c k ih =>
    refine (Monitor.obeys_call _ c k P q).mpr ⟨?_, fun x => ?_⟩
    · cases c <;> first | exact hp.1.elim | trivial
    · have hstep : q.Allows env s task c ∧ (Phase.next c q x).base = q.base :=
        aside_step hp.1 x
      have hbase := hstep.2
      exact ih x (hp.2 x) fun a q' hq' => hP a q' (hq'.trans hbase)

theorem watched_whenDo {b : Bool} {p : Act Unit} {P : Unit → Phase → Prop}
    (ht : b = true → Watched env s task p P q) (hf : b = false → P () q) :
    Watched env s task (whenDo b p) P q := by
  unfold whenDo
  cases b with
  | true => exact ht rfl
  | false => exact hf rfl

theorem watched_thenDo {p : Act Outcome} {f : Session → Act Outcome}
    {P : Outcome → Phase → Prop}
    (h : Watched env s task p (fun o q' => match o with
      | .done s' => Watched env s task (f s') P q'
      | .threw s' => P (.threw s') q') q) : Watched env s task (thenDo p f) P q := by
  refine watched_bind (Monitor.obeys_mono _ h fun o q' h' => ?_)
  cases o with
  | done s' => exact h'
  | threw s' => exact h'

/-- A task that scored no share is settled. -/
theorem settled_of_none (h : q.verdict = none) : Settled env s q := by
  refine ⟨?_, ?_, ?_⟩ <;> intros <;> simp_all

theorem verdict_of_base {q' : Phase} (h : q'.base = q.base) : q'.verdict = q.verdict := by
  have hv := congrArg Phase.verdict h
  exact hv

end Rules

/-! ## What the session keeps while a share is handled -/

/-- The session fields that the end of a share depends on are the same. -/
structure Kin (s t : Session) : Prop where
  minerId : t.minerId = s.minerId
  script : t.workerScriptHex = s.workerScriptHex
  address : t.auxDogeAddress = s.auxDogeAddress
  auxJobs : t.sessionAuxJobs = s.sessionAuxJobs
  submitted : t.dogeSubmitted = s.dogeSubmitted

theorem Kin.refl (s : Session) : Kin s s := ⟨rfl, rfl, rfl, rfl, rfl⟩

/-- The end of sending work again: the session's kin, or an exception for want
of a Zcash coinbase. -/
def Resent (env : Env) (s : Session) (q : Phase) (o : Outcome) (q' : Phase) : Prop :=
  q'.base = q.base ∧ match o with
    | .done t => Kin s t
    | .threw _ => env.coin.chain = .zcash ∧ ∃ job, q'.latest = some job ∧
        zcashJobOf env s job = none

theorem Resent.base {env : Env} {s : Session} {q q₁ q' : Phase} {o : Outcome}
    (h : Resent env s q₁ o q') (hbase : q₁.base = q.base) : Resent env s q o q' :=
  ⟨h.1.trans hbase, h.2⟩

section Emission

variable {env : Env} {s t : Session} {task : Task} {q : Phase}

theorem watched_emitLatest {forceClean : Bool} (hk : Kin s t) :
    Watched env s task (emitLatest env t forceClean) (Resent env s q) q := by
  unfold emitLatest
  refine watched_ask trivial fun x => ?_
  cases x with
  | none => exact ⟨rfl, hk⟩
  | some job =>
    show Watched env s task (emitJob env t job forceClean) _ { q with latest := some job }
    unfold emitJob
    split
    · rename_i hchain
      split
      · rename_i hz
        exact ⟨rfl, hchain, job, rfl, zcashJobOf_congr hk.script ▸ hz⟩
      · exact watched_ask trivial fun _ => ⟨rfl, hk⟩
      · refine watched_ask trivial fun _ => ⟨rfl, ?_⟩
        exact ⟨hk.minerId, hk.script, hk.address, hk.auxJobs, hk.submitted⟩
    · exact watched_ask trivial fun _ => ⟨rfl, hk⟩

theorem watched_sendSetDifficulty {d : ℚ} {old : Option ℚ} (hk : Kin s t) :
    Watched env s task (sendSetDifficulty env t d old) (Resent env s q) q := by
  unfold sendSetDifficulty
  refine watched_ask trivial fun now => watched_ask trivial fun _ => watched_bind ?_
  set q₁ : Phase := { q with steady := some now } with hq₁
  have hk' : Kin s (t.advertised (old.getD d) now) :=
    ⟨hk.minerId, hk.script, hk.address, hk.auxJobs, hk.submitted⟩
  have tail : Watched env s task
      (if (t.advertised (old.getD d) now).authorized = true then
        emitLatest env (t.advertised (old.getD d) now) true
      else .ret (.done (t.advertised (old.getD d) now))) (Resent env s q) q₁ := by
    split
    · exact Monitor.obeys_mono _ (watched_emitLatest hk') fun o q' h => h.base rfl
    · exact ⟨rfl, hk'⟩
  exact watched_whenDo (fun _ => watched_ask (k := Prog.ret) trivial fun _ => tail)
    fun _ => tail

theorem watched_vardiffTick {sh : Share} {targetDiff : ℚ} (hk : Kin s t) :
    Watched env s task (vardiffTick env t sh targetDiff) (Resent env s q) q := by
  unfold vardiffTick
  split
  · refine watched_ask trivial fun now => ?_
    have hk' (v : Vardiff.VarDiff) : Kin s (t.withVardiff v) :=
      ⟨hk.minerId, hk.script, hk.address, hk.auxJobs, hk.submitted⟩
    dsimp only
    split
    · exact Monitor.obeys_mono _ (watched_sendSetDifficulty (hk' _)) fun o q' h => h.base rfl
    · exact ⟨rfl, hk' _⟩
  · exact ⟨rfl, hk⟩

end Emission

/-! ## V1 shares -/

/-- A share that was rebuilt and is about to be scored. -/
structure Ready (env : Env) (s : Session) (task : Task) (sh : Share) (q : Phase) : Prop where
  rebuilt : RebuiltShare env s task sh
  found : q.found = some (sh.sub.jobId, sh.job)
  timely : ∃ now, q.clock = some now ∧ validNtime sh.ntime sh.job.mintime now = true
  verdict : q.verdict = none
  first : q.first = none
  credited : q.credited = false
  stored : q.stored = false
  handed : q.handed = false
  aux : q.aux = none

section Shares

variable {env : Env} {s t : Session} {task : Task} {sh : Share} {q : Phase}

/-- The header of a rebuilt share is hex, so its hash can be taken again. -/
theorem parentHash_of_rebuilt (h : RebuiltShare env s task sh) :
    ∃ parentHash, computeCoinbaseTxidLe env.hashes sh.headerHex = some parentHash := by
  obtain ⟨msg, version, _, _, _, _, h⟩ := h
  suffices hheader : ∃ headerBytes, hexToBytes sh.headerHex = some headerBytes by
    obtain ⟨headerBytes, hheader⟩ := hheader
    exact ⟨bytesToHex (env.hashes.sha256d headerBytes).bytes, by
      simp [computeCoinbaseTxidLe, hheader]⟩
  unfold rebuildShare at h
  split at h
  · cases h
  · dsimp only at h
    split at h
    · rename_i headerBytes solution netTarget hheader _ _
      split at h
      · split at h
        · cases h
        · have hsh := congrArg Share.headerHex (Rebuilt.share.inj h)
          exact ⟨headerBytes, hsh ▸ hheader⟩
      · have hsh := congrArg Share.headerHex (Rebuilt.share.inj h)
        exact ⟨headerBytes, hsh ▸ hheader⟩
    · cases h

/-- The aux work of a share is that of its job. -/
theorem auxWorkFor_congr {sh' : Share} (hid : sh'.sub.jobId = sh.sub.jobId)
    (hjob : sh'.job = sh.job) (hk : Kin s t) : auxWorkFor env t sh' = auxWorkFor env s sh := by
  unfold auxWorkFor
  rw [hid, hjob, hk.address, hk.auxJobs]

theorem watched_submitBlockCandidate {P : Unit → Phase → Prop} (hr : RebuiltShare env s task sh)
    (hfound : q.found = some (sh.sub.jobId, sh.job)) (hh : q.Hands sh.hash)
    (hmeets : sh.meetsNetwork = true) (hm : t.minerId = s.minerId)
    (hP : ∀ q', q'.base = ({ q with handed := true } : Phase).base → P () q') :
    Watched env s task (submitBlockCandidate env t sh) P q := by
  have finish (q₁ : Phase) (hq₁ : q₁.base = q.base) (hclock : ∃ now, q₁ = { q with clock := now })
      (b : Bool) : Watched env s task
        (if b = true then ask (.submitBlock
          { block := candidateBlock env sh, hash := sh.hash, minerId := t.minerId })
        else ask (.withholdBlock sh.hash)) P q₁ := by
    obtain ⟨now, rfl⟩ := hclock
    cases b with
    | true =>
      refine watched_ask (k := Prog.ret) ⟨hh, .inl ⟨sh, hr, hfound, rfl, rfl, hmeets⟩, hm⟩ ?_
      exact fun _ => hP _ rfl
    | false => exact watched_ask (k := Prog.ret) hh fun _ => hP _ rfl
  unfold submitBlockCandidate rttAllows
  refine watched_bind ?_
  split
  · exact watched_ask trivial fun now =>
      finish (Phase.next .nowUnix q now) rfl ⟨some now, rfl⟩ _
  · exact finish q rfl ⟨q.clock, rfl⟩ true

/-- The aux end of a share: its work was submitted before or is now, or its
target is not hex. -/
theorem watched_maybeSubmitAux {P : Outcome → Phase → Prop} {v : Verdict}
    (hr : RebuiltShare env s task sh) (hfound : q.found = some (sh.sub.jobId, sh.job))
    (hv : q.verdict = some v) (hhash : v.hash = sh.hash) (hfirst : q.first = some true)
    (haux : q.aux = none) (hk : Kin s t)
    (hdone : ∀ t' aux, t'.minerId = s.minerId →
      (∀ saj target, auxWorkFor env s sh = some saj → hexToBytes saj.auxTarget = some target →
        byteLe sh.hash.bytes target = true →
        saj.dogeBlockHash ∈ s.dogeSubmitted ∨ aux = some saj.dogeBlockHash) →
      P (.done t') { q with aux := aux })
    (hthrew : ∀ saj, auxWorkFor env s sh = some saj → Broken env s q →
      hexToBytes saj.auxTarget = none → P (.threw t) q) :
    Watched env s task (maybeSubmitAuxBlock env t sh) P q := by
  have hwork : auxWorkFor env t sh = auxWorkFor env s sh := auxWorkFor_congr rfl rfl hk
  have same (h : ∀ saj target, auxWorkFor env s sh = some saj →
      hexToBytes saj.auxTarget = some target → byteLe sh.hash.bytes target = true →
      saj.dogeBlockHash ∈ s.dogeSubmitted) : P (.done t) q := by
    have hd := hdone t none hk.minerId fun saj target h₁ h₂ h₃ => .inl (h saj target h₁ h₂ h₃)
    rwa [← haux] at hd
  unfold maybeSubmitAuxBlock
  rw [hwork]
  cases hsaj : auxWorkFor env s sh with
  | none =>
    refine same fun saj target h => ?_
    rw [hsaj] at h
    cases h
  | some saj =>
    obtain ⟨parentHash, hparent⟩ := parentHash_of_rebuilt hr
    dsimp only
    rw [hparent]
    cases htarget : hexToBytes saj.auxTarget with
    | none =>
      have hlook : s.sessionAuxJobs.lookup sh.sub.jobId = some saj := by
        unfold auxWorkFor at hsaj
        split at hsaj
        · exact (Option.filter_eq_some_iff.mp hsaj).1
        · cases hsaj
      exact hthrew saj hsaj (.inr ⟨_, _, saj, hfound, hlook, htarget⟩) htarget
    | some target =>
      dsimp only
      split
      · rename_i hle
        refine same fun saj' target' h₁ h₂ h₃ => ?_
        obtain rfl : saj = saj' := Option.some.inj (hsaj.symm.trans h₁)
        obtain rfl : target = target' := Option.some.inj (htarget.symm.trans h₂)
        simp [h₃] at hle
      · rename_i hle
        split
        · rename_i hold
          refine same fun saj' target' h₁ _ _ => ?_
          obtain rfl : saj = saj' := Option.some.inj (hsaj.symm.trans h₁)
          exact hk.submitted ▸ hold
        · rename_i hnew
          refine watched_ask ⟨?_, haux, hfirst⟩ fun _ => ?_
          · exact ⟨sh, v, saj, target, parentHash, hv, hhash, hr, hfound, hsaj, htarget,
              by simpa using hle, hparent, hk.submitted ▸ hnew, rfl⟩
          · refine hdone _ (some saj.dogeBlockHash) hk.minerId fun saj' target' h₁ _ _ => ?_
            obtain rfl : saj = saj' := Option.some.inj (hsaj.symm.trans h₁)
            exact .inr rfl

/-- After the share was handed over where it had to be, and the aux work was
looked at, the task is settled. -/
theorem settled_v1 (path : SharePath) {q' : Phase}
    (hfound : q'.found = some (sh.sub.jobId, sh.job))
    (hv : q'.verdict = some ⟨path, sh.hash, some sh.job, sh.meetsNetwork⟩)
    (hpath : path.isV2 = false) (hfirst : path ≠ .v1LowDiff → q'.first ≠ none)
    (hhanded : sh.meetsNetwork = true → path = .v1LowDiff ∨ q'.first = some true →
      q'.handed = true ∨ Broken env s q')
    (haux : path ≠ .v1LowDiff → q'.first = some true → ∀ saj target,
      auxWorkFor env s sh = some saj → hexToBytes saj.auxTarget = some target →
      byteLe sh.hash.bytes target = true →
      saj.dogeBlockHash ∈ s.dogeSubmitted ∨ q'.aux = some saj.dogeBlockHash ∨
        Unsendable env s q') : Settled env s q' := by
  refine ⟨?_, ?_, ?_⟩
  · intro v hv' hlow _
    obtain rfl := Option.some.inj (hv.symm.trans hv')
    exact hfirst hlow
  · intro v hv' hmeets hor
    obtain rfl := Option.some.inj (hv.symm.trans hv')
    exact hhanded hmeets hor
  · intro v sh' saj target hv' hpath' hf hfound' hwork htarget hle
    obtain rfl := Option.some.inj (hv.symm.trans hv')
    obtain ⟨hid, hjob⟩ := Prod.mk.inj (Option.some.inj (hfound.symm.trans hfound'))
    rw [auxWorkFor_congr hid.symm hjob.symm (.refl s)] at hwork
    refine haux ?_ hf saj target hwork htarget hle
    rcases hpath' with rfl | rfl <;> simp

theorem watched_reject {reason : Str} {code : Nat} {idJson : Str} {P : Outcome → Phase → Prop}
    (hP : ∀ o, P o q) : Watched env s task (reject t idJson reason code) P q := by
  refine watched_ask trivial fun _ => watched_ask trivial fun ban => ?_
  exact hP _

theorem watched_lowDiffShare {idJson : Str} (h : Ready env s task sh q) (hc : q.Current sh.job)
    (hlow : TooLow env s q.steady sh) :
    Watched env s task (lowDiffShare env s idJson sh) (fun _ => Settled env s) q := by
  unfold lowDiffShare
  refine watched_ask ⟨h.verdict, sh, h.rebuilt, h.found, hc, fun _ => hlow, rfl, rfl, rfl⟩ fun _ => ?_
  have finish (q' : Phase) (hb : q'.found = q.found)
      (hv : q'.verdict = some ⟨.v1LowDiff, sh.hash, some sh.job, sh.meetsNetwork⟩)
      (hh : sh.meetsNetwork = true → q'.handed = true) :
      Watched env s task (reject s idJson "low difficulty share".toList 23) (fun _ => Settled env s) q' := by
    refine watched_reject fun o => settled_v1 _ (hb.trans h.found) hv rfl (by simp) ?_ (by simp)
    exact fun hm _ => .inl (hh hm)
  refine watched_bind (watched_whenDo (fun hm => ?_) fun hm => ?_)
  · refine watched_submitBlockCandidate h.rebuilt h.found ?_ hm rfl fun q' hq' => ?_
    · exact ⟨_, rfl, rfl, hm, h.handed, .inl rfl⟩
    · have hfound := congrArg Phase.found hq'
      have hverdict := congrArg Phase.verdict hq'
      have hhanded := congrArg Phase.handed hq'
      exact finish q' hfound hverdict fun _ => hhanded
  · refine finish _ rfl rfl fun h' => ?_
    rw [hm] at h'
    cases h'

theorem watched_staleShare {idJson : Str} (h : Ready env s task sh q) (hs : q.Superseded sh.job) :
    Watched env s task (staleShare env s idJson sh) (fun _ => Settled env s) q := by
  unfold staleShare
  refine watched_ask ⟨h.verdict, sh, h.rebuilt, h.found, hs, by simp, rfl, rfl, rfl⟩ fun _ => ?_
  refine watched_ask ⟨_, rfl, rfl, h.first, h.handed, h.credited, by simp, fun h2 => ?_⟩
    fun first => ?_
  · cases h2
  have finish (t : Session) (q' : Phase) (hs : Settled env s q') :
      Watched env s task (do
        ask (.send (.reject idJson 21 "stale share - job for previous block".toList))
        return Outcome.done t.countReject) (fun _ => Settled env s) q' :=
    watched_ask trivial fun _ => hs
  refine watched_thenDo ?_
  cases first with
  | false =>
    refine finish s _ (settled_v1 .v1Stale h.found rfl rfl ?_ ?_ ?_)
    · exact fun _ => by simp [Phase.next]
    · rintro _ (h' | h') <;> cases h'
    · intro _ h'
      cases h'
  | true =>
    show Watched env s task (submitStale env s sh) _ _
    have aux (q₁ : Phase) (hfound : q₁.found = some (sh.sub.jobId, sh.job))
        (hv : q₁.verdict = some ⟨.v1Stale, sh.hash, some sh.job, sh.meetsNetwork⟩)
        (hfirst : q₁.first = some true) (haux : q₁.aux = none)
        (hh : sh.meetsNetwork = true → q₁.handed = true) :
        Watched env s task (maybeSubmitAuxBlock env s sh) (fun o q' => match o with
          | .done t => Watched env s task (do
              ask (.send (.reject idJson 21 "stale share - job for previous block".toList))
              return Outcome.done t.countReject) (fun _ => Settled env s) q'
          | .threw _ => Settled env s q') q₁ := by
      refine watched_maybeSubmitAux h.rebuilt hfound hv rfl hfirst haux (.refl s) ?_ ?_
      · intro t a _ ha
        refine finish t _ (settled_v1 _ hfound hv rfl (fun _ => by simp [hfirst])
          (fun hm _ => .inl (hh hm)) fun _ _ saj target h₁ h₂ h₃ => ?_)
        exact (ha saj target h₁ h₂ h₃).imp_right .inl
      · intro saj hsaj _ hx
        refine settled_v1 _ hfound hv rfl (fun _ => by simp [hfirst]) (fun hm _ => .inl (hh hm)) ?_
        intro _ _ saj' target h₁ h₂ _
        obtain rfl : saj = saj' := Option.some.inj (hsaj.symm.trans h₁)
        rw [hx] at h₂
        cases h₂
    refine watched_bind (watched_whenDo (fun hm => ?_) fun hm => ?_)
    · refine watched_submitBlockCandidate h.rebuilt h.found ?_ hm rfl fun q' hq' => ?_
      · exact ⟨_, rfl, rfl, hm, h.handed, .inr rfl⟩
      · have hfound := congrArg Phase.found hq'
        have hverdict := congrArg Phase.verdict hq'
        have hfirst := congrArg Phase.first hq'
        have haux := congrArg Phase.aux hq'
        have hhanded := congrArg Phase.handed hq'
        exact aux q' (hfound.trans h.found) hverdict hfirst (haux.trans h.aux) fun _ => hhanded
    · refine aux _ h.found rfl rfl h.aux fun h' => ?_
      rw [hm] at h'
      cases h'

theorem watched_finishFresh {targetDiff : ℚ} (hr : RebuiltShare env s task sh)
    (hfound : q.found = some (sh.sub.jobId, sh.job))
    (hv : q.verdict = some ⟨.v1Fresh, sh.hash, some sh.job, sh.meetsNetwork⟩)
    (hfirst : q.first = some true) (hcredited : q.credited = true) (hstored : q.stored = false)
    (hhanded : q.handed = false) (haux : q.aux = none) (hk : Kin s t) :
    Watched env s task (finishFresh env t sh targetDiff) (fun _ => Settled env s) q := by
  have store (b : Bool) : Watched env s task
      (thenDo (maybeSubmitAuxBlock env t sh) fun t => do
        whenDo sh.meetsNetwork (submitBlockCandidate env t sh)
        return .done t) (fun _ => Settled env s) { q with stored := b } := by
    refine watched_thenDo (watched_maybeSubmitAux hr hfound hv rfl hfirst haux hk ?_ ?_)
    · intro t' a hm ha
      refine watched_bind (watched_whenDo (fun hmeets => ?_) fun hmeets => ?_)
      · refine watched_submitBlockCandidate hr hfound ?_ hmeets hm fun q' hq' => ?_
        · exact ⟨_, hv, rfl, hmeets, hhanded, .inr hfirst⟩
        · have hfound' := congrArg Phase.found hq'
          have hverdict' := congrArg Phase.verdict hq'
          have hfirst' := congrArg Phase.first hq'
          have haux' := congrArg Phase.aux hq'
          have hhanded' := congrArg Phase.handed hq'
          have hf : q'.first = some true := hfirst'.trans hfirst
          refine settled_v1 .v1Fresh (hfound'.trans hfound) (hverdict'.trans hv) rfl
            (fun _ => by simp [hf]) (fun _ _ => .inl hhanded') ?_
          intro _ _ saj target h₁ h₂ h₃
          exact (ha saj target h₁ h₂ h₃).imp_right fun h => .inl (Eq.trans haux' h)
      · refine settled_v1 .v1Fresh hfound hv rfl (fun _ => by simp [hfirst]) ?_ ?_
        · intro h' _
          rw [hmeets] at h'
          cases h'
        · intro _ _ saj target h₁ h₂ h₃
          exact (ha saj target h₁ h₂ h₃).imp_right .inl
    · intro saj hsaj broken hx
      refine settled_v1 .v1Fresh hfound hv rfl (fun _ => by simp [hfirst])
        (fun _ _ => .inr broken) ?_
      intro _ _ saj' target h₁ h₂ _
      obtain rfl : saj = saj' := Option.some.inj (hsaj.symm.trans h₁)
      rw [hx] at h₂
      cases h₂
  unfold finishFresh persistShare
  refine watched_bind (watched_whenDo (fun _ => ?_) fun _ => ?_)
  · refine watched_ask (k := Prog.ret) ?_ fun _ => store true
    exact ⟨_, hv, rfl, hk.minerId, hcredited, hstored⟩
  · have hs := store false
    rwa [← hstored] at hs

theorem watched_freshShare {idJson : Str} {targetDiff : ℚ} (h : Ready env s task sh q)
    (hc : q.Current sh.job) :
    Watched env s task (freshShare env s idJson sh targetDiff) (fun _ => Settled env s) q := by
  obtain ⟨now, hclock, hvalid⟩ := h.timely
  unfold freshShare
  refine watched_ask ⟨h.verdict, sh, h.rebuilt, h.found, hc, by simp, rfl, rfl, rfl⟩ fun _ => ?_
  refine watched_ask ⟨_, rfl, rfl, h.first, h.handed, h.credited, by simp, fun h2 => ?_⟩
    fun first => ?_
  · cases h2
  cases first with
  | false =>
    refine watched_ask trivial fun _ => ?_
    refine settled_v1 .v1Fresh h.found rfl rfl (fun _ => by simp [Phase.next]) ?_ ?_
    · rintro _ (h' | h') <;> cases h'
    · intro _ h'
      cases h'
  | true =>
    refine watched_ask trivial fun _ => watched_ask ?_ fun _ => ?_
    · exact ⟨_, rfl, rfl, rfl, rfl, h.credited, by simp, by simp, fun _ => rfl, fun _ =>
        ⟨_, now, rfl, hclock, hvalid⟩, fun hpath => by cases hpath⟩
    refine watched_ask trivial fun _ => watched_ask trivial fun _ => ?_
    have hk : Kin s s.countAccept := ⟨rfl, rfl, rfl, rfl, rfl⟩
    refine watched_thenDo (Monitor.obeys_mono _ (watched_vardiffTick hk) fun o q' hq' => ?_)
    obtain ⟨hbase, ho⟩ := hq'
    have hfound := congrArg Phase.found hbase
    have hverdict := congrArg Phase.verdict hbase
    have hfirst := congrArg Phase.first hbase
    have hcredited := congrArg Phase.credited hbase
    have hstored := congrArg Phase.stored hbase
    have hhanded := congrArg Phase.handed hbase
    have haux := congrArg Phase.aux hbase
    cases o with
    | done t =>
      exact watched_finishFresh h.rebuilt (hfound.trans h.found) hverdict hfirst hcredited
        (hstored.trans h.stored) (hhanded.trans h.handed) (haux.trans h.aux) ho
    | threw t =>
      have unsendable : Unsendable env s q' := ho
      have hf : q'.first = some true := hfirst
      exact settled_v1 .v1Fresh (hfound.trans h.found) hverdict rfl
        (fun _ => by simp [hf]) (fun _ _ => .inr (.inl unsendable))
        fun _ _ _ _ _ _ _ => .inr (.inr unsendable)

/-- The difficulty a share is held to lets it through, or it is too low. -/
theorem watched_graceTarget (sh : Share) {P : ℚ → Phase → Prop}
    (hP : ∀ target q', q'.base = q.base → q'.tip = q.tip → q'.clock = q.clock →
      (sh.diff env < target * tolerance env → TooLow env s q'.steady sh) → P target q') :
    Watched env s task (graceTarget env s (sh.diff env)) P q := by
  unfold graceTarget
  split
  · rename_i hlt
    refine watched_ask trivial fun now => ?_
    split
    · rename_i hgrace
      exact hP _ _ rfl rfl rfl fun hlow => absurd hgrace.2 (not_le.mpr hlow)
    · rename_i hgrace
      exact hP _ _ rfl rfl rfl fun hlow => ⟨hlow, fun _ => ⟨now, rfl, hgrace⟩⟩
  · rename_i hge
    exact hP _ _ rfl rfl rfl fun hlow => ⟨hlow, fun hlt => absurd hlt hge⟩

theorem Ready.base {q' : Phase} (h : Ready env s task sh q) (hbase : q'.base = q.base)
    (hclock : q'.clock = q.clock) : Ready env s task sh q' := by
  have hfound := congrArg Phase.found hbase
  have hverdict := congrArg Phase.verdict hbase
  have hfirst := congrArg Phase.first hbase
  have hcredited := congrArg Phase.credited hbase
  have hstored := congrArg Phase.stored hbase
  have hhanded := congrArg Phase.handed hbase
  have haux := congrArg Phase.aux hbase
  exact ⟨h.rebuilt, Eq.trans hfound h.found, hclock ▸ h.timely, Eq.trans hverdict h.verdict,
    Eq.trans hfirst h.first, Eq.trans hcredited h.credited, Eq.trans hstored h.stored,
    Eq.trans hhanded h.handed, Eq.trans haux h.aux⟩

theorem watched_scoreShare {idJson : Str} (h : Ready env s task sh q) (hc : q.Current sh.job) :
    Watched env s task (scoreShare env s idJson sh) (fun _ => Settled env s) q := by
  unfold scoreShare
  refine watched_bind (watched_graceTarget sh fun target q' hbase htip hclock hlow => ?_)
  have ready : Ready env s task sh q' := h.base hbase hclock
  have current : q'.Current sh.job := by
    unfold Phase.Current
    rw [htip]
    exact hc
  split
  · rename_i hlt
    exact watched_lowDiffShare ready current (hlow hlt)
  · exact watched_freshShare ready current

/-- What a share is rebuilt from is what it carries. -/
theorem rebuildShare_fields {job : MiningJob} {sub : Submission} {ntimeS : Str}
    {ntime version : UInt32} (h : rebuildShare env s job sub ntimeS ntime version = .share sh) :
    sh.job = job ∧ sh.sub = sub ∧ sh.ntime = ntime := by
  unfold rebuildShare at h
  split at h
  · cases h
  · dsimp only at h
    split at h
    · split at h
      · split at h
        · cases h
        · cases h
          exact ⟨rfl, rfl, rfl⟩
      · cases h
        exact ⟨rfl, rfl, rfl⟩
    · cases h

theorem watched_submitOnJob {idJson : Str} {msg : Json} {sub : Submission} {job : MiningJob}
    (htask : task = .line (some msg)) (hparse : parseSubmit env s msg = .ok sub) :
    Watched env s task (submitOnJob env s idJson sub job) (fun _ => Settled env s)
      { found := some (sub.jobId, job) } := by
  unfold submitOnJob
  refine watched_ask (c := .currentPrevhash) rfl fun curPrev => ?_
  dsimp only
  split
  · exact watched_reject fun o => settled_of_none rfl
  · rename_i ntime hntime
    refine watched_ask trivial fun now => ?_
    split
    · exact watched_reject fun o => settled_of_none rfl
    · rename_i hvalid
      split
      · exact watched_reject fun o => settled_of_none rfl
      · rename_i version hroll
        split
        · exact settled_of_none rfl
        · exact watched_reject fun o => settled_of_none rfl
        · rename_i sh hsh
          obtain ⟨rfl, rfl, rfl⟩ := rebuildShare_fields hsh
          have hrebuilt : RebuiltShare env s task sh := 
            ⟨msg, version, htask, hparse, hntime, hroll, hsh⟩
          have ready : Ready env s task sh (Phase.next .nowUnix
              (Phase.next .currentPrevhash { found := some (sh.sub.jobId, sh.job) } curPrev) now) :=
            ⟨hrebuilt, rfl, ⟨now, rfl, by simpa using hvalid⟩, rfl, rfl, rfl, rfl, rfl, rfl⟩
          split
          · rename_i hstale
            refine watched_staleShare ready ⟨curPrev, rfl, ?_⟩
            simpa using hstale
          · rename_i hfresh
            refine watched_scoreShare ready ⟨curPrev, rfl, ?_⟩
            by_cases hempty : curPrev = []
            · exact .inl hempty
            · exact .inr (by simpa [hempty] using hfresh)

theorem watched_handleSubmit {msg : Json} (htask : task = .line (some msg)) :
    Watched env s task (handleSubmit env s msg) (fun _ => Settled env s) {} := by
  unfold handleSubmit
  dsimp only
  split
  · exact watched_reject fun o => settled_of_none rfl
  · split
    · exact watched_reject fun o => settled_of_none rfl
    · rename_i sub hparse
      split
      · exact watched_reject fun o => settled_of_none rfl
      · refine watched_ask (c := .findJob sub.jobId) rfl fun job => ?_
        cases job with
        | none => exact watched_reject fun o => settled_of_none rfl
        | some job => exact watched_submitOnJob htask hparse

end Shares

/-! ## V2 shares -/

/-- Nothing was done with a share yet. -/
structure Blank (q : Phase) : Prop where
  verdict : q.verdict = none
  first : q.first = none
  credited : q.credited = false
  stored : q.stored = false
  handed : q.handed = false

section SharesV2

variable {env : Env} {s t : Session} {task : Task} {sh : ShareV2} {q : Phase}

theorem aside_sendV2 {msg : Reply} : (sendV2 s msg).All Aside := by
  unfold sendV2
  split
  · exact trivial
  · exact Prog.all_perform trivial

theorem watched_sendV2 {msg : Reply} {P : Unit → Phase → Prop} (hP : P () q) :
    Watched env s task (sendV2 t msg) P q := by
  unfold sendV2
  split
  · exact hP
  · exact watched_ask (k := Prog.ret) trivial fun _ => hP

theorem watched_findShareJob {id : UInt32} :
    Watched env s task (findShareJob id)
      (fun job q' => Blank q' ∧ ∀ j, job = some j → q'.Names id j) {} := by
  have search (q₁ : Phase) (hq₁ : Blank q₁) :
      Watched env s task (ask (.findJobU32 id))
        (fun job q' => Blank q' ∧ ∀ j, job = some j → q'.Names id j) q₁ := by
    refine watched_ask (k := Prog.ret) hq₁.verdict fun x => ⟨?_, fun j hj => .inr ?_⟩
    · exact ⟨hq₁.verdict, hq₁.first, hq₁.credited, hq₁.stored, hq₁.handed⟩
    · show x.map _ = _
      rw [hj]
      rfl
  unfold findShareJob
  refine watched_ask trivial fun x => ?_
  cases x with
  | none => exact search _ ⟨rfl, rfl, rfl, rfl, rfl⟩
  | some job =>
    dsimp only
    split
    · rename_i hid
      refine ⟨⟨rfl, rfl, rfl, rfl, rfl⟩, fun j hj => ?_⟩
      obtain rfl := Option.some.inj hj
      exact .inl ⟨rfl, hid⟩
    · exact search _ ⟨rfl, rfl, rfl, rfl, rfl⟩

theorem watched_rejectV2 {sequenceNumber : UInt32} {code : String} {P : Outcome → Phase → Prop}
    (hP : P (.done t.countReject) q) :
    Watched env s task (rejectV2 t sequenceNumber code) P q :=
  watched_bind (watched_sendV2 hP)

theorem settled_v2 {path : SharePath} {q' : Phase}
    (hv : q'.verdict = some ⟨path, sh.hash, sh.job, sh.meetsNetwork⟩) (hpath : path.isV2 = true)
    (hfirst : sh.meetsNetwork = true → q'.first ≠ none)
    (hhanded : sh.meetsNetwork = true → q'.first = some true → q'.handed = true) :
    Settled env s q' := by
  refine ⟨?_, ?_, ?_⟩
  · intro v hv' _ hmeets
    obtain rfl := Option.some.inj (hv.symm.trans hv')
    exact hfirst (hmeets hpath)
  · intro v hv' hmeets hor
    obtain rfl := Option.some.inj (hv.symm.trans hv')
    refine .inl (hhanded hmeets (hor.resolve_left ?_))
    rintro rfl
    cases hpath
  · intro v sh' saj target hv' hor
    obtain rfl := Option.some.inj (hv.symm.trans hv')
    rcases hor with rfl | rfl <;> cases hpath

/-- The state of a V2 share after its target comparison. -/
structure Sighted (sh : ShareV2) (path : SharePath) (q : Phase) : Prop where
  verdict : q.verdict = some ⟨path, sh.hash, sh.job, sh.meetsNetwork⟩
  credited : q.credited = false
  stored : q.stored = false
  first : sh.meetsNetwork = true → q.first ≠ none
  handed : sh.meetsNetwork = true → q.first = some true → q.handed = true

theorem watched_submitAtFirstSight {path : SharePath} {emptyBlock : Bool} (hb : Blank q)
    (hpath : path.isV2 = true) (hj : q.Judges env s task ⟨path, sh.hash, sh.job, sh.meetsNetwork⟩)
    (ha : sh.meetsNetwork = true →
      q.Assembles env s task { block := sv2Block sh emptyBlock, hash := sh.hash, minerId := s.minerId }) :
    Watched env s task (submitAtFirstSight env s path sh emptyBlock)
      (fun _ q' => Sighted sh path q') q := by
  unfold submitAtFirstSight
  refine watched_ask ⟨hb.verdict, hj⟩ fun _ => watched_whenDo (fun hm => ?_) fun hm => ?_
  · refine watched_ask ⟨_, rfl, rfl, hb.first, hb.handed, hb.credited, ?_, fun _ => hm⟩
      fun first => watched_whenDo (fun hf => ?_) fun hf => ?_
    · rintro rfl
      cases hpath
    · obtain rfl : first = true := hf
      have hands : Phase.Hands (Phase.next (.registerShare sh.hashHex)
          (Phase.next (.scored path sh.hash sh.job sh.meetsNetwork) q ()) true) sh.hash :=
        ⟨_, rfl, rfl, hm, hb.handed, .inr rfl⟩
      have finish (q₁ : Phase) (hclock : ∃ now, q₁ = { Phase.next (.registerShare sh.hashHex)
          (Phase.next (.scored path sh.hash sh.job sh.meetsNetwork) q ()) true with clock := now })
          (b : Bool) : Watched env s task
            (if b = true then ask (.submitBlock
              { block := sv2Block sh emptyBlock, hash := sh.hash, minerId := s.minerId })
            else ask (.withholdBlock sh.hash)) (fun _ q' => Sighted sh path q') q₁ := by
        obtain ⟨now, rfl⟩ := hclock
        cases b with
        | true =>
          refine watched_ask (k := Prog.ret) ⟨hands, ha hm, rfl⟩ fun _ => ?_
          exact ⟨rfl, hb.credited, hb.stored, fun _ => by simp [Phase.next], fun _ _ => rfl⟩
        | false =>
          refine watched_ask (k := Prog.ret) hands fun _ => ?_
          exact ⟨rfl, hb.credited, hb.stored, fun _ => by simp [Phase.next], fun _ _ => rfl⟩
      unfold submitBlockSv2 rttAllowsV2
      refine watched_bind ?_
      split
      · unfold rttAllows
        split
        · exact watched_ask trivial fun now => finish _ ⟨some now, rfl⟩ _
        · exact finish _ ⟨q.clock, rfl⟩ true
      · exact finish _ ⟨q.clock, rfl⟩ true
    · obtain rfl : first = false := hf
      exact ⟨rfl, hb.credited, hb.stored, fun _ => by simp [Phase.next], fun _ h => by cases h⟩
  · refine ⟨rfl, hb.credited, hb.stored, fun h => ?_, fun h => ?_⟩ <;>
    · rw [hm] at h
      cases h

theorem Sighted.settled {path : SharePath} (h : Sighted sh path q)
    (hpath : path.isV2 = true) : Settled env s q :=
  settled_v2 h.verdict hpath h.first h.handed

theorem Sighted.base {path : SharePath} {q' : Phase} (h : Sighted sh path q)
    (hbase : q'.base = q.base) : Sighted sh path q' := by
  have hverdict := congrArg Phase.verdict hbase
  have hfirst := congrArg Phase.first hbase
  have hcredited := congrArg Phase.credited hbase
  have hstored := congrArg Phase.stored hbase
  have hhanded := congrArg Phase.handed hbase
  refine ⟨hverdict.trans h.verdict, hcredited.trans h.credited, hstored.trans h.stored, ?_, ?_⟩
  · intro hm hf
    exact h.first hm (hfirst.symm.trans hf)
  · intro hm hf
    exact hhanded.trans (h.handed hm (hfirst.symm.trans hf))

theorem watched_graceTargetV2 {shareDiff seconds tol : ℚ} {P : ℚ → Phase → Prop}
    (hP : ∀ target r, P target { q with steady := r }) :
    Watched env s task (graceTargetV2 t shareDiff seconds tol) P q := by
  unfold graceTargetV2
  split
  · refine watched_ask trivial fun now => ?_
    split <;> exact hP _ (some now)
  · exact hP _ q.steady

theorem watched_vardiffTickV2 {targetDiff networkDiff : ℚ} {P : Outcome → Phase → Prop}
    (hP : ∀ t' r, t'.minerId = t.minerId → P (.done t') { q with steady := r }) :
    Watched env s task (vardiffTickV2 env t targetDiff networkDiff) P q := by
  unfold vardiffTickV2
  refine watched_ask trivial fun now => ?_
  dsimp only
  split
  · unfold sendSetTarget
    refine watched_ask trivial fun now' => watched_bind (watched_sendV2 ?_)
    exact hP _ (some now') rfl
  · exact hP _ (some now) rfl

/-- The credit of a V2 share: counted, and stored for a miner that has a row. -/
theorem watched_creditV2 {path : SharePath} {ntime : UInt32} {diff : ℚ} {tick : Bool}
    {networkDiff targetDiff : ℚ} {rec : Session → ShareRecord} (h : Sighted sh path q)
    (hpath : path.isV2 = true)
    (hjob : path ≠ .v2Standard → ∃ j now, sh.job = some j ∧ q.clock = some now ∧
      validNtime ntime j.mintime now = true)
    (hmsg : path = .v2Standard →
      ∃ msg, task = .message (.submitSharesStandard msg) ∧ msg.ntime = ntime)
    (hrec : ∀ t, (rec t).shareHash = sh.hashHex ∧ (rec t).minerId = t.minerId) :
    Watched env s task (do
      let s ← acceptShare s path sh.hash sh.job ntime diff
      thenDo (if tick then vardiffTickV2 env s targetDiff networkDiff else return .done s)
        fun s => do
          persistShare s (rec s)
          return .done s) (fun _ => Settled env s) q := by
  unfold acceptShare
  refine watched_bind (watched_ask ?_ fun _ => watched_ask trivial fun _ => ?_)
  · refine ⟨_, h.verdict, rfl, rfl, rfl, h.credited, ?_, ?_, ?_, hjob, hmsg⟩ <;>
    · rintro rfl
      cases hpath
  have finish (t : Session) (r : Option ℚ) (hm : t.minerId = s.minerId) : Watched env s task (do
      persistShare t (rec t)
      return Outcome.done t) (fun _ => Settled env s) { q with credited := true, steady := r } := by
    unfold persistShare
    refine watched_bind (watched_whenDo (fun _ => ?_) fun _ => ?_)
    · refine watched_ask (k := Prog.ret) ?_ fun _ => ?_
      · exact ⟨_, h.verdict, (hrec t).1, (hrec t).2.trans hm, rfl, h.stored⟩
      · exact settled_v2 h.verdict hpath h.first h.handed
    · exact settled_v2 h.verdict hpath h.first h.handed
  refine watched_thenDo ?_
  cases tick with
  | true => exact watched_vardiffTickV2 fun t' r hm => finish t' r hm
  | false => exact finish _ q.steady rfl

theorem watched_scoreStandard {msg : SubmitSharesStandard}
    (htask : task = .message (.submitSharesStandard msg)) (hb : Blank q)
    (hr : RebuiltStandard env s task q.Names sh) :
    Watched env s task (scoreStandard env s msg sh) (fun _ => Settled env s) q := by
  unfold scoreStandard
  refine watched_bind (Monitor.obeys_mono _ (watched_submitAtFirstSight hb rfl
    ⟨sh, hr, rfl, rfl, rfl⟩ fun hm => .inr (.inl ⟨sh, hr, rfl, rfl, hm⟩)) fun _ q' h => ?_)
  refine watched_bind (watched_graceTargetV2 fun targetDiff r => ?_)
  replace h : Sighted sh .v2Standard { q' with steady := r } := h.base rfl
  split
  · exact watched_rejectV2 (h.settled rfl)
  · refine watched_bind (watched_sendV2 ?_)
    exact watched_creditV2 h rfl (by simp) (fun _ => ⟨msg, htask, rfl⟩) fun t => ⟨rfl, rfl⟩

theorem job_of_hashShare {job : Option MiningJob} {headerHex cbHex bitsHex : Str}
    (h : hashShare env job headerHex cbHex bitsHex = some sh) : sh.job = job := by
  obtain ⟨headerBytes, _, h⟩ := Option.bind_eq_some_iff.mp h
  obtain ⟨netTarget, _, h⟩ := Option.bind_eq_some_iff.mp h
  cases h
  rfl

theorem job_of_rebuildCustom {cj : CustomJob} {msg : SubmitSharesStandard}
    (h : rebuildCustom env cj msg = some sh) : sh.job = none := by
  obtain ⟨root, _, h⟩ := Option.bind_eq_some_iff.mp h
  exact job_of_hashShare h

theorem job_of_rebuildStandard {job : MiningJob} {msg : SubmitSharesStandard}
    (h : rebuildStandard env s job msg = some sh) : sh.job = some job := by
  obtain ⟨txid, _, h⟩ := Option.bind_eq_some_iff.mp h
  split at h <;>
  · obtain ⟨root, _, h⟩ := Option.bind_eq_some_iff.mp h
    exact job_of_hashShare h

theorem job_of_rebuildExtended {job : MiningJob} {msg : SubmitSharesExtended}
    (h : rebuildExtended env s job msg = some sh) : sh.job = some job := by
  obtain ⟨txid, _, h⟩ := Option.bind_eq_some_iff.mp h
  obtain ⟨root, _, h⟩ := Option.bind_eq_some_iff.mp h
  exact job_of_hashShare h

theorem watched_handleSubmitSharesV2 {msg : SubmitSharesStandard}
    (htask : task = .message (.submitSharesStandard msg)) :
    Watched env s task (handleSubmitSharesV2 env s msg) (fun _ => Settled env s) {} := by
  unfold handleSubmitSharesV2
  split
  · rename_i cj hcj
    split
    · exact settled_of_none rfl
    · rename_i sh hsh
      exact watched_scoreStandard htask ⟨rfl, rfl, rfl, rfl, rfl⟩ ⟨msg, htask, .inr ⟨cj, hcj, hsh⟩⟩
  · rename_i hcj
    refine watched_bind (Monitor.obeys_mono _ watched_findShareJob fun job q' h => ?_)
    obtain ⟨hb, hh⟩ := h
    cases job with
    | none => exact watched_rejectV2 (settled_of_none hb.verdict)
    | some job =>
      dsimp only
      split
      · exact settled_of_none hb.verdict
      · rename_i sh hsh
        exact watched_scoreStandard htask hb ⟨msg, htask, .inl ⟨hcj, job, hh job rfl, hsh⟩⟩

theorem watched_handleSubmitSharesExtendedV2 {msg : SubmitSharesExtended}
    (htask : task = .message (.submitSharesExtended msg)) :
    Watched env s task (handleSubmitSharesExtendedV2 env s msg) (fun _ => Settled env s) {} := by
  unfold handleSubmitSharesExtendedV2
  split
  · exact settled_of_none rfl
  · refine watched_bind (Monitor.obeys_mono _ watched_findShareJob fun job q' h => ?_)
    obtain ⟨hb, hh⟩ := h
    cases job with
    | none => exact watched_rejectV2 (settled_of_none hb.verdict)
    | some job =>
      dsimp only
      split
      · exact settled_of_none hb.verdict
      · rename_i sh hsh
        have hjob := job_of_rebuildExtended hsh
        have hr : RebuiltExtended env s task q'.Names sh := ⟨msg, htask, job, hh job rfl, hsh⟩
        unfold scoreExtended
        refine watched_bind (Monitor.obeys_mono _ (watched_submitAtFirstSight hb rfl
          ⟨sh, hr, rfl, rfl, rfl⟩ fun hm => .inr (.inr ⟨sh, hr, rfl, rfl, hm⟩))
          fun _ q₁ h => ?_)
        refine watched_bind (watched_graceTargetV2 fun targetDiff r => ?_)
        replace h : Sighted sh .v2Extended { q₁ with steady := r } := h.base rfl
        split
        · exact watched_rejectV2 (h.settled rfl)
        · refine watched_ask trivial fun now => ?_
          have h' : Sighted sh .v2Extended 
              (Phase.next .nowUnix { q₁ with steady := r } now) := h.base rfl
          split
          · exact watched_rejectV2 (h'.settled rfl)
          · rename_i hvalid
            refine watched_bind (watched_sendV2 ?_)
            refine watched_creditV2 h' rfl (fun _ => ?_) (fun hpath => by cases hpath)
              fun t => ⟨rfl, rfl⟩
            exact ⟨job, now, hjob, rfl, by simpa using hvalid⟩

end SharesV2

/-! ## The other tasks -/

section Others

variable {env : Env} {s : Session} {task : Task}

/-- Calls that store nothing outside the session are on the side. -/
theorem aside_of_small {α : Type} {p : Act α} (hp : p.All Small) : p.All Aside :=
  hp.mono fun c hc => by cases c <;> first | exact hc.elim | trivial

theorem aside_proceedAuth {req : AuthRequest} : (proceedAuth env s req).All Aside := by
  refine all_thenDo ?_ fun s => ⟨trivial, fun _ => ⟨trivial, fun _ => aside_of_small small_emitLatest⟩⟩
  split
  · exact aside_of_small small_sendSetDifficulty
  · exact trivial

theorem aside_onPayoutValidated {req : AuthRequest} {error : Option Str} {valid : Bool} :
    (onPayoutValidated env s req error valid).All Aside := by
  unfold onPayoutValidated
  split
  · exact trivial
  · split
    · exact all_last trivial
    · split
      · exact all_last trivial
      · split
        · split
          · exact aside_proceedAuth
          · exact aside_proceedAuth
        · exact aside_proceedAuth

theorem aside_onDogeValidated {req : AuthRequest} {error : Option Str} {valid : Bool} :
    (onDogeValidated env s req error valid).All Aside := by
  unfold onDogeValidated
  split
  · exact trivial
  · split
    · exact all_last trivial
    · exact aside_proceedAuth

theorem aside_emitJobV2 {job : MiningJob} : (emitJobV2 env s job).All Aside := by
  unfold emitJobV2
  dsimp only
  split
  · exact trivial
  · refine aside_sendV2.bind fun _ => ?_
    split
    · exact trivial
    · exact aside_sendV2.bind fun _ => trivial

theorem aside_notifyNewJob {job : MiningJob} : (notifyNewJob env s job).All Aside := by
  have plain : (notifyPlain env s job).All Aside := by
    unfold notifyPlain
    split
    · exact aside_emitJobV2
    · exact aside_of_small small_emitJob
  unfold notifyNewJob
  split
  · exact trivial
  · split
    · split
      · exact trivial
      · exact plain
      · exact all_last trivial
    · exact plain

theorem aside_finishOpen : (finishOpen env s).All Aside := by
  refine ⟨trivial, fun minerId => all_thenDo ⟨trivial, fun x => ?_⟩ fun s => all_last trivial⟩
  cases x with
  | none => exact trivial
  | some job => exact aside_emitJobV2

theorem aside_handleOpenStandard {msg : OpenStandardMiningChannel} :
    (handleOpenStandard env s msg).All Aside := by
  unfold handleOpenStandard
  dsimp only
  split
  · exact aside_sendV2.bind fun _ => trivial
  · refine ⟨trivial, fun r => ?_⟩
    exact aside_sendV2.bind fun _ => aside_finishOpen

theorem aside_handleOpenExtended {msg : OpenExtendedMiningChannel} :
    (handleOpenExtended env s msg).All Aside := by
  unfold handleOpenExtended
  dsimp only
  split
  · exact aside_sendV2.bind fun _ => trivial
  · refine ⟨trivial, fun r => ?_⟩
    dsimp only [Prog.bind]
    split
    · exact trivial
    · exact aside_sendV2.bind fun _ => aside_finishOpen

theorem aside_handleSetCustomMiningJobV2 {msg : SetCustomMiningJob} :
    (handleSetCustomMiningJobV2 env s msg).All Aside := by
  have reply (t t' : Session) (msg : Reply) :
      Prog.All Aside (do sendV2 t msg; return Outcome.done t' : Act Outcome) :=
    aside_sendV2.bind fun _ => trivial
  exact all_ite (reply s s _) (all_ite (reply s s _) (reply _ _ _))

theorem aside_handleSetupConnection {protocol : UInt8} :
    (handleSetupConnection s protocol).All Aside := by
  unfold handleSetupConnection
  split
  · exact aside_sendV2.bind fun _ => trivial
  · exact aside_sendV2.bind fun _ => trivial

/-- A task of calls on the side is settled. -/
theorem watched_of_aside {p : Act Outcome} (hp : p.All Aside) :
    Watched env s task p (fun _ => Settled env s) {} :=
  watched_aside hp fun _ _ hbase => settled_of_none (verdict_of_base hbase)

theorem watched_processMessageV2 {msg : Request} (htask : task = .message msg) :
    Watched env s task (processMessageV2 env s msg) (fun _ => Settled env s) {} := by
  cases msg with
  | setupConnection protocol => exact watched_of_aside aside_handleSetupConnection
  | openStandardMiningChannel msg => exact watched_of_aside aside_handleOpenStandard
  | openExtendedMiningChannel msg => exact watched_of_aside aside_handleOpenExtended
  | updateChannel | closeChannel | unknown => exact settled_of_none rfl
  | submitSharesStandard msg => exact watched_handleSubmitSharesV2 htask
  | submitSharesExtended msg => exact watched_handleSubmitSharesExtendedV2 htask
  | setCustomMiningJob msg => exact watched_of_aside aside_handleSetCustomMiningJobV2

theorem watched_dispatch {method : Str} {msg : Json} (htask : task = .line (some msg)) :
    Watched env s task (dispatch env s method msg) (fun _ => Settled env s) {} := by
  by_cases hsubmit : method = "mining.submit".toList
  · subst hsubmit
    rw [dispatch_submit]
    exact watched_handleSubmit htask
  · exact watched_of_aside (aside_of_small (small_dispatch hsubmit))

theorem watched_processLine {line : Option Json} (htask : task = .line line) :
    Watched env s task (processLine env s line) (fun _ => Settled env s) {} := by
  unfold processLine
  split
  · exact watched_of_aside (all_last trivial)
  · split
    · exact watched_of_aside (all_last trivial)
    · refine watched_bind (Monitor.obeys_mono _ (watched_dispatch htask) fun o q' h => ?_)
      cases o with
      | done t => exact h
      | threw t => exact watched_ask trivial fun _ => h

/-- **Every task keeps to the watch, and settles the share it scored.** -/
theorem task_watched (env : Env) (s : Session) (t : Tasks.Task) :
    Watched env s t (t.prog env s) (fun _ => Settled env s) {} := by
  cases t with
  | line l => exact watched_processLine rfl
  | message msg => exact watched_processMessageV2 rfl
  | notify job => exact watched_of_aside aside_notifyNewJob
  | validated v error valid =>
    cases v with
    | payout req => exact watched_of_aside aside_onPayoutValidated
    | doge req => exact watched_of_aside aside_onDogeValidated
    | payoutV2 addr =>
      show Watched env s _ (onPayoutV2Validated s error.isSome valid) _ _
      unfold onPayoutV2Validated
      split
      · exact settled_of_none rfl
      · split <;> exact settled_of_none rfl
  | resetShareCounters | disconnect => exact settled_of_none rfl

end Others

end MkPool.ShareWatch
