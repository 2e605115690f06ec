import MkPool.WorkAgreement

/-! # The share a submit is checked as

A submit names a job; the session looks it up and rebuilds one header. What the
task then scores, credits or hands to the node is that share, and no other
(`task_about`). -/
namespace MkPool.Validated
open MkPool.Lib.Interaction MkPool.Utils MkPool.Config MkPool.Job MkPool.Coinbase
open MkPool.Stratifier MkPool.Sv2Messages MkPool.Calls MkPool.ClientSession MkPool.JsonValue
open MkPool.Tasks MkPool.Submit MkPool.StratumV2 MkPool.Desk MkPool.ShareWatch MkPool.DeskWatch
open MkPool.WorkAgreement

/-! ## The share -/

/-- A rebuilt share on any path: its pool job, the version of its work, what
was rebuilt, and the text a block of it is. -/
structure Checked where
  job : Option MiningJob
  version : UInt32
  headerHex : Str
  cbHex : Str
  hash : Hash256
  meetsNetwork : Bool
  block : Str

def ofShare (env : Env) (sh : Share) : Checked where
  job := some sh.job
  version := sh.job.version
  headerHex := sh.headerHex
  cbHex := sh.cbHex
  hash := sh.hash
  meetsNetwork := sh.meetsNetwork
  block := candidateBlock env sh

def ofShareV2 (version : UInt32) (emptyBlock : Bool) (sh : ShareV2) : Checked where
  job := sh.job
  version := version
  headerHex := sh.headerHex
  cbHex := sh.cbHex
  hash := sh.hash
  meetsNetwork := sh.meetsNetwork
  block := sv2Block sh emptyBlock

/-- The share of a line that submits one. -/
def checkedLine (env : Env) (d : DeskState) (msg : Json) : Option Share :=
  match parseSubmit env d.session msg with
  | .error _ => none
  | .ok sub => do
    let job ← d.world.strat.jobs.find sub.jobId
    let ntime ← parseHexU32 (ntimeText env sub)
    let version ← rollVersion env d.session job sub.versionBits
    match rebuildShare env d.session job sub (ntimeText env sub) ntime version with
    | .share sh => some sh
    | _ => none

/-- The version of the work a standard share is of. -/
def standardVersion (d : DeskState) (msg : SubmitSharesStandard) : Option UInt32 :=
  match d.session.sv2CustomJobs.lookup msg.jobId with
  | some cj => some cj.version
  | none => (namedJob d.world.strat.jobs msg.jobId).map (·.version)

/-- The share the task submits, if it submits one that can be rebuilt. -/
def checked (env : Env) (d : DeskState) : Task → Option Checked
  | .line (some msg) => (checkedLine env d msg).map (ofShare env)
  | .message (.submitSharesStandard msg) => do
    let version ← standardVersion d msg
    return ofShareV2 version env.coin.stratumV2EmptyBlocks (← rebuiltStandard env d msg)
  | .message (.submitSharesExtended msg) => do
    let job ← namedJob d.world.strat.jobs msg.jobId
    return ofShareV2 job.version false (← rebuildExtended env d.session job msg)
  | _ => none

/-- If the call is about a share, it is about this one. -/
def About (c? : Option Checked) : Call → Prop
  | .scored _ hash job meets =>
    ∃ c, c? = some c ∧ hash = c.hash ∧ job = c.job ∧ meets = c.meetsNetwork
  | .countAccepted _ hash job _ => ∃ c, c? = some c ∧ hash = c.hash ∧ job = c.job
  | .submitBlock b => ∃ c, c? = some c ∧ b.block = c.block ∧ b.hash = c.hash
  | _ => True

/-- The call is about no share. -/
def OffShares : Call → Prop
  | .scored .. | .countAccepted .. | .submitBlock _ => False
  | _ => True

theorem OffShares.about {c : Call} (h : OffShares c) (c? : Option Checked) : About c? c := by
  cases c <;> first | exact h.elim | trivial

/-! ## What a share is rebuilt from -/

section Rebuilt

variable {env : Env} {s : Session} {job : MiningJob}

/-- The text whose hash a header is scored by: on Zcash the solution follows. -/
def hashedBytes (env : Env) (headerBytes solution : Bytes) : Bytes :=
  if env.coin.chain = .zcash then headerBytes ++ [0xfd, 0x40, 0x05] ++ solution else headerBytes

/-- A V1 share as `rebuildShare` leaves it. -/
structure RebuiltFrom (env : Env) (s : Session) (job : MiningJob) (sub : Submission) (ntimeS : Str)
    (version : UInt32) (sh : Share) : Prop where
  ofJob : sh.job = job
  ofSub : sh.sub = sub
  header : ∃ root, coinbaseAndRoot env s job sub = some (sh.cbHex, root) ∧
    sh.headerHex = submitHeader env job version root ntimeS sub.nonceS
  hash : ∃ headerBytes solution, hexToBytes sh.headerHex = some headerBytes ∧
    hexToBytes sub.solutionS = some solution ∧
    sh.hash = headerHash env (hashedBytes env headerBytes solution)

theorem rebuiltFrom {sub : Submission} {ntimeS : Str} {ntime version : UInt32} {sh : Share}
    (h : rebuildShare env s job sub ntimeS ntime version = .share sh) :
    RebuiltFrom env s job sub ntimeS version sh := by
  obtain ⟨hjob, hsub, _⟩ := rebuildShare_fields h
  refine ⟨hjob, hsub, ?_, ?_⟩
  all_goals
    unfold rebuildShare at h
    split at h
    · cases h
    · rename_i cbHex root hroot
      dsimp only at h
      split at h
      · rename_i headerBytes solution netTarget hheader hsolution _
        split at h
        · rename_i hchain
          split at h
          · cases h
          · cases h
            first
            | exact ⟨root, hroot, rfl⟩
            | exact ⟨headerBytes, solution, hheader, hsolution, by simp [hashedBytes, hchain]⟩
        · rename_i hchain
          cases h
          first
          | exact ⟨root, hroot, rfl⟩
          | exact ⟨headerBytes, solution, hheader, hsolution, by simp [hashedBytes, hchain]⟩
      · cases h

/-- A Stratum V2 share as `hashShare` leaves it. -/
structure HashedFrom (env : Env) (job : Option MiningJob) (headerHex cbHex : Str) (sh : ShareV2) :
    Prop where
  ofJob : sh.job = job
  header : sh.headerHex = headerHex
  coinbase : sh.cbHex = cbHex
  hash : ∃ headerBytes, hexToBytes headerHex = some headerBytes ∧
    sh.hash = headerHash env headerBytes

theorem hashedFrom {job : Option MiningJob} {headerHex cbHex bitsHex : Str} {sh : ShareV2}
    (h : hashShare env job headerHex cbHex bitsHex = some sh) :
    HashedFrom env job headerHex cbHex sh := by
  obtain ⟨headerBytes, hheader, h⟩ := Option.bind_eq_some_iff.mp h
  obtain ⟨netTarget, _, h⟩ := Option.bind_eq_some_iff.mp h
  cases h
  exact ⟨rfl, rfl, rfl, headerBytes, hheader, rfl⟩

/-- The header of a Stratum V2 share, from what its handler puts in. -/
def headerV2 (version ntime nonce : UInt32) (prevhash root bits : Str) : Str :=
  buildBlockHeader (leHexU32 version) prevhash root (leHexU32 ntime) bits (leHexU32 nonce)

theorem standard_hashed {msg : SubmitSharesStandard} {sh : ShareV2}
    (h : rebuildStandard env s job msg = some sh) :
    ∃ root, HashedFrom env (some job)
      (headerV2 msg.version msg.ntime msg.nonce (byteReverseHex job.previousblockhash) root
        (byteReverseHex job.bits)) (standardCoinbase env s job) sh := by
  obtain ⟨txid, _, h⟩ := Option.bind_eq_some_iff.mp h
  split at h <;>
  · obtain ⟨root, _, h⟩ := Option.bind_eq_some_iff.mp h
    exact ⟨root, hashedFrom h⟩

theorem custom_hashed {cj : CustomJob} {msg : SubmitSharesStandard} {sh : ShareV2}
    (h : rebuildCustom env cj msg = some sh) :
    ∃ root cbHex, HashedFrom env none
      (headerV2 msg.version msg.ntime msg.nonce (bytesToHex cj.prevHash.bytes) root
        (intToHex cj.nbits 8)) cbHex sh := by
  obtain ⟨root, _, h⟩ := Option.bind_eq_some_iff.mp h
  exact ⟨root, _, hashedFrom h⟩

theorem extended_hashed {msg : SubmitSharesExtended} {sh : ShareV2}
    (h : rebuildExtended env s job msg = some sh) :
    ∃ root, HashedFrom env (some job)
      (headerV2 msg.version msg.ntime msg.nonce (byteReverseHex job.previousblockhash) root
        (byteReverseHex job.bits))
      (rebuildCoinbase job.coinbase1 (buildSessionCoinbase2 env job s.workerScriptHex)
        (s.extranonce1 ++ bytesToHex msg.extranonce)) sh := by
  obtain ⟨txid, _, h⟩ := Option.bind_eq_some_iff.mp h
  obtain ⟨root, _, h⟩ := Option.bind_eq_some_iff.mp h
  exact ⟨root, hashedFrom h⟩

/-- A line that is checked as a share was read, and its job found. -/
theorem line_rebuilt {d : DeskState} {msg : Json} {sh : Share}
    (h : checkedLine env d msg = some sh) :
    ∃ sub version, parseSubmit env d.session msg = .ok sub ∧
      d.world.strat.jobs.find sub.jobId = some sh.job ∧
      rollVersion env d.session sh.job sub.versionBits = some version ∧
      RebuiltFrom env d.session sh.job sub (ntimeText env sub) version sh := by
  unfold checkedLine at h
  cases hparse : parseSubmit env d.session msg with
  | error reason =>
    rw [hparse] at h
    cases h
  | ok sub =>
    rw [hparse] at h
    obtain ⟨job, hjob, h⟩ := Option.bind_eq_some_iff.mp h
    obtain ⟨ntime, _, h⟩ := Option.bind_eq_some_iff.mp h
    obtain ⟨version, hroll, h⟩ := Option.bind_eq_some_iff.mp h
    split at h
    · rename_i sh' hsh
      cases h
      have hfrom := rebuiltFrom hsh
      obtain rfl := hfrom.ofJob
      exact ⟨sub, version, rfl, hjob, hroll, hfrom⟩
    · cases h

end Rebuilt

/-! ## Stratum V2 -/

section V2

variable {env : Env} {s t : Session} {w w' : World} {c? : Option Checked} {α β : Type}

theorem offShares_sendV2 {msg : Reply} : (sendV2 s msg).All OffShares := by
  unfold sendV2
  split
  · trivial
  · exact ⟨trivial, fun _ => trivial⟩

theorem offShares_rejectV2 {sequenceNumber : UInt32} {code : String} :
    (rejectV2 s sequenceNumber code).All OffShares :=
  offShares_sendV2.bind fun _ => trivial

theorem offShares_graceTargetV2 {shareDiff seconds tolerance : ℚ} :
    (graceTargetV2 s shareDiff seconds tolerance).All OffShares := by
  unfold graceTargetV2
  split
  · refine Prog.All.bind (Prog.all_perform trivial) fun now => ?_
    split <;> trivial
  · trivial

theorem offShares_vardiffTickV2 {targetDiff networkDiff : ℚ} :
    (vardiffTickV2 env s targetDiff networkDiff).All OffShares := by
  refine Prog.All.bind (Prog.all_perform trivial) fun now => ?_
  dsimp only
  split
  · refine Prog.All.bind (Prog.all_perform trivial) fun _ => ?_
    exact offShares_sendV2.bind fun _ => trivial
  · trivial

theorem about_all {p : Act α} (hp : p.All OffShares) : p.All (About c?) :=
  hp.mono fun _ hc => hc.about c?

theorem about_submitAtFirstSight {path : SharePath} {sh : ShareV2} {version : UInt32}
    {emptyBlock : Bool} :
    (submitAtFirstSight env s path sh emptyBlock).All
      (About (some (ofShareV2 version emptyBlock sh))) := by
  refine ⟨⟨_, rfl, rfl, rfl, rfl⟩, fun _ => all_whenDo ⟨trivial, fun first => all_whenDo ?_⟩⟩
  have guard : (rttAllowsV2 env sh).All OffShares := by
    unfold rttAllowsV2
    split
    · unfold rttAllows
      split
      · exact ⟨trivial, fun _ => trivial⟩
      · trivial
    · trivial
  refine (about_all guard).bind fun allowed => ?_
  cases allowed with
  | true => exact ⟨⟨_, rfl, rfl, rfl⟩, fun _ => trivial⟩
  | false => exact ⟨trivial, fun _ => trivial⟩

theorem about_creditV2 {path : SharePath} {sh : ShareV2} {version ntime : UInt32}
    {emptyBlock tick : Bool} {diff targetDiff networkDiff : ℚ} {rec : Session → ShareRecord} :
    (do
      let s ← acceptShare s path sh.hash sh.job ntime diff
      thenDo (if tick then vardiffTickV2 env s targetDiff networkDiff else return .done s)
        fun s => do
          persistShare s (rec s)
          return .done s : Act Outcome).All (About (some (ofShareV2 version emptyBlock sh))) := by
  refine ⟨⟨_, rfl, rfl, rfl⟩, fun _ => ⟨trivial, fun _ => all_thenDo ?_ fun t => ?_⟩⟩
  · split
    · exact about_all offShares_vardiffTickV2
    · trivial
  · have row : (ask (.enqueueShare (rec t))).All (About (some (ofShareV2 version emptyBlock sh))) :=
      Prog.all_perform trivial
    exact (all_whenDo row).bind fun _ => trivial

theorem about_scoreStandard {msg : SubmitSharesStandard} {sh : ShareV2} {version : UInt32} :
    (scoreStandard env s msg sh).All
      (About (some (ofShareV2 version env.coin.stratumV2EmptyBlocks sh))) := by
  refine about_submitAtFirstSight.bind fun _ => ?_
  refine (about_all offShares_graceTargetV2).bind fun targetDiff => ?_
  split
  · exact about_all offShares_rejectV2
  · exact (about_all offShares_sendV2).bind fun _ => about_creditV2

theorem about_scoreExtended {msg : SubmitSharesExtended} {job : MiningJob} {sh : ShareV2}
    {version : UInt32} :
    (scoreExtended env s msg job sh).All (About (some (ofShareV2 version false sh))) := by
  refine about_submitAtFirstSight.bind fun _ => ?_
  refine (about_all offShares_graceTargetV2).bind fun targetDiff => ?_
  split
  · exact about_all offShares_rejectV2
  · refine Prog.All.bind (Prog.all_perform trivial) fun now => ?_
    split
    · exact about_all offShares_rejectV2
    · exact (about_all offShares_sendV2).bind fun _ => about_creditV2

/-- The look-up of a share's job finds the one that is named. -/
theorem findShareJob_run {id : UInt32} {found : Option MiningJob}
    (run : desk.Exec (findShareJob id) w found w') : found = namedJob w.strat.jobs id := by
  unfold findShareJob at run
  obtain ⟨latest, w₁, hs, run⟩ := run.perform_inv
  obtain ⟨rfl, hw⟩ := hs.strat
  have window {w₂ : World} (run : desk.Exec (ask (.findJobU32 id)) w₁ found w₂) :
      found = w.strat.jobs.findU32 id := by
    obtain ⟨x, w₃, hs, run⟩ := run.call_inv
    obtain ⟨rfl, _⟩ := run.ret_inv
    rw [hs.strat.1, hw]
  unfold namedJob
  split at run
  · rename_i j hj
    rw [hj]
    dsimp only
    by_cases hid : emitIdU32 j.jobId = id
    · rw [if_pos hid] at run ⊢
      obtain ⟨rfl, _⟩ := run.ret_inv
      rfl
    · rw [if_neg hid] at run ⊢
      exact window run
  · rename_i hj
    rw [hj]
    exact window run

/-- What a run adds to the log is about the share. -/
theorem about_of_all {p : Act α} {a : α} (run : desk.Exec p w a w') (hp : p.All (About c?)) :
    ∃ evs, w'.log = evs ++ w.log ∧ ∀ e ∈ evs, About c? e.1 :=
  exec_log run hp

/-- A look-up, then what is about the share. -/
theorem about_after {p : Act α} {f : α → Act β} {b : β} (run : desk.Exec (p >>= f) w b w')
    (hp : p.All OffShares)
    (hf : ∀ a w₁ w₂, desk.Exec p w a w₁ → desk.Exec (f a) w₁ b w₂ → (f a).All (About c?)) :
    ∃ evs, w'.log = evs ++ w.log ∧ ∀ e ∈ evs, About c? e.1 := by
  obtain ⟨a, w₁, hfind, run⟩ := run.bind_inv
  have hcalls : p.All (About c?) := about_all hp
  obtain ⟨evs, hlog, hevs⟩ := exec_log hfind hcalls
  obtain ⟨evs', hlog', hevs'⟩ := exec_log run (hf a w₁ _ hfind run)
  refine ⟨evs' ++ evs, by rw [hlog', hlog, List.append_assoc], fun e he => ?_⟩
  exact (List.mem_append.mp he).elim (hevs' e) (hevs e)

theorem offShares_findShareJob {id : UInt32} : (findShareJob id).All OffShares := by
  refine Prog.All.bind (Prog.all_perform trivial) fun latest => ?_
  cases latest with
  | none => exact ⟨trivial, fun _ => trivial⟩
  | some j =>
    dsimp only
    split
    · trivial
    · exact ⟨trivial, fun _ => trivial⟩

theorem standard_about {msg : SubmitSharesStandard} {o : Outcome}
    (run : desk.Exec (handleSubmitSharesV2 env s msg) w o w') :
    ∃ evs, w'.log = evs ++ w.log ∧
      ∀ e ∈ evs, About (checked env ⟨s, w⟩ (.message (.submitSharesStandard msg))) e.1 := by
  unfold handleSubmitSharesV2 at run
  unfold checked standardVersion rebuiltStandard
  cases hcustom : s.sv2CustomJobs.lookup msg.jobId with
  | some cj =>
    simp only [hcustom] at run ⊢
    refine about_of_all run ?_
    cases hsh : rebuildCustom env cj msg with
    | none => trivial
    | some sh => exact about_scoreStandard
  | none =>
    simp only [hcustom] at run ⊢
    refine about_after run offShares_findShareJob fun found w₁ w₂ hfind _ => ?_
    obtain rfl := findShareJob_run hfind
    cases hjob : namedJob w.strat.jobs msg.jobId with
    | none => exact about_all offShares_rejectV2
    | some job =>
      dsimp only
      cases hsh : rebuildStandard env s job msg with
      | none => trivial
      | some sh =>
        simp only [Option.map_some, Option.bind_some, hsh]
        exact about_scoreStandard

theorem extended_about {msg : SubmitSharesExtended} {o : Outcome}
    (run : desk.Exec (handleSubmitSharesExtendedV2 env s msg) w o w') :
    ∃ evs, w'.log = evs ++ w.log ∧
      ∀ e ∈ evs, About (checked env ⟨s, w⟩ (.message (.submitSharesExtended msg))) e.1 := by
  unfold handleSubmitSharesExtendedV2 at run
  unfold checked
  by_cases hclosed : s.closed = true
  · rw [if_pos hclosed] at run
    exact about_of_all run trivial
  · rw [if_neg hclosed] at run
    refine about_after run offShares_findShareJob fun found w₁ w₂ hfind _ => ?_
    obtain rfl := findShareJob_run hfind
    cases hjob : namedJob w.strat.jobs msg.jobId with
    | none => exact about_all offShares_rejectV2
    | some job =>
      dsimp only
      cases hsh : rebuildExtended env s job msg with
      | none => trivial
      | some sh =>
        have hc : (do
            let job ← namedJob w.strat.jobs msg.jobId
            return ofShareV2 job.version false (← rebuildExtended env s job msg)) =
              some (ofShareV2 job.version false sh) := by simp [hjob, hsh]
        rw [hc]
        exact about_scoreExtended

end V2

/-! ## Stratum V1 -/

section V1

variable {env : Env} {s : Session} {task : Task} {w₀ w w' : World} {q : Phase}

theorem checked_of_rebuilt {sh : Share} (h : RebuiltShare env s task sh)
    (hf : w.strat.jobs.find sh.sub.jobId = some sh.job) :
    checked env ⟨s, w⟩ task = some (ofShare env sh) := by
  obtain ⟨msg, version, rfl, hparse, hntime, hroll, hsh⟩ := h
  have hline : checkedLine env ⟨s, w⟩ msg = some sh := by
    unfold checkedLine
    simp [hparse, hf, hntime, hroll, hsh]
  simp [checked, hline]

/-- The share a task has judged is in the log of what it did. -/
theorem judged_of_seen (h : Seen env s task w₀ q w) {v : Verdict} (hv : q.verdict = some v) :
    Judged env s task w₀ v := by
  obtain ⟨evs, hlog, hevs⟩ := h.log
  have hverdicts := h.verdicts
  unfold DeskWatch.verdicts at hverdicts
  rw [hlog, List.filterMap_append, hv] at hverdicts
  have hone := List.append_cancel_right hverdicts
  have hmem : v ∈ evs.filterMap verdictIn := by rw [hone]; simp
  obtain ⟨e, he, hve⟩ := List.mem_filterMap.mp hmem
  have hexp := (hevs e he).2
  unfold verdictIn at hve
  split at hve
  · cases hve
    exact hexp
  · cases hve

/-- Not a Stratum V2 submit. -/
def NoSubmitV2 : Task → Prop
  | .message (.submitSharesStandard _) | .message (.submitSharesExtended _) => False
  | _ => True

theorem share_of_judged (ht : NoSubmitV2 task) {v : Verdict} (h : Judged env s task w v) :
    ∃ sh, checked env ⟨s, w⟩ task = some (ofShare env sh) ∧
      v.hash = sh.hash ∧ v.job = some sh.job ∧ v.meets = sh.meetsNetwork := by
  obtain ⟨path, hash, job, meets⟩ := v
  cases path with
  | v2Standard =>
    obtain ⟨_, ⟨_, rfl, _⟩, _⟩ := h
    exact ht.elim
  | v2Extended =>
    obtain ⟨_, ⟨_, rfl, _⟩, _⟩ := h
    exact ht.elim
  | v1Fresh | v1Stale | v1LowDiff =>
    obtain ⟨sh, judged⟩ := h
    exact ⟨sh, checked_of_rebuilt judged.rebuilt judged.found, judged.hash, judged.job, judged.meets⟩

/-- What the watch allows is about the share of the line. -/
theorem about_of_allows (ht : NoSubmitV2 task) (h : Seen env s task w₀ q w) {c : Call}
    (ha : q.Allows env s task c) : About (checked env ⟨s, w₀⟩ task) c := by
  cases c with
  | scored path hash job meets =>
    obtain ⟨sh, hsh, hhash, hjob, hm⟩ := share_of_judged ht (h.learned.judged ha.2)
    exact ⟨_, hsh, hhash, hjob, hm⟩
  | countAccepted path hash job ntime =>
    obtain ⟨v, hv, _, rfl, rfl, _⟩ := ha
    obtain ⟨sh, hsh, hhash, hjob, _⟩ := share_of_judged ht (judged_of_seen h hv)
    exact ⟨_, hsh, hhash, hjob⟩
  | submitBlock b =>
    rcases ha.2.1 with ⟨sh, hr, hf, hb, hhash, _⟩ | ⟨_, ⟨_, rfl, _⟩, _⟩ | ⟨_, ⟨_, rfl, _⟩, _⟩
    · exact ⟨_, checked_of_rebuilt hr (h.learned.found _ _ hf), hb, hhash⟩
    · exact ht.elim
    · exact ht.elim
  | _ => exact trivial

theorem seen_start : Seen env s task w {} w := by
  refine ⟨rfl, rfl, rfl, rfl, rfl, ?_, ?_, fun _ => rfl, ?_, ⟨[], rfl, ?_⟩, rfl, rfl⟩
  · constructor <;> intros <;> simp_all
  all_goals intros; simp_all

theorem line_about {o : Outcome} (ht : NoSubmitV2 task)
    (run : desk.Exec (task.prog env s) w o w') :
    ∃ evs, w'.log = evs ++ w.log ∧ ∀ e ∈ evs, About (checked env ⟨s, w⟩ task) e.1 := by
  let J (q : Phase) (w' : World) : Prop := Seen env s task w q w' ∧
    ∃ evs, w'.log = evs ++ w.log ∧ ∀ e ∈ evs, About (checked env ⟨s, w⟩ task) e.1
  have next (c : Call) (q : Phase) (w₁ : World) (x : Answer c) (w₂ : World)
      (ha : q.Allows env s task c) (hs : DeskCall c w₁ x w₂) (h : J q w₁) :
      J (q.next c x) w₂ := by
    obtain ⟨hseen, evs, hlog, hevs⟩ := h
    refine ⟨hseen.next ha hs, ⟨c, x⟩ :: evs, by rw [hs.log, hlog, List.cons_append], fun e he => ?_⟩
    rcases List.mem_cons.mp he with rfl | he
    · exact about_of_allows ht hseen ha
    · exact hevs e he
  have start : J {} w := ⟨seen_start, [], rfl, by simp⟩
  obtain ⟨_, _, _, h⟩ := run.watched (task_watched env s task) next start
  exact h

end V1

/-- **One submit, one share.** Everything a task does with a share it does with
the one it is checked as. -/
theorem task_about {env : Env} {s : Session} {t : Task} {w w' : World} {o : Outcome}
    (run : desk.Exec (t.prog env s) w o w') :
    ∃ evs, w'.log = evs ++ w.log ∧ ∀ e ∈ evs, About (checked env ⟨s, w⟩ t) e.1 := by
  cases t with
  | message msg =>
    cases msg with
    | submitSharesStandard msg => exact standard_about run
    | submitSharesExtended msg => exact extended_about run
    | _ => exact line_about trivial run
  | _ => exact line_about trivial run

/-! ## Accepted shares -/

/-- A share of the hash is accepted between two states of a session. -/
def AcceptedIn (d d' : DeskState) (hash : Hash256) : Prop :=
  ∃ evs path job ntime, d'.world.log = evs ++ d.world.log ∧
    (⟨.countAccepted path hash job ntime, ()⟩ : Event) ∈ evs

/-- An accepted share is the one the task is checked as. -/
theorem checked_of_accepted {env : Env} {d d' : DeskState} {t : Task} {readings : Set ℚ}
    {hash : Hash256} (hs : Step env d (.task t readings) d') (h : AcceptedIn d d' hash) :
    ∃ c, checked env d t = some c ∧ c.hash = hash := by
  obtain ⟨evs, path, job, ntime, hlog, he⟩ := h
  cases hs with
  | @task s w w' _ _ o offered run =>
    obtain ⟨evs', hlog', hevs⟩ := task_about run
    obtain rfl : evs = evs' := List.append_cancel_right (hlog.symm.trans hlog')
    obtain ⟨c, hc, hhash, _⟩ := hevs _ he
    exact ⟨c, hc, hhash.symm⟩

/-- A task after which the log has a credit it had not. -/
theorem accepted_of_step {env : Env} {d d' : DeskState} {t : Task} {readings : Set ℚ}
    (hs : Step env d (.task t readings) d') (hbefore : d.world.log.any Channels.creditedIn = false)
    (hafter : d'.world.log.any Channels.creditedIn = true) : ∃ hash, AcceptedIn d d' hash := by
  cases hs with
  | @task s w w' _ _ o offered run =>
    obtain ⟨evs, hlog, _⟩ := task_about run
    have hafter' : (evs ++ w.log).any Channels.creditedIn = true := hlog ▸ hafter
    obtain ⟨e, he, hcredit⟩ := List.any_eq_true.mp hafter'
    rcases List.mem_append.mp he with he | he
    · obtain ⟨c, x⟩ := e
      cases c with
      | countAccepted path hash job ntime => exact ⟨hash, evs, path, job, ntime, hlog, he⟩
      | _ => cases hcredit
    · exact absurd hcredit (List.any_eq_false.mp hbefore e he)

end MkPool.Validated
