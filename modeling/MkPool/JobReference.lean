import MkPool.Validated
import MkPool.Effects
import MkPool.Standing
import MkPool.Play

/-! # What a job id refers to

A submit names its work by an id: a string in V1, 32 bits in Stratum V2, where
pool jobs and the custom jobs of the session share the numbers. As long as no id
is given out that is in use, an id refers to one work, and that is the work that
was sent under it. -/
namespace MkPool.JobReference
open MkPool.Lib MkPool.Lib.Interaction MkPool.Utils MkPool.Config MkPool.Job MkPool.Coinbase
open MkPool.Stratifier MkPool.Sv2Messages MkPool.Calls MkPool.ClientSession MkPool.JsonValue
open MkPool.Tasks MkPool.Submit MkPool.StratumV2 MkPool.Desk MkPool.Published MkPool.DeskWatch
open MkPool.Effects MkPool.Standing MkPool.SessionV2 MkPool.JobIds MkPool.WorkAgreement
open MkPool.ShareWatch MkPool.Validated MkPool.Play

/-! ## References -/

/-- What a share can be of. -/
inductive Work where
  | pool (job : MiningJob)
  | custom (cj : CustomJob)

/-- The id of a work, as the protocol of the session has it. -/
inductive JobRef where
  | text (jobId : Str)
  | wire (id : UInt32)
deriving DecidableEq

/-- The id a pool job has in a session. -/
def refOf (s : Session) (job : MiningJob) : JobRef :=
  if s.isV2 then .wire (emitIdU32 job.jobId) else .text job.jobId

/-- The session can refer to the work by the id. -/
def Bears (d : DeskState) (k : JobRef) : Work → Prop
  | .pool job => job ∈ d.world.strat.jobs.jobs ∧ refOf d.session job = k
  | .custom cj => ∃ id, k = .wire id ∧ d.session.sv2CustomJobs.lookup id = some cj

/-- The id a task's share names. -/
def names (env : Env) (d : DeskState) : Task → Option JobRef
  | .line (some msg) =>
    match parseSubmit env d.session msg with
    | .error _ => none
    | .ok sub => some (.text sub.jobId)
  | .message (.submitSharesStandard msg) => some (.wire msg.jobId)
  | .message (.submitSharesExtended msg) => some (.wire msg.jobId)
  | _ => none

/-- The share of a task, if its work is the given one. -/
def checkedAgainst (env : Env) (d : DeskState) : Task → Work → Option Checked
  | .line (some msg), .pool job =>
    match parseSubmit env d.session msg with
    | .error _ => none
    | .ok sub => do
      let ntime ← parseHexU32 (ntimeText env sub)
      let version ← rollVersion env d.session job sub.versionBits
      match rebuildShare env d.session job sub (ntimeText env sub) ntime version with
      | .share sh => some (ofShare env sh)
      | _ => none
  | .message (.submitSharesStandard msg), .pool job =>
    (rebuildStandard env d.session job msg).map
      (ofShareV2 job.version env.coin.stratumV2EmptyBlocks)
  | .message (.submitSharesStandard msg), .custom cj =>
    (rebuildCustom env cj msg).map (ofShareV2 cj.version env.coin.stratumV2EmptyBlocks)
  | .message (.submitSharesExtended msg), .pool job =>
    (rebuildExtended env d.session job msg).map (ofShareV2 job.version false)
  | _, _ => none

/-! ## Sending work -/

/-- The id under which an event sends a pool job. -/
def poolRefIn : Event → Option JobRef
  | ⟨.send (.notify n), _⟩ => some (.text n.front.jobId)
  | ⟨.send (.notifyZcash n), _⟩ => some (.text n.jobId)
  | ⟨.sendV2 (.newMiningJob m), _⟩ => some (.wire m.jobId)
  | ⟨.sendV2 (.newExtendedMiningJob m), _⟩ => some (.wire m.jobId)
  | _ => none

/-- The id under which an event answers for a custom job. -/
def customRefIn : Event → Option JobRef
  | ⟨.sendV2 (.setCustomMiningJobSuccess _ _ jobId), _⟩ => some (.wire jobId)
  | _ => none

/-- The custom job a request asks for, unless it is refused. -/
def customJobOf (env : Env) (msg : SetCustomMiningJob) : Option CustomJob :=
  let donationScript :=
    if 0 < env.coin.donationPercent ∧ ¬ env.coin.donationAddress.isEmpty then
      (Address.decodeToScriptHex env.decode env.coin.donationAddress).getD []
    else []
  if !msg.merklePath.isEmpty then none
  else if !donationScript.isEmpty
      && (Stratum.findSub (bytesToHex msg.coinbaseTxOutputs) donationScript).isNone then none
  else some
    { version := msg.version, prevHash := msg.prevHash, coinbasePrefix := msg.coinbasePrefix,
      coinbaseOutputs := msg.coinbaseTxOutputs, coinbaseTxVersion := msg.coinbaseTxVersion,
      coinbaseTxInputNSequence := msg.coinbaseTxInputNSequence,
      coinbaseTxLocktime := msg.coinbaseTxLocktime, nbits := msg.nbits }

/-- A step sends the work under the id: a pool job that is in the window or
waits in the queue, or the custom job of the step's request. -/
inductive Sends (env : Env) (d : DeskState) (i : Input) (d' : DeskState) (k : JobRef) :
    Work → Prop where
  | pool {evs : List Event} {e : Event} {job : MiningJob} (log : d'.world.log = evs ++ d.world.log)
      (event : e ∈ evs) (id : poolRefIn e = some k)
      (held : job ∈ d.world.strat.jobs.jobs ∨ job ∈ d.world.posted)
      (ref : refOf d.session job = k) : Sends env d i d' k (.pool job)
  | custom {evs : List Event} {e : Event} {msg : SetCustomMiningJob} {readings : Set ℚ}
      {cj : CustomJob} (log : d'.world.log = evs ++ d.world.log) (event : e ∈ evs)
      (id : customRefIn e = some k) (input : i = .task (.message (.setCustomMiningJob msg)) readings)
      (accepted : customJobOf env msg = some cj) : Sends env d i d' k (.custom cj)

/-- In a run to the state, the work was sent under the id. -/
inductive Sent (env : Env) (isV2 : Bool) (ok : DeskState → Input → Prop) :
    DeskState → JobRef → Work → Prop where
  | now {d d' : DeskState} {i : Input} {k : JobRef} {w : Work} (reach : Reach env isV2 ok d)
      (hok : ok d i) (hs : Step env d i d') (sends : Sends env d i d' k w) :
      Sent env isV2 ok d' k w
  | later {d d' : DeskState} {i : Input} {k : JobRef} {w : Work} (sent : Sent env isV2 ok d k w)
      (hok : ok d i) (hs : Step env d i d') : Sent env isV2 ok d' k w

/-! ## The condition -/

/-- The id is in use: a work has it that the session can refer to or that waits
for it, or work was sent under it. -/
def InUse (d : DeskState) (k : JobRef) : Prop :=
  (∃ w, Bears d k w) ∨ (∃ job ∈ d.world.posted, refOf d.session job = k) ∨
    ∃ e ∈ d.world.log, poolRefIn e = some k ∨ customRefIn e = some k

/-- **No id in use is given out.** A new job has an id that is not in use, and so
has a custom job. -/
def FreshIds (env : Env) (d : DeskState) : Input → Prop
  | .work gbt jobId => ∀ job, ({ d.world with nextId := jobId } : World).jobOf env gbt = some job →
      ¬ InUse d (refOf d.session job)
  | .task (.message (.setCustomMiningJob msg)) _ => customJobOf env msg ≠ none →
      ¬ InUse d (.wire (d.session.sv2CustomJobIdCounter + 1))
  | _ => True

/-! ## The custom jobs of a session -/

/-- The custom jobs, and the number they are counted by. -/
def customs (s : Session) : (AList fun _ : UInt32 => CustomJob) × UInt32 :=
  (s.sv2CustomJobs, s.sv2CustomJobIdCounter)

/-- The program leaves the custom jobs alone. -/
abbrev KeepsCustoms (s : Session) (p : Act Outcome) : Prop :=
  p.Yields fun o => customs o.session = customs s

section Customs

variable {env : Env} {s t : Session}

theorem customs_of_standing (h : standing t = standing s) : customs t = customs s := by
  have hjobs := congrArg Session.sv2CustomJobs h
  have hcounter := congrArg Session.sv2CustomJobIdCounter h
  exact Prod.ext hjobs hcounter

theorem keepsCustoms_of_stays {p : Act Outcome} (hp : Stays t p) (h : customs t = customs s) :
    KeepsCustoms s p :=
  Prog.Yields.mono hp.session fun _ ho => (customs_of_standing ho).trans h

theorem keepsCustoms_finishOpen (h : customs t = customs s) :
    KeepsCustoms s (finishOpen env t) := by
  refine Prog.Yields.perform_bind fun minerId => ?_
  have hlatest : Stays (t.withMinerId minerId) (emitLatestV2 env (t.withMinerId minerId)) :=
    stays_emitLatestV2
  refine Prog.Yields.bind hlatest.session fun o ho => ?_
  have hkept : customs o.session = customs s := (customs_of_standing ho).trans h
  cases o with
  | done u => exact Prog.Yields.perform_bind fun _ => hkept
  | threw u => exact hkept

/-- Every message but a request for a custom job leaves them alone. -/
theorem keepsCustoms_processMessageV2 {msg : Request} (h : ∀ m, msg ≠ .setCustomMiningJob m) :
    KeepsCustoms s (processMessageV2 env s msg) := by
  cases msg with
  | setupConnection protocol =>
    show KeepsCustoms s (handleSetupConnection s protocol)
    unfold handleSetupConnection
    split
    · exact Prog.Yields.after fun _ => rfl
    · exact Prog.Yields.after fun _ => rfl
  | openStandardMiningChannel msg =>
    show KeepsCustoms s (handleOpenStandard env s msg)
    unfold handleOpenStandard
    dsimp only
    split
    · exact Prog.Yields.after fun _ => rfl
    · exact Prog.Yields.perform_bind fun r => Prog.Yields.after fun _ => keepsCustoms_finishOpen rfl
  | openExtendedMiningChannel msg =>
    show KeepsCustoms s (handleOpenExtended env s msg)
    unfold handleOpenExtended
    dsimp only
    split
    · exact Prog.Yields.after fun _ => rfl
    · refine Prog.Yields.perform_bind fun r => ?_
      split
      · rfl
      · exact Prog.Yields.after fun _ => keepsCustoms_finishOpen rfl
  | submitSharesStandard msg => exact keepsCustoms_of_stays stays_handleSubmitSharesV2 rfl
  | submitSharesExtended msg => exact keepsCustoms_of_stays stays_handleSubmitSharesExtendedV2 rfl
  | setCustomMiningJob m => exact absurd rfl (h m)
  | updateChannel | closeChannel | unknown => rfl

/-- A call that answers for no custom job but the one under the number. -/
def AnswersFor (id : UInt32) (c : Call) : Prop :=
  ∀ channelId requestId jobId, c = .sendV2 (.setCustomMiningJobSuccess channelId requestId jobId) →
    jobId = id

theorem answersFor_sendV2 {id : UInt32} {msg : Reply} (h : AnswersFor id (.sendV2 msg)) :
    (sendV2 s msg).All (AnswersFor id) := by
  unfold sendV2
  split
  · trivial
  · exact Prog.all_perform h

/-- A request for a custom job adds it under the next number, or is refused. -/
theorem setCustom_spec (env : Env) (s : Session) (msg : SetCustomMiningJob) :
    (handleSetCustomMiningJobV2 env s msg).All (AnswersFor (s.sv2CustomJobIdCounter + 1)) ∧
      (handleSetCustomMiningJobV2 env s msg).Yields fun o =>
        match customJobOf env msg with
        | none => customs o.session = customs s
        | some cj => o.session = withCustomJob s (s.sv2CustomJobIdCounter + 1) cj := by
  unfold handleSetCustomMiningJobV2 customJobOf
  dsimp only
  generalize (if 0 < env.coin.donationPercent ∧ ¬ env.coin.donationAddress.isEmpty = true then
    (Address.decodeToScriptHex env.decode env.coin.donationAddress).getD [] else []) = donationScript
  have refused (code : String) : (do
      sendV2 s (.setCustomMiningJobError s.sv2ChannelId msg.requestId code.toList)
      return .done s : Act Outcome).All (AnswersFor (s.sv2CustomJobIdCounter + 1)) :=
    Prog.All.bind (answersFor_sendV2 fun _ _ _ h => by cases h) fun _ => trivial
  split
  · exact ⟨refused _, Prog.Yields.after fun _ => rfl⟩
  · split
    · exact ⟨refused _, Prog.Yields.after fun _ => rfl⟩
    · constructor
      · refine Prog.All.bind (answersFor_sendV2 fun _ _ _ h => ?_) fun _ => trivial
        cases h
        rfl
      · exact Prog.Yields.after fun _ => rfl

end Customs

/-! ## The works of a session, step by step -/

/-- The work has the id in the window, among the custom jobs, or in the queue. -/
def Holds (d : DeskState) (k : JobRef) (w : Work) : Prop :=
  Bears d k w ∨ ∃ job ∈ d.world.posted, w = .pool job ∧ refOf d.session job = k

/-- The input adds the work under the id. -/
inductive Adds (env : Env) (d : DeskState) : Input → JobRef → Work → Prop where
  | work {gbt : Json} {jobId : Str} {job : MiningJob} {k : JobRef}
      (made : ({ d.world with nextId := jobId } : World).jobOf env gbt = some job)
      (ref : refOf d.session job = k) : Adds env d (.work gbt jobId) k (.pool job)
  | custom {msg : SetCustomMiningJob} {readings : Set ℚ} {cj : CustomJob} {k : JobRef}
      (accepted : customJobOf env msg = some cj)
      (ref : .wire (d.session.sv2CustomJobIdCounter + 1) = k) :
      Adds env d (.task (.message (.setCustomMiningJob msg)) readings) k (.custom cj)

section Steps

variable {env : Env} {isV2 : Bool} {ok : DeskState → Input → Prop} {d d' : DeskState} {i : Input}
  {k : JobRef} {w w' : Work}

theorem Adds.unique (h : Adds env d i k w) (h' : Adds env d i k w') : w = w' := by
  cases h with
  | work made _ =>
    cases h' with
    | work made' _ => rw [Option.some.inj (made.symm.trans made')]
  | custom accepted _ =>
    cases h' with
    | custom accepted' _ => rw [Option.some.inj (accepted.symm.trans accepted')]

theorem Holds.inUse (h : Holds d k w) : InUse d k := by
  rcases h with h | ⟨job, hj, _, hk⟩
  · exact .inl ⟨w, h⟩
  · exact .inr (.inl ⟨job, hj, hk⟩)

theorem fresh_of_adds (hok : FreshIds env d i) (h : Adds env d i k w) : ¬ InUse d k := by
  cases h with
  | work made ref => exact ref ▸ hok _ made
  | custom accepted ref => exact ref ▸ hok (by rw [accepted]; exact Option.some_ne_none _)

theorem Effect.customs {T : Turn} {a b : DeskState} (he : Effect T a b) :
    customs b.session = customs a.session := by
  cases he with
  | tidy h =>
    have hjobs := congrArg Session.sv2CustomJobs h
    have hcounter := congrArg Session.sv2CustomJobIdCounter h
    exact Prod.ext hjobs hcounter
  | advertise _ same _ =>
    have hjobs := congrArg Session.sv2CustomJobs same
    have hcounter := congrArg Session.sv2CustomJobIdCounter same
    exact Prod.ext hjobs hcounter
  | quiet | emit | observe | tooEasy | auxBlock | payout | doge => rfl

/-- Every session is of the protocol it was made for. -/
theorem kind_reach (h : Reach env isV2 ok d) :
    if isV2 then IsV2 d else IsV1 d := by
  cases isV2 with
  | true =>
    refine Reach.invariant (I := fun d => IsV2 d) ?_ ?_ h
    · exact fun d hd => isV2_initial hd
    · exact fun d i d' hd _ hs => (hd.step hs).1
  | false =>
    refine (v1_invariant (I := fun _ => True) ?_ ?_ ?_ ?_ ?_ ?_ h).1
    all_goals intros; trivial

theorem EffectRun.customs {T : Turn} {a b : DeskState} (he : EffectRun T a b) :
    customs b.session = customs a.session := by
  induction he with
  | refl => rfl
  | tail _ he ih => exact (Effect.customs he).trans ih

/-- The tasks of a V2 session, as far as the custom jobs go. -/
theorem customs_task_v2 {s : Session} {w w' : World} {t : Task} {readings : Set ℚ} {o : Outcome}
    (hv : IsV2 ⟨s, w⟩) (offered : Task.Offered ⟨s, w⟩ t)
    (run : desk.Exec (t.prog env s) { w with readings } o w') :
    customs o.session = customs s ∨
      ∃ msg cj, t = .message (.setCustomMiningJob msg) ∧ customJobOf env msg = some cj ∧
        o.session = withCustomJob s (s.sv2CustomJobIdCounter + 1) cj := by
  cases t with
  | line l => exact absurd (hv.v2.symm.trans offered) (by simp)
  | notify job => exact offered.elim
  | message msg =>
    by_cases hcustom : ∃ m, msg = .setCustomMiningJob m
    · obtain ⟨m, rfl⟩ := hcustom
      have hspec := run.yields _ (setCustom_spec env s m).2
      cases hjob : customJobOf env m with
      | none =>
        rw [hjob] at hspec
        exact .inl hspec
      | some cj =>
        rw [hjob] at hspec
        exact .inr ⟨m, cj, rfl, hjob, hspec⟩
    · exact .inl (run.yields _ (keepsCustoms_processMessageV2 fun m hm => hcustom ⟨m, hm⟩))
  | validated v error valid =>
    have hown := hv.asked v offered
    cases v with
    | payout req => exact hown.elim
    | doge req => exact hown.elim
    | payoutV2 addr =>
      have kept : KeepsCustoms s (onPayoutV2Validated s error.isSome valid) := by
        unfold onPayoutV2Validated
        split
        · rfl
        · split <;> rfl
      exact .inl (run.yields _ kept)
  | resetShareCounters | disconnect =>
    obtain ⟨rfl, _⟩ := run.ret_inv
    exact .inl rfl

/-- A step keeps the protocol, and adds at most the custom job of its request. -/
theorem session_step (h : Reach env isV2 ok d) (hs : Step env d i d') :
    d'.session.isV2 = d.session.isV2 ∧ (customs d'.session = customs d.session ∨
      ∃ cj, Adds env d i (.wire (d.session.sv2CustomJobIdCounter + 1)) (.custom cj) ∧
        d'.session = withCustomJob d.session (d.session.sv2CustomJobIdCounter + 1) cj) := by
  have hkind := kind_reach h
  cases hs with
  | @task s w w' t readings o offered run =>
    cases isV2 with
    | false =>
      have hv : IsV1 ⟨s, w⟩ := hkind
      have hrun := hv.effects offered run
      have hv' : IsV1 ⟨s, { w with readings }⟩ := ⟨hv.v1, hv.asked⟩
      have hkept := EffectRun.customs hrun
      exact ⟨(hrun.isV1 hv').v1.trans hv.v1.symm, .inl hkept⟩
    | true =>
      have hv : IsV2 ⟨s, w⟩ := hkind
      have hv2 := (run.yields _ (task_v2 env hv offered).2.1).2
      refine ⟨hv2, ?_⟩
      rcases customs_task_v2 hv offered run with hkept | ⟨msg, cj, rfl, hjob, ho⟩
      · exact .inl hkept
      · exact .inr ⟨cj, .custom hjob rfl, ho⟩
  | @notify s w w' job rest o head run =>
    have hstay : Stays s (notifyNewJob env s job) := stays_notifyNewJob
    have hstanding := run.yields _ hstay.session
    have hv2 := congrArg Session.isV2 hstanding
    exact ⟨hv2, .inl (customs_of_standing hstanding)⟩
  | work run => exact ⟨rfl, .inl rfl⟩
  | others => exact ⟨rfl, .inl rfl⟩

/-- A step adds at most the job of its template to the window and the queue. -/
theorem shelf_step (hs : Step env d i d') :
    (∀ job ∈ d'.world.strat.jobs.jobs, job ∈ d.world.strat.jobs.jobs ∨
        Adds env d i (refOf d.session job) (.pool job)) ∧
      ∀ job ∈ d'.world.posted, job ∈ d.world.posted ∨
        Adds env d i (refOf d.session job) (.pool job) := by
  cases hs with
  | task offered run =>
    obtain ⟨q, _, hseen⟩ := task_seen run
    rw [hseen.jobs, hseen.posted]
    exact ⟨fun job hj => .inl hj, fun job hj => .inl hj⟩
  | @notify s w w' job rest o head run =>
    obtain ⟨q, _, hseen⟩ := task_seen run
    rw [hseen.jobs, hseen.posted]
    refine ⟨fun job hj => .inl hj, fun job hj => .inl ?_⟩
    show job ∈ w.posted
    rw [head]
    exact List.mem_cons_of_mem _ hj
  | @work s w w' gbt jobId run =>
    rcases work_cases run with ⟨_, rfl⟩ | ⟨made, hmade, rfl⟩
    · exact ⟨fun job hj => .inl hj, fun job hj => .inl hj⟩
    · constructor
      · intro job hj
        obtain ⟨e, he, rfl⟩ := List.mem_map.mp hj
        rcases JobWindow.mem_push he with he | rfl
        · exact .inl (List.mem_map_of_mem he)
        · exact .inr (.work hmade rfl)
      · intro job hj
        rcases List.mem_append.mp hj with hj | hj
        · exact .inl hj
        · rw [List.mem_singleton.mp hj]
          exact .inr (.work hmade rfl)
  | others => exact ⟨fun job hj => .inl hj, fun job hj => .inl hj⟩

/-- **What a step does to references.** A work that has an id had it, or is the
one the input adds under it. -/
theorem holds_step (h : Reach env isV2 ok d) (hs : Step env d i d') (hw : Holds d' k w) :
    Holds d k w ∨ Adds env d i k w := by
  obtain ⟨hkind, hcustoms⟩ := session_step h hs
  obtain ⟨hwindow, hqueue⟩ := shelf_step hs
  have href (job : MiningJob) : refOf d'.session job = refOf d.session job := by
    unfold refOf
    rw [hkind]
  rcases hw with hw | ⟨job, hj, rfl, rfl⟩
  · cases w with
    | pool job =>
      obtain ⟨hj, rfl⟩ := hw
      rw [href]
      exact (hwindow job hj).imp_left fun hj => .inl ⟨hj, rfl⟩
    | custom cj =>
      obtain ⟨id, rfl, hlookup⟩ := hw
      rcases hcustoms with hkept | ⟨added, hadds, hsession⟩
      · have hjobs := congrArg Prod.fst hkept
        replace hjobs : d'.session.sv2CustomJobs = d.session.sv2CustomJobs := hjobs
        rw [hjobs] at hlookup
        exact .inl (.inl ⟨id, rfl, hlookup⟩)
      · rw [hsession] at hlookup
        by_cases hid : id = d.session.sv2CustomJobIdCounter + 1
        · subst hid
          rw [withCustomJob, AList.lookup_insert] at hlookup
          obtain rfl := Option.some.inj hlookup
          exact .inr hadds
        · rw [withCustomJob, AList.lookup_insert_ne hid] at hlookup
          exact .inl (.inl ⟨id, rfl, hlookup⟩)
  · rw [href]
    exact (hqueue job hj).imp_left fun hj => .inr ⟨job, hj, rfl, rfl⟩

theorem not_holds_initial (h : Initial env isV2 d) : ¬ Holds d k w := by
  obtain ⟨_, _, _, rfl⟩ := h
  rintro (hw | ⟨job, hj, _⟩)
  · cases w with
    | pool job => cases hw.1
    | custom cj =>
      obtain ⟨id, _, hlookup⟩ := hw
      rw [show (Session.new _ _ _ _ _).sv2CustomJobs = ∅ from rfl, AList.lookup_empty] at hlookup
      cases hlookup
  · cases hj

/-- **One id, one work.** -/
theorem holds_unique (h : Reach env isV2 (FreshIds env) d) :
    ∀ k w w', Holds d k w → Holds d k w' → w = w' := by
  induction h with
  | init h =>
    intro k w w' hw _
    exact absurd hw (not_holds_initial h)
  | step h hok hs ih =>
    intro k w w' hw hw'
    rcases holds_step h hs hw with hw | hw <;> rcases holds_step h hs hw' with hw' | hw'
    · exact ih k w w' hw hw'
    · exact absurd hw.inUse (fresh_of_adds hok hw')
    · exact absurd hw'.inUse (fresh_of_adds hok hw)
    · exact hw.unique hw'

/-- A custom job is answered for under the number it is added at. -/
theorem customRef_of_step {msg : SetCustomMiningJob} {readings : Set ℚ} {evs : List Event}
    {e : Event} (hs : Step env d (.task (.message (.setCustomMiningJob msg)) readings) d')
    (hlog : d'.world.log = evs ++ d.world.log) (he : e ∈ evs) (hid : customRefIn e = some k) :
    k = .wire (d.session.sv2CustomJobIdCounter + 1) := by
  cases hs with
  | @task s w w' _ _ o offered run =>
    obtain ⟨evs', hlog', hevs⟩ := exec_log run (setCustom_spec env s msg).1
    obtain rfl : evs = evs' := List.append_cancel_right (hlog.symm.trans hlog')
    have hcall := hevs e he
    unfold customRefIn at hid
    split at hid
    · rw [← hcall _ _ _ rfl]
      exact (Option.some.inj hid).symm
    · cases hid

theorem Sent.reach (h : Sent env isV2 ok d k w) : Reach env isV2 ok d := by
  induction h with
  | now reach hok hs _ => exact .step reach hok hs
  | later _ hok hs ih => exact .step ih hok hs

/-- **What was sent is what the id refers to.** Work that was sent under an id
has used it up, and is the only one that can have it. -/
theorem sent_unique (h : Sent env isV2 (FreshIds env) d k w) :
    (∃ e ∈ d.world.log, poolRefIn e = some k ∨ customRefIn e = some k) ∧
      ∀ w', Holds d k w' → w' = w := by
  induction h with
  | @now d d' i k w reach hok hs sends =>
    cases sends with
    | @pool evs e job log event id held ref =>
      have hold : Holds d k (.pool job) := by
        rcases held with hj | hj
        · exact .inl ⟨hj, ref⟩
        · exact .inr ⟨job, hj, rfl, ref⟩
      refine ⟨⟨e, log ▸ List.mem_append_left _ event, .inl id⟩, fun w' hw' => ?_⟩
      rcases holds_step reach hs hw' with hw' | hw'
      · exact holds_unique reach k _ _ hw' hold
      · exact absurd hold.inUse (fresh_of_adds hok hw')
    | @custom evs e msg readings cj log event id input accepted =>
      subst input
      have hk := customRef_of_step hs log event id
      have hadds : Adds env d (.task (.message (.setCustomMiningJob msg)) readings) k (.custom cj) :=
        .custom accepted hk.symm
      refine ⟨⟨e, log ▸ List.mem_append_left _ event, .inr id⟩, fun w' hw' => ?_⟩
      rcases holds_step reach hs hw' with hw' | hw'
      · exact absurd hw'.inUse (fresh_of_adds hok hadds)
      · exact hw'.unique hadds
  | @later d d' i k w sent hok hs ih =>
    obtain ⟨⟨e, he, hid⟩, hone⟩ := ih
    refine ⟨⟨e, step_mem hs he, hid⟩, fun w' hw' => ?_⟩
    rcases holds_step sent.reach hs hw' with hw' | hw'
    · exact hone w' hw'
    · exact absurd (.inr (.inr ⟨e, he, hid⟩)) (fresh_of_adds hok hw')

end Steps

/-! ## The work a share is checked against -/

section Checks

variable {env : Env} {isV2 : Bool} {ok : DeskState → Input → Prop} {d : DeskState}

/-- The window of any run keeps its jobs under their ids. -/
theorem keyed_reach (h : Reach env isV2 ok d) : Keyed d.world.strat.jobs := by
  refine Reach.invariant (I := fun d => Keyed d.world.strat.jobs) ?_ ?_ h
  · rintro d ⟨_, _, _, rfl⟩ e he
    cases he
  · intro d i d' hd _ hs
    cases hs with
    | task offered run | notify head run =>
      obtain ⟨q, _, hseen⟩ := task_seen run
      rw [hseen.jobs]
      exact hd
    | work run =>
      rcases work_cases run with ⟨_, rfl⟩ | ⟨job, hj, rfl⟩
      · exact hd
      · exact hd.push (hexId_of_work run job hj)
    | others => exact hd

/-- A line is checked against the job its id finds. -/
theorem line_against {msg : Json} {c : Checked} (hkeyed : Keyed d.world.strat.jobs)
    (hv : d.session.isV2 = false) (hc : checked env d (.line (some msg)) = some c) :
    ∃ k w, names env d (.line (some msg)) = some k ∧ Bears d k w ∧
      checkedAgainst env d (.line (some msg)) w = some c := by
  obtain ⟨sh, hsh, rfl⟩ := Option.map_eq_some_iff.mp hc
  unfold checkedLine at hsh
  split at hsh
  · cases hsh
  · rename_i sub hparse
    obtain ⟨job, hfind, hsh⟩ := Option.bind_eq_some_iff.mp hsh
    obtain ⟨ntime, hntime, hsh⟩ := Option.bind_eq_some_iff.mp hsh
    obtain ⟨version, hversion, hsh⟩ := Option.bind_eq_some_iff.mp hsh
    split at hsh
    · rename_i sh' hrebuilt
      obtain rfl := Option.some.inj hsh
      have hmem := JobWindow.mem_jobs_of_find hfind
      refine ⟨.text sub.jobId, .pool job, by simp only [names, hparse],
        ⟨List.mem_map_of_mem hmem, ?_⟩, ?_⟩
      · unfold refOf
        rw [if_neg (by rw [hv]; decide), ← (hkeyed _ hmem).1]
      · simp only [checkedAgainst, hparse, hntime, hversion, hrebuilt, Option.bind_eq_bind, Option.bind_some]
    · cases hsh

/-- The pool job a wire id names has it. -/
theorem bears_of_namedJob {id : UInt32} {job : MiningJob} (hkeyed : Keyed d.world.strat.jobs)
    (hv : d.session.isV2 = true) (h : namedJob d.world.strat.jobs id = some job) :
    Bears d (.wire id) (.pool job) := by
  rw [hkeyed.namedJob_eq] at h
  obtain ⟨hj, hid⟩ := hkeyed.findU32 h
  refine ⟨hj, ?_⟩
  unfold refOf
  rw [if_pos hv, hid]

theorem message_against {msg : Request} {c : Checked} (hkeyed : Keyed d.world.strat.jobs)
    (hv : d.session.isV2 = true) (hc : checked env d (.message msg) = some c) :
    ∃ k w, names env d (.message msg) = some k ∧ Bears d k w ∧
      checkedAgainst env d (.message msg) w = some c := by
  cases msg with
  | submitSharesStandard msg =>
    obtain ⟨version, hversion, hshare⟩ := Option.bind_eq_some_iff.mp hc
    obtain ⟨sh, hsh, he⟩ := Option.bind_eq_some_iff.mp hshare
    obtain rfl := Option.some.inj he
    unfold standardVersion at hversion
    unfold rebuiltStandard at hsh
    cases hcustom : d.session.sv2CustomJobs.lookup msg.jobId with
    | some cj =>
      rw [hcustom] at hversion hsh
      obtain rfl := Option.some.inj hversion
      refine ⟨.wire msg.jobId, .custom cj, rfl, ⟨msg.jobId, rfl, hcustom⟩, ?_⟩
      exact Option.map_eq_some_iff.mpr ⟨sh, hsh, rfl⟩
    | none =>
      rw [hcustom] at hversion hsh
      obtain ⟨job, hjob, rfl⟩ := Option.map_eq_some_iff.mp hversion
      obtain ⟨job', hjob', hsh⟩ := Option.bind_eq_some_iff.mp hsh
      obtain rfl := Option.some.inj (hjob.symm.trans hjob')
      refine ⟨.wire msg.jobId, .pool job, rfl, bears_of_namedJob hkeyed hv hjob, ?_⟩
      exact Option.map_eq_some_iff.mpr ⟨sh, hsh, rfl⟩
  | submitSharesExtended msg =>
    obtain ⟨job, hjob, hshare⟩ := Option.bind_eq_some_iff.mp hc
    obtain ⟨sh, hsh, he⟩ := Option.bind_eq_some_iff.mp hshare
    obtain rfl := Option.some.inj he
    refine ⟨.wire msg.jobId, .pool job, rfl, bears_of_namedJob hkeyed hv hjob, ?_⟩
    exact Option.map_eq_some_iff.mpr ⟨sh, hsh, rfl⟩
  | _ => cases hc

end Checks

/-- **A reference means one work.** In a run that gives out no id in use, two
works a session can refer to never share an id. The share of a task is checked
against the one work that has the id it names, and no other work was ever sent
under that id. -/
theorem reference_means_one_work (env : Env) (isV2 : Bool) (d : DeskState)
    (h : Reach env isV2 (FreshIds env) d) :
    (∀ k w w', Bears d k w → Bears d k w' → w = w') ∧
      ∀ t readings d' c, Step env d (.task t readings) d' → checked env d t = some c →
        ∃ k w, names env d t = some k ∧ Bears d k w ∧ checkedAgainst env d t w = some c ∧
          ∀ w', Sent env isV2 (FreshIds env) d k w' → w' = w := by
  refine ⟨fun k w w' hw hw' => holds_unique h k w w' (.inl hw) (.inl hw'), ?_⟩
  intro t readings d' c hs hc
  have against : ∃ k w, names env d t = some k ∧ Bears d k w ∧
      checkedAgainst env d t w = some c := by
    have hoffered : Task.Offered d t := by
      cases hs with
      | task offered _ => exact offered
    cases t with
    | line l =>
      cases l with
      | none => cases hc
      | some msg => exact line_against (keyed_reach h) hoffered hc
    | message msg => exact message_against (keyed_reach h) hoffered hc
    | _ => cases hc
  obtain ⟨k, w, hk, hw, hcheck⟩ := against
  exact ⟨k, w, hk, hw, hcheck, fun w' hsent => ((sent_unique hsent).2 w (.inl hw)).symm⟩

/-! ## Two sessions -/

/-- No id is in use yet. -/
def unused (d : DeskState) : Bool :=
  d.world.strat.jobs.items.isEmpty && d.world.posted.isEmpty &&
    d.session.sv2CustomJobs.entries.isEmpty &&
      d.world.log.all fun e => (poolRefIn e).isNone && (customRefIn e).isNone

theorem not_inUse_of_unused {d : DeskState} {k : JobRef} (h : unused d = true) : ¬ InUse d k := by
  simp only [unused, Bool.and_eq_true, List.isEmpty_iff, List.all_eq_true,
    Option.isNone_iff_eq_none] at h
  obtain ⟨⟨⟨hjobs, hposted⟩, hcustoms⟩, hlog⟩ := h
  rintro (⟨w, hw⟩ | ⟨job, hj, _⟩ | ⟨e, he, hk⟩)
  · cases w with
    | pool job =>
      have hj := hw.1
      rw [JobWindow.jobs, hjobs] at hj
      cases hj
    | custom cj =>
      obtain ⟨id, _, hlookup⟩ := hw
      have hmem := AList.mem_lookup_iff.mp hlookup
      rw [hcustoms] at hmem
      cases hmem
  · rw [hposted] at hj
    cases hj
  · rw [(hlog e he).1, (hlog e he).2] at hk
    rcases hk with hk | hk <;> cases hk

/-- Jobs are given out while no id is in use, and no custom ones. -/
def firstIds (d : DeskState) : Move → Bool
  | .work _ _ => unused d
  | .message (.setCustomMiningJob _) => false
  | _ => true

theorem freshIds_of_firstIds {env : Env} {r : Replies} {d : DeskState} {m : Move} {i : Input}
    (h : firstIds d m = true) (hi : m.input r d = some i) : FreshIds env d i := by
  cases m with
  | line msg =>
    simp only [Move.input] at hi
    split at hi <;> cases hi
    trivial
  | message msg =>
    simp only [Move.input] at hi
    split at hi <;> cases hi
    cases msg with
    | setCustomMiningJob m => cases h
    | _ => trivial
  | validated error valid =>
    obtain ⟨v, _, rfl⟩ := Option.map_eq_some_iff.mp hi
    trivial
  | notify =>
    cases hi
    trivial
  | work gbt jobId =>
    cases hi
    exact fun job _ => not_inUse_of_unused h

/-- The last move is a share that is checked. -/
def checkedIn (t : Task) (m : Move) (d : DeskState) : Bool :=
  (checked easyPool d t).isSome &&
    ((m.input usual d).bind (perform easyPool usual d)).isSome

/-- A V1 share is checked against the one job that was sent. -/
theorem first_reference :
    ∃ (d : DeskState) (t : Task) (c : Checked) (k : JobRef) (w : Work),
      names easyPool d t = some k ∧ Bears d k w ∧ checked easyPool d t = some c ∧
        checkedAgainst easyPool d t w = some c := by
  have h : (play easyPool firstIds (start easyPool false) (minerJoins ++ firstJob)).any
      (checkedIn (.line (some firstShare)) (.line firstShare)) = true := by
    decide +kernel
  obtain ⟨d, hd, hx⟩ := (Option.any_eq_true _ _).mp h
  obtain ⟨hchecked, hnext⟩ := Bool.and_eq_true_iff.mp hx
  obtain ⟨c, hc⟩ := Option.isSome_iff_exists.mp hchecked
  obtain ⟨d', hd'⟩ := Option.isSome_iff_exists.mp hnext
  obtain ⟨i, hi, hd'⟩ := Option.bind_eq_some_iff.mp hd'
  have hs := step_of_perform hi hd'
  have hfresh (r : Replies) (d : DeskState) (m : Move) (i : Input) (hm : firstIds d m = true)
      (hi : m.input r d = some i) : FreshIds easyPool d i := freshIds_of_firstIds hm hi
  have hreach : Reach easyPool false (FreshIds easyPool) d :=
    reach_of_play _ hfresh reach_start hd
  simp only [Move.input] at hi
  split at hi <;> cases hi
  obtain ⟨k, w, hk, hw, hagainst, _⟩ :=
    (reference_means_one_work easyPool false d hreach).2 _ _ d' c hs hc
  exact ⟨d, _, c, k, w, hk, hw, hc, hagainst⟩

/-- A job whose wire id is one. -/
def jobOfOne : List (Replies × Move) :=
  [(usual, .work (sampleTemplate 'a' 'b') "0000000100000000".toList), (usual, .notify)]

/-- A custom job that pays the operator. -/
def aCustomJob : SetCustomMiningJob :=
  { channelId := 1000, requestId := 2, version := 1, prevHash := .zero, nbits := 0x1d00ffff,
    coinbaseTxVersion := 1, coinbasePrefix := [], coinbaseTxInputNSequence := 0,
    coinbaseTxOutputs := [0x76, 0xa9, 0x14] ++ List.replicate 20 7 ++ [0x88, 0xac],
    coinbaseTxLocktime := 0, merklePath := [] }

def shareOfOne : SubmitSharesStandard :=
  { channelId := 1000, sequenceNumber := 1, jobId := 1, nonce := 0, ntime := 0, version := 1 }

/-- The id one is that of a pool job that was sent and of a custom job, and the
share is checked against none of the pool. -/
def sharesOne (d : DeskState) : Bool :=
  d.world.strat.jobs.jobs.any (fun job => refOf d.session job = .wire 1) &&
    (d.session.sv2CustomJobs.lookup 1).isSome &&
      d.world.log.any (fun e => poolRefIn e = some (.wire 1)) &&
        ((checked easyPool d (.message (.submitSharesStandard shareOfOne))).any
          fun c => c.job.isNone)

/-- **A pool job and a custom job under one id.** The pool job was sent under it,
and a share that names it is checked against the custom one. -/
theorem wire_id_of_two_works :
    ∃ (d d' : DeskState) (k : JobRef) (job : MiningJob) (cj : CustomJob) (t : Task)
      (readings : Set ℚ) (c : Checked),
      Reach easyPool true (fun _ _ => True) d ∧ Bears d k (.pool job) ∧ Bears d k (.custom cj) ∧
        (∃ e ∈ d.world.log, poolRefIn e = some k) ∧ Step easyPool d (.task t readings) d' ∧
          names easyPool d t = some k ∧ checked easyPool d t = some c ∧ c.job = none := by
  have h : (play easyPool anyMove (start easyPool true)
      (channelOpens ++ jobOfOne ++ [(usual, .message (.setCustomMiningJob aCustomJob))])).any
        (fun d => sharesOne d && checkedIn (.message (.submitSharesStandard shareOfOne))
          (.message (.submitSharesStandard shareOfOne)) d) = true := by
    decide +kernel
  obtain ⟨d, hd, hx⟩ := (Option.any_eq_true _ _).mp h
  obtain ⟨hone, hx⟩ := Bool.and_eq_true_iff.mp hx
  obtain ⟨_, hnext⟩ := Bool.and_eq_true_iff.mp hx
  obtain ⟨d', hd'⟩ := Option.isSome_iff_exists.mp hnext
  obtain ⟨i, hi, hd'⟩ := Option.bind_eq_some_iff.mp hd'
  have hs := step_of_perform hi hd'
  obtain ⟨readings, rfl⟩ := Move.task_of_message hi
  simp only [sharesOne, Bool.and_eq_true, List.any_eq_true, decide_eq_true_eq,
    Option.isSome_iff_exists, Option.any_eq_true, Option.isNone_iff_eq_none] at hone
  obtain ⟨⟨⟨⟨job, hj, href⟩, cj, hcj⟩, hsent⟩, c, hc, hnone⟩ := hone
  exact ⟨d, d', .wire 1, job, cj, _, readings, c,
    reach_of_play _ (fun _ _ _ _ _ _ => trivial) reach_start hd, ⟨hj, href⟩, ⟨1, rfl, hcj⟩, hsent,
    hs, rfl, hc, hnone⟩

end MkPool.JobReference
