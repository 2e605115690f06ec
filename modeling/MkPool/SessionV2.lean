import MkPool.DeskWatch

/-! # What a message does to a V2 session

Every handler but the two that open a channel leaves alone who is paid, who is
credited and on which channel. -/
namespace MkPool.SessionV2
open MkPool.Lib.Interaction MkPool.Utils MkPool.Config MkPool.Job MkPool.Coinbase
open MkPool.Sv2Messages MkPool.Calls MkPool.ClientSession MkPool.JsonValue MkPool.Tasks
open MkPool.Submit MkPool.StratumV2 MkPool.Desk

/-- The same account on the same channel, and open only if it was. -/
structure Same (s t : Session) : Prop where
  script : t.workerScriptHex = s.workerScriptHex
  minerId : t.minerId = s.minerId
  channelId : t.sv2ChannelId = s.sv2ChannelId
  extended : t.isExtendedChannel = s.isExtendedChannel
  extranonce1 : t.extranonce1 = s.extranonce1
  isV2 : t.isV2 = s.isV2
  closed : t.closed = false → s.closed = false

theorem Same.refl (s : Session) : Same s s := ⟨rfl, rfl, rfl, rfl, rfl, rfl, id⟩

theorem Same.trans {s t u : Session} (h : Same s t) (h' : Same t u) : Same s u :=
  ⟨h'.script.trans h.script, h'.minerId.trans h.minerId, h'.channelId.trans h.channelId,
    h'.extended.trans h.extended, h'.extranonce1.trans h.extranonce1, h'.isV2.trans h.isV2,
    fun hc => h.closed (h'.closed hc)⟩

/-- The program ends with the same account. -/
abbrev Keeps (s : Session) (p : Act Outcome) : Prop := p.Yields fun o => Same s o.session

section Handlers

variable {env : Env} {s t : Session}

theorem keeps_thenDo {p : Act Outcome} {f : Session → Act Outcome} (hp : Keeps s p)
    (hf : ∀ t, Same s t → Keeps s (f t)) : Keeps s (thenDo p f) := by
  refine Prog.Yields.bind hp fun o ho => ?_
  cases o with
  | done t => exact hf t ho
  | threw t => exact ho

theorem keeps_ite {c : Prop} [Decidable c] {p q : Act Outcome} (hp : Keeps s p)
    (hq : Keeps s q) : Keeps s (if c then p else q) := by
  split
  · exact hp
  · exact hq

/-- Emission leaves the session as it is. -/
theorem emitJobV2_yields {job : MiningJob} :
    (emitJobV2 env s job).Yields fun o => o.session = s := by
  unfold emitJobV2
  dsimp only
  split
  · exact rfl
  · refine Prog.Yields.after fun _ => ?_
    split
    · exact rfl
    · exact Prog.Yields.after fun _ => rfl

theorem keeps_emitLatestV2 : Keeps s (emitLatestV2 env s) := by
  intro x
  cases x with
  | none => exact .refl s
  | some job =>
    have h : (emitJobV2 env s job).Yields fun o => o.session = s := emitJobV2_yields
    exact Prog.Yields.mono h fun o ho => ho ▸ .refl s

theorem keeps_rejectV2 {sequenceNumber : UInt32} {code : String} :
    Keeps s (rejectV2 s sequenceNumber code) :=
  Prog.Yields.after fun _ => ⟨rfl, rfl, rfl, rfl, rfl, rfl, id⟩

theorem keeps_vardiffTickV2 {targetDiff networkDiff : ℚ} (h : Same s t) :
    Keeps s (vardiffTickV2 env t targetDiff networkDiff) := by
  have moved (v : Vardiff.VarDiff) (last ts : ℚ) : Same s ((t.withVardiff v).advertised last ts) :=
    h.trans ⟨rfl, rfl, rfl, rfl, rfl, rfl, id⟩
  refine Prog.Yields.perform_bind fun now => ?_
  dsimp only
  split
  · unfold sendSetTarget
    exact Prog.Yields.perform_bind fun now' => Prog.Yields.after fun _ => moved _ _ _
  · exact h.trans ⟨rfl, rfl, rfl, rfl, rfl, rfl, id⟩

theorem keeps_creditV2 {path : SharePath} {hash : Hash256} {job : Option MiningJob}
    {ntime : UInt32} {diff targetDiff networkDiff : ℚ} {tick : Bool} {rec : Session → ShareRecord} :
    Keeps s (do
      let s ← acceptShare s path hash job ntime diff
      thenDo (if tick then vardiffTickV2 env s targetDiff networkDiff else return .done s)
        fun s => do
          persistShare s (rec s)
          return .done s) := by
  intro _ _
  have h : Same s s.countAccept := ⟨rfl, rfl, rfl, rfl, rfl, rfl, id⟩
  refine keeps_thenDo ?_ fun t ht => Prog.Yields.after fun _ => ht
  cases tick with
  | true => exact keeps_vardiffTickV2 h
  | false => exact h

theorem keeps_scoreStandard {msg : SubmitSharesStandard} {sh : ShareV2} :
    Keeps s (scoreStandard env s msg sh) := by
  refine Prog.Yields.after fun _ => Prog.Yields.after fun targetDiff => ?_
  split
  · exact keeps_rejectV2
  · exact Prog.Yields.after fun _ => keeps_creditV2

theorem keeps_scoreExtended {msg : SubmitSharesExtended} {job : MiningJob} {sh : ShareV2} :
    Keeps s (scoreExtended env s msg job sh) := by
  refine Prog.Yields.after fun _ => Prog.Yields.after fun targetDiff => ?_
  split
  · exact keeps_rejectV2
  · refine Prog.Yields.perform_bind fun now => ?_
    split
    · exact keeps_rejectV2
    · exact Prog.Yields.after fun _ => keeps_creditV2

theorem keeps_handleSubmitSharesV2 {msg : SubmitSharesStandard} :
    Keeps s (handleSubmitSharesV2 env s msg) := by
  unfold handleSubmitSharesV2
  split
  · split
    · exact .refl s
    · exact keeps_scoreStandard
  · refine Prog.Yields.after fun job => ?_
    cases job with
    | none => exact keeps_rejectV2
    | some job =>
      dsimp only
      split
      · exact .refl s
      · exact keeps_scoreStandard

theorem keeps_handleSubmitSharesExtendedV2 {msg : SubmitSharesExtended} :
    Keeps s (handleSubmitSharesExtendedV2 env s msg) := by
  unfold handleSubmitSharesExtendedV2
  split
  · exact .refl s
  · refine Prog.Yields.after fun job => ?_
    cases job with
    | none => exact keeps_rejectV2
    | some job =>
      dsimp only
      split
      · exact .refl s
      · exact keeps_scoreExtended

theorem keeps_handleSetCustomMiningJobV2 {msg : SetCustomMiningJob} :
    Keeps s (handleSetCustomMiningJobV2 env s msg) := by
  have fail (code : String) : Keeps s (do
      sendV2 s (.setCustomMiningJobError s.sv2ChannelId msg.requestId code.toList)
      return .done s) := Prog.Yields.after fun _ => Same.refl s
  exact keeps_ite (fail _) (keeps_ite (fail _)
    (Prog.Yields.after fun _ => ⟨rfl, rfl, rfl, rfl, rfl, rfl, id⟩))

theorem keeps_handleSetupConnection {protocol : UInt8} :
    Keeps s (handleSetupConnection s protocol) := by
  unfold handleSetupConnection
  split
  · exact Prog.Yields.after fun _ => Same.refl s
  · exact Prog.Yields.after fun _ => ⟨rfl, rfl, rfl, rfl, rfl, rfl, id⟩

theorem keeps_onPayoutV2Validated {error valid : Bool} :
    Keeps s (onPayoutV2Validated s error valid) := by
  unfold onPayoutV2Validated
  split
  · exact .refl s
  · split
    · exact ⟨rfl, rfl, rfl, rfl, rfl, rfl, fun h => by cases h⟩
    · exact .refl s

theorem keeps_notifyNewJob {job : MiningJob} (hv : s.isV2 = true) :
    Keeps s (notifyNewJob env s job) := by
  have plain : Keeps s (notifyPlain env s job) := by
    unfold notifyPlain
    rw [if_pos hv]
    exact Prog.Yields.mono emitJobV2_yields fun o ho => ho ▸ .refl s
  unfold notifyNewJob
  split
  · exact .refl s
  · split
    · split
      · exact .refl s
      · exact plain
      · exact fun _ => ⟨rfl, rfl, rfl, rfl, rfl, rfl, id⟩
    · exact plain

end Handlers

/-! ## Opening a channel -/

/-- What an open request asks for, once its address was decoded. -/
structure Opening where
  address : Str
  worker : Str
  decoded : Address.Decoded

def openingFor (env : Env) (userIdentity : Str) : Option Opening :=
  let (address, worker) := Stratum.splitWorker userIdentity "default".toList
  match env.decode address with
  | .ok decoded => some { address, worker, decoded }
  | .error _ => none

/-- The opening a message asks for, if it is one that succeeds. -/
def opening (env : Env) : Request → Option Opening
  | .openStandardMiningChannel msg => openingFor env msg.userIdentity
  | .openExtendedMiningChannel msg => openingFor env msg.userIdentity
  | _ => none

/-- A channel was opened under the id. -/
def OpenedAs (w : World) (channelId : UInt32) : Prop :=
  (∃ msg : OpenStandardSuccess, (⟨.sendV2 (.openStandardSuccess msg), ()⟩ : Event) ∈ w.log ∧
    msg.channelId = channelId) ∨
  ∃ msg : OpenExtendedSuccess, (⟨.sendV2 (.openExtendedSuccess msg), ()⟩ : Event) ∈ w.log ∧
    msg.channelId = channelId

/-- The session pays and credits the opening, on a channel that was opened
while the session was. -/
structure Serves (s : Session) (w : World) (op : Opening) : Prop where
  script : s.workerScriptHex = Address.scriptPubkeyHex op.decoded
  miner : (⟨.ensureMiner op.address op.worker, s.minerId⟩ : Event) ∈ w.log
  channel : s.closed = false → OpenedAs w s.sv2ChannelId

section Openings

variable {env : Env} {s t : Session} {w w' : World} {o : Outcome} {op : Opening}

theorem OpenedAs.mem {channelId : UInt32} (h : OpenedAs w channelId)
    (hlog : ∀ e ∈ w.log, e ∈ w'.log) : OpenedAs w' channelId := by
  rcases h with ⟨msg, hm, hc⟩ | ⟨msg, hm, hc⟩
  · exact .inl ⟨msg, hlog _ hm, hc⟩
  · exact .inr ⟨msg, hlog _ hm, hc⟩

theorem Serves.same (h : Serves s w op) (hs : Same s t) (hlog : ∀ e ∈ w.log, e ∈ w'.log) :
    Serves t w' op := by
  refine ⟨hs.script.trans h.script, ?_, fun hc => ?_⟩
  · rw [hs.minerId]
    exact hlog _ h.miner
  · rw [hs.channelId]
    exact (h.channel (hs.closed hc)).mem hlog

theorem sendV2_mem {msg : Reply} (run : desk.Exec (sendV2 s msg) w () w')
    (hopen : s.closed = false) : (⟨.sendV2 msg, ()⟩ : Event) ∈ w'.log := by
  unfold sendV2 at run
  rw [hopen] at run
  obtain ⟨_, w₁, hs, run⟩ := run.call_inv
  obtain ⟨_, rfl⟩ := run.ret_inv
  rw [hs.log]
  exact List.mem_cons_self

/-- The end of an open installs the miner's row. -/
theorem finishOpen_run (run : desk.Exec (finishOpen env s) w o w') :
    ∃ minerId, Same (s.withMinerId minerId) o.session ∧
      (⟨.ensureMiner s.workerAddress s.workerName, minerId⟩ : Event) ∈ w'.log := by
  obtain ⟨minerId, w₁, hs, run⟩ := run.perform_inv
  refine ⟨minerId, run.yields _ (keeps_thenDo keeps_emitLatestV2 fun t ht _ => ht), ?_⟩
  refine exec_mem run ?_
  rw [hs.log]
  exact List.mem_cons_self

theorem serves_of_finishOpen (run : desk.Exec (finishOpen env s) w o w')
    (hscript : s.workerScriptHex = Address.scriptPubkeyHex op.decoded)
    (haddress : s.workerAddress = op.address) (hworker : s.workerName = op.worker)
    (hchannel : s.closed = false → OpenedAs w s.sv2ChannelId) : Serves o.session w' op := by
  obtain ⟨minerId, hsame, hmem⟩ := finishOpen_run run
  rw [haddress, hworker] at hmem
  refine ⟨hsame.script.trans hscript, ?_, fun hc => ?_⟩
  · rw [hsame.minerId]
    exact hmem
  · rw [hsame.channelId]
    exact (hchannel (hsame.closed hc)).mem fun e he => exec_mem run he

theorem refused_of_openingFor {userIdentity : Str} (h : openingFor env userIdentity = none) :
    ∃ e, env.decode (withIdentity s userIdentity).workerAddress = .error e := by
  unfold openingFor at h
  dsimp only at h
  split at h
  · cases h
  · rename_i e he
    exact ⟨e, he⟩

theorem decoded_of_openingFor {userIdentity : Str} (h : openingFor env userIdentity = some op) :
    env.decode (withIdentity s userIdentity).workerAddress = .ok op.decoded ∧
      (withIdentity s userIdentity).workerAddress = op.address ∧
      (withIdentity s userIdentity).workerName = op.worker := by
  unfold openingFor at h
  dsimp only at h
  split at h
  · rename_i d hd
    cases h
    exact ⟨hd, rfl, rfl⟩
  · cases h

/-- **An open that succeeds installs its account.** -/
theorem serves_of_opening {msg : Request} (hop : opening env msg = some op)
    (hx : hexToBytes s.extranonce1 ≠ none)
    (run : desk.Exec (processMessageV2 env s msg) w o w') : Serves o.session w' op := by
  cases msg with
  | openStandardMiningChannel msg =>
    obtain ⟨hd, haddress, hworker⟩ := decoded_of_openingFor (s := s) hop
    replace run : desk.Exec (handleOpenStandard env s msg) w o w' := run
    unfold handleOpenStandard at run
    dsimp only at run
    rw [hd] at run
    obtain ⟨r, w₁, _, run⟩ := run.perform_inv
    obtain ⟨_, w₂, hsend, run⟩ := run.bind_inv
    refine serves_of_finishOpen run rfl haddress hworker fun hc => ?_
    exact .inl ⟨_, sendV2_mem hsend hc, rfl⟩
  | openExtendedMiningChannel msg =>
    obtain ⟨hd, haddress, hworker⟩ := decoded_of_openingFor (s := s) hop
    replace run : desk.Exec (handleOpenExtended env s msg) w o w' := run
    unfold handleOpenExtended at run
    dsimp only at run
    rw [hd] at run
    obtain ⟨r, w₁, _, run⟩ := run.perform_inv
    split at run
    · rename_i hnone
      exact absurd hnone hx
    · obtain ⟨_, w₂, hsend, run⟩ := run.bind_inv
      refine serves_of_finishOpen run rfl haddress hworker fun hc => ?_
      exact .inr ⟨_, sendV2_mem hsend hc, rfl⟩
  | _ => cases hop

/-- Any other message, a failed open among them, leaves the account alone. -/
theorem keeps_processMessageV2 {msg : Request} (hop : opening env msg = none) :
    Keeps s (processMessageV2 env s msg) := by
  cases msg with
  | setupConnection protocol => exact keeps_handleSetupConnection
  | openStandardMiningChannel msg =>
    obtain ⟨e, he⟩ := refused_of_openingFor (s := s) hop
    show Keeps s (handleOpenStandard env s msg)
    unfold handleOpenStandard
    dsimp only
    rw [he]
    exact Prog.Yields.after fun _ => ⟨rfl, rfl, rfl, rfl, rfl, rfl, id⟩
  | openExtendedMiningChannel msg =>
    obtain ⟨e, he⟩ := refused_of_openingFor (s := s) hop
    show Keeps s (handleOpenExtended env s msg)
    unfold handleOpenExtended
    dsimp only
    rw [he]
    exact Prog.Yields.after fun _ => ⟨rfl, rfl, rfl, rfl, rfl, rfl, id⟩
  | updateChannel | closeChannel | unknown => exact Same.refl s
  | submitSharesStandard msg => exact keeps_handleSubmitSharesV2
  | submitSharesExtended msg => exact keeps_handleSubmitSharesExtendedV2
  | setCustomMiningJob msg => exact keeps_handleSetCustomMiningJobV2

end Openings

/-! ## Runs of a V2 session -/

/-- Not a check that a V1 authorization asks for, and not new work. -/
def OwnCheck : Call → Prop
  | .validateAddress (.payout _) | .validateAddress (.doge _) | .pushJob _ => False
  | _ => True

/-- Moreover no work is sent, and no channel opened. -/
def Plain : Call → Prop
  | .sendV2 (.newMiningJob _) | .sendV2 (.newExtendedMiningJob _) => False
  | .sendV2 (.setNewPrevHash _) | .sendV2 (.openExtendedSuccess _) => False
  | .validateAddress (.payout _) | .validateAddress (.doge _) | .pushJob _ => False
  | _ => True

theorem OwnCheck.of_plain {c : Call} (h : Plain c) : OwnCheck c := by
  unfold Plain at h
  split at h <;> first | exact h.elim | skip
  unfold OwnCheck
  split <;> simp_all

section Checks

variable {env : Env} {s t : Session} {S : Call → Prop}

theorem all_sendV2 {msg : Reply} (h : S (.sendV2 msg)) : (sendV2 s msg).All S :=
  all_ite (Prog.all_ret ()) (Prog.all_perform h)

/-! ### Shares, custom jobs and the set-up -/

theorem plain_rejectV2 {sequenceNumber : UInt32} {code : String} :
    (rejectV2 s sequenceNumber code).All Plain :=
  (all_sendV2 trivial).bind fun _ => trivial

theorem plain_submitAtFirstSight {path : SharePath} {sh : ShareV2} {emptyBlock : Bool} :
    (submitAtFirstSight env s path sh emptyBlock).All Plain := by
  have allows : (rttAllowsV2 env sh).All Plain := by
    unfold rttAllowsV2 rttAllows
    split
    · exact all_ite ⟨trivial, fun _ => trivial⟩ trivial
    · exact trivial
  refine ⟨trivial, fun _ => all_whenDo ⟨trivial, fun first => all_whenDo (allows.bind fun b => ?_)⟩⟩
  exact all_ite (Prog.all_perform trivial) (Prog.all_perform trivial)

theorem plain_graceTargetV2 {shareDiff seconds tolerance : ℚ} :
    (graceTargetV2 s shareDiff seconds tolerance).All Plain :=
  all_ite ⟨trivial, fun _ => all_ite trivial trivial⟩ trivial

theorem plain_retarget (v : Vardiff.VarDiff) (nd : Option ℚ) : Prog.All Plain (match nd with
    | some nd => sendSetTarget ((s.countAccept).withVardiff v) nd s.countAccept.vardiff.current
    | none => return .done ((s.countAccept).withVardiff v)) := by
  cases nd with
  | none => exact trivial
  | some nd => exact ⟨trivial, fun _ => (all_sendV2 trivial).bind fun _ => trivial⟩

theorem plain_creditV2 {path : SharePath} {hash : Hash256} {job : Option MiningJob}
    {ntime : UInt32} {diff targetDiff networkDiff : ℚ} {tick : Bool} {rec : Session → ShareRecord} :
    Prog.All Plain (do
      let s ← acceptShare s path hash job ntime diff
      thenDo (if tick then vardiffTickV2 env s targetDiff networkDiff else return .done s)
        fun s => do
          persistShare s (rec s)
          return .done s) := by
  refine ⟨trivial, fun _ => ⟨trivial, fun _ => all_thenDo (all_ite ?_ trivial) fun t => ?_⟩⟩
  · refine ⟨trivial, fun now => ?_⟩
    exact plain_retarget _ _
  · exact (all_whenDo (Prog.all_perform trivial)).bind fun _ => trivial

theorem plain_findShareJob {id : UInt32} : (findShareJob id).All Plain := by
  refine ⟨trivial, fun x => ?_⟩
  cases x with
  | none => exact Prog.all_perform trivial
  | some job => exact all_ite trivial (Prog.all_perform trivial)

theorem plain_handleSubmitSharesV2 {msg : SubmitSharesStandard} :
    (handleSubmitSharesV2 env s msg).All Plain := by
  have score (sh : ShareV2) : (scoreStandard env s msg sh).All Plain :=
    plain_submitAtFirstSight.bind fun _ => plain_graceTargetV2.bind fun _ =>
      all_ite plain_rejectV2 ((all_sendV2 trivial).bind fun _ => plain_creditV2)
  unfold handleSubmitSharesV2
  split
  · split
    · exact trivial
    · exact score _
  · refine plain_findShareJob.bind fun job => ?_
    cases job with
    | none => exact plain_rejectV2
    | some job =>
      dsimp only
      split
      · exact trivial
      · exact score _

theorem plain_handleSubmitSharesExtendedV2 {msg : SubmitSharesExtended} :
    (handleSubmitSharesExtendedV2 env s msg).All Plain := by
  have score (job : MiningJob) (sh : ShareV2) : (scoreExtended env s msg job sh).All Plain :=
    plain_submitAtFirstSight.bind fun _ => plain_graceTargetV2.bind fun _ =>
      all_ite plain_rejectV2 ⟨trivial, fun _ =>
        all_ite plain_rejectV2 ((all_sendV2 trivial).bind fun _ => plain_creditV2)⟩
  unfold handleSubmitSharesExtendedV2
  refine all_ite trivial (plain_findShareJob.bind fun job => ?_)
  cases job with
  | none => exact plain_rejectV2
  | some job =>
    dsimp only
    split
    · exact trivial
    · exact score _ _

/-- A message that opens no channel is plain. -/
theorem plain_processMessageV2 {msg : Request} (hop : opening env msg = none) :
    (processMessageV2 env s msg).All Plain := by
  cases msg with
  | setupConnection protocol =>
    exact all_ite ((all_sendV2 trivial).bind fun _ => trivial)
      ((all_sendV2 trivial).bind fun _ => trivial)
  | openStandardMiningChannel msg =>
    obtain ⟨e, he⟩ := refused_of_openingFor (s := s) hop
    show (handleOpenStandard env s msg).All Plain
    unfold handleOpenStandard
    dsimp only
    rw [he]
    exact (all_sendV2 trivial).bind fun _ => trivial
  | openExtendedMiningChannel msg =>
    obtain ⟨e, he⟩ := refused_of_openingFor (s := s) hop
    show (handleOpenExtended env s msg).All Plain
    unfold handleOpenExtended
    dsimp only
    rw [he]
    exact (all_sendV2 trivial).bind fun _ => trivial
  | updateChannel | closeChannel | unknown => exact trivial
  | submitSharesStandard msg => exact plain_handleSubmitSharesV2
  | submitSharesExtended msg => exact plain_handleSubmitSharesExtendedV2
  | setCustomMiningJob msg =>
    have fail (code : String) : Prog.All Plain (do
        sendV2 s (.setCustomMiningJobError s.sv2ChannelId msg.requestId code.toList)
        return Outcome.done s : Act Outcome) := (all_sendV2 trivial).bind fun _ => trivial
    exact all_ite (fail _) (all_ite (fail _) ((all_sendV2 trivial).bind fun _ => trivial))

/-! ### Emission -/

theorem own_emitJobV2 {job : MiningJob} : (emitJobV2 env s job).All OwnCheck := by
  unfold emitJobV2
  dsimp only
  split
  · exact trivial
  · refine (all_sendV2 trivial).bind fun _ => ?_
    split
    · exact trivial
    · exact (all_sendV2 trivial).bind fun _ => trivial

theorem own_finishOpen : (finishOpen env s).All OwnCheck := by
  refine ⟨trivial, fun minerId => all_thenDo ⟨trivial, fun x => ?_⟩ fun s => ⟨trivial, fun _ => trivial⟩⟩
  cases x with
  | none => exact trivial
  | some job => exact own_emitJobV2

theorem own_processMessageV2 {msg : Request} : (processMessageV2 env s msg).All OwnCheck := by
  cases hop : opening env msg with
  | none => exact (plain_processMessageV2 hop).mono fun c hc => .of_plain hc
  | some op =>
    cases msg with
    | openStandardMiningChannel msg =>
      show (handleOpenStandard env s msg).All OwnCheck
      unfold handleOpenStandard
      dsimp only
      split
      · exact (all_sendV2 trivial).bind fun _ => trivial
      · exact ⟨trivial, fun r => (all_sendV2 trivial).bind fun _ => own_finishOpen⟩
    | openExtendedMiningChannel msg =>
      show (handleOpenExtended env s msg).All OwnCheck
      unfold handleOpenExtended
      dsimp only
      split
      · exact (all_sendV2 trivial).bind fun _ => trivial
      · refine ⟨trivial, fun r => ?_⟩
        dsimp only [Prog.bind]
        split
        · exact trivial
        · exact (all_sendV2 trivial).bind fun _ => own_finishOpen
    | _ => cases hop

theorem own_notifyNewJob {job : MiningJob} (hv : s.isV2 = true) :
    (notifyNewJob env s job).All OwnCheck := by
  have plain : (notifyPlain env s job).All OwnCheck := by
    unfold notifyPlain
    rw [if_pos hv]
    exact own_emitJobV2
  refine all_ite trivial (all_ite ?_ plain)
  split
  · exact trivial
  · exact plain
  · exact ⟨trivial, fun _ => trivial⟩

end Checks

/-- What all runs of a V2 session keep. -/
structure IsV2 (d : DeskState) : Prop where
  v2 : d.session.isV2 = true
  asked : ∀ v, (⟨.validateAddress v, ()⟩ : Event) ∈ d.world.log → OwnCheck (.validateAddress v)

/-- The opening an input asks for, if it is one that succeeds. -/
def openedBy (env : Env) : Input → Option Opening
  | .task (.message msg) _ => opening env msg
  | _ => none

section Runs

variable {env : Env} {d d' : DeskState} {i : Input}

/-- The extranonce and the protocol are those of the connection. -/
theorem fixed_processMessageV2 {s : Session} {msg : Request} :
    (processMessageV2 env s msg).Yields fun o =>
      o.session.extranonce1 = s.extranonce1 ∧ o.session.isV2 = s.isV2 := by
  have fixed {t : Session} (h : t.extranonce1 = s.extranonce1 ∧ t.isV2 = s.isV2) :
      (finishOpen env t).Yields fun o =>
        o.session.extranonce1 = s.extranonce1 ∧ o.session.isV2 = s.isV2 := by
    intro minerId
    refine Prog.Yields.mono (keeps_thenDo keeps_emitLatestV2 fun u hu _ => hu) fun o ho => ?_
    exact ⟨ho.extranonce1.trans h.1, ho.isV2.trans h.2⟩
  cases hop : opening env msg with
  | none =>
    exact Prog.Yields.mono (keeps_processMessageV2 hop) fun o ho => ⟨ho.extranonce1, ho.isV2⟩
  | some op =>
    cases msg with
    | openStandardMiningChannel msg =>
      show (handleOpenStandard env s msg).Yields _
      unfold handleOpenStandard
      dsimp only
      split
      · exact Prog.Yields.after fun _ => ⟨rfl, rfl⟩
      · exact Prog.Yields.perform_bind fun r => Prog.Yields.after fun _ => fixed ⟨rfl, rfl⟩
    | openExtendedMiningChannel msg =>
      show (handleOpenExtended env s msg).Yields _
      unfold handleOpenExtended
      dsimp only
      split
      · exact Prog.Yields.after fun _ => ⟨rfl, rfl⟩
      · refine Prog.Yields.perform_bind fun r => ?_
        split
        · exact ⟨rfl, rfl⟩
        · exact Prog.Yields.after fun _ => fixed ⟨rfl, rfl⟩
    | _ => cases hop

/-- The tasks of a V2 session. -/
theorem task_v2 (env : Env) {s : Session} {w : World} {t : Task} (h : IsV2 ⟨s, w⟩)
    (offered : Task.Offered ⟨s, w⟩ t) :
    (t.prog env s).All OwnCheck ∧
      (t.prog env s).Yields (fun o => o.session.extranonce1 = s.extranonce1 ∧
        o.session.isV2 = s.isV2) ∧
      ∀ readings, openedBy env (.task t readings) = none → Keeps s (t.prog env s) := by
  cases t with
  | line l => exact absurd (h.v2.symm.trans offered) (by simp)
  | message msg =>
    exact ⟨own_processMessageV2, fixed_processMessageV2, fun _ hop => keeps_processMessageV2 hop⟩
  | notify job => exact offered.elim
  | validated v error valid =>
    have hv := h.asked v offered
    cases v with
    | payout req => exact hv.elim
    | doge req => exact hv.elim
    | payoutV2 addr =>
      have keeps : Keeps s (onPayoutV2Validated s error.isSome valid) := keeps_onPayoutV2Validated
      exact ⟨all_ite trivial (all_ite trivial trivial),
        Prog.Yields.mono keeps fun o ho => ⟨ho.extranonce1, ho.isV2⟩, fun _ _ => keeps⟩
  | resetShareCounters =>
    exact ⟨trivial, ⟨rfl, rfl⟩, fun _ _ => ⟨rfl, rfl, rfl, rfl, rfl, rfl, id⟩⟩
  | disconnect =>
    exact ⟨trivial, ⟨rfl, rfl⟩, fun _ _ => ⟨rfl, rfl, rfl, rfl, rfl, rfl, fun h => by cases h⟩⟩

theorem IsV2.run {s t : Session} {w w' : World} {p : Act Outcome} {o : Outcome}
    (h : IsV2 ⟨s, w⟩) (hp : p.All OwnCheck) (hv : t.isV2 = s.isV2)
    (run : desk.Exec p w o w') : IsV2 ⟨t, w'⟩ := by
  refine ⟨hv.trans h.v2, fun v hm => ?_⟩
  obtain ⟨evs, hlog, hevs⟩ := exec_log run hp
  replace hm : (⟨.validateAddress v, ()⟩ : Event) ∈ w'.log := hm
  rw [hlog] at hm
  rcases List.mem_append.mp hm with hm | hm
  · exact hevs _ hm
  · exact h.asked v hm

theorem IsV2.step (h : IsV2 d) (hs : Step env d i d') :
    IsV2 d' ∧ d'.session.extranonce1 = d.session.extranonce1 ∧
      (openedBy env i = none → Same d.session d'.session) := by
  cases hs with
  | @task s w w' t readings o offered run =>
    obtain ⟨hown, hfixed, hkeeps⟩ := task_v2 env h offered
    have hf := run.yields _ hfixed
    exact ⟨IsV2.run (w := { w with readings }) ⟨h.v2, h.asked⟩ hown hf.2 run, hf.1,
      fun hop => run.yields _ (hkeeps readings hop)⟩
  | @notify s w w' job rest o head run =>
    have hkeeps : Keeps s (notifyNewJob env s job) := keeps_notifyNewJob h.v2
    have hsame := run.yields _ hkeeps
    refine ⟨?_, hsame.extranonce1, fun _ => hsame⟩
    exact IsV2.run (w := { w with posted := rest }) ⟨h.v2, h.asked⟩ (own_notifyNewJob h.v2)
      hsame.isV2 run
  | @work s w w' gbt jobId run =>
    refine ⟨?_, rfl, fun _ => .refl s⟩
    rcases work_cases run with ⟨_, rfl⟩ | ⟨job, _, rfl⟩
    · exact ⟨h.v2, h.asked⟩
    · refine ⟨h.v2, fun v hm => h.asked v ?_⟩
      rcases List.mem_append.mp hm with hm | hm
      · unfold workEvents at hm
        cases hc : job.cleanJobs <;> simp [hc] at hm
      · exact hm
  | @others s w seenShares bestShareRound => exact ⟨⟨h.v2, h.asked⟩, rfl, fun _ => .refl s⟩

theorem isV2_initial (h : Initial env true d) : IsV2 d := by
  obtain ⟨_, _, _, rfl⟩ := h
  exact ⟨rfl, fun v hm => absurd hm (by simp)⟩

/-- What was done stays in the log. -/
theorem step_mem (hs : Step env d i d') {e : Event} (he : e ∈ d.world.log) :
    e ∈ d'.world.log := by
  cases hs with
  | task _ run => exact exec_mem run he
  | notify _ run => exact exec_mem run he
  | work run => exact exec_mem run he
  | others => exact he

end Runs

end MkPool.SessionV2
