import MkPool.Validated
import MkPool.Standing
import MkPool.Effects
import MkPool.CoinbaseLayout
import MkPool.Requests

/-! # What a session has when it checks a share

A V1 session checks shares once it is authorized, and then it has a payout
script. A Stratum V2 session has none before a channel is opened. The jobs of
the window are of templates, and the commitments a session keeps are of one
size. -/
namespace MkPool.PaidSessions
open MkPool.Lib.Interaction MkPool.Utils MkPool.Config MkPool.Job MkPool.Coinbase
open MkPool.Stratifier MkPool.Sv2Messages MkPool.Calls MkPool.ClientSession MkPool.JsonValue
open MkPool.Tasks MkPool.Stratum MkPool.Submit MkPool.StratumV2 MkPool.Desk MkPool.Effects
open MkPool.Standing MkPool.DeskWatch MkPool.SessionV2 MkPool.Validated MkPool.CoinbaseLayout
open MkPool.Requests (dispatch_submit small_dispatch)

/-! ## The jobs of the window -/

/-- **The window holds jobs of templates.** Each was made from an input of the run. -/
theorem made_of_window {env : Env} {isV2 : Bool} {ok : DeskState → Input → Prop} {d : DeskState}
    (h : Reach env isV2 ok d) : ∀ job ∈ d.world.strat.jobs.jobs, ∃ d₀ gbt jobId w,
      ok d₀ (.work gbt jobId) ∧ World.jobOf w env gbt = some job := by
  refine Reach.invariant (I := fun d => ∀ job ∈ d.world.strat.jobs.jobs, ∃ d₀ gbt jobId w,
    ok d₀ (.work gbt jobId) ∧ World.jobOf w env gbt = some job) ?_ ?_ h
  · rintro d ⟨_, _, _, rfl⟩ job hj
    cases hj
  · intro d i d' hd hok hs
    cases hs with
    | task offered run | notify head run =>
      obtain ⟨q, _, hseen⟩ := task_seen run
      rw [hseen.jobs]
      exact hd
    | @work s w w' gbt jobId run =>
      rcases work_cases run with ⟨_, rfl⟩ | ⟨job, hj, rfl⟩
      · exact hd
      · intro j hm
        obtain ⟨e, he, rfl⟩ := List.mem_map.mp hm
        rcases JobWindow.mem_push he with he | rfl
        · exact hd _ (List.mem_map_of_mem he)
        · exact ⟨_, gbt, jobId, _, hok, hj⟩
    | others => exact hd

theorem template_of_window {env : Env} {isV2 : Bool} {ok : DeskState → Input → Prop}
    {d : DeskState} (h : Reach env isV2 ok d) :
    ∀ job ∈ d.world.strat.jobs.jobs, ∃ gbt bt, parseTemplate gbt = some bt ∧ JobOf env bt job := by
  intro job hj
  obtain ⟨_, gbt, _, _, _, hof⟩ := made_of_window h job hj
  obtain ⟨bt, hbt, hof⟩ := template_of_jobOf hof
  exact ⟨gbt, bt, hbt, hof⟩

/-! ## V1: the script of an authorized session -/

/-- A script that an address decodes to. -/
def Decodes (script : Str) : Prop := ∃ d : Address.Decoded, script = Address.scriptPubkeyHex d

/-- An authorized session has a script, and all take eight bytes of extranonce. -/
structure Paid (s : Session) : Prop where
  script : s.authorized = true → Decodes s.workerScriptHex
  size : s.extranonce2Size = 8

/-- The program ends with such a session. -/
abbrev KeepsPaid (p : Act Outcome) : Prop := p.Yields fun o => Paid o.session

section V1

variable {env : Env} {s t : Session} {msg : Json} {o : Outcome}

theorem Paid.of_standing (h : Paid s) (ht : standing t = standing s) : Paid t := by
  have hauth := congrArg Session.authorized ht
  have hscript := congrArg Session.workerScriptHex ht
  have hsize := congrArg Session.extranonce2Size ht
  replace hauth : t.authorized = s.authorized := hauth
  replace hscript : t.workerScriptHex = s.workerScriptHex := hscript
  refine ⟨fun ha => ?_, hsize.trans h.size⟩
  rw [hscript]
  exact h.script (hauth ▸ ha)

theorem keepsPaid_of_stays {p : Act Outcome} (h : Paid s) (hp : Stays s p) : KeepsPaid p :=
  Prog.Yields.mono hp.session fun _ ho => h.of_standing ho

theorem keepsPaid_thenDo {p : Act Outcome} {f : Session → Act Outcome} (h : Paid s)
    (hp : Stays s p) (hf : ∀ t, standing t = standing s → KeepsPaid (f t)) :
    KeepsPaid (thenDo p f) := by
  refine Prog.Yields.bind hp.session fun o ho => ?_
  cases o with
  | done t => exact hf t ho
  | threw t => exact h.of_standing ho

theorem keepsPaid_handleConfigure (h : Paid s) : KeepsPaid (handleConfigure env s msg) :=
  Prog.Yields.perform_bind fun _ => ⟨h.script, h.size⟩

theorem keepsPaid_handleSubscribe (hchain : env.coin.chain ≠ .zcash) (h : Paid s) :
    KeepsPaid (handleSubscribe env s msg) := by
  have hua : Paid (withUserAgent s msg) := by
    unfold withUserAgent
    split
    · exact ⟨h.script, h.size⟩
    · exact h
  have hsub : Paid (subscribe env (withUserAgent s msg)) := ⟨hua.script, if_neg hchain⟩
  unfold handleSubscribe
  dsimp only
  split
  · exact Prog.Yields.perform_bind fun _ => ⟨hua.script, hua.size⟩
  · refine Prog.Yields.perform_bind fun _ => ?_
    refine keepsPaid_thenDo hsub stays_sendSetDifficulty fun t ht => ?_
    exact Prog.Yields.after fun _ => hsub.of_standing ht

theorem keepsPaid_handleAuthorize (h : Paid s) : KeepsPaid (handleAuthorize env s msg) := by
  have fail (reason : Str) : KeepsPaid (do
      ask (.send (.authError (safeIdJson env.fmtDouble msg) reason))
      return .done s) := Prog.Yields.perform_bind fun _ => h
  unfold handleAuthorize
  split
  · dsimp only
    split
    · exact fail _
    · split
      · exact fail _
      · refine Prog.Yields.perform_bind fun bl => ?_
        split <;> [exact fail _; split] <;> [exact fail _; split] <;> [exact fail _; skip]
        exact Prog.Yields.perform_bind fun _ => h
  · exact fail _

/-- The end of an authorization installs a script before it authorizes. -/
theorem keepsPaid_proceedAuth {req : AuthRequest} (hchain : env.coin.chain ≠ .zcash)
    (hsize : s.extranonce2Size = 8) : KeepsPaid (proceedAuth env s req) := by
  have hscript : Decodes (withPayout env s req).workerScriptHex := ⟨req.decoded, if_neg hchain⟩
  have hpaid : Paid (withPayout env s req) := ⟨fun _ => hscript, hsize⟩
  unfold proceedAuth
  dsimp only
  refine keepsPaid_thenDo hpaid ?_ fun t ht => ?_
  · split
    · exact stays_sendSetDifficulty.trans rfl
    · exact leaves_done rfl
  · refine Prog.Yields.perform_bind fun _ => Prog.Yields.perform_bind fun minerId => ?_
    have hmoved : Decodes t.workerScriptHex ∧ t.extranonce2Size = 8 := by
      have h₁ := congrArg Session.workerScriptHex ht
      have h₂ := congrArg Session.extranonce2Size ht
      replace h₁ : t.workerScriptHex = (withPayout env s req).workerScriptHex := h₁
      exact ⟨h₁ ▸ hscript, h₂.trans hsize⟩
    have hp : Paid { t with minerId := minerId, authorized := true } :=
      ⟨fun _ => hmoved.1, hmoved.2⟩
    exact keepsPaid_of_stays hp stays_emitLatest

theorem keepsPaid_validated {v : Validation} {error : Option Str} {valid : Bool}
    (hchain : env.coin.chain ≠ .zcash) (h : Paid s) :
    KeepsPaid (Task.prog env s (.validated v error valid)) := by
  have refused (idJson text : Str) : KeepsPaid (do
      ask (.send (.authError idJson text))
      return .done s) := Prog.Yields.perform_bind fun _ => h
  cases v with
  | payout req =>
    show KeepsPaid (onPayoutValidated env s req error valid)
    unfold onPayoutValidated
    split
    · exact h
    · split
      · exact refused _ _
      · split
        · exact Prog.Yields.perform_bind fun _ => h
        · split
          · split
            · exact keepsPaid_proceedAuth hchain h.size
            · exact keepsPaid_proceedAuth hchain h.size
          · exact keepsPaid_proceedAuth hchain h.size
  | doge req =>
    show KeepsPaid (onDogeValidated env s req error valid)
    unfold onDogeValidated
    split
    · exact h
    · split
      · exact refused _ _
      · exact keepsPaid_proceedAuth hchain h.size
  | payoutV2 addr =>
    show KeepsPaid (onPayoutV2Validated s error.isSome valid)
    unfold onPayoutV2Validated
    split
    · exact h
    · split
      · exact ⟨h.script, h.size⟩
      · exact h

theorem keepsPaid_dispatch {method : Str} (hchain : env.coin.chain ≠ .zcash) (h : Paid s) :
    KeepsPaid (dispatch env s method msg) := by
  unfold dispatch
  split
  · exact keepsPaid_handleConfigure h
  · split
    · exact keepsPaid_handleSubscribe hchain h
    · split
      · exact keepsPaid_handleAuthorize h
      · refine keepsPaid_of_stays h (leaves_ite (fun _ => stays_handleSubmit) fun _ => ?_)
        refine leaves_ite (fun _ => stays_handleSuggestDifficulty) fun _ => ?_
        refine leaves_ite (fun _ => stays_handleExtranonceSubscribe) fun _ => ?_
        exact leaves_ask trivial fun _ => leaves_done rfl

theorem keepsPaid_processLine {line : Option Json} (hchain : env.coin.chain ≠ .zcash)
    (h : Paid s) : KeepsPaid (processLine env s line) := by
  unfold processLine
  split
  · exact Prog.Yields.perform_bind fun _ => h
  · split
    · exact Prog.Yields.perform_bind fun _ => h
    · refine Prog.Yields.bind (keepsPaid_dispatch hchain h) fun o ho => ?_
      cases o with
      | done t => exact ho
      | threw t => exact Prog.Yields.perform_bind fun _ => ho

/-- **V1 sessions are paid.** -/
theorem paid_reach {ok : DeskState → Input → Prop} {d : DeskState}
    (hchain : env.coin.chain ≠ .zcash) (h : Reach env false ok d) : IsV1 d ∧ Paid d.session := by
  refine v1_invariant (I := fun d => Paid d.session) ?_ ?_ ?_ ?_ ?_ ?_ h
  · rintro d ⟨_, _, _, rfl⟩
    refine ⟨fun ha => ?_, if_neg hchain⟩
    rw [show (Session.new _ _ _ _ _).authorized = false from rfl] at ha
    cases ha
  · exact fun s w nextId hi => hi
  · intro s w t readings o w' hv offered hi _ run
    cases t with
    | line l => exact run.yields _ (keepsPaid_processLine hchain hi)
    | message msg => exact absurd (hv.v1.symm.trans offered) (by simp)
    | notify job => exact offered.elim
    | validated v error valid => exact run.yields _ (keepsPaid_validated hchain hi)
    | resetShareCounters | disconnect =>
      obtain ⟨rfl, rfl⟩ := run.ret_inv
      exact ⟨hi.script, hi.size⟩
  · intro s w job rest o w' _ hi _ _ run
    exact run.yields _ (keepsPaid_of_stays hi stays_notifyNewJob)
  · exact fun s w gbt jobId job hi _ _ => hi
  · exact fun s w _ _ hi => hi

end V1

/-! ## V1: the commitments that are kept -/

/-- A commitment of 44 bytes. -/
def WholeCommit (saj : SessionAuxJob) : Prop :=
  ∃ commit : Bytes, commit.length = 44 ∧ saj.auxCommit = bytesToHex commit

theorem lookup_insertBounded {α : Type} {m : AList fun _ : Str => α} {key id : Str} {v x : α}
    (h : (insertBounded m key v).lookup id = some x) : x = v ∨ m.lookup id = some x := by
  unfold insertBounded at h
  by_cases hid : id = key
  · subst hid
    rw [AList.lookup_insert] at h
    exact .inl (Option.some.inj h).symm
  · rw [AList.lookup_insert_ne hid] at h
    split at h
    · rw [AList.lookup_empty] at h
      cases h
    · exact .inr h

theorem commits_reach {env : Env} {ok : DeskState → Input → Prop} {d : DeskState}
    (h : Reach env false ok d) :
    ∀ id saj, d.session.sessionAuxJobs.lookup id = some saj → WholeCommit saj := by
  refine (v1_invariant (I := fun d => ∀ id saj,
    d.session.sessionAuxJobs.lookup id = some saj → WholeCommit saj) ?_ ?_ ?_ ?_ ?_ ?_ h).2
  · rintro d ⟨_, _, _, rfl⟩ id saj hl
    rw [show (Session.new _ _ _ _ _).sessionAuxJobs = ∅ from rfl, AList.lookup_empty] at hl
    cases hl
  · exact fun s w nextId hi => hi
  · intro s w t readings o w' hv offered hi _ run
    rw [(hv.effects offered run).keepsAux.1]
    exact hi
  · intro s w job rest o w' hv hi _ _ run
    rcases notify_cases hv.v1 run with ⟨ho, _⟩ | ⟨aux, _, _, _, hbuild, ho, _⟩ | ⟨_, run⟩
    · rw [ho]
      exact hi
    · rw [ho]
      intro id saj hl
      rcases lookup_insertBounded hl with rfl | hl
      · exact (auxMade hbuild).commit
      · exact hi id saj hl
    · have hcore := congrArg Session.sessionAuxJobs (emitJob_line run).1
      replace hcore : o.session.sessionAuxJobs = s.sessionAuxJobs := hcore
      rw [hcore]
      exact hi
  · exact fun s w gbt jobId job hi _ _ => hi
  · exact fun s w _ _ hi => hi

/-! ## V1: shares of authorized sessions -/

section Shares

variable {env : Env} {s : Session} {msg : Json}

theorem offShares_handleSubmit (h : s.authorized = false) :
    (handleSubmit env s msg).All OffShares := by
  unfold handleSubmit
  rw [h]
  exact ⟨trivial, fun _ => ⟨trivial, fun _ => trivial⟩⟩

theorem offShares_dispatch {method : Str} (h : s.authorized = false) :
    (dispatch env s method msg).All OffShares := by
  by_cases hsubmit : method = "mining.submit".toList
  · subst hsubmit
    rw [dispatch_submit]
    exact offShares_handleSubmit h
  · refine (small_dispatch hsubmit).mono fun c hc => ?_
    cases c <;> first | exact hc.elim | trivial

/-- **Only authorized sessions check shares.** -/
theorem offShares_unauthorized {line : Option Json} (h : s.authorized = false) :
    (processLine env s line).All OffShares := by
  unfold processLine
  split
  · exact ⟨trivial, fun _ => trivial⟩
  · split
    · exact ⟨trivial, fun _ => trivial⟩
    · refine Prog.All.bind (offShares_dispatch h) fun o => ?_
      cases o with
      | done t => trivial
      | threw t => exact ⟨trivial, fun _ => trivial⟩

end Shares

/-! ## Stratum V2: the script of a session -/

/-- No script, or one that an address decodes to. -/
def NoneOrDecodes (s : Session) : Prop := s.workerScriptHex = [] ∨ Decodes s.workerScriptHex

section V2

variable {env : Env} {s t : Session} {o : Outcome}

theorem NoneOrDecodes.same (h : NoneOrDecodes s) (hst : Same s t) : NoneOrDecodes t := by
  unfold NoneOrDecodes
  rw [hst.script]
  exact h

theorem finishOpen_script {decoded : Address.Decoded}
    (h : s.workerScriptHex = Address.scriptPubkeyHex decoded) :
    (finishOpen env s).Yields fun o => NoneOrDecodes o.session := by
  intro minerId
  refine Prog.Yields.mono (keeps_thenDo keeps_emitLatestV2 fun u hu _ => hu) fun o ho => ?_
  exact .inr ⟨decoded, ho.script.trans h⟩

theorem script_processMessageV2 {msg : Request} (h : NoneOrDecodes s) :
    (processMessageV2 env s msg).Yields fun o => NoneOrDecodes o.session := by
  cases hop : opening env msg with
  | none => exact Prog.Yields.mono (keeps_processMessageV2 hop) fun o ho => h.same ho
  | some op =>
    cases msg with
    | openStandardMiningChannel msg =>
      show (handleOpenStandard env s msg).Yields _
      unfold handleOpenStandard
      dsimp only
      split
      · exact Prog.Yields.after fun _ => h
      · refine Prog.Yields.perform_bind fun r => Prog.Yields.after fun _ => ?_
        exact finishOpen_script rfl
    | openExtendedMiningChannel msg =>
      show (handleOpenExtended env s msg).Yields _
      unfold handleOpenExtended
      dsimp only
      split
      · exact Prog.Yields.after fun _ => h
      · refine Prog.Yields.perform_bind fun r => ?_
        split
        · exact .inr ⟨_, rfl⟩
        · exact Prog.Yields.after fun _ => finishOpen_script rfl
    | _ => cases hop

/-- **V2 sessions have no script, or a decoded one.** -/
theorem script_reach {ok : DeskState → Input → Prop} {d : DeskState} (h : Reach env true ok d) :
    IsV2 d ∧ NoneOrDecodes d.session := by
  refine Reach.invariant (I := fun d => IsV2 d ∧ NoneOrDecodes d.session) ?_ ?_ h
  · intro d hd
    obtain ⟨_, _, _, rfl⟩ := hd
    exact ⟨isV2_initial ⟨_, _, _, rfl⟩, .inl rfl⟩
  · intro d i d' ⟨hv, hscript⟩ _ hs
    obtain ⟨hv', _, hsame⟩ := hv.step hs
    refine ⟨hv', ?_⟩
    cases hop : openedBy env i with
    | none => exact hscript.same (hsame hop)
    | some op =>
      cases hs with
      | @task s w w' t readings o offered run =>
        cases t with
        | message msg => exact run.yields _ (script_processMessageV2 hscript)
        | _ => cases hop
      | _ => cases hop

end V2

end MkPool.PaidSessions
