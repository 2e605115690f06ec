import MkPool.Admission

/-! # Whom a session pays

An authorization names an address, a worker and perhaps a Dogecoin address. What
it settles is written in three places, and nothing clears what an earlier
authorization has left there. -/
namespace MkPool.PayoutIdentity
open MkPool.Lib.Interaction MkPool.Utils MkPool.Config MkPool.Job MkPool.Coinbase
open MkPool.Stratifier MkPool.Calls MkPool.ClientSession MkPool.JsonValue MkPool.Tasks
open MkPool.Stratum MkPool.Desk MkPool.SessionV2 MkPool.Standing MkPool.Admission MkPool.Play

/-- Who is paid, on both chains. -/
structure Identity where
  address : Str
  worker : Str
  script : Str
  minerId : Int
  dogeAddress : Str
  dogeScript : Str
deriving DecidableEq

/-- Whom the session pays. -/
def identity (s : Session) : Identity where
  address := s.workerAddress
  worker := s.workerName
  script := s.workerScriptHex
  minerId := s.minerId
  dogeAddress := s.auxDogeAddress
  dogeScript := s.dogeScriptHex

/-- The pool's own Dogecoin address and its script, where it has one. -/
def poolDoge (env : Env) : Option (Str × Str) :=
  if env.coin.aux.payoutAddress = [] then none
  else
    (Address.decodeToScriptHex env.decode env.coin.aux.payoutAddress).map fun script =>
      (env.coin.aux.payoutAddress, script)

/-- The Dogecoin address and the script a request is paid to: its own, or the
pool's where it names none. -/
def dogeOf (env : Env) (req : AuthRequest) : Str × Str :=
  if env.hasAux then
    if req.auxDogeAddress = [] then (poolDoge env).getD ([], [])
    else (req.auxDogeAddress, (Address.decodeToScriptHex env.decode req.auxDogeAddress).getD [])
  else ([], [])

/-- The identity of a request that was given a row. -/
def identityOf (env : Env) (req : AuthRequest) (minerId : Int) : Identity where
  address := req.addr
  worker := req.worker
  script :=
    if env.coin.chain = .zcash then bytesToHex (env.zcash.taddrToScript req.addr)
    else Address.scriptPubkeyHex req.decoded
  minerId := minerId
  dogeAddress := (dogeOf env req).1
  dogeScript := (dogeOf env req).2

/-! ## The request that was granted last -/

/-- The request whose address check a task answers. -/
def answered : Input → Option AuthRequest
  | .task (.validated (.payout req) _ _) _ | .task (.validated (.doge req) _ _) _ => some req
  | _ => none

/-- The reply of success to the request with this id. -/
def succeeds (idJson : Str) : Event → Bool
  | ⟨.send (.result id), _⟩ => id = idJson
  | _ => false

/-- The request a step sends its success to, with the row it is given. -/
def granted (i : Input) (evs : List Event) : Option (AuthRequest × Int) :=
  (answered i).bind fun req =>
    if evs.any (succeeds req.idJson) then (enrolled evs).map fun row => (req, row.2) else none

/-- The runs of a V1 session, with the request that was granted last. -/
inductive History (env : Env) (ok : DeskState → Input → Prop) :
    DeskState → Option (AuthRequest × Int) → Prop
  | init {d : DeskState} (h : Initial env false d) : History env ok d none
  | step {d d' : DeskState} {i : Input} {evs : List Event} {last : Option (AuthRequest × Int)}
      (h : History env ok d last) (hok : ok d i) (hs : Step env d i d')
      (hlog : d'.world.log = evs ++ d.world.log) : History env ok d' ((granted i evs).or last)

/-- **No run is left out.** -/
theorem history_of_reach {env : Env} {ok : DeskState → Input → Prop} {d : DeskState}
    (h : Reach env false ok d) : ∃ last, History env ok d last := by
  induction h with
  | init h => exact ⟨none, .init h⟩
  | step _ hok hs ih =>
    obtain ⟨last, hlast⟩ := ih
    obtain ⟨evs, hlog⟩ := log_of_step hs
    exact ⟨_, .step hlast hok hs hlog⟩

/-! ## The condition -/

/-- The request a task authorizes the session for, if it does. -/
def completes (env : Env) (s : Session) : Input → Option AuthRequest
  | .task (.validated (.payout req) none true) _ =>
    if s.closed then none
    else if !req.auxDogeAddress.isEmpty && env.hasAux then none else some req
  | .task (.validated (.doge req) none true) _ => if s.closed then none else some req
  | _ => none

/-- The request settles where its Dogecoin goes, or no request before it did;
and the job that is sent with its difficulty can be made. -/
structure Decides (env : Env) (d : DeskState) (req : AuthRequest) : Prop where
  pool : env.hasAux = true → req.auxDogeAddress = [] → (poolDoge env).isSome = true ∨
    d.session.auxDogeAddress = [] ∧ d.session.dogeScriptHex = []
  own : env.hasAux = true → req.auxDogeAddress ≠ [] →
    (Address.decodeToScriptHex env.decode req.auxDogeAddress).isSome = true ∨
      d.session.dogeScriptHex = []
  emits : req.customDiff ≠ none → d.session.authorized = true → env.coin.chain = .zcash →
    ∀ job, d.world.strat.jobs.latest = some job →
      (zcashJobOf env (withPayout env d.session req) job).isSome = true

/-- Every request that is let through decides. -/
def Whole (env : Env) (d : DeskState) (i : Input) : Prop :=
  ∀ req, completes env d.session i = some req → Decides env d req

/-! ## What an authorization does -/

section Authorization

variable {env : Env} {s t : Session} {req : AuthRequest} {w w' : World} {o : Outcome}

/-- The session under an identity. -/
def asRow (s : Session) (minerId : Int) : Session :=
  { s with minerId := minerId, authorized := true }

theorem standing_asRow {minerId : Int} (h : standing s = standing t) :
    standing (asRow s minerId) = standing (asRow t minerId) :=
  congrArg (asRow · minerId) h

theorem emitJob_throws {job : MiningJob} {forceClean : Bool}
    (run : desk.Exec (emitJob env s job forceClean) w (.threw t) w') :
    env.coin.chain = .zcash ∧ zcashJobOf env s job = none := by
  unfold emitJob at run
  split at run
  · rename_i hchain
    split at run
    · exact ⟨hchain, ‹_›⟩
    · obtain ⟨_, _, _, run⟩ := run.perform_inv
      cases run.ret_inv.1
    · obtain ⟨_, _, _, run⟩ := run.perform_inv
      cases run.ret_inv.1
  · obtain ⟨_, _, _, run⟩ := run.perform_inv
    cases run.ret_inv.1

/-- A difficulty fails to go out where the latest job cannot be made. -/
theorem sendSetDifficulty_throws {d : ℚ} {old : Option ℚ}
    (run : desk.Exec (sendSetDifficulty env s d old) w (.threw t) w') :
    s.authorized = true ∧ env.coin.chain = .zcash ∧
      ∃ job, w.strat.jobs.latest = some job ∧ zcashJobOf env s job = none := by
  unfold sendSetDifficulty at run
  obtain ⟨now, w₁, hnow, run⟩ := run.perform_inv
  obtain ⟨_, w₂, hsend, run⟩ := run.perform_inv
  obtain ⟨_, w₃, hwhen, run⟩ := run.bind_inv
  have hstrat : w₃.strat = w.strat := by
    have hlast : w₃.strat = w₂.strat := by
      unfold whenDo at hwhen
      split at hwhen
      · obtain ⟨_, w₄, htarget, hret⟩ := hwhen.call_inv
        rw [hret.ret_inv.2]
        exact htarget.strat
      · rw [hwhen.ret_inv.2]
    have hfirst : w₁.strat = w.strat := hnow.strat
    have hsecond : w₂.strat = w₁.strat := hsend.strat
    rw [hlast, hsecond, hfirst]
  split at run
  · rename_i hauth
    obtain ⟨latest, w₅, hlatest, run⟩ := run.perform_inv
    obtain ⟨hl, _⟩ := hlatest.strat
    cases latest with
    | none => cases run.ret_inv.1
    | some job =>
      obtain ⟨hchain, hnone⟩ := emitJob_throws run
      exact ⟨hauth, hchain, job, by rw [← hstrat, ← hl], hnone⟩
  · cases run.ret_inv.1

theorem finishAuth_grants {idJson : Str} (run : desk.Exec (finishAuth env s idJson) w o w') :
    ∃ evs minerId, w'.log = evs ++ w.log ∧ evs.any (succeeds idJson) = true ∧
      enrolled evs = some ((s.workerAddress, s.workerName), minerId) ∧
      standing o.session = standing (asRow s minerId) := by
  unfold finishAuth at run
  obtain ⟨_, w₁, hreply, run⟩ := run.perform_inv
  obtain ⟨minerId, w₂, hrow, run⟩ := run.perform_inv
  have hstay : Stays (asRow s minerId) (emitLatest env (asRow s minerId) false) :=
    stays_emitLatest
  obtain ⟨evs, hlog, hevs⟩ := exec_log run hstay.calls
  refine ⟨evs ++ [⟨.ensureMiner s.workerAddress s.workerName, minerId⟩,
    ⟨.send (.result idJson), ()⟩], minerId, ?_, ?_, ?_, run.yields _ hstay.session⟩
  · rw [hlog, hrow.log, hreply.log, List.append_assoc]
    rfl
  · simp [succeeds]
  · rw [enrolled_append, enrolled_noRow fun e he => noRow_of_common (hevs e he)]
    rfl

theorem proceedAuth_grants
    (emits : req.customDiff ≠ none → s.authorized = true → env.coin.chain = .zcash →
      ∀ job, w.strat.jobs.latest = some job →
        (zcashJobOf env (withPayout env s req) job).isSome = true)
    (run : desk.Exec (proceedAuth env s req) w o w') :
    ∃ evs minerId, w'.log = evs ++ w.log ∧ evs.any (succeeds req.idJson) = true ∧
      enrolled evs = some ((req.addr, req.worker), minerId) ∧
      standing o.session = standing (asRow (withPayout env s req) minerId) := by
  unfold proceedAuth at run
  rcases thenDo_inv run with ⟨t, w₁, first, rest⟩ | ⟨t, rfl, first⟩
  · obtain ⟨evs₁, hlog₁, hevs₁⟩ := exec_log first stays_advertise.calls
    have hstand : standing t = standing (withPayout env s req) :=
      first.yields _ stays_advertise.session
    obtain ⟨evs₂, minerId, hlog₂, hreply, hrow, hsession⟩ := finishAuth_grants rest
    have haddr := congrArg Session.workerAddress hstand
    have hworker := congrArg Session.workerName hstand
    replace haddr : t.workerAddress = req.addr := haddr
    replace hworker : t.workerName = req.worker := hworker
    refine ⟨evs₂ ++ evs₁, minerId, by rw [hlog₂, hlog₁, List.append_assoc], ?_, ?_,
      hsession.trans (standing_asRow hstand)⟩
    · rw [List.any_append, hreply, Bool.true_or]
    · rw [enrolled_append, hrow, Option.some_or, haddr, hworker]
  · cases hd : req.customDiff with
    | none =>
      rw [hd] at first
      cases first.ret_inv.1
    | some d =>
      rw [hd] at first
      obtain ⟨hauth, hchain, job, hjob, hnone⟩ := sendSetDifficulty_throws first
      have hsome := emits (by simp [hd]) hauth hchain job hjob
      rw [show zcashJobOf env (withPayout env s req) job = none from hnone] at hsome
      cases hsome

end Authorization

/-! ## The tasks -/

section Tasks

variable {env : Env} {s : Session} {req : AuthRequest} {w w' : World} {o : Outcome} {t : Task}
  {readings : Set ℚ}

/-- The Dogecoin fields as a request leaves them: what it does not settle stays. -/
def withDogeOf (env : Env) (s : Session) (req : AuthRequest) : Session :=
  if env.hasAux then
    if req.auxDogeAddress = [] then
      match poolDoge env with
      | some (addr, script) => withDoge s addr script
      | none => s
    else
      withDoge s req.auxDogeAddress
        ((Address.decodeToScriptHex env.decode req.auxDogeAddress).getD s.dogeScriptHex)
  else s

/-- A Dogecoin address is checked where there is a node for it. -/
def DogeOffered (env : Env) (t : Task) : Prop :=
  ∀ req error valid, t = .validated (.doge req) error valid →
    env.hasAux = true ∧ req.auxDogeAddress ≠ []

/-- **A task that lets a request through.** It is `proceed_auth` on the session
with the request's Dogecoin fields. -/
theorem prog_of_completes (hdoge : DogeOffered env t)
    (h : completes env s (.task t readings) = some req) :
    t.prog env s = proceedAuth env (withDogeOf env s req) req := by
  unfold completes at h
  split at h
  · rename_i r readings' he
    cases he
    split at h
    · cases h
    · rename_i hopen
      split at h
      · cases h
      · rename_i hown
        cases h
        show onPayoutValidated env s req none true = _
        unfold onPayoutValidated withDogeOf
        rw [if_neg hopen, if_neg (by simp), if_neg hown]
        by_cases haux : env.hasAux = true
        · have hnil : req.auxDogeAddress = [] := by simpa [haux] using hown
          rw [if_pos haux, if_pos hnil]
          unfold poolDoge
          by_cases hpay : env.coin.aux.payoutAddress = []
          · simp [hpay]
          · rw [if_neg hpay, if_pos (by simpa [haux] using hpay)]
            cases Address.decodeToScriptHex env.decode env.coin.aux.payoutAddress <;> rfl
        · rw [if_neg haux, if_neg (by simp [haux])]
  · rename_i r readings' he
    cases he
    split at h
    · cases h
    · rename_i hopen
      cases h
      obtain ⟨haux, hown⟩ := hdoge req none true rfl
      show onDogeValidated env s req none true = _
      unfold onDogeValidated withDogeOf
      rw [if_neg hopen, if_neg (by simp), if_pos haux, if_neg hown]
  · cases h

/-- **A task that lets no request through** keeps the account. -/
theorem keepsAccount_task (hline : ∀ msg, t ≠ .message msg)
    (h : completes env s (.task t readings) = none) : KeepsAccount s (t.prog env s) := by
  have refused (idJson text : Str) : KeepsAccount s (do
      ask (.send (.authError idJson text))
      return .done s) := leaves_ask trivial fun _ => leaves_done rfl
  cases t with
  | line line => exact keepsAccount_line
  | message msg => exact absurd rfl (hline msg)
  | notify job => exact keepsAccount_of_stays stays_notifyNewJob
  | validated v error valid =>
    cases v with
    | payout req =>
      show KeepsAccount s (onPayoutValidated env s req error valid)
      unfold onPayoutValidated
      refine leaves_ite (fun _ => leaves_done rfl) fun hopen => ?_
      refine leaves_ite (fun _ => refused _ _) fun hok => ?_
      refine leaves_ite (fun _ => leaves_ask trivial fun _ => leaves_done rfl) fun hown => ?_
      obtain ⟨rfl, rfl⟩ : error = none ∧ valid = true := by simpa using hok
      simp [completes, hopen, hown] at h
    | doge req =>
      show KeepsAccount s (onDogeValidated env s req error valid)
      unfold onDogeValidated
      refine leaves_ite (fun _ => leaves_done rfl) fun hopen => ?_
      refine leaves_ite (fun _ => refused _ _) fun hok => ?_
      obtain ⟨rfl, rfl⟩ : error = none ∧ valid = true := by simpa using hok
      simp [completes, hopen] at h
    | payoutV2 addr =>
      exact leaves_ite (fun _ => leaves_done rfl) fun _ => leaves_ite (fun _ => leaves_done rfl)
        fun _ => leaves_done rfl
  | resetShareCounters | disconnect => exact leaves_done rfl

/-- A task has a Dogecoin address checked where there is a node for it. -/
theorem task_doge (run : desk.Exec (t.prog env s) w o w') :
    ∃ evs, w'.log = evs ++ w.log ∧
      ∀ req, (⟨.validateAddress (.doge req), ()⟩ : Event) ∈ evs →
        env.hasAux = true ∧ req.auxDogeAddress ≠ [] := by
  obtain ⟨evs, hlog, hchecks⟩ := task_checks run
  refine ⟨evs, hlog, fun req hmem => ?_⟩
  obtain ⟨error, valid, rfl⟩ := hchecks.doge req hmem
  have never {p : Act Outcome} (run : desk.Exec p w o w') (hp : p.All OwnCheck) : False := by
    obtain ⟨evs', hlog', hevs⟩ := exec_log run hp
    obtain rfl : evs = evs' := List.append_cancel_right (hlog.symm.trans hlog')
    exact hevs _ hmem
  replace run : desk.Exec (onPayoutValidated env s req error valid) w o w' := run
  unfold onPayoutValidated at run
  split at run
  · exact (never run trivial).elim
  · split at run
    · exact (never run ⟨trivial, fun _ => trivial⟩).elim
    · split at run
      · rename_i hown
        exact ⟨by simp_all, by simp_all⟩
      · refine (never run (all_ite ?_ own_proceedAuth)).elim
        split
        · exact own_proceedAuth
        · exact own_proceedAuth

end Tasks

/-! ## Runs -/

section Runs

variable {env : Env} {d d' : DeskState} {i : Input} {evs : List Event}
  {last : Option (AuthRequest × Int)} {req : AuthRequest} {minerId : Int}

theorem identity_of_account {a b : Session} (h : account a = account b) :
    identity a = identity b := by
  have hid := congrArg identity h
  exact hid

theorem authorized_of_account {a b : Session} (h : account a = account b) :
    a.authorized = b.authorized := by
  have hauth := congrArg Session.authorized h
  exact hauth

theorem granted_none (h : enrolled evs = none) : granted i evs = none := by
  unfold granted
  rw [h]
  cases answered i with
  | none => rfl
  | some req => simp

theorem granted_some (hi : answered i = some req) (hreply : evs.any (succeeds req.idJson) = true)
    (hrow : enrolled evs = some ((req.addr, req.worker), minerId)) :
    granted i evs = some (req, minerId) := by
  unfold granted
  rw [hi, Option.bind_some, if_pos hreply, hrow]
  rfl

theorem answered_of_completes {s : Session} (h : completes env s i = some req) :
    answered i = some req := by
  unfold completes at h
  split at h
  · split at h
    · cases h
    · split at h
      · cases h
      · exact h
  · split at h
    · cases h
    · exact h
  · cases h

theorem doge_step (hs : Step env d i d') (hlog : d'.world.log = evs ++ d.world.log)
    (req : AuthRequest) (hmem : (⟨.validateAddress (.doge req), ()⟩ : Event) ∈ evs) :
    env.hasAux = true ∧ req.auxDogeAddress ≠ [] := by
  have asked {t : Task} {s : Session} {w w' : World} {o : Outcome}
      (run : desk.Exec (t.prog env s) w o w') (hlog : w'.log = evs ++ w.log) :
      env.hasAux = true ∧ req.auxDogeAddress ≠ [] := by
    obtain ⟨evs', hlog', hevs⟩ := task_doge run
    obtain rfl : evs = evs' := List.append_cancel_right (hlog.symm.trans hlog')
    exact hevs req hmem
  cases hs with
  | task offered run => exact asked run hlog
  | @notify s w w' job rest o head run => exact asked (t := .notify job) run hlog
  | work run => exact (publishes_of_work run hlog _ hmem).elim
  | others =>
    obtain rfl : evs = [] := by simpa using hlog
    cases hmem

/-- What a run keeps of whom the session pays. -/
structure Settled (env : Env) (d : DeskState) (last : Option (AuthRequest × Int)) : Prop where
  v1 : d.session.isV2 = false
  asked : ∀ req, (⟨.validateAddress (.doge req), ()⟩ : Event) ∈ d.world.log →
    env.hasAux = true ∧ req.auxDogeAddress ≠ []
  bare : env.hasAux = false → d.session.auxDogeAddress = [] ∧ d.session.dogeScriptHex = []
  before : last = none → d.session.authorized = false
  after : ∀ req minerId, last = some (req, minerId) →
    identity d.session = identityOf env req minerId

/-- **What a step does to the account.** It keeps it and grants nothing, or it
grants a request, and the session has its account. -/
theorem account_step (h : Settled env d last) (hok : Whole env d i) (hs : Step env d i d')
    (hlog : d'.world.log = evs ++ d.world.log) :
    granted i evs = none ∧ account d'.session = account d.session ∨
      ∃ req minerId, completes env d.session i = some req ∧
        granted i evs = some (req, minerId) ∧
        account d'.session =
          account (asRow (withPayout env (withDogeOf env d.session req) req) minerId) := by
  have kept {p : Act Outcome} {s : Session} {w w' : World} {o : Outcome} (hp : KeepsAccount s p)
      (run : desk.Exec p w o w') (hlog : w'.log = evs ++ w.log) :
      granted i evs = none ∧ account o.session = account s := by
    obtain ⟨evs', hlog', hevs⟩ := exec_log run hp.calls
    obtain rfl : evs = evs' := List.append_cancel_right (hlog.symm.trans hlog')
    exact ⟨granted_none (enrolled_noRow hevs), run.yields _ hp.session⟩
  cases hs with
  | @task s w w' t readings o offered run =>
    have hv1 : ∀ msg, t ≠ .message msg := by
      rintro msg rfl
      have hv2 : s.isV2 = true := offered
      rw [show s.isV2 = false from h.v1] at hv2
      cases hv2
    cases hc : completes env s (.task t readings) with
    | none => exact .inl (kept (keepsAccount_task hv1 hc) run hlog)
    | some req =>
      have hdoge : DogeOffered env t := by
        rintro r error valid rfl
        exact h.asked r offered
      rw [prog_of_completes hdoge hc] at run
      have hdecides := hok req hc
      obtain ⟨evs', minerId, hlog', hreply, hrow, hsession⟩ := proceedAuth_grants
        (s := withDogeOf env s req) (fun hcustom hauth hchain job hjob => by
          have hsame : zcashJobOf env (withPayout env (withDogeOf env s req) req) job =
              zcashJobOf env (withPayout env s req) job := rfl
          have hauth' : s.authorized = true := by
            revert hauth
            unfold withDogeOf
            split
            · split
              · split <;> exact id
              · exact id
            · exact id
          rw [hsame]
          exact hdecides.emits hcustom hauth' hchain job hjob) run
      obtain rfl : evs = evs' := List.append_cancel_right (hlog.symm.trans hlog')
      exact .inr ⟨req, minerId, rfl, granted_some (answered_of_completes hc) hreply hrow,
        account_of_standing hsession⟩
  | notify head run => exact .inl (kept (keepsAccount_of_stays stays_notifyNewJob) run hlog)
  | work run =>
    refine .inl ⟨granted_none (enrolled_noRow fun e he => ?_), rfl⟩
    exact noRow_of_publishes (publishes_of_work run hlog e he)
  | others =>
    obtain rfl : evs = [] := by simpa using hlog
    exact .inl ⟨granted_none rfl, rfl⟩

/-- The account of a granted request is that request's. -/
theorem identity_granted {s : Session} {w : World} (h : Decides env ⟨s, w⟩ req)
    (bare : env.hasAux = false → s.auxDogeAddress = [] ∧ s.dogeScriptHex = []) :
    identity (asRow (withPayout env (withDogeOf env s req) req) minerId)
      = identityOf env req minerId := by
  have hdoge : ((withDogeOf env s req).auxDogeAddress, (withDogeOf env s req).dogeScriptHex)
      = dogeOf env req := by
    unfold withDogeOf dogeOf
    by_cases haux : env.hasAux = true
    · rw [if_pos haux, if_pos haux]
      by_cases hown : req.auxDogeAddress = []
      · rw [if_pos hown, if_pos hown]
        cases hp : poolDoge env with
        | some p => rfl
        | none =>
          rcases h.pool haux hown with hsome | ⟨haddr, hscript⟩
          · rw [hp] at hsome
            cases hsome
          · exact Prod.ext haddr hscript
      · rw [if_neg hown, if_neg hown]
        rcases h.own haux hown with hsome | hscript
        · obtain ⟨script, hscript⟩ := Option.isSome_iff_exists.mp hsome
          rw [hscript]
          rfl
        · rw [show s.dogeScriptHex = [] from hscript]
          rfl
    · obtain ⟨haddr, hscript⟩ := bare (by simpa using haux)
      rw [if_neg haux, if_neg haux]
      exact Prod.ext haddr hscript
  have haddr := congrArg Prod.fst hdoge
  have hscript := congrArg Prod.snd hdoge
  show Identity.mk req.addr req.worker _ minerId (withDogeOf env s req).auxDogeAddress
    (withDogeOf env s req).dogeScriptHex = _
  rw [show (withDogeOf env s req).auxDogeAddress = _ from haddr,
    show (withDogeOf env s req).dogeScriptHex = _ from hscript]
  rfl

theorem Settled.step (h : Settled env d last) (hok : Whole env d i) (hs : Step env d i d')
    (hlog : d'.world.log = evs ++ d.world.log) : Settled env d' ((granted i evs).or last) := by
  have asked : ∀ req, (⟨.validateAddress (.doge req), ()⟩ : Event) ∈ d'.world.log →
      env.hasAux = true ∧ req.auxDogeAddress ≠ [] := by
    intro req hmem
    rw [hlog] at hmem
    rcases List.mem_append.mp hmem with hmem | hmem
    · exact doge_step hs hlog req hmem
    · exact h.asked req hmem
  rcases account_step h hok hs hlog with ⟨hnone, hsame⟩ | ⟨req, minerId, hc, hsome, hnew⟩
  · rw [hnone, Option.none_or]
    have hid := identity_of_account hsame
    have haddr := congrArg Identity.dogeAddress hid
    have hscript := congrArg Identity.dogeScript hid
    refine ⟨?_, asked, fun haux => ?_, fun hl => ?_, fun req minerId hl => ?_⟩
    · have hv := congrArg Session.isV2 hsame
      exact hv.trans h.v1
    · exact ⟨haddr.trans (h.bare haux).1, hscript.trans (h.bare haux).2⟩
    · exact (authorized_of_account hsame).trans (h.before hl)
    · exact hid.trans (h.after req minerId hl)
  · rw [hsome, Option.some_or]
    have hid : identity d'.session = identityOf env req minerId :=
      (identity_of_account hnew).trans (identity_granted (w := d.world) (hok req hc) h.bare)
    refine ⟨?_, asked, fun haux => ?_, fun hl => ?_, fun req' minerId' hl => ?_⟩
    · have hv := congrArg Session.isV2 hnew
      refine hv.trans (Eq.trans ?_ h.v1)
      unfold withDogeOf
      split
      · split
        · split <;> rfl
        · rfl
      · rfl
    · have haddr := congrArg Identity.dogeAddress hid
      have hscript := congrArg Identity.dogeScript hid
      have hnone : dogeOf env req = ([], []) := if_neg (by simp [haux])
      exact ⟨haddr.trans (congrArg Prod.fst hnone), hscript.trans (congrArg Prod.snd hnone)⟩
    · cases hl
    · cases hl
      exact hid

theorem settled_of_history (h : History env (Whole env) d last) : Settled env d last := by
  induction h with
  | init h =>
    obtain ⟨_, _, _, rfl⟩ := h
    exact ⟨rfl, by simp, fun _ => ⟨rfl, rfl⟩, fun _ => rfl, fun _ _ hl => by cases hl⟩
  | step _ hok hs hlog ih => exact ih.step hok hs hlog

/-- **The identity of a session.** It is that of the request that was granted
last, and a step that grants none leaves it as it is. -/
theorem identity_of_last_granted (h : History env (Whole env) d last) :
    (d.session.authorized = true → ∃ req minerId, last = some (req, minerId) ∧
      identity d.session = identityOf env req minerId) ∧
    ∀ i d' evs, Whole env d i → Step env d i d' → d'.world.log = evs ++ d.world.log →
      granted i evs = none → identity d'.session = identity d.session := by
  have hsettled := settled_of_history h
  constructor
  · intro hauth
    cases hl : last with
    | none =>
      rw [hsettled.before hl] at hauth
      cases hauth
    | some row => exact ⟨row.1, row.2, rfl, hsettled.after row.1 row.2 hl⟩
  · intro i d' evs hok hs hlog hnone
    rcases account_step hsettled hok hs hlog with ⟨_, hsame⟩ | ⟨req, minerId, _, hsome, _⟩
    · exact identity_of_account hsame
    · rw [hnone] at hsome
      cases hsome

end Runs

/-! ## Samples -/

/-- A list of moves, played with the request that was granted last. -/
def playHistory (env : Env) : DeskState → Option (AuthRequest × Int) → List (Replies × Move) →
    Option (DeskState × Option (AuthRequest × Int))
  | d, last, [] => some (d, last)
  | d, last, (r, m) :: moves =>
    (m.input r d).bind fun i => (perform env r d i).bind fun d' =>
      playHistory env d'
        ((granted i (d'.world.log.take (d'.world.log.length - d.world.log.length))).or last) moves

theorem history_of_play {env : Env} {ok : DeskState → Input → Prop} (hok : ∀ d i, ok d i)
    {moves : List (Replies × Move)} {d d' : DeskState} {last last' : Option (AuthRequest × Int)}
    (hd : History env ok d last) (h : playHistory env d last moves = some (d', last')) :
    History env ok d' last' := by
  induction moves generalizing d last with
  | nil =>
    cases h
    exact hd
  | cons rm moves ih =>
    obtain ⟨r, m⟩ := rm
    unfold playHistory at h
    obtain ⟨i, hi, h⟩ := Option.bind_eq_some_iff.mp h
    obtain ⟨d₁, h₁, h⟩ := Option.bind_eq_some_iff.mp h
    have hs := step_of_perform hi h₁
    obtain ⟨evs, hlog⟩ := log_of_step hs
    have htake : d₁.world.log.take (d₁.world.log.length - d.world.log.length) = evs := by
      rw [hlog, List.length_append, Nat.add_sub_cancel, List.take_left']
      rfl
    rw [htake] at h
    exact ih (.step hd (hok _ _) hs hlog) h

/-- Two workers authorize on one connection: the first names a Dogecoin address,
the second does not. -/
def twoWorkers : List (Replies × Move) :=
  [(usual, .line (request "mining.authorize" ["first.1", "doge=DFirst"])),
    (usual, .validated none true), (usual, .validated none true),
    (usual, .line (request "mining.authorize" ["second.1", "x"])), (usual, .validated none true)]

theorem whole_sample (d : DeskState) (i : Input) : Whole sampleEnv d i :=
  fun _ _ => ⟨fun _ _ => .inl rfl, fun _ _ => .inl rfl, fun _ _ hchain => by cases hchain⟩

/-- Where the pool has an address of its own, the second worker gets it. -/
theorem second_worker_identity :
    ∃ d last, d.session.authorized = true ∧
      ((d.session.authorized = true → ∃ req minerId, last = some (req, minerId) ∧
        identity d.session = identityOf sampleEnv req minerId) ∧
      ∀ i d' evs, Whole sampleEnv d i → Step sampleEnv d i d' →
        d'.world.log = evs ++ d.world.log → granted i evs = none →
        identity d'.session = identity d.session) := by
  have h : (playHistory sampleEnv (start sampleEnv false) none twoWorkers).any
      (fun x => x.1.session.authorized) = true := by
    decide +kernel
  obtain ⟨⟨d, last⟩, hd, hauth⟩ := (Option.any_eq_true _ _).mp h
  exact ⟨d, last, hauth, identity_of_last_granted
    (history_of_play whole_sample (.init ⟨_, _, _, rfl⟩) hd)⟩

/-- The pool of the samples without a Dogecoin address of its own. -/
def dogelessPool : Env :=
  { sampleEnv with coin := { sampleEnv.coin with aux := { payoutAddress := [] } } }

/-- **A Dogecoin address is left behind.** Where the pool has none of its own,
the second worker's blocks pay the first. -/
theorem second_worker_pays_first :
    ∃ env d last, History env (fun _ _ => True) d last ∧ d.session.authorized = true ∧
      ¬ ∃ req minerId, last = some (req, minerId) ∧
        identity d.session = identityOf env req minerId := by
  have h : (playHistory dogelessPool (start dogelessPool false) none twoWorkers).any (fun x =>
      x.1.session.authorized && x.2.all fun row =>
        decide (identity x.1.session ≠ identityOf dogelessPool row.1 row.2)) = true := by
    decide +kernel
  obtain ⟨⟨d, last⟩, hd, hx⟩ := (Option.any_eq_true _ _).mp h
  obtain ⟨hauth, hdiff⟩ := Bool.and_eq_true_iff.mp hx
  refine ⟨_, d, last, history_of_play (fun _ _ => trivial) (.init ⟨_, _, _, rfl⟩) hd, hauth, ?_⟩
  rintro ⟨req, minerId, rfl, hid⟩
  rw [Option.all_some, decide_eq_true_eq] at hdiff
  exact hdiff hid

end MkPool.PayoutIdentity
