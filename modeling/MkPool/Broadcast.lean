import MkPool.Emissions
import MkPool.WorkAgreement
import MkPool.PayoutIdentity

/-! # No ready session is left on an old job

A job is pushed to the window and then posted to the sessions, one after the
other; a session drops what it gets before it has subscribed, and handlers send
the latest job by themselves. -/
namespace MkPool.Broadcast
open MkPool.Lib.Interaction MkPool.Utils MkPool.Config MkPool.Job MkPool.Coinbase
open MkPool.Stratifier MkPool.Sv2Messages MkPool.Calls MkPool.ClientSession MkPool.JsonValue
open MkPool.Tasks MkPool.Stratum MkPool.StratumV2 MkPool.Desk MkPool.Published MkPool.SessionV2
open MkPool.Standing MkPool.Admission MkPool.EmittedWork MkPool.WorkAgreement
open MkPool.PayoutIdentity MkPool.Emissions MkPool.Play

/-- A V1 session mines once it has subscribed and is authorized, a V2 session
on an open channel. -/
def Ready (s : Session) : Prop :=
  if s.isV2 then s.sv2ChannelId ≠ 0 else s.subscribed = true ∧ s.authorized = true

instance (s : Session) : Decidable (Ready s) := inferInstanceAs (Decidable (ite _ _ _))

/-- The job can be made for the session. -/
def Makes (env : Env) (s : Session) (job : MiningJob) : Prop :=
  if s.isV2 then workFor env s job ≠ none
  else env.coin.chain = .zcash → zcashJobOf env s job ≠ none

/-- The broadcast gets through, and can be made. -/
structure Deliverable (env : Env) (s : Session) (job : MiningJob) : Prop where
  subscribed : s.subscribed = true
  plain : Makes env s job
  aux : (job.auxEnabled && !s.auxDogeAddress.isEmpty && env.hasAux) = true →
    buildSessionAux env s.dogeScriptHex job ≠ none

/-! ## What a run sends -/

/-- The job was sent between two worlds. -/
def Told (env : Env) (job : MiningJob) (w w' : World) : Prop :=
  ∃ evs, w'.log = evs ++ w.log ∧ ∃ e ∈ evs, Emission env job e.1

/-- From a session and a world to others: what was sent is the latest job, and
who became ready has got it. -/
structure Tells (env : Env) (s : Session) (w : World) (t : Session) (w' : World) : Prop where
  jobs : w'.strat.jobs = w.strat.jobs
  posted : w'.posted = w.posted
  isV2 : t.isV2 = s.isV2
  ready : Ready s → Ready t
  closed : s.closed = true → t.closed = true
  log : ∃ evs, w'.log = evs ++ w.log ∧ ∀ e ∈ evs, sendsWork e.1 = true →
    ∃ job, w.strat.jobs.latest = some job ∧ Emission env job e.1
  told : t.closed = false → Ready t → Ready s ∨ ∀ job, w.strat.jobs.latest = some job →
    Told env job w w'

section Rules

variable {env : Env} {s t u : Session} {w w₁ w' : World} {o : Outcome} {α : Type}
  {job : MiningJob}

theorem log_of_run {p : Act α} {a : α} (run : desk.Exec p w a w') :
    ∃ evs, w'.log = evs ++ w.log := by
  obtain ⟨evs, hlog, _⟩ := exec_log (S := fun _ => True) run (Prog.all_true _)
  exact ⟨evs, hlog⟩

theorem Told.after (hlog : ∃ evs, w₁.log = evs ++ w.log) (h : Told env job w₁ w') :
    Told env job w w' := by
  obtain ⟨evs₁, hlog₁⟩ := hlog
  obtain ⟨evs, hlog, e, he, hemit⟩ := h
  exact ⟨evs ++ evs₁, by rw [hlog, hlog₁, List.append_assoc], e, List.mem_append_left _ he, hemit⟩

theorem Told.before (h : Told env job w w₁) (hlog : ∃ evs, w'.log = evs ++ w₁.log) :
    Told env job w w' := by
  obtain ⟨evs₁, hlog₁⟩ := hlog
  obtain ⟨evs, hlog, e, he, hemit⟩ := h
  exact ⟨evs₁ ++ evs, by rw [hlog₁, hlog, List.append_assoc], e, List.mem_append_right _ he, hemit⟩

theorem ready_of_like (h : Like s t) : Ready t ↔ Ready s := by
  unfold Ready
  rw [h.isV2, h.channelId, h.subscribed, h.authorized]

theorem ready_v1 (hv : s.isV2 = false) :
    Ready s ↔ s.subscribed = true ∧ s.authorized = true := by
  unfold Ready
  rw [if_neg (by simp [hv])]

theorem open_of_open (h : s.closed = true → t.closed = true) (ht : t.closed = false) :
    s.closed = false := by
  cases hs : s.closed with
  | false => rfl
  | true =>
    rw [h hs] at ht
    cases ht

theorem Tells.trans (h : Tells env s w t w₁) (h' : Tells env t w₁ u w') :
    Tells env s w u w' where
  jobs := h'.jobs.trans h.jobs
  posted := h'.posted.trans h.posted
  isV2 := h'.isV2.trans h.isV2
  ready hr := h'.ready (h.ready hr)
  closed hc := h'.closed (h.closed hc)
  log := by
    obtain ⟨evs, hlog, hevs⟩ := h.log
    obtain ⟨evs', hlog', hevs'⟩ := h'.log
    rw [h.jobs] at hevs'
    refine ⟨evs' ++ evs, by rw [hlog', hlog, List.append_assoc], fun e he => ?_⟩
    rcases List.mem_append.mp he with he | he
    · exact hevs' e he
    · exact hevs e he
  told hc hr := by
    rcases h'.told hc hr with hr | hsent
    · refine (h.told (open_of_open h'.closed hc) hr).imp_right fun hsent job hjob => ?_
      exact (hsent job hjob).before (h'.log.imp fun _ h => h.1)
    · refine .inr fun job hjob => (hsent job ?_).after (h.log.imp fun _ h => h.1)
      rw [h.jobs]
      exact hjob

theorem tells_of_path {n : Nat} (h : Path env n ⟨s, w⟩ ⟨t, w'⟩) : Tells env s w t w' := by
  obtain ⟨hlike, hjobs, hposted, hlog⟩ := h.carries
  exact ⟨hjobs, hposted, hlike.isV2, (ready_of_like hlike).mpr, hlike.closed, hlog,
    fun _ hr => .inl ((ready_of_like hlike).mp hr)⟩

theorem tells_of_walk {p : Act Outcome} (h : Walk env w.readings 1 s p)
    (run : desk.Exec p w o w') : Tells env s w o.session w' :=
  tells_of_path (h _ _ _ rfl run)

/-- Calls that send no work. -/
theorem tells_off {p : Act α} {a : α} (hp : p.All Off) (run : desk.Exec p w a w') :
    Tells env s w s w' :=
  tells_of_path (path_off run hp (.stay (n := 0)))

/-- Fields are written that have no part in being ready. -/
theorem tells_fields (hv : t.isV2 = s.isV2) (hr : Ready t ↔ Ready s)
    (hc : s.closed = true → t.closed = true) : Tells env s w t w :=
  ⟨rfl, rfl, hv, hr.mpr, hc, ⟨[], rfl, by simp⟩, fun _ h => .inl (hr.mp h)⟩

/-- Fields are written that make the session ready, and the latest job is sent. -/
theorem tells_ready {p : Act Outcome} (hv : t.isV2 = s.isV2) (hr : Ready s → Ready t)
    (hc : s.closed = true → t.closed = true) (hwalk : Walk env w.readings 1 t p)
    (run : desk.Exec p w o w') (hsent : t.closed = false → Ready t → ∀ job, w.strat.jobs.latest = some job →
      Told env job w w') : Tells env s w o.session w' := by
  obtain ⟨hlike, hjobs, hposted, hlog⟩ := (hwalk _ _ _ rfl run).carries
  refine ⟨hjobs, hposted, hlike.isV2.trans hv, fun h => (ready_of_like hlike).mpr (hr h),
    fun h => hlike.closed (hc h), hlog, fun hopen h => .inr ?_⟩
  exact hsent (open_of_open hlike.closed hopen) ((ready_of_like hlike).mp h)

theorem tells_call {c : Call} {x : Answer c} (hs : DeskCall c w x w') (hc : Off c) :
    Tells env s w s w' :=
  tells_off (off_ask hc) (.call hs (.ret _ _))

end Rules

/-! ## V1 -/

section V1

variable {env : Env} {s t : Session} {w w' : World} {o : Outcome} {job : MiningJob}
  {req : AuthRequest}

theorem told_emitLatest {forceClean : Bool} (run : desk.Exec (emitLatest env s forceClean) w o w')
    (hjob : w.strat.jobs.latest = some job)
    (hmake : env.coin.chain = .zcash → zcashJobOf env s job ≠ none) : Told env job w w' := by
  obtain ⟨_, _, _, evs, hlog, _, hsent⟩ := emitLatest_sends run
  exact ⟨evs, hlog, hsent job hjob hmake⟩

theorem told_sendSetDifficulty {d : ℚ} {old : Option ℚ}
    (run : desk.Exec (sendSetDifficulty env s d old) w o w') (hauth : s.authorized = true)
    (hjob : w.strat.jobs.latest = some job)
    (hmake : env.coin.chain = .zcash → zcashJobOf env s job ≠ none) : Told env job w w' := by
  unfold sendSetDifficulty at run
  obtain ⟨now, w₁, hnow, run⟩ := run.perform_inv
  obtain ⟨_, w₂, hsend, run⟩ := run.perform_inv
  obtain ⟨_, w₃, hwhen, run⟩ := run.bind_inv
  rw [if_pos (show (s.advertised (old.getD d) now).authorized = true from hauth)] at run
  have first : Tells env s w s w₃ := by
    refine (tells_call hnow ⟨rfl, trivial⟩).trans ((tells_call hsend ⟨rfl, trivial⟩).trans ?_)
    exact tells_off (all_whenDo (off_ask (c := .send (.setTarget _)) ⟨rfl, trivial⟩)) hwhen
  refine (told_emitLatest run ?_ hmake).after (first.log.imp fun _ h => h.1)
  rw [first.jobs]
  exact hjob

theorem tells_handleSubscribe {msg : Json}
    (run : desk.Exec (handleSubscribe env s msg) w o w') (hv : s.isV2 = false)
    (hmake : s.authorized = true → ∀ job, w.strat.jobs.latest = some job →
      env.coin.chain = .zcash → zcashJobOf env s job ≠ none) :
    Tells env s w o.session w' := by
  obtain ⟨ua, hua⟩ := @withUserAgent_eq s msg
  unfold handleSubscribe at run
  dsimp only at run
  rw [hua] at run
  split at run
  · refine tells_of_walk ?_ run
    exact walk_ask (off_send rfl) fun _ => walk_done ⟨⟨rfl, rfl, rfl, rfl, rfl, fun _ => rfl⟩, rfl⟩
  · obtain ⟨_, w₁, hs, run⟩ := run.perform_inv
    have hjobs := jobs_offWork hs trivial
    refine (tells_call hs (off_send rfl)).trans ?_
    have hready : Ready (subscribe env { s with userAgent := ua }) ↔
        true = true ∧ s.authorized = true := ready_v1 hv
    have advertised {o₁ : Outcome} {w₂ : World} (run : desk.Exec (sendSetDifficulty env
        (subscribe env { s with userAgent := ua }) s.vardiff.current) w₁ o₁ w₂) :
        Tells env s w₁ o₁.session w₂ := by
      refine tells_ready (s := s) (t := subscribe env { s with userAgent := ua }) rfl
        (fun hr => ?_) id
        (walk_sendSetDifficulty fun _ => Nat.one_pos) run fun _ hr job hjob => ?_
      · exact hready.mpr ⟨rfl, ((ready_v1 hv).mp hr).2⟩
      · have hauth : s.authorized = true := (hready.mp hr).2
        exact told_sendSetDifficulty run hauth hjob (hmake hauth job (hjobs ▸ hjob))
    rcases thenDo_inv run with ⟨u, w₂, first, rest⟩ | ⟨u, rfl, first⟩
    · refine (advertised first).trans (tells_of_walk ?_ rest)
      exact walk_bind (all_whenDo (off_ask ⟨rfl, trivial⟩)) fun _ => walk_done (.refl u)
    · exact advertised first

/-- The line asks to subscribe. -/
def subscribes (line : Option Json) : Bool :=
  (line.bind fun msg => (msg.find? "method".toList).bind Json.getString?)
    == some "mining.subscribe".toList

theorem tells_processLine {line : Option Json} (run : desk.Exec (processLine env s line) w o w')
    (hv : s.isV2 = false)
    (hmake : subscribes line = true → s.authorized = true → ∀ job,
      w.strat.jobs.latest = some job → env.coin.chain = .zcash → zcashJobOf env s job ≠ none) :
    Tells env s w o.session w' := by
  unfold processLine at run
  cases line with
  | none => exact tells_of_walk (walk_send rfl) run
  | some msg =>
    dsimp only at run
    cases hm : (msg.find? "method".toList).bind Json.getString? with
    | none =>
      rw [hm] at run
      exact tells_of_walk (walk_send rfl) run
    | some method =>
      rw [hm] at run
      obtain ⟨o₁, w₁, first, rest⟩ := run.bind_inv
      have hfirst : Tells env s w o₁.session w₁ := by
        by_cases hsub : method = "mining.subscribe".toList
        · subst hsub
          refine tells_handleSubscribe first hv (hmake ?_)
          unfold subscribes
          rw [Option.bind_some, hm]
          rfl
        · exact tells_of_walk (walk_dispatch hm hsub fun _ => Nat.one_pos) first
      refine hfirst.trans ?_
      cases o₁ with
      | done t =>
        obtain ⟨rfl, rfl⟩ := rest.ret_inv
        exact tells_of_walk (walk_done (.refl t)) (.ret _ _)
      | threw t => exact tells_of_walk (walk_send rfl) rest

theorem tells_proceedAuth (run : desk.Exec (proceedAuth env s req) w o w') (hv : s.isV2 = false)
    (hmake : ∀ job, w.strat.jobs.latest = some job → env.coin.chain = .zcash →
      zcashJobOf env (withPayout env s req) job ≠ none) : Tells env s w o.session w' := by
  have hpayout : Tells env s w (withPayout env s req) w :=
    tells_fields rfl ((ready_v1 (s := withPayout env s req) hv).trans (ready_v1 hv).symm) id
  refine hpayout.trans ?_
  unfold proceedAuth at run
  rcases thenDo_inv run with ⟨t, w₁, first, rest⟩ | ⟨t, rfl, first⟩
  · have hfirst := tells_of_walk (walk_advertise fun _ _ => Nat.one_pos) first
    have hstand : standing t = standing (withPayout env s req) :=
      first.yields _ stays_advertise.session
    have hscript := congrArg Session.workerScriptHex hstand
    have hv2 := congrArg Session.isV2 hstand
    replace hv2 : t.isV2 = false := hv2.trans hv
    refine hfirst.trans ?_
    unfold finishAuth at rest
    obtain ⟨_, w₂, hreply, rest⟩ := rest.perform_inv
    obtain ⟨minerId, w₃, hrow, rest⟩ := rest.perform_inv
    have hcalls : Tells env t w₁ t w₃ :=
      (tells_call hreply (off_send rfl)).trans (tells_call hrow ⟨rfl, trivial⟩)
    refine hcalls.trans (tells_ready (s := t) (t := asRow t minerId) rfl (fun hr => ?_) id
      (walk_emitLatest Nat.one_pos) rest fun _ _ job hjob => told_emitLatest rest hjob fun hchain => ?_)
    · exact (ready_v1 (s := asRow t minerId) hv2).mpr ⟨((ready_v1 hv2).mp hr).1, rfl⟩
    · have hsame : zcashJobOf env (asRow t minerId) job =
          zcashJobOf env (withPayout env s req) job := zcashJobOf_congr hscript
      rw [hcalls.jobs, hfirst.jobs] at hjob
      exact fun hnone => hmake job hjob hchain (hsame.symm.trans hnone)
  · exact tells_of_walk (walk_advertise fun _ _ => Nat.one_pos) first

theorem tells_validated {v : Validation} {error : Option Str} {valid : Bool} (R : Set ℚ)
    (run : desk.Exec (Task.prog env s (.validated v error valid)) w o w')
    (hmake : ∀ req, completes env s (.task (.validated v error valid) R) = some req →
      s.isV2 = false ∧ ∀ job, w.strat.jobs.latest = some job → env.coin.chain = .zcash →
        zcashJobOf env (withPayout env s req) job ≠ none) : Tells env s w o.session w' := by
  rcases validated_cases (R := R) run with hpath | ⟨req, t, hc, htidy, run⟩
  · exact tells_of_path hpath
  · obtain ⟨hv, hmakes⟩ := hmake req hc
    have hfields : Path env 0 ⟨s, w⟩ ⟨t, w⟩ := .fields htidy .stay
    exact (tells_of_path hfields).trans (tells_proceedAuth run (htidy.isV2.trans hv) hmakes)

end V1

/-! ## V2 -/

section V2

variable {env : Env} {s t : Session} {w w' : World} {o : Outcome} {job : MiningJob}

theorem ready_v2 (hv : s.isV2 = true) : Ready s ↔ s.sv2ChannelId ≠ 0 := by
  unfold Ready
  rw [if_pos hv]

theorem told_emitLatestV2 (run : desk.Exec (emitLatestV2 env s) w o w')
    (hjob : w.strat.jobs.latest = some job) (hopen : s.closed = false)
    (hmake : workFor env s job ≠ none) : Told env job w w' := by
  obtain ⟨latest, w₁, hs, run⟩ := run.perform_inv
  obtain ⟨hl, _⟩ := hs.strat
  obtain rfl : latest = some job := hl.trans hjob
  obtain ⟨_, _, _, _, htold⟩ := emitJobV2_sends run
  exact Told.after ⟨[_], hs.log⟩ (htold hopen hmake)

/-- The end of an open makes the session ready, and sends the latest job. -/
theorem tells_finishOpen (run : desk.Exec (finishOpen env t) w o w') (hv : t.isV2 = s.isV2)
    (hvt : t.isV2 = true) (hchannel : t.sv2ChannelId ≠ 0)
    (hc : s.closed = true → t.closed = true)
    (hmake : ∀ job, w.strat.jobs.latest = some job → workFor env t job ≠ none) :
    Tells env s w o.session w' := by
  have hwalk : Walk env w.readings 1 t (finishOpen env t) := by
    refine walk_ask ⟨rfl, trivial⟩ fun minerId => ?_
    refine Walk.trans (t := t.withMinerId minerId) ?_ ⟨⟨rfl, rfl, rfl, rfl, rfl, id⟩, rfl⟩
    refine walk_thenDo (walk_emitLatestV2 Nat.one_pos) fun u => ?_
    exact walk_ask ⟨rfl, trivial⟩ fun _ => walk_done (.refl u)
  refine tells_ready hv (fun _ => (ready_v2 hvt).mpr hchannel) hc hwalk run ?_
  intro hopen _ job hjob
  obtain ⟨minerId, w₁, hrow, run⟩ := run.perform_inv
  have hjob₁ : w₁.strat.jobs.latest = some job := by
    rw [jobs_offWork hrow trivial]
    exact hjob
  have sent {o₁ : Outcome} {w₂ : World}
      (run : desk.Exec (emitLatestV2 env (t.withMinerId minerId)) w₁ o₁ w₂) : Told env job w w₂ :=
    (told_emitLatestV2 run hjob₁ hopen (hmake job hjob)).after ⟨[_], hrow.log⟩
  rcases thenDo_inv run with ⟨u, w₂, first, rest⟩ | ⟨u, _, first⟩
  · exact (sent first).before (log_of_run rest)
  · exact sent first

theorem channelIdOf_ne_zero (r : Nat) : channelIdOf r ≠ 0 := by
  have hlt : 1000 + r % 10000 < 2 ^ 32 := by omega
  intro h
  have hv := congrArg UInt32.toNat h
  rw [channelIdOf, UInt32.toNat_ofNat', Nat.mod_eq_of_lt hlt] at hv
  simp at hv

/-- An extended channel is opened with a prefix that can be read. -/
def Prefixed (s : Session) : Request → Prop
  | .openExtendedMiningChannel _ => hexToBytes s.extranonce1 ≠ none
  | _ => True

theorem tells_message {msg : Request} (run : desk.Exec (processMessageV2 env s msg) w o w')
    (hv : s.isV2 = true)
    (hmake : ∀ op, opening env msg = some op → Prefixed s msg ∧
      ∀ job, w.strat.jobs.latest = some job → workFor env (reopened s msg op) job ≠ none) :
    Tells env s w o.session w' := by
  cases hop : opening env msg with
  | none =>
    by_cases hsetup : ∃ protocol, msg = .setupConnection protocol
    · obtain ⟨protocol, rfl⟩ := hsetup
      replace run : desk.Exec (handleSetupConnection s protocol) w o w' := run
      unfold handleSetupConnection at run
      split at run
      · exact tells_of_walk (walk_sendV2 rfl (.refl s)) run
      · obtain ⟨_, w₁, hsend, run⟩ := run.bind_inv
        obtain ⟨rfl, rfl⟩ := run.ret_inv
        refine (tells_off (off_sendV2 rfl) hsend).trans ?_
        have hready : Ready (setUp s) ↔ Ready s :=
          (ready_v2 (s := setUp s) hv).trans (ready_v2 hv).symm
        exact tells_fields rfl hready id
    · exact tells_of_walk (walk_processMessageV2 hop fun p hp => hsetup ⟨p, hp⟩) run
  | some op =>
    obtain ⟨hprefixed, hmakes⟩ := hmake op hop
    have same {u : Session} {job : MiningJob}
        (hscript : u.workerScriptHex = (reopened s msg op).workerScriptHex)
        (hextra : u.extranonce1 = s.extranonce1)
        (hext : u.isExtendedChannel = (reopened s msg op).isExtendedChannel)
        (hjob : w.strat.jobs.latest = some job) : workFor env u job ≠ none := fun hnone =>
      hmakes job hjob (workFor_eq_none (t := u) hscript hextra hext hnone)
    cases msg with
    | openStandardMiningChannel msg =>
      obtain ⟨hd, _, _⟩ := decoded_of_openingFor (s := s) hop
      replace run : desk.Exec (handleOpenStandard env s msg) w o w' := run
      unfold handleOpenStandard at run
      dsimp only at run
      rw [hd] at run
      obtain ⟨r, w₁, hrand, run⟩ := run.perform_inv
      obtain ⟨_, w₂, hsend, run⟩ := run.bind_inv
      have first : Tells env s w s w₂ :=
        (tells_call hrand ⟨rfl, trivial⟩).trans (tells_off (off_sendV2 rfl) hsend)
      refine first.trans (tells_finishOpen run rfl hv (channelIdOf_ne_zero r) id fun job hjob => ?_)
      rw [first.jobs] at hjob
      exact same rfl rfl rfl hjob
    | openExtendedMiningChannel msg =>
      obtain ⟨hd, _, _⟩ := decoded_of_openingFor (s := s) hop
      replace run : desk.Exec (handleOpenExtended env s msg) w o w' := run
      unfold handleOpenExtended at run
      dsimp only at run
      rw [hd] at run
      obtain ⟨r, w₁, hrand, run⟩ := run.perform_inv
      split at run
      · rename_i hnone
        exact absurd hnone hprefixed
      · obtain ⟨_, w₂, hsend, run⟩ := run.bind_inv
        have first : Tells env s w s w₂ :=
          (tells_call hrand ⟨rfl, trivial⟩).trans (tells_off (off_sendV2 rfl) hsend)
        refine first.trans
          (tells_finishOpen run rfl hv (channelIdOf_ne_zero r) id fun job hjob => ?_)
        rw [first.jobs] at hjob
        exact same rfl rfl rfl hjob
    | _ => cases hop

end V2

/-! ## The posted half of a broadcast -/

section Notify

variable {env : Env} {s : Session} {w w' : World} {o : Outcome} {job : MiningJob}

/-- What a broadcast sends: its job, to a session that can be told. -/
theorem notify_sends (run : desk.Exec (notifyNewJob env s job) w o w') :
    Like s o.session ∧ w'.strat.jobs = w.strat.jobs ∧ w'.posted = w.posted ∧
      (∃ evs, w'.log = evs ++ w.log ∧
        ∀ e ∈ evs, sendsWork e.1 = true → Emission env job e.1) ∧
      (s.closed = false → Deliverable env s job → Told env job w w') := by
  have plain (run : desk.Exec (notifyPlain env s job) w o w') :
      Like s o.session ∧ w'.strat.jobs = w.strat.jobs ∧ w'.posted = w.posted ∧
        (∃ evs, w'.log = evs ++ w.log ∧
          ∀ e ∈ evs, sendsWork e.1 = true → Emission env job e.1) ∧
        (s.closed = false → Deliverable env s job → Told env job w w') := by
    unfold notifyPlain at run
    split at run
    · rename_i hv
      obtain ⟨hsession, hjobs, hposted, hlog, htold⟩ := emitJobV2_sends run
      refine ⟨hsession ▸ .refl s, hjobs, hposted, hlog, fun hopen h => htold hopen ?_⟩
      have hmakes := h.plain
      unfold Makes at hmakes
      rw [if_pos hv] at hmakes
      exact hmakes
    · rename_i hv
      obtain ⟨hlike, hjobs, hposted, evs, hlog, hevs, hsent⟩ := emitJob_sends run
      refine ⟨hlike, hjobs, hposted, ⟨evs, hlog, fun e he _ => hevs e he⟩,
        fun _ h => ⟨evs, hlog, hsent ?_⟩⟩
      have hmakes := h.plain
      unfold Makes at hmakes
      rw [if_neg hv] at hmakes
      exact hmakes
  unfold notifyNewJob at run
  split at run
  · rename_i hdropped
    obtain ⟨rfl, rfl⟩ := run.ret_inv
    refine ⟨.refl s, rfl, rfl, ⟨[], rfl, by simp⟩, fun hopen h => ?_⟩
    simp [hopen, h.subscribed] at hdropped
  · split at run
    · rename_i haux
      split at run
      · rename_i hnone
        obtain ⟨rfl, rfl⟩ := run.ret_inv
        exact ⟨.refl s, rfl, rfl, ⟨[], rfl, by simp⟩, fun _ h => absurd hnone (h.aux haux)⟩
      · exact plain run
      · rename_i aux _
        obtain ⟨_, w₁, hs, run⟩ := run.perform_inv
        obtain ⟨rfl, rfl⟩ := run.ret_inv
        have hemit : Emission env job
            (.send (.notify (notifyOf env (withAuxJob s job.jobId aux) job
              (customPrefix job aux) false))) := ⟨_, _, false, rfl, .inr ⟨aux, rfl⟩⟩
        refine ⟨⟨rfl, rfl, rfl, rfl, rfl, id⟩, jobs_offWork hs trivial, posted_offWork hs trivial,
          ⟨[_], hs.log, fun e he _ => ?_⟩, fun _ _ => ⟨[_], hs.log, _, List.mem_cons_self, hemit⟩⟩
        rw [List.mem_singleton.mp he]
        exact hemit
    · exact plain run

end Notify

/-! ## The condition -/

/-- The session a task sends the latest job from, where it may make the session
ready. -/
def sender (env : Env) (s : Session) : Input → Option Session
  | .task (.line line) _ => if subscribes line && s.authorized then some s else none
  | .task (.message msg) _ => (opening env msg).map (reopened s msg)
  | i => (completes env s i).map (withPayout env s)

/-- **The steps that leave no ready session behind.** A broadcast that finds a
session ready gets through to it, and the latest job can be made where a task
sends it. -/
structure Careful (env : Env) (d : DeskState) (i : Input) : Prop where
  notify : i = .notify → d.session.closed = false → Ready d.session →
    ∀ job ∈ d.world.posted.head?, Deliverable env d.session job
  sends : ∀ t, sender env d.session i = some t →
    ∀ job, d.world.strat.jobs.latest = some job → Makes env t job
  prefixed : ∀ msg readings, i = .task (.message msg) readings → opening env msg ≠ none →
    Prefixed d.session msg

theorem tells_task {env : Env} {s : Session} {w w' : World} {t : Task} {readings : Set ℚ}
    {o : Outcome} (offered : Task.Offered ⟨s, w⟩ t) (hv1 : ∀ req error valid,
      t = .validated (.payout req) error valid ∨ t = .validated (.doge req) error valid →
        s.isV2 = false)
    (hok : Careful env ⟨s, w⟩ (.task t readings))
    (run : desk.Exec (t.prog env s) { w with readings } o w') :
    Tells env s { w with readings } o.session w' := by
  have plain {t : Session} (hv : t.isV2 = false) {job : MiningJob} (h : Makes env t job) :
      env.coin.chain = .zcash → zcashJobOf env t job ≠ none := by
    unfold Makes at h
    rw [if_neg (by simp [hv])] at h
    exact h
  cases t with
  | line line =>
    refine tells_processLine run offered fun hsub hauth job hjob => plain offered ?_
    exact hok.sends s (by simp [sender, hsub, hauth]) job hjob
  | message msg =>
    refine tells_message run offered fun op hop => ⟨hok.prefixed msg _ rfl (by simp [hop]), ?_⟩
    intro job hjob
    have h := hok.sends (reopened s msg op) (by simp [sender, hop]) job hjob
    unfold Makes at h
    rw [if_pos (show (reopened s msg op).isV2 = true from offered)] at h
    exact h
  | notify job => exact offered.elim
  | validated v error valid =>
    refine tells_validated readings run fun req hc => ?_
    have hv : s.isV2 = false := by
      cases v with
      | payout req => exact hv1 req error valid (.inl rfl)
      | doge req => exact hv1 req error valid (.inr rfl)
      | payoutV2 addr => cases hc
    refine ⟨hv, fun job hjob => plain (t := withPayout env s req) hv ?_⟩
    exact hok.sends _ (by simp only [sender]; rw [hc]; rfl) job hjob
  | resetShareCounters =>
    refine tells_of_walk ?_ run
    exact walk_done ⟨⟨rfl, rfl, rfl, rfl, rfl, id⟩, rfl⟩
  | disconnect =>
    refine tells_of_walk ?_ run
    exact walk_done ⟨⟨rfl, rfl, rfl, rfl, rfl, fun _ => rfl⟩, rfl⟩

/-! ## Publications and one session -/

/-- A session as the publications find it: the job that is pushed and has not
come to the session yet, and the jobs published since the session was ready. -/
structure Seat where
  desk : DeskState
  due : Option MiningJob := none
  registered : Bool := false
  since : List MiningJob := []

/-- The state with another queue. -/
def withPosted (d : DeskState) (posted : List MiningJob) : DeskState :=
  { d with world := { d.world with posted } }

/-- The session misses what is published. -/
def Watching (s : Session) : Prop := s.closed = false ∧ Ready s

instance (s : Session) : Decidable (Watching s) := inferInstanceAs (Decidable (_ ∧ _))

/-- The job a publication pushes. -/
def Seat.pushes (s : Seat) (env : Env) (gbt : Json) (jobId : Str) : Option MiningJob :=
  ({ s.desk.world with nextId := jobId } : World).jobOf env gbt

/-- Tasks run once the session is registered; work comes by publications. -/
def OnStrand (registered : Bool) : Input → Prop
  | .task .. | .notify => registered = true
  | .others .. => True
  | .work .. => False

/-- What can happen next. Publications come one after the other: a job is
pushed, and posted to the session or not where the session is not registered or
has closed. -/
inductive SeatStep (env : Env) (ok : DeskState → Input → Prop) : Seat → Seat → Prop where
  | publish {s : Seat} {d : DeskState} {gbt : Json} {jobId : Str} (idle : s.due = none)
      (hs : Step env s.desk (.work gbt jobId) d) :
      SeatStep env ok s
        { s with
          desk := withPosted d s.desk.world.posted
          due := s.pushes env gbt jobId
          since :=
            if Watching s.desk.session then (s.pushes env gbt jobId).toList ++ s.since
            else s.since }
  | visit {s : Seat} {job : MiningJob} (due : s.due = some job) (there : s.registered = true) :
      SeatStep env ok s
        { s with desk := withPosted s.desk (s.desk.world.posted ++ [job]), due := none }
  | pass {s : Seat} (gone : s.registered = false ∨ s.desk.session.closed = true) :
      SeatStep env ok s { s with due := none }
  | register {s : Seat} : SeatStep env ok s { s with registered := true }
  | turn {s : Seat} {i : Input} {d : DeskState} (on : OnStrand s.registered i)
      (hok : ok s.desk i) (hs : Step env s.desk i d) : SeatStep env ok s { s with desk := d }

/-- The seats of a run all of whose turns meet a condition. -/
inductive SeatReach (env : Env) (isV2 : Bool) (ok : DeskState → Input → Prop) : Seat → Prop where
  | init {d : DeskState} (h : Initial env isV2 d) : SeatReach env isV2 ok { desk := d }
  | step {s s' : Seat} (h : SeatReach env isV2 ok s) (hs : SeatStep env ok s s') :
      SeatReach env isV2 ok s'

/-- The job was sent. -/
def Sent (env : Env) (job : MiningJob) (w : World) : Prop := ∃ e ∈ w.log, Emission env job e.1

/-- The job is the last one that was sent. -/
def LastSent (env : Env) (job : MiningJob) (w : World) : Prop :=
  ∃ e, w.log.find? (fun e => sendsWork e.1) = some e ∧ Emission env job e.1

/-- A session that waits for no job has got the latest one. -/
structure OnTime (env : Env) (s : Seat) : Prop where
  v2 : s.desk.session.isV2 = true → IsV2 s.desk
  before : s.registered = false → ¬ Ready s.desk.session ∧ s.desk.world.posted = []
  waiting : s.desk.session.closed = false → ∀ job,
    (s.desk.world.posted ++ s.due.toList).getLast? = some job →
      s.desk.world.strat.jobs.latest = some job
  latest : Watching s.desk.session → s.desk.world.posted = [] → s.due = none →
    ∀ job, s.desk.world.strat.jobs.latest = some job → LastSent env job s.desk.world
  ready : s.since ≠ [] → Ready s.desk.session
  since : s.desk.session.closed = false → ∀ job ∈ s.since,
    job ∈ s.desk.world.posted ++ s.due.toList ∨ Sent env job s.desk.world

section Seats

variable {env : Env} {ok : DeskState → Input → Prop} {s s' : Seat} {w w' : World}
  {job : MiningJob} {evs : List Event}

theorem lastSent_append (hlog : w'.log = evs ++ w.log)
    (hevs : ∀ e ∈ evs, sendsWork e.1 = true → Emission env job e.1)
    (h : LastSent env job w ∨ ∃ e ∈ evs, Emission env job e.1) : LastSent env job w' := by
  unfold LastSent
  rw [hlog, List.find?_append]
  cases hf : evs.find? fun e => sendsWork e.1 with
  | some e =>
    have hsends : sendsWork e.1 = true := by simpa using List.find?_some hf
    exact ⟨e, rfl, hevs e (List.mem_of_find?_eq_some hf) hsends⟩
  | none =>
    rcases h with h | ⟨e, he, hemit⟩
    · exact h
    · have hsends := List.find?_eq_none.mp hf e he
      exact absurd hemit.sendsWork hsends

theorem Sent.mono (h : Sent env job w) (hlog : w'.log = evs ++ w.log) : Sent env job w' := by
  obtain ⟨e, he, hemit⟩ := h
  exact ⟨e, by rw [hlog]; exact List.mem_append_right _ he, hemit⟩

theorem sent_of_told (h : Told env job w w') : Sent env job w' := by
  obtain ⟨evs, hlog, e, he, hemit⟩ := h
  exact ⟨e, by rw [hlog]; exact List.mem_append_left _ he, hemit⟩

theorem log_published (w : World) (width32 : Bool) (job : MiningJob) :
    (w.published width32 job).log = workEvents width32 job.cleanJobs job ++ w.log := rfl

theorem latest_push {jobs : JobWindow} {id : Str} : (jobs.push id job).latest = some job := by
  unfold JobWindow.latest JobWindow.push
  dsimp only
  rw [List.getLast?_append]
  rfl

theorem OnTime.publish {d : DeskState} {gbt : Json} {jobId : Str} (h : OnTime env s)
    (idle : s.due = none) (hs : Step env s.desk (.work gbt jobId) d) :
    OnTime env
      { s with
        desk := withPosted d s.desk.world.posted
        due := s.pushes env gbt jobId
        since :=
          if Watching s.desk.session then (s.pushes env gbt jobId).toList ++ s.since
          else s.since } := by
  obtain ⟨⟨session, w⟩, due, registered, since⟩ := s
  obtain rfl : due = none := idle
  have hv2 (hv : session.isV2 = true) := ((h.v2 hv).step hs).1
  have hready {jobs : List MiningJob}
      (hne : (if Watching session then jobs ++ since else since) ≠ []) : Ready session := by
    split at hne
    · rename_i hwatch
      exact hwatch.2
    · exact h.ready hne
  cases hs with
  | work run =>
    rcases work_cases run with ⟨hnone, rfl⟩ | ⟨job, hjob, rfl⟩
    · have hpush : Seat.pushes ⟨⟨session, w⟩, none, registered, since⟩ env gbt jobId = none := hnone
      simp only [hpush, Option.toList_none, List.nil_append, ite_self]
      exact ⟨fun hv => ⟨(hv2 hv).v2, (hv2 hv).asked⟩, h.before, h.waiting, h.latest, h.ready,
        h.since⟩
    · have hpush : Seat.pushes ⟨⟨session, w⟩, none, registered, since⟩ env gbt jobId = some job :=
        hjob
      simp only [hpush, Option.toList_some]
      refine ⟨fun hv => ⟨(hv2 hv).v2, (hv2 hv).asked⟩, h.before, fun _ last hlast => ?_,
        fun _ _ hdue => ?_, hready, fun hopen j hj => ?_⟩
      · rw [List.getLast?_append] at hlast
        cases hlast
        exact latest_push
      · cases hdue
      · have hold (hj : j ∈ since) : j ∈ w.posted ++ [job] ∨
            Sent env j (w.published (env.coin.chain = .zcash) job) := by
          rcases h.since hopen j hj with hj | hsent
          · exact .inl (List.mem_append_left _ (by simpa using hj))
          · exact .inr (hsent.mono (log_published w _ job))
        replace hj : j ∈ if Watching session then [job] ++ since else since := hj
        split at hj
        · rcases List.mem_append.mp hj with hj | hj
          · exact .inl (List.mem_append_right _ hj)
          · exact hold hj
        · exact hold hj

theorem OnTime.visit (h : OnTime env s) (due : s.due = some job) (there : s.registered = true) :
    OnTime env
      { s with desk := withPosted s.desk (s.desk.world.posted ++ [job]), due := none } := by
  obtain ⟨⟨session, w⟩, due', registered, since⟩ := s
  obtain rfl : due' = some job := due
  obtain rfl : registered = true := there
  refine ⟨fun hv => ⟨(h.v2 hv).v2, (h.v2 hv).asked⟩, fun hr => ?_, fun hopen last hlast =>
    h.waiting hopen last ?_, fun _ hposted => ?_, h.ready, fun hopen j hj => ?_⟩
  · cases hr
  · simpa [withPosted] using hlast
  · exact absurd hposted (by simp [withPosted])
  · rcases h.since hopen j hj with hj | hsent
    · exact .inl (by simpa [withPosted] using hj)
    · exact .inr hsent

theorem OnTime.pass (h : OnTime env s)
    (gone : s.registered = false ∨ s.desk.session.closed = true) :
    OnTime env { s with due := none } := by
  obtain ⟨⟨session, w⟩, due, registered, since⟩ := s
  rcases gone with hr | hclosed
  · obtain rfl : registered = false := hr
    obtain ⟨hready, hposted⟩ := h.before rfl
    refine ⟨h.v2, h.before, fun _ last hlast => ?_, fun hwatch => absurd hwatch.2 hready, h.ready,
      fun _ j hj => absurd (h.ready (List.ne_nil_of_mem hj)) hready⟩
    rw [show w.posted = [] from hposted] at hlast
    cases hlast
  · have closed {α : Prop} (hopen : session.closed = false) : α := by
      rw [show session.closed = true from hclosed] at hopen
      cases hopen
    exact ⟨h.v2, h.before, fun hopen => closed hopen, fun hwatch => closed hwatch.1, h.ready,
      fun hopen => closed hopen⟩

/-- A turn keeps the seat on time, where its broadcasts and its sends get
through. -/
theorem OnTime.turn {i : Input} {d : DeskState} (h : OnTime env s)
    (on : OnStrand s.registered i) (hok : Careful env s.desk i) (hs : Step env s.desk i d) :
    OnTime env { s with desk := d } := by
  obtain ⟨⟨session, w⟩, due, registered, since⟩ := s
  have hv2 (hv : session.isV2 = true) := ((h.v2 hv).step hs).1
  cases hs with
  | @task _ _ w' t readings o offered run =>
    obtain rfl : registered = true := on
    have hv1 (req : AuthRequest) (error : Option Str) (valid : Bool)
        (ht : t = .validated (.payout req) error valid ∨ t = .validated (.doge req) error valid) :
        session.isV2 = false := by
      cases hv : session.isV2 with
      | false => rfl
      | true =>
        rcases ht with rfl | rfl
        · exact ((h.v2 hv).asked _ offered).elim
        · exact ((h.v2 hv).asked _ offered).elim
    have htells := tells_task offered hv1 hok run
    obtain ⟨evs, hlog, hevs⟩ := htells.log
    have hopen (ho : o.session.closed = false) : session.closed = false :=
      open_of_open htells.closed ho
    have hjobs : w'.strat.jobs = w.strat.jobs := htells.jobs
    have hposted : w'.posted = w.posted := htells.posted
    refine ⟨fun hv => hv2 (htells.isV2.symm.trans hv), fun hr => ?_, fun ho last hlast => ?_,
      fun hwatch hnil hdue last hlast => ?_, fun hne => htells.ready (h.ready hne),
      fun ho j hj => ?_⟩
    · cases hr
    · show w'.strat.jobs.latest = some last
      rw [hjobs]
      refine h.waiting (hopen ho) last ?_
      show (w.posted ++ due.toList).getLast? = some last
      rw [← hposted]
      exact hlast
    · replace hlast : w'.strat.jobs.latest = some last := hlast
      rw [hjobs] at hlast
      have honly : ∀ e ∈ evs, sendsWork e.1 = true → Emission env last e.1 := by
        intro e he hsends
        obtain ⟨job, hjob, hemit⟩ := hevs e he hsends
        obtain rfl : job = last := Option.some.inj (hjob.symm.trans hlast)
        exact hemit
      refine lastSent_append hlog honly ?_
      rcases htells.told hwatch.1 hwatch.2 with hready | htold
      · exact .inl (h.latest ⟨hopen hwatch.1, hready⟩ (hposted.symm.trans hnil) hdue last hlast)
      · obtain ⟨evs', hlog', hemit⟩ := htold last hlast
        obtain rfl : evs = evs' := List.append_cancel_right (hlog.symm.trans hlog')
        exact .inr hemit
    · rcases h.since (hopen ho) j hj with hj | hsent
      · exact .inl (hposted ▸ hj)
      · exact .inr (hsent.mono hlog)
  | @notify _ _ w' job rest o head run =>
    obtain rfl : registered = true := on
    obtain ⟨hlike, hjobs, hposted, ⟨evs, hlog, hevs⟩, htold⟩ := notify_sends run
    replace head : w.posted = job :: rest := head
    replace hjobs : w'.strat.jobs = w.strat.jobs := hjobs
    replace hposted : w'.posted = rest := hposted
    have hopen (ho : o.session.closed = false) : session.closed = false :=
      open_of_open hlike.closed ho
    have told (ho : o.session.closed = false) (hready : Ready session) : Told env job w w' :=
      htold (hopen ho) (hok.notify rfl (hopen ho) hready job (by simp [head]))
    refine ⟨fun hv => hv2 (hlike.isV2.symm.trans hv), fun hr => ?_, fun ho last hlast => ?_,
      fun hwatch hnil hdue last hlast => ?_, fun hne => (ready_of_like hlike).mpr (h.ready hne),
      fun ho j hj => ?_⟩
    · cases hr
    · replace hlast : (w'.posted ++ due.toList).getLast? = some last := hlast
      show w'.strat.jobs.latest = some last
      rw [hjobs]
      refine h.waiting (hopen ho) last ?_
      show (w.posted ++ due.toList).getLast? = some last
      rw [hposted] at hlast
      rw [head, List.cons_append, List.getLast?_cons, hlast]
      rfl
    · replace hnil : w'.posted = [] := hnil
      obtain rfl : due = none := hdue
      replace hlast : w'.strat.jobs.latest = some last := hlast
      have hhead : w.strat.jobs.latest = some job := by
        refine h.waiting (hopen hwatch.1) job ?_
        show (w.posted ++ []).getLast? = some job
        rw [head, ← hposted, hnil]
        rfl
      rw [hjobs, hhead] at hlast
      cases hlast
      obtain ⟨evs', hlog', hemit⟩ := told hwatch.1 ((ready_of_like hlike).mp hwatch.2)
      obtain rfl : evs = evs' := List.append_cancel_right (hlog.symm.trans hlog')
      exact lastSent_append hlog hevs (.inr hemit)
    · rcases h.since (hopen ho) j hj with hj' | hsent
      · replace hj' : j ∈ w.posted ++ due.toList := hj'
        rw [head, List.cons_append] at hj'
        rcases List.mem_cons.mp hj' with rfl | hj'
        · exact .inr (sent_of_told (told ho (h.ready (List.ne_nil_of_mem hj))))
        · exact .inl (hposted ▸ hj')
      · exact .inr (hsent.mono hlog)
  | work run => exact on.elim
  | others => exact ⟨hv2, h.before, h.waiting, h.latest, h.ready, h.since⟩

theorem onTime_initial {isV2 : Bool} {d : DeskState} (h : Initial env isV2 d) :
    OnTime env { desk := d } := by
  obtain ⟨extranonce1, sessionId, now, rfl⟩ := h
  have hready : ¬ Ready (Session.new env extranonce1 sessionId now isV2) := by
    cases isV2 with
    | true => exact fun h => (ready_v2 rfl).mp h rfl
    | false => exact fun h => by cases ((ready_v1 rfl).mp h).1
  refine ⟨fun hv => ⟨hv, fun v hm => ?_⟩, fun _ => ⟨hready, rfl⟩, fun _ _ hlast => ?_,
    fun hwatch => absurd hwatch.2 hready, fun hne => absurd rfl hne, fun _ j hj => ?_⟩
  · cases hm
  · cases hlast
  · cases hj

theorem OnTime.step (h : OnTime env s) (hs : SeatStep env (Careful env) s s') : OnTime env s' := by
  cases hs with
  | publish idle hs => exact h.publish idle hs
  | visit due there => exact h.visit due there
  | pass gone => exact h.pass gone
  | register =>
    exact ⟨h.v2, fun hr => (by cases hr), h.waiting, h.latest, h.ready, h.since⟩
  | turn on hok hs => exact h.turn on hok hs

/-- **No ready session is left on an old job.** In every run of careful turns,
once no publication and no posted job is outstanding, the job sent last is the
latest of the window, and every job published since the session was ready has
been sent. -/
theorem ready_session_follows (env : Env) (isV2 : Bool) (s : Seat)
    (h : SeatReach env isV2 (Careful env) s) (hopen : s.desk.session.closed = false)
    (hready : Ready s.desk.session) (hdue : s.due = none) (hposted : s.desk.world.posted = []) :
    (∀ job, s.desk.world.strat.jobs.latest = some job → LastSent env job s.desk.world) ∧
      ∀ job ∈ s.since, Sent env job s.desk.world := by
  have honTime : OnTime env s := by
    clear hopen hready hdue hposted
    induction h with
    | init h => exact onTime_initial h
    | step _ hs ih => exact ih.step hs
  refine ⟨honTime.latest ⟨hopen, hready⟩ hposted hdue, fun job hj => ?_⟩
  rcases honTime.since hopen job hj with hwait | hsent
  · rw [hposted, hdue] at hwait
    cases hwait
  · exact hsent

end Seats

/-! ## Two runs -/

/-- What happens at a seat next. -/
inductive Turn where
  | publish (gbt : Json) (jobId : Str)
  | visit
  | register
  | move (m : Move)

/-- The seat after a turn, where the check allows it. -/
def Turn.perform (env : Env) (check : DeskState → Move → Bool) (s : Seat) : Turn → Option Seat
  | .publish gbt jobId =>
    if s.due.isNone then
      (Play.perform env usual s.desk (.work gbt jobId)).map fun d =>
        { s with
          desk := withPosted d s.desk.world.posted
          due := s.pushes env gbt jobId
          since :=
            if Watching s.desk.session then (s.pushes env gbt jobId).toList ++ s.since
            else s.since }
    else none
  | .visit =>
    if s.registered then
      s.due.map fun job =>
        { s with desk := withPosted s.desk (s.desk.world.posted ++ [job]), due := none }
    else none
  | .register => some { s with registered := true }
  | .move m =>
    if s.registered && check s.desk m then
      match m with
      | .work .. => none
      | m => (m.input usual s.desk).bind fun i =>
          (Play.perform env usual s.desk i).map fun d => { s with desk := d }
    else none

section Played

variable {env : Env} {isV2 : Bool} {ok : DeskState → Input → Prop}
  {check : DeskState → Move → Bool} {s s' : Seat}

theorem seatStep_of_perform
    (hcheck : ∀ d m i, check d m = true → m.input usual d = some i → ok d i) {t : Turn}
    (h : t.perform env check s = some s') : SeatStep env ok s s' := by
  cases t with
  | publish gbt jobId =>
    simp only [Turn.perform] at h
    split at h
    · rename_i idle
      obtain ⟨d, hd, rfl⟩ := Option.map_eq_some_iff.mp h
      exact .publish (by simpa using idle) (step_of_perform (m := .work gbt jobId) rfl hd)
    · cases h
  | visit =>
    simp only [Turn.perform] at h
    split at h
    · rename_i there
      obtain ⟨job, due, rfl⟩ := Option.map_eq_some_iff.mp h
      exact .visit due there
    · cases h
  | register =>
    cases h
    exact .register
  | move m =>
    simp only [Turn.perform] at h
    split at h
    · rename_i hallowed
      rw [Bool.and_eq_true] at hallowed
      split at h
      · cases h
      · rename_i hwork
        obtain ⟨i, hi, h⟩ := Option.bind_eq_some_iff.mp h
        obtain ⟨d, hd, rfl⟩ := Option.map_eq_some_iff.mp h
        refine .turn ?_ (hcheck _ _ _ hallowed.2 hi) (step_of_perform hi hd)
        cases i with
        | task | notify => exact hallowed.1
        | work gbt jobId => exact hwork gbt jobId (Move.eq_work hi)
        | others => cases hd
    · cases h

theorem seatReach_of_play
    (hcheck : ∀ d m i, check d m = true → m.input usual d = some i → ok d i)
    {turns : List Turn} (hs : SeatReach env isV2 ok s)
    (h : turns.foldlM (Turn.perform env check) s = some s') : SeatReach env isV2 ok s' := by
  induction turns generalizing s with
  | nil =>
    cases h
    exact hs
  | cons t turns ih =>
    rw [List.foldlM_cons] at h
    obtain ⟨s₁, h₁, h⟩ := Option.bind_eq_some_iff.mp h
    exact ih (.step hs (seatStep_of_perform hcheck h₁)) h

end Played

/-- A job is published, and the session told. -/
def broadcastOnce : List Turn :=
  [.publish (sampleTemplate 'a' 'b') firstId, .visit, .move .notify]

/-- A session is registered, and some moves are made. -/
def seated (moves : List (Replies × Move)) : List Turn :=
  .register :: moves.map fun rm => .move rm.2

/-- The session is of V1, and a broadcast gets through to it. -/
def plainTurn (d : DeskState) : Move → Bool
  | .notify => d.session.subscribed && !d.session.isV2 && d.world.posted.head?.all fun job =>
      !(job.auxEnabled && !d.session.auxDogeAddress.isEmpty && sampleEnv.hasAux) ||
        (buildSessionAux sampleEnv d.session.dogeScriptHex job).isSome
  | _ => !d.session.isV2

theorem careful_plainTurn {d : DeskState} {m : Move} {i : Input} (hc : plainTurn d m = true)
    (hi : m.input usual d = some i) : Careful sampleEnv d i := by
  have makes {t : Session} {job : MiningJob} (hv : t.isV2 = false) : Makes sampleEnv t job := by
    unfold Makes
    rw [if_neg (by simp [hv])]
    exact fun hchain => by cases hchain
  have hv : d.session.isV2 = false := by
    unfold plainTurn at hc
    split at hc
    · simp only [Bool.and_eq_true, Bool.not_eq_true'] at hc
      exact hc.1.2
    · simpa using hc
  have senders {t : Session} (h : sender sampleEnv d.session i = some t) : t.isV2 = false := by
    unfold sender at h
    split at h
    · split at h
      · cases h
        exact hv
      · cases h
    · obtain ⟨op, _, rfl⟩ := Option.map_eq_some_iff.mp h
      exact hv
    · obtain ⟨req, _, rfl⟩ := Option.map_eq_some_iff.mp h
      exact hv
  refine ⟨?_, fun t ht job _ => makes (senders ht), ?_⟩
  · rintro rfl _ _ job hjob
    cases m with
    | notify =>
      simp only [plainTurn, Bool.and_eq_true, Option.all_eq_true, Bool.or_eq_true,
        Bool.not_eq_true', Option.isSome_iff_ne_none] at hc
      refine ⟨hc.1.1, makes hv, fun haux => (hc.2 job hjob).resolve_left ?_⟩
      rw [haux]
      simp
    | line msg =>
      simp only [Move.input] at hi
      split at hi <;> cases hi
    | message msg =>
      simp only [Move.input] at hi
      split at hi <;> cases hi
    | validated error valid =>
      obtain ⟨_, _, he⟩ := Option.map_eq_some_iff.mp hi
      cases he
    | work => cases hi
  · rintro msg readings rfl _
    cases m with
    | line msg =>
      simp only [Move.input] at hi
      split at hi <;> cases hi
    | message msg =>
      rw [Move.input, if_neg (by simp [hv])] at hi
      cases hi
    | validated error valid =>
      obtain ⟨_, _, he⟩ := Option.map_eq_some_iff.mp hi
      cases he
    | notify | work => cases hi

/-- A job is published to a miner that has joined, and sent. -/
theorem ready_session_follows_once :
    ∃ s : Seat, Ready s.desk.session ∧ s.since ≠ [] ∧
      (∀ job, s.desk.world.strat.jobs.latest = some job →
        LastSent sampleEnv job s.desk.world) ∧
      ∀ job ∈ s.since, Sent sampleEnv job s.desk.world := by
  have h : ((seated minerJoins ++ broadcastOnce).foldlM (Turn.perform sampleEnv plainTurn)
      { desk := start sampleEnv false }).any (fun s =>
        !s.desk.session.closed && decide (Ready s.desk.session) && s.due.isNone &&
          s.desk.world.posted.isEmpty && !s.since.isEmpty) = true := by
    decide +kernel
  obtain ⟨s, hs, hx⟩ := (Option.any_eq_true _ _).mp h
  have hreach : SeatReach sampleEnv false (Careful sampleEnv) s :=
    seatReach_of_play (fun _ _ _ => careful_plainTurn) (.init ⟨_, _, _, rfl⟩) hs
  simp only [Bool.and_eq_true, Bool.not_eq_true', decide_eq_true_eq, Option.isNone_iff_eq_none,
    List.isEmpty_iff, List.isEmpty_eq_false_iff] at hx
  obtain ⟨⟨⟨⟨hopen, hready⟩, hdue⟩, hposted⟩, hsince⟩ := hx
  exact ⟨s, hready, hsince,
    ready_session_follows sampleEnv false s hreach hopen hready hdue hposted⟩

/-- The job of a seat without work: published since the opening, and the latest. -/
def heldBack (s : Seat) : Bool :=
  match s.since, s.desk.world.strat.jobs.latest with
  | job :: _, some latest => decide (job = latest)
  | _, _ => false

/-- **A channel that gets no work.** A standard channel is opened without a
setup, and a job that is published then is never sent to it. -/
theorem unset_channel_gets_no_work :
    ∃ env s, SeatReach env true (fun _ _ => True) s ∧ s.desk.session.closed = false ∧
      Ready s.desk.session ∧ s.due = none ∧ s.desk.world.posted = [] ∧
      ∃ job ∈ s.since, s.desk.world.strat.jobs.latest = some job ∧
        ¬ Sent env job s.desk.world := by
  have h : ((seated (channelOpens.drop 1) ++ broadcastOnce).foldlM (Turn.perform sampleEnv anyMove)
      { desk := start sampleEnv true }).any (fun s =>
        (!s.desk.session.closed && decide (Ready s.desk.session) && s.due.isNone &&
          s.desk.world.posted.isEmpty && !s.desk.world.log.any fun e => sendsWork e.1) &&
        heldBack s) = true := by
    decide +kernel
  obtain ⟨s, hs, hx⟩ := (Option.any_eq_true _ _).mp h
  have hreach : SeatReach sampleEnv true (fun _ _ => True) s :=
    seatReach_of_play (fun _ _ _ _ _ => trivial) (.init ⟨_, _, _, rfl⟩) hs
  rw [Bool.and_eq_true] at hx
  obtain ⟨hx, hjob⟩ := hx
  simp only [Bool.and_eq_true, Bool.not_eq_true', decide_eq_true_eq, Option.isNone_iff_eq_none,
    List.isEmpty_iff, List.any_eq_false] at hx
  obtain ⟨⟨⟨⟨hopen, hready⟩, hdue⟩, hposted⟩, hsilent⟩ := hx
  refine ⟨sampleEnv, s, hreach, hopen, hready, hdue, hposted, ?_⟩
  unfold heldBack at hjob
  split at hjob
  · rename_i job _ latest hsince hlatest
    obtain rfl : job = latest := of_decide_eq_true hjob
    refine ⟨job, by rw [hsince]; exact List.mem_cons_self, hlatest, fun hsent => ?_⟩
    obtain ⟨e, he, hemit⟩ := hsent
    exact hsilent e he hemit.sendsWork
  · cases hjob

end MkPool.Broadcast
