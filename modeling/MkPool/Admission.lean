import MkPool.Blacklist
import MkPool.Standing
import MkPool.Channels

/-! # The blacklist and the ways in

Shares are credited to the row that `ensure_miner` gave for an identity. A V1
authorization checks the identity against the blacklist before it asks the node
about the address. The open requests of Stratum V2 do not. -/
namespace MkPool.Admission
open MkPool.Lib.Interaction MkPool.Utils MkPool.Config MkPool.Job MkPool.Coinbase
open MkPool.Stratifier MkPool.Sv2Messages MkPool.Calls MkPool.ClientSession MkPool.JsonValue
open MkPool.Tasks MkPool.Stratum MkPool.Submit MkPool.StratumV2 MkPool.Desk MkPool.DeskWatch
open MkPool.SessionV2 MkPool.Standing MkPool.Blacklist MkPool.Play

/-! ## The row shares are credited to -/

/-- The identity and the row of an event that asks for one. -/
def enrolledIn : Event → Option ((Str × Str) × Int)
  | ⟨.ensureMiner addr worker, minerId⟩ => some ((addr, worker), minerId)
  | _ => none

/-- The last identity that was given a row, with the row. -/
def enrolled (evs : List Event) : Option ((Str × Str) × Int) := evs.findSome? enrolledIn

theorem enrolled_append (a b : List Event) : enrolled (a ++ b) = (enrolled a).or (enrolled b) :=
  List.findSome?_append

/-- A call that asks for no row. -/
def NoRow : Call → Prop
  | .ensureMiner .. => False
  | _ => True

theorem enrolled_noRow {evs : List Event} (h : ∀ e ∈ evs, NoRow e.1) : enrolled evs = none := by
  refine List.findSome?_eq_none_iff.mpr fun e he => ?_
  have hc := h e he
  obtain ⟨c, x⟩ := e
  cases c <;> first | exact hc.elim | rfl

theorem noRow_of_publishes {c : Call} (h : Publishes c) : NoRow c := by
  cases c <;> first | exact h.elim | trivial

theorem noRow_of_common {c : Call} (h : Common c) : NoRow c := by
  cases c <;> first | exact h.elim | trivial

/-- Every run of the program leaves the row of the session, or gets it the one
of an identity. -/
def Enrolls (s : Session) (who : Str × Str) (p : Act Outcome) : Prop :=
  ∀ w o w', desk.Exec p w o w' → ∃ evs, w'.log = evs ++ w.log ∧
    (enrolled evs = none ∧ o.session.minerId = s.minerId ∨
      enrolled evs = some (who, o.session.minerId))

/-- The program asks for no row and keeps the session's. -/
abbrev KeepsRow (s : Session) (p : Act Outcome) : Prop := Leaves NoRow (·.minerId) s p

section Rules

variable {env : Env} {s t : Session} {who : Str × Str} {α : Type}

theorem minerId_of_standing {a b : Session} (h : standing a = standing b) :
    a.minerId = b.minerId := by
  have hid := congrArg Session.minerId h
  exact hid

theorem keepsRow_of_stays {p : Act Outcome} (h : Stays s p) : KeepsRow s p :=
  h.weaken (fun _ => noRow_of_common) fun _ _ => minerId_of_standing

theorem enrolls_of_keepsRow {p : Act Outcome} (h : KeepsRow s p) : Enrolls s who p := by
  intro w o w' run
  obtain ⟨evs, hlog, hevs⟩ := exec_log run h.calls
  exact ⟨evs, hlog, .inl ⟨enrolled_noRow hevs, run.yields _ h.session⟩⟩

theorem enrolls_bind {p : Act α} {k : α → Act Outcome} (hp : p.All NoRow)
    (hk : ∀ a, Enrolls s who (k a)) : Enrolls s who (p >>= k) := by
  intro w o w' run
  obtain ⟨a, w₁, first, rest⟩ := run.bind_inv
  obtain ⟨evs₁, hlog₁, hevs₁⟩ := exec_log first hp
  obtain ⟨evs₂, hlog₂, h⟩ := hk a _ _ _ rest
  refine ⟨evs₂ ++ evs₁, by rw [hlog₂, hlog₁, List.append_assoc], ?_⟩
  rw [enrolled_append, enrolled_noRow hevs₁, Option.or_none]
  exact h

theorem enrolls_ask {c : Call} {k : Answer c → Act Outcome} (hc : NoRow c)
    (hk : ∀ x, Enrolls s who (k x)) : Enrolls s who (ask c >>= k) :=
  enrolls_bind (Prog.all_perform hc) hk

/-- The row is asked for, and the session takes it. -/
theorem enrolls_ensure {addr worker : Str} (next : Int → Session) {k : Int → Act Outcome}
    (hnext : ∀ minerId, (next minerId).minerId = minerId)
    (hk : ∀ minerId, KeepsRow (next minerId) (k minerId)) :
    Enrolls s (addr, worker) (ask (.ensureMiner addr worker) >>= k) := by
  intro w o w' run
  obtain ⟨minerId, w₁, hs, rest⟩ := run.perform_inv
  obtain ⟨evs, hlog, hevs⟩ := exec_log rest (hk minerId).calls
  have hid : o.session.minerId = minerId :=
    (rest.yields _ (hk minerId).session).trans (hnext minerId)
  refine ⟨evs ++ [⟨.ensureMiner addr worker, minerId⟩], ?_, .inr ?_⟩
  · rw [hlog, hs.log, List.append_assoc]
    rfl
  · rw [enrolled_append, enrolled_noRow hevs, hid]
    rfl

theorem enrolls_thenDo {p : Act Outcome} {f : Session → Act Outcome} (hp : Stays s p)
    (hf : ∀ t, standing t = standing s → Enrolls t who (f t)) : Enrolls s who (thenDo p f) := by
  intro w o w' run
  rcases thenDo_inv run with ⟨t, w₁, first, rest⟩ | ⟨t, rfl, first⟩
  · obtain ⟨evs₁, hlog₁, hevs₁⟩ := exec_log first hp.calls
    have hstand : standing t = standing s := first.yields _ hp.session
    obtain ⟨evs₂, hlog₂, h⟩ := hf t hstand _ _ _ rest
    refine ⟨evs₂ ++ evs₁, by rw [hlog₂, hlog₁, List.append_assoc], ?_⟩
    rw [enrolled_append, enrolled_noRow fun e he => noRow_of_common (hevs₁ e he), Option.or_none,
      ← minerId_of_standing hstand]
    exact h
  · exact enrolls_of_keepsRow (keepsRow_of_stays hp) _ _ _ first

theorem Enrolls.start {p : Act Outcome} (h : Enrolls t who p) (hid : t.minerId = s.minerId) :
    Enrolls s who p := by
  intro w o w' run
  obtain ⟨evs, hlog, h⟩ := h _ _ _ run
  exact ⟨evs, hlog, h.imp_left fun h => ⟨h.1, h.2.trans hid⟩⟩

end Rules

/-! ## The tasks -/

section Tasks

variable {env : Env} {s t : Session}

theorem enrolls_finishAuth {addr worker idJson : Str} (haddr : s.workerAddress = addr)
    (hworker : s.workerName = worker) : Enrolls s (addr, worker) (finishAuth env s idJson) := by
  subst haddr hworker
  refine enrolls_ask trivial fun _ => ?_
  refine enrolls_ensure (fun minerId => { s with minerId := minerId, authorized := true })
    (fun _ => rfl) fun minerId => ?_
  exact keepsRow_of_stays stays_emitLatest

/-- The difficulty of the password is advertised. -/
theorem stays_advertise {req : AuthRequest} :
    Stays (withPayout env s req) (match req.customDiff with
      | some d => sendSetDifficulty env (withCustomDiff (withPayout env s req) d) d
      | none => return Outcome.done (withPayout env s req)) := by
  split
  · exact stays_sendSetDifficulty.trans rfl
  · exact leaves_done rfl

theorem enrolls_proceedAuth {req : AuthRequest} :
    Enrolls s (req.addr, req.worker) (proceedAuth env s req) := by
  refine Enrolls.start (enrolls_thenDo stays_advertise fun t ht => ?_) rfl
  have haddr : t.workerAddress = req.addr := by
    have h := congrArg Session.workerAddress ht
    exact h
  have hworker : t.workerName = req.worker := by
    have h := congrArg Session.workerName ht
    exact h
  exact enrolls_finishAuth haddr hworker

theorem enrolls_validated {v : Validation} {error : Option Str} {valid : Bool} {who : Str × Str}
    (hwho : ∀ req, v = .payout req ∨ v = .doge req → who = (req.addr, req.worker)) :
    Enrolls s who (Task.prog env s (.validated v error valid)) := by
  have still {p : Act Outcome} (h : Stays s p) : Enrolls s who p :=
    enrolls_of_keepsRow (keepsRow_of_stays h)
  have refused (idJson text : Str) : Enrolls s who (do
      ask (.send (.authError idJson text))
      return .done s) := still (leaves_ask trivial fun _ => leaves_done rfl)
  cases v with
  | payout req =>
    obtain rfl := hwho req (.inl rfl)
    show Enrolls s _ (onPayoutValidated env s req error valid)
    unfold onPayoutValidated
    split
    · exact still (leaves_done rfl)
    · split
      · exact refused _ _
      · split
        · exact enrolls_of_keepsRow (leaves_ask trivial fun _ => leaves_done rfl)
        · split
          · split
            · exact enrolls_proceedAuth.start rfl
            · exact enrolls_proceedAuth
          · exact enrolls_proceedAuth
  | doge req =>
    obtain rfl := hwho req (.inr rfl)
    show Enrolls s _ (onDogeValidated env s req error valid)
    unfold onDogeValidated
    split
    · exact still (leaves_done rfl)
    · split
      · exact refused _ _
      · exact enrolls_proceedAuth.start rfl
  | payoutV2 addr =>
    refine still (leaves_ite (fun _ => leaves_done rfl) fun _ => leaves_ite (fun _ => ?_) fun _ => ?_)
    · exact leaves_done rfl
    · exact leaves_done rfl

theorem enrolls_finishOpen {addr worker : Str} (hid : t.minerId = s.minerId)
    (haddr : t.workerAddress = addr) (hworker : t.workerName = worker) :
    Enrolls s (addr, worker) (finishOpen env t) := by
  subst haddr hworker
  refine Enrolls.start ?_ hid
  refine enrolls_ensure t.withMinerId (fun _ => rfl) fun minerId => ?_
  refine leaves_thenDo (keepsRow_of_stays stays_emitLatestV2) fun t ht => ?_
  exact leaves_ask trivial fun _ => leaves_done ht

theorem noRow_sendV2 {msg : Reply} : (sendV2 s msg).All NoRow :=
  common_sendV2.mono fun _ => noRow_of_common

/-- An open request gets the row of the identity it names, or fails. -/
theorem enrolls_opening {msg : Request} {op : Opening} (hop : opening env msg = some op) :
    Enrolls s (op.address, op.worker) (processMessageV2 env s msg) := by
  cases msg with
  | openStandardMiningChannel msg =>
    obtain ⟨hd, haddress, hworker⟩ := decoded_of_openingFor (s := s) hop
    show Enrolls s _ (handleOpenStandard env s msg)
    unfold handleOpenStandard
    dsimp only
    rw [hd]
    exact enrolls_ask trivial fun r => enrolls_bind noRow_sendV2 fun _ =>
      enrolls_finishOpen rfl haddress hworker
  | openExtendedMiningChannel msg =>
    obtain ⟨hd, haddress, hworker⟩ := decoded_of_openingFor (s := s) hop
    show Enrolls s _ (handleOpenExtended env s msg)
    unfold handleOpenExtended
    dsimp only
    rw [hd]
    refine enrolls_ask trivial fun r => ?_
    split
    · exact enrolls_of_keepsRow (leaves_threw rfl)
    · exact enrolls_bind noRow_sendV2 fun _ => enrolls_finishOpen rfl haddress hworker
  | _ => cases hop

theorem keepsRow_message {msg : Request} (hop : opening env msg = none) :
    KeepsRow s (processMessageV2 env s msg) := by
  cases msg with
  | setupConnection protocol =>
    show KeepsRow s (handleSetupConnection s protocol)
    unfold handleSetupConnection
    split <;> exact leaves_bind noRow_sendV2 fun _ => leaves_done rfl
  | openStandardMiningChannel msg =>
    obtain ⟨e, he⟩ := refused_of_openingFor (s := s) hop
    show KeepsRow s (handleOpenStandard env s msg)
    unfold handleOpenStandard
    dsimp only
    rw [he]
    exact leaves_bind noRow_sendV2 fun _ => leaves_done rfl
  | openExtendedMiningChannel msg =>
    obtain ⟨e, he⟩ := refused_of_openingFor (s := s) hop
    show KeepsRow s (handleOpenExtended env s msg)
    unfold handleOpenExtended
    dsimp only
    rw [he]
    exact leaves_bind noRow_sendV2 fun _ => leaves_done rfl
  | submitSharesStandard msg => exact keepsRow_of_stays stays_handleSubmitSharesV2
  | submitSharesExtended msg => exact keepsRow_of_stays stays_handleSubmitSharesExtendedV2
  | setCustomMiningJob msg =>
    have fail (code : String) : KeepsRow s (do
        sendV2 s (.setCustomMiningJobError s.sv2ChannelId msg.requestId code.toList)
        return .done s) := leaves_bind noRow_sendV2 fun _ => leaves_done rfl
    exact leaves_ite (fun _ => fail _) fun _ => leaves_ite (fun _ => fail _) fun _ =>
      leaves_bind noRow_sendV2 fun _ => leaves_done rfl
  | _ => exact leaves_done rfl

/-- A session without what the requests of a V1 miner settle, the authorization
apart. -/
def account (s : Session) : Session :=
  { standing s with extranonce2Size := 0, versionRolling := false, versionMask := 0 }

theorem account_of_standing {a b : Session} (h : standing a = standing b) :
    account a = account b := by
  unfold account
  rw [h]

/-- The program asks for no row and keeps the session's account. -/
abbrev KeepsAccount (s : Session) (p : Act Outcome) : Prop := Leaves NoRow account s p

theorem keepsAccount_of_stays {p : Act Outcome} (h : Stays s p) : KeepsAccount s p :=
  h.weaken (fun _ => noRow_of_common) fun _ _ => account_of_standing

theorem keepsAccount_handleConfigure {msg : Json} : KeepsAccount s (handleConfigure env s msg) :=
  leaves_ask trivial fun _ => leaves_done rfl

theorem keepsAccount_handleSubscribe {msg : Json} :
    KeepsAccount s (handleSubscribe env s msg) := by
  have hua : account (withUserAgent s msg) = account s := by
    unfold withUserAgent
    split <;> rfl
  unfold handleSubscribe
  dsimp only
  refine leaves_ite (fun _ => leaves_ask trivial fun _ => leaves_done hua) fun _ => ?_
  refine leaves_ask trivial fun _ => leaves_thenDo ?_ fun t ht => ?_
  · exact (keepsAccount_of_stays stays_sendSetDifficulty).trans hua
  · exact leaves_bind (all_whenDo ⟨trivial, fun _ => trivial⟩) fun _ => leaves_done ht

theorem keepsAccount_handleAuthorize {msg : Json} :
    KeepsAccount s (handleAuthorize env s msg) := by
  have fail (reason : Str) : KeepsAccount s (do
      ask (.send (.authError (safeIdJson env.fmtDouble msg) reason))
      return .done s) := leaves_ask trivial fun _ => leaves_done rfl
  unfold handleAuthorize
  split
  · refine leaves_ite (fun _ => fail _) fun _ => ?_
    split
    · exact fail _
    · refine leaves_ask trivial fun bl => ?_
      refine leaves_ite (fun _ => fail _) fun _ => leaves_ite (fun _ => fail _) fun _ => ?_
      refine leaves_ite (fun _ => fail _) fun _ => ?_
      exact leaves_ask trivial fun _ => leaves_done rfl
  · exact fail _

/-- A line settles no account: the answers to the address checks do. -/
theorem keepsAccount_line {line : Option Json} : KeepsAccount s (processLine env s line) := by
  have answered (l : Line) : KeepsAccount s (do
      ask (.send l)
      return .done s) := leaves_ask trivial fun _ => leaves_done rfl
  have handled {method : Str} {msg : Json} : KeepsAccount s (dispatch env s method msg) := by
    refine leaves_ite (fun _ => keepsAccount_handleConfigure) fun _ => ?_
    refine leaves_ite (fun _ => keepsAccount_handleSubscribe) fun _ => ?_
    refine leaves_ite (fun _ => keepsAccount_handleAuthorize) fun _ => ?_
    refine leaves_ite (fun _ => keepsAccount_of_stays stays_handleSubmit) fun _ => ?_
    refine leaves_ite (fun _ => keepsAccount_of_stays stays_handleSuggestDifficulty) fun _ => ?_
    refine leaves_ite (fun _ => keepsAccount_of_stays stays_handleExtranonceSubscribe) fun _ => ?_
    exact answered _
  unfold processLine
  split
  · exact answered _
  · split
    · exact answered _
    · refine ⟨handled.calls.bind fun o => ?_, Prog.Yields.bind handled.session fun o ho => ?_⟩
      · cases o with
        | done t => trivial
        | threw t => exact ⟨trivial, fun _ => trivial⟩
      · cases o with
        | done t => exact ho
        | threw t => exact fun _ => ho

theorem keepsRow_line {line : Option Json} : KeepsRow s (processLine env s line) := by
  refine keepsAccount_line.weaken (fun _ => id) fun a b h => ?_
  have hid := congrArg Session.minerId h
  exact hid

/-- Who a task can get a row for. -/
def Names (env : Env) : Task → Str × Str → Prop
  | .message msg, who => ∃ op, opening env msg = some op ∧ who = (op.address, op.worker)
  | .validated (.payout req) _ _, who | .validated (.doge req) _ _, who =>
    who = (req.addr, req.worker)
  | _, _ => False

/-- **What a task does to the row.** It keeps it, or takes that of the identity
it names. -/
theorem task_enrolls {t : Task} {w w' : World} {o : Outcome}
    (run : desk.Exec (t.prog env s) w o w') : ∃ evs, w'.log = evs ++ w.log ∧
      (enrolled evs = none ∧ o.session.minerId = s.minerId ∨
        ∃ who, enrolled evs = some (who, o.session.minerId) ∧ Names env t who) := by
  have keeps (h : KeepsRow s (t.prog env s)) : ∃ evs, w'.log = evs ++ w.log ∧
      (enrolled evs = none ∧ o.session.minerId = s.minerId ∨
        ∃ who, enrolled evs = some (who, o.session.minerId) ∧ Names env t who) := by
    obtain ⟨evs, hlog, hevs⟩ := exec_log run h.calls
    exact ⟨evs, hlog, .inl ⟨enrolled_noRow hevs, run.yields _ h.session⟩⟩
  have takes {who : Str × Str} (h : Enrolls s who (t.prog env s)) (hwho : Names env t who) :
      ∃ evs, w'.log = evs ++ w.log ∧ (enrolled evs = none ∧ o.session.minerId = s.minerId ∨
        ∃ who, enrolled evs = some (who, o.session.minerId) ∧ Names env t who) := by
    obtain ⟨evs, hlog, h⟩ := h _ _ _ run
    exact ⟨evs, hlog, h.imp_right fun h => ⟨who, h, hwho⟩⟩
  cases t with
  | line line => exact keeps keepsRow_line
  | message msg =>
    cases hop : opening env msg with
    | none => exact keeps (keepsRow_message hop)
    | some op => exact takes (enrolls_opening hop) ⟨op, hop, rfl⟩
  | notify job => exact keeps (keepsRow_of_stays stays_notifyNewJob)
  | validated v error valid =>
    cases v with
    | payout req => exact takes (enrolls_validated (by simp)) rfl
    | doge req => exact takes (enrolls_validated (by simp)) rfl
    | payoutV2 addr =>
      exact keeps (leaves_ite (fun _ => leaves_done rfl) fun _ =>
        leaves_ite (fun _ => leaves_done rfl) fun _ => leaves_done rfl)
  | resetShareCounters | disconnect => exact keeps (leaves_done rfl)

/-! ## The checks -/

theorem own_of_common {c : Call} (h : Common c) : OwnCheck c := by
  cases c <;> first | exact h.elim | trivial

/-- In every run of the program, an address is checked for an authorization
only after the blacklist let its identity pass. -/
def Screens (p : Act Outcome) : Prop :=
  ∀ w o w', desk.Exec p w o w' → ∃ evs, w'.log = evs ++ w.log ∧
    (∀ req, (⟨.validateAddress (.payout req), ()⟩ : Event) ∈ evs →
      ∃ x, (⟨.blacklist req.addr req.worker, x⟩ : Event) ∈ evs ∧ Passes x) ∧
    ∀ req, (⟨.validateAddress (.doge req), ()⟩ : Event) ∉ evs

theorem screens_of_own {p : Act Outcome} (h : p.All OwnCheck) : Screens p := by
  intro w o w' run
  obtain ⟨evs, hlog, hevs⟩ := exec_log run h
  exact ⟨evs, hlog, fun req hmem => (hevs _ hmem).elim, fun req hmem => hevs _ hmem⟩

theorem screens_of_stays {p : Act Outcome} (h : Stays s p) : Screens p :=
  screens_of_own (h.calls.mono fun _ => own_of_common)

theorem screens_bind {p : Act Outcome} {k : Outcome → Act Outcome} (hp : Screens p)
    (hk : ∀ o, (k o).All OwnCheck) : Screens (p >>= k) := by
  intro w o w' run
  obtain ⟨o₁, w₁, first, rest⟩ := run.bind_inv
  obtain ⟨evs₁, hlog₁, hpayout, hdoge⟩ := hp _ _ _ first
  obtain ⟨evs₂, hlog₂, hevs₂⟩ := exec_log rest (hk o₁)
  refine ⟨evs₂ ++ evs₁, by rw [hlog₂, hlog₁, List.append_assoc], fun req hmem => ?_,
    fun req hmem => ?_⟩
  · rcases List.mem_append.mp hmem with hmem | hmem
    · exact (hevs₂ _ hmem).elim
    · obtain ⟨x, hx, hpass⟩ := hpayout req hmem
      exact ⟨x, List.mem_append_right _ hx, hpass⟩
  · rcases List.mem_append.mp hmem with hmem | hmem
    · exact hevs₂ _ hmem
    · exact hdoge req hmem

theorem screens_ite {c : Prop} [Decidable c] {p q : Act Outcome} (hp : c → Screens p)
    (hq : ¬ c → Screens q) : Screens (if c then p else q) := by
  split
  · exact hp ‹_›
  · exact hq ‹_›

/-- The address of the identity is checked, where the answer lets it pass, and
nothing else is. -/
def ChecksOnly (addr worker : Str) (x : BlacklistView) (evs : List Event) : Prop :=
  (∀ req, (⟨.validateAddress (.payout req), ()⟩ : Event) ∈ evs →
    req.addr = addr ∧ req.worker = worker ∧ Passes x) ∧
  ∀ req, (⟨.validateAddress (.doge req), ()⟩ : Event) ∉ evs

theorem checksOnly_own {addr worker : Str} {x : BlacklistView} {evs : List Event}
    (h : ∀ e ∈ evs, OwnCheck e.1) : ChecksOnly addr worker x evs :=
  ⟨fun _ hmem => (h _ hmem).elim, fun _ hmem => h _ hmem⟩

/-- The blacklist is asked, and the program goes on. -/
theorem screens_blacklist {addr worker : Str} {k : BlacklistView → Act Outcome}
    (hk : ∀ x w o w', desk.Exec (k x) w o w' →
      ∃ evs, w'.log = evs ++ w.log ∧ ChecksOnly addr worker x evs) :
    Screens (ask (.blacklist addr worker) >>= k) := by
  intro w o w' run
  obtain ⟨x, w₁, hs, rest⟩ := run.perform_inv
  obtain ⟨evs, hlog, hpayout, hdoge⟩ := hk x _ _ _ rest
  refine ⟨evs ++ [⟨.blacklist addr worker, x⟩], ?_, fun req hmem => ?_, fun req hmem => ?_⟩
  · rw [hlog, hs.log, List.append_assoc]
    rfl
  · rcases List.mem_append.mp hmem with hmem | hmem
    · obtain ⟨rfl, rfl, hpass⟩ := hpayout req hmem
      exact ⟨x, List.mem_append_right _ List.mem_cons_self, hpass⟩
    · cases List.mem_singleton.mp hmem
  · rcases List.mem_append.mp hmem with hmem | hmem
    · exact hdoge req hmem
    · cases List.mem_singleton.mp hmem

theorem screens_handleAuthorize {msg : Json} : Screens (handleAuthorize env s msg) := by
  have refused {reason : Str} : Prog.All OwnCheck (do
      ask (.send (.authError (safeIdJson env.fmtDouble msg) reason))
      return Outcome.done s) := ⟨trivial, fun _ => trivial⟩
  have stopped {addr worker reason : Str} {x : BlacklistView} {w w' : World} {o : Outcome}
      (run : desk.Exec (do
        ask (.send (.authError (safeIdJson env.fmtDouble msg) reason))
        return Outcome.done s) w o w') :
      ∃ evs, w'.log = evs ++ w.log ∧ ChecksOnly addr worker x evs := by
    obtain ⟨evs, hlog, hevs⟩ := exec_log run refused
    exact ⟨evs, hlog, checksOnly_own hevs⟩
  unfold handleAuthorize
  split
  · refine screens_ite (fun _ => screens_of_own refused) fun _ => ?_
    split
    · exact screens_of_own refused
    · refine screens_blacklist fun x w o w' run => ?_
      split at run
      · exact stopped run
      · split at run
        · exact stopped run
        · split at run
          · exact stopped run
          · rename_i haddr hfree hword
            have hpass : Passes x := by
              unfold Passes
              revert haddr hfree hword
              cases x.addressBlocked <;> cases x.workerIsFree <;> simp
            obtain ⟨_, w₁, hs, run⟩ := run.perform_inv
            obtain ⟨rfl, rfl⟩ := run.ret_inv
            refine ⟨[_], hs.log, fun req hmem => ?_, fun req hmem => ?_⟩
            · cases List.mem_singleton.mp hmem
              exact ⟨rfl, rfl, hpass⟩
            · cases List.mem_singleton.mp hmem
  · exact screens_of_own refused

theorem screens_line {line : Option Json} : Screens (processLine env s line) := by
  have answered (l : Line) : Prog.All OwnCheck (do
      ask (.send l)
      return Outcome.done s) := ⟨trivial, fun _ => trivial⟩
  have subscribed {msg : Json} : (handleSubscribe env s msg).All OwnCheck := by
    unfold handleSubscribe
    dsimp only
    refine all_ite ⟨trivial, fun _ => trivial⟩ ⟨trivial, fun _ => ?_⟩
    refine all_thenDo (stays_sendSetDifficulty.calls.mono fun _ => own_of_common) fun t => ?_
    exact (all_whenDo (Prog.all_perform trivial)).bind fun _ => trivial
  have handled {method : Str} {msg : Json} : Screens (dispatch env s method msg) := by
    refine screens_ite (fun _ => screens_of_own ⟨trivial, fun _ => trivial⟩) fun _ => ?_
    refine screens_ite (fun _ => screens_of_own subscribed) fun _ => ?_
    refine screens_ite (fun _ => screens_handleAuthorize) fun _ => ?_
    refine screens_ite (fun _ => screens_of_stays stays_handleSubmit) fun _ => ?_
    refine screens_ite (fun _ => screens_of_stays stays_handleSuggestDifficulty) fun _ => ?_
    refine screens_ite (fun _ => screens_of_stays stays_handleExtranonceSubscribe) fun _ => ?_
    exact screens_of_own (answered _)
  unfold processLine
  split
  · exact screens_of_own (answered _)
  · split
    · exact screens_of_own (answered _)
    · refine screens_bind handled fun o => ?_
      cases o with
      | done t => trivial
      | threw t => exact ⟨trivial, fun _ => trivial⟩

theorem own_proceedAuth {req : AuthRequest} : (proceedAuth env s req).All OwnCheck := by
  have common {p : Act Outcome} {t : Session} (h : Stays t p) : p.All OwnCheck :=
    h.calls.mono fun _ => own_of_common
  refine all_thenDo ?_ fun t => (Prog.all_perform trivial).bind fun _ =>
    (Prog.all_perform trivial).bind fun _ => common stays_emitLatest
  split
  · exact common stays_sendSetDifficulty
  · trivial

/-- What a task has checked: the address of an identity that passed the
blacklist in the same task, or the Dogecoin address of a request whose own
address was checked before. -/
structure Checks (t : Task) (evs : List Event) : Prop where
  payout : ∀ req, (⟨.validateAddress (.payout req), ()⟩ : Event) ∈ evs →
    ∃ x, (⟨.blacklist req.addr req.worker, x⟩ : Event) ∈ evs ∧ Passes x
  doge : ∀ req, (⟨.validateAddress (.doge req), ()⟩ : Event) ∈ evs →
    ∃ error valid, t = .validated (.payout req) error valid

theorem checks_payoutValidated {req : AuthRequest} {error : Option Str} {valid : Bool}
    {w w' : World} {o : Outcome}
    (run : desk.Exec (onPayoutValidated env s req error valid) w o w') :
    ∃ evs, w'.log = evs ++ w.log ∧ Checks (.validated (.payout req) error valid) evs := by
  have done {p : Act Outcome} (run : desk.Exec p w o w') (hp : p.All OwnCheck) :
      ∃ evs, w'.log = evs ++ w.log ∧ Checks (.validated (.payout req) error valid) evs := by
    obtain ⟨evs, hlog, hevs⟩ := exec_log run hp
    exact ⟨evs, hlog, fun _ hmem => (hevs _ hmem).elim, fun _ hmem => (hevs _ hmem).elim⟩
  unfold onPayoutValidated at run
  split at run
  · exact done run trivial
  · split at run
    · exact done run ⟨trivial, fun _ => trivial⟩
    · split at run
      · obtain ⟨_, w₁, hs, run⟩ := run.perform_inv
        obtain ⟨rfl, rfl⟩ := run.ret_inv
        refine ⟨[_], hs.log, fun _ hmem => ?_, fun _ hmem => ?_⟩
        · cases List.mem_singleton.mp hmem
        · cases List.mem_singleton.mp hmem
          exact ⟨error, valid, rfl⟩
      · refine done run (all_ite ?_ own_proceedAuth)
        split
        · exact own_proceedAuth
        · exact own_proceedAuth

theorem task_checks {t : Task} {w w' : World} {o : Outcome}
    (run : desk.Exec (t.prog env s) w o w') : ∃ evs, w'.log = evs ++ w.log ∧ Checks t evs := by
  have screened (h : Screens (t.prog env s)) : ∃ evs, w'.log = evs ++ w.log ∧ Checks t evs := by
    obtain ⟨evs, hlog, hpayout, hdoge⟩ := h _ _ _ run
    exact ⟨evs, hlog, hpayout, fun req hmem => absurd hmem (hdoge req)⟩
  cases t with
  | line line => exact screened screens_line
  | message msg => exact screened (screens_of_own own_processMessageV2)
  | notify job => exact screened (screens_of_stays stays_notifyNewJob)
  | validated v error valid =>
    cases v with
    | payout req => exact checks_payoutValidated run
    | doge req =>
      refine screened (screens_of_own (all_ite trivial (all_ite ⟨trivial, fun _ => trivial⟩ ?_)))
      exact own_proceedAuth
    | payoutV2 addr =>
      exact screened (screens_of_own (all_ite trivial (all_ite trivial trivial)))
  | resetShareCounters | disconnect =>
    exact screened (screens_of_own (Prog.all_ret _))

end Tasks

/-! ## Runs under a blacklist -/

/-- The identity a session was let in under, and the blacklist then. -/
structure Admitted where
  address : Str
  worker : Str
  blacklist : Content

/-- What a run remembers: the requests whose address was sent to the node, each
with the blacklist of that moment, and whom the session was last let in for. -/
structure Register where
  checked : List (AuthRequest × Content) := []
  admitted : Option Admitted := none

def checkedIn (bl : Content) : Event → Option (AuthRequest × Content)
  | ⟨.validateAddress (.payout req), _⟩ => some (req, bl)
  | _ => none

/-- A request that is let in was checked when it arrived; a channel is opened at
once. -/
def LetIn (bl : Content) (reg : Register) : Input → Content → Prop
  | .task (.validated (.payout req) _ _) _, bl' | .task (.validated (.doge req) _ _) _, bl' =>
    (req, bl') ∈ reg.checked
  | _, bl' => bl' = bl

/-- What a step with these events adds to the register. -/
inductive Admits (bl : Content) (reg : Register) (i : Input) (evs : List Event) : Register → Prop
  | same (h : enrolled evs = none) :
    Admits bl reg i evs { reg with checked := evs.filterMap (checkedIn bl) ++ reg.checked }
  | new {address worker : Str} {minerId : Int} {blacklist : Content}
    (h : enrolled evs = some ((address, worker), minerId)) (hbl : LetIn bl reg i blacklist) :
    Admits bl reg i evs
      { checked := evs.filterMap (checkedIn bl) ++ reg.checked
        admitted := some { address, worker, blacklist } }

/-- The runs of a session while the blacklist is reloaded now and then. It is
asked in its content of the moment. -/
inductive Guarded (env : Env) (isV2 : Bool) (ok : Content → Input → Prop) :
    Content → Register → DeskState → Prop
  | init {bl : Content} {d : DeskState} (h : Initial env isV2 d) : Guarded env isV2 ok bl {} d
  | reload {bl : Content} {reg : Register} {d : DeskState} (h : Guarded env isV2 ok bl reg d)
    (tables : Option Tables) : Guarded env isV2 ok (reload tables bl) reg d
  | step {bl : Content} {reg reg' : Register} {d d' : DeskState} {i : Input} {evs : List Event}
    (h : Guarded env isV2 ok bl reg d) (hok : ok bl i) (hs : Step env d i d')
    (hlog : d'.world.log = evs ++ d.world.log)
    (answers : ∀ addr worker x, (⟨.blacklist addr worker, x⟩ : Event) ∈ evs →
      x = view bl addr worker)
    (hreg : Admits bl reg i evs reg') : Guarded env isV2 ok bl reg' d'

/-- The step opens a channel for allowed identities only. -/
def Screened (env : Env) (bl : Content) (i : Input) : Prop :=
  ∀ op, openedBy env i = some op → Allowed bl op.address op.worker

section Runs

variable {env : Env} {isV2 : Bool} {ok : Content → Input → Prop} {bl : Content}
  {reg reg' : Register} {d d' : DeskState} {i : Input} {evs : List Event}

/-- What a step does to the row, and what it has checked. -/
structure StepDoes (env : Env) (d : DeskState) (i : Input) (d' : DeskState)
    (evs : List Event) : Prop where
  row : enrolled evs = none ∧ d'.session.minerId = d.session.minerId ∨
    ∃ who, enrolled evs = some (who, d'.session.minerId) ∧
      ∃ t readings, i = .task t readings ∧ Task.Offered d t ∧ Names env t who
  payout : ∀ req, (⟨.validateAddress (.payout req), ()⟩ : Event) ∈ evs →
    ∃ x, (⟨.blacklist req.addr req.worker, x⟩ : Event) ∈ evs ∧ Passes x
  doge : ∀ req, (⟨.validateAddress (.doge req), ()⟩ : Event) ∈ evs →
    (⟨.validateAddress (.payout req), ()⟩ : Event) ∈ d.world.log

theorem stepDoes (hs : Step env d i d') (hlog : d'.world.log = evs ++ d.world.log) :
    StepDoes env d i d' evs := by
  cases hs with
  | @task s w w' t readings o offered run =>
    obtain ⟨evs₁, hlog₁, hrow⟩ := task_enrolls run
    obtain ⟨evs₂, hlog₂, hpayout, hdoge⟩ := task_checks run
    obtain rfl : evs = evs₁ := List.append_cancel_right (hlog.symm.trans hlog₁)
    obtain rfl : evs = evs₂ := List.append_cancel_right (hlog.symm.trans hlog₂)
    refine ⟨hrow.imp_right ?_, hpayout, fun req hmem => ?_⟩
    · rintro ⟨who, hevs, hnames⟩
      exact ⟨who, hevs, t, readings, rfl, offered, hnames⟩
    · obtain ⟨error, valid, rfl⟩ := hdoge req hmem
      exact offered
  | @notify s w w' job rest o head run =>
    obtain ⟨evs₁, hlog₁, hevs⟩ := exec_log run stays_notifyNewJob.calls
    obtain rfl : evs = evs₁ := List.append_cancel_right (hlog.symm.trans hlog₁)
    refine ⟨.inl ⟨enrolled_noRow fun e he => noRow_of_common (hevs e he), ?_⟩, ?_, ?_⟩
    · exact minerId_of_standing (run.yields _ stays_notifyNewJob.session)
    · exact fun req hmem => (hevs _ hmem).elim
    · exact fun req hmem => (hevs _ hmem).elim
  | @work s w w' gbt jobId run =>
    have hevs := publishes_of_work run hlog
    refine ⟨.inl ⟨enrolled_noRow fun e he => ?_, rfl⟩, ?_, ?_⟩
    · exact noRow_of_publishes (hevs e he)
    · exact fun req hmem => (hevs _ hmem).elim
    · exact fun req hmem => (hevs _ hmem).elim
  | others =>
    obtain rfl : evs = [] := by simpa using hlog
    exact ⟨.inl ⟨rfl, rfl⟩, by simp, by simp⟩

/-- The requests whose checks were asked for are remembered. -/
def Asked (reg : Register) (d : DeskState) : Prop :=
  ∀ req, (⟨.validateAddress (.payout req), ()⟩ : Event) ∈ d.world.log ∨
    (⟨.validateAddress (.doge req), ()⟩ : Event) ∈ d.world.log → ∃ bl, (req, bl) ∈ reg.checked

theorem checked_of_admits (hreg : Admits bl reg i evs reg') :
    reg'.checked = evs.filterMap (checkedIn bl) ++ reg.checked := by
  cases hreg <;> rfl

theorem Asked.step (h : Asked reg d) (hs : Step env d i d')
    (hlog : d'.world.log = evs ++ d.world.log) (hreg : Admits bl reg i evs reg') :
    Asked reg' d' := by
  intro req hmem
  rw [checked_of_admits hreg]
  rw [hlog, List.mem_append, List.mem_append] at hmem
  have old (hmem : (⟨.validateAddress (.payout req), ()⟩ : Event) ∈ d.world.log ∨
      (⟨.validateAddress (.doge req), ()⟩ : Event) ∈ d.world.log) :
      ∃ bl', (req, bl') ∈ evs.filterMap (checkedIn bl) ++ reg.checked := by
    obtain ⟨bl', hbl'⟩ := h req hmem
    exact ⟨bl', List.mem_append_right _ hbl'⟩
  rcases hmem with (hmem | hmem) | (hmem | hmem)
  · exact ⟨bl, List.mem_append_left _ (List.mem_filterMap.mpr ⟨_, hmem, rfl⟩)⟩
  · exact old (.inl hmem)
  · exact old (.inl ((stepDoes hs hlog).doge req hmem))
  · exact old (.inr hmem)

theorem asked_of_guarded (h : Guarded env isV2 ok bl reg d) : Asked reg d := by
  induction h with
  | init h =>
    obtain ⟨_, _, _, rfl⟩ := h
    simp [Asked]
  | reload _ _ ih => exact ih
  | step _ _ hs hlog _ hreg ih => exact ih.step hs hlog hreg

/-- **No run is left out.** Whoever a step lets in, there is a blacklist for. -/
theorem admits_of_step (h : Guarded env isV2 ok bl reg d) (hs : Step env d i d')
    (hlog : d'.world.log = evs ++ d.world.log) : ∃ reg', Admits bl reg i evs reg' := by
  rcases (stepDoes hs hlog).row with
    ⟨hnone, _⟩ | ⟨⟨address, worker⟩, hsome, t, readings, rfl, hoff, _⟩
  · exact ⟨_, .same hnone⟩
  · have hbl : ∃ bl', LetIn bl reg (.task t readings) bl' := by
      cases t with
      | validated v error valid =>
        cases v with
        | payout req => exact asked_of_guarded h req (.inl hoff)
        | doge req => exact asked_of_guarded h req (.inr hoff)
        | payoutV2 addr => exact ⟨bl, rfl⟩
      | _ => exact ⟨bl, rfl⟩
    obtain ⟨bl', hbl⟩ := hbl
    exact ⟨_, .new hsome hbl⟩

/-- The session's row is that of the identity it was let in under. -/
def Rowed (reg : Register) (d : DeskState) : Prop :=
  enrolled d.world.log = reg.admitted.map fun a => ((a.address, a.worker), d.session.minerId)

theorem Rowed.step (h : Rowed reg d) (hs : Step env d i d')
    (hlog : d'.world.log = evs ++ d.world.log) (hreg : Admits bl reg i evs reg') :
    Rowed reg' d' := by
  unfold Rowed
  have hrow := (stepDoes hs hlog).row
  rw [hlog, enrolled_append]
  cases hreg with
  | same hnone =>
    rcases hrow with ⟨_, hid⟩ | ⟨who, hwho, _⟩
    · rw [hnone, Option.none_or, hid]
      exact h
    · rw [hnone] at hwho
      cases hwho
  | @new address worker minerId blacklist hsome hbl =>
    rcases hrow with ⟨hnone, _⟩ | ⟨who, hwho, _⟩
    · rw [hnone] at hsome
      cases hsome
    · rw [hsome] at hwho
      obtain ⟨rfl, hid⟩ := Prod.mk.inj (Option.some.inj hwho)
      rw [hsome, Option.some_or, hid]
      rfl

theorem rowed_of_guarded (h : Guarded env isV2 ok bl reg d) : Rowed reg d := by
  induction h with
  | init h =>
    obtain ⟨_, _, _, rfl⟩ := h
    rfl
  | reload _ _ ih => exact ih
  | step _ _ hs hlog _ hreg ih => exact ih.step hs hlog hreg

/-- The register of a run that opens channels for allowed identities only. -/
structure AllAllowed (reg : Register) : Prop where
  checked : ∀ req bl, (req, bl) ∈ reg.checked → Allowed bl req.addr req.worker
  admitted : ∀ a, reg.admitted = some a → Allowed a.blacklist a.address a.worker

theorem mem_checkedIn {req : AuthRequest} {bl' : Content}
    (h : (req, bl') ∈ evs.filterMap (checkedIn bl)) :
    bl' = bl ∧ (⟨.validateAddress (.payout req), ()⟩ : Event) ∈ evs := by
  obtain ⟨e, he, hc⟩ := List.mem_filterMap.mp h
  unfold checkedIn at hc
  split at hc
  · cases hc
    exact ⟨rfl, he⟩
  · cases hc

/-- The identity a step lets in is allowed, if those of its open requests are. -/
theorem allowed_of_letIn {t : Task} {readings : Set ℚ} {bl' : Content} {who : Str × Str}
    (h : AllAllowed reg) (hok : Screened env bl (.task t readings)) (hnames : Names env t who)
    (hbl : LetIn bl reg (.task t readings) bl') : Allowed bl' who.1 who.2 := by
  cases t with
  | message msg =>
    obtain ⟨op, hop, rfl⟩ := hnames
    obtain rfl : bl' = bl := hbl
    exact hok op hop
  | validated v error valid =>
    cases v with
    | payout req | doge req =>
      obtain rfl : who = (req.addr, req.worker) := hnames
      exact h.checked req bl' hbl
    | payoutV2 addr => exact hnames.elim
  | _ => exact hnames.elim

theorem AllAllowed.step (h : AllAllowed reg) (hok : Screened env bl i) (hs : Step env d i d')
    (hlog : d'.world.log = evs ++ d.world.log)
    (answers : ∀ addr worker x, (⟨.blacklist addr worker, x⟩ : Event) ∈ evs →
      x = view bl addr worker)
    (hreg : Admits bl reg i evs reg') : AllAllowed reg' := by
  have hdoes := stepDoes hs hlog
  constructor
  · intro req bl' hmem
    rw [checked_of_admits hreg] at hmem
    rcases List.mem_append.mp hmem with hmem | hmem
    · obtain ⟨rfl, hpayout⟩ := mem_checkedIn hmem
      obtain ⟨x, hx, hpass⟩ := hdoes.payout req hpayout
      rw [answers _ _ _ hx] at hpass
      exact (allowed_iff _ _ _).mpr hpass
    · exact h.checked req bl' hmem
  · cases hreg with
    | same hnone => exact h.admitted
    | @new address worker minerId blacklist hsome hbl =>
      rintro a ⟨⟩
      rcases hdoes.row with ⟨hnone, _⟩ | ⟨who, hwho, t, readings, rfl, _, hnames⟩
      · rw [hnone] at hsome
        cases hsome
      · rw [hsome] at hwho
        obtain ⟨rfl, _⟩ := Prod.mk.inj (Option.some.inj hwho)
        exact allowed_of_letIn h hok hnames hbl

theorem allAllowed_of_guarded (h : Guarded env isV2 (Screened env) bl reg d) :
    AllAllowed reg := by
  induction h with
  | init h => exact ⟨by simp, by simp⟩
  | reload _ _ ih => exact ih
  | step _ hok hs hlog answers hreg ih => exact ih.step hok hs hlog answers hreg

/-- The call credits a share, or hands over a block. -/
def Credits : Call → Prop
  | .countAccepted .. | .enqueueShare _ | .submitBlock _ | .submitAuxBlock _ => True
  | _ => False

/-- The call names no row but this one. -/
def OfRow (minerId : Int) : Call → Prop
  | .enqueueShare rec => rec.minerId = minerId
  | .submitBlock b => b.minerId = minerId
  | _ => True

theorem ofRow_of_explains {s : Session} {t : Task} {w : World} {c : Call}
    (h : Explains env s t w c) : OfRow s.minerId c := by
  cases c with
  | submitBlock b => exact h.2
  | enqueueShare rec => exact h
  | _ => exact trivial

theorem ofRow_of_publishes {minerId : Int} {c : Call} (h : Publishes c) : OfRow minerId c := by
  cases c <;> first | exact h.elim | trivial

/-- What a step does for a share, it does for the session's row. -/
theorem ofRow_of_step (hs : Step env d i d') (hlog : d'.world.log = evs ++ d.world.log) :
    ∀ e ∈ evs, OfRow d.session.minerId e.1 := by
  intro e he
  cases hs with
  | @task s w w' t readings o offered run =>
    obtain ⟨q, _, seen⟩ := task_seen run
    obtain ⟨evs', hlog', hevs⟩ := seen.log
    obtain rfl : evs = evs' := List.append_cancel_right (hlog.symm.trans hlog')
    exact ofRow_of_explains (hevs e he).2
  | @notify s w w' job rest o head run =>
    obtain ⟨q, _, seen⟩ := task_seen run
    obtain ⟨evs', hlog', hevs⟩ := seen.log
    obtain rfl : evs = evs' := List.append_cancel_right (hlog.symm.trans hlog')
    exact ofRow_of_explains (hevs e he).2
  | @work s w w' gbt jobId run =>
    exact ofRow_of_publishes (publishes_of_work run hlog e he)
  | others =>
    obtain rfl : evs = [] := by simpa using hlog
    cases he

/-- **Who shares are credited to.** In every run that opens channels for allowed
identities only, what is credited or submitted has the row of the identity the
session was let in under, and the blacklist allowed that identity then. -/
theorem credited_identity_allowed (env : Env) (isV2 : Bool) (bl : Content) (reg : Register)
    (d d' : DeskState) (i : Input) (evs : List Event) (a : Admitted)
    (run : Guarded env isV2 (Screened env) bl reg d) (hs : Step env d i d')
    (hlog : d'.world.log = evs ++ d.world.log) (ha : reg.admitted = some a) :
    ∀ e ∈ evs, Credits e.1 → ∃ minerId, OfRow minerId e.1 ∧
      enrolled d.world.log = some ((a.address, a.worker), minerId) ∧
      Allowed a.blacklist a.address a.worker := by
  intro e he _
  refine ⟨d.session.minerId, ofRow_of_step hs hlog e he, ?_,
    (allAllowed_of_guarded run).admitted a ha⟩
  rw [rowed_of_guarded run, ha]
  rfl

end Runs

/-! ## Two runs -/

/-- The event is no answer of a blacklist with another content. -/
def agrees (bl : Content) : Event → Bool
  | ⟨.blacklist addr worker, x⟩ => x = view bl addr worker
  | _ => true

theorem answers_of_agrees {bl : Content} {evs : List Event} (h : ∀ e ∈ evs, agrees bl e = true) :
    ∀ addr worker x, (⟨.blacklist addr worker, x⟩ : Event) ∈ evs → x = view bl addr worker :=
  fun _ _ _ hmem => of_decide_eq_true (h _ hmem)

/-- A register of one content. -/
structure Under (bl : Content) (reg : Register) : Prop where
  checked : ∀ p ∈ reg.checked, p.2 = bl
  admitted : ∀ a, reg.admitted = some a → a.blacklist = bl

theorem Under.admits {bl : Content} {reg reg' : Register} {i : Input} {evs : List Event}
    (h : Under bl reg) (hreg : Admits bl reg i evs reg') : Under bl reg' := by
  constructor
  · rintro ⟨req, bl'⟩ hmem
    rw [checked_of_admits hreg] at hmem
    rcases List.mem_append.mp hmem with hmem | hmem
    · exact (mem_checkedIn hmem).1
    · exact h.checked _ hmem
  · cases hreg with
    | same => exact h.admitted
    | new _ hbl =>
      rintro a ⟨⟩
      unfold LetIn at hbl
      split at hbl
      · exact h.checked _ hbl
      · exact h.checked _ hbl
      · exact hbl

/-- What is played under one content of the blacklist. -/
theorem guarded_of_play {env : Env} {isV2 : Bool} (ok : Content → Input → Prop)
    {check : DeskState → Move → Bool} {bl : Content}
    (hcheck : ∀ r d m i, check d m = true → m.input r d = some i → ok bl i)
    {moves : List (Replies × Move)} {reg : Register} {d d' : DeskState}
    (hd : Guarded env isV2 ok bl reg d) (hreg : Under bl reg)
    (h : play env check d moves = some d') (hlog : d'.world.log.all (agrees bl) = true) :
    ∃ reg', Guarded env isV2 ok bl reg' d' ∧ Under bl reg' := by
  induction moves generalizing reg d with
  | nil =>
    cases h
    exact ⟨reg, hd, hreg⟩
  | cons rm moves ih =>
    obtain ⟨r, m⟩ := rm
    unfold play at h
    split at h
    · rename_i hc
      obtain ⟨d₁, h₁, h⟩ := Option.bind_eq_some_iff.mp h
      obtain ⟨i, hi, h₁⟩ := Option.bind_eq_some_iff.mp h₁
      have hs := step_of_perform hi h₁
      obtain ⟨evs₁, hlog₁⟩ := log_of_step hs
      obtain ⟨evs₂, hlog₂⟩ := log_of_play h
      have hagrees : ∀ e ∈ evs₁, agrees bl e = true := by
        intro e he
        refine List.all_eq_true.mp hlog e ?_
        rw [hlog₂, hlog₁]
        exact List.mem_append_right _ (List.mem_append_left _ he)
      have answers := answers_of_agrees hagrees
      obtain ⟨reg₁, hreg₁⟩ := admits_of_step hd hs hlog₁
      exact ih (.step hd (hcheck r d m i hc hi) hs hlog₁ answers hreg₁) (hreg.admits hreg₁) h
    · cases h

/-- The blacklist that blocks the address of the samples. -/
def blockedMiner : Content := { addresses := {"miner".toList} }

theorem under_start {bl : Content} : Under bl {} := ⟨by simp, by simp⟩

theorem guarded_start {env : Env} {isV2 : Bool} {ok : Content → Input → Prop} {bl : Content} :
    Guarded env isV2 ok bl {} (start env isV2) :=
  .init ⟨_, _, _, rfl⟩

/-- The event credits a share, or hands over a block. -/
def creditsIn (e : Event) : Bool :=
  match e.1 with
  | .countAccepted .. | .enqueueShare _ | .submitBlock _ | .submitAuxBlock _ => true
  | _ => false

theorem credits_of_creditsIn {e : Event} (h : creditsIn e = true) : Credits e.1 := by
  obtain ⟨c, x⟩ := e
  cases c <;> first | exact trivial | cases h

/-- What a run of the samples ends with, once a share more is sent. -/
theorem credit_of_logs {env : Env} {d d' : DeskState} {i : Input} {who : Str × Str}
    {reg : Register} (hs : Step env d i d') (hrow : Rowed reg d)
    (hwho : (enrolled d.world.log).map Prod.fst = some who)
    (hbefore : d.world.log.any creditsIn = false) (hafter : d'.world.log.any creditsIn = true) :
    ∃ evs a, d'.world.log = evs ++ d.world.log ∧ reg.admitted = some a ∧
      (a.address, a.worker) = who ∧ ∃ e ∈ evs, Credits e.1 := by
  obtain ⟨evs, hlog⟩ := log_of_step hs
  rw [hlog, List.any_append, hbefore, Bool.or_false] at hafter
  obtain ⟨e, he, hc⟩ := List.any_eq_true.mp hafter
  unfold Rowed at hrow
  rw [hrow] at hwho
  obtain ⟨⟨_, _⟩, hp, rfl⟩ := Option.map_eq_some_iff.mp hwho
  obtain ⟨a, ha, hp⟩ := Option.map_eq_some_iff.mp hp
  exact ⟨evs, a, hlog, ha, congrArg Prod.fst hp, e, he, credits_of_creditsIn hc⟩

/-- **An open request asks no blacklist.** A share is credited to a blocked
address that opened a Stratum V2 channel. -/
theorem blocked_miner_credited :
    ∃ (env : Env) (bl : Content) (reg : Register) (d d' : DeskState) (i : Input)
      (evs : List Event) (a : Admitted),
      Guarded env true (fun _ _ => True) bl reg d ∧ Step env d i d' ∧
      d'.world.log = evs ++ d.world.log ∧ reg.admitted = some a ∧
      (∃ e ∈ evs, Credits e.1) ∧ addressBlocked a.blacklist a.address = true := by
  have h : (play easyPool anyMove (start easyPool true) (channelOpens ++ firstJob)).any (fun d =>
      d.world.log.all (agrees blockedMiner) && !d.world.log.any creditsIn &&
        decide ((enrolled d.world.log).map Prod.fst = some ("miner".toList, "1".toList)) &&
        (((Move.message (.submitSharesStandard firstShareV2)).input usual d).bind
          (perform easyPool usual d)).any fun d' => d'.world.log.any creditsIn) = true := by
    decide +kernel
  obtain ⟨d, hd, hx⟩ := (Option.any_eq_true _ _).mp h
  simp only [Bool.and_eq_true, decide_eq_true_eq, Option.any_eq_true, Bool.not_eq_true'] at hx
  obtain ⟨⟨⟨hagrees, hbefore⟩, hwho⟩, d', hd', hafter⟩ := hx
  obtain ⟨i, hi, hd'⟩ := Option.bind_eq_some_iff.mp hd'
  have hs := step_of_perform hi hd'
  obtain ⟨reg, hg, hunder⟩ := guarded_of_play (fun _ _ => True) (fun _ _ _ _ _ _ => trivial)
    guarded_start under_start hd hagrees
  obtain ⟨evs, a, hlog, ha, hname, hcredit⟩ :=
    credit_of_logs hs (rowed_of_guarded hg) hwho hbefore hafter
  obtain ⟨haddress, _⟩ := Prod.mk.inj hname
  refine ⟨easyPool, blockedMiner, reg, d, d', i, evs, a, hg, hs, hlog, ha, hcredit, ?_⟩
  rw [hunder.admitted a ha, haddress]
  decide

/-- Any move but a message. -/
def noMessage (_ : DeskState) : Move → Bool
  | .message _ => false
  | _ => true

theorem screened_of_noMessage {env : Env} {bl : Content} : ∀ r d m i,
    noMessage d m = true → Move.input r d m = some i → Screened env bl i := by
  intro r d m i hm hi
  have hopen : openedBy env i = none := by
    cases m with
    | message => cases hm
    | line msg =>
      simp only [Move.input] at hi
      split at hi <;> cases hi
      rfl
    | validated error valid =>
      obtain ⟨_, _, rfl⟩ := Option.map_eq_some_iff.mp hi
      rfl
    | notify | work =>
      cases hi
      rfl
  intro op hop
  rw [hopen] at hop
  cases hop

/-- A V1 miner is let in, and a share credited. -/
theorem credited_identity_allowed_once :
    ∃ (reg : Register) (d d' : DeskState) (evs : List Event) (a : Admitted),
      d'.world.log = evs ++ d.world.log ∧ reg.admitted = some a ∧ (∃ e ∈ evs, Credits e.1) ∧
      ∀ e ∈ evs, Credits e.1 → ∃ minerId, OfRow minerId e.1 ∧
        enrolled d.world.log = some ((a.address, a.worker), minerId) ∧
        Allowed a.blacklist a.address a.worker := by
  have h : (play easyPool noMessage (start easyPool false) (minerJoins ++ firstJob)).any (fun d =>
      d.world.log.all (agrees {}) && !d.world.log.any creditsIn &&
        decide ((enrolled d.world.log).map Prod.fst = some ("miner".toList, "1".toList)) &&
        (((Move.line firstShare).input usual d).bind
          (perform easyPool usual d)).any fun d' => d'.world.log.any creditsIn) = true := by
    decide +kernel
  obtain ⟨d, hd, hx⟩ := (Option.any_eq_true _ _).mp h
  simp only [Bool.and_eq_true, decide_eq_true_eq, Option.any_eq_true, Bool.not_eq_true'] at hx
  obtain ⟨⟨⟨hagrees, hbefore⟩, hwho⟩, d', hd', hafter⟩ := hx
  obtain ⟨i, hi, hd'⟩ := Option.bind_eq_some_iff.mp hd'
  have hs := step_of_perform hi hd'
  obtain ⟨reg, hg, _⟩ := guarded_of_play (Screened easyPool) screened_of_noMessage
    (guarded_start : Guarded easyPool false _ {} {} _) under_start hd hagrees
  obtain ⟨evs, a, hlog, ha, _, hcredit⟩ :=
    credit_of_logs hs (rowed_of_guarded hg) hwho hbefore hafter
  exact ⟨reg, d, d', evs, a, hlog, ha, hcredit,
    credited_identity_allowed easyPool false {} reg d d' i evs a hg hs hlog ha⟩

end MkPool.Admission
