import MkPool.Published
import Mathlib.Logic.Relation

/-! # What a task of a V1 session can do

Every task of a V1 session is a sequence of the effects below, from the state
it starts in to the state it leaves (`task_effects`). An invariant of a session
is then kept by the tasks as soon as it is kept by the effects. -/
namespace MkPool.Effects
open MkPool.Lib.Interaction MkPool.Utils MkPool.Config MkPool.Job MkPool.Coinbase
open MkPool.Stratifier MkPool.Calls MkPool.ClientSession MkPool.JsonValue MkPool.Tasks
open MkPool.Desk MkPool.Published MkPool.Stratum MkPool.Submit

/-! ## The turn of a task -/

/-- A task about to run: the session it finds and the clock it will see. -/
structure Turn where
  env : Env
  session : Session
  readings : Set ℚ
  task : Task

/-- The line calls the method. -/
def Calls (msg : Json) (method : String) : Prop :=
  (msg.find? "method".toList).bind Json.getString? = some method.toList

/-- The controller would retarget now. -/
def Retargets (env : Env) (s : Session) (readings : Set ℚ) : Prop :=
  env.coin.activeTier.vardiffEnabled = true ∧ s.hasCustomDifficulty = false ∧
    ∃ now ∈ readings, ∃ target netTarget,
      (s.vardiff.onShare env.exp now target (difficultyOf env.coin.chain netTarget)).2 ≠ none

/-- The authorization the task completes, if it completes one. -/
def Turn.authorizes (T : Turn) : Option AuthRequest :=
  match T.task with
  | .validated (.payout req) none true =>
    if T.session.closed then none
    else if !req.auxDogeAddress.isEmpty && T.env.hasAux then none else some req
  | .validated (.doge req) none true => if T.session.closed then none else some req
  | _ => none

/-- Only the answers to an address check complete an authorization. -/
theorem validated_of_authorizes {T : Turn} {req : AuthRequest} (h : T.authorizes = some req) :
    ∃ v, (v = .payout req ∨ v = .doge req) ∧ T.task = .validated v none true := by
  unfold Turn.authorizes at h
  split at h
  · rename_i r ht
    split at h
    · cases h
    · split at h
      · cases h
      · cases h
        exact ⟨_, .inl rfl, ht⟩
  · rename_i r ht
    split at h
    · cases h
    · cases h
      exact ⟨_, .inr rfl, ht⟩
  · cases h

/-- The task may send the latest job again, as it is. -/
def Turn.Emits (T : Turn) : Prop :=
  match T.task with
  | .line (some msg) =>
    Calls msg "mining.extranonce.subscribe" ∨ T.session.authorized = true ∧
      (Calls msg "mining.subscribe" ∨
       Calls msg "mining.suggest_difficulty" ∧ suggestedDiff T.env msg ≠ none ∨
       Calls msg "mining.submit" ∧ Retargets T.env T.session T.readings)
  | _ => T.authorizes ≠ none

/-! ## Effects -/

/-- A call that publishes no work, emits none, advertises no difficulty, finds
no share too easy and submits no aux block. A Dogecoin address is checked when
there is one. -/
def Quiet : Call → Prop
  | .send (.notify _) | .send (.setDifficulty _) | .submitAuxBlock _ => False
  | .scored .v1LowDiff _ _ _ => False
  | .validateAddress (.doge req) => req.auxDogeAddress ≠ []
  | .newJobId _ | .swapPrevhash _ | .clearShares | .resetBestShare => False
  | .pushJob _ | .callbacks _ => False
  | _ => True

/-- A session without the fields that no effect below is about. -/
def core (s : Session) : Session :=
  { s with
    zcashJobs := ∅, userAgent := [], subscribed := false, authorized := false,
    extranonceSubscribed := false, extranonce2Size := 0, versionRolling := false,
    versionMask := 0, sharesAccepted := 0, sharesRejected := 0, closed := false, minerId := 0 }

/-- The core of a session without its difficulty. -/
def diffless (s : Session) : Session :=
  { core s with
    vardiff := .new {} 0, lastDifficulty := 0, lastDifficultyChangeTs := 0,
    hasCustomDifficulty := false, customDifficulty := 0 }

/-- Why a difficulty is advertised: the controller that goes with it, the
difficulty, and the previous one where it is given. -/
inductive Advert (T : Turn) : Vardiff.VarDiff → ℚ → Option ℚ → Prop where
  | current {msg : Json} (line : T.task = .line (some msg))
      (calls : Calls msg "mining.subscribe") :
      Advert T T.session.vardiff T.session.vardiff.current none
  | suggested {msg : Json} {d : ℚ} (line : T.task = .line (some msg))
      (calls : Calls msg "mining.suggest_difficulty")
      (h : suggestedDiff T.env msg = some d) : Advert T T.session.vardiff d none
  | retarget {msg : Json} {now target : ℚ} {netTarget : Hash256} {v : Vardiff.VarDiff} {nd : ℚ}
      (line : T.task = .line (some msg)) (calls : Calls msg "mining.submit")
      (on : T.env.coin.activeTier.vardiffEnabled = true)
      (free : T.session.hasCustomDifficulty = false) (clock : now ∈ T.readings)
      (h : T.session.vardiff.onShare T.env.exp now target
        (difficultyOf T.env.coin.chain netTarget) = (v, some nd)) :
      Advert T v nd (some T.session.vardiff.current)
  | custom {req : AuthRequest} {d : ℚ} (auth : T.authorizes = some req)
      (h : req.customDiff = some d) : Advert T (T.session.vardiff.setCurrent d) d none

/-- One effect of a task. -/
inductive Effect (T : Turn) : DeskState → DeskState → Prop where
  | quiet {s : Session} {w w' : World} {c : Call} {x : Answer c} (hc : Quiet c)
      (hs : DeskCall c w x w') : Effect T ⟨s, w⟩ ⟨s, w'⟩
  | tidy {s s' : Session} {w : World} (h : core s' = core s) : Effect T ⟨s, w⟩ ⟨s', w⟩
  | emit {s : Session} {w w' : World} {job : MiningJob} {forceClean : Bool}
      (may : T.Emits) (latest : w.strat.jobs.latest = some job)
      (hs : DeskCall (.send (.notify (notifyOf T.env s job job.notifyPrefix forceClean)))
        w () w') :
      Effect T ⟨s, w⟩ ⟨s, w'⟩
  | advertise {s s' : Session} {w w' : World} {d now : ℚ} {old : Option ℚ}
      (why : Advert T s'.vardiff d old) (same : diffless s' = diffless s)
      (hs : DeskCall (.send (.setDifficulty (llround d))) w () w') :
      Effect T ⟨s, w⟩ ⟨s'.advertised (old.getD d) now, w'⟩
  | observe {s : Session} {w : World} {now target net : ℚ} {v : Vardiff.VarDiff}
      (start : s.vardiff = T.session.vardiff)
      (h : s.vardiff.onShare T.env.exp now target net = (v, none)) :
      Effect T ⟨s, w⟩ ⟨s.withVardiff v, w⟩
  | tooEasy {s : Session} {w w' : World} {sh : Share}
      (low : sh.diff T.env < s.vardiff.current * tolerance T.env)
      (hs : DeskCall (.scored .v1LowDiff sh.hash (some sh.job) sh.meetsNetwork) w () w') :
      Effect T ⟨s, w⟩ ⟨s, w'⟩
  | auxBlock {s : Session} {w w' : World} {block : Str} {sh : Share} {saj : SessionAuxJob}
      (work : auxWorkFor T.env s sh = some saj) (fresh : saj.dogeBlockHash ∉ s.dogeSubmitted)
      (hs : DeskCall (.submitAuxBlock { block, dogeBlockHash := saj.dogeBlockHash }) w () w') :
      Effect T ⟨s, w⟩ ⟨withDogeSubmitted s saj.dogeBlockHash, w'⟩
  | payout {s : Session} {w : World} {req : AuthRequest} (auth : T.authorizes = some req) :
      Effect T ⟨s, w⟩ ⟨withPayout T.env s req, w⟩
  | doge {s : Session} {w : World} {req : AuthRequest} (auth : T.authorizes = some req)
      (addr script : Str) (h : addr ≠ []) : Effect T ⟨s, w⟩ ⟨withDoge s addr script, w⟩

/-- Effects one after the other. -/
abbrev EffectRun (T : Turn) : DeskState → DeskState → Prop := Relation.ReflTransGen (Effect T)

/-! ## Programs by their effects -/

/-- The program makes quiet calls only. -/
abbrev Quietly {α : Type} (p : Act α) : Prop := p.All Quiet

theorem quietly_ask {c : Call} (h : Quiet c) : Quietly (ask c) := Prog.all_perform h

theorem quietly_whenDo {b : Bool} {p : Act Unit} (hp : Quietly p) : Quietly (whenDo b p) := by
  unfold whenDo
  split
  · exact hp
  · exact Prog.all_ret ()

/-- From `s` and `w`, the program runs through effects of the turn. -/
def Does (T : Turn) (s : Session) (w : World) (p : Act Outcome) : Prop :=
  w.readings = T.readings →
    desk.wp p (fun o w' => w'.readings = T.readings ∧ EffectRun T ⟨s, w⟩ ⟨o.session, w'⟩) w

section Rules

variable {T : Turn} {s t : Session} {w : World}

theorem does_done : Does T s w (.ret (.done s)) := fun hr => ⟨hr, .refl⟩

theorem does_threw : Does T s w (.ret (.threw s)) := fun hr => ⟨hr, .refl⟩

theorem does_tidy (h : core t = core s) : Does T s w (.ret (.done t)) :=
  fun hr => ⟨hr, .single (.tidy h)⟩

/-- An effect that makes no call, then the rest. -/
theorem Does.after {p : Act Outcome} (he : Effect T ⟨s, w⟩ ⟨t, w⟩) (hp : Does T t w p) :
    Does T s w p :=
  fun hr => desk.wp_mono (hp hr) fun _ _ h => ⟨h.1, .head he h.2⟩

theorem Does.tidy {p : Act Outcome} (h : core t = core s) (hp : Does T t w p) :
    Does T s w p :=
  hp.after (.tidy h)

/-- A call whose effect leads to another session, then the rest from there. -/
theorem does_call {c : Call} {k : Answer c → Act Outcome} (next : Answer c → Session)
    (he : w.readings = T.readings →
      ∀ x w', DeskCall c w x w' → Effect T ⟨s, w⟩ ⟨next x, w'⟩)
    (hk : ∀ x w', Does T (next x) w' (k x)) : Does T s w (ask c >>= k) := by
  refine fun hr => ⟨trivial, fun x w' hs => ?_⟩
  have hr' : w'.readings = T.readings := hs.readings.trans hr
  exact desk.wp_mono (hk x w' hr') fun _ _ h => ⟨h.1, .head (he hr x w' hs) h.2⟩

theorem does_quiet {c : Call} {k : Answer c → Act Outcome} (hc : Quiet c)
    (hk : ∀ x w', Does T s w' (k x)) : Does T s w (ask c >>= k) :=
  does_call (fun _ => s) (fun _ _ _ hs => .quiet hc hs) hk

theorem does_quietly {α : Type} {p : Act α} {k : α → Act Outcome} (hp : Quietly p)
    (hk : ∀ a w', Does T s w' (k a)) : Does T s w (p >>= k) := by
  induction p generalizing w with
  | ret a => exact hk a w
  | call c f ih =>
    obtain ⟨hc, hf⟩ := hp
    exact does_quiet hc fun x w' => ih x (hf x)

theorem does_yielding {α : Type} {p : Act α} {P : α → Prop} {k : α → Act Outcome}
    (hp : Quietly p) (hy : p.Yields P) (hk : ∀ a w', P a → Does T s w' (k a)) :
    Does T s w (p >>= k) := by
  induction p generalizing w with
  | ret a => exact hk a w hy
  | call c f ih => exact does_quiet hp.1 fun x w' => ih x (hp.2 x) (hy x)

theorem does_thenDo {p : Act Outcome} {f : Session → Act Outcome} (hp : Does T s w p)
    (hf : ∀ s' w', Does T s' w' (f s')) : Does T s w (thenDo p f) := by
  refine fun hr => (desk.wp_bind p _ _ w).mpr (desk.wp_mono (hp hr) fun o w' h => ?_)
  cases o with
  | done s' => exact desk.wp_mono (hf s' w' h.1) fun _ _ h' => ⟨h'.1, h.2.trans h'.2⟩
  | threw s' => exact h

theorem does_ite {c : Prop} [Decidable c] {p q : Act Outcome} (hp : c → Does T s w p)
    (hq : ¬ c → Does T s w q) : Does T s w (if c then p else q) := by
  split
  · rename_i hc; exact hp hc
  · rename_i hc; exact hq hc

end Rules

/-! ## Emitting work and difficulties -/

section Emission

variable {T : Turn} {s s' : Session} {w : World}

theorem does_emitJob {job : MiningJob} {forceClean : Bool} (may : T.Emits)
    (latest : w.strat.jobs.latest = some job) :
    Does T s w (emitJob T.env s job forceClean) := by
  unfold emitJob
  split
  · split
    · exact does_threw
    · exact does_quiet trivial fun _ _ => does_done
    · exact does_quiet trivial fun _ _ => does_tidy rfl
  · exact does_call (fun _ => s) (fun _ _ _ hs => .emit may latest hs) fun _ _ => does_done

theorem does_emitLatest {forceClean : Bool} (may : T.Emits) :
    Does T s w (emitLatest T.env s forceClean) := by
  refine fun hr => ⟨trivial, fun x w' hs => ?_⟩
  have hr' : w'.readings = T.readings := hs.readings.trans hr
  have hq : Effect T ⟨s, w⟩ ⟨s, w'⟩ := .quiet (show Quiet .latestJob from trivial) hs
  obtain ⟨hx, hst⟩ := hs.strat
  cases x with
  | none => exact ⟨hr', .single hq⟩
  | some job =>
    have latest : w'.strat.jobs.latest = some job := by rw [hst]; exact hx.symm
    exact desk.wp_mono (does_emitJob may latest hr') fun _ _ h => ⟨h.1, .head hq h.2⟩

theorem does_sendSetDifficulty {d : ℚ} {old : Option ℚ} (why : Advert T s'.vardiff d old)
    (same : diffless s' = diffless s) (may : s'.authorized = true → T.Emits) :
    Does T s w (sendSetDifficulty T.env s' d old) := by
  unfold sendSetDifficulty
  refine does_quiet trivial fun now w => ?_
  refine does_call (fun _ => s'.advertised (old.getD d) now)
    (fun _ _ _ hs => .advertise why same hs) fun _ w => ?_
  refine does_quietly (quietly_whenDo (quietly_ask trivial)) fun _ w => ?_
  exact does_ite (fun ha => does_emitLatest (may ha)) fun _ => does_done

end Emission

/-! ## The small requests -/

section Requests

variable {T : Turn} {w : World} {msg : Json}

theorem does_handleConfigure {s : Session} : Does T s w (handleConfigure T.env s msg) :=
  does_quiet trivial fun _ _ => does_tidy rfl

theorem core_withUserAgent (s : Session) (msg : Json) : core (withUserAgent s msg) = core s := by
  unfold withUserAgent
  split <;> rfl

theorem authorized_withUserAgent (s : Session) (msg : Json) :
    (withUserAgent s msg).authorized = s.authorized := by
  unfold withUserAgent
  split <;> rfl

theorem does_handleSubscribe (line : T.task = .line (some msg))
    (calls : Calls msg "mining.subscribe") :
    Does T T.session w (handleSubscribe T.env T.session msg) := by
  unfold handleSubscribe
  refine does_ite (fun _ => ?_) fun _ => ?_
  · exact does_quiet trivial fun _ _ => does_tidy (core_withUserAgent T.session msg)
  · refine does_quiet trivial fun _ w => ?_
    refine Does.tidy (t := subscribe T.env (withUserAgent T.session msg))
      (core_withUserAgent T.session msg) ?_
    have may : (subscribe T.env (withUserAgent T.session msg)).authorized = true → T.Emits := by
      intro ha
      have ha' : T.session.authorized = true := by
        rw [← authorized_withUserAgent T.session msg]; exact ha
      simp only [Turn.Emits, line]
      exact .inr ⟨ha', .inl calls⟩
    have hv := congrArg Session.vardiff (core_withUserAgent T.session msg)
    have why : Advert T (subscribe T.env (withUserAgent T.session msg)).vardiff
        (subscribe T.env (withUserAgent T.session msg)).vardiff.current none := by
      rw [show (subscribe T.env (withUserAgent T.session msg)).vardiff = T.session.vardiff from hv]
      exact .current line calls
    refine does_thenDo (does_sendSetDifficulty why rfl may) fun s w => ?_
    exact does_quietly (quietly_whenDo (quietly_ask trivial)) fun _ _ => does_done

theorem does_handleSuggestDifficulty (line : T.task = .line (some msg))
    (calls : Calls msg "mining.suggest_difficulty") :
    Does T T.session w (handleSuggestDifficulty T.env T.session msg) := by
  refine does_thenDo ?_ fun s w => does_quiet trivial fun _ _ => does_done
  cases hd : suggestedDiff T.env msg with
  | none => exact does_done
  | some d =>
    refine does_sendSetDifficulty (.suggested line calls hd) rfl fun ha => ?_
    simp only [Turn.Emits, line]
    exact .inr ⟨ha, .inr (.inl ⟨calls, by simp [hd]⟩)⟩

theorem does_handleExtranonceSubscribe (line : T.task = .line (some msg))
    (calls : Calls msg "mining.extranonce.subscribe") {s : Session} :
    Does T s w (handleExtranonceSubscribe T.env s msg) := by
  have may : T.Emits := by
    simp only [Turn.Emits, line]
    exact .inl calls
  refine does_quiet trivial fun _ w => ?_
  exact Does.tidy (t := { s with extranonceSubscribed := true }) rfl (does_emitLatest may)

/-! ## Authorization -/

theorem does_handleAuthorize {s : Session} : Does T s w (handleAuthorize T.env s msg) := by
  have fail (reason : Str) : ∀ w, Does T s w (do
      ask (.send (.authError (safeIdJson T.env.fmtDouble msg) reason))
      return .done s) := fun w => does_quiet trivial fun _ _ => does_done
  unfold handleAuthorize
  split
  · refine does_ite (fun _ => fail _ w) fun _ => ?_
    split
    · exact fail _ w
    · refine does_quiet trivial fun bl w => ?_
      refine does_ite (fun _ => fail _ w) fun _ => does_ite (fun _ => fail _ w) fun _ =>
        does_ite (fun _ => fail _ w) fun _ => ?_
      exact does_quiet trivial fun _ _ => does_done
  · exact fail _ w

theorem does_finishAuth {s : Session} {idJson : Str} (may : T.Emits) :
    Does T s w (finishAuth T.env s idJson) := by
  refine does_quiet trivial fun _ w => does_quiet trivial fun minerId w => ?_
  exact Does.tidy (t := { s with minerId := minerId, authorized := true }) rfl
    (does_emitLatest may)

theorem advert_custom {s : Session} {req : AuthRequest} {d : ℚ} (auth : T.authorizes = some req)
    (h : req.customDiff = some d) (hv : s.vardiff = T.session.vardiff) :
    Advert T (withCustomDiff (withPayout T.env s req) d).vardiff d none := by
  show Advert T (s.vardiff.setCurrent d) d none
  rw [hv]
  exact .custom auth h

theorem does_proceedAuth {s : Session} {req : AuthRequest} (auth : T.authorizes = some req)
    (may : T.Emits) (hv : s.vardiff = T.session.vardiff) :
    Does T s w (proceedAuth T.env s req) := by
  refine Does.after (t := withPayout T.env s req) (.payout auth) ?_
  refine does_thenDo ?_ fun s w => does_finishAuth may
  cases hd : req.customDiff with
  | none => exact does_done
  | some d => exact does_sendSetDifficulty (advert_custom auth hd hv) rfl fun _ => may

theorem does_onPayoutValidated {req : AuthRequest} {error : Option Str} {valid : Bool}
    (task : T.task = .validated (.payout req) error valid) :
    Does T T.session w (onPayoutValidated T.env T.session req error valid) := by
  unfold onPayoutValidated
  refine does_ite (fun _ => does_done) fun hopen => does_ite (fun _ => ?_) fun hok => ?_
  · exact does_quiet trivial fun _ _ => does_done
  · refine does_ite (fun hdoge => ?_) fun hdoge => ?_
    · have haddr : req.auxDogeAddress ≠ [] := by
        intro h
        simp [h] at hdoge
      exact does_quiet (c := .validateAddress (.doge req)) haddr fun _ _ => does_done
    have auth : T.authorizes = some req := by
      obtain ⟨rfl, rfl⟩ : error = none ∧ valid = true := by simpa using hok
      simp [Turn.authorizes, task, hopen, hdoge]
    have may : T.Emits := by simp [Turn.Emits, task, auth]
    refine does_ite (fun hpay => ?_) fun _ => does_proceedAuth auth may rfl
    split
    · refine Does.after (.doge auth T.env.coin.aux.payoutAddress _ ?_)
        (does_proceedAuth auth may rfl)
      intro h
      simp [h] at hpay
    · exact does_proceedAuth auth may rfl

theorem does_onDogeValidated {req : AuthRequest} {error : Option Str} {valid : Bool}
    (task : T.task = .validated (.doge req) error valid) (haddr : req.auxDogeAddress ≠ []) :
    Does T T.session w (onDogeValidated T.env T.session req error valid) := by
  unfold onDogeValidated
  refine does_ite (fun _ => does_done) fun hopen => does_ite (fun _ => ?_) fun hok => ?_
  · exact does_quiet trivial fun _ _ => does_done
  · have auth : T.authorizes = some req := by
      obtain ⟨rfl, rfl⟩ : error = none ∧ valid = true := by simpa using hok
      simp [Turn.authorizes, task, hopen]
    have may : T.Emits := by simp [Turn.Emits, task, auth]
    exact Does.after (.doge auth req.auxDogeAddress _ haddr) (does_proceedAuth auth may rfl)

end Requests

/-! ## Shares -/

theorem quietly_rttAllows {env : Env} {job : MiningJob} {hash : Hash256} :
    Quietly (rttAllows env job hash) := by
  unfold rttAllows
  split
  · exact Prog.All.bind (quietly_ask (c := .nowUnix) trivial) fun _ => trivial
  · exact trivial

theorem quietly_submitBlockCandidate {env : Env} {s : Session} {sh : Share} :
    Quietly (submitBlockCandidate env s sh) := by
  refine quietly_rttAllows.bind fun allowed => ?_
  split
  · exact quietly_ask trivial
  · exact quietly_ask trivial

theorem quietly_graceTarget {env : Env} {s : Session} {shareDiff : ℚ} :
    Quietly (graceTarget env s shareDiff) := by
  unfold graceTarget
  split
  · refine Prog.All.bind (quietly_ask (c := .steadyNow) trivial) fun now => ?_
    split <;> exact trivial
  · exact trivial

/-- A share that fails against the difficulty it is held to fails against the
current one: the previous one is chosen for shares that meet it. -/
theorem graceTarget_yields {env : Env} {s : Session} {shareDiff : ℚ} :
    (graceTarget env s shareDiff).Yields fun target =>
      shareDiff < target * tolerance env → shareDiff < s.vardiff.current * tolerance env := by
  unfold graceTarget
  split
  · refine Prog.Yields.perform_bind fun now => ?_
    split
    · rename_i hgrace
      exact fun hlow => absurd hgrace.2 (not_le.mpr hlow)
    · exact id
  · exact id

theorem quietly_persistShare {s : Session} {rec : ShareRecord} : Quietly (persistShare s rec) :=
  quietly_whenDo (quietly_ask trivial)

section Shares

variable {T : Turn} {s : Session} {w : World} {sh : Share} {idJson : Str}

theorem does_reject {reason : Str} {code : Nat} : Does T s w (reject s idJson reason code) := by
  refine does_quiet trivial fun _ w => does_quiet trivial fun ban w => ?_
  cases ban <;> exact does_tidy rfl

theorem does_maybeSubmitAuxBlock : Does T s w (maybeSubmitAuxBlock T.env s sh) := by
  unfold maybeSubmitAuxBlock
  split
  · exact does_done
  · rename_i saj hsaj
    split
    · refine does_ite (fun _ => does_done) fun _ => does_ite (fun _ => does_done) fun hnew => ?_
      exact does_call (fun _ => withDogeSubmitted s saj.dogeBlockHash)
        (fun _ _ _ hs => .auxBlock hsaj hnew hs) fun _ _ => does_done
    · exact does_threw

theorem does_staleShare : Does T s w (staleShare T.env s idJson sh) := by
  refine does_quiet trivial fun _ w => does_quiet trivial fun first w => ?_
  refine does_thenDo ?_ fun s w => does_quiet trivial fun _ _ => does_tidy rfl
  refine does_ite (fun _ => ?_) fun _ => does_done
  exact does_quietly (quietly_whenDo quietly_submitBlockCandidate) fun _ _ =>
    does_maybeSubmitAuxBlock

theorem does_lowDiffShare (low : sh.diff T.env < s.vardiff.current * tolerance T.env) :
    Does T s w (lowDiffShare T.env s idJson sh) := by
  refine does_call (fun _ => s) (fun _ _ _ hs => .tooEasy low hs) fun _ w => ?_
  exact does_quietly (quietly_whenDo quietly_submitBlockCandidate) fun _ _ => does_reject

theorem does_vardiffTick {msg : Json} {targetDiff : ℚ} (line : T.task = .line (some msg))
    (calls : Calls msg "mining.submit") (hauth : T.session.authorized = true)
    (hv : s.vardiff = T.session.vardiff)
    (hc : s.hasCustomDifficulty = T.session.hasCustomDifficulty) :
    Does T s w (vardiffTick T.env s sh targetDiff) := by
  unfold vardiffTick
  refine does_ite (fun hon => ?_) fun _ => does_done
  obtain ⟨on, free⟩ : T.env.coin.activeTier.vardiffEnabled = true ∧
      s.hasCustomDifficulty = false := by simpa using hon
  refine fun hr => ⟨trivial, fun now w' hs => ?_⟩
  have hr' : w'.readings = T.readings := hs.readings.trans hr
  have clock : now ∈ T.readings := by rw [← hr]; exact hs.gives
  have hq : Effect T ⟨s, w⟩ ⟨s, w'⟩ := .quiet (show Quiet .steadyNow from trivial) hs
  have later {p : Act Outcome} (rest : Does T s w' p) : desk.wp p (fun o w' =>
      w'.readings = T.readings ∧ EffectRun T ⟨s, w⟩ ⟨o.session, w'⟩) w' :=
    desk.wp_mono (rest hr') fun _ _ h => ⟨h.1, .head hq h.2⟩
  refine later ?_
  dsimp only [Prog.bind]
  split
  · rename_i nd hnd
    have why : Advert T (s.vardiff.onShare T.env.exp now targetDiff
        (difficultyOf T.env.coin.chain sh.netTarget)).1 nd (some s.vardiff.current) := by
      rw [hv] at hnd ⊢
      exact .retarget line calls on (hc ▸ free) clock (Prod.ext rfl hnd)
    refine does_sendSetDifficulty why rfl ?_
    intro _
    simp only [Turn.Emits, line]
    refine .inr ⟨hauth, .inr (.inr ⟨calls, on, hc ▸ free, now, clock, targetDiff,
      sh.netTarget, ?_⟩)⟩
    rw [← hv, hnd]
    simp
  · rename_i hnd
    exact Does.after (.observe hv (Prod.ext rfl hnd)) does_done

theorem does_finishFresh {targetDiff : ℚ} : Does T s w (finishFresh T.env s sh targetDiff) := by
  refine does_quietly quietly_persistShare fun _ w => ?_
  refine does_thenDo does_maybeSubmitAuxBlock fun s w => ?_
  exact does_quietly (quietly_whenDo quietly_submitBlockCandidate) fun _ _ => does_done

theorem does_freshShare {msg : Json} {targetDiff : ℚ} (line : T.task = .line (some msg))
    (calls : Calls msg "mining.submit") (hauth : T.session.authorized = true) :
    Does T T.session w (freshShare T.env T.session idJson sh targetDiff) := by
  refine does_quiet trivial fun _ w => does_quiet trivial fun first w => ?_
  refine does_ite (fun _ => does_quiet trivial fun _ _ => does_tidy rfl) fun _ => ?_
  refine does_quiet trivial fun _ w => ?_
  refine does_quiet trivial fun _ w => does_quiet trivial fun _ w => ?_
  refine Does.tidy (t := T.session.countAccept) rfl ?_
  refine does_quiet trivial fun _ w => ?_
  exact does_thenDo (does_vardiffTick line calls hauth rfl rfl) fun s w => does_finishFresh

theorem does_scoreShare {msg : Json} (line : T.task = .line (some msg))
    (calls : Calls msg "mining.submit") (hauth : T.session.authorized = true) :
    Does T T.session w (scoreShare T.env T.session idJson sh) :=
  does_yielding quietly_graceTarget graceTarget_yields fun _ _ hlow =>
    does_ite (fun h => does_lowDiffShare (hlow h)) fun _ => does_freshShare line calls hauth

theorem does_submitOnJob {msg : Json} {sub : Submission} {job : MiningJob}
    (line : T.task = .line (some msg)) (calls : Calls msg "mining.submit")
    (hauth : T.session.authorized = true) :
    Does T T.session w (submitOnJob T.env T.session idJson sub job) := by
  refine does_quiet trivial fun curPrev w => ?_
  dsimp only
  split
  · exact does_reject
  · refine does_quiet trivial fun now w => does_ite (fun _ => does_reject) fun _ => ?_
    split
    · exact does_reject
    · split
      · exact does_threw
      · exact does_reject
      · exact does_ite (fun _ => does_staleShare) fun _ => does_scoreShare line calls hauth

theorem does_handleSubmit {msg : Json} (line : T.task = .line (some msg))
    (calls : Calls msg "mining.submit") :
    Does T T.session w (handleSubmit T.env T.session msg) := by
  unfold handleSubmit
  refine does_ite (fun _ => does_reject) fun hauth => ?_
  split
  · exact does_reject
  · refine does_ite (fun _ => does_reject) fun _ => does_quiet trivial fun job w => ?_
    cases job with
    | none => exact does_reject
    | some job => exact does_submitOnJob line calls (by simpa using hauth)

end Shares

/-! ## Tasks -/

section Tasks

variable {T : Turn} {w : World}

theorem does_dispatch {method : Str} {msg : Json} (line : T.task = .line (some msg))
    (calls : (msg.find? "method".toList).bind Json.getString? = some method) :
    Does T T.session w (dispatch T.env T.session method msg) := by
  have is {m : String} (h : method = m.toList) : Calls msg m := by rw [Calls, calls, h]
  unfold dispatch
  refine does_ite (fun _ => does_handleConfigure) fun _ => ?_
  refine does_ite (fun h => does_handleSubscribe line (is h)) fun _ => ?_
  refine does_ite (fun _ => does_handleAuthorize) fun _ => ?_
  refine does_ite (fun h => does_handleSubmit line (is h)) fun _ => ?_
  refine does_ite (fun h => does_handleSuggestDifficulty line (is h)) fun _ => ?_
  refine does_ite (fun h => does_handleExtranonceSubscribe line (is h)) fun _ => ?_
  exact does_quiet trivial fun _ _ => does_done

theorem does_processLine {line : Option Json} (task : T.task = .line line) :
    Does T T.session w (processLine T.env T.session line) := by
  unfold processLine
  split
  · exact does_quiet trivial fun _ _ => does_done
  · split
    · exact does_quiet trivial fun _ _ => does_done
    · rename_i msg _ method hm
      refine fun hr => (desk.wp_bind _ _ _ w).mpr
        (desk.wp_mono (does_dispatch task hm hr) fun o w' h => ?_)
      cases o with
      | done s => exact h
      | threw s =>
        have reply : Does T s w' (do
            ask (.send (.malformedRequest (safeIdJson T.env.fmtDouble msg)))
            return .done s) := does_quiet trivial fun _ _ => does_done
        exact desk.wp_mono (reply h.1) fun _ _ h' => ⟨h'.1, h.2.trans h'.2⟩

/-- **What a task of a V1 session can do.** A task that is not a notification
is a sequence of effects. -/
theorem task_effects {w' : World} {o : Outcome} (hv : T.session.isV2 = false)
    (offered : Task.Offered ⟨T.session, w⟩ T.task)
    (doge : ∀ req error valid, T.task = .validated (.doge req) error valid →
      req.auxDogeAddress ≠ [])
    (hr : w.readings = T.readings)
    (run : desk.Exec (T.task.prog T.env T.session) w o w') :
    EffectRun T ⟨T.session, w⟩ ⟨o.session, w'⟩ := by
  suffices h : Does T T.session w (T.task.prog T.env T.session) from (run.wp desk (h hr)).2
  cases ht : T.task with
  | line l => exact does_processLine ht
  | message m =>
    rw [ht] at offered
    exact absurd (hv.symm.trans offered) (by simp)
  | notify job =>
    rw [ht] at offered
    exact offered.elim
  | validated v error valid =>
    cases v with
    | payout req => exact does_onPayoutValidated ht
    | doge req => exact does_onDogeValidated ht (doge req error valid ht)
    | payoutV2 addr =>
      refine does_ite (fun _ => does_done) fun _ => does_ite (fun _ => ?_) fun _ => does_done
      exact does_tidy rfl
  | resetShareCounters => exact does_tidy rfl
  | disconnect => exact does_tidy rfl

end Tasks

/-! ## What effects leave alone -/

theorem offWork_of_quiet {c : Call} (h : Quiet c) : OffWork c := by
  cases c <;> first | exact h.elim | trivial

/-- The window, the pushed jobs and the queue are as before. -/
structure Still (w w' : World) : Prop where
  jobs : w'.strat.jobs = w.strat.jobs
  pushed : pushed w' = pushed w
  posted : w'.posted = w.posted

theorem Still.refl (w : World) : Still w w := ⟨rfl, rfl, rfl⟩

theorem Still.trans {u v w : World} (h : Still u v) (h' : Still v w) : Still u w :=
  ⟨h'.jobs.trans h.jobs, h'.pushed.trans h.pushed, h'.posted.trans h.posted⟩

theorem still_of_call {c : Call} {w w' : World} {x : Answer c} (h : DeskCall c w x w')
    (hc : OffWork c) : Still w w' :=
  ⟨jobs_offWork h hc, pushed_offWork h hc, posted_offWork h hc⟩

theorem Shelved.still {env : Env} {w w' : World} (h : Shelved env w) (hs : Still w w') :
    Shelved env w' :=
  h.transfer hs.jobs hs.pushed (hs.posted ▸ .refl _)

theorem Effect.still {T : Turn} {a b : DeskState} (h : Effect T a b) :
    Still a.world b.world := by
  cases h with
  | quiet hc hs => exact still_of_call hs (offWork_of_quiet hc)
  | emit _ _ hs => exact still_of_call hs trivial
  | advertise _ _ hs => exact still_of_call hs trivial
  | tooEasy _ hs => exact still_of_call hs trivial
  | auxBlock _ _ hs => exact still_of_call hs trivial
  | tidy | observe | payout | doge => exact .refl _

theorem EffectRun.still {T : Turn} {a b : DeskState} (h : EffectRun T a b) :
    Still a.world b.world := by
  induction h with
  | refl => exact .refl _
  | tail _ he ih => exact ih.trans he.still

/-- The aux work stays, and the address it is for is never emptied. -/
theorem Effect.keepsAux {T : Turn} {a b : DeskState} (he : Effect T a b) :
    b.session.sessionAuxJobs = a.session.sessionAuxJobs ∧
      (a.session.auxDogeAddress ≠ [] → b.session.auxDogeAddress ≠ []) := by
  cases he with
  | @tidy s s' w hcore =>
    have hmap := congrArg Session.sessionAuxJobs hcore
    have haddr := congrArg Session.auxDogeAddress hcore
    exact ⟨hmap, fun hne he => hne (haddr.symm.trans he)⟩
  | @advertise s s' w w' d now old _ same hs =>
    have hmap := congrArg Session.sessionAuxJobs same
    have haddr := congrArg Session.auxDogeAddress same
    exact ⟨hmap, fun hne he => hne (haddr.symm.trans he)⟩
  | doge _ addr script haddr => exact ⟨rfl, fun _ => haddr⟩
  | quiet | emit | observe | tooEasy | auxBlock | payout => exact ⟨rfl, id⟩

theorem EffectRun.keepsAux {T : Turn} {a b : DeskState} (he : EffectRun T a b) :
    b.session.sessionAuxJobs = a.session.sessionAuxJobs ∧
      (a.session.auxDogeAddress ≠ [] → b.session.auxDogeAddress ≠ []) := by
  induction he with
  | refl => exact ⟨rfl, id⟩
  | tail _ he ih => exact ⟨he.keepsAux.1.trans ih.1, fun hne => he.keepsAux.2 (ih.2 hne)⟩

/-! ## Notifications -/

/-- **What the posted half of `notifyNewJob` does.** Nothing, a notify with the
session's own commitment, which is kept, or the job as it is. -/
theorem notify_cases {env : Env} {s : Session} {job : MiningJob} {w w' : World} {o : Outcome}
    (hv : s.isV2 = false) (run : desk.Exec (notifyNewJob env s job) w o w') :
    o.session = s ∧ w' = w ∨
      (∃ aux, s.auxDogeAddress ≠ [] ∧ job.auxEnabled = true ∧ env.hasAux = true ∧
        buildSessionAux env s.dogeScriptHex job = some (some aux) ∧
        o.session = withAuxJob s job.jobId aux ∧
        DeskCall (.send (.notify (notifyOf env (withAuxJob s job.jobId aux) job
          (customPrefix job aux) false))) w () w') ∨
      ((s.auxDogeAddress ≠ [] → job.auxEnabled = true → env.hasAux = true →
        ∀ aux, buildSessionAux env s.dogeScriptHex job ≠ some (some aux)) ∧
        desk.Exec (emitJob env s job) w o w') := by
  have plain : notifyPlain env s job = emitJob env s job := by
    unfold notifyPlain
    rw [if_neg (by simp [hv])]
  unfold notifyNewJob at run
  split at run
  · obtain ⟨rfl, rfl⟩ := run.ret_inv
    exact .inl ⟨rfl, rfl⟩
  · split at run
    · rename_i haux
      simp only [Bool.and_eq_true, Bool.not_eq_true', List.isEmpty_eq_false_iff] at haux
      split at run
      · obtain ⟨rfl, rfl⟩ := run.ret_inv
        exact .inl ⟨rfl, rfl⟩
      · rename_i hbuild
        exact .inr (.inr ⟨fun _ _ _ aux => by simp [hbuild], plain ▸ run⟩)
      · rename_i aux hbuild
        obtain ⟨_, w₁, hs, run⟩ := run.call_inv
        obtain ⟨rfl, rfl⟩ := run.ret_inv
        exact .inr (.inl ⟨aux, haux.1.2, haux.1.1, haux.2, hbuild, rfl, hs⟩)
    · rename_i haux
      refine .inr (.inr ⟨fun haddr hjob hclient => ?_, plain ▸ run⟩)
      exact absurd (by simp [haddr, hjob, hclient]) haux

/-- On a Bitcoin-family chain `emit_job` is one notify. -/
theorem emitJob_cases {env : Env} {s : Session} {job : MiningJob} {forceClean : Bool}
    {w w' : World} {o : Outcome} (hchain : env.coin.chain ≠ .zcash)
    (run : desk.Exec (emitJob env s job forceClean) w o w') :
    o = .done s ∧
      DeskCall (.send (.notify (notifyOf env s job job.notifyPrefix forceClean))) w () w' := by
  unfold emitJob at run
  rw [if_neg hchain] at run
  obtain ⟨_, w₁, hs, run⟩ := run.call_inv
  obtain ⟨rfl, rfl⟩ := run.ret_inv
  exact ⟨rfl, hs⟩

/-- On any chain it sends one line at most, which is work, and keeps the core
of the session. -/
theorem emitJob_line {env : Env} {s : Session} {job : MiningJob} {forceClean : Bool}
    {w w' : World} {o : Outcome} (run : desk.Exec (emitJob env s job forceClean) w o w') :
    core o.session = core s ∧
      (w' = w ∨ ∃ line, (∀ d, line ≠ .setDifficulty d) ∧ DeskCall (.send line) w () w') := by
  unfold emitJob at run
  split at run
  · split at run
    · obtain ⟨rfl, rfl⟩ := run.ret_inv
      exact ⟨rfl, .inl rfl⟩
    all_goals
      obtain ⟨_, w₁, hs, run⟩ := run.call_inv
      obtain ⟨rfl, rfl⟩ := run.ret_inv
      exact ⟨rfl, .inr ⟨_, by simp, hs⟩⟩
  · obtain ⟨_, w₁, hs, run⟩ := run.call_inv
    obtain ⟨rfl, rfl⟩ := run.ret_inv
    exact ⟨rfl, .inr ⟨_, by simp, hs⟩⟩

theorem emitLatest_done {env : Env} {s : Session} {forceClean : Bool} {w w' : World}
    {o : Outcome} (hchain : env.coin.chain ≠ .zcash)
    (run : desk.Exec (emitLatest env s forceClean) w o w') : o = .done s := by
  obtain ⟨x, w₁, _, run⟩ := run.call_inv
  cases x with
  | none => exact run.ret_inv.1
  | some job => exact (emitJob_cases hchain run).1

/-- On a Bitcoin-family chain an advertised difficulty throws nothing. -/
theorem sendSetDifficulty_done {env : Env} {s : Session} {d : ℚ} {old : Option ℚ} {w w' : World}
    {o : Outcome} (hchain : env.coin.chain ≠ .zcash)
    (run : desk.Exec (sendSetDifficulty env s d old) w o w') : ∃ s', o = .done s' := by
  unfold sendSetDifficulty at run
  obtain ⟨now, w₁, _, run⟩ := run.perform_inv
  obtain ⟨_, w₂, _, run⟩ := run.perform_inv
  obtain ⟨_, w₃, _, run⟩ := run.bind_inv
  split at run
  · exact ⟨_, emitLatest_done hchain run⟩
  · exact ⟨_, run.ret_inv.1⟩

/-- The task that completes an authorization goes on with `proceed_auth`. -/
theorem authorizes_run {T : Turn} {req : AuthRequest} {w w' : World} {o : Outcome}
    (auth : T.authorizes = some req)
    (doge : ∀ req error valid, T.task = .validated (.doge req) error valid →
      req.auxDogeAddress ≠ [])
    (run : desk.Exec (T.task.prog T.env T.session) w o w') :
    ∃ s, EffectRun T ⟨T.session, w⟩ ⟨s, w⟩ ∧ s.vardiff = T.session.vardiff ∧
      desk.Exec (proceedAuth T.env s req) w o w' := by
  have hauth := auth
  unfold Turn.authorizes at auth
  split at auth
  · rename_i r ht
    rw [ht] at run
    replace run : desk.Exec (onPayoutValidated T.env T.session r none true) w o w' := run
    unfold onPayoutValidated at run
    split at auth
    · cases auth
    · rename_i hopen
      split at auth
      · cases auth
      · rename_i haux
        cases auth
        rw [if_neg hopen, if_neg (by simp), if_neg haux] at run
        split at run
        · rename_i hpay
          split at run
          · refine ⟨_, .single (.doge hauth T.env.coin.aux.payoutAddress _ ?_), rfl, run⟩
            intro hnil
            simp [hnil] at hpay
          · exact ⟨_, .refl, rfl, run⟩
        · exact ⟨_, .refl, rfl, run⟩
  · rename_i r ht
    have haddr := doge _ _ _ ht
    rw [ht] at run
    replace run : desk.Exec (onDogeValidated T.env T.session r none true) w o w' := run
    unfold onDogeValidated at run
    split at auth
    · cases auth
    · rename_i hopen
      cases auth
      rw [if_neg hopen, if_neg (by simp)] at run
      exact ⟨_, .single (.doge hauth req.auxDogeAddress _ haddr), rfl, run⟩
  · cases auth

/-- `proceed_auth` ends with its last step, after effects of the turn. -/
theorem proceedAuth_run {T : Turn} {s : Session} {req : AuthRequest} {w w' : World} {o : Outcome}
    (auth : T.authorizes = some req) (may : T.Emits) (hchain : T.env.coin.chain ≠ .zcash)
    (hv : s.vardiff = T.session.vardiff) (hr : w.readings = T.readings) (run : desk.Exec (proceedAuth T.env s req) w o w') :
    ∃ s₁ w₁, EffectRun T ⟨s, w⟩ ⟨s₁, w₁⟩ ∧
      desk.Exec (finishAuth T.env s₁ req.idJson) w₁ o w' := by
  have hpay : Effect T ⟨s, w⟩ ⟨withPayout T.env s req, w⟩ := .payout auth
  cases hd : req.customDiff with
  | none =>
    have hrun : proceedAuth T.env s req = finishAuth T.env (withPayout T.env s req) req.idJson := by
      simp only [proceedAuth, thenDo, hd, Prog.pure_eq, Prog.ret_bind]
    exact ⟨_, _, .single hpay, hrun ▸ run⟩
  | some d =>
    have does := does_sendSetDifficulty (s := withPayout T.env s req) (w := w)
      (advert_custom auth hd hv) rfl fun _ => may
    simp only [proceedAuth, hd] at run
    rcases thenDo_inv run with ⟨s₁, w₁, hadv, hfin⟩ | ⟨s₁, rfl, hadv⟩
    · exact ⟨s₁, w₁, .head hpay (hadv.wp desk (does hr)).2, hfin⟩
    · obtain ⟨s', hs'⟩ := sendSetDifficulty_done hchain hadv
      cases hs'

/-! ## Runs of a V1 session -/

/-- Every Dogecoin address whose check was asked for is there. -/
def DogeAsked (w : World) : Prop :=
  ∀ req, (⟨.validateAddress (.doge req), ()⟩ : Event) ∈ w.log → req.auxDogeAddress ≠ []

theorem DogeAsked.quiet {c : Call} {w w' : World} {x : Answer c} (h : DogeAsked w) (hc : Quiet c)
    (hs : DeskCall c w x w') : DogeAsked w' := by
  intro req hm
  rw [hs.log] at hm
  rcases List.mem_cons.mp hm with he | hm
  · obtain ⟨rfl, _⟩ := Sigma.mk.inj he
    exact hc
  · exact h req hm

theorem DogeAsked.call {c : Call} {w w' : World} {x : Answer c} (h : DogeAsked w)
    (hc : ∀ req, c ≠ .validateAddress (.doge req)) (hs : DeskCall c w x w') : DogeAsked w' := by
  intro req hm
  rw [hs.log] at hm
  rcases List.mem_cons.mp hm with he | hm
  · exact absurd (Sigma.mk.inj he).1.symm (hc req)
  · exact h req hm

theorem Effect.dogeAsked {T : Turn} {a b : DeskState} (he : Effect T a b)
    (h : DogeAsked a.world) : DogeAsked b.world := by
  cases he with
  | quiet hc hs => exact h.quiet hc hs
  | emit _ _ hs => exact h.call (by simp) hs
  | advertise _ _ hs => exact h.call (by simp) hs
  | tooEasy _ hs => exact h.call (by simp) hs
  | auxBlock _ _ hs => exact h.call (by simp) hs
  | tidy | observe | payout | doge => exact h

theorem Effect.isV2 {T : Turn} {a b : DeskState} (he : Effect T a b) :
    b.session.isV2 = a.session.isV2 := by
  cases he with
  | tidy h =>
    have hcore := congrArg Session.isV2 h
    exact hcore
  | advertise _ same _ =>
    have hcore := congrArg Session.isV2 same
    exact hcore
  | quiet | emit | observe | tooEasy | auxBlock | payout | doge => rfl

/-- What all V1 runs keep: the session is a V1 session. -/
structure IsV1 (d : DeskState) : Prop where
  v1 : d.session.isV2 = false
  asked : DogeAsked d.world

theorem EffectRun.isV1 {T : Turn} {a b : DeskState} (he : EffectRun T a b) (h : IsV1 a) :
    IsV1 b := by
  induction he with
  | refl => exact h
  | tail _ he ih => exact ⟨he.isV2.trans ih.v1, he.dogeAsked ih.asked⟩

theorem IsV1.doge {s : Session} {w : World} {t : Task} (h : IsV1 ⟨s, w⟩)
    (offered : Task.Offered ⟨s, w⟩ t) (req : AuthRequest) (error : Option Str) (valid : Bool)
    (ht : t = .validated (.doge req) error valid) : req.auxDogeAddress ≠ [] := by
  subst ht
  exact h.asked req offered

theorem IsV1.effects {env : Env} {s : Session} {w w' : World} {t : Task} {readings : Set ℚ}
    {o : Outcome} (h : IsV1 ⟨s, w⟩) (offered : Task.Offered ⟨s, w⟩ t)
    (run : desk.Exec (t.prog env s) { w with readings } o w') :
    EffectRun ⟨env, s, readings, t⟩ ⟨s, { w with readings }⟩ ⟨o.session, w'⟩ := by
  refine task_effects (T := ⟨env, s, readings, t⟩) h.v1 ?_ (h.doge offered) rfl run
  cases t <;> exact offered

theorem IsV1.published {s : Session} {w : World} (h : IsV1 ⟨s, w⟩) (width32 : Bool)
    (job : MiningJob) : IsV1 ⟨s, w.published width32 job⟩ := by
  refine ⟨h.v1, fun req hm => h.asked req ?_⟩
  rcases List.mem_append.mp hm with hm | hm
  · unfold workEvents at hm
    cases hc : job.cleanJobs <;> simp [hc] at hm
  · exact hm

theorem isV1_notify {env : Env} {s : Session} {job : MiningJob} {w w' : World} {o : Outcome}
    (h : IsV1 ⟨s, w⟩) (run : desk.Exec (notifyNewJob env s job) w o w') : IsV1 ⟨o.session, w'⟩ := by
  rcases notify_cases h.v1 run with ⟨ho, rfl⟩ | ⟨aux, _, _, _, _, ho, hs⟩ | ⟨_, run⟩
  · rw [ho]
    exact h
  · rw [ho]
    exact ⟨h.v1, h.asked.call (by simp) hs⟩
  · obtain ⟨hcore, hw⟩ := emitJob_line run
    have hv := congrArg Session.isV2 hcore
    refine ⟨hv.trans h.v1, ?_⟩
    rcases hw with rfl | ⟨line, _, hs⟩
    · exact h.asked
    · exact h.asked.call (by simp) hs

/-- **Invariants of V1 runs.** It is enough to look at what a task's effects
do, at a notification, at a published job and at the shares of others. -/
theorem v1_invariant {env : Env} {ok : DeskState → Input → Prop} {I : DeskState → Prop}
    (init : ∀ d, Initial env false d → I d)
    (idle : ∀ s w nextId, I ⟨s, w⟩ → I ⟨s, { w with nextId }⟩)
    (task : ∀ s w t readings o w', IsV1 ⟨s, w⟩ → Task.Offered ⟨s, w⟩ t → I ⟨s, w⟩ →
      ok ⟨s, w⟩ (.task t readings) → desk.Exec (t.prog env s) { w with readings } o w' →
      I ⟨o.session, w'⟩)
    (notify : ∀ s w job rest o w', IsV1 ⟨s, w⟩ → I ⟨s, w⟩ → ok ⟨s, w⟩ .notify →
      w.posted = job :: rest → desk.Exec (notifyNewJob env s job) { w with posted := rest } o w' →
      I ⟨o.session, w'⟩)
    (work : ∀ s w gbt jobId job, I ⟨s, w⟩ → ok ⟨s, w⟩ (.work gbt jobId) →
      { w with nextId := jobId }.jobOf env gbt = some job →
      I ⟨s, { w with nextId := jobId }.published (env.coin.chain = ChainKind.zcash) job⟩)
    (others : ∀ s w seenShares bestShareRound, I ⟨s, w⟩ →
      I ⟨s, { w with strat := { w.strat with seenShares, bestShareRound } }⟩)
    {d : DeskState} (h : Reach env false ok d) : IsV1 d ∧ I d := by
  refine Reach.invariant (I := fun d => IsV1 d ∧ I d) ?_ ?_ h
  · intro d hd
    refine ⟨?_, init d hd⟩
    obtain ⟨_, _, _, rfl⟩ := hd
    exact ⟨rfl, fun req hm => absurd hm (by simp)⟩
  · intro d i d' hd hok hs
    obtain ⟨hv, hi⟩ := hd
    cases hs with
    | @task s w w' t readings o offered run =>
      exact ⟨(hv.effects offered run).isV1 ⟨hv.v1, hv.asked⟩,
        task s w t readings o w' hv offered hi hok run⟩
    | @notify s w w' job rest o head run =>
      exact ⟨isV1_notify (w := { w with posted := rest }) ⟨hv.v1, hv.asked⟩ run,
        notify s w job rest o w' hv hi hok head run⟩
    | @work s w w' gbt jobId run =>
      have hv' : IsV1 ⟨s, { w with nextId := jobId }⟩ := ⟨hv.v1, hv.asked⟩
      rcases work_cases run with ⟨_, rfl⟩ | ⟨job, hj, rfl⟩
      · exact ⟨hv', idle s w jobId hi⟩
      · exact ⟨hv'.published _ job, work s w gbt jobId job hi hok hj⟩
    | @others s w seenShares bestShareRound =>
      exact ⟨⟨hv.v1, hv.asked⟩, others s w seenShares bestShareRound hi⟩

theorem isV1_reach {env : Env} {ok : DeskState → Input → Prop} {d : DeskState}
    (h : Reach env false ok d) : IsV1 d :=
  (v1_invariant (I := fun _ => True) (by simp) (by simp) (by simp) (by simp) (by simp) (by simp) h).1

end MkPool.Effects
