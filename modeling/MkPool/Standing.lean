import MkPool.Desk

/-! # The standing of a session

Who is authorized, under which name, what is paid, how long an extranonce is and
which version bits may be rolled: the requests that move only difficulties,
counters and kept jobs leave all of it alone, and send nothing about it. -/
namespace MkPool.Standing
open MkPool.Lib.Interaction MkPool.Utils MkPool.Config MkPool.Job MkPool.Coinbase
open MkPool.Stratifier MkPool.Calls MkPool.ClientSession MkPool.JsonValue MkPool.Tasks
open MkPool.Stratum MkPool.Submit MkPool.StratumV2

/-- A session without what the common requests move. -/
def standing (s : Session) : Session :=
  { s with
    zcashJobs := ∅, sessionAuxJobs := ∅, dogeSubmitted := ∅, userAgent := [], subscribed := false,
    extranonceSubscribed := false, vardiff := .new {} 0, lastDifficulty := 0,
    lastDifficultyChangeTs := 0, hasCustomDifficulty := false, customDifficulty := 0,
    sharesAccepted := 0, sharesRejected := 0, closed := false }

/-- A call that grants no version bits, and is no part of an authorization. -/
def Common : Call → Prop
  | .send (.configured ..) | .send (.setVersionMask _) => False
  | .blacklist .. | .validateAddress _ | .ensureMiner .. => False
  | .newJobId _ | .swapPrevhash _ | .clearShares | .resetBestShare => False
  | .pushJob _ | .callbacks _ => False
  | _ => True

/-- The program makes calls of `S` only, and ends with a session that looks as
`s` does. -/
structure Leaves {β : Type} (S : Call → Prop) (view : Session → β) (s : Session)
    (p : Act Outcome) : Prop where
  calls : p.All S
  session : p.Yields fun o => view o.session = view s

/-- The program makes common calls, and leaves the standing of `s`. -/
abbrev Stays (s : Session) (p : Act Outcome) : Prop := Leaves Common standing s p

section Rules

variable {α β γ : Type} {S S' : Call → Prop} {view : Session → β} {view' : Session → γ}
  {s t : Session}

theorem leaves_done (h : view t = view s) : Leaves S view s (.ret (.done t)) := ⟨trivial, h⟩

theorem leaves_threw (h : view t = view s) : Leaves S view s (.ret (.threw t)) := ⟨trivial, h⟩

theorem leaves_ask {c : Call} {k : Answer c → Act Outcome} (hc : S c)
    (hk : ∀ x, Leaves S view s (k x)) : Leaves S view s (ask c >>= k) :=
  ⟨⟨hc, fun x => (hk x).calls⟩, fun x => (hk x).session⟩

theorem leaves_bind {p : Act α} {k : α → Act Outcome} (hp : p.All S)
    (hk : ∀ a, Leaves S view s (k a)) : Leaves S view s (p >>= k) :=
  ⟨hp.bind fun a => (hk a).calls, Prog.Yields.after fun a => (hk a).session⟩

theorem Leaves.trans {p : Act Outcome} (hp : Leaves S view t p) (h : view t = view s) :
    Leaves S view s p :=
  ⟨hp.calls, hp.session.mono fun _ ho => ho.trans h⟩

theorem Leaves.weaken {p : Act Outcome} (hp : Leaves S view s p) (hS : ∀ c, S c → S' c)
    (hview : ∀ a b, view a = view b → view' a = view' b) : Leaves S' view' s p :=
  ⟨hp.calls.mono hS, hp.session.mono fun _ ho => hview _ _ ho⟩

theorem leaves_thenDo {p : Act Outcome} {f : Session → Act Outcome} (hp : Leaves S view s p)
    (hf : ∀ t, view t = view s → Leaves S view s (f t)) : Leaves S view s (thenDo p f) := by
  obtain ⟨hcalls, hy⟩ := hp
  unfold thenDo
  induction p with
  | ret o =>
    cases o with
    | done t => exact hf t hy
    | threw t => exact leaves_threw hy
  | call c k ih => exact leaves_ask hcalls.1 fun x => ih x (hcalls.2 x) (hy x)

theorem leaves_ite {c : Prop} [Decidable c] {p q : Act Outcome} (hp : c → Leaves S view s p)
    (hq : ¬ c → Leaves S view s q) : Leaves S view s (if c then p else q) := by
  by_cases hc : c
  · rw [if_pos hc]
    exact hp hc
  · rw [if_neg hc]
    exact hq hc

end Rules

/-! ## Emission -/

section Emission

variable {env : Env} {s t : Session} {job : MiningJob}

theorem stays_emitJob {forceClean : Bool} : Stays s (emitJob env s job forceClean) := by
  unfold emitJob
  refine leaves_ite (fun _ => ?_) fun _ => leaves_ask trivial fun _ => leaves_done rfl
  split
  · exact leaves_threw rfl
  · exact leaves_ask trivial fun _ => leaves_done rfl
  · exact leaves_ask trivial fun _ => leaves_done rfl

theorem stays_emitLatest {forceClean : Bool} : Stays s (emitLatest env s forceClean) := by
  refine leaves_ask trivial fun x => ?_
  cases x with
  | none => exact leaves_done rfl
  | some job => exact stays_emitJob

theorem stays_sendSetDifficulty {d : ℚ} {old : Option ℚ} :
    Stays s (sendSetDifficulty env s d old) := by
  refine leaves_ask trivial fun now => leaves_ask trivial fun _ => ?_
  refine leaves_bind (all_whenDo ⟨trivial, fun _ => trivial⟩) fun _ => ?_
  exact leaves_ite (fun _ => stays_emitLatest.trans rfl) fun _ => leaves_done rfl

theorem common_sendV2 {msg : Sv2Messages.Reply} : (sendV2 s msg).All Common := by
  unfold sendV2
  split
  · trivial
  · exact ⟨trivial, fun _ => trivial⟩

theorem stays_emitJobV2 : Stays s (emitJobV2 env s job) := by
  unfold emitJobV2
  dsimp only
  split
  · exact leaves_threw rfl
  · refine leaves_bind common_sendV2 fun _ => ?_
    split
    · exact leaves_threw rfl
    · exact leaves_bind common_sendV2 fun _ => leaves_done rfl

theorem stays_notifyNewJob : Stays s (notifyNewJob env s job) := by
  have plain : Stays s (notifyPlain env s job) :=
    leaves_ite (fun _ => stays_emitJobV2) fun _ => stays_emitJob
  refine leaves_ite (fun _ => leaves_done rfl) fun _ => leaves_ite (fun _ => ?_) fun _ => plain
  split
  · exact leaves_threw rfl
  · exact plain
  · exact leaves_ask trivial fun _ => leaves_done rfl

end Emission

/-! ## The small requests -/

section Requests

variable {env : Env} {s : Session} {msg : Json}

theorem stays_handleSuggestDifficulty : Stays s (handleSuggestDifficulty env s msg) := by
  refine leaves_thenDo ?_ fun t ht => leaves_ask trivial fun _ => leaves_done ht
  split
  · exact stays_sendSetDifficulty
  · exact leaves_done rfl

theorem stays_handleExtranonceSubscribe : Stays s (handleExtranonceSubscribe env s msg) :=
  leaves_ask trivial fun _ => stays_emitLatest.trans rfl

end Requests

/-! ## Shares -/

section Shares

variable {env : Env} {s t : Session} {sh : Share} {idJson : Str}

theorem common_rttAllows {job : MiningJob} {hash : Hash256} :
    (rttAllows env job hash).All Common := by
  unfold rttAllows
  split
  · exact ⟨trivial, fun _ => trivial⟩
  · trivial

theorem common_submitBlockCandidate : (submitBlockCandidate env s sh).All Common := by
  refine common_rttAllows.bind fun allowed => ?_
  cases allowed <;> exact ⟨trivial, fun _ => trivial⟩

theorem stays_reject {reason : Str} {code : Nat} : Stays s (reject s idJson reason code) := by
  refine leaves_ask trivial fun _ => leaves_ask trivial fun ban => leaves_done ?_
  cases ban <;> rfl

theorem stays_maybeSubmitAuxBlock : Stays s (maybeSubmitAuxBlock env s sh) := by
  unfold maybeSubmitAuxBlock
  split
  · exact leaves_done rfl
  · split
    · refine leaves_ite (fun _ => leaves_done rfl) fun _ => ?_
      refine leaves_ite (fun _ => leaves_done rfl) fun _ => ?_
      exact leaves_ask trivial fun _ => leaves_done rfl
    · exact leaves_threw rfl

theorem stays_staleShare : Stays s (staleShare env s idJson sh) := by
  refine leaves_ask trivial fun _ => leaves_ask trivial fun first => ?_
  refine leaves_thenDo ?_ fun t ht => leaves_ask trivial fun _ => leaves_done ht
  refine leaves_ite (fun _ => ?_) fun _ => leaves_done rfl
  exact leaves_bind (all_whenDo common_submitBlockCandidate) fun _ => stays_maybeSubmitAuxBlock

theorem stays_lowDiffShare : Stays s (lowDiffShare env s idJson sh) :=
  leaves_ask trivial fun _ =>
    leaves_bind (all_whenDo common_submitBlockCandidate) fun _ => stays_reject

theorem stays_vardiffTick {targetDiff : ℚ} : Stays s (vardiffTick env s sh targetDiff) := by
  refine leaves_ite (fun _ => leaves_ask trivial fun now => ?_) fun _ => leaves_done rfl
  dsimp only
  split
  · exact stays_sendSetDifficulty.trans rfl
  · exact leaves_done rfl

theorem stays_finishFresh {targetDiff : ℚ} : Stays s (finishFresh env s sh targetDiff) := by
  refine leaves_bind (all_whenDo ⟨trivial, fun _ => trivial⟩) fun _ => ?_
  refine leaves_thenDo stays_maybeSubmitAuxBlock fun t ht => ?_
  exact leaves_bind (all_whenDo common_submitBlockCandidate) fun _ => leaves_done ht

theorem stays_freshShare {targetDiff : ℚ} : Stays s (freshShare env s idJson sh targetDiff) := by
  refine leaves_ask trivial fun _ => leaves_ask trivial fun first => ?_
  refine leaves_ite (fun _ => leaves_ask trivial fun _ => leaves_done rfl) fun _ => ?_
  refine leaves_ask trivial fun _ => leaves_ask trivial fun _ => leaves_ask trivial fun _ => ?_
  refine leaves_ask trivial fun _ => ?_
  refine leaves_thenDo (stays_vardiffTick.trans rfl) fun t ht => stays_finishFresh.trans ht

theorem common_graceTarget {shareDiff : ℚ} : (graceTarget env s shareDiff).All Common := by
  unfold graceTarget
  split
  · refine Prog.All.bind (Prog.all_perform trivial) fun now => ?_
    split <;> trivial
  · trivial

theorem stays_scoreShare : Stays s (scoreShare env s idJson sh) :=
  leaves_bind common_graceTarget fun _ =>
    leaves_ite (fun _ => stays_lowDiffShare) fun _ => stays_freshShare

theorem stays_submitOnJob {sub : Submission} {job : MiningJob} :
    Stays s (submitOnJob env s idJson sub job) := by
  refine leaves_ask trivial fun curPrev => ?_
  dsimp only
  split
  · exact stays_reject
  · refine leaves_ask trivial fun now => leaves_ite (fun _ => stays_reject) fun _ => ?_
    split
    · exact stays_reject
    · split
      · exact leaves_threw rfl
      · exact stays_reject
      · exact leaves_ite (fun _ => stays_staleShare) fun _ => stays_scoreShare

theorem stays_handleSubmit {msg : Json} : Stays s (handleSubmit env s msg) := by
  unfold handleSubmit
  dsimp only
  refine leaves_ite (fun _ => stays_reject) fun _ => ?_
  split
  · exact stays_reject
  · refine leaves_ite (fun _ => stays_reject) fun _ => leaves_ask trivial fun found => ?_
    cases found with
    | none => exact stays_reject
    | some job => exact stays_submitOnJob

end Shares

/-! ## Stratum V2 -/

section V2

variable {env : Env} {s t : Session}

theorem stays_emitLatestV2 : Stays s (emitLatestV2 env s) := by
  refine leaves_ask trivial fun x => ?_
  cases x with
  | none => exact leaves_done rfl
  | some job => exact stays_emitJobV2

theorem stays_rejectV2 {sequenceNumber : UInt32} {code : String} :
    Stays s (rejectV2 s sequenceNumber code) :=
  leaves_bind common_sendV2 fun _ => leaves_done rfl

theorem common_submitAtFirstSight {path : SharePath} {sh : ShareV2} {emptyBlock : Bool} :
    (submitAtFirstSight env s path sh emptyBlock).All Common := by
  refine ⟨trivial, fun _ => all_whenDo ⟨trivial, fun first => all_whenDo ?_⟩⟩
  have guard : (rttAllowsV2 env sh).All Common := by
    unfold rttAllowsV2
    split
    · exact common_rttAllows
    · trivial
  refine guard.bind fun allowed => ?_
  cases allowed <;> exact ⟨trivial, fun _ => trivial⟩

theorem common_graceTargetV2 {shareDiff seconds tolerance : ℚ} :
    (graceTargetV2 s shareDiff seconds tolerance).All Common := by
  unfold graceTargetV2
  split
  · refine Prog.All.bind (Prog.all_perform trivial) fun now => ?_
    split <;> trivial
  · trivial

theorem stays_vardiffTickV2 {targetDiff networkDiff : ℚ} :
    Stays s (vardiffTickV2 env s targetDiff networkDiff) := by
  refine leaves_ask trivial fun now => ?_
  dsimp only
  split
  · exact leaves_ask trivial fun _ => leaves_bind common_sendV2 fun _ => leaves_done rfl
  · exact leaves_done rfl

theorem stays_creditV2 {path : SharePath} {hash : Hash256} {job : Option MiningJob}
    {ntime : UInt32} {diff targetDiff networkDiff : ℚ} {tick : Bool} {rec : Session → ShareRecord} :
    Stays s (do
      let s ← acceptShare s path hash job ntime diff
      thenDo (if tick then vardiffTickV2 env s targetDiff networkDiff else return .done s)
        fun s => do
          persistShare s (rec s)
          return .done s) := by
  refine leaves_ask trivial fun _ => leaves_ask trivial fun _ => leaves_thenDo ?_ fun t ht => ?_
  · exact leaves_ite (fun _ => stays_vardiffTickV2.trans rfl) fun _ => leaves_done rfl
  · have row : (persistShare t (rec t)).All Common := all_whenDo ⟨trivial, fun _ => trivial⟩
    exact leaves_bind row fun _ => leaves_done ht

theorem stays_scoreStandard {msg : Sv2Messages.SubmitSharesStandard} {sh : ShareV2} :
    Stays s (scoreStandard env s msg sh) := by
  refine leaves_bind common_submitAtFirstSight fun _ => leaves_bind common_graceTargetV2 fun _ => ?_
  refine leaves_ite (fun _ => stays_rejectV2) fun _ => ?_
  exact leaves_bind common_sendV2 fun _ => stays_creditV2

theorem stays_scoreExtended {msg : Sv2Messages.SubmitSharesExtended} {job : MiningJob}
    {sh : ShareV2} : Stays s (scoreExtended env s msg job sh) := by
  refine leaves_bind common_submitAtFirstSight fun _ => leaves_bind common_graceTargetV2 fun _ => ?_
  refine leaves_ite (fun _ => stays_rejectV2) fun _ => leaves_ask trivial fun now => ?_
  refine leaves_ite (fun _ => stays_rejectV2) fun _ => ?_
  exact leaves_bind common_sendV2 fun _ => stays_creditV2

theorem common_findShareJob {id : UInt32} : (findShareJob id).All Common := by
  refine Prog.All.bind (Prog.all_perform trivial) fun latest => ?_
  cases latest with
  | none => exact ⟨trivial, fun _ => trivial⟩
  | some j =>
    dsimp only
    split
    · trivial
    · exact ⟨trivial, fun _ => trivial⟩

theorem stays_handleSubmitSharesV2 {msg : Sv2Messages.SubmitSharesStandard} :
    Stays s (handleSubmitSharesV2 env s msg) := by
  unfold handleSubmitSharesV2
  split
  · split
    · exact leaves_threw rfl
    · exact stays_scoreStandard
  · refine leaves_bind common_findShareJob fun job => ?_
    cases job with
    | none => exact stays_rejectV2
    | some job =>
      dsimp only
      split
      · exact leaves_threw rfl
      · exact stays_scoreStandard

theorem stays_handleSubmitSharesExtendedV2 {msg : Sv2Messages.SubmitSharesExtended} :
    Stays s (handleSubmitSharesExtendedV2 env s msg) := by
  refine leaves_ite (fun _ => leaves_done rfl) fun _ => leaves_bind common_findShareJob fun job => ?_
  cases job with
  | none => exact stays_rejectV2
  | some job =>
    dsimp only
    split
    · exact leaves_threw rfl
    · exact stays_scoreExtended

end V2

end MkPool.Standing
