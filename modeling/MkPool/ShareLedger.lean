import MkPool.Lib.Traces
import MkPool.Credits

/-! # The rows that are stored are the shares that were credited

A task credits at most one share, and stores at most one row. The row is stored
after the retarget, which can throw where the latest Zcash job cannot be sent
again, and it is not stored for a miner without an id. -/
namespace MkPool.ShareLedger
open MkPool.Lib.Interaction MkPool.Utils MkPool.Config MkPool.Job
open MkPool.Lib.Traces (Leads leads_ret leads_call leads_bind phaseAfter)
open MkPool.Coinbase MkPool.Sv2Messages MkPool.Calls MkPool.ClientSession MkPool.JsonValue
open MkPool.Tasks MkPool.Stratum MkPool.Submit MkPool.StratumV2 MkPool.Desk MkPool.Requests
open MkPool.ShareWatch

/-! ## Credits and rows -/

/-- The share an event credits. -/
def creditOf : Event → Option (SharePath × Hash256)
  | ⟨.countAccepted path hash _ _, _⟩ => some (path, hash)
  | _ => none

/-- The row an event stores. -/
def rowOf : Event → Option ShareRecord
  | ⟨.enqueueShare rec, _⟩ => some rec
  | _ => none

/-- A call that credits nothing and stores nothing. -/
def Uncredited : Call → Prop
  | .countAccepted .. | .enqueueShare _ => False
  | _ => True

/-- By how much a share may miss its difficulty on a path. -/
def slack (env : Env) : SharePath → ℚ
  | .v2Standard => 99 / 100
  | .v2Extended => 1
  | _ => tolerance env

/-- A credited share, with the row that was stored for it. -/
structure Account where
  credit : SharePath × Hash256
  row : Option ShareRecord

/-- The row is that of the share: its hash, the miner of the session, a
difficulty the share meets, and whether it solved a block. -/
structure Pays (env : Env) (s : Session) (tr : List Event) (credit : SharePath × Hash256)
    (rec : ShareRecord) : Prop where
  miner : rec.minerId = s.minerId ∧ 0 < s.minerId
  hash : rec.shareHash = bytesToHex credit.2.bytes
  difficulty : rec.difficulty * slack env credit.1 ≤ difficultyOf env.coin.chain credit.2
  block : ∃ job, ⟨.scored credit.1 credit.2 job rec.blockFound, ()⟩ ∈ tr

/-- Why a credited share has no row: the miner has no id, or the job the
retarget had to send again has no coinbase for the session. -/
def Unpaid (env : Env) (s : Session) (tr : List Event) : Prop :=
  s.minerId ≤ 0 ∨ env.coin.chain = .zcash ∧
    ∃ job, ⟨.latestJob, some job⟩ ∈ tr ∧ zcashJobOf env s job = none

structure Account.Sound (env : Env) (s : Session) (tr : List Event) (a : Account) : Prop where
  paid : ∀ rec, a.row = some rec → Pays env s tr a.credit rec
  unpaid : a.row = none → Unpaid env s tr

/-- What a task did is at most one account. -/
def Balanced (env : Env) (s : Session) (tr : List Event) : Prop :=
  ∃ a : Option Account, tr.filterMap creditOf = a.toList.map Account.credit ∧
    tr.filterMap rowOf = a.toList.filterMap Account.row ∧ ∀ x ∈ a, x.Sound env s tr

section Traces

variable {env : Env} {s t : Session} {tr tr' : List Event} {α β : Type}

theorem Account.Sound.mono {a : Account} (h : a.Sound env s tr) (hsub : tr ⊆ tr') :
    a.Sound env s tr' where
  paid := fun rec hrec =>
    have hp := h.paid rec hrec
    ⟨hp.miner, hp.hash, hp.difficulty, hp.block.imp fun _ hj => hsub hj⟩
  unpaid := fun hnone => (h.unpaid hnone).imp_right fun hz =>
    ⟨hz.1, hz.2.imp fun _ hj => ⟨hsub hj.1, hj.2⟩⟩

/-- A path without credits and rows. -/
structure Silent (tr : List Event) : Prop where
  credits : tr.filterMap creditOf = []
  rows : tr.filterMap rowOf = []

theorem silent_nil : Silent [] := ⟨rfl, rfl⟩

theorem silent_of_uncredited {p q : Act α} (hp : p.All Uncredited) (h : Leads p tr q) :
    Silent tr := by
  have hall := (h.all hp).2
  refine ⟨List.filterMap_eq_nil_iff.mpr fun e he => ?_,
    List.filterMap_eq_nil_iff.mpr fun e he => ?_⟩
  all_goals
    have hu := hall e he
    obtain ⟨c, x⟩ := e
    cases c <;> first | rfl | exact hu.elim

theorem Balanced.of_silent (h : Silent tr) : Balanced env s tr :=
  ⟨none, h.credits, h.rows, by simp⟩

theorem Balanced.after (hs : Silent tr) (h : Balanced env s tr') : Balanced env s (tr ++ tr') := by
  obtain ⟨a, hc, hr, ha⟩ := h
  refine ⟨a, ?_, ?_, fun x hx => (ha x hx).mono (List.subset_append_right _ _)⟩
  · rw [List.filterMap_append, hs.credits, List.nil_append, hc]
  · rw [List.filterMap_append, hs.rows, List.nil_append, hr]

theorem Balanced.before (h : Balanced env s tr) (hs : Silent tr') :
    Balanced env s (tr ++ tr') := by
  obtain ⟨a, hc, hr, ha⟩ := h
  refine ⟨a, ?_, ?_, fun x hx => (ha x hx).mono (List.subset_append_left _ _)⟩
  · rw [List.filterMap_append, hs.credits, List.append_nil, hc]
  · rw [List.filterMap_append, hs.rows, List.append_nil, hr]

/-- Every way through the program is balanced. -/
def Books (env : Env) (s : Session) (p : Act α) : Prop :=
  ∀ tr a, Leads p tr (.ret a) → Balanced env s tr

theorem books_uncredited {p : Act α} (hp : p.All Uncredited) : Books env s p :=
  fun _ _ h => .of_silent (silent_of_uncredited hp h)

theorem books_after {p : Act α} {f : α → Act β} (hp : p.All Uncredited)
    (hf : ∀ a, Books env s (f a)) : Books env s (p >>= f) := by
  intro tr b h
  obtain ⟨tr₁, tr₂, a, rfl, h₁, h₂⟩ := leads_bind.mp h
  exact (hf a tr₂ b h₂).after (silent_of_uncredited hp h₁)

theorem books_ask {c : Call} {k : Answer c → Act α} (hc : Uncredited c)
    (hk : ∀ x, Books env s (k x)) : Books env s (ask c >>= k) :=
  books_after (Prog.all_perform hc) hk

theorem books_then {p : Act α} {f : α → Act β} (hp : Books env s p)
    (hf : ∀ a, (f a).All Uncredited) : Books env s (p >>= f) := by
  intro tr b h
  obtain ⟨tr₁, tr₂, a, rfl, h₁, h₂⟩ := leads_bind.mp h
  exact (hp tr₁ a h₁).before (silent_of_uncredited (hf a) h₂)

theorem leads_ask {c : Call} {k : Answer c → Act α} {a : α}
    (h : Leads (ask c >>= k) tr (.ret a)) :
    ∃ x rest, tr = ⟨c, x⟩ :: rest ∧ Leads (k x) rest (.ret a) :=
  leads_call.mp h

/-! ## Programs that credit nothing -/

theorem uncredited_of_aside {p : Act α} (hp : p.All Aside) : p.All Uncredited :=
  hp.mono fun c hc => by cases c <;> first | exact hc.elim | trivial

theorem uncredited_of_small {p : Act α} (hp : p.All Small) : p.All Uncredited :=
  uncredited_of_aside (aside_of_small hp)

theorem uncredited_reject {idJson reason : Str} {code : Nat} :
    (reject s idJson reason code).All Uncredited :=
  ⟨trivial, fun _ => ⟨trivial, fun _ => trivial⟩⟩

theorem uncredited_rttAllows {job : MiningJob} {hash : Hash256} :
    (rttAllows env job hash).All Uncredited := by
  unfold rttAllows
  split
  · exact ⟨trivial, fun _ => trivial⟩
  · exact trivial

theorem uncredited_submitBlockCandidate {sh : Share} :
    (submitBlockCandidate env s sh).All Uncredited := by
  refine uncredited_rttAllows.bind fun allowed => ?_
  split
  · exact Prog.all_perform trivial
  · exact Prog.all_perform trivial

theorem uncredited_maybeSubmitAuxBlock {sh : Share} :
    (maybeSubmitAuxBlock env s sh).All Uncredited := by
  unfold maybeSubmitAuxBlock
  split
  · exact trivial
  · split
    · refine all_ite trivial (all_ite trivial ?_)
      exact all_last trivial
    · exact trivial

theorem uncredited_staleShare {idJson : Str} {sh : Share} :
    (staleShare env s idJson sh).All Uncredited := by
  refine ⟨trivial, fun _ => ⟨trivial, fun first => ?_⟩⟩
  refine all_thenDo (all_ite ?_ trivial) fun t => all_last trivial
  exact (all_whenDo uncredited_submitBlockCandidate).bind fun _ => uncredited_maybeSubmitAuxBlock

theorem uncredited_lowDiffShare {idJson : Str} {sh : Share} :
    (lowDiffShare env s idJson sh).All Uncredited :=
  ⟨trivial, fun _ => (all_whenDo uncredited_submitBlockCandidate).bind fun _ => uncredited_reject⟩

theorem uncredited_graceTarget {d : ℚ} : (graceTarget env s d).All Uncredited := by
  unfold graceTarget
  split
  · refine ⟨trivial, fun now => ?_⟩
    show Prog.All Uncredited (ite _ _ _)
    split <;> exact trivial
  · exact trivial

theorem uncredited_submitAtFirstSight {path : SharePath} {sh : ShareV2} {emptyBlock : Bool} :
    (submitAtFirstSight env s path sh emptyBlock).All Uncredited := by
  have rtt : (rttAllowsV2 env sh).All Uncredited := by
    unfold rttAllowsV2
    split
    · exact uncredited_rttAllows
    · exact trivial
  refine ⟨trivial, fun _ => all_whenDo ⟨trivial, fun first => all_whenDo ?_⟩⟩
  refine rtt.bind fun allowed => ?_
  split
  · exact Prog.all_perform trivial
  · exact Prog.all_perform trivial

theorem uncredited_graceTargetV2 {d seconds tol : ℚ} :
    (graceTargetV2 s d seconds tol).All Uncredited := by
  unfold graceTargetV2
  split
  · refine ⟨trivial, fun now => ?_⟩
    show Prog.All Uncredited (ite _ _ _)
    split <;> exact trivial
  · exact trivial

theorem uncredited_findShareJob {id : UInt32} : (findShareJob id).All Uncredited := by
  refine ⟨trivial, fun x => ?_⟩
  cases x with
  | none => exact Prog.all_perform trivial
  | some job =>
    show Prog.All Uncredited (ite _ _ _)
    split
    · exact trivial
    · exact Prog.all_perform trivial

theorem uncredited_rejectV2 {sequenceNumber : UInt32} {code : String} :
    (rejectV2 s sequenceNumber code).All Uncredited :=
  (uncredited_of_aside aside_sendV2).bind fun _ => trivial

/-! ## The retarget of an accepted share -/

theorem latest_of_path {task : Task} {job : MiningJob} {q : Phase}
    (h : (phaseAfter (shareWatch env s task) q tr).latest = some job) :
    q.latest = some job ∨ ⟨.latestJob, some job⟩ ∈ tr := by
  induction tr generalizing q with
  | nil => exact .inl h
  | cons e tr ih =>
    rcases ih h with hq | hmem
    · obtain ⟨c, x⟩ := e
      cases c with
      | latestJob =>
        obtain rfl : x = some job := hq
        exact .inr List.mem_cons_self
      | _ => exact .inl hq
    · exact .inr (List.mem_cons_of_mem _ hmem)

theorem uncredited_vardiffTick {sh : Share} {d : ℚ} :
    (vardiffTick env s sh d).All Uncredited := by
  unfold vardiffTick
  split
  · refine ⟨trivial, fun now => ?_⟩
    dsimp only [Prog.bind]
    split
    · exact uncredited_of_small small_sendSetDifficulty
    · exact trivial
  · exact trivial

/-- The retarget keeps the miner, or throws for want of a Zcash coinbase. -/
theorem tick_path {sh : Share} {d : ℚ} {o : Outcome} (hk : Kin s t)
    (h : Leads (vardiffTick env t sh d) tr (.ret o)) : match o with
      | .done t' => t'.minerId = s.minerId
      | .threw _ => env.coin.chain = .zcash ∧
          ∃ job, ⟨.latestJob, some job⟩ ∈ tr ∧ zcashJobOf env s job = none := by
  have hwatched : Watched env s .disconnect (vardiffTick env t sh d) (Resent env s {}) {} :=
    watched_vardiffTick hk
  have hend := h.watched hwatched
  cases o with
  | done t' => exact hend.2.minerId
  | threw t' =>
    obtain ⟨hchain, job, hlatest, hnone⟩ := hend.2
    rcases latest_of_path hlatest with hq | hmem
    · cases hq
    · exact ⟨hchain, job, hmem, hnone⟩

theorem uncredited_vardiffTickV2 {d networkDiff : ℚ} :
    (vardiffTickV2 env s d networkDiff).All Uncredited := by
  refine ⟨trivial, fun now => ?_⟩
  dsimp only [Prog.bind]
  split
  · exact ⟨trivial, fun _ => (uncredited_of_aside aside_sendV2).bind fun _ => trivial⟩
  · exact trivial

theorem tick_pathV2 {d networkDiff : ℚ} {o : Outcome}
    (h : Leads (vardiffTickV2 env t d networkDiff) tr (.ret o)) :
    ∃ t', o = .done t' ∧ t'.minerId = t.minerId := by
  have hwatched : Watched env t .disconnect (vardiffTickV2 env t d networkDiff)
      (fun o _ => ∃ t', o = .done t' ∧ t'.minerId = t.minerId) {} :=
    watched_vardiffTickV2 fun t' _ hm => ⟨t', rfl, hm⟩
  exact h.watched hwatched

/-! ## The account of a credited share -/

theorem store_path {rec : ShareRecord} {u : Unit}
    (h : Leads (persistShare t rec) tr (.ret u)) :
    0 < t.minerId ∧ tr = [⟨.enqueueShare rec, ()⟩] ∨ t.minerId ≤ 0 ∧ tr = [] := by
  unfold persistShare whenDo at h
  by_cases hm : 0 < t.minerId
  · rw [if_pos (decide_eq_true hm)] at h
    obtain ⟨x, rest, rfl, hrest⟩ := leads_call.mp h
    obtain ⟨rfl, _⟩ := leads_ret.mp hrest
    exact .inl ⟨hm, rfl⟩
  · rw [if_neg (by simpa using hm)] at h
    exact .inr ⟨not_lt.mp hm, (leads_ret.mp h).1⟩

section Accounts

variable {path : SharePath} {hash : Hash256} {job job' : Option MiningJob} {ntime : UInt32}
  {rec : ShareRecord} {meets : Bool} {pre mid store rest : List Event}

/-- A path around a credit, or around a row. -/
theorem filterMap_around {γ : Type} {f : Event → Option γ} {e : Event} {x : γ}
    (he : f e = some x) (hpre : pre.filterMap f = []) (hmid : mid.filterMap f = []) :
    (pre ++ e :: mid).filterMap f = [x] := by
  rw [List.filterMap_append, hpre, List.filterMap_cons_some he, hmid]
  rfl

theorem filterMap_around_none {γ : Type} {f : Event → Option γ} {e : Event}
    (he : f e = none) (hpre : pre.filterMap f = []) (hmid : mid.filterMap f = []) :
    (pre ++ e :: mid).filterMap f = [] := by
  rw [List.filterMap_append, hpre, List.filterMap_cons_none he, hmid]
  rfl

/-- A share that was credited, and not stored. -/
theorem balanced_unpaid (hpre : Silent pre) (hmid : Silent mid)
    (h : Unpaid env s (pre ++ ⟨.countAccepted path hash job ntime, ()⟩ :: mid)) :
    Balanced env s (pre ++ ⟨.countAccepted path hash job ntime, ()⟩ :: mid) := by
  refine ⟨some ⟨(path, hash), none⟩, filterMap_around rfl hpre.credits hmid.credits,
    filterMap_around_none rfl hpre.rows hmid.rows, fun x hx => ?_⟩
  obtain rfl := Option.some.inj hx
  exact ⟨fun _ hrow => (nomatch hrow), fun _ => h⟩

/-- A share that was credited, and stored for a miner with an id. -/
theorem balanced_credit (hscored : ⟨.scored path hash job' rec.blockFound, ()⟩ ∈ pre)
    (hpre : Silent pre) (hmid : Silent mid) (hrest : Silent rest)
    (hstore : 0 < t.minerId ∧ store = [⟨.enqueueShare rec, ()⟩] ∨ t.minerId ≤ 0 ∧ store = [])
    (hm : t.minerId = s.minerId) (hminer : rec.minerId = t.minerId)
    (hhash : rec.shareHash = bytesToHex hash.bytes)
    (hdiff : rec.difficulty * slack env path ≤ difficultyOf env.coin.chain hash) :
    Balanced env s (pre ++ ⟨.countAccepted path hash job ntime, ()⟩ :: (mid ++ (store ++ rest))) := by
  rcases hstore with ⟨hpos, rfl⟩ | ⟨hneg, rfl⟩
  · refine ⟨some ⟨(path, hash), some rec⟩, filterMap_around rfl hpre.credits ?_, ?_, fun x hx => ?_⟩
    · exact filterMap_around_none rfl hmid.credits hrest.credits
    · rw [List.filterMap_append, hpre.rows, List.filterMap_cons_none rfl]
      exact filterMap_around rfl hmid.rows hrest.rows
    · obtain rfl := Option.some.inj hx
      refine ⟨fun r hrow => ?_, fun hrow => (nomatch hrow)⟩
      obtain rfl := Option.some.inj hrow
      exact ⟨⟨hminer.trans hm, hm ▸ hpos⟩, hhash, hdiff, job', by simp [hscored]⟩
  · have hsilent : Silent (mid ++ rest) :=
      ⟨by rw [List.filterMap_append, hmid.credits, hrest.credits]; rfl,
        by rw [List.filterMap_append, hmid.rows, hrest.rows]; rfl⟩
    exact balanced_unpaid hpre hsilent (.inl (hm ▸ hneg))

end Accounts

/-! ## The handlers -/

theorem silent_cons {e : Event} (he : creditOf e = none ∧ rowOf e = none) (h : Silent tr) :
    Silent (e :: tr) :=
  ⟨by rw [List.filterMap_cons_none he.1, h.credits], by
    rw [List.filterMap_cons_none he.2, h.rows]⟩

theorem Silent.append (h : Silent tr) (h' : Silent tr') : Silent (tr ++ tr') :=
  ⟨by rw [List.filterMap_append, h.credits, h'.credits]; rfl,
    by rw [List.filterMap_append, h.rows, h'.rows]; rfl⟩

theorem books_freshShare {idJson : Str} {sh : Share} {targetDiff : ℚ}
    (hdiff : targetDiff * tolerance env ≤ sh.diff env) :
    Books env s (freshShare env s idJson sh targetDiff) := by
  intro tr o h
  unfold freshShare at h
  obtain ⟨_, tr₁, rfl, h₁⟩ := leads_ask h
  obtain ⟨first, tr₂, rfl, h₂⟩ := leads_ask h₁
  cases first with
  | false =>
    obtain ⟨_, tr₃, rfl, h₃⟩ := leads_ask h₂
    obtain ⟨rfl, _⟩ := leads_ret.mp h₃
    exact .of_silent ⟨rfl, rfl⟩
  | true =>
    obtain ⟨_, tr₃, rfl, h₃⟩ := leads_ask h₂
    obtain ⟨_, tr₄, rfl, h₄⟩ := leads_ask h₃
    obtain ⟨_, tr₅, rfl, h₅⟩ := leads_ask h₄
    obtain ⟨_, tr₆, rfl, h₆⟩ := leads_ask h₅
    obtain ⟨tick, tail, o₁, rfl, htick, htail⟩ := leads_bind.mp h₆
    have hsilent : Silent tick := silent_of_uncredited uncredited_vardiffTick htick
    have hpath := tick_path ⟨rfl, rfl, rfl, rfl, rfl⟩ htick
    have hmid : Silent
        (⟨.noteShareDiff (sh.diff env), ()⟩ :: ⟨.clearInvalid, ()⟩ :: tick : List Event) :=
      silent_cons ⟨rfl, rfl⟩ (silent_cons ⟨rfl, rfl⟩ hsilent)
    cases o₁ with
    | threw t =>
      obtain ⟨rfl, _⟩ := leads_ret.mp htail
      obtain ⟨hchain, job, hjob, hnone⟩ := hpath
      show Balanced env s ([⟨.scored .v1Fresh sh.hash (some sh.job) sh.meetsNetwork, ()⟩,
        ⟨.registerShare sh.hashHex, true⟩, ⟨.send (.result idJson), ()⟩] ++
        ⟨.countAccepted .v1Fresh sh.hash (some sh.job) sh.ntime, ()⟩ ::
          ⟨.noteShareDiff (sh.diff env), ()⟩ :: ⟨.clearInvalid, ()⟩ :: (tick ++ []))
      rw [List.append_nil]
      refine balanced_unpaid ⟨rfl, rfl⟩ hmid (.inr ⟨hchain, job, ?_, hnone⟩)
      simp [hjob]
    | done t =>
      obtain ⟨store, rest, _, rfl, hstore, hrest⟩ := leads_bind.mp htail
      have hend : Silent rest := by
        refine silent_of_uncredited (all_thenDo uncredited_maybeSubmitAuxBlock fun t => ?_) hrest
        exact (all_whenDo uncredited_submitBlockCandidate).bind fun _ => trivial
      show Balanced env s ([⟨.scored .v1Fresh sh.hash (some sh.job) sh.meetsNetwork, ()⟩,
        ⟨.registerShare sh.hashHex, true⟩, ⟨.send (.result idJson), ()⟩] ++
        ⟨.countAccepted .v1Fresh sh.hash (some sh.job) sh.ntime, ()⟩ ::
          ((⟨.noteShareDiff (sh.diff env), ()⟩ :: ⟨.clearInvalid, ()⟩ :: tick) ++ (store ++ rest)))
      exact balanced_credit List.mem_cons_self ⟨rfl, rfl⟩ hmid hend (store_path hstore) hpath rfl
        rfl hdiff

theorem books_scoreShare {idJson : Str} {sh : Share} :
    Books env s (scoreShare env s idJson sh) := by
  refine books_after uncredited_graceTarget fun targetDiff => ?_
  split
  · exact books_uncredited uncredited_lowDiffShare
  · rename_i hmeets
    exact books_freshShare (not_lt.mp hmeets)

theorem books_submitOnJob {idJson : Str} {sub : Submission} {job : MiningJob} :
    Books env s (submitOnJob env s idJson sub job) := by
  unfold submitOnJob
  refine books_ask trivial fun curPrev => ?_
  dsimp only
  split
  · exact books_uncredited uncredited_reject
  · refine books_ask trivial fun now => ?_
    split
    · exact books_uncredited uncredited_reject
    · split
      · exact books_uncredited uncredited_reject
      · split
        · exact books_uncredited trivial
        · exact books_uncredited uncredited_reject
        · split
          · exact books_uncredited uncredited_staleShare
          · exact books_scoreShare

theorem books_handleSubmit {msg : Json} : Books env s (handleSubmit env s msg) := by
  unfold handleSubmit
  dsimp only
  split
  · exact books_uncredited uncredited_reject
  · split
    · exact books_uncredited uncredited_reject
    · split
      · exact books_uncredited uncredited_reject
      · refine books_ask trivial fun job => ?_
        cases job with
        | none => exact books_uncredited uncredited_reject
        | some job => exact books_submitOnJob

/-- The credit of a V2 share, once it was seen and held to its difficulty. -/
theorem balanced_creditV2 {path : SharePath} {sh : ShareV2} {ntime : UInt32} {tick : Act Outcome}
    {rec : Session → ShareRecord} {pre : List Event} {o : Outcome}
    (hscored : ⟨.scored path sh.hash sh.job sh.meetsNetwork, ()⟩ ∈ pre) (hpre : Silent pre)
    (htick : tick.All Uncredited)
    (hdone : ∀ tr o, Leads tick tr (.ret o) → ∃ t, o = .done t ∧ t.minerId = s.minerId)
    (hrec : ∀ t, (rec t).minerId = t.minerId ∧ (rec t).shareHash = sh.hashHex ∧
      (rec t).blockFound = sh.meetsNetwork ∧
      (rec t).difficulty * slack env path ≤ difficultyOf env.coin.chain sh.hash)
    (h : Leads (do
      ask (.countAccepted path sh.hash sh.job ntime)
      ask (.noteShareDiff (sh.diff env))
      thenDo tick fun s => do
        persistShare s (rec s)
        return .done s) tr (.ret o)) : Balanced env s (pre ++ tr) := by
  obtain ⟨_, tr₁, rfl, h₁⟩ := leads_ask h
  obtain ⟨_, tr₂, rfl, h₂⟩ := leads_ask h₁
  obtain ⟨mid, tail, o₁, rfl, hmid, htail⟩ := leads_bind.mp h₂
  obtain ⟨t, rfl, hm⟩ := hdone mid o₁ hmid
  obtain ⟨store, rest, _, rfl, hstore, hrest⟩ := leads_bind.mp htail
  obtain ⟨rfl, _⟩ := leads_ret.mp hrest
  obtain ⟨hminer, hhash, hblock, hdiff⟩ := hrec t
  show Balanced env s (pre ++ ⟨.countAccepted path sh.hash sh.job ntime, ()⟩ ::
    ((⟨.noteShareDiff (sh.diff env), ()⟩ :: mid) ++ (store ++ [])))
  refine balanced_credit (hblock ▸ hscored) hpre ?_ silent_nil (store_path hstore) hm hminer hhash
    hdiff
  exact silent_cons ⟨rfl, rfl⟩ (silent_of_uncredited htick hmid)

/-- A sighted share has been scored. -/
theorem scored_of_sight {path : SharePath} {sh : ShareV2} {emptyBlock : Bool} {u : Unit}
    (h : Leads (submitAtFirstSight env s path sh emptyBlock) tr (.ret u)) :
    ⟨.scored path sh.hash sh.job sh.meetsNetwork, ()⟩ ∈ tr := by
  obtain ⟨_, rest, rfl, _⟩ := leads_ask h
  exact List.mem_cons_self

theorem books_scoreStandard {msg : SubmitSharesStandard} {sh : ShareV2} :
    Books env s (scoreStandard env s msg sh) := by
  intro tr o h
  unfold scoreStandard at h
  obtain ⟨sight, tr₁, _, rfl, hsight, h₁⟩ := leads_bind.mp h
  obtain ⟨grace, tr₂, targetDiff, rfl, hgrace, h₂⟩ := leads_bind.mp h₁
  have hsilent : Silent sight := silent_of_uncredited uncredited_submitAtFirstSight hsight
  have hsilent' : Silent grace := silent_of_uncredited uncredited_graceTargetV2 hgrace
  split at h₂
  · exact .of_silent (hsilent.append (hsilent'.append (silent_of_uncredited uncredited_rejectV2 h₂)))
  · rename_i hmeets
    obtain ⟨send, tail, _, rfl, hsend, htail⟩ := leads_bind.mp h₂
    have hsilent'' : Silent send := silent_of_uncredited (uncredited_of_aside aside_sendV2) hsend
    rw [← List.append_assoc, ← List.append_assoc]
    refine balanced_creditV2 (by simp [scored_of_sight hsight])
      ((hsilent.append hsilent').append hsilent'') ?_ ?_ ?_ htail
    · exact all_ite uncredited_vardiffTickV2 trivial
    · intro tr o htick
      split at htick
      · obtain ⟨t, ht, hm⟩ := tick_pathV2 htick
        exact ⟨t, ht, hm⟩
      · obtain ⟨_, rfl⟩ := leads_ret.mp htick
        exact ⟨_, rfl, rfl⟩
    · exact fun t => ⟨rfl, rfl, rfl, not_lt.mp hmeets⟩

theorem books_scoreExtended {msg : SubmitSharesExtended} {job : MiningJob} {sh : ShareV2} :
    Books env s (scoreExtended env s msg job sh) := by
  intro tr o h
  unfold scoreExtended at h
  obtain ⟨sight, tr₁, _, rfl, hsight, h₁⟩ := leads_bind.mp h
  obtain ⟨grace, tr₂, targetDiff, rfl, hgrace, h₂⟩ := leads_bind.mp h₁
  have hsilent : Silent sight := silent_of_uncredited uncredited_submitAtFirstSight hsight
  have hsilent' : Silent grace := silent_of_uncredited uncredited_graceTargetV2 hgrace
  split at h₂
  · exact .of_silent (hsilent.append (hsilent'.append (silent_of_uncredited uncredited_rejectV2 h₂)))
  · rename_i hmeets
    obtain ⟨now, tr₃, rfl, h₃⟩ := leads_ask h₂
    have hclock : Silent [⟨.nowUnix, now⟩] := ⟨rfl, rfl⟩
    rw [← List.append_assoc, ← List.singleton_append, ← List.append_assoc]
    split at h₃
    · exact .of_silent (((hsilent.append hsilent').append hclock).append
        (silent_of_uncredited uncredited_rejectV2 h₃))
    · obtain ⟨send, tail, _, rfl, hsend, htail⟩ := leads_bind.mp h₃
      have hsilent'' : Silent send := silent_of_uncredited (uncredited_of_aside aside_sendV2) hsend
      rw [← List.append_assoc]
      refine balanced_creditV2 (by simp [scored_of_sight hsight])
        (((hsilent.append hsilent').append hclock).append hsilent'') ?_ ?_ ?_ htail
      · exact all_ite uncredited_vardiffTickV2 trivial
      · intro tr o htick
        split at htick
        · obtain ⟨t, ht, hm⟩ := tick_pathV2 htick
          exact ⟨t, ht, hm⟩
        · obtain ⟨_, rfl⟩ := leads_ret.mp htick
          exact ⟨_, rfl, rfl⟩
      · exact fun t => ⟨rfl, rfl, rfl, (mul_one targetDiff).le.trans (not_lt.mp hmeets)⟩

theorem books_processMessageV2 {msg : Request} : Books env s (processMessageV2 env s msg) := by
  cases msg with
  | setupConnection protocol =>
    exact books_uncredited (uncredited_of_aside aside_handleSetupConnection)
  | openStandardMiningChannel msg =>
    exact books_uncredited (uncredited_of_aside aside_handleOpenStandard)
  | openExtendedMiningChannel msg =>
    exact books_uncredited (uncredited_of_aside aside_handleOpenExtended)
  | updateChannel | closeChannel | unknown => exact books_uncredited trivial
  | setCustomMiningJob msg =>
    exact books_uncredited (uncredited_of_aside aside_handleSetCustomMiningJobV2)
  | submitSharesStandard msg =>
    show Books env s (handleSubmitSharesV2 env s msg)
    unfold handleSubmitSharesV2
    split
    · split
      · exact books_uncredited trivial
      · exact books_scoreStandard
    · refine books_after uncredited_findShareJob fun job => ?_
      cases job with
      | none => exact books_uncredited uncredited_rejectV2
      | some job =>
        dsimp only
        split
        · exact books_uncredited trivial
        · exact books_scoreStandard
  | submitSharesExtended msg =>
    show Books env s (handleSubmitSharesExtendedV2 env s msg)
    unfold handleSubmitSharesExtendedV2
    split
    · exact books_uncredited trivial
    · refine books_after uncredited_findShareJob fun job => ?_
      cases job with
      | none => exact books_uncredited uncredited_rejectV2
      | some job =>
        dsimp only
        split
        · exact books_uncredited trivial
        · exact books_scoreExtended

theorem books_processLine {line : Option Json} : Books env s (processLine env s line) := by
  unfold processLine
  split
  · exact books_uncredited (all_last trivial)
  · split
    · exact books_uncredited (all_last trivial)
    · refine books_then ?_ fun o => ?_
      · rename_i method hmethod
        by_cases hsubmit : method = "mining.submit".toList
        · rw [hsubmit, dispatch_submit]
          exact books_handleSubmit
        · exact books_uncredited (uncredited_of_small (small_dispatch hsubmit))
      · cases o with
        | done t => exact trivial
        | threw t => exact all_last trivial

/-- **Every task keeps its books.** -/
theorem books_task (task : Task) : Books env s (task.prog env s) := by
  cases task with
  | line l => exact books_processLine
  | message msg => exact books_processMessageV2
  | notify job => exact books_uncredited (uncredited_of_aside aside_notifyNewJob)
  | validated v error valid =>
    cases v with
    | payout req => exact books_uncredited (uncredited_of_aside aside_onPayoutValidated)
    | doge req => exact books_uncredited (uncredited_of_aside aside_onDogeValidated)
    | payoutV2 addr =>
      show Books env s (onPayoutV2Validated s error.isSome valid)
      unfold onPayoutV2Validated
      split
      · exact books_uncredited trivial
      · split <;> exact books_uncredited trivial
  | resetShareCounters | disconnect => exact books_uncredited trivial

end Traces

/-! ## The tasks of a session -/

/-- What session `n` did in an entry. -/
def didOf (n : Nat) : Pool.Entry → Option Event
  | .did m e => if m = n then some e else none
  | _ => none

/-- The tasks of session `n` with what each did, the latest first. -/
def tasksOf (n : Nat) : List Pool.Entry → List (Pool.Start × List Event)
  | [] => []
  | .began m start :: l => if m = n then (start, []) :: tasksOf n l else tasksOf n l
  | .did m e :: l =>
    if m = n then
      match tasksOf n l with
      | [] => []
      | (start, es) :: ts => (start, e :: es) :: ts
    else tasksOf n l
  | .ended _ :: l | .fed _ :: l | .ticked _ :: l => tasksOf n l

/-- The program of a task. -/
def program (env : Env) (start : Pool.Start) : Act Outcome :=
  start.task.prog (start.env env) start.session

/-- The task was run to its end. -/
def Complete (env : Env) (t : Pool.Start × List Event) : Prop :=
  ∃ o, Leads (program env t.1) t.2.reverse (.ret o)

/-- What is known of the tasks of a connection: all but the one under way were
run to their ends. -/
def Diary (env : Env) (ts : List (Pool.Start × List Event)) : Option Pool.Connection → Prop
  | none => ts = []
  | some c => match c.running with
    | none => ∀ t ∈ ts, Complete env t
    | some r => ∃ es rest, ts = (r.start, es) :: rest ∧
        Leads (program env r.start) es.reverse r.rest ∧ ∀ t ∈ rest, Complete env t

section Pools

variable {env : Env} {p p' : Pool.PoolState} {n m : Nat}

theorem Diary.idle {ts : List (Pool.Start × List Event)} {c : Pool.Connection}
    (h : Diary env ts (some c)) (hc : c.running = none) : ∀ t ∈ ts, Complete env t := by
  unfold Diary at h
  dsimp only at h
  rw [hc] at h
  exact h

theorem Diary.running {ts : List (Pool.Start × List Event)} {c : Pool.Connection}
    {r : Pool.Running} (h : Diary env ts (some c)) (hc : c.running = some r) :
    ∃ es rest, ts = (r.start, es) :: rest ∧
      Leads (program env r.start) es.reverse r.rest ∧ ∀ t ∈ rest, Complete env t := by
  unfold Diary at h
  dsimp only at h
  rw [hc] at h
  exact h

theorem diary_post {ts : List (Pool.Start × List Event)} {c : Option Pool.Connection} (cl : Call)
    (h : Diary env ts c) : Diary env ts (c.map fun c => c.post cl) := by
  cases c with
  | none => exact h
  | some c =>
    show Diary env ts (some (c.post cl))
    unfold Diary at h ⊢
    dsimp only at h ⊢
    rw [PoolLog.running_post]
    exact h

/-- The diaries of a pool, and the log as what their tasks did. -/
structure Kept (env : Env) (p : Pool.PoolState) : Prop where
  diary : ∀ n, Diary env (tasksOf n p.log) (p.connections n)
  events : ∀ n, p.log.filterMap (didOf n) = (tasksOf n p.log).flatMap Prod.snd

/-- What one session does leaves the diaries of the others. -/
theorem Kept.update {c : Pool.Connection} (h : Kept env p)
    (hconn : p'.connections = Function.update p.connections n (some c))
    (hothers : ∀ m, m ≠ n → tasksOf m p'.log = tasksOf m p.log ∧
      p'.log.filterMap (didOf m) = p.log.filterMap (didOf m))
    (hdiary : Diary env (tasksOf n p'.log) (some c))
    (hevents : p'.log.filterMap (didOf n) = (tasksOf n p'.log).flatMap Prod.snd) :
    Kept env p' where
  diary := by
    intro m
    rw [hconn]
    by_cases hm : m = n
    · rw [hm, Function.update_self]
      exact hdiary
    · rw [Function.update_of_ne hm, (hothers m hm).1]
      exact h.diary m
  events := by
    intro m
    by_cases hm : m = n
    · rw [hm]
      exact hevents
    · rw [(hothers m hm).1, (hothers m hm).2]
      exact h.events m

/-- A session that gets a task. -/
theorem Kept.begun {c : Pool.Connection} {t : Task} (h : Kept env p) (c' : Pool.Connection)
    (hc : p.connections n = some c) (hidle : c.running = none)
    (hconn : p'.connections = Function.update p.connections n (some (c'.start env t)))
    (hlog : p'.log = .began n ⟨c'.tier, c'.session, t⟩ :: p.log) : Kept env p' := by
  have hd := h.diary n
  rw [hc] at hd
  refine h.update hconn (fun m hm => ?_) ?_ ?_
  · rw [hlog]
    exact ⟨if_neg (Ne.symm hm), rfl⟩
  · rw [hlog, tasksOf, if_pos rfl]
    exact ⟨[], _, rfl, .stay _, hd.idle hidle⟩
  · rw [hlog, tasksOf, if_pos rfl]
    exact h.events n

theorem Kept.step {e : Option Pool.Entry} (h : Kept env p) (hs : Pool.Step env p e p') :
    Kept env p' := by
  cases hs with
  | @connect n tier extranonce1 sessionId now isV2 free =>
    have hd := h.diary n
    rw [free] at hd
    have hnone : tasksOf n p.log = [] := hd
    refine h.update rfl (fun m _ => ⟨rfl, rfl⟩) ?_ (h.events n)
    show ∀ t ∈ tasksOf n p.log, Complete env t
    rw [hnone]
    exact fun t ht => nomatch ht
  | begin conn idle offered => exact h.begun _ conn idle rfl rfl
  | @notify n c job rest conn idle head =>
    exact h.begun { c with posted := rest } conn idle rfl rfl
  | @call n c start cl k x strat conn running answer gives =>
    have hd := h.diary n
    rw [conn] at hd
    obtain ⟨es, ts, hts, hpath, hrest⟩ := hd.running running
    have hnow : tasksOf n (.did n ⟨cl, x⟩ :: p.log) = (start, ⟨cl, x⟩ :: es) :: ts := by
      rw [tasksOf, if_pos rfl, hts]
    refine h.update rfl (fun m hm => ⟨if_neg (Ne.symm hm), ?_⟩) ?_ ?_
    · exact List.filterMap_cons_none (if_neg (Ne.symm hm))
    · show Diary env (tasksOf n (.did n ⟨cl, x⟩ :: p.log)) _
      rw [hnow]
      refine ⟨_, _, rfl, ?_, hrest⟩
      rw [List.reverse_cons]
      exact hpath.snoc x
    · show (Pool.Entry.did n ⟨cl, x⟩ :: p.log).filterMap (didOf n) =
        (tasksOf n (.did n ⟨cl, x⟩ :: p.log)).flatMap Prod.snd
      have hdid : didOf n (.did n ⟨cl, x⟩) = some ⟨cl, x⟩ := if_pos rfl
      rw [hnow, List.filterMap_cons_some hdid, h.events n, hts]
      rfl
  | @finish n c start o conn running =>
    have hd := h.diary n
    rw [conn] at hd
    obtain ⟨es, ts, hts, hpath, hrest⟩ := hd.running running
    refine h.update rfl (fun m hm => ⟨rfl, rfl⟩) ?_ (h.events n)
    show ∀ t ∈ tasksOf n p.log, Complete env t
    rw [hts]
    intro t ht
    rcases List.mem_cons.mp ht with rfl | ht
    · exact ⟨o, hpath⟩
    · exact hrest t ht
  | feed idle => exact ⟨h.diary, h.events⟩
  | feedDone feed => exact ⟨h.diary, h.events⟩
  | @feedCall cl k x strat feed answer => exact ⟨fun n => diary_post cl (h.diary n), h.events⟩
  | tick => exact ⟨h.diary, h.events⟩

theorem kept_of_reach {ok : Pool.History → Pool.Entry → Prop} (h : Pool.Reach env ok p) :
    Kept env p := by
  induction h with
  | fresh => exact ⟨fun _ => rfl, fun _ => rfl⟩
  | quiet _ hs ih => exact ih.step hs
  | step _ _ hs ih => exact ih.step hs

/-! ## The ledger -/

/-- A session's account of a credited share, with the task that credited it. -/
structure Line where
  task : Pool.Start × List Event
  account : Account

/-- The line is of a task of the session, and sound from what the task did. -/
def Line.Stands (env : Env) (n : Nat) (p : Pool.PoolState) (x : Line) : Prop :=
  x.task ∈ tasksOf n p.log ∧
    x.account.Sound (x.task.1.env env) x.task.1.session x.task.2.reverse

/-- The tasks of a list make up a ledger. -/
theorem lines_of_tasks {ts : List (Pool.Start × List Event)} (h : ∀ t ∈ ts, Complete env t) :
    ∃ lines : List Line,
      (ts.flatMap Prod.snd).filterMap creditOf = lines.map (·.account.credit) ∧
      (ts.flatMap Prod.snd).filterMap rowOf = lines.filterMap (·.account.row) ∧
      ∀ x ∈ lines, x.task ∈ ts ∧
        x.account.Sound (x.task.1.env env) x.task.1.session x.task.2.reverse := by
  induction ts with
  | nil => exact ⟨[], rfl, rfl, by simp⟩
  | cons t ts ih =>
    obtain ⟨lines, hcredits, hrows, hlines⟩ := ih fun t' ht' => h t' (List.mem_cons_of_mem _ ht')
    obtain ⟨o, hpath⟩ := h t List.mem_cons_self
    obtain ⟨a, hc, hr, ha⟩ := books_task t.1.task t.2.reverse o hpath
    rw [List.filterMap_reverse, List.reverse_eq_iff] at hc hr
    refine ⟨(a.map fun x => ⟨t, x⟩).toList ++ lines, ?_, ?_, fun x hx => ?_⟩
    · rw [List.flatMap_cons, List.filterMap_append, hc, hcredits, List.map_append]
      cases a <;> rfl
    · rw [List.flatMap_cons, List.filterMap_append, hr, hrows, List.filterMap_append]
      congr 1
      cases a with
      | none => rfl
      | some x =>
        obtain ⟨credit, row⟩ := x
        cases row <;> rfl
    · rcases List.mem_append.mp hx with hx | hx
      · obtain ⟨x', hx', rfl⟩ := Option.map_eq_some_iff.mp (Option.mem_toList.mp hx)
        exact ⟨List.mem_cons_self, ha x' hx'⟩
      · exact ⟨List.mem_cons_of_mem _ (hlines x hx).1, (hlines x hx).2⟩

/-- **The ledger of a session.** In every run of the pool, whenever a session is
at rest, the shares credited to it and the rows stored for it are the two
columns of one list, in one order. A row is that of its share, and a share has
no row only if its miner had no id, or if the Zcash job its retarget had to send
again has no coinbase for the session. -/
theorem share_ledger {ok : Pool.History → Pool.Entry → Prop} (h : Pool.Reach env ok p)
    {c : Pool.Connection} (hc : p.connections n = some c) (hidle : c.running = none) :
    ∃ lines : List Line,
      (p.log.filterMap (didOf n)).filterMap creditOf = lines.map (·.account.credit) ∧
      (p.log.filterMap (didOf n)).filterMap rowOf = lines.filterMap (·.account.row) ∧
      ∀ x ∈ lines, x.Stands env n p := by
  have hkept := kept_of_reach h
  have hd := hkept.diary n
  rw [hc] at hd
  rw [hkept.events n]
  exact lines_of_tasks (hd.idle hidle)

end Pools

/-- A V1 miner's share is credited and stored, and its repetition neither. -/
theorem share_ledger_miner : ∃ (p : Pool.PoolState) (lines : List Line),
    (p.log.filterMap (didOf 0)).filterMap rowOf = lines.filterMap (·.account.row) ∧
      ((p.log.filterMap (didOf 0)).filterMap rowOf).length = 1 ∧
      ∀ x ∈ lines, x.Stands Play.easyPool 0 p := by
  have h : (PoolPlay.play Play.easyPool (fun _ _ => true) (Pool.fresh Play.easyPool)
      Credits.minerRepeats).any (fun p =>
        decide (((p.log.filterMap (didOf 0)).filterMap rowOf).length = 1) &&
        (p.connections 0).any fun c => c.running.isNone) = true := by
    decide +kernel
  obtain ⟨p, hp, hx⟩ := (Option.any_eq_true _ _).mp h
  rw [Bool.and_eq_true, decide_eq_true_eq] at hx
  obtain ⟨c, hc, hidle⟩ := (Option.any_eq_true _ _).mp hx.2
  have hreach : Pool.Reach Play.easyPool (fun _ _ => True) p :=
    PoolPlay.reach_of_play (fun _ _ _ => trivial) .fresh hp
  obtain ⟨lines, _, hrows, hlines⟩ := share_ledger hreach hc (Option.isNone_iff_eq_none.mp hidle)
  exact ⟨p, lines, hrows, hx.1, hlines⟩

end MkPool.ShareLedger
