import MkPool.Effects
import MkPool.Standing
import MkPool.Validated

/-! # Version bits and the mask that was granted

A mask is negotiated once and used in three places. A V1 submit folds the
miner's bits into the job's version under it, or under the pool's mask when
none was granted. A Stratum V2 submit carries a whole version word, which goes
into the header as it is. -/
namespace MkPool.VersionMask
open MkPool.Lib MkPool.Lib.Interaction MkPool.Utils MkPool.Config MkPool.Job MkPool.Coinbase
open MkPool.Stratifier MkPool.Sv2Messages MkPool.Calls MkPool.ClientSession MkPool.JsonValue
open MkPool.Tasks MkPool.Stratum MkPool.Submit MkPool.StratumV2 MkPool.Desk MkPool.ShareWatch
open MkPool.JobIds MkPool.SessionV2 MkPool.Standing MkPool.WorkAgreement MkPool.Validated
open MkPool.Effects MkPool.Play

/-! ## Bits -/

/-- `validate_version`. -/
def validateVersion (submitted template negotiatedMask : UInt32) : Bool :=
  (submitted &&& ~~~negotiatedMask) = (template &&& ~~~negotiatedMask)

/-- The job's version with the miner's bits under a mask. -/
def folded (template bits mask : UInt32) : UInt32 := (template &&& ~~~mask) ||| (bits &&& mask)

theorem validateVersion_self (v mask : UInt32) : validateVersion v v mask = true := by
  simp [validateVersion]

theorem validateVersion_folded (template bits mask : UInt32) :
    validateVersion (folded template bits mask) template mask = true := by
  unfold validateVersion folded
  refine decide_eq_true (UInt32.toBitVec_inj.mp (BitVec.eq_of_getLsbD_eq fun i hi => ?_))
  simp [hi]
  cases template.toBitVec[i] <;> cases bits.toBitVec[i] <;> cases mask.toBitVec[i] <;> decide

/-- Under the empty mask nothing may differ. -/
theorem validateVersion_zero (v template : UInt32) :
    validateVersion v template 0 = true ↔ v = template := by
  simp [validateVersion]

/-- Folding changes nothing exactly when the bits under the mask are the
template's. -/
theorem folded_eq_iff (template bits mask : UInt32) :
    folded template bits mask = template ↔ bits &&& mask = template &&& mask := by
  simp only [folded, ← UInt32.toBitVec_inj, BitVec.eq_of_getLsbD_eq_iff]
  refine forall₂_congr fun i hi => ?_
  simp [hi]
  cases template.toBitVec[i] <;> cases bits.toBitVec[i] <;> cases mask.toBitVec[i] <;> decide

/-! ## The mask in an answer -/

def maskKey : Str := "\"version-rolling\":true,\"version-rolling.mask\":\"".toList

/-- The mask an answer to `mining.configure` names, if it grants one. -/
def answeredMask : List Str → UInt32
  | kv :: _ =>
    if kv.take maskKey.length = maskKey then
      (parseHexU32 ((kv.drop maskKey.length).take 8)).getD 0
    else 0
  | [] => 0

theorem length_hexPadded32 (v : UInt32) : (hexPadded 8 v.toNat).length = 8 :=
  length_hexPadded (by omega) v.toNat_lt

/-- `%08x`, read back. -/
theorem parseHexU32_hexPadded (v : UInt32) : parseHexU32 (hexPadded 8 v.toNat) = some v := by
  have hlen := length_hexPadded32 v
  have hhex : ∀ c ∈ hexPadded 8 v.toNat, isHexDigit c = true := fun c => digit_of_mem_hexPadded
  have hfold := foldl_hexPadded 8 v.toNat
  unfold parseHexU32
  rw [if_neg (by omega)]
  cases hs : hexPadded 8 v.toNat with
  | nil =>
    rw [hs] at hlen
    cases hlen
  | cons c s =>
    rw [hs] at hhex hfold hlen
    rw [stoul16_digits hhex (by omega), hfold]
    simp

/-! ## What was granted -/

/-- The mask an event tells the miner. -/
def grantIn : Event → Option UInt32
  | ⟨.send (.configured _ body), _⟩ => some (answeredMask body)
  | ⟨.send (.setVersionMask mask), _⟩ => some mask
  | _ => none

/-- The last mask the miner was told, the empty one before that. -/
def lastGrant (w : World) : UInt32 := (w.log.findSome? grantIn).getD 0

/-- The mask a session has been granted: what a V1 miner was told last, and on
Stratum V2, where every job allows rolling, the pool's. -/
def grantedMask (env : Env) (d : DeskState) : UInt32 :=
  if d.session.isV2 then poolVersionMask env else lastGrant d.world

/-- The entry of a granted mask. -/
def rollingEntry (mask : UInt32) : Str :=
  "\"version-rolling\":true,\"version-rolling.mask\":".toList ++ quoted (hexPadded 8 mask.toNat)

/-- The entries of an answer to `mining.configure`. -/
def configureBody (neg : ConfigureResult) : List Str :=
  (if !neg.versionRollingRequested then []
    else if neg.versionRolling then [rollingEntry neg.versionMask]
    else ["\"version-rolling\":false".toList])
  ++ (if neg.minimumDifficulty then ["\"minimum-difficulty\":true".toList] else [])
  ++ (if neg.subscribeExtranonce then ["\"subscribe-extranonce\":true".toList] else [])

theorem maskKey_eq :
    maskKey = "\"version-rolling\":true,\"version-rolling.mask\":".toList ++ ['"'] := by
  decide +kernel

theorem answeredMask_granted {m : UInt32} {rest : List Str} :
    answeredMask (rollingEntry m :: rest) = m := by
  have htext : rollingEntry m = maskKey ++ (hexPadded 8 m.toNat ++ ['"']) := by
    rw [maskKey_eq, List.append_assoc]
    rfl
  have htake : (hexPadded 8 m.toNat ++ ['"']).take 8 = hexPadded 8 m.toNat :=
    List.take_left' (length_hexPadded32 m)
  simp only [answeredMask, htext]
  rw [List.take_left, List.drop_left, if_pos rfl, htake, parseHexU32_hexPadded]
  rfl

/-- **The answer names the mask that is stored.** -/
theorem answeredMask_configureBody (params : List Json) (mask : UInt32) :
    answeredMask (configureBody (negotiateConfigure params mask)) =
      (negotiateConfigure params mask).versionMask := by
  have other (requested minimum extranonce : Bool) :
      answeredMask (configureBody
        { versionRollingRequested := requested, minimumDifficulty := minimum,
          subscribeExtranonce := extranonce }) = 0 := by
    revert requested minimum extranonce
    decide
  unfold negotiateConfigure
  split
  · dsimp only
    split
    · rename_i hreq
      rw [hreq]
      generalize _ &&& mask = granted
      by_cases hz : granted = 0
      · subst hz
        exact other _ _ _
      · have hb : (granted != 0) = true := by simpa using hz
        unfold configureBody
        simp only [hb]
        exact answeredMask_granted
    · rename_i hreq
      have hreq' := Bool.eq_false_of_not_eq_true hreq
      rw [hreq']
      exact other _ _ _
  · exact other _ _ _

/-! ## The session's mask is the one it was told -/

/-- A call that tells the miner no mask. -/
def NoGrant (c : Call) : Prop := ∀ x, grantIn ⟨c, x⟩ = none

theorem noGrant_of_common {c : Call} (h : Common c) : NoGrant c := by
  intro x
  cases c with
  | send line => cases line <;> first | exact h.elim | rfl
  | _ => rfl

/-- The program tells no mask and keeps the session's. -/
abbrev KeepsMask (s : Session) (p : Act Outcome) : Prop := Leaves NoGrant (·.versionMask) s p

theorem versionMask_of_standing {a b : Session} (h : standing a = standing b) :
    a.versionMask = b.versionMask := by
  have hmask := congrArg Session.versionMask h
  exact hmask

theorem keepsMask_of_stays {s : Session} {p : Act Outcome} (h : Stays s p) : KeepsMask s p :=
  h.weaken (fun _ => noGrant_of_common) fun _ _ => versionMask_of_standing

/-- The session's mask is the last one the miner was told. -/
def Told (d : DeskState) : Prop := d.session.versionMask = lastGrant d.world

theorem lastGrant_append {w w' : World} {evs : List Event} (hlog : w'.log = evs ++ w.log)
    (h : ∀ e ∈ evs, grantIn e = none) : lastGrant w' = lastGrant w := by
  unfold lastGrant
  rw [hlog, List.findSome?_append, List.findSome?_eq_none_iff.mpr h, Option.none_or]

theorem Told.run {s : Session} {w w' : World} {p : Act Outcome} {o : Outcome} (h : Told ⟨s, w⟩)
    (run : desk.Exec p w o w') (hp : KeepsMask s p) : Told ⟨o.session, w'⟩ := by
  obtain ⟨evs, hlog, hevs⟩ := exec_log run hp.calls
  have hmask := run.yields _ hp.session
  calc o.session.versionMask = s.versionMask := hmask
    _ = lastGrant w := h
    _ = lastGrant w' := (lastGrant_append hlog fun e he => hevs e he e.2).symm

section Handlers

variable {env : Env} {s : Session} {w w' : World} {msg : Json} {o : Outcome}

theorem told_handleConfigure (run : desk.Exec (handleConfigure env s msg) w o w') :
    Told ⟨o.session, w'⟩ := by
  obtain ⟨_, w₁, hs, run⟩ := run.perform_inv
  obtain ⟨rfl, rfl⟩ := run.ret_inv
  have hbody := answeredMask_configureBody ((msg.arrayAt? "params".toList).getD [])
    (if env.coin.enableVersionRolling then poolVersionMask env else 0)
  unfold Told lastGrant
  rw [hs.log]
  exact hbody.symm

theorem told_handleSubscribe (h : Told ⟨s, w⟩)
    (run : desk.Exec (handleSubscribe env s msg) w o w') : Told ⟨o.session, w'⟩ := by
  have hua : (withUserAgent s msg).versionMask = s.versionMask := by
    unfold withUserAgent
    split <;> rfl
  unfold handleSubscribe at run
  dsimp only at run
  split at run
  · refine h.run run (leaves_ask (fun _ => rfl) fun _ => leaves_done ?_)
    exact hua
  · obtain ⟨_, w₁, hs, run⟩ := run.perform_inv
    have h₁ : Told ⟨subscribe env (withUserAgent s msg), w₁⟩ := by
      unfold Told lastGrant
      rw [hs.log]
      exact hua.trans h
    rcases thenDo_inv run with ⟨t, w₂, hset, run⟩ | ⟨t, rfl, hset⟩
    · have h₂ : Told ⟨t, w₂⟩ := h₁.run hset (keepsMask_of_stays stays_sendSetDifficulty)
      obtain ⟨_, w₃, hsend, run⟩ := run.bind_inv
      obtain ⟨rfl, rfl⟩ := run.ret_inv
      unfold whenDo at hsend
      split at hsend
      · obtain ⟨_, w₄, hs, hret⟩ := hsend.call_inv
        obtain ⟨_, rfl⟩ := hret.ret_inv
        -- the mask that is broadcast is the session's
        unfold Told lastGrant
        rw [hs.log]
        rfl
      · obtain ⟨_, rfl⟩ := hsend.ret_inv
        exact h₂
    · exact h₁.run hset (keepsMask_of_stays stays_sendSetDifficulty)

theorem keepsMask_handleAuthorize : KeepsMask s (handleAuthorize env s msg) := by
  have fail (reason : Str) : KeepsMask s (do
      ask (.send (.authError (safeIdJson env.fmtDouble msg) reason))
      return .done s) := leaves_ask (fun _ => rfl) fun _ => leaves_done rfl
  unfold handleAuthorize
  split
  · refine leaves_ite (fun _ => fail _) fun _ => ?_
    split
    · exact fail _
    · refine leaves_ask (fun _ => rfl) fun bl => ?_
      refine leaves_ite (fun _ => fail _) fun _ => leaves_ite (fun _ => fail _) fun _ => ?_
      refine leaves_ite (fun _ => fail _) fun _ => ?_
      exact leaves_ask (fun _ => rfl) fun _ => leaves_done rfl
  · exact fail _

theorem keepsMask_proceedAuth {req : AuthRequest} : KeepsMask s (proceedAuth env s req) := by
  refine leaves_thenDo ?_ fun t ht => ?_
  · split
    · exact (keepsMask_of_stays stays_sendSetDifficulty).trans rfl
    · exact leaves_done rfl
  · refine leaves_ask (fun _ => rfl) fun _ => leaves_ask (fun _ => rfl) fun minerId => ?_
    exact (keepsMask_of_stays stays_emitLatest).trans ht

theorem keepsMask_validated {v : Validation} {error : Option Str} {valid : Bool} :
    KeepsMask s (Task.prog env s (.validated v error valid)) := by
  have refused (idJson text : Str) : KeepsMask s (do
      ask (.send (.authError idJson text))
      return .done s) := leaves_ask (fun _ => rfl) fun _ => leaves_done rfl
  cases v with
  | payout req =>
    refine leaves_ite (fun _ => leaves_done rfl) fun _ => leaves_ite (fun _ => refused _ _) fun _ => ?_
    refine leaves_ite (fun _ => ?_) fun _ => leaves_ite (fun _ => ?_) fun _ => keepsMask_proceedAuth
    · exact leaves_ask (fun _ => rfl) fun _ => leaves_done rfl
    · split
      · exact keepsMask_proceedAuth.trans rfl
      · exact keepsMask_proceedAuth
  | doge req =>
    refine leaves_ite (fun _ => leaves_done rfl) fun _ => leaves_ite (fun _ => refused _ _) fun _ => ?_
    exact keepsMask_proceedAuth.trans rfl
  | payoutV2 addr =>
    refine leaves_ite (fun _ => leaves_done rfl) fun _ => leaves_ite (fun _ => ?_) fun _ => ?_
    · exact leaves_done rfl
    · exact leaves_done rfl

theorem told_dispatch {method : Str} (h : Told ⟨s, w⟩)
    (run : desk.Exec (dispatch env s method msg) w o w') : Told ⟨o.session, w'⟩ := by
  unfold dispatch at run
  split at run
  · exact told_handleConfigure run
  · split at run
    · exact told_handleSubscribe h run
    · refine h.run run ?_
      refine leaves_ite (fun _ => keepsMask_handleAuthorize) fun _ => ?_
      refine leaves_ite (fun _ => keepsMask_of_stays stays_handleSubmit) fun _ => ?_
      refine leaves_ite (fun _ => keepsMask_of_stays stays_handleSuggestDifficulty) fun _ => ?_
      refine leaves_ite (fun _ => keepsMask_of_stays stays_handleExtranonceSubscribe) fun _ => ?_
      exact leaves_ask (fun _ => rfl) fun _ => leaves_done rfl

theorem told_processLine {line : Option Json} (h : Told ⟨s, w⟩)
    (run : desk.Exec (processLine env s line) w o w') : Told ⟨o.session, w'⟩ := by
  unfold processLine at run
  split at run
  · exact h.run run (leaves_ask (fun _ => rfl) fun _ => leaves_done rfl)
  · split at run
    · exact h.run run (leaves_ask (fun _ => rfl) fun _ => leaves_done rfl)
    · obtain ⟨o₁, w₁, hd, run⟩ := run.bind_inv
      have h₁ := told_dispatch h hd
      cases o₁ with
      | done t =>
        obtain ⟨rfl, rfl⟩ := run.ret_inv
        exact h₁
      | threw t => exact h₁.run run (leaves_ask (fun _ => rfl) fun _ => leaves_done rfl)

end Handlers

theorem lastGrant_published (w : World) (width32 : Bool) (job : MiningJob) :
    lastGrant (w.published width32 job) = lastGrant w := by
  have hlog : (w.published width32 job).log = workEvents width32 job.cleanJobs job ++ w.log := rfl
  refine lastGrant_append hlog fun e he => ?_
  unfold workEvents at he
  cases hc : job.cleanJobs <;> simp only [hc] at he <;>
  · simp at he
    rcases he with rfl | rfl | rfl | rfl | rfl | rfl <;> rfl

/-- **A V1 session knows what it granted.** -/
theorem told_reach {env : Env} {ok : DeskState → Input → Prop} {d : DeskState}
    (h : Reach env false ok d) : Told d := by
  refine (v1_invariant (I := Told) ?_ ?_ ?_ ?_ ?_ ?_ h).2
  · rintro d ⟨_, _, _, rfl⟩
    rfl
  · exact fun s w nextId hi => hi
  · intro s w t readings o w' hv offered hi _ run
    have hi' : Told ⟨s, { w with readings }⟩ := hi
    cases t with
    | line l => exact told_processLine hi' run
    | message msg => exact absurd (hv.v1.symm.trans offered) (by simp)
    | notify job => exact offered.elim
    | validated v error valid => exact hi'.run run keepsMask_validated
    | resetShareCounters | disconnect =>
      obtain ⟨rfl, rfl⟩ := run.ret_inv
      exact hi'
  · intro s w job rest o w' _ hi _ _ run
    have hi' : Told ⟨s, { w with posted := rest }⟩ := hi
    exact hi'.run run (keepsMask_of_stays stays_notifyNewJob)
  · exact fun s w gbt jobId job hi _ _ => hi.trans (lastGrant_published _ _ job).symm
  · exact fun s w _ _ hi => hi

/-! ## The version in the header -/

section Headers

variable {env : Env} {d : DeskState}

theorem length_leHexU32 (v : UInt32) : (leHexU32 v).length = 8 := by
  rw [leHexU32_eq]
  simp [bytesToHex]

theorem take_leHexU32 (v : UInt32) (rest : Str) : (leHexU32 v ++ rest).take 8 = leHexU32 v :=
  List.take_left' (length_leHexU32 v)

/-- The header of a V1 share begins with the version it was rebuilt with. -/
theorem version_of_rebuilt {s : Session} {job : MiningJob} {sub : Submission} {ntimeS : Str}
    {version : UInt32} {sh : Share} (h : RebuiltFrom env s job sub ntimeS version sh) :
    sh.headerHex.take 8 = leHexU32 version := by
  obtain ⟨root, _, hheader⟩ := h.header
  rw [hheader]
  unfold submitHeader buildBlockHeader
  split <;> simp only [List.append_assoc, take_leHexU32]

theorem version_of_hashed {job : Option MiningJob} {cbHex prevhash root bits : Str}
    {version ntime nonce : UInt32} {sh : ShareV2}
    (h : HashedFrom env job (headerV2 version ntime nonce prevhash root bits) cbHex sh) :
    sh.headerHex.take 8 = leHexU32 version := by
  rw [h.header]
  unfold headerV2 buildBlockHeader
  simp only [List.append_assoc, take_leHexU32]

end Headers

/-! ## Shares within the grant -/

/-- The version in the share's header differs from the job's in bits of the
granted mask only. -/
def WithinGrant (env : Env) (d : DeskState) (c : Checked) : Prop :=
  ∃ version, c.headerHex.take 8 = leHexU32 version ∧
    validateVersion version c.version (grantedMask env d) = true

/-- **What keeps a share within the grant.** V1 bits are folded under the granted
mask; with none granted, those under the pool's mask are the job's. The version
word of a Stratum V2 share is that of the job but for the pool's mask. -/
def RollsWithin (env : Env) (d : DeskState) : Task → Prop
  | .line (some msg) =>
    ∀ sub job bits, parseSubmit env d.session msg = .ok sub →
      d.world.strat.jobs.find sub.jobId = some job → sub.versionBits = some bits →
      lastGrant d.world ≠ 0 ∨ bits &&& poolVersionMask env = job.version &&& poolVersionMask env
  | .message (.submitSharesStandard msg) =>
    ∀ version, standardVersion d msg = some version →
      validateVersion msg.version version (poolVersionMask env) = true
  | .message (.submitSharesExtended msg) =>
    ∀ job, namedJob d.world.strat.jobs msg.jobId = some job →
      validateVersion msg.version job.version (poolVersionMask env) = true
  | _ => True

theorem leHexU32_injective {a b : UInt32} (h : leHexU32 a = leHexU32 b) : a = b := by
  have hbytes := congrArg hexToBytes h
  rw [hexToBytes_leHexU32, hexToBytes_leHexU32] at hbytes
  have hvalue := congrArg Wire.leValue (Option.some.inj hbytes)
  rw [Wire.leValue_leBytes a.toNat_lt, Wire.leValue_leBytes b.toNat_lt] at hvalue
  exact UInt32.toNat_inj.mp hvalue

theorem withinGrant_iff {env : Env} {d : DeskState} {c : Checked} {version : UInt32}
    (h : c.headerHex.take 8 = leHexU32 version) :
    WithinGrant env d c ↔ validateVersion version c.version (grantedMask env d) = true := by
  constructor
  · rintro ⟨v, hv, hvalid⟩
    obtain rfl := leHexU32_injective (h.symm.trans hv)
    exact hvalid
  · exact fun hvalid => ⟨version, h, hvalid⟩

section Submits

variable {env : Env} {d : DeskState} {c : Checked}

/-- A V1 share is within the grant exactly when the pool's mask, if it had to
stand in, changed nothing. -/
theorem line_within {msg : Json} (hv : d.session.isV2 = false) (told : Told d)
    (h : checked env d (.line (some msg)) = some c) :
    WithinGrant env d c ↔ RollsWithin env d (.line (some msg)) := by
  obtain ⟨sh, hsh, rfl⟩ := Option.map_eq_some_iff.mp h
  obtain ⟨sub, version, hparse, hfind, hroll, hfrom⟩ := line_rebuilt hsh
  have hgrant : grantedMask env d = lastGrant d.world := by
    unfold grantedMask
    rw [hv]
    rfl
  have hone : RollsWithin env d (.line (some msg)) ↔
      ∀ bits, sub.versionBits = some bits → lastGrant d.world ≠ 0 ∨
        bits &&& poolVersionMask env = sh.job.version &&& poolVersionMask env := by
    constructor
    · exact fun hw bits hbits => hw sub sh.job bits hparse hfind hbits
    · intro hw sub' job' bits hparse' hfind' hbits
      obtain rfl : sub = sub' := Except.ok.inj (hparse.symm.trans hparse')
      obtain rfl : sh.job = job' := Option.some.inj (hfind.symm.trans hfind')
      exact hw bits hbits
  rw [withinGrant_iff (c := ofShare env sh) (version_of_rebuilt hfrom), hgrant, hone]
  show validateVersion version sh.job.version (lastGrant d.world) = true ↔ _
  rw [← told]
  unfold rollVersion at hroll
  cases hbits : sub.versionBits with
  | none =>
    rw [hbits] at hroll
    obtain rfl := Option.some.inj hroll
    simp [validateVersion_self]
  | some bits =>
    simp only [hbits] at hroll
    by_cases hz : d.session.versionMask = 0
    · simp only [hz, true_and, ne_eq, not_true_eq_false, Option.some.injEq, forall_eq', false_or]
        at hroll ⊢
      rw [validateVersion_zero, ← folded_eq_iff]
      by_cases hon : env.coin.enableVersionRolling = true
      · rw [if_pos hon] at hroll
        split at hroll
        · cases hroll
        · rw [← Option.some.inj hroll]
          exact Iff.rfl
      · rw [if_neg hon] at hroll
        simp at hroll
    · have hmask : (if d.session.versionMask = 0 ∧ env.coin.enableVersionRolling then
          poolVersionMask env else d.session.versionMask) = d.session.versionMask :=
        if_neg fun hand => hz hand.1
      rw [hmask, if_neg hz] at hroll
      rw [← Option.some.inj hroll]
      exact ⟨fun _ _ _ => .inl hz, fun _ => validateVersion_folded _ _ _⟩

theorem standard_within {msg : SubmitSharesStandard} (hv : d.session.isV2 = true)
    (h : checked env d (.message (.submitSharesStandard msg)) = some c) :
    WithinGrant env d c ↔ RollsWithin env d (.message (.submitSharesStandard msg)) := by
  obtain ⟨version, hversion, h⟩ := Option.bind_eq_some_iff.mp h
  obtain ⟨sh, hsh, h⟩ := Option.bind_eq_some_iff.mp h
  cases h
  have hheader : sh.headerHex.take 8 = leHexU32 msg.version := by
    unfold rebuiltStandard at hsh
    split at hsh
    · obtain ⟨root, cbHex, hfrom⟩ := custom_hashed hsh
      exact version_of_hashed hfrom
    · obtain ⟨job, _, hsh⟩ := Option.bind_eq_some_iff.mp hsh
      obtain ⟨root, hfrom⟩ := standard_hashed hsh
      exact version_of_hashed hfrom
  have hgrant : grantedMask env d = poolVersionMask env := if_pos hv
  rw [withinGrant_iff hheader, hgrant]
  constructor
  · intro hvalid version' hversion'
    obtain rfl := Option.some.inj (hversion.symm.trans hversion')
    exact hvalid
  · exact fun hw => hw version hversion

theorem extended_within {msg : SubmitSharesExtended} (hv : d.session.isV2 = true)
    (h : checked env d (.message (.submitSharesExtended msg)) = some c) :
    WithinGrant env d c ↔ RollsWithin env d (.message (.submitSharesExtended msg)) := by
  obtain ⟨job, hjob, h⟩ := Option.bind_eq_some_iff.mp h
  obtain ⟨sh, hsh, h⟩ := Option.bind_eq_some_iff.mp h
  cases h
  obtain ⟨root, hfrom⟩ := extended_hashed hsh
  have hgrant : grantedMask env d = poolVersionMask env := if_pos hv
  rw [withinGrant_iff (version_of_hashed hfrom), hgrant]
  constructor
  · intro hvalid job' hjob'
    obtain rfl := Option.some.inj (hjob.symm.trans hjob')
    exact hvalid
  · exact fun hw => hw job hjob

end Submits

/-! ## Runs -/

/-- A session is of one kind from its start. -/
theorem isV2_reach {env : Env} {isV2 : Bool} {ok : DeskState → Input → Prop} {d : DeskState}
    (h : Reach env isV2 ok d) : d.session.isV2 = isV2 := by
  cases isV2 with
  | false => exact (isV1_reach h).v1
  | true =>
    have hv := Reach.invariant (I := IsV2) (fun d hd => isV2_initial hd)
      (fun d i d' hd _ hs => (hd.step hs).1) h
    exact hv.v2

/-- **Which shares stay within the grant.** In every run, a share that a session
accepts has its job's version but for granted bits exactly when it rolls within
them. -/
theorem accepted_version_granted (env : Env) (isV2 : Bool) (d d' : DeskState) (t : Task)
    (readings : Set ℚ) (hash : Hash256) (h : Reach env isV2 (fun _ _ => True) d)
    (hs : Step env d (.task t readings) d') (hacc : AcceptedIn d d' hash) :
    (∃ c, checked env d t = some c ∧ c.hash = hash ∧ WithinGrant env d c) ↔
      RollsWithin env d t := by
  obtain ⟨c, hc, hhash⟩ := checked_of_accepted hs hacc
  have hoffered : Task.Offered d t := by
    cases hs with
    | task offered run => exact offered
  have hiff : WithinGrant env d c ↔ RollsWithin env d t := by
    cases t with
    | line l =>
      cases l with
      | none => cases hc
      | some msg =>
        have hkind := isV2_reach h
        have hv : d.session.isV2 = false := hoffered
        rw [hv] at hkind
        subst hkind
        exact line_within hv (told_reach h) hc
    | message msg =>
      cases msg with
      | submitSharesStandard msg => exact standard_within hoffered hc
      | submitSharesExtended msg => exact extended_within hoffered hc
      | _ => cases hc
    | _ => cases hc
  constructor
  · rintro ⟨c', hc', _, hwithin⟩
    obtain rfl := Option.some.inj (hc.symm.trans hc')
    exact hiff.mp hwithin
  · exact fun hrolls => ⟨c, hc, hhash, hiff.mpr hrolls⟩

/-! ## Two runs -/

/-- A miner negotiates the usual mask and joins. -/
def rollingMiner : List (Replies × Move) :=
  (usual, .line (.object [field "method" (.string "mining.configure".toList),
      field "params" (.array [.array [.string "version-rolling".toList],
        .object [field "version-rolling.mask" (.string "1fffe000".toList)]])])) :: minerJoins
    ++ firstJob

/-- A share of the first job with one bit rolled. -/
def rolledShare : Json :=
  request "mining.submit" ["miner.1", "0100000000000000", "0000000000000000", "00000000",
    "00000000", "00002000"]

/-- A share with a bit rolled is accepted, and it is within the grant. -/
theorem accepted_version_granted_once :
    ∃ (d : DeskState) (c : Checked), grantedMask easyPool d = 0x1fffe000 ∧
      checked easyPool d (.line (some rolledShare)) = some c ∧ WithinGrant easyPool d c ∧
      c.headerHex.take 8 ≠ leHexU32 c.version := by
  have h : (play easyPool anyMove (start easyPool false) rollingMiner).any (fun d =>
      decide (grantedMask easyPool d = 0x1fffe000) && !d.world.log.any Channels.creditedIn &&
        ((checked easyPool d (.line (some rolledShare))).any fun c =>
          decide (c.headerHex.take 8 ≠ leHexU32 c.version)) &&
        (((Move.line rolledShare).input usual d).bind (perform easyPool usual d)).any fun d' =>
          d'.world.log.any Channels.creditedIn) = true := by
    decide +kernel
  obtain ⟨d, hd, hx⟩ := (Option.any_eq_true _ _).mp h
  simp only [Bool.and_eq_true, decide_eq_true_eq, Option.any_eq_true, Bool.not_eq_true'] at hx
  obtain ⟨⟨⟨hmask, hbefore⟩, c, hc, hrolled⟩, d', hd', hafter⟩ := hx
  obtain ⟨i, hi, hd'⟩ := Option.bind_eq_some_iff.mp hd'
  have hs := step_of_perform hi hd'
  simp only [Move.input] at hi
  split at hi
  · cases hi
  · rename_i hv
    cases hi
    obtain ⟨hash, hacc⟩ := accepted_of_step hs hbefore hafter
    have hreach := reach_of_play _ (fun _ _ _ _ _ _ => trivial) reach_start hd
    have hiff := accepted_version_granted easyPool false d d' _ _ hash hreach hs hacc
    have hrolls : RollsWithin easyPool d (.line (some rolledShare)) := by
      intro sub job bits _ _ _
      left
      have hlast : grantedMask easyPool d = lastGrant d.world :=
        if_neg (by simpa using hv)
      rw [← hlast, hmask]
      decide
    obtain ⟨c', hc', _, hwithin⟩ := hiff.mpr hrolls
    obtain rfl := Option.some.inj (hc.symm.trans hc')
    exact ⟨d, c, hmask, hc, hwithin, hrolled⟩

/-- A Stratum V2 share of the first job, with a bit that no mask covers. -/
def strayShare : SubmitSharesStandard :=
  { channelId := 1000, sequenceNumber := 1, jobId := 0x01000000, nonce := 0, ntime := 0,
    version := 0x40000000 }

/-- **A Stratum V2 share outside the mask is accepted.** -/
theorem stray_version_accepted :
    ∃ (env : Env) (d d' : DeskState) (t : Task) (readings : Set ℚ) (hash : Hash256),
      Reach env true (fun _ _ => True) d ∧ Step env d (.task t readings) d' ∧
      AcceptedIn d d' hash ∧ ∀ c, checked env d t = some c → ¬ WithinGrant env d c := by
  have h : (play easyPool anyMove (start easyPool true) (channelOpens ++ firstJob)).any (fun d =>
      !d.world.log.any Channels.creditedIn &&
        ((checked easyPool d (.message (.submitSharesStandard strayShare))).any fun c =>
          decide (c.headerHex.take 8 = leHexU32 strayShare.version) &&
            !validateVersion strayShare.version c.version (grantedMask easyPool d)) &&
        (((Move.message (.submitSharesStandard strayShare)).input usual d).bind
          (perform easyPool usual d)).any fun d' => d'.world.log.any Channels.creditedIn) = true := by
    decide +kernel
  obtain ⟨d, hd, hx⟩ := (Option.any_eq_true _ _).mp h
  simp only [Bool.and_eq_true, decide_eq_true_eq, Option.any_eq_true, Bool.not_eq_true'] at hx
  obtain ⟨⟨hbefore, c, hc, hversion, hstray⟩, d', hd', hafter⟩ := hx
  obtain ⟨i, hi, hd'⟩ := Option.bind_eq_some_iff.mp hd'
  have hs := step_of_perform hi hd'
  obtain ⟨readings, rfl⟩ := Move.task_of_message hi
  obtain ⟨hash, hacc⟩ := accepted_of_step hs hbefore hafter
  refine ⟨easyPool, d, d', _, readings, hash,
    reach_of_play _ (fun _ _ _ _ _ _ => trivial) reach_start hd, hs, hacc, fun c' hc' hwithin => ?_⟩
  obtain rfl := Option.some.inj (hc.symm.trans hc')
  rw [withinGrant_iff hversion, hstray] at hwithin
  cases hwithin

end MkPool.VersionMask
