import MkPool.CoinbaseLayout
import MkPool.Published
import MkPool.Play

/-! # The size of a coinbase's script

Consensus takes a coinbase script of 2 to 100 bytes. `updateWork` refuses one
that does not fit in a one-byte size, which is more. The commitment of merged
mining and a long signature together go past the limit. -/
namespace MkPool.ScriptLimit
open MkPool.Lib MkPool.Lib.Transaction MkPool.Utils MkPool.Config MkPool.Job MkPool.Coinbase
open MkPool.Stratifier MkPool.JsonValue MkPool.Desk MkPool.Published MkPool.Play
open MkPool.CoinbaseLayout

/-- A script a coinbase may have. -/
def Accepted (script : Bytes) : Prop := 2 ≤ script.length ∧ script.length ≤ 100

/-- The first halves that sessions put in front of an extranonce: the job's,
and the job's with a session's own commitment. -/
inductive FrontHalf (env : Env) (job : MiningJob) : Str → Prop where
  | plain : FrontHalf env job job.coinbase1
  | spliced {dogeScriptHex : Str} {saj : SessionAuxJob}
      (work : buildSessionAux env dogeScriptHex job = some (some saj)) :
      FrontHalf env job (spliceCommit job.coinbase1 saj.auxCommit)

/-- The job can be mined: whatever the extranonce and the outputs, the script of
its coinbase is accepted, and so is the script of every Dogecoin coinbase that
is committed to. -/
structure Minable (env : Env) (job : MiningJob) : Prop where
  parent : ∀ coinbase1, FrontHalf env job coinbase1 → ∀ extranonce coinbase2 : Bytes,
    extranonce.length = 12 → ∃ script,
      scriptOf (rebuildCoinbase coinbase1 (bytesToHex coinbase2) (bytesToHex extranonce)) =
        some script ∧ Accepted script
  doge : ∀ dogeScriptHex saj, buildSessionAux env dogeScriptHex job = some (some saj) →
    ∃ script, scriptOf saj.dogeCoinbase = some script ∧ Accepted script

/-- **Where the script fits.** No merged mining, no signature, or together a
height and a signature of at most 42 bytes. -/
def ScriptFits (cc : CoinConfig) (bt : BlockTemplate) : Prop :=
  bt.auxEnabled = true → bt.auxPrevhash ≠ [] → cc.coinbaseSignature ≠ [] →
    (heightBytes bt.height).length + cc.coinbaseSignature.length ≤ 42

section Jobs

variable {env : Env} {bt : BlockTemplate} {job : MiningJob}

theorem length_scriptFront (cc : CoinConfig) (bt : BlockTemplate) :
    (scriptFront cc bt).length = (heightBytes bt.height).length + 1
      + (if cc.coinbaseSignature.isEmpty then 0 else cc.coinbaseSignature.length + 1)
      + (if bt.auxEnabled && !bt.auxPrevhash.isEmpty then 44 else 0) := by
  simp only [scriptFront, List.length_append, length_push, length_signaturePush,
    length_placeholder]

/-- The front leaves room for the extranonce exactly where the script fits. -/
theorem scriptFront_iff {cc : CoinConfig} (h0 : 0 ≤ bt.height) (hmax : bt.height < 2 ^ 31)
    (hsig : cc.coinbaseSignature.length ≤ 0x4b) :
    (scriptFront cc bt).length + 12 ≤ 100 ↔ ScriptFits cc bt := by
  have hh := length_heightBytes h0 hmax
  rw [length_scriptFront]
  unfold ScriptFits
  by_cases haux : bt.auxEnabled = true ∧ bt.auxPrevhash ≠ []
  · have hon : (bt.auxEnabled && !bt.auxPrevhash.isEmpty) = true := by
      simp [haux.1, haux.2]
    rw [if_pos hon]
    by_cases hs : cc.coinbaseSignature = []
    · simp only [hs, List.isEmpty_nil, if_true]
      exact ⟨fun _ _ _ hne => absurd rfl hne, fun _ => by omega⟩
    · rw [if_neg (by simpa using hs)]
      exact ⟨fun h _ _ _ => by omega, fun h => by have := h haux.1 haux.2 hs; omega⟩
  · have hoff : ¬ (bt.auxEnabled && !bt.auxPrevhash.isEmpty) = true := by
      simpa using haux
    rw [if_neg hoff]
    refine ⟨fun _ h₁ h₂ _ => absurd ⟨h₁, h₂⟩ haux, fun _ => ?_⟩
    split <;> omega

/-- The script behind a front half of the job. -/
theorem script_of_front {front extranonce coinbase2 : Bytes} (hen : extranonce.length = 12)
    (hfits : front.length + 12 < 0xfd) :
    scriptOf (rebuildCoinbase (bytesToHex (upToExtranonce 12 front)) (bytesToHex coinbase2)
      (bytesToHex extranonce)) = some (front ++ extranonce) := by
  unfold scriptOf rebuildCoinbase
  have hread := hexToBytes_append (hexToBytes_append
    (hexToBytes_bytesToHex (upToExtranonce 12 front)) (hexToBytes_bytesToHex extranonce))
    (hexToBytes_bytesToHex coinbase2)
  rw [hread, Option.bind_some, List.append_assoc]
  exact firstScript_upToExtranonce front extranonce coinbase2 hen (by omega)

/-- A front half has a front of the size of the job's. -/
theorem front_of_half {coinbase1 : Str} (hj : JobOf env bt job)
    (hchain : env.coin.chain ≠ .zcash) (hmax : bt.height < 2 ^ 31)
    (h : FrontHalf env job coinbase1) : ∃ front,
      front.length = (scriptFront env.coin bt).length ∧ front.length + 12 < 0xfd ∧
        coinbase1 = bytesToHex (upToExtranonce 12 front) := by
  obtain ⟨_, _, hfits, hcb⟩ := buildCoinbase1_eq hchain hmax hj.coinbase1
  cases h with
  | plain => exact ⟨_, rfl, hfits, hcb⟩
  | spliced work =>
    have made := auxMade work
    obtain ⟨commit, hlen, hcommit⟩ := made.commit
    have hon : (bt.auxEnabled && !bt.auxPrevhash.isEmpty) = true := by
      have hprev := made.prevhash
      rw [hj.auxPrevhash] at hprev
      have hne : bt.auxPrevhash ≠ [] := by
        rintro he
        rw [he] at hprev
        cases hprev
      simp [← hj.auxEnabled, made.enabled, hne]
    have hroom : 44 ≤ (scriptFront env.coin bt).length := by
      rw [length_scriptFront, if_pos hon]
      omega
    have hsize := length_withCommit hlen hroom
    exact ⟨withCommit (scriptFront env.coin bt) commit, hsize, by omega,
      by rw [hcb, hcommit, spliceCommit_eq hlen hroom]⟩

/-- The Dogecoin scripts always fit. -/
theorem doge_accepted {dogeScriptHex : Str} {saj : SessionAuxJob} (hj : JobOf env bt job)
    (hmax : bt.auxHeight < 2 ^ 31) (h : buildSessionAux env dogeScriptHex job = some (some saj)) :
    ∃ script, scriptOf saj.dogeCoinbase = some script ∧ Accepted script := by
  have made := auxMade h
  obtain ⟨_, _, hcb⟩ := made.coinbase
  obtain ⟨bs, hbs⟩ := made.readable
  obtain ⟨h0, hsig, rest, hrest⟩ := buildDogeCoinbase_eq (hj.auxHeight ▸ hmax) hcb made.built
  have heven : 2 ∣ (bytesToHex (upToExtranonce 0
      (dogeScript job.auxHeight env.coin.coinbaseSignature))).length :=
    ⟨_, Hex.length_encode _⟩
  rw [← hrest] at hbs
  obtain ⟨as, tail, has, _, rfl⟩ := Hex.decode_of_append hbs heven
  obtain rfl := Option.some.inj (has.symm.trans (Hex.decode_encode _))
  have hh := length_heightBytes h0 (hj.auxHeight ▸ hmax)
  have hlen : (dogeScript job.auxHeight env.coin.coinbaseSignature).length =
      (heightBytes job.auxHeight).length + 1 + (if env.coin.coinbaseSignature.isEmpty then 0
        else env.coin.coinbaseSignature.length + 1) := by
    simp only [dogeScript, List.length_append, length_push, length_signaturePush]
  have hbound : 2 ≤ (dogeScript job.auxHeight env.coin.coinbaseSignature).length ∧
      (dogeScript job.auxHeight env.coin.coinbaseSignature).length ≤ 81 := by
    rw [hlen]
    split <;> omega
  refine ⟨dogeScript job.auxHeight env.coin.coinbaseSignature, ?_, hbound.1, by omega⟩
  unfold scriptOf
  rw [← hrest, show hexToBytes _ = _ from hbs, Option.bind_some]
  have hread := firstScript_upToExtranonce (dogeScript job.auxHeight env.coin.coinbaseSignature)
    [] tail rfl (by rw [List.length_nil]; omega)
  rwa [List.append_nil] at hread

theorem minable_iff (hj : JobOf env bt job) (hchain : env.coin.chain ≠ .zcash)
    (hmax : bt.height < 2 ^ 31) (hauxMax : bt.auxHeight < 2 ^ 31) :
    Minable env job ↔ ScriptFits env.coin bt := by
  obtain ⟨h0, hsig, hfits, hcb⟩ := buildCoinbase1_eq hchain hmax hj.coinbase1
  rw [← scriptFront_iff h0 hmax hsig]
  constructor
  · intro h
    obtain ⟨script, hread, _, hle⟩ := h.parent _ .plain (List.replicate 12 0) [] rfl
    rw [hcb, script_of_front rfl hfits] at hread
    obtain rfl := Option.some.inj hread
    simpa using hle
  · intro hle
    refine ⟨fun coinbase1 hfront extranonce coinbase2 hen => ?_,
      fun _ _ work => doge_accepted hj hauxMax work⟩
    obtain ⟨front, hsize, hroom, rfl⟩ := front_of_half hj hchain hmax hfront
    refine ⟨_, script_of_front hen hroom, ?_⟩
    unfold Accepted
    rw [List.length_append, hen]
    omega

end Jobs

/-- The job a step publishes is of the step's template. -/
theorem jobOf_published {env : Env} {d d' : DeskState} {gbt : Json} {jobId : Str}
    {bt : BlockTemplate} {job : MiningJob} (hbt : parseTemplate gbt = some bt)
    (hs : Step env d (.work gbt jobId) d') (hpush : pushed d'.world = job :: pushed d.world) :
    JobOf env bt job := by
  cases hs with
  | @work s w w' _ _ run =>
    rcases work_cases run with ⟨_, rfl⟩ | ⟨job', hj, rfl⟩
    · have hlen : (pushed w).length = (pushed w).length + 1 := congrArg List.length hpush
      omega
    · rw [pushed_published] at hpush
      obtain ⟨rfl, _⟩ := List.cons.inj hpush
      obtain ⟨bt', hbt', hof⟩ := template_of_jobOf hj
      obtain rfl := Option.some.inj (hbt.symm.trans hbt')
      exact hof

/-- **Which jobs can be mined.** A job that `updateWork` publishes can be mined
exactly when the script fits. -/
theorem published_minable_iff (env : Env) (d d' : DeskState) (gbt : Json) (jobId : Str)
    (bt : BlockTemplate) (job : MiningJob) (hchain : env.coin.chain ≠ .zcash)
    (hbt : parseTemplate gbt = some bt) (hs : Step env d (.work gbt jobId) d')
    (hpush : pushed d'.world = job :: pushed d.world) :
    Minable env job ↔ ScriptFits env.coin bt :=
  have hmax := heights_of_parseTemplate hbt
  minable_iff (jobOf_published hbt hs hpush) hchain hmax.1 hmax.2

/-! ## Two pools -/

/-- The merge-mining pool with a signature. -/
def signedPool (sig : Str) : Env :=
  { sampleEnv with coin := { sampleEnv.coin with coinbaseSignature := sig } }

/-- The work of a new session's pool. -/
theorem published_at_start (env : Env) (gbt : Json)
    (h : (perform env usual (start env false) (.work gbt firstId)).any
      (fun d' => (pushed d'.world).length = 1) = true) :
    ∃ d' job, Step env (start env false) (.work gbt firstId) d' ∧
      pushed d'.world = job :: pushed (start env false).world := by
  obtain ⟨d', hd', hone⟩ := (Option.any_eq_true _ _).mp h
  obtain ⟨job, hjob⟩ := List.length_eq_one_iff.mp (of_decide_eq_true hone)
  exact ⟨d', job, step_of_perform (m := .work gbt firstId) rfl hd', hjob⟩

/-- The usual signature fits beside the commitment. -/
theorem usual_signature_fits :
    ∃ d' job, Step (signedPool "/mkpool.com/".toList) (start (signedPool "/mkpool.com/".toList) false)
        (.work (sampleTemplate 'a' 'b') firstId) d' ∧
      job ∈ pushed d'.world ∧ Minable (signedPool "/mkpool.com/".toList) job := by
  obtain ⟨bt, hbt, hfits⟩ : ∃ bt, parseTemplate (sampleTemplate 'a' 'b') = some bt ∧
      (heightBytes bt.height).length + "/mkpool.com/".toList.length ≤ 42 := by
    have h : (parseTemplate (sampleTemplate 'a' 'b')).any (fun bt =>
        (heightBytes bt.height).length + "/mkpool.com/".toList.length ≤ 42) = true := by
      decide +kernel
    obtain ⟨bt, hbt, hfits⟩ := (Option.any_eq_true _ _).mp h
    exact ⟨bt, hbt, of_decide_eq_true hfits⟩
  obtain ⟨d', job, hs, hpush⟩ := published_at_start (signedPool "/mkpool.com/".toList)
    (sampleTemplate 'a' 'b') (by decide +kernel)
  refine ⟨d', job, hs, by rw [hpush]; exact List.mem_cons_self, ?_⟩
  exact (published_minable_iff _ _ d' _ firstId bt job (by decide) hbt hs hpush).mpr
    fun _ _ _ => hfits

/-- **A signature of forty-two bytes.** With the commitment of merged mining, the
job that is published has a script past the limit. -/
theorem merged_script_too_long :
    ∃ (env : Env) (d d' : DeskState) (gbt : Json) (jobId : Str) (job : MiningJob),
      env.coin.chain ≠ .zcash ∧ Reach env false (fun _ _ => True) d ∧
        Step env d (.work gbt jobId) d' ∧ pushed d'.world = job :: pushed d.world ∧
          ¬ Minable env job := by
  let env := signedPool (List.replicate 42 'x')
  obtain ⟨bt, hbt, hon, hprev, hlong⟩ : ∃ bt, parseTemplate (sampleTemplate 'a' 'b') = some bt ∧
      bt.auxEnabled = true ∧ bt.auxPrevhash ≠ [] ∧ 1 ≤ (heightBytes bt.height).length := by
    have h : (parseTemplate (sampleTemplate 'a' 'b')).any (fun bt =>
        bt.auxEnabled && decide (bt.auxPrevhash ≠ []) &&
          decide (1 ≤ (heightBytes bt.height).length)) = true := by
      decide +kernel
    obtain ⟨bt, hbt, hx⟩ := (Option.any_eq_true _ _).mp h
    simp only [Bool.and_eq_true, decide_eq_true_eq] at hx
    exact ⟨bt, hbt, hx.1.1, hx.1.2, hx.2⟩
  obtain ⟨d', job, hs, hpush⟩ := published_at_start env (sampleTemplate 'a' 'b') (by decide +kernel)
  have hmax := heights_of_parseTemplate hbt
  refine ⟨env, _, d', _, firstId, job, by decide, reach_start, hs, hpush, fun hmin => ?_⟩
  have hiff := minable_iff (jobOf_published hbt hs hpush) (by decide) hmax.1 hmax.2
  have hfits := hiff.mp hmin hon hprev (by decide)
  have hsig : env.coin.coinbaseSignature.length = 42 := List.length_replicate
  omega

end MkPool.ScriptLimit
