import Mathlib.Data.Rat.Floor
import Mathlib.Tactic.Positivity
import MkPool.Bindings

/-! # The difficulty a proxied V1 miner is told, and the one its upstream wants

The session mirrors the difficulty of its link: it tells the nearest integer,
keeps what it was given, and holds a share to that less a tolerance. -/
namespace MkPool.MirroredDifficulty
open MkPool.Lib MkPool.Utils MkPool.Config MkPool.Coinbase MkPool.UpstreamSource
open MkPool.UpstreamClient (ProxySlot)
open MkPool.ClientSession (maxTarget difficultyOf headerHash)
open MkPool.ProxySession
open MkPool.Proxy (RequestV1 requestV1 handleV1)
open MkPool.Bindings (handleSubmit_sends)

/-! ## The property -/

/-- A difficulty comes from the upstream. -/
inductive Receives (d : ℚ) : Session → Session → Prop where
  | attach (s : Session) (slot : ProxySlot) : Receives d s (attachReturned s (some slot) d)
  | diff (s : Session) : Receives d s (onUpstreamDiff s d)
  | rebind (s : Session) (slot : ProxySlot) (job : Option ProxyNotify) :
    Receives d s (onRebind s slot job d)

/-- Everything else a session does. -/
inductive Handles (env : Env) : Session → Session → Prop where
  | request (s : Session) (r : RequestV1) : Handles env s (requestV1 env s r).1
  | job (s : Session) (job : ProxyNotify) : Handles env s (onUpstreamJob s job)
  | extranonce (s : Session) (en1Hex : Str) (en2Size : Nat) :
    Handles env s (onUpstreamExtranonce s en1Hex en2Size)
  | state (s : Session) (up : Bool) : Handles env s (handleV1 s (.state up)).1
  | held (s : Session) : Handles env s (held s)
  | unattached (s : Session) (d : ℚ) : Handles env s (attachReturned s none d)
  | fetched (s : Session) (job : Option ProxyNotify) : Handles env s (jobReturned s job)
  | close (s : Session) : Handles env s { s with closed := true }

/-- A session and what becomes of it until the next difficulty. -/
inductive Stays (env : Env) : Session → Session → Prop where
  | refl (s : Session) : Stays env s s
  | step {s s' s'' : Session} (h : Stays env s s') (hstep : Handles env s' s'') : Stays env s s''

def difficultyIn : Line → Option Int
  | .setDifficulty d => some d
  | _ => none

/-- The difficulties a step sent to the miner. -/
def advertised (s s' : Session) : List Int :=
  (s'.sent.take (s'.sent.length - s.sent.length)).filterMap difficultyIn

/-- A share of the difficulty the miner was told is accepted, and is one for the
upstream. -/
structure Honours (env : Env) (d : ℚ) (v : Int) (s : Session) : Prop where
  accepted : ∀ job sh version header, (v : ℚ) ≤ shareDiff env (headerHash env header) →
    ∃ f, scoreShare env s job sh version header = (s.send .result, some f) ∧ f.callback = true
  upstream : ∀ header, (v : ℚ) ≤ shareDiff env (headerHash env header) →
    d ≤ shareDiff env (headerHash env header)

/-- What a session is to do with a difficulty it receives. -/
def Mirrors (env : Env) (d : ℚ) : Prop :=
  ∀ s s', Receives d s s' → ∀ v ∈ advertised s s',
    0 < v ∧ ∀ s'', Stays env s' s'' → Honours env d v s''

/-- The target of difficulty 1. -/
def oneTarget (env : Env) : ℚ :=
  maxTarget (if env.coin.chain.isScrypt then env.coin.chain else .bitcoin)

/-- The nearest integer is positive, and no hash lies between its target and the
target of the difficulty. -/
def Mirrored (maxTarget d : ℚ) : Prop :=
  1 / 2 ≤ d ∧ ⌊maxTarget / ⌊d + 1 / 2⌋⌋ * d ≤ maxTarget

/-! ## What is sent and kept -/

section Steps
variable {env : Env} {s s' : Session} {d : ℚ}

theorem llround_pos (hd : 0 < d) : llround (if 0 < d then d else 1) = ⌊d + 1 / 2⌋ := by
  rw [if_pos hd, llround, if_pos hd.le]

/-- The lines a step sends before those of the session. -/
theorem advertised_eq {lines : List Line} (h : s'.sent = lines ++ s.sent) :
    advertised s s' = lines.filterMap difficultyIn := by
  unfold advertised
  rw [h, List.length_append, Nat.add_sub_cancel, List.take_left']
  rfl

/-- Notifying and remembering leave the difficulty alone, and tell none. -/
structure Notifies (s s' : Session) : Prop where
  target : s'.targetDiff = s.targetDiff
  sent : ∃ lines, s'.sent = lines ++ s.sent ∧ lines.filterMap difficultyIn = []

theorem Notifies.refl (s : Session) : Notifies s s := ⟨rfl, [], rfl, rfl⟩

theorem Notifies.send (s : Session) {line : Line} (h : difficultyIn line = none) :
    Notifies s (s.send line) :=
  ⟨rfl, [line], rfl, by rw [List.filterMap_cons, h]; rfl⟩

theorem Notifies.trans {s'' : Session} (h : Notifies s s') (h' : Notifies s' s'') :
    Notifies s s'' := by
  obtain ⟨lines, hlines, hnone⟩ := h.sent
  obtain ⟨lines', hlines', hnone'⟩ := h'.sent
  refine ⟨h'.target.trans h.target, lines' ++ lines, ?_, ?_⟩
  · rw [hlines', hlines, List.append_assoc]
  · rw [List.filterMap_append, hnone', hnone]
    rfl

theorem notifies_emit (s : Session) (force : Bool) : Notifies s (emitCurrentJob s force) := by
  unfold emitCurrentJob
  split
  · exact .refl s
  · exact .send s rfl

theorem notifies_remember (s : Session) (job : ProxyNotify) : Notifies s (rememberJob s job) := by
  unfold rememberJob
  split
  · exact .refl s
  · exact ⟨rfl, [], rfl, rfl⟩

/-- The session keeps a difficulty, and tells its nearest integer if any. -/
structure Tells (d : ℚ) (s s' : Session) : Prop where
  target : s'.targetDiff = d
  sent : ∃ lines, s'.sent = lines ++ s.sent ∧
    ∀ v ∈ lines.filterMap difficultyIn, v = ⌊d + 1 / 2⌋

theorem Tells.advertised (h : Tells d s s') : ∀ v ∈ advertised s s', v = ⌊d + 1 / 2⌋ := by
  obtain ⟨lines, hlines, htold⟩ := h.sent
  rw [advertised_eq hlines]
  exact htold

theorem Tells.notifies {s'' : Session} (h : Tells d s s') (h' : Notifies s' s'') :
    Tells d s s'' := by
  obtain ⟨lines, hlines, htold⟩ := h.sent
  obtain ⟨more, hmore, hnone⟩ := h'.sent
  refine ⟨h'.target.trans h.target, more ++ lines, ?_, ?_⟩
  · rw [hmore, hlines, List.append_assoc]
  · rw [List.filterMap_append, hnone]
    exact htold

theorem tells_setDifficulty (hd : 0 < d) {t : Session} (lines : List Line)
    (htarget : t.targetDiff = d) (hsent : t.sent = lines ++ s.sent)
    (hnone : lines.filterMap difficultyIn = []) : Tells d s (sendSetDifficulty t d) := by
  refine ⟨htarget, .setDifficulty (llround (if 0 < d then d else 1)) :: lines, ?_, ?_⟩
  · exact congrArg (_ :: ·) hsent
  · rw [llround_pos hd]
    show ∀ v ∈ _ :: lines.filterMap difficultyIn, _
    rw [hnone]
    intro v hv
    exact List.mem_singleton.mp hv

/-- **A difficulty that is received is kept**, and its nearest integer is all
that is told of it. -/
theorem Receives.tells (hd : 0 < d) (h : Receives d s s') : Tells d s s' := by
  cases h with
  | attach slot =>
    unfold attachReturned sendSubscribeReply
    dsimp only
    split
    · exact (tells_setDifficulty hd [.subscribed slot.en1Hex slot.en2Size] rfl rfl rfl).notifies
        (.send _ rfl)
    · exact tells_setDifficulty hd [.subscribed slot.en1Hex slot.en2Size] rfl rfl rfl
  | diff =>
    unfold onUpstreamDiff
    dsimp only
    split
    · exact tells_setDifficulty hd [] rfl rfl rfl
    · refine ⟨rfl, [], rfl, ?_⟩
      intro v hv
      cases hv
  | rebind slot job =>
    unfold onRebind
    dsimp only
    rw [if_pos hd]
    split
    · have htells : Tells d s (sendSetDifficulty (Session.send { s with
          slot := .of slot, attached := true, upstreamDiff := d, targetDiff := d }
          (.setExtranonce slot.en1Hex slot.en2Size)) d) :=
        tells_setDifficulty hd [.setExtranonce slot.en1Hex slot.en2Size] rfl rfl rfl
      cases job with
      | none => exact htells
      | some job =>
        refine Tells.notifies ?_ ((notifies_remember _ job).trans (notifies_emit _ true))
        exact ⟨htells.target, htells.sent⟩
    · refine ⟨rfl, [], rfl, ?_⟩
      intro v hv
      cases hv

/-- No other handler touches it. -/
theorem Handles.target (h : Handles env s s') : s'.targetDiff = s.targetDiff := by
  cases h with
  | request r =>
    cases r with
    | configure params => rfl
    | subscribe =>
      unfold requestV1
      dsimp only
      split <;> rfl
    | authorize =>
      unfold requestV1 handleAuthorize
      dsimp only
      split
      · exact (notifies_emit _ true).target
      · rfl
    | extranonceSubscribe => rfl
    | submit params now =>
      obtain ⟨line, hline, -⟩ := handleSubmit_sends env s params now
      unfold requestV1
      dsimp only
      rw [hline]
      rfl
  | job job =>
    unfold onUpstreamJob
    dsimp only
    split
    · exact ((notifies_remember _ job).trans (notifies_emit _ false)).target
    · exact (notifies_remember _ job).target
  | extranonce en1Hex en2Size =>
    unfold onUpstreamExtranonce
    dsimp only
    split
    · exact (notifies_emit _ true).target
    · rfl
  | state up =>
    unfold handleV1
    dsimp only
    split
    · split <;> rfl
    · rfl
  | held => rfl
  | unattached => rfl
  | fetched job =>
    cases job with
    | none => rfl
    | some job => exact (notifies_remember _ job).target
  | close => rfl

theorem Stays.target (h : Stays env s s') : s'.targetDiff = s.targetDiff := by
  induction h with
  | refl => rfl
  | step _ hstep ih => exact hstep.target.trans ih

end Steps

/-! ## The difficulties that are mirrored -/

section Difficulty
variable {env : Env} {d : ℚ}

theorem maxTarget_pos (chain : ChainKind) : 0 < maxTarget chain := by
  unfold maxTarget
  split
  · norm_num
  · split <;> norm_num

theorem maxTarget_lt (chain : ChainKind) : maxTarget chain < 2 ^ 256 := by
  unfold maxTarget
  split
  · norm_num
  · split <;> norm_num

/-- The difficulty of a share by the number its hash is. -/
theorem shareDiff_eq (env : Env) (hash : Hash256) : shareDiff env hash =
    if 0 < beValue hash.bytes then oneTarget env / beValue hash.bytes else 0 := by
  unfold shareDiff difficultyOf oneTarget
  rfl

/-- A share of the integer is one of a difficulty that is mirrored. -/
theorem Mirrored.le_shareDiff (h : Mirrored (oneTarget env) d) {hash : Hash256}
    (hshare : (⌊d + 1 / 2⌋ : ℚ) ≤ shareDiff env hash) : d ≤ shareDiff env hash := by
  obtain ⟨hhalf, htarget⟩ := h
  have hone : (1 : ℤ) ≤ ⌊d + 1 / 2⌋ := Int.le_floor.mpr (by push_cast; linarith)
  have hpos : (0 : ℚ) < ⌊d + 1 / 2⌋ := by exact_mod_cast hone
  rw [shareDiff_eq] at hshare ⊢
  split
  · rename_i hhash
    rw [if_pos hhash] at hshare
    have hcast : (0 : ℚ) < beValue hash.bytes := by exact_mod_cast hhash
    have hfloor : (beValue hash.bytes : ℤ) ≤ ⌊oneTarget env / ⌊d + 1 / 2⌋⌋ := by
      refine Int.le_floor.mpr ?_
      rw [le_div_iff₀ hpos]
      have := (le_div_iff₀ hcast).mp hshare
      push_cast
      linarith
    have hfloor' : (beValue hash.bytes : ℚ) ≤ (⌊oneTarget env / ⌊d + 1 / 2⌋⌋ : ℤ) := by
      exact_mod_cast hfloor
    rw [le_div_iff₀ hcast]
    have hd : 0 ≤ d := by linarith
    have := mul_le_mul_of_nonneg_right hfloor' hd
    linarith
  · rename_i hzero
    rw [if_neg hzero] at hshare
    linarith

theorem Mirrored.honours (h : Mirrored (oneTarget env) d) {s : Session} (hs : s.targetDiff = d) :
    Honours env d ⌊d + 1 / 2⌋ s where
  upstream _ hshare := h.le_shareDiff hshare
  accepted job sh version header hshare := by
    have hle := h.le_shareDiff hshare
    have hd : 0 < d := by linarith [h.1]
    have hpass : ¬ shareDiff env (headerHash env header) < threshold s * (99 / 100) := by
      rw [threshold, hs, if_pos hd]
      linarith
    unfold scoreShare
    dsimp only
    rw [if_neg hpass]
    exact ⟨_, rfl, rfl⟩

/-- Every number of 256 bits is a hash. -/
theorem exists_hash {n : Nat} (h : n < 2 ^ 256) : ∃ hash : Hash256, beValue hash.bytes = n := by
  refine ⟨⟨(Wire.leBytes 32 n).reverse, by simp⟩, ?_⟩
  rw [beValue_eq, List.reverse_reverse]
  exact Wire.leValue_leBytes (by norm_num at h ⊢; exact h)

/-- A difficulty that is not above its nearest integer is mirrored. -/
theorem mirrored_of_le (hhalf : 1 / 2 ≤ d) (hle : d ≤ ⌊d + 1 / 2⌋) :
    Mirrored (oneTarget env) d := by
  refine ⟨hhalf, ?_⟩
  have hpos : (0 : ℚ) < ⌊d + 1 / 2⌋ := by linarith
  have hquot : 0 ≤ oneTarget env / ⌊d + 1 / 2⌋ := (div_pos (maxTarget_pos _) hpos).le
  calc (⌊oneTarget env / ⌊d + 1 / 2⌋⌋ : ℚ) * d
      ≤ oneTarget env / ⌊d + 1 / 2⌋ * d :=
        mul_le_mul_of_nonneg_right (Int.floor_le _) (by linarith)
    _ ≤ oneTarget env / ⌊d + 1 / 2⌋ * ⌊d + 1 / 2⌋ := mul_le_mul_of_nonneg_left hle hquot
    _ = oneTarget env := div_mul_cancel₀ _ hpos.ne'

/-- A miner that attaches is told the nearest integer. -/
theorem told_at_attach (hd : 0 < d) (slot : ProxySlot) :
    ⌊d + 1 / 2⌋ ∈ advertised {} (attachReturned {} (some slot) d) := by
  rw [← llround_pos hd]
  exact List.mem_singleton.mpr rfl

/-- What every hash shows of the difficulty. -/
theorem mirrored_of_mirrors (hd : 0 < d) (h : ∀ hashes, Mirrors { env with hashes } d) :
    Mirrored (oneTarget env) d := by
  have htold := told_at_attach hd ⟨0, 0, [], [], 0⟩
  have hone : 0 < ⌊d + 1 / 2⌋ := (h env.hashes {} _ (.attach {} _) _ htold).1
  have hpos : (0 : ℚ) < ⌊d + 1 / 2⌋ := by exact_mod_cast hone
  refine ⟨?_, ?_⟩
  · have hle : (1 : ℚ) ≤ ⌊d + 1 / 2⌋ := by exact_mod_cast hone
    have := Int.floor_le (d + 1 / 2)
    linarith
  · rcases le_or_gt ⌊oneTarget env / ⌊d + 1 / 2⌋⌋ 0 with hnone | hsome
    · have hcast : ((⌊oneTarget env / ⌊d + 1 / 2⌋⌋ : ℤ) : ℚ) ≤ 0 := by exact_mod_cast hnone
      have := mul_nonpos_of_nonpos_of_nonneg hcast hd.le
      have : 0 < oneTarget env := maxTarget_pos _
      linarith
    · -- the hash whose number is the target of the integer
      obtain ⟨n, hn⟩ := Int.eq_ofNat_of_zero_le hsome.le
      have hfloor : (n : ℚ) ≤ oneTarget env / ⌊d + 1 / 2⌋ := by
        have := Int.floor_le (oneTarget env / ⌊d + 1 / 2⌋)
        rw [hn] at this
        exact_mod_cast this
      have hle : (1 : ℚ) ≤ ⌊d + 1 / 2⌋ := by exact_mod_cast hone
      have hsmall : n < 2 ^ 256 := by
        have hdiv : oneTarget env / ⌊d + 1 / 2⌋ ≤ oneTarget env :=
          div_le_self (maxTarget_pos _).le hle
        have : (n : ℚ) < 2 ^ 256 := (hfloor.trans hdiv).trans_lt (maxTarget_lt _)
        exact_mod_cast this
      obtain ⟨hash, hhash⟩ := exists_hash hsmall
      have hpositive : 0 < beValue hash.bytes := by omega
      have hcast : (0 : ℚ) < beValue hash.bytes := by exact_mod_cast hpositive
      have hkept := (h ⟨fun _ => hash.reverse, fun _ => hash.reverse⟩ {} _ (.attach {} _) _
        htold).2 _ (.refl _)
      have hscored : headerHash { env with
          hashes := ⟨fun _ => hash.reverse, fun _ => hash.reverse⟩ } [] = hash := by
        unfold headerHash
        split <;> exact Hash256.ext_bytes (List.reverse_reverse _)
      have hup := hkept.upstream []
      rw [hscored, shareDiff_eq, if_pos hpositive, le_div_iff₀ hcast, le_div_iff₀ hcast,
        hhash] at hup
      change (⌊d + 1 / 2⌋ : ℚ) * n ≤ oneTarget env → d * n ≤ oneTarget env at hup
      have hmeets := (le_div_iff₀ hpos).mp hfloor
      rw [mul_comm] at hmeets
      rw [hn, mul_comm]
      exact_mod_cast hup hmeets

end Difficulty

/-- **The proxy enforces what it advertises** for the difficulties that are
mirrored, and no others. -/
theorem mirrors_iff (env : Env) {d : ℚ} (hd : 0 < d) :
    (∀ hashes, Mirrors { env with hashes } d) ↔ Mirrored (oneTarget env) d := by
  constructor
  · exact mirrored_of_mirrors hd
  · intro h hashes s s' hreceives v hv
    have h : Mirrored (oneTarget { env with hashes }) d := h
    have htells := hreceives.tells hd
    obtain rfl := htells.advertised v hv
    refine ⟨Int.floor_pos.mpr (by linarith [h.1]), fun s'' hstays => ?_⟩
    exact h.honours (hstays.target.trans htells.target)

/-- Difficulty 1. -/
theorem mirrors_iff_one : Mirrored (oneTarget Proxy.sampleEnv) 1 ∧
    ∀ hashes, Mirrors { Proxy.sampleEnv with hashes } 1 := by
  have hmirrored : Mirrored (oneTarget Proxy.sampleEnv) 1 := by
    refine mirrored_of_le (by norm_num) ?_
    exact_mod_cast (Int.le_floor.mpr (by norm_num) : (1 : ℤ) ≤ ⌊(1 : ℚ) + 1 / 2⌋)
  exact ⟨hmirrored, (mirrors_iff Proxy.sampleEnv one_pos).mpr hmirrored⟩

/-- **A difficulty below a half goes out as 0.** -/
theorem not_mirrored_below_half :
    ¬ ∀ (env : Env) (d : ℚ), 0 < d → ∀ hashes, Mirrors { env with hashes } d := by
  intro h
  have hmirrored := mirrored_of_mirrors (by norm_num) (h Proxy.sampleEnv (2 / 5) (by norm_num))
  exact absurd hmirrored.1 (by norm_num)

end MkPool.MirroredDifficulty
