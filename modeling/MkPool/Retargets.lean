import Mathlib.Tactic.Linarith
import MkPool.Vardiff

/-! # When a difficulty controller retargets

The calls of a session, and what the controller may answer: from when on it
answers at all, between which bounds, and in which direction. -/
namespace MkPool.Retargets
open MkPool.Utils MkPool.Vardiff

/-! ## Runs -/

/-- A call to the controller. `setCurrent` takes no time, but comes at one. -/
inductive Call where
  | onShare (now observedShareDiff networkDiff : ℚ)
  | setCurrent (now diff : ℚ)

def Call.now : Call → ℚ
  | .onShare now .. | .setCurrent now _ => now

/-- The calls and the retargets they asked for, the latest first. -/
abbrev Log := List (Call × Option ℚ)

def react (exp : ℚ → ℚ) (v : VarDiff) : Call → VarDiff × Option ℚ
  | .onShare now observedShareDiff networkDiff => v.onShare exp now observedShareDiff networkDiff
  | .setCurrent _ diff => (v.setCurrent diff, none)

/-- Times do not decrease, and a difficulty that is set is in the range. -/
def Offered (cfg : VarDiffConfig) (log : Log) (call : Call) : Prop :=
  (∀ e ∈ log.head?, e.1.now ≤ call.now) ∧
    match call with
    | .onShare .. => True
    | .setCurrent _ diff => cfg.minDifficulty ≤ diff ∧ diff ≤ cfg.maxDifficulty

/-- The runs of a controller. -/
inductive Run (exp : ℚ → ℚ) (cfg : VarDiffConfig) : Log → VarDiff → Prop where
  | new (initialDifficulty : ℚ) : Run exp cfg [] (.new cfg initialDifficulty)
  | step {log : Log} {v : VarDiff} {call : Call} (h : Run exp cfg log v)
    (hoffer : Offered cfg log call) :
    Run exp cfg ((call, (react exp v call).2) :: log) (react exp v call).1

/-! ## The property -/

/-- The shares since the last change or `set_current`. -/
def counted : Log → Nat
  | (.onShare .., none) :: log => counted log + 1
  | _ => 0

/-- The time of the last change, or of the first share after the start or the
last `set_current`. -/
def since : Log → Option ℚ
  | [] => none
  | (.onShare now .., some _) :: _ => some now
  | (.onShare now .., none) :: log => some ((since log).getD now)
  | (.setCurrent .., _) :: _ => none

/-- The estimate a share leads to, in shares of the current difficulty. -/
def estimatedRate (exp : ℚ → ℚ) (v : VarDiff) (now observedShareDiff : ℚ) : ℚ :=
  (v.observe exp now observedShareDiff).dspsEstimate exp now / v.current

/-- The difficulty of the target rate, before it is kept in the range. -/
def wanted (exp : ℚ → ℚ) (v : VarDiff) (now observedShareDiff : ℚ) : ℚ :=
  llround ((v.observe exp now observedShareDiff).dspsEstimate exp now * kOptimalMultiplier)

def Whole (d : ℚ) : Prop := ∃ n : ℤ, d = n

/-- A retarget within the rules. -/
structure Ruled (exp : ℚ → ℚ) (cfg : VarDiffConfig) (log : Log) (v : VarDiff)
    (now observedShareDiff networkDiff d : ℚ) : Prop where
  whole : Whole d ∨ d = cfg.minDifficulty ∨ d = cfg.maxDifficulty ∨
    0 < networkDiff ∧ d = networkDiff
  moved : d ≠ v.current
  one_le : 1 ≤ d
  le_max : d ≤ cfg.maxDifficulty
  le_network : 0 < networkDiff → d ≤ networkDiff
  min_le : cfg.minDifficulty ≤ d ∨ 0 < networkDiff ∧ networkDiff < cfg.minDifficulty
  due : 72 ≤ counted log + 1 ∨ ∃ t, since log = some t ∧ 240 ≤ now - t
  /-- Else the minimum forces it up: the rate asks for no more than there is. -/
  up : Whole v.current → v.current < d → 40 / 100 ≤ estimatedRate exp v now observedShareDiff ∨
    wanted exp v now observedShareDiff ≤ v.current ∧ v.current < cfg.minDifficulty
  /-- Else the network forces it down: the rate asks for no less than there is. -/
  down : Whole v.current → d < v.current →
    estimatedRate exp v now observedShareDiff ≤ 15 / 100 ∨
      v.current ≤ wanted exp v now observedShareDiff ∧ 0 < networkDiff ∧ d = networkDiff

/-! ## What a retarget says -/

section Retarget
variable {exp : ℚ → ℚ} {v : VarDiff} {now obs net d : ℚ}

theorem llround_le (q : ℚ) : (llround q : ℚ) ≤ q + 1 / 2 := by
  unfold llround
  split
  · exact Int.floor_le _
  · have := Int.ceil_lt_add_one (q - 1 / 2)
    linarith

theorem le_llround (q : ℚ) : q - 1 / 2 ≤ llround q := by
  unfold llround
  split
  · have := Int.lt_floor_add_one (q + 1 / 2)
    linarith
  · exact Int.le_ceil _

/-- A retarget that was asked for, with every test it passed. -/
structure Asked (exp : ℚ → ℚ) (v : VarDiff) (now obs net d : ℚ) : Prop where
  started : v.firstShareTs ≠ 0
  due : 72 ≤ v.ssdc + 1 ∨ 240 ≤ secsSince now v.lastDiffChangeTs
  rate : estimatedRate exp v now obs ≤ 15 / 100 ∨ 40 / 100 ≤ estimatedRate exp v now obs
  optimal : d = v.optimalDiff ((v.observe exp now obs).dspsEstimate exp now) net
  one_le : 1 ≤ d
  moved : d ≠ v.current

theorem asked_of_onShare (h : (v.onShare exp now obs net).2 = some d) :
    Asked exp v now obs net d := by
  unfold VarDiff.onShare at h
  dsimp only at h
  split at h
  · cases h
  · rename_i hstarted
    split at h
    · cases h
    · rename_i hdue
      split at h
      · cases h
      · split at h
        · cases h
        · rename_i hrate
          split at h
          · cases h
          · rename_i hone
            split at h
            · cases h
            · rename_i hmoved
              split at h
              · cases h
              · obtain rfl := Option.some.inj h
                refine ⟨hstarted, ?_, ?_, rfl, not_lt.mp hone, hmoved⟩
                · by_contra hnot
                  obtain ⟨hfew, hsoon⟩ := not_or.mp hnot
                  exact hdue ⟨not_le.mp hfew, not_le.mp hsoon⟩
                · by_contra hnot
                  obtain ⟨hlow, hhigh⟩ := not_or.mp hnot
                  exact hrate ⟨not_le.mp hlow, not_le.mp hhigh⟩

/-- The bounds one after the other. -/
theorem optimalDiff_eq (hmax : 0 < v.cfg.maxDifficulty) (dsps : ℚ) : v.optimalDiff dsps net =
    if 0 < net then
      min (min (max (llround (dsps * kOptimalMultiplier) : ℚ) v.cfg.minDifficulty)
        v.cfg.maxDifficulty) net
    else min (max (llround (dsps * kOptimalMultiplier) : ℚ) v.cfg.minDifficulty)
      v.cfg.maxDifficulty := by
  unfold VarDiff.optimalDiff
  dsimp only
  rw [if_pos hmax]

/-- Below half the target rate, the difficulty of the rate is not above the
current one. -/
theorem wanted_le (hcurrent : 1 ≤ v.current) (hrate : estimatedRate exp v now obs ≤ 15 / 100) :
    wanted exp v now obs ≤ v.current := by
  have hpos : 0 < v.current := by linarith
  have hdsps := (div_le_iff₀ hpos).mp hrate
  have hround := llround_le ((v.observe exp now obs).dspsEstimate exp now * kOptimalMultiplier)
  unfold wanted
  unfold kOptimalMultiplier at *
  linarith

/-- Above four thirds of the target rate, the difficulty of the rate is not
below a whole current one. -/
theorem le_wanted (hcurrent : 1 ≤ v.current) (hwhole : Whole v.current)
    (hrate : 40 / 100 ≤ estimatedRate exp v now obs) : v.current ≤ wanted exp v now obs := by
  have hpos : 0 < v.current := by linarith
  have hdsps := (le_div_iff₀ hpos).mp hrate
  have hround := le_llround ((v.observe exp now obs).dspsEstimate exp now * kOptimalMultiplier)
  obtain ⟨n, hn⟩ := hwhole
  unfold wanted
  unfold kOptimalMultiplier at *
  rw [hn] at hdsps hcurrent ⊢
  have hbelow : ((n - 1 : ℤ) : ℚ)
      < llround ((v.observe exp now obs).dspsEstimate exp now * (333 / 100)) := by
    push_cast
    linarith
  have := Int.cast_lt.mp hbelow
  exact_mod_cast (by omega : n ≤ _)

end Retarget

/-! ## What a run keeps -/

theorem le_clamp {lo hi : ℚ} (h : lo ≤ hi) (x : ℚ) : lo ≤ clamp x lo hi := by
  unfold clamp
  split_ifs <;> linarith

theorem clamp_le {lo hi : ℚ} (h : lo ≤ hi) (x : ℚ) : clamp x lo hi ≤ hi := by
  unfold clamp
  split_ifs <;> linarith

section Step
variable (exp : ℚ → ℚ) (v : VarDiff) (now obs net : ℚ)

theorem onShare_cfg : (v.onShare exp now obs net).1.cfg = v.cfg := by
  unfold VarDiff.onShare
  simp only []
  split_ifs <;> rfl

/-- A share counts itself, and a retarget starts the count again. -/
theorem onShare_ssdc : (v.onShare exp now obs net).1.ssdc ≤
    if (v.onShare exp now obs net).2.isSome then 0 else v.ssdc + 1 := by
  unfold VarDiff.onShare
  simp only []
  split_ifs <;> simp_all [VarDiff.observe]

/-- The time of the last change stays or becomes the time of the share, as it
does with the first share and with a retarget. -/
theorem onShare_lastDiffChangeTs :
    (v.onShare exp now obs net).1.lastDiffChangeTs = now ∨
      v.firstShareTs ≠ 0 ∧ (v.onShare exp now obs net).2 = none ∧
        (v.onShare exp now obs net).1.lastDiffChangeTs = v.lastDiffChangeTs := by
  unfold VarDiff.onShare
  simp only []
  split_ifs <;> simp_all [VarDiff.observe]

end Step

/-- The state of the controller against what was seen. -/
structure Kept (cfg : VarDiffConfig) (log : Log) (v : VarDiff) : Prop where
  cfg_eq : v.cfg = cfg
  one_le : 1 ≤ v.current
  le_max : v.current ≤ cfg.maxDifficulty
  ssdc_le : v.ssdc ≤ counted log
  since_le : v.firstShareTs ≠ 0 → ∃ t, since log = some t ∧ t ≤ v.lastDiffChangeTs
  since_le_now : ∀ t ∈ since log, ∀ e ∈ log.head?, t ≤ e.1.now

section Run
variable {exp : ℚ → ℚ} {cfg : VarDiffConfig} {log : Log} {v : VarDiff}

theorem Kept.new (hone : 1 ≤ cfg.minDifficulty) (hle : cfg.minDifficulty ≤ cfg.maxDifficulty)
    (initialDifficulty : ℚ) : Kept cfg [] (.new cfg initialDifficulty) where
  cfg_eq := rfl
  one_le := le_trans hone (le_clamp hle _)
  le_max := clamp_le hle _
  ssdc_le := Nat.le_refl 0
  since_le h := absurd rfl h
  since_le_now t h := by cases h

/-- **A retarget of a controller that kept its state is within the rules.** -/
theorem Kept.ruled (hone : 1 ≤ cfg.minDifficulty) (hle : cfg.minDifficulty ≤ cfg.maxDifficulty)
    (hkept : Kept cfg log v) {now obs net d : ℚ} (h : (v.onShare exp now obs net).2 = some d) :
    Ruled exp cfg log v now obs net d := by
  have hasked := asked_of_onShare h
  have hoptimal := hasked.optimal
  rw [optimalDiff_eq (by rw [hkept.cfg_eq]; linarith), hkept.cfg_eq] at hoptimal
  change d = if 0 < net then
      min (min (max (wanted exp v now obs) cfg.minDifficulty) cfg.maxDifficulty) net
    else min (max (wanted exp v now obs) cfg.minDifficulty) cfg.maxDifficulty at hoptimal
  have hwanted : Whole (wanted exp v now obs) := ⟨_, rfl⟩
  have hnetwork : 0 < net → d ≤ net := by
    intro hnet
    rw [hoptimal, if_pos hnet]
    exact min_le_right _ _
  have hbase : d = net ∧ 0 < net ∨
      d = min (max (wanted exp v now obs) cfg.minDifficulty) cfg.maxDifficulty := by
    split at hoptimal
    · rename_i hnet
      rcases min_choice (min (max (wanted exp v now obs) cfg.minDifficulty) cfg.maxDifficulty)
        net with hmin | hmin
      · exact .inr (hoptimal.trans hmin)
      · exact .inl ⟨hoptimal.trans hmin, hnet⟩
    · exact .inr hoptimal
  have hunder : d ≤ min (max (wanted exp v now obs) cfg.minDifficulty) cfg.maxDifficulty := by
    rw [hoptimal]
    split
    · exact min_le_left _ _
    · exact le_refl _
  refine {
    whole := ?whole
    moved := hasked.moved
    one_le := hasked.one_le
    le_max := ?le_max
    le_network := hnetwork
    min_le := ?min_le
    due := ?due
    up := ?up
    down := ?down }
  case le_max => exact hunder.trans (min_le_right _ _)
  case whole =>
    rcases hbase with ⟨hd, hnet⟩ | hd
    · exact .inr (.inr (.inr ⟨hnet, hd⟩))
    · rcases min_choice (max (wanted exp v now obs) cfg.minDifficulty) cfg.maxDifficulty
        with hmin | hmin
      · rcases max_choice (wanted exp v now obs) cfg.minDifficulty with hmax | hmax
        · exact .inl (by rw [hd, hmin, hmax]; exact hwanted)
        · exact .inr (.inl (by rw [hd, hmin, hmax]))
      · exact .inr (.inr (.inl (hd.trans hmin)))
  case min_le =>
    have hlow : cfg.minDifficulty
        ≤ min (max (wanted exp v now obs) cfg.minDifficulty) cfg.maxDifficulty :=
      le_min (le_max_right _ _) hle
    rcases hbase with ⟨hd, hnet⟩ | hd
    · rcases le_or_gt cfg.minDifficulty net with hmin | hmin
      · exact .inl (hd ▸ hmin)
      · exact .inr ⟨hnet, hmin⟩
    · exact .inl (hd ▸ hlow)
  case due =>
    rcases hasked.due with hmany | hlate
    · exact .inl (hmany.trans (Nat.add_le_add_right hkept.ssdc_le 1))
    · obtain ⟨t, hsince, ht⟩ := hkept.since_le hasked.started
      refine .inr ⟨t, hsince, ?_⟩
      unfold secsSince at hlate
      split at hlate <;> linarith
  case up =>
    intro _ hup
    rcases hasked.rate with hlow | hhigh
    · have hwant := wanted_le hkept.one_le hlow
      have habove := hup.trans_le (hunder.trans (min_le_left _ _))
      rcases lt_max_iff.mp habove with hover | hover
      · exact absurd hover (not_lt.mpr hwant)
      · exact .inr ⟨hwant, hover⟩
    · exact .inl hhigh
  case down =>
    intro hint hdown
    rcases hasked.rate with hlow | hhigh
    · exact .inl hlow
    · have hwant := le_wanted hkept.one_le hint hhigh
      rcases hbase with ⟨hd, hnet⟩ | hd
      · exact .inr ⟨hwant, hnet, hd⟩
      · have hover := le_min (hwant.trans (le_max_left _ cfg.minDifficulty)) hkept.le_max
        exact absurd (hd ▸ hdown) (not_lt.mpr hover)

/-- One call keeps the state. -/
theorem Kept.step (hone : 1 ≤ cfg.minDifficulty) (hle : cfg.minDifficulty ≤ cfg.maxDifficulty)
    (hkept : Kept cfg log v) {call : Call} (hoffer : Offered cfg log call) :
    Kept cfg ((call, (react exp v call).2) :: log) (react exp v call).1 := by
  obtain ⟨htime, hrange⟩ := hoffer
  cases call with
  | setCurrent now diff =>
    exact {
      cfg_eq := hkept.cfg_eq
      one_le := hone.trans hrange.1
      le_max := hrange.2
      ssdc_le := Nat.zero_le _
      since_le := fun h => absurd rfl h
      since_le_now := by
        intro t ht
        cases ht }
  | onShare now obs net =>
    have hcurrent := v.onShare_current exp now obs net
    have hssdc := onShare_ssdc exp v now obs net
    have hchange := onShare_lastDiffChangeTs exp v now obs net
    have hearlier : ∀ t ∈ since log, t ≤ now := by
      intro t ht
      cases log with
      | nil => cases ht
      | cons e log => exact (hkept.since_le_now t ht e rfl).trans (htime e rfl)
    simp only [react]
    cases hout : (v.onShare exp now obs net).2 with
    | some d =>
      have hruled := hkept.ruled hone hle hout
      rw [hout] at hcurrent hssdc hchange
      refine {
        cfg_eq := (onShare_cfg exp v now obs net).trans hkept.cfg_eq
        one_le := ?_
        le_max := ?_
        ssdc_le := ?_
        since_le := ?_
        since_le_now := ?_ }
      · exact hcurrent ▸ hruled.one_le
      · exact hcurrent ▸ hruled.le_max
      · exact hssdc.trans (Nat.zero_le _)
      · intro _
        rcases hchange with hnow | ⟨_, hnone, _⟩
        · exact ⟨now, rfl, hnow.ge⟩
        · cases hnone
      · rintro _ ⟨⟩ _ ⟨⟩
        exact le_refl now
    | none =>
      rw [hout] at hcurrent hssdc hchange
      refine {
        cfg_eq := (onShare_cfg exp v now obs net).trans hkept.cfg_eq
        one_le := ?_
        le_max := ?_
        ssdc_le := ?_
        since_le := ?_
        since_le_now := ?_ }
      · exact hcurrent ▸ hkept.one_le
      · exact hcurrent ▸ hkept.le_max
      · exact hssdc.trans (Nat.add_le_add_right hkept.ssdc_le 1)
      · intro _
        refine ⟨(since log).getD now, rfl, ?_⟩
        rcases hchange with hnow | ⟨hstarted, _, hstays⟩
        · rw [hnow]
          cases hs : since log with
          | none => exact le_refl now
          | some t => exact hearlier t hs
        · obtain ⟨t, hs, ht⟩ := hkept.since_le hstarted
          rw [hs, hstays]
          exact ht
      · rintro t ht _ ⟨⟩
        cases hs : since log with
        | none =>
          rw [since, hs] at ht
          exact (Option.some.inj ht).ge
        | some t' =>
          rw [since, hs] at ht
          exact (Option.some.inj ht) ▸ hearlier t' hs

theorem Run.kept (hone : 1 ≤ cfg.minDifficulty) (hle : cfg.minDifficulty ≤ cfg.maxDifficulty)
    (h : Run exp cfg log v) : Kept cfg log v := by
  induction h with
  | new initialDifficulty => exact .new hone hle initialDifficulty
  | step _ hoffer ih => exact ih.step hone hle hoffer

end Run

/-- **The controller retargets within its rules.** Whatever the decay, a
difficulty that a share leads to in a run is an integer or one of the bounds,
lies between them but for a smaller network difficulty, is due, and is above or
below a whole one that the rate does not ask for only where a bound forces it. -/
theorem retargets_ruled (exp : ℚ → ℚ) (cfg : VarDiffConfig) (hone : 1 ≤ cfg.minDifficulty)
    (hle : cfg.minDifficulty ≤ cfg.maxDifficulty) {log : Log} {v : VarDiff}
    (h : Run exp cfg log v) {now obs net d : ℚ} (hout : (v.onShare exp now obs net).2 = some d) :
    Ruled exp cfg log v now obs net d :=
  (h.kept hone hle).ruled hone hle hout

/-! ## A retarget to a minimum that is no integer -/

/-- A range that starts between two integers, and a decay of a half. -/
def halved : VarDiffConfig where
  minDifficulty := 3 / 2
  maxDifficulty := 10

def half : ℚ → ℚ := fun _ => 2

/-- The first share of the session comes at 1. -/
def once : VarDiff := (react half (.new halved 2) (.onShare 1 2 0)).1

theorem once_run : Run half halved [(.onShare 1 2 0, none)] once := by
  have hoffer : Offered halved [] (.onShare 1 2 0) := by
    refine ⟨?_, trivial⟩
    rintro e ⟨⟩
  exact (Run.new 2).step hoffer

/-- The second comes a quarter of an hour later. -/
theorem once_late : Offered halved [(.onShare 1 2 0, none)] (.onShare 1001 2 0) := by
  refine ⟨?_, trivial⟩
  rintro e ⟨⟩
  decide +kernel

theorem once_retargets : (once.onShare half 1001 2 0).2 = some (3 / 2) := by
  decide +kernel

/-- The late share takes the difficulty down to the minimum. -/
theorem retargets_ruled_once : Ruled half halved [(.onShare 1 2 0, none)] once 1001 2 0 (3 / 2) :=
  retargets_ruled half halved (by decide +kernel) (by decide +kernel) once_run once_retargets

/-- **The minimum is no cap, and need not be an integer.** -/
theorem retargets_to_minimum : ¬ ∀ (exp : ℚ → ℚ) (cfg : VarDiffConfig), 1 ≤ cfg.minDifficulty →
    cfg.minDifficulty ≤ cfg.maxDifficulty → ∀ (log : Log) (v : VarDiff), Run exp cfg log v →
    ∀ now obs net d : ℚ, Offered cfg log (.onShare now obs net) →
    (v.onShare exp now obs net).2 = some d →
    Whole d ∨ d = cfg.maxDifficulty ∨ 0 < net ∧ d = net := by
  intro h
  rcases h half halved (by decide +kernel) (by decide +kernel) _ once once_run 1001 2 0 (3 / 2)
    once_late once_retargets with ⟨n, hn⟩ | hmax | ⟨hnet, _⟩
  · have hdouble : (3 : ℚ) = (2 * n : ℤ) := by
      push_cast
      linarith
    have : (3 : ℤ) = 2 * n := by exact_mod_cast hdouble
    omega
  · exact absurd hmax (by decide +kernel)
  · exact lt_irrefl 0 hnet

end MkPool.Retargets
