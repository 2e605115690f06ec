import MkPool.Utils

/-! # `vardiff.cpp`: the difficulty controller of a session

Times are seconds on the steady clock, and 0 is the default time point.
`exp` is `std::exp`. -/
namespace MkPool.Vardiff
open MkPool.Utils

structure VarDiffConfig where
  minDifficulty : ℚ := 1
  maxDifficulty : ℚ := 1000000000

structure VarDiff where
  cfg : VarDiffConfig
  currentDiff : ℚ
  dsps1 : ℚ := 0
  dsps5 : ℚ := 0
  firstShareTs : ℚ := 0
  lastShareTs : ℚ := 0
  lastDiffChangeTs : ℚ := 0
  ssdc : Nat := 0

def kOptimalMultiplier : ℚ := 333 / 100
def kDrrLow : ℚ := 15 / 100
def kDrrHigh : ℚ := 40 / 100
def kSharesPerCheck : Nat := 72
def kCheckSeconds : ℚ := 240
def kFastWindowSeconds : ℚ := 60
def kSlowWindowSeconds : ℚ := 300

def decayTime (exp : ℚ → ℚ) (f fadd fsecs interval : ℚ) : ℚ :=
  if fsecs ≤ 0 then f
  else
    let dexp := min (fsecs / interval) 36
    let fprop := 1 - 1 / exp dexp
    let f := (f + fadd / fsecs * fprop) / (1 + fprop)
    if f < 2 / 10 ^ 16 then 0 else f

def timeBias (exp : ℚ → ℚ) (tdiff period : ℚ) : ℚ := 1 - 1 / exp (min (tdiff / period) 36)

def secsSince (a b : ℚ) : ℚ := if a - b < 1 / 1000 then 1 / 1000 else a - b

namespace VarDiff

/-- The constructor. -/
def new (cfg : VarDiffConfig) (initialDifficulty : ℚ) : VarDiff where
  cfg := cfg
  currentDiff := clamp (llround initialDifficulty) cfg.minDifficulty cfg.maxDifficulty

def current (v : VarDiff) : ℚ := v.currentDiff

def setCurrent (v : VarDiff) (diff : ℚ) : VarDiff :=
  { v with currentDiff := diff, ssdc := 0, firstShareTs := 0, lastShareTs := 0,
           lastDiffChangeTs := 0 }

/-- The retarget value before it is compared with the current one. -/
def optimalDiff (v : VarDiff) (dsps networkDiff : ℚ) : ℚ :=
  let optimal := max (llround (dsps * kOptimalMultiplier) : ℚ) v.cfg.minDifficulty
  let optimal := if 0 < v.cfg.maxDifficulty then min optimal v.cfg.maxDifficulty else optimal
  if 0 < networkDiff then min optimal networkDiff else optimal

/-- The decaying estimates after a share. -/
def observe (exp : ℚ → ℚ) (v : VarDiff) (now observedShareDiff : ℚ) : VarDiff :=
  let decayDt := secsSince now v.lastShareTs
  { v with
    lastShareTs := now
    dsps1 := decayTime exp v.dsps1 observedShareDiff decayDt kFastWindowSeconds
    dsps5 := decayTime exp v.dsps5 observedShareDiff decayDt kSlowWindowSeconds
    ssdc := v.ssdc + 1 }

/-- The one-minute average when shares come fast, else the five-minute one,
corrected for the warm-up. -/
def dspsEstimate (exp : ℚ → ℚ) (v : VarDiff) (now : ℚ) : ℚ :=
  let bdiff := secsSince now v.firstShareTs
  if kSharesPerCheck ≤ v.ssdc then v.dsps1 / timeBias exp bdiff kFastWindowSeconds
  else v.dsps5 / timeBias exp bdiff kSlowWindowSeconds

/-- `on_share`: the controller after the share, and the retarget to send. -/
def onShare (exp : ℚ → ℚ) (v : VarDiff) (now observedShareDiff networkDiff : ℚ) :
    VarDiff × Option ℚ :=
  if v.firstShareTs = 0 then
    ({ v with firstShareTs := now, lastShareTs := now, lastDiffChangeTs := now, ssdc := 1 },
      none)
  else
    let v := v.observe exp now observedShareDiff
    let tdiff := secsSince now v.lastDiffChangeTs
    let dsps := v.dspsEstimate exp now
    let drr := dsps / v.currentDiff
    let optimal := v.optimalDiff dsps networkDiff
    if v.ssdc < kSharesPerCheck ∧ tdiff < kCheckSeconds then (v, none)
    else if observedShareDiff ≠ v.currentDiff then ({ v with ssdc := 0 }, none)
    else if kDrrLow < drr ∧ drr < kDrrHigh then (v, none)
    else if optimal < 1 then (v, none)
    else if optimal = v.currentDiff then (v, none)
    else if optimal < v.currentDiff ∧ v.ssdc = 1 then ({ v with lastDiffChangeTs := now }, none)
    else ({ v with ssdc := 0, lastDiffChangeTs := now, currentDiff := optimal }, some optimal)

/-! ## What a share can do to the difficulty -/

@[simp] theorem setCurrent_current (v : VarDiff) (diff : ℚ) :
    (v.setCurrent diff).current = diff := rfl

/-- **The difficulty moves with a retarget only.** A share that asks for no
retarget leaves it, and a retarget asks for the difficulty it installs. -/
theorem onShare_current (exp : ℚ → ℚ) (v : VarDiff) (now obs net : ℚ) :
    (v.onShare exp now obs net).1.current =
      ((v.onShare exp now obs net).2).getD v.current := by
  unfold onShare
  simp only []
  split_ifs <;> rfl

end VarDiff

end MkPool.Vardiff
