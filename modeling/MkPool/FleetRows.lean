import MkPool.Lib.Grouping
import MkPool.Lib.StableSort
import MkPool.Utils
import Mathlib.Algebra.BigOperators.Group.List.Basic
import Mathlib.Order.Bounds.Basic
import Mathlib.Algebra.Order.Ring.Rat
import Mathlib.Algebra.Order.BigOperators.Group.List

/-! # `dashboard/server.js`: one row for all channels of a name

Rows come one a channel. Those of the second protocol that share a name become
one row, kept under the name as a property of an object. The object is not empty:
it inherits what every object has. Numbers are exact here. -/
namespace MkPool.FleetRows
open MkPool.Utils (Str)
open MkPool.Lib.Grouping MkPool.Lib.StableSort

/-! ## Hash rates as text -/

/-- White space of `trim` and of `\s`. -/
def isWhite (c : Char) : Bool :=
  (9 ≤ c.toNat && c.toNat ≤ 13) || (0x2000 ≤ c.toNat && c.toNat ≤ 0x200a) ||
    [0x20, 0xa0, 0x1680, 0x2028, 0x2029, 0x202f, 0x205f, 0x3000, 0xfeff].contains c.toNat

def trim (s : Str) : Str := ((s.dropWhile isWhite).reverse.dropWhile isWhite).reverse

def number (ds : Str) : ℕ := ds.foldl (fun n c => 10 * n + (c.toNat - '0'.toNat)) 0

/-- `parseFloat` of digits and dots, where `none` is `NaN`. -/
def parseFloat (s : Str) : Option ℚ :=
  let whole := s.takeWhile Char.isDigit
  let fraction := match s.dropWhile Char.isDigit with
    | '.' :: t => t.takeWhile Char.isDigit
    | _ => []
  if whole = [] ∧ fraction = [] then none
  else some (number (whole ++ fraction) / 10 ^ fraction.length)

def multiplier (c : Char) : ℚ :=
  match c.toUpper with
  | 'K' => 10 ^ 3
  | 'M' => 10 ^ 6
  | 'G' => 10 ^ 9
  | 'T' => 10 ^ 12
  | 'P' => 10 ^ 15
  | 'E' => 10 ^ 18
  | _ => 1

/-- `hashToHs`. -/
def hashToHs (str : Str) : Option ℚ :=
  let s := trim (if str = [] then ['0'] else str)
  let mantissa := s.takeWhile fun c => c.isDigit || c = '.'
  let suffix := ((s.drop mantissa.length).dropWhile isWhite).head?
  if mantissa = [] then some 0 else (parseFloat mantissa).map (· * suffix.elim 1 multiplier)

/-- The text of a number from `10 ^ 21` on. -/
def exponential (n : ℕ) : Str :=
  let digits := Nat.toDigits 10 n
  let power := 'e' :: '+' :: Nat.toDigits 10 (digits.length - 1)
  match (digits.reverse.dropWhile (· = '0')).reverse with
  | d :: e :: ds => d :: '.' :: e :: ds ++ power
  | ds => ds ++ power

/-- `Number.prototype.toFixed`. -/
def toFixed (x : ℚ) (places : ℕ) : Str :=
  let sign := if x < 0 then ['-'] else []
  let n := ⌊|x| * 10 ^ places + 1 / 2⌋.toNat
  let digits := Nat.toDigits 10 n
  let padded := List.replicate (places + 1 - digits.length) '0' ++ digits
  let whole := padded.take (padded.length - places)
  let fraction := padded.drop (padded.length - places)
  if 10 ^ 21 ≤ |x| then sign ++ exponential ⌊|x|⌋.toNat
  else sign ++ whole ++ if places = 0 then [] else '.' :: fraction

/-- `fmtHs`, its value and its unit with a space between. -/
def fmtHs (hs : ℚ) : Str :=
  let steps : List (ℚ × Str) :=
    [(10 ^ 18, "EH/s".toList), (10 ^ 15, "PH/s".toList), (10 ^ 12, "TH/s".toList),
      (10 ^ 9, "GH/s".toList), (10 ^ 6, "MH/s".toList), (10 ^ 3, "KH/s".toList)]
  match steps.find? fun s => s.1 ≤ hs with
  | some (m, u) => toFixed (hs / m) 2 ++ ' ' :: u
  | none => toFixed hs 0 ++ ' ' :: "H/s".toList

/-! ## Rows -/

/-- Hash rates over one minute, five minutes, an hour and a day. -/
@[ext] structure Windows where
  m1 : ℚ
  m5 : ℚ
  h1 : ℚ
  d1 : ℚ
deriving DecidableEq

instance : Zero Windows := ⟨{ m1 := 0, m5 := 0, h1 := 0, d1 := 0 }⟩

instance : Add Windows :=
  ⟨fun a b => { m1 := a.m1 + b.m1, m5 := a.m5 + b.m5, h1 := a.h1 + b.h1, d1 := a.d1 + b.d1 }⟩

instance : AddCommMonoid Windows where
  add_assoc a b c := Windows.ext (add_assoc ..) (add_assoc ..) (add_assoc ..) (add_assoc ..)
  zero_add a := Windows.ext (zero_add _) (zero_add _) (zero_add _) (zero_add _)
  add_zero a := Windows.ext (add_zero _) (add_zero _) (add_zero _) (add_zero _)
  add_comm a b := Windows.ext (add_comm ..) (add_comm ..) (add_comm ..) (add_comm ..)
  nsmul := nsmulRec

/-- A row of the unified schema. `sumHs` is `_hs`, which only the merge sets. -/
@[ext] structure Row where
  name : Str
  proto : Str
  conns : ℕ := 1
  declared : Option ℚ := none
  accepted : Option ℚ := none
  rejected : Option ℚ := none
  rejectReasons : Option (List (Str × ℕ)) := none
  hashrate : Str := "0 H/s".toList
  hs : Option Windows := none
  trend : Option (List ℚ) := none
  idle : Bool := false
  best : ℚ := 0
  last : ℚ := 0
  firstSeen : ℚ := 0
  uptime : ℚ := 0
  sumHs : ℚ := 0
deriving DecidableEq

def Row.isSv2 (w : Row) : Bool := w.proto = "SV2".toList

/-- A name's first row. -/
def first (w : Row) : Row := { w with conns := 1, sumHs := (hashToHs w.hashrate).getD 0 }

/-- The earlier time, where zero is none. -/
def earlier (t u : ℚ) : ℚ := if u ≠ 0 ∧ (t = 0 ∨ u < t) then u else t

/-- A count with another added, if that is a number. -/
def addCount (m w : Option ℚ) : Option ℚ :=
  match w with
  | some n => some (m.getD 0 + n)
  | none => m

/-- A further row of a name. The rejected are added under their guard, and once
more without. -/
def absorb (m w : Row) : Row :=
  { m with
    conns := m.conns + 1
    sumHs := m.sumHs + (hashToHs w.hashrate).getD 0
    best := max m.best w.best
    accepted := addCount m.accepted w.accepted
    rejected := some ((addCount m.rejected w.rejected).getD 0 + w.rejected.getD 0)
    hs := m.hs.map fun h => w.hs.elim h (h + ·)
    trend := m.trend.map fun t => w.trend.elim t fun u => t.mapIdx fun i v => v + u.getD i 0
    firstSeen := earlier m.firstSeen w.firstSeen
    last := max m.last w.last
    uptime := max m.uptime w.uptime
    idle := m.idle && w.idle
    declared := if w.declared = some 0 then some 0 else m.declared }

/-- What becomes of a merged row in the end. -/
def finish (m : Row) : Row :=
  if 1 < m.conns then
    { m with hashrate := fmtHs m.sumHs, trend := some (List.replicate 5 m.sumHs) }
  else m

/-! ## Names that an object has of itself -/

/-- The functions that `Object.prototype` has. -/
def builtins : List Str :=
  ["constructor".toList, "__defineGetter__".toList, "__defineSetter__".toList,
    "hasOwnProperty".toList, "__lookupGetter__".toList, "__lookupSetter__".toList,
    "isPrototypeOf".toList, "propertyIsEnumerable".toList, "toString".toList,
    "valueOf".toList, "toLocaleString".toList]

/-- Fields that rows wrote to `Object.prototype`. A field not there is zero, since
both are false. `conns` and `_hs` become `NaN`, which is false too. -/
structure Prototype where
  best : ℚ := 0
  accepted : ℚ := 0
  rejected : ℚ := 0
  firstSeen : ℚ := 0
  last : ℚ := 0
  uptime : ℚ := 0

/-- What an object without properties of its own has under a name. -/
inductive Property where
  | undefined
  | prototype
  | function
  | number
deriving DecidableEq

def Prototype.fields (o : Prototype) : List (Str × ℚ) :=
  [("best".toList, o.best), ("accepted".toList, o.accepted), ("rejected".toList, o.rejected),
    ("firstSeen".toList, o.firstSeen), ("last".toList, o.last), ("uptime".toList, o.uptime)]

def Prototype.get (o : Prototype) (k : Str) : Property :=
  if k = "__proto__".toList then .prototype
  else if k ∈ builtins then .function
  else if (o.fields.lookup k).getD 0 = 0 then .undefined else .number

def Prototype.absorb (o : Prototype) (w : Row) : Prototype where
  best := max o.best w.best
  accepted := o.accepted + w.accepted.getD 0
  rejected := o.rejected + w.rejected.getD 0 + w.rejected.getD 0
  firstSeen := earlier o.firstSeen w.firstSeen
  last := max o.last w.last
  uptime := max o.uptime w.uptime

/-! ## The merge -/

structure State where
  merged : List (Str × Row) := []
  passthrough : List Row := []
  prototype : Prototype

/-- One row. Where the name is inherited, the row is written to what is inherited.
A number takes no fields, and the attempt throws. -/
def step (s : State) (w : Row) : Option State :=
  if w.isSv2 then
    if w.name ∈ s.merged.map Prod.fst then
      some { s with merged := put Row.name first absorb w s.merged }
    else
      match s.prototype.get w.name with
      | .undefined => some { s with merged := put Row.name first absorb w s.merged }
      | .prototype => some { s with prototype := s.prototype.absorb w }
      | .function => some s
      | .number => none
  else some { s with passthrough := s.passthrough ++ [w] }

def merge (o : Prototype) (rows : List Row) : Option State :=
  rows.foldlM step { prototype := o }

/-- Names that are array indices. -/
def isIndex (k : Str) : Bool := Nat.toDigits 10 (number k) = k && number k < 2 ^ 32 - 1

/-- The order of `Object.values`: indices by value, then the others as they came. -/
def keyOrder (es : List (Str × Row)) : List (Str × Row) :=
  sortBy (fun e => number e.1) (es.filter fun e => isIndex e.1) ++ es.filter fun e => !isIndex e.1

def State.aggregated (s : State) : List Row := (keyOrder s.merged).map fun e => finish e.2

def byBest (rows : List Row) : List Row := sortBy (fun w => -w.best) rows

/-- `out.workerList` after the merge. It stays as it is when the merge throws. -/
def mergeWorkers (o : Prototype) (workerList rows : List Row) : List Row :=
  match merge o rows with
  | some s => byBest (workerList ++ (s.passthrough ++ s.aggregated))
  | none => workerList

/-! ## What a merge is to conserve -/

/-- Rows of a name that are to be merged. -/
def ofName (k : Str) (rows : List Row) : List Row := rows.filter fun w => w.isSv2 && w.name = k

/-- What `rows` come to in the rows `merged`. -/
structure Totals (rows merged : List Row) : Prop where
  accepted : (merged.map fun w => w.accepted.getD 0).sum = (rows.map fun w => w.accepted.getD 0).sum
  rejected : (merged.map fun w => w.rejected.getD 0).sum = (rows.map fun w => w.rejected.getD 0).sum
  hs : (merged.map fun w => w.hs.getD 0).sum = (rows.map fun w => w.hs.getD 0).sum
  conns : (merged.map Row.conns).sum = rows.length
  best : ∀ m ∈ merged, IsGreatest { b | ∃ w ∈ rows, w.best = b } m.best
  last : ∀ m ∈ merged, IsGreatest { t | ∃ w ∈ rows, w.last = t } m.last

/-- Each name keeps its totals, other rows pass through, and the order the rows
come in makes no difference. -/
def Conserves (o : Prototype) (workerList rows : List Row) : Prop :=
  ∃ s, merge o rows = some s ∧ (∀ k, Totals (ofName k rows) (ofName k s.aggregated)) ∧
    s.passthrough = rows.filter (fun w => !w.isSv2) ∧
    ∀ rows', rows'.Perm rows → mergeWorkers o workerList rows' = mergeWorkers o workerList rows

/-- Rows of one name that lose nothing when they are merged, in any order. -/
structure Uniform (rows : List Row) : Prop where
  rejected : ∀ w ∈ rows, w.rejected.getD 0 = 0
  hs : ∀ v ∈ rows, ∀ w ∈ rows, v.hs.isSome = w.hs.isSome
  declared : (∃ w ∈ rows, w.declared = some 0) ∨ ∀ v ∈ rows, ∀ w ∈ rows, v.declared = w.declared
  reasons : ∀ v ∈ rows, ∀ w ∈ rows, v.rejectReasons = w.rejectReasons

structure Mergeable (o : Prototype) (rows : List Row) : Prop where
  named : ∀ w ∈ rows, w.isSv2 = true → o.get w.name = .undefined
  uniform : ∀ k, 1 < (ofName k rows).length → Uniform (ofName k rows)
  passed : ∀ v ∈ rows, ∀ w ∈ rows, v.isSv2 = false → w.isSv2 = false → v.best = w.best → v = w
  ranked : ∀ k l b, isIndex k = false → isIndex l = false →
    IsGreatest { b | ∃ w ∈ ofName k rows, w.best = b } b →
    IsGreatest { b | ∃ w ∈ ofName l rows, w.best = b } b → k = l

/-! ## The row of a name -/

section Fold
variable (m : Row) (as : List Row)

@[simp] theorem name_foldl : (as.foldl absorb m).name = m.name := by
  induction as generalizing m with
  | nil => rfl
  | cons a as ih => exact ih (absorb m a)

@[simp] theorem proto_foldl : (as.foldl absorb m).proto = m.proto := by
  induction as generalizing m with
  | nil => rfl
  | cons a as ih => exact ih (absorb m a)

@[simp] theorem reasons_foldl : (as.foldl absorb m).rejectReasons = m.rejectReasons := by
  induction as generalizing m with
  | nil => rfl
  | cons a as ih => exact ih (absorb m a)

theorem conns_foldl : (as.foldl absorb m).conns = m.conns + as.length := by
  induction as generalizing m with
  | nil => rfl
  | cons a as ih =>
    rw [List.foldl_cons, ih, List.length_cons]
    change m.conns + 1 + as.length = _
    omega

theorem getD_addCount (m w : Option ℚ) : (addCount m w).getD 0 = m.getD 0 + w.getD 0 := by
  cases w with
  | none => exact (add_zero _).symm
  | some n => rfl

theorem accepted_foldl : (as.foldl absorb m).accepted.getD 0 =
    m.accepted.getD 0 + (as.map fun w => w.accepted.getD 0).sum := by
  induction as generalizing m with
  | nil => exact (add_zero _).symm
  | cons a as ih =>
    have ha : (absorb m a).accepted.getD 0 = m.accepted.getD 0 + a.accepted.getD 0 :=
      getD_addCount ..
    rw [List.foldl_cons, ih, ha, List.map_cons, List.sum_cons, add_assoc]

/-- The rejected of all rows but the first count twice. -/
theorem rejected_foldl : (as.foldl absorb m).rejected.getD 0 =
    m.rejected.getD 0 + 2 * (as.map fun w => w.rejected.getD 0).sum := by
  induction as generalizing m with
  | nil => simp
  | cons a as ih =>
    have ha : (absorb m a).rejected.getD 0 =
        m.rejected.getD 0 + a.rejected.getD 0 + a.rejected.getD 0 :=
      congrArg (· + a.rejected.getD 0) (getD_addCount m.rejected a.rejected)
    rw [List.foldl_cons, ih, ha, List.map_cons, List.sum_cons]
    ring

theorem hs_foldl : (as.foldl absorb m).hs =
    m.hs.map (· + (as.map fun w => w.hs.getD 0).sum) := by
  induction as generalizing m with
  | nil => simp
  | cons a as ih =>
    have ha : (absorb m a).hs = m.hs.map (· + a.hs.getD 0) := by
      change m.hs.map _ = _
      cases a.hs <;> simp
    rw [List.foldl_cons, ih, ha, Option.map_map, List.map_cons, List.sum_cons]
    exact congrFun (congrArg Option.map (funext fun h => add_assoc h _ _)) m.hs

theorem declared_foldl : (as.foldl absorb m).declared =
    if ∃ w ∈ as, w.declared = some 0 then some 0 else m.declared := by
  induction as generalizing m with
  | nil => simp
  | cons a as ih =>
    have ha : (absorb m a).declared = if a.declared = some 0 then some 0 else m.declared := rfl
    rw [List.foldl_cons, ih, ha]
    by_cases h : a.declared = some 0 <;> simp [h]

/-- A field of which each row leaves the greater value. -/
theorem isGreatest_foldl {f : Row → ℚ} (h : ∀ m w, f (absorb m w) = max (f m) (f w)) :
    IsGreatest { x | f m = x ∨ ∃ w ∈ as, f w = x } (f (as.foldl absorb m)) := by
  induction as generalizing m with
  | nil => simp [IsGreatest, upperBounds]
  | cons a as ih =>
    obtain ⟨hmem, hle⟩ := ih (absorb m a)
    constructor
    · obtain hm | ⟨w, hw, hfw⟩ := hmem
      · rw [h] at hm
        obtain hmax | hmax := max_choice (f m) (f a)
        · exact .inl (hmax ▸ hm)
        · exact .inr ⟨a, List.mem_cons_self, hmax ▸ hm⟩
      · exact .inr ⟨w, List.mem_cons_of_mem _ hw, hfw⟩
    · have hab : max (f m) (f a) ≤ f (as.foldl absorb (absorb m a)) := h m a ▸ hle (.inl rfl)
      rintro x (rfl | ⟨w, hw, rfl⟩)
      · exact (le_max_left _ _).trans hab
      · obtain rfl | hw := List.mem_cons.mp hw
        · exact (le_max_right _ _).trans hab
        · exact hle (.inr ⟨w, hw, rfl⟩)

end Fold

/-! ## The order of the rows of a name -/

theorem addCount_right_comm (m a b : Option ℚ) :
    addCount (addCount m a) b = addCount (addCount m b) a := by
  cases a with
  | none => rfl
  | some x =>
    cases b with
    | none => rfl
    | some y => exact congrArg some (add_right_comm ..)

theorem addCount_comm (a b : Option ℚ) : addCount a b = addCount b a := by
  cases a <;> cases b <;> simp [addCount, add_comm]

theorem earlier_comm (t u : ℚ) : earlier t u = earlier u t := by
  unfold earlier
  split_ifs <;> grind

theorem earlier_right_comm (t u v : ℚ) : earlier (earlier t u) v = earlier (earlier t v) u := by
  unfold earlier
  split_ifs <;> grind

/-- A merged row without what its end replaces, and without what it declares. -/
def core (m : Row) : Row := { m with hashrate := [], trend := none, declared := none }

def absorbCore (m w : Row) : Row := core (absorb m w)

theorem absorbCore_right_comm (m a b : Row) :
    absorbCore (absorbCore m a) b = absorbCore (absorbCore m b) a := by
  ext1
  case sumHs => exact add_right_comm ..
  case best => exact max_right_comm ..
  case last => exact max_right_comm ..
  case uptime => exact max_right_comm ..
  case firstSeen => exact earlier_right_comm ..
  case idle => exact Bool.and_right_comm ..
  case accepted => exact addCount_right_comm ..
  case rejected =>
    change some _ = some _
    simp only [absorbCore, core, absorb, getD_addCount, Option.getD_some]
    exact congrArg some (by ring)
  case hs =>
    simp only [absorbCore, core, absorb, Option.map_map]
    refine congrFun (congrArg Option.map (funext fun h => ?_)) m.hs
    cases a.hs with
    | none => rfl
    | some x =>
      cases b.hs with
      | none => rfl
      | some y => exact add_right_comm h x y
  all_goals rfl

theorem absorbCore_swap {a b : Row} (hn : a.name = b.name) (hp : a.proto = b.proto)
    (hr : a.rejectReasons = b.rejectReasons) (hh : a.hs.isSome = b.hs.isSome)
    (ha : a.rejected.getD 0 = 0) (hb : b.rejected.getD 0 = 0) :
    absorbCore (core (first a)) b = absorbCore (core (first b)) a := by
  ext1
  case name => exact hn
  case proto => exact hp
  case rejectReasons => exact hr
  case sumHs => exact add_comm ..
  case best => exact max_comm ..
  case last => exact max_comm ..
  case uptime => exact max_comm ..
  case firstSeen => exact earlier_comm ..
  case idle => exact Bool.and_comm ..
  case accepted => exact addCount_comm ..
  case rejected =>
    simp only [absorbCore, core, absorb, first, getD_addCount, ha, hb]
  case hs =>
    simp only [absorbCore, core, absorb, first]
    cases ha : a.hs with
    | none => cases hb : b.hs with
      | none => rfl
      | some y => simp [ha, hb] at hh
    | some x => cases hb : b.hs with
      | none => simp [ha, hb] at hh
      | some y => exact congrArg some (add_comm x y)
  all_goals rfl

theorem finish_eq (m : Row) : finish m = { m with
    hashrate := if 1 < m.conns then fmtHs m.sumHs else m.hashrate
    trend := if 1 < m.conns then some (List.replicate 5 m.sumHs) else m.trend } := by
  unfold finish
  split <;> rfl

theorem finish_congr {m n : Row} (hc : core m = core n) (hd : m.declared = n.declared)
    (hm : 1 < m.conns) : finish m = finish n := by
  have hcore : (core m).conns = (core n).conns ∧ (core m).sumHs = (core n).sumHs := by
    rw [hc]
    exact ⟨rfl, rfl⟩
  have hs : m.sumHs = n.sumHs := hcore.2
  have hn : 1 < n.conns := hm.trans_eq hcore.1
  have hf : ∀ r : Row, 1 < r.conns → finish r = { core r with
      hashrate := fmtHs r.sumHs
      trend := some (List.replicate 5 r.sumHs)
      declared := r.declared } := fun r hr => if_pos hr
  rw [hf m hm, hf n hn, hc, hs, hd]

theorem declared_joined {a : Row} {as : List Row} : (as.foldl absorb (first a)).declared =
    if ∃ w ∈ a :: as, w.declared = some 0 then some 0 else a.declared := by
  rw [declared_foldl]
  by_cases h : a.declared = some 0
  · simp [h, first]
  · simp [h, first]

theorem declared_perm {a b : Row} {as bs : List Row} (p : (a :: as).Perm (b :: bs))
    (hu : Uniform (a :: as)) : (as.foldl absorb (first a)).declared =
      (bs.foldl absorb (first b)).declared := by
  have hb : b ∈ a :: as := p.mem_iff.mpr List.mem_cons_self
  rw [declared_joined, declared_joined]
  simp only [← p.mem_iff]
  obtain h | h := hu.declared
  · rw [if_pos h, if_pos h]
  · rw [h a List.mem_cons_self b hb]

theorem finish_joined_perm {g g' : List Row} (p : g.Perm g')
    (hn : ∀ v ∈ g, ∀ w ∈ g, v.name = w.name ∧ v.proto = w.proto)
    (hu : 1 < g.length → Uniform g) :
    (joined first absorb g).map finish = (joined first absorb g').map finish := by
  by_cases hl : 1 < g.length
  · have hcore := map_joined_perm first absorb core absorbCore
      (fun _ _ => rfl) absorbCore_right_comm p fun a ha b hb =>
        absorbCore_swap (hn a ha b hb).1 (hn a ha b hb).2 ((hu hl).reasons a ha b hb)
          ((hu hl).hs a ha b hb) ((hu hl).rejected a ha) ((hu hl).rejected b hb)
    cases g with
    | nil => rw [p.nil_eq]
    | cons a as =>
      cases g' with
      | nil => exact absurd p.eq_nil (List.cons_ne_nil a as)
      | cons b bs =>
        refine congrArg some (finish_congr (Option.some.inj hcore) (declared_perm p (hu hl)) ?_)
        rw [conns_foldl]
        change 1 < 1 + as.length
        rw [List.length_cons] at hl
        omega
  · have hg : g = g' := eq_of_perm_of_forall_eq p fun v hv w hw => by
      obtain _ | ⟨a, _ | ⟨b, g⟩⟩ := g
      · exact absurd hv List.not_mem_nil
      · rw [List.mem_singleton.mp hv, List.mem_singleton.mp hw]
      · exact absurd (by simp) hl
    rw [hg]

theorem totals_joined {g : List Row} (hu : 1 < g.length → Uniform g) :
    Totals g ((joined first absorb g).map finish).toList := by
  cases g with
  | nil => exact ⟨rfl, rfl, rfl, rfl, by simp [joined], by simp [joined]⟩
  | cons a as =>
    have hmax : ∀ f : Row → ℚ, (∀ m w, f (absorb m w) = max (f m) (f w)) → f (first a) = f a →
        IsGreatest { x | ∃ w ∈ a :: as, f w = x } (f (as.foldl absorb (first a))) := by
      intro f hf ha
      have h := isGreatest_foldl (first a) as hf
      simpa [ha] using h
    change Totals (a :: as) [finish (as.foldl absorb (first a))]
    rw [finish_eq]
    refine ⟨?accepted, ?rejected, ?hs, ?conns, ?best, ?last⟩
    case accepted =>
      rw [List.map_singleton, List.sum_singleton, accepted_foldl, List.map_cons, List.sum_cons]
      rfl
    case rejected =>
      have h0 : (as.map fun w => w.rejected.getD 0).sum = 0 := by
        cases as with
        | nil => rfl
        | cons b as =>
          refine List.sum_eq_zero fun x hx => ?_
          obtain ⟨w, hw, rfl⟩ := List.mem_map.mp hx
          exact (hu (by simp)).rejected w (List.mem_cons_of_mem a hw)
      rw [List.map_singleton, List.sum_singleton, rejected_foldl, List.map_cons, List.sum_cons, h0,
        mul_zero]
      rfl
    case hs =>
      rw [List.map_singleton, List.sum_singleton, hs_foldl, List.map_cons, List.sum_cons]
      cases ha : a.hs with
      | some x => simp [first, ha]
      | none =>
        have h0 : (as.map fun w => w.hs.getD 0).sum = 0 := by
          refine List.sum_eq_zero fun x hx => ?_
          obtain ⟨w, hw, rfl⟩ := List.mem_map.mp hx
          have hl : 1 < (a :: as).length := by
            have := List.length_pos_of_mem hw
            rw [List.length_cons]
            omega
          have hhs := (hu hl).hs a List.mem_cons_self w (List.mem_cons_of_mem a hw)
          rw [ha] at hhs
          rw [Option.isSome_eq_false_iff.mp hhs.symm |> Option.isNone_iff_eq_none.mp]
          rfl
        simp [first, ha, h0]
    case conns =>
      rw [List.map_singleton, List.sum_singleton, conns_foldl, List.length_cons, add_comm]
      rfl
    case best =>
      intro m hm
      rw [List.mem_singleton.mp hm]
      exact hmax Row.best (fun _ _ => rfl) rfl
    case last =>
      intro m hm
      rw [List.mem_singleton.mp hm]
      exact hmax Row.last (fun _ _ => rfl) rfl

/-! ## All names -/

theorem mem_ofName {k : Str} {w : Row} {rows : List Row} :
    w ∈ ofName k rows ↔ w ∈ rows ∧ w.isSv2 = true ∧ w.name = k := by
  simp [ofName]

theorem withKey_filter (k : Str) (rows : List Row) :
    withKey Row.name k (rows.filter Row.isSv2) = ofName k rows := by
  unfold withKey ofName
  rw [List.filter_filter]
  exact List.filter_congr fun w _ => Bool.and_comm ..

theorem alike_ofName {k : Str} {rows : List Row} :
    ∀ v ∈ ofName k rows, ∀ w ∈ ofName k rows, v.name = w.name ∧ v.proto = w.proto := by
  intro v hv w hw
  obtain ⟨-, hsv, hnv⟩ := mem_ofName.mp hv
  obtain ⟨-, hsw, hnw⟩ := mem_ofName.mp hw
  exact ⟨hnv.trans hnw.symm, (of_decide_eq_true hsv).trans (of_decide_eq_true hsw).symm⟩

/-- The entries that `rows` make, if no name is inherited. -/
def entries (rows : List Row) : List (Str × Row) :=
  collect Row.name first absorb (rows.filter Row.isSv2)

def Named (o : Prototype) (rows : List Row) : Prop :=
  ∀ w ∈ rows, w.isSv2 = true → o.get w.name = .undefined

def stateOf (o : Prototype) (rows : List Row) : State where
  merged := entries rows
  passthrough := rows.filter fun w => !w.isSv2
  prototype := o

theorem step_stateOf {o : Prototype} {rows : List Row} {w : Row}
    (hw : w.isSv2 = true → o.get w.name = .undefined) :
    step (stateOf o rows) w = some (stateOf o (rows ++ [w])) := by
  unfold stateOf entries step
  cases h : w.isSv2 with
  | true =>
    have he : (rows ++ [w]).filter Row.isSv2 = rows.filter Row.isSv2 ++ [w] := by simp [h]
    have hp : (rows ++ [w]).filter (fun w => !w.isSv2) = rows.filter fun w => !w.isSv2 := by
      simp [h]
    rw [if_pos rfl, hw h, he, hp, collect_concat]
    split <;> rfl
  | false =>
    have he : (rows ++ [w]).filter Row.isSv2 = rows.filter Row.isSv2 := by simp [h]
    have hp : (rows ++ [w]).filter (fun w => !w.isSv2) =
        rows.filter (fun w => !w.isSv2) ++ [w] := by simp [h]
    rw [if_neg Bool.false_ne_true, he, hp]

theorem merge_eq {o : Prototype} {rows : List Row} (hn : Named o rows) :
    merge o rows = some (stateOf o rows) := by
  induction rows using List.reverseRecOn with
  | nil => rfl
  | append_singleton rows w ih =>
    have hr := ih fun v hv => hn v (List.mem_append_left _ hv)
    unfold merge at hr ⊢
    rw [List.foldlM_append, hr]
    change (step (stateOf o rows) w).bind some = _
    rw [step_stateOf (hn w (by simp))]
    rfl

theorem mem_entries {k : Str} {m : Row} {rows : List Row} :
    (k, m) ∈ entries rows ↔ joined first absorb (ofName k rows) = some m := by
  unfold entries
  rw [mem_collect, withKey_filter]

/-- The row of a name has that name. -/
theorem joined_ofName {k : Str} {m : Row} {rows : List Row}
    (h : joined first absorb (ofName k rows) = some m) :
    m.name = k ∧ m.isSv2 = true := by
  cases hg : ofName k rows with
  | nil => simp [hg, joined] at h
  | cons a as =>
    rw [hg] at h
    obtain ⟨-, hsv, hk⟩ := mem_ofName.mp (hg ▸ List.mem_cons_self : a ∈ ofName k rows)
    obtain rfl := Option.some.inj h
    refine ⟨(name_foldl _ _).trans hk, ?_⟩
    unfold Row.isSv2 at hsv ⊢
    rw [proto_foldl]
    exact hsv

theorem perm_keyOrder (es : List (Str × Row)) : (keyOrder es).Perm es :=
  ((perm_sortBy _ _).append_right _).trans (List.filter_append_perm _ es)

theorem mem_keyOrder {e : Str × Row} {es : List (Str × Row)} : e ∈ keyOrder es ↔ e ∈ es :=
  (perm_keyOrder es).mem_iff

theorem ofName_aggregated {o : Prototype} (k : Str) (rows : List Row) :
    ofName k (stateOf o rows).aggregated =
      ((joined first absorb (ofName k rows)).map finish).toList := by
  have hp : ((keyOrder (entries rows)).filter fun e => e.1 = k).Perm
      ((joined first absorb (ofName k rows)).toList.map fun m => (k, m)) := by
    rw [← withKey_filter, ← filter_key_collect]
    exact (perm_keyOrder _).filter _
  have heq := eq_of_perm_of_forall_eq hp.symm (by
    cases joined first absorb (ofName k rows) <;> simp)
  unfold ofName State.aggregated
  rw [List.filter_map]
  have hc : ∀ e ∈ keyOrder (entries rows),
      ((fun w : Row => w.isSv2 && decide (w.name = k)) ∘ fun e => finish e.2) e =
        decide (e.1 = k) := by
    intro e he
    obtain ⟨hname, hsv⟩ := joined_ofName (mem_entries.mp (mem_keyOrder.mp he : (e.1, e.2) ∈ _))
    have hf : (finish e.2).name = e.2.name ∧ (finish e.2).isSv2 = e.2.isSv2 := by
      rw [finish_eq]
      exact ⟨rfl, rfl⟩
    simp only [Function.comp_apply, hf.1, hf.2, hname, hsv, Bool.true_and]
  change List.map _ (List.filter _ (keyOrder (entries rows))) = _
  rw [List.filter_congr hc, ← heq]
  change _ = ((joined first absorb (ofName k rows)).map finish).toList
  cases joined first absorb (ofName k rows) <;> rfl

/-! ## The order of all rows -/

/-- The entries in their end. -/
def ended (rows : List Row) : List (Str × Row) := (entries rows).map fun e => (e.1, finish e.2)

theorem keyOrder_map {g : Row → Row} (es : List (Str × Row)) :
    (keyOrder es).map (fun e => (e.1, g e.2)) = keyOrder (es.map fun e => (e.1, g e.2)) := by
  unfold keyOrder sortBy
  rw [List.map_append, List.filter_map, List.filter_map]
  exact congrArg (· ++ _) (List.map_insertionSort _ _ _ _ fun a _ b _ => Iff.rfl)

theorem aggregated_eq (o : Prototype) (rows : List Row) :
    (stateOf o rows).aggregated = (keyOrder (ended rows)).map Prod.snd := by
  unfold ended
  rw [← keyOrder_map, List.map_map]
  rfl

theorem nodup_ended (rows : List Row) : ((ended rows).map Prod.fst).Nodup := by
  unfold ended
  rw [List.map_map]
  exact nodup_keys Row.name first absorb _

theorem mem_ended {k : Str} {m : Row} {rows : List Row} :
    (k, m) ∈ ended rows ↔ (joined first absorb (ofName k rows)).map finish = some m := by
  unfold ended
  rw [List.mem_map, Option.map_eq_some_iff]
  constructor
  · rintro ⟨e, he, hm⟩
    obtain ⟨rfl, rfl⟩ := Prod.mk.inj hm
    exact ⟨e.2, mem_entries.mp he, rfl⟩
  · rintro ⟨n, hn, rfl⟩
    exact ⟨(k, n), mem_entries.mpr hn, rfl⟩

theorem ended_perm {rows rows' : List Row}
    (h : ∀ k, (joined first absorb (ofName k rows')).map finish =
      (joined first absorb (ofName k rows)).map finish) : (ended rows').Perm (ended rows) := by
  refine collect_perm Row.name first absorb finish fun k => ?_
  rw [withKey_filter, withKey_filter, h]

theorem eq_of_index {k l : Str} (hk : isIndex k = true) (hl : isIndex l = true)
    (h : number k = number l) : k = l := by
  simp only [isIndex, Bool.and_eq_true, decide_eq_true_eq] at hk hl
  rw [← hk.1, h, hl.1]

/-- Indices come in the order of their values, whatever order they were set in. -/
theorem indices_perm {es es' : List (Str × Row)} (p : es'.Perm es) (hn : (es'.map Prod.fst).Nodup) :
    sortBy (fun e => number e.1) (es'.filter fun e => isIndex e.1) =
      sortBy (fun e => number e.1) (es.filter fun e => isIndex e.1) := by
  refine sortBy_perm _ (p.filter _) ?_
  intro a ha b hb hab
  obtain ⟨ha, hia⟩ := List.mem_filter.mp ha
  obtain ⟨hb, hib⟩ := List.mem_filter.mp hb
  exact List.inj_on_of_nodup_map hn ha hb (eq_of_index hia hib hab)

/-- The rows of one `best`, in their order. -/
def ofBest (b : ℚ) (rows : List Row) : List Row := ofKey (fun w => -w.best) b rows

def passed (rows : List Row) : List Row := rows.filter fun w => !w.isSv2

theorem mergeWorkers_eq {o : Prototype} (workerList : List Row) {rows : List Row}
    (hn : Named o rows) : mergeWorkers o workerList rows =
      byBest (workerList ++ (passed rows ++ (stateOf o rows).aggregated)) := by
  unfold mergeWorkers
  rw [merge_eq hn]
  rfl

theorem Named.perm {o : Prototype} {rows rows' : List Row} (hn : Named o rows)
    (p : rows'.Perm rows) : Named o rows' := fun w hw => hn w (p.mem_iff.mp hw)

/-- The result is the same if the rows of each `best` are. -/
theorem mergeWorkers_eq_iff {o : Prototype} {workerList rows rows' : List Row} (hn : Named o rows)
    (p : rows'.Perm rows) : mergeWorkers o workerList rows' = mergeWorkers o workerList rows ↔
      ∀ b, ofBest b (passed rows') = ofBest b (passed rows) ∧
        ofBest b (stateOf o rows').aggregated = ofBest b (stateOf o rows).aggregated := by
  rw [mergeWorkers_eq _ hn, mergeWorkers_eq _ (hn.perm p)]
  refine (sortBy_eq_iff _).trans (forall_congr' fun b => ?_)
  rw [ofKey_append, ofKey_append, ofKey_append, ofKey_append, List.append_cancel_left_eq]
  have hl : (ofBest b (passed rows')).length = (ofBest b (passed rows)).length :=
    ((p.filter _).filter _).length_eq
  exact ⟨fun h => List.append_inj h hl, fun h => congrArg₂ _ h.1 h.2⟩

/-- Names that are no indices keep the order they came in. -/
theorem keyOrder_filter {q : Str → Bool} (hq : ∀ k, q k = true → isIndex k = false)
    (es : List (Str × Row)) :
    (keyOrder es).filter (fun e => q e.1) = es.filter fun e => q e.1 := by
  have hindex : ∀ e ∈ sortBy (fun e : Str × Row => number e.1) (es.filter fun e => isIndex e.1),
      ¬q e.1 = true := by
    intro e he hqe
    have hi := (List.mem_filter.mp ((perm_sortBy _ _).mem_iff.mp he)).2
    rw [hq e.1 hqe] at hi
    exact Bool.false_ne_true hi
  unfold keyOrder
  rw [List.filter_append, List.filter_eq_nil_iff.mpr hindex, List.nil_append, List.filter_filter]
  refine List.filter_congr fun e _ => ?_
  cases hqe : q e.1 with
  | true => rw [hq e.1 hqe]; rfl
  | false => rfl

/-- The rows of two names, where those of the first name come first. -/
theorem filter_ended {k l : Str} (hkl : k ≠ l) {rows rest : List Row}
    (hrest : ∀ w ∈ rest, w.isSv2 = true → w.name ≠ k ∧ w.name ≠ l) :
    (ended (ofName k rows ++ (ofName l rows ++ rest))).filter (fun e => e.1 = k || e.1 = l) =
      (((joined first absorb (ofName k rows)).map finish).toList.map fun m => (k, m)) ++
        ((joined first absorb (ofName l rows)).map finish).toList.map fun m => (l, m) := by
  have hone : ∀ j, (j = k ∨ j = l) → (((ofName j rows).filter Row.isSv2).filter fun w =>
      decide (w.name = k) || decide (w.name = l)) = ofName j rows := by
    intro j hj
    rw [List.filter_filter]
    refine List.filter_eq_self.mpr fun w hw => ?_
    obtain ⟨-, hsv, hn⟩ := mem_ofName.mp hw
    simpa [hsv, hn] using hj
  have hnone : ((rest.filter Row.isSv2).filter fun w =>
      decide (w.name = k) || decide (w.name = l)) = [] := by
    refine List.filter_eq_nil_iff.mpr fun w hw => ?_
    obtain ⟨hw, hsv⟩ := List.mem_filter.mp hw
    simpa using hrest w hw hsv
  have hcollect : ∀ j, collect Row.name first absorb (ofName j rows) =
      (joined first absorb (ofName j rows)).toList.map fun m => (j, m) := fun j =>
    collect_of_forall_key Row.name first absorb fun w hw => (mem_ofName.mp hw).2.2
  have hdisjoint : ∀ v ∈ ofName k rows, ∀ w ∈ ofName l rows, v.name ≠ w.name := by
    intro v hv w hw
    rw [(mem_ofName.mp hv).2.2, (mem_ofName.mp hw).2.2]
    exact hkl
  have hentries : (entries (ofName k rows ++ (ofName l rows ++ rest))).filter
      (fun e => decide (e.1 = k) || decide (e.1 = l)) =
        ((joined first absorb (ofName k rows)).toList.map fun m => (k, m)) ++
          (joined first absorb (ofName l rows)).toList.map fun m => (l, m) := by
    unfold entries
    rw [filter_collect Row.name first absorb fun j => decide (j = k) || decide (j = l),
      List.filter_append, List.filter_append, List.filter_append, List.filter_append,
      hone k (.inl rfl), hone l (.inr rfl), hnone, List.append_nil,
      collect_append Row.name first absorb hdisjoint, hcollect, hcollect]
  unfold ended
  rw [List.filter_map]
  change List.map _
    (List.filter (fun e : Str × Row => decide (e.1 = k) || decide (e.1 = l)) _) = _
  rw [hentries, List.map_append]
  cases joined first absorb (ofName k rows) <;> cases joined first absorb (ofName l rows) <;> rfl

theorem name_ended {rows : List Row} {e : Str × Row} (he : e ∈ ended rows) : e.2.name = e.1 := by
  obtain ⟨m, hm, hf⟩ := Option.map_eq_some_iff.mp (mem_ended.mp (show (e.1, e.2) ∈ _ from he))
  rw [← hf, finish_eq]
  exact (joined_ofName hm).1

theorem filter_aggregated {q : Str → Bool} (hq : ∀ k, q k = true → isIndex k = false)
    (o : Prototype) (b : ℚ) (rows : List Row) :
    (ofBest b (stateOf o rows).aggregated).filter (fun w => q w.name) =
      ofBest b (((ended rows).filter fun e => q e.1).map Prod.snd) := by
  have hnames : ((keyOrder (ended rows)).map Prod.snd).filter (fun w => q w.name) =
      ((ended rows).filter fun e => q e.1).map Prod.snd := by
    rw [List.filter_map, ← keyOrder_filter hq]
    refine congrArg _ (List.filter_congr fun e he => ?_)
    exact congrArg q (name_ended (mem_keyOrder.mp he))
  unfold ofBest ofKey
  rw [aggregated_eq, List.filter_comm, hnames]

theorem ofName_perm {rows rows' : List Row} (p : rows'.Perm rows) (k : Str) :
    (ofName k rows').Perm (ofName k rows) := p.filter _

section Merged
variable {o : Prototype} {workerList rows : List Row}

theorem Mergeable.merged (h : Mergeable o rows) {rows' : List Row} (p : rows'.Perm rows) (k : Str) :
    (joined first absorb (ofName k rows')).map finish =
      (joined first absorb (ofName k rows)).map finish :=
  (finish_joined_perm (ofName_perm p k).symm alike_ofName (h.uniform k)).symm

theorem isGreatest_ended (h : Mergeable o rows) {k : Str} {m : Row} (hm : (k, m) ∈ ended rows) :
    IsGreatest { b | ∃ w ∈ ofName k rows, w.best = b } m.best := by
  refine (totals_joined (h.uniform k)).best m ?_
  rw [mem_ended.mp hm]
  exact List.mem_singleton_self m

/-- Among names that are no indices, one at most has a row with a given `best`. -/
theorem names_perm (h : Mergeable o rows) {es : List (Str × Row)} (p : es.Perm (ended rows))
    (b : ℚ) : ofBest b ((es.filter fun e => !isIndex e.1).map Prod.snd) =
      ofBest b (((ended rows).filter fun e => !isIndex e.1).map Prod.snd) := by
  refine (eq_of_perm_of_forall_eq (((p.filter _).map _).filter _).symm ?_).symm
  intro v hv w hw
  obtain ⟨hv, hbv⟩ := (mem_ofKey _).mp hv
  obtain ⟨hw, hbw⟩ := (mem_ofKey _).mp hw
  obtain ⟨⟨k, v⟩, hk, rfl⟩ := List.mem_map.mp hv
  obtain ⟨⟨l, w⟩, hl, rfl⟩ := List.mem_map.mp hw
  obtain ⟨hk, hik⟩ := List.mem_filter.mp hk
  obtain ⟨hl, hil⟩ := List.mem_filter.mp hl
  have hbest : v.best = w.best := neg_injective (hbv.trans hbw.symm)
  have hkl : k = l := h.ranked k l v.best (by simpa using hik) (by simpa using hil)
    (isGreatest_ended h hk) (hbest ▸ isGreatest_ended h hl)
  subst hkl
  exact Option.some.inj ((mem_ended.mp hk).symm.trans (mem_ended.mp hl))

theorem Mergeable.order (h : Mergeable o rows) {rows' : List Row} (p : rows'.Perm rows) :
    mergeWorkers o workerList rows' = mergeWorkers o workerList rows := by
  refine (mergeWorkers_eq_iff h.named p).mpr fun b => ⟨?pass, ?merged⟩
  case pass =>
    refine (eq_of_perm_of_forall_eq ((p.filter _).filter _).symm ?_).symm
    intro v hv w hw
    obtain ⟨hv, hbv⟩ := (mem_ofKey _).mp hv
    obtain ⟨hw, hbw⟩ := (mem_ofKey _).mp hw
    obtain ⟨hv, hsv⟩ := List.mem_filter.mp hv
    obtain ⟨hw, hsw⟩ := List.mem_filter.mp hw
    exact h.passed v hv w hw (by simpa using hsv) (by simpa using hsw)
      (neg_injective (hbv.trans hbw.symm))
  case merged =>
    have hp : (ended rows').Perm (ended rows) := ended_perm (h.merged p)
    rw [aggregated_eq, aggregated_eq]
    unfold keyOrder
    rw [indices_perm hp (nodup_ended rows'), List.map_append, List.map_append]
    unfold ofBest
    rw [ofKey_append, ofKey_append]
    exact congrArg (_ ++ ·) (names_perm h hp b)

theorem Mergeable.conserves (h : Mergeable o rows) : Conserves o workerList rows := by
  refine ⟨stateOf o rows, merge_eq h.named, fun k => ?_, rfl, fun _ p => h.order p⟩
  rw [ofName_aggregated]
  exact totals_joined (h.uniform k)

end Merged

/-! ## What a merge loses -/

/-- Connections of a name in what has been merged. -/
def connsOf (k : Str) (es : List (Str × Row)) : ℕ :=
  ((es.filter fun e => e.1 = k).map fun e => e.2.conns).sum

theorem connsOf_put (k : Str) (w : Row) (es : List (Str × Row)) :
    connsOf k (put Row.name first absorb w es) = connsOf k es + if w.name = k then 1 else 0 := by
  unfold connsOf
  induction es with
  | nil =>
    by_cases h : w.name = k
    · simp [put, h, first]
    · simp [put, h]
  | cons e es ih =>
    rw [put]
    by_cases he : e.1 = w.name
    · rw [if_pos he]
      by_cases h : w.name = k
      · simp only [List.filter_cons, he, h, decide_true, if_true, List.map_cons, List.sum_cons]
        change e.2.conns + 1 + _ = _
        omega
      · simp [he, h]
    · rw [if_neg he]
      by_cases hk : e.1 = k
      · simp only [List.filter_cons, hk, decide_true, if_true, List.map_cons, List.sum_cons, ih]
        omega
      · simpa [List.filter_cons, hk] using ih

/-- How many rows of a name are merged by a step: the one it takes, or none. -/
theorem connsOf_step {s s' : State} {w : Row} (hs : step s w = some s') (k : Str) :
    connsOf k s'.merged ≤ connsOf k s.merged + (ofName k [w]).length := by
  unfold step at hs
  by_cases hw : w.isSv2 = true
  · have hlen : (ofName k [w]).length = if w.name = k then 1 else 0 := by
      unfold ofName
      by_cases h : w.name = k <;> simp [hw, h]
    rw [if_pos hw] at hs
    split at hs
    · obtain rfl := Option.some.inj hs
      exact (connsOf_put k w s.merged).le.trans_eq (by rw [hlen])
    · split at hs
      · obtain rfl := Option.some.inj hs
        exact (connsOf_put k w s.merged).le.trans_eq (by rw [hlen])
      · obtain rfl := Option.some.inj hs
        exact Nat.le_add_right ..
      · obtain rfl := Option.some.inj hs
        exact Nat.le_add_right ..
      · cases hs
  · rw [if_neg hw] at hs
    obtain rfl := Option.some.inj hs
    exact Nat.le_add_right ..

theorem ofName_cons (k : Str) (w : Row) (rows : List Row) :
    (ofName k (w :: rows)).length = (ofName k [w]).length + (ofName k rows).length := by
  unfold ofName
  rw [← List.singleton_append, List.filter_append, List.length_append]

theorem connsOf_run {s s' : State} {rows : List Row} (hs : rows.foldlM step s = some s')
    (k : Str) : connsOf k s'.merged ≤ connsOf k s.merged + (ofName k rows).length := by
  induction rows generalizing s with
  | nil =>
    obtain rfl := Option.some.inj hs
    exact Nat.le_add_right ..
  | cons w rows ih =>
    rw [List.foldlM_cons] at hs
    obtain ⟨t, ht, hs⟩ := Option.bind_eq_some_iff.mp hs
    have hstep := connsOf_step ht k
    have hrest := ih hs
    rw [ofName_cons]
    omega

theorem mem_put {w : Row} {es : List (Str × Row)} {e : Str × Row}
    (he : e ∈ put Row.name first absorb w es) :
    e ∈ es ∨ e = (w.name, first w) ∨ ∃ m, (w.name, m) ∈ es ∧ e = (w.name, absorb m w) := by
  induction es with
  | nil => exact .inr (.inl (List.mem_singleton.mp he))
  | cons f es ih =>
    rw [put] at he
    split at he
    · rename_i hf
      obtain rfl | he := List.mem_cons.mp he
      · exact .inr (.inr ⟨f.2, hf ▸ List.mem_cons_self, by rw [hf]⟩)
      · exact .inl (List.mem_cons_of_mem _ he)
    · obtain rfl | he := List.mem_cons.mp he
      · exact .inl List.mem_cons_self
      · obtain he | he | ⟨m, hm, he⟩ := ih he
        · exact .inl (List.mem_cons_of_mem _ he)
        · exact .inr (.inl he)
        · exact .inr (.inr ⟨m, List.mem_cons_of_mem _ hm, he⟩)

def Keyed (s : State) : Prop := ∀ e ∈ s.merged, e.2.name = e.1

theorem Keyed.put {s : State} (h : Keyed s) (w : Row) :
    Keyed { s with merged := put Row.name first absorb w s.merged } := by
  intro e he
  obtain he | rfl | ⟨m, hm, rfl⟩ := mem_put he
  · exact h e he
  · rfl
  · exact h (w.name, m) hm

theorem Keyed.step {s s' : State} {w : Row} (h : Keyed s) (hs : FleetRows.step s w = some s') :
    Keyed s' := by
  unfold FleetRows.step at hs
  split at hs
  · split at hs
    · obtain rfl := Option.some.inj hs
      exact h.put w
    · split at hs
      · obtain rfl := Option.some.inj hs
        exact h.put w
      · obtain rfl := Option.some.inj hs
        exact h
      · obtain rfl := Option.some.inj hs
        exact h
      · cases hs
  · obtain rfl := Option.some.inj hs
    exact h

theorem Keyed.run {s s' : State} {rows : List Row} (h : Keyed s)
    (hs : rows.foldlM FleetRows.step s = some s') : Keyed s' := by
  induction rows generalizing s with
  | nil =>
    obtain rfl := Option.some.inj hs
    exact h
  | cons w rows ih =>
    rw [List.foldlM_cons] at hs
    obtain ⟨t, ht, hs⟩ := Option.bind_eq_some_iff.mp hs
    exact ih (h.step ht) hs

theorem conns_aggregated_le {s : State} (h : Keyed s) (k : Str) :
    ((ofName k s.aggregated).map Row.conns).sum ≤ connsOf k s.merged := by
  have hname : ∀ e ∈ keyOrder s.merged,
      ((fun w : Row => w.isSv2 && decide (w.name = k)) ∘ fun e => finish e.2) e =
        ((finish e.2).isSv2 && decide (e.1 = k)) := by
    intro e he
    have hf : (finish e.2).name = e.2.name := by rw [finish_eq]
    simp only [Function.comp_apply, hf, h e (mem_keyOrder.mp he)]
  have hconns : ((ofName k s.aggregated).map Row.conns) =
      (((keyOrder s.merged).filter fun e => e.1 = k).filter fun e => (finish e.2).isSv2).map
        fun e => e.2.conns := by
    unfold ofName State.aggregated
    rw [List.filter_map, List.filter_congr hname, List.map_map, List.filter_filter]
    refine List.map_congr_left fun e _ => ?_
    rw [Function.comp_apply, finish_eq]
  have hsub : ((ofName k s.aggregated).map Row.conns).Sublist
      (((keyOrder s.merged).filter fun e => e.1 = k).map fun e => e.2.conns) := by
    rw [hconns]
    exact List.filter_sublist.map _
  have hperm : (((keyOrder s.merged).filter fun e => e.1 = k).map fun e => e.2.conns).sum =
      connsOf k s.merged := (((perm_keyOrder s.merged).filter _).map _).sum_eq
  exact (hsub.sum_le_sum fun _ _ => Nat.zero_le _).trans_eq hperm

/-- A row whose name is inherited is never counted. -/
theorem named_of_conns {s s' : State} {rows : List Row}
    (hkeys : ∀ k ∈ s.merged.map Prod.fst, s.prototype.get k = .undefined)
    (hs : rows.foldlM step s = some s')
    (hc : ∀ k, connsOf k s.merged + (ofName k rows).length ≤ connsOf k s'.merged) :
    Named s.prototype rows := by
  induction rows generalizing s with
  | nil => exact fun w hw => absurd hw List.not_mem_nil
  | cons w rows ih =>
    rw [List.foldlM_cons] at hs
    obtain ⟨t, ht, hs⟩ := Option.bind_eq_some_iff.mp hs
    have hrest : ∀ k, connsOf k t.merged + (ofName k rows).length ≤ connsOf k s'.merged := by
      intro k
      have hstep := connsOf_step ht k
      have hk := hc k
      rw [ofName_cons] at hk
      omega
    by_cases hw : w.isSv2 = true
    · have hget : s.prototype.get w.name = .undefined := by
        by_contra hget
        have hout : w.name ∉ s.merged.map Prod.fst := fun hm => hget (hkeys _ hm)
        have hmerged : t.merged = s.merged := by
          rw [step, if_pos hw, if_neg hout] at ht
          split at ht
          · exact absurd ‹_› hget
          · obtain rfl := Option.some.inj ht
            rfl
          · obtain rfl := Option.some.inj ht
            rfl
          · cases ht
        have hk := hc w.name
        have hlost := connsOf_run hs w.name
        have hone : (ofName w.name [w]).length = 1 := by simp [ofName, hw]
        rw [ofName_cons, hone] at hk
        rw [hmerged] at hlost
        omega
      have ht' : t = { s with merged := put Row.name first absorb w s.merged } := by
        rw [step, if_pos hw, hget] at ht
        split at ht
        · exact (Option.some.inj ht).symm
        · exact (Option.some.inj ht).symm
      have hkeys' : ∀ k ∈ t.merged.map Prod.fst, t.prototype.get k = .undefined := by
        subst ht'
        intro k hk
        rw [keys_put] at hk
        split at hk
        · exact hkeys k hk
        · obtain hk | hk := List.mem_append.mp hk
          · exact hkeys k hk
          · rw [List.mem_singleton.mp hk]
            exact hget
      have hn := ih hkeys' hs hrest
      subst ht'
      intro v hv hsv
      obtain rfl | hv := List.mem_cons.mp hv
      · exact hget
      · exact hn v hv hsv
    · rw [step, if_neg hw] at ht
      obtain rfl := Option.some.inj ht
      have hn := ih (s := { s with passthrough := s.passthrough ++ [w] }) hkeys hs hrest
      intro v hv hsv
      obtain rfl | hv := List.mem_cons.mp hv
      · exact absurd hsv hw
      · exact hn v hv hsv

section Needed
variable {o : Prototype} {workerList rows : List Row}

theorem Conserves.named (h : Conserves o workerList rows) : Named o rows := by
  obtain ⟨s, hs, ht, -⟩ := h
  refine named_of_conns (s := { prototype := o }) (by simp) hs fun k => ?_
  have hk : Keyed s := Keyed.run (s := { prototype := o }) (by simp [Keyed]) hs
  have hle := conns_aggregated_le hk k
  rw [(ht k).conns] at hle
  exact (Nat.zero_add _).trans_le hle

theorem Conserves.totals (h : Conserves o workerList rows) (k : Str) :
    Totals (ofName k rows) ((joined first absorb (ofName k rows)).map finish).toList := by
  have hn := h.named
  obtain ⟨s, hs, ht, -⟩ := h
  rw [merge_eq hn] at hs
  obtain rfl := Option.some.inj hs
  rw [← ofName_aggregated (o := o)]
  exact ht k

/-- In any two orders the rows of each `best` are the same. -/
theorem Conserves.classes (h : Conserves o workerList rows) {l m : List Row} (hl : l.Perm rows)
    (hm : m.Perm rows) (b : ℚ) : ofBest b (passed l) = ofBest b (passed m) ∧
      ofBest b (stateOf o l).aggregated = ofBest b (stateOf o m).aggregated := by
  have hn := h.named
  obtain ⟨-, -, -, -, horder⟩ := h
  exact (mergeWorkers_eq_iff (hn.perm hm) (hl.trans hm.symm)).mp
    ((horder l hl).trans (horder m hm).symm) b

/-- In any order the row of a name is the same. -/
theorem Conserves.row (h : Conserves o workerList rows) {l : List Row} (hl : l.Perm rows)
    (k : Str) : (joined first absorb (ofName k l)).map finish =
      (joined first absorb (ofName k rows)).map finish := by
  have hsub : ∀ l m : List Row, l.Perm rows → m.Perm rows → ∀ r,
      (joined first absorb (ofName k l)).map finish = some r →
        (joined first absorb (ofName k m)).map finish = some r := by
    intro l m hl hm r hr
    have hlist : r ∈ ofName k (stateOf o l).aggregated := by
      rw [ofName_aggregated, hr]
      exact List.mem_singleton_self r
    obtain ⟨hagg, hsv, hk⟩ := mem_ofName.mp hlist
    have hclass : r ∈ ofBest (-r.best) (stateOf o l).aggregated :=
      (mem_ofKey _).mpr ⟨hagg, rfl⟩
    rw [(h.classes hl hm _).2] at hclass
    have hm' := mem_ofName.mpr ⟨((mem_ofKey _).mp hclass).1, hsv, hk⟩
    rw [ofName_aggregated] at hm'
    exact Option.mem_toList.mp hm'
  exact Option.ext fun r => ⟨hsub l rows hl (List.Perm.refl _) r,
    hsub rows l (List.Perm.refl _) hl r⟩

/-- Each row of a name may come first, and the merged row is still the same. -/
theorem Conserves.from_any (h : Conserves o workerList rows) {k : Str} {w : Row}
    (hw : w ∈ ofName k rows) : ∃ as, (w :: as).Perm (ofName k rows) ∧
      (joined first absorb (ofName k rows)).map finish =
        some (finish (as.foldl absorb (first w))) := by
  obtain ⟨hmem, hsv, hk⟩ := mem_ofName.mp hw
  have hp : (w :: rows.erase w).Perm rows := (List.perm_cons_erase hmem).symm
  have hname : ofName k (w :: rows.erase w) = w :: ofName k (rows.erase w) := by
    simp [ofName, hsv, hk]
  refine ⟨ofName k (rows.erase w), hname ▸ ofName_perm hp k, ?_⟩
  rw [← h.row hp k, hname]
  rfl

/-- What all rows of a name have in common, if any of them may come first. -/
structure Alike (rows : List Row) (r w : Row) : Prop where
  rejected : w.rejected.getD 0 = (rows.map fun w => w.rejected.getD 0).sum
  hs : w.hs.isSome = r.hs.isSome
  reasons : w.rejectReasons = r.rejectReasons
  declared : (∃ v ∈ rows, v.declared = some 0) ∨ w.declared = r.declared

theorem Conserves.alike (h : Conserves o workerList rows) {k : Str}
    (hl : 0 < (ofName k rows).length) : ∃ r, ∀ w ∈ ofName k rows, Alike (ofName k rows) r w := by
  obtain ⟨u, hu⟩ := List.exists_mem_of_length_pos hl
  obtain ⟨us, -, hr⟩ := h.from_any hu
  refine ⟨finish (us.foldl absorb (first u)), fun w hw => ?_⟩
  obtain ⟨as, hp, hw'⟩ := h.from_any hw
  have heq := Option.some.inj (hr.symm.trans hw')
  have hsum : ((ofName k rows).map fun w => w.rejected.getD 0).sum =
      w.rejected.getD 0 + (as.map fun w => w.rejected.getD 0).sum :=
    ((hp.map fun w => w.rejected.getD 0).sum_eq).symm.trans (List.sum_cons ..)
  have hrej := (h.totals k).rejected
  rw [hw', Option.toList_some, List.map_singleton, List.sum_singleton, finish_eq, rejected_foldl,
    hsum] at hrej
  change w.rejected.getD 0 + _ = _ at hrej
  rw [heq, finish_eq]
  refine ⟨by rw [hsum]; linarith, ?_, (reasons_foldl (first w) as).symm, ?_⟩
  · change _ = (as.foldl absorb (first w)).hs.isSome
    rw [hs_foldl, Option.isSome_map]
    rfl
  · by_cases hz : ∃ v ∈ ofName k rows, v.declared = some 0
    · exact .inl hz
    · refine .inr ?_
      change _ = (as.foldl absorb (first w)).declared
      simp only [← hp.mem_iff] at hz
      rw [declared_joined, if_neg hz]

theorem Conserves.uniform (h : Conserves o workerList rows) (k : Str)
    (hl : 1 < (ofName k rows).length) : Uniform (ofName k rows) := by
  obtain ⟨r, hr⟩ := h.alike (k := k) (by omega)
  have hzero : ((ofName k rows).map fun w => w.rejected.getD 0).sum = 0 := by
    -- every row has rejected the sum of all, and there is more than one
    have hall := List.sum_eq_card_nsmul ((ofName k rows).map fun w => w.rejected.getD 0)
      ((ofName k rows).map fun w => w.rejected.getD 0).sum (by
        intro x hx
        obtain ⟨w, hw, rfl⟩ := List.mem_map.mp hx
        exact (hr w hw).rejected)
    rw [List.length_map, nsmul_eq_mul] at hall
    have hone : (1 : ℚ) < ((ofName k rows).length : ℚ) := by exact_mod_cast hl
    nlinarith
  refine ⟨?rejected, ?hs, ?declared, ?reasons⟩
  case rejected => exact fun w hw => (hr w hw).rejected.trans hzero
  case hs => exact fun v hv w hw => (hr v hv).hs.trans (hr w hw).hs.symm
  case declared =>
    by_cases hz : ∃ v ∈ ofName k rows, v.declared = some 0
    · exact .inl hz
    · refine .inr fun v hv w hw => ?_
      exact ((hr v hv).declared.resolve_left hz).trans ((hr w hw).declared.resolve_left hz).symm
  case reasons => exact fun v hv w hw => (hr v hv).reasons.trans (hr w hw).reasons.symm

theorem Conserves.passed (h : Conserves o workerList rows) {v w : Row} (hv : v ∈ rows)
    (hw : w ∈ rows) (hsv : v.isSv2 = false) (hsw : w.isSv2 = false) (hb : v.best = w.best) :
    v = w := by
  by_contra hne
  have hp : (v :: w :: (rows.erase v).erase w).Perm rows :=
    ((List.perm_cons_erase ((List.mem_erase_of_ne (Ne.symm hne)).mpr hw)).symm.cons v).trans
      (List.perm_cons_erase hv).symm
  have hq : (w :: v :: (rows.erase v).erase w).Perm rows := (List.Perm.swap v w _).trans hp
  have hc := (h.classes hp hq (-v.best)).1
  simp only [ofBest, ofKey, FleetRows.passed, List.filter_cons, hsv, hsw, hb, Bool.not_false,
    if_true, decide_true] at hc
  exact hne (List.cons.inj hc).1

/-- The merged row of a name that has rows, and its `best`. -/
theorem Conserves.best (h : Conserves o workerList rows) {k : Str} {b : ℚ}
    (hb : IsGreatest { b | ∃ w ∈ ofName k rows, w.best = b } b) :
    ∃ r, (joined first absorb (ofName k rows)).map finish = some r ∧ r.best = b ∧ r.name = k := by
  obtain ⟨w, hw, -⟩ := hb.1
  obtain ⟨as, -, hr⟩ := h.from_any hw
  refine ⟨_, hr, ?_, ?_⟩
  · refine IsGreatest.unique ((h.totals k).best _ ?_) hb
    rw [hr]
    exact List.mem_singleton_self _
  · rw [finish_eq]
    exact (name_foldl _ _).trans (mem_ofName.mp hw).2.2

theorem Conserves.ranked (h : Conserves o workerList rows) {k l : Str} {b : ℚ}
    (hk : isIndex k = false) (hl : isIndex l = false)
    (hbk : IsGreatest { b | ∃ w ∈ ofName k rows, w.best = b } b)
    (hbl : IsGreatest { b | ∃ w ∈ ofName l rows, w.best = b } b) : k = l := by
  by_contra hkl
  obtain ⟨v, hv, hvb, hvk⟩ := h.best hbk
  obtain ⟨w, hw, hwb, hwl⟩ := h.best hbl
  let rest := (rows.filter fun w => !(w.isSv2 && w.name = k)).filter
    fun w => !(w.isSv2 && w.name = l)
  have hrest : ∀ w ∈ rest, w.isSv2 = true → w.name ≠ k ∧ w.name ≠ l := by
    intro w hw hsv
    obtain ⟨hw, hwl⟩ := List.mem_filter.mp hw
    obtain ⟨-, hwk⟩ := List.mem_filter.mp hw
    simp only [hsv, Bool.true_and, Bool.not_eq_true', decide_eq_false_iff_not] at hwk hwl
    exact ⟨hwk, hwl⟩
  have hother : (rows.filter fun w => !(w.isSv2 && w.name = k)).filter
      (fun w => w.isSv2 && w.name = l) = ofName l rows := by
    rw [List.filter_filter]
    refine List.filter_congr fun w _ => ?_
    by_cases hwl : w.name = l
    · simp [hwl, Ne.symm hkl]
    · simp [hwl]
  have hp : (ofName k rows ++ (ofName l rows ++ rest)).Perm rows := by
    refine ((List.Perm.append_left _ ?_)).trans
      (List.filter_append_perm (fun w : Row => w.isSv2 && w.name = k) rows)
    rw [← hother]
    exact List.filter_append_perm (fun w : Row => w.isSv2 && w.name = l) _
  have hq : (ofName l rows ++ (ofName k rows ++ rest)).Perm rows := by
    refine List.Perm.trans ?_ hp
    rw [← List.append_assoc, ← List.append_assoc]
    exact List.perm_append_comm.append_right rest
  have hindex : ∀ j, (decide (j = k) || decide (j = l)) = true → isIndex j = false := by
    intro j hj
    obtain hj | hj := Bool.or_eq_true_iff.mp hj
    · rw [of_decide_eq_true hj, hk]
    · rw [of_decide_eq_true hj, hl]
  -- the rows of the two names in the two orders, and both are of one `best`
  have hkl' := filter_aggregated hindex o (-b) (ofName k rows ++ (ofName l rows ++ rest))
  have hlk' := filter_aggregated hindex o (-b) (ofName l rows ++ (ofName k rows ++ rest))
  rw [filter_ended hkl hrest, hv, hw] at hkl'
  simp only [Bool.or_comm (decide (_ = k))] at hlk'
  rw [filter_ended (Ne.symm hkl) fun w hw hsv => (hrest w hw hsv).symm, hv, hw] at hlk'
  simp only [Bool.or_comm (decide (_ = l))] at hlk'
  rw [(h.classes hp hq (-b)).2, hlk'] at hkl'
  have hvw : [w, v] = [v, w] := by
    simpa [ofBest, ofKey, hvb, hwb] using hkl'
  have heq : w = v := (List.cons.inj hvw).1
  exact hkl (hvk.symm.trans ((congrArg Row.name heq).symm.trans hwl))

theorem Conserves.mergeable (h : Conserves o workerList rows) : Mergeable o rows where
  named := h.named
  uniform := h.uniform
  passed := fun _ hv _ hw hsv hsw hb => h.passed hv hw hsv hsw hb
  ranked := fun _ _ _ hk hl hbk hbl => h.ranked hk hl hbk hbl

end Needed

/-- A channel with one share rejected. -/
def channel : Row := { name := "rig".toList, proto := "SV2".toList, rejected := some 1 }

end MkPool.FleetRows
