import MkPool.Utils
import Mathlib.Data.List.GetD
import Mathlib.Data.List.Rotate

/-! # `redirector_session.cpp`: which backend a miner is sent to

Sessions pick at once, and share a cursor. A pick by round robin takes it one
step on at a time, and gives up after as many steps as the wheel has entries.
The steps of other picks fall between its own. -/
namespace MkPool.RedirectorPolicy
open MkPool.Utils

/-! ## The policy -/

/-- `RedirectConfig::Target`. -/
structure Target where
  host : Str
  port : UInt16
  weight : UInt32 := 1

/-- `RedirectConfig`, as far as a pick reads it. -/
structure RedirectConfig where
  targets : List Target
  strategy : Str := "round-robin".toList
  healthCheck : Bool := false

/-- How often a target is on the wheel: its weight, where zero is one, and at
most 1000. -/
def entries (t : Target) : Nat := min (if t.weight = 0 then 1 else t.weight.toNat) 1000

/-- The entries of targets that are numbered from `k` on. -/
def wheelFrom : Nat → List Target → List Nat
  | _, [] => []
  | k, t :: ts => List.replicate (entries t) k ++ wheelFrom (k + 1) ts

/-- `wheel_`. -/
def wheel (cfg : RedirectConfig) : List Nat := wheelFrom 0 cfg.targets

section Policy
variable (cfg : RedirectConfig) (up : Nat → Bool)

def healthy (i : Nat) : Bool := !cfg.healthCheck || up i

def anyHealthy : Bool := (List.range cfg.targets.length).any (healthy cfg up)

/-- Fail open if all are down. -/
def ok (i : Nat) : Bool := if anyHealthy cfg up then healthy cfg up i else true

/-- The fastest target of those that are ok, the first of equal ones. -/
def fastest (latency : Nat → ℚ) : Option Nat :=
  ((List.range cfg.targets.length).foldl
    (fun best i =>
      if ok cfg up i && decide (latency i < best.2) then (some i, latency i) else best)
    ((none, 10 ^ 18) : Option Nat × ℚ)).1

def candidates : List Nat := (List.range cfg.targets.length).filter (ok cfg up)

/-- What a pick returns before it comes to the wheel. -/
def direct (latency : Nat → ℚ) (draw : Nat) : Option Nat :=
  let byLatency :=
    if cfg.strategy = "latency".toList ∧ cfg.healthCheck = true then fastest cfg up latency else none
  byLatency.or
    (if cfg.strategy = "random".toList then
      (candidates cfg up)[draw % (candidates cfg up).length]?
    else none)

end Policy

/-! ## Picks at once -/

/-- The shared cursor, the picks that are on the wheel with the steps they have
made, and what was returned, the latest first. An empty pick has no target. -/
structure State where
  cursor : UInt64 := 0
  calls : List (Nat × Nat) := []
  returned : List (Option Nat) := []

/-- A pick begins, with the latencies it reads and its random number; or it
makes its next `fetch_add`. -/
inductive Action where
  | begin (id : Nat) (latency : Nat → ℚ) (draw : Nat)
  | fetchAdd (id : Nat)

/-- The entry the cursor is at. -/
def entry (cfg : RedirectConfig) (s : State) : Nat :=
  (wheel cfg).getD (s.cursor.toNat % (wheel cfg).length) 0

/-- A pick leaves with a target. -/
def State.leave (s : State) (id : Nat) (pick : Option Nat) : State :=
  { s with calls := s.calls.filter fun c => c.1 ≠ id, returned := pick :: s.returned }

/-- `next`, one shared step at a time. -/
def step (cfg : RedirectConfig) (up : Nat → Bool) (s : State) : Action → Option State
  | .begin id latency draw =>
    if (s.calls.lookup id).isSome then none
    else if cfg.targets = [] then some (s.leave id none)
    else
      match direct cfg up latency draw with
      | some i => some (s.leave id (some i))
      | none => some { s with calls := (id, 0) :: s.calls }
  | .fetchAdd id =>
    (s.calls.lookup id).map fun made =>
      let i := entry cfg s
      let s := { s with cursor := s.cursor + 1 }
      if ok cfg up i then s.leave id (some i)
      else if made + 1 < (wheel cfg).length then
        { s with calls := (id, made + 1) :: s.calls.filter fun c => c.1 ≠ id }
      else s.leave id (some 0)

/-- Picks of any number of sessions, in any order, from any place of the
cursor. -/
inductive Run (cfg : RedirectConfig) (up : Nat → Bool) (can : State → Action → Prop) : State → Prop
  | init (cursor : UInt64) : Run cfg up can { cursor }
  | next {s t : State} {a : Action} (run : Run cfg up can s) (meets : can s a)
    (stepped : step cfg up s a = some t) : Run cfg up can t

/-! ## What is claimed -/

/-- No strategy of its own decides. -/
def RoundRobin (cfg : RedirectConfig) : Prop :=
  cfg.strategy ≠ "random".toList ∧ ¬ (cfg.strategy = "latency".toList ∧ cfg.healthCheck = true)

/-- Every pick that returned has a healthy target. -/
def Healthy (cfg : RedirectConfig) (up : Nat → Bool) (s : State) : Prop :=
  ∀ r ∈ s.returned, ∃ i < cfg.targets.length, r = some i ∧ healthy cfg up i = true

/-- In as many picks in a row as the wheel has entries, each target has its
own. -/
def Fair (cfg : RedirectConfig) (s : State) : Prop :=
  ∀ later picks earlier, s.returned = later ++ picks ++ earlier →
    picks.length = (wheel cfg).length →
    ∀ i t, cfg.targets[i]? = some t → picks.count (some i) = entries t

/-- The last step of a pick does not find an unhealthy target where the first
target is unhealthy too. Where the targets take turns, the cursor does not
start again at zero, unless the wheel fits into its range or has one target. -/
def Fits (cfg : RedirectConfig) (up : Nat → Bool) (s : State) (a : Action) : Prop :=
  ∀ id, a = .fetchAdd id →
    (s.calls.lookup id = some ((wheel cfg).length - 1) →
      healthy cfg up (entry cfg s) = true ∨ healthy cfg up 0 = true) ∧
    (RoundRobin cfg → (∀ i < cfg.targets.length, healthy cfg up i = true) →
      s.cursor.toNat + 1 < 2 ^ 64 ∨ (wheel cfg).length ∣ 2 ^ 64 ∨ cfg.targets.length = 1)

/-! ## The wheel -/

theorem lt_of_mem_wheelFrom {k i : Nat} {ts : List Target} (h : i ∈ wheelFrom k ts) :
    k ≤ i ∧ i < k + ts.length := by
  induction ts generalizing k with
  | nil => cases h
  | cons t ts ih =>
    rw [List.length_cons]
    obtain h | h := List.mem_append.mp h
    · have hk := List.eq_of_mem_replicate h
      omega
    · have hrest := ih h
      omega

/-- A target is on the wheel as often as its entries say. -/
theorem count_wheelFrom {k i : Nat} {t : Target} {ts : List Target} (h : ts[i]? = some t) :
    (wheelFrom k ts).count (k + i) = entries t := by
  induction ts generalizing k i with
  | nil => cases h
  | cons t' ts ih =>
    unfold wheelFrom
    rw [List.count_append, List.count_replicate]
    cases i with
    | zero =>
      obtain rfl : t' = t := Option.some.inj h
      have hno : k + 0 ∉ wheelFrom (k + 1) ts := fun hmem => by
        have := (lt_of_mem_wheelFrom hmem).1
        omega
      rw [if_pos (by simp), List.count_eq_zero_of_not_mem hno, Nat.add_zero]
    | succ i =>
      have hrest := ih (k := k + 1) (i := i) h
      rw [if_neg (by simp), Nat.zero_add, ← hrest]
      congr 1
      omega

theorem entries_pos (t : Target) : 0 < entries t := by
  unfold entries
  split
  · decide
  · rename_i hweight
    have hpos : 0 < t.weight.toNat := by
      refine Nat.pos_of_ne_zero fun hzero => hweight ?_
      exact UInt32.toNat_inj.mp hzero
    omega

theorem length_wheel_pos {cfg : RedirectConfig} (h : cfg.targets ≠ []) :
    0 < (wheel cfg).length := by
  obtain ⟨t, ts, hts⟩ := List.exists_cons_of_ne_nil h
  unfold wheel
  rw [hts, wheelFrom, List.length_append, List.length_replicate]
  exact Nat.add_pos_left (entries_pos t) _

theorem entry_lt {cfg : RedirectConfig} (h : cfg.targets ≠ []) (s : State) :
    entry cfg s < cfg.targets.length := by
  have hpos := length_wheel_pos h
  have hlt : s.cursor.toNat % (wheel cfg).length < (wheel cfg).length := Nat.mod_lt _ hpos
  unfold entry
  rw [List.getD_eq_getElem _ _ hlt]
  have hmem := lt_of_mem_wheelFrom (List.getElem_mem hlt)
  omega

/-- A full turn of a wheel, begun anywhere, passes every entry once. -/
theorem turn_perm {α : Type} (l : List α) (d : α) (a : Nat) :
    ((List.range l.length).map fun j => l.getD ((a + j) % l.length) d).Perm l := by
  have hrotate : ((List.range l.length).map fun j => l.getD ((a + j) % l.length) d) =
      l.rotate a := by
    refine List.ext_getElem (by simp) fun j hj _ => ?_
    have hj' : j < l.length := by simpa using hj
    have hlt : (a + j) % l.length < l.length := Nat.mod_lt _ (by omega)
    rw [List.getElem_map, List.getElem_range, List.getD_eq_getElem _ _ hlt, List.getElem_rotate]
    congr 2
    exact Nat.add_comm a j
  rw [hrotate]
  exact List.rotate_perm l a

/-! ## Healthy picks -/

section Picks
variable {cfg : RedirectConfig} {up : Nat → Bool}

theorem ok_eq {j : Nat} (hj : j < cfg.targets.length) (hup : healthy cfg up j = true) (i : Nat) :
    ok cfg up i = healthy cfg up i :=
  if_pos (List.any_eq_true.mpr ⟨j, List.mem_range.mpr hj, hup⟩)

theorem fastest_ok {latency : Nat → ℚ} {i : Nat} (h : fastest cfg up latency = some i) :
    i < cfg.targets.length ∧ ok cfg up i = true := by
  have hkeep : ∀ (l : List Nat) (best : Option Nat × ℚ),
      (∀ i, best.1 = some i → i < cfg.targets.length ∧ ok cfg up i = true) →
      (∀ i ∈ l, i < cfg.targets.length) →
      ∀ i, (l.foldl (fun best i =>
        if ok cfg up i && decide (latency i < best.2) then (some i, latency i) else best) best).1 =
          some i → i < cfg.targets.length ∧ ok cfg up i = true := by
    intro l
    induction l with
    | nil => exact fun best hbest _ => hbest
    | cons k l ih =>
      intro best hbest hl
      rw [List.foldl_cons]
      refine ih _ ?_ fun i hi => hl i (List.mem_cons_of_mem _ hi)
      split
      · rename_i hk
        intro i hi
        obtain rfl : k = i := Option.some.inj hi
        exact ⟨hl k List.mem_cons_self, (Bool.and_eq_true_iff.mp hk).1⟩
      · exact hbest
  exact hkeep _ _ (by simp) (fun i hi => List.mem_range.mp hi) i h

/-- What is returned without the wheel is ok. -/
theorem direct_ok {latency : Nat → ℚ} {draw i : Nat} (h : direct cfg up latency draw = some i) :
    i < cfg.targets.length ∧ ok cfg up i = true := by
  unfold direct at h
  obtain h | ⟨-, h⟩ := Option.or_eq_some_iff.mp h
  · split at h
    · exact fastest_ok h
    · cases h
  · split at h
    · have hmem := List.mem_filter.mp (List.mem_of_getElem? h)
      exact ⟨List.mem_range.mp hmem.1, hmem.2⟩
    · cases h

/-- A pick that has not returned has steps left, and no pick has returned an
unhealthy target. -/
structure Inv (cfg : RedirectConfig) (up : Nat → Bool) (s : State) : Prop where
  calls : ∀ c ∈ s.calls, c.2 < (wheel cfg).length
  returned : Healthy cfg up s

theorem Inv.leave {s : State} (h : Inv cfg up s) (id : Nat) {i : Nat}
    (hi : i < cfg.targets.length) (hup : healthy cfg up i = true) :
    Inv cfg up (s.leave id (some i)) where
  calls c hc := h.calls c (List.mem_filter.mp hc).1
  returned := List.forall_mem_cons.mpr ⟨⟨i, hi, rfl, hup⟩, h.returned⟩

theorem Inv.began {s t : State} {id draw j : Nat} {latency : Nat → ℚ} (h : Inv cfg up s)
    (hj : j < cfg.targets.length) (hup : healthy cfg up j = true)
    (hstep : step cfg up s (.begin id latency draw) = some t) : Inv cfg up t := by
  have hne : cfg.targets ≠ [] := List.length_pos_iff.mp (by omega)
  rw [step] at hstep
  split at hstep
  · cases hstep
  · split at hstep
    · rename_i i hdirect
      cases hstep
      have hok := direct_ok hdirect
      rw [ok_eq hj hup] at hok
      exact h.leave id hok.1 hok.2
    · cases hstep
      exact ⟨List.forall_mem_cons.mpr ⟨length_wheel_pos hne, h.calls⟩, h.returned⟩

theorem Inv.added {s t : State} {id j : Nat} (h : Inv cfg up s) (hj : j < cfg.targets.length)
    (hup : healthy cfg up j = true) (hfits : Fits cfg up s (.fetchAdd id))
    (hstep : step cfg up s (.fetchAdd id) = some t) : Inv cfg up t := by
  have hne : cfg.targets ≠ [] := List.length_pos_iff.mp (by omega)
  obtain ⟨made, hmade, rfl⟩ := Option.map_eq_some_iff.mp hstep
  have hless : made < (wheel cfg).length := by
    obtain ⟨l₁, l₂, hcalls, -⟩ := List.lookup_eq_some_iff.mp hmade
    exact h.calls (id, made) (by simp [hcalls])
  have hmoved : Inv cfg up { s with cursor := s.cursor + 1 } := ⟨h.calls, h.returned⟩
  dsimp only at hless ⊢
  rw [ok_eq hj hup]
  split
  · rename_i hentry
    exact hmoved.leave id (entry_lt hne s) hentry
  · rename_i hentry
    split
    · rename_i hmore
      exact ⟨List.forall_mem_cons.mpr ⟨hmore, fun c hc => h.calls c (List.mem_filter.mp hc).1⟩,
        h.returned⟩
    · -- the last step: the first target is returned unseen
      have hlast : made = (wheel cfg).length - 1 := by omega
      have hfirst := ((hfits id rfl).1 (hlast ▸ hmade)).resolve_left hentry
      exact hmoved.leave id (List.length_pos_iff.mpr hne) hfirst

theorem inv_of_run {s : State} {j : Nat} (hj : j < cfg.targets.length)
    (hup : healthy cfg up j = true) (h : Run cfg up (Fits cfg up) s) : Inv cfg up s := by
  induction h with
  | init cursor => exact ⟨nofun, nofun⟩
  | @next s t a run meets stepped ih =>
    cases a with
    | begin id latency draw => exact ih.began hj hup stepped
    | fetchAdd id => exact ih.added hj hup meets stepped

/-! ## Turns -/

/-- The picks that returned are those of the wheel from some place on, and the
cursor stands at the next. -/
structure Turns (cfg : RedirectConfig) (start : Nat) (s : State) : Prop where
  returned : s.returned.reverse = (List.range s.returned.length).map fun k =>
    some ((wheel cfg).getD ((start + k) % (wheel cfg).length) 0)
  cursor : s.cursor.toNat % (wheel cfg).length =
    (start + s.returned.length) % (wheel cfg).length

theorem direct_none (hround : RoundRobin cfg) (latency : Nat → ℚ) (draw : Nat) :
    direct cfg up latency draw = none := by
  unfold direct
  rw [if_neg hround.2, if_neg hround.1]
  rfl

theorem turns_of_run {s : State} (hround : RoundRobin cfg) (hne : cfg.targets ≠ [])
    (hup : ∀ i < cfg.targets.length, healthy cfg up i = true) (hmany : cfg.targets.length ≠ 1)
    (h : Run cfg up (Fits cfg up) s) : ∃ start, Turns cfg start s := by
  have hpos := List.length_pos_iff.mpr hne
  induction h with
  | init cursor => exact ⟨cursor.toNat, rfl, rfl⟩
  | @next s t a run meets stepped ih =>
    obtain ⟨start, hturns⟩ := ih
    refine ⟨start, ?_⟩
    cases a with
    | begin id latency draw =>
      rw [step] at stepped
      split at stepped
      · cases stepped
      · rw [direct_none hround] at stepped
        cases stepped
        exact ⟨hturns.returned, hturns.cursor⟩
    | fetchAdd id =>
      obtain ⟨made, hmade, rfl⟩ := Option.map_eq_some_iff.mp stepped
      have hentry : ok cfg up (entry cfg s) = true := by
        rw [ok_eq hpos (hup 0 hpos)]
        exact hup _ (entry_lt hne s)
      have hcursor : (s.cursor + 1).toNat % (wheel cfg).length =
          (s.cursor.toNat + 1) % (wheel cfg).length := by
        rw [UInt64.toNat_add]
        show (s.cursor.toNat + 1) % 2 ^ 64 % _ = _
        obtain hlt | hdvd | hone := (meets id rfl).2 hround hup
        · rw [Nat.mod_eq_of_lt hlt]
        · exact Nat.mod_mod_of_dvd _ hdvd
        · exact absurd hone hmany
      dsimp only
      rw [if_pos hentry]
      constructor
      · show (some (entry cfg s) :: s.returned).reverse = _
        rw [List.reverse_cons, hturns.returned, State.leave, List.length_cons, List.range_succ,
          List.map_append, entry, hturns.cursor]
        rfl
      · show (s.cursor + 1).toNat % _ = (start + (s.returned.length + 1)) % _
        rw [hcursor]
        exact Nat.ModEq.add_right 1 hturns.cursor

/-- A window of a sequence of values. -/
theorem window_eq {α : Type} {f : Nat → α} {m : Nat} {before win after : List α}
    (h : (List.range m).map f = before ++ win ++ after) :
    win = (List.range win.length).map fun j => f (before.length + j) := by
  have hm : m = before.length + win.length + after.length := by
    simpa [Nat.add_assoc] using congrArg List.length h
  refine List.ext_getElem (by simp) fun j hj _ => ?_
  have hat : ((List.range m).map f)[before.length + j]? = some (f (before.length + j)) := by
    rw [List.getElem?_map, List.getElem?_range (by omega)]
    rfl
  rw [h, List.append_assoc, List.getElem?_append_right (by omega), Nat.add_sub_cancel_left,
    List.getElem?_append_left hj, List.getElem?_eq_getElem hj] at hat
  rw [Option.some.inj hat, List.getElem_map, List.getElem_range]

theorem fair_of_turns {s : State} {start : Nat} (h : Turns cfg start s) : Fair cfg s := by
  intro later picks earlier hsplit hlen i t ht
  have hreverse := h.returned
  rw [hsplit, List.reverse_append, List.reverse_append, ← List.append_assoc] at hreverse
  have hwindow := window_eq hreverse.symm
  have hturn : picks.reverse.length = (wheel cfg).length := List.length_reverse.trans hlen
  rw [hturn] at hwindow
  have hpicks : picks.reverse = ((List.range (wheel cfg).length).map fun j =>
      (wheel cfg).getD ((start + earlier.reverse.length + j) % (wheel cfg).length) 0).map some := by
    rw [hwindow, List.map_map]
    refine List.map_congr_left fun j _ => ?_
    rw [Function.comp_apply, Nat.add_assoc]
  calc picks.count (some i) = picks.reverse.count (some i) := List.count_reverse.symm
    _ = (wheel cfg).count i := by
      rw [hpicks, List.count_map_of_injective _ _ (Option.some_injective _)]
      exact (turn_perm (wheel cfg) 0 _).count_eq i
    _ = entries t := by
      have hcount := count_wheelFrom (k := 0) ht
      rwa [Nat.zero_add] at hcount

/-- A target alone is every pick. -/
theorem fair_of_single {s : State} (hone : cfg.targets.length = 1) (h : Healthy cfg up s) :
    Fair cfg s := by
  intro later picks earlier hsplit hlen i t ht
  have hi : i = 0 := by
    have := (List.getElem?_eq_some_iff.mp ht).1
    omega
  have hall : ∀ r ∈ picks, r = some i := by
    intro r hr
    obtain ⟨k, hk, rfl, -⟩ := h r (by
      rw [hsplit]
      exact List.mem_append_left _ (List.mem_append_right _ hr))
    rw [show k = i by omega]
  have hwheel : ∀ k ∈ wheel cfg, k = i := by
    intro k hk
    have := lt_of_mem_wheelFrom hk
    omega
  have hcount := count_wheelFrom (k := 0) ht
  rw [Nat.zero_add] at hcount
  rw [List.count_eq_length.mpr fun r hr => (hall r hr).symm, hlen, ← hcount]
  exact (List.count_eq_length.mpr fun k hk => (hwheel k hk).symm).symm

end Picks

/-- Where every step fits, whatever the order of the steps: each pick that
returned has a healthy target, those on the wheel have steps left, and where all
are healthy and take turns, a full turn of picks gives each target its
entries. -/
theorem healthy_and_fair {cfg : RedirectConfig} {up : Nat → Bool} {s : State} {j : Nat}
    (hj : j < cfg.targets.length) (hup : healthy cfg up j = true)
    (h : Run cfg up (Fits cfg up) s) :
    Healthy cfg up s ∧ (∀ c ∈ s.calls, c.2 < (wheel cfg).length) ∧
      (RoundRobin cfg → (∀ i < cfg.targets.length, healthy cfg up i = true) → Fair cfg s) := by
  have hinv := inv_of_run hj hup h
  have hne : cfg.targets ≠ [] := List.length_pos_iff.mp (by omega)
  refine ⟨hinv.returned, hinv.calls, fun hround hall => ?_⟩
  by_cases hone : cfg.targets.length = 1
  · exact fair_of_single hone hinv.returned
  · obtain ⟨start, hturns⟩ := turns_of_run hround hne hall hone h
    exact fair_of_turns hturns

/-- A step that does not fit returns an unhealthy target, though one is healthy. -/
theorem returned_unhealthy {cfg : RedirectConfig} {up : Nat → Bool} {s : State} {id j : Nat}
    (hj : j < cfg.targets.length) (hup : healthy cfg up j = true)
    (hlast : s.calls.lookup id = some ((wheel cfg).length - 1))
    (hentry : healthy cfg up (entry cfg s) = false) (hfirst : healthy cfg up 0 = false) :
    ∃ t, step cfg up s (.fetchAdd id) = some t ∧ ¬ Healthy cfg up t := by
  refine ⟨_, by rw [step, hlast]; rfl, fun h => ?_⟩
  dsimp only at h
  rw [ok_eq hj hup, hentry, if_neg Bool.false_ne_true, if_neg (by omega)] at h
  obtain ⟨i, -, hi, hhealthy⟩ := h _ List.mem_cons_self
  obtain rfl := Option.some.inj hi
  rw [hfirst] at hhealthy
  cases hhealthy

/-! ## Two backends -/

theorem run_of_actions {cfg : RedirectConfig} {up : Nat → Bool} {s t : State}
    {actions : List Action} (hrun : Run cfg up (fun _ _ => True) s)
    (h : actions.foldlM (step cfg up) s = some t) : Run cfg up (fun _ _ => True) t := by
  induction actions generalizing s with
  | nil =>
    obtain rfl := Option.some.inj h
    exact hrun
  | cons a actions ih =>
    rw [List.foldlM_cons] at h
    obtain ⟨s', hs', h⟩ := Option.bind_eq_some_iff.mp h
    exact ih (.next hrun trivial hs') h

def twoBackends : RedirectConfig where
  targets := [⟨"a".toList, 3333, 1⟩, ⟨"b".toList, 3333, 1⟩]
  healthCheck := true

/-- One pick, of the first backend. -/
theorem healthy_and_fair_once :
    let s : State := { cursor := 1, returned := [some 0] }
    Healthy twoBackends (fun _ => true) s ∧ (∀ c ∈ s.calls, c.2 < (wheel twoBackends).length) ∧
      (RoundRobin twoBackends →
        (∀ i < twoBackends.targets.length, healthy twoBackends (fun _ => true) i = true) →
          Fair twoBackends s) := by
  have hbegun : Run twoBackends (fun _ => true) (Fits twoBackends fun _ => true)
      { calls := [(7, 0)] } :=
    .next (.init 0) (by intro id hid; cases hid) (rfl : step _ _ _ (.begin 7 (fun _ => 0) 0) = _)
  refine healthy_and_fair (j := 0) (by decide) rfl
    (.next hbegun ?_ (rfl : step _ _ _ (.fetchAdd 7) = _))
  intro id _
  exact ⟨fun _ => .inr rfl, fun _ _ => .inl (by decide)⟩

/-- While one of two backends is down, a pick steals the other's turn. -/
theorem stolen_turn_unhealthy :
    let up (i : Nat) : Bool := i == 1
    let t : State := { cursor := 3, returned := [some 0, some 1] }
    Run twoBackends up (fun _ _ => True) t ∧ healthy twoBackends up 1 = true ∧
      ¬ Healthy twoBackends up t := by
  refine ⟨@run_of_actions _ _ _ _ [.begin 1 (fun _ => 0) 0, .begin 2 (fun _ => 0) 0, .fetchAdd 1,
    .fetchAdd 2, .fetchAdd 1] (.init 0) rfl, rfl, fun h => ?_⟩
  obtain ⟨i, -, hi, hup⟩ := h (some 0) List.mem_cons_self
  obtain rfl := Option.some.inj hi
  cases hup

end MkPool.RedirectorPolicy
