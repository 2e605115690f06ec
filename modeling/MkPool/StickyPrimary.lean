import MkPool.UpstreamBalance

/-! # The primary link of a failover client

A failover client serves everybody from one link. A link that closes has its
miners moved to the first link that is ready, and that one becomes the primary
even where the closed link was not, and where the primary is ready. -/
namespace MkPool.StickyPrimary
open MkPool.Lib MkPool.Utils MkPool.UpstreamClient MkPool.UpstreamBalance

/-- A link closes while one before `p` is ready. -/
def Undercut (p : Nat) (c : Client) : Input → Prop
  | .connClose i _ => ∃ q < p, q ≠ i ∧ readyAt c q = true
  | _ => False

section Steps

variable {c c' : Client} {p i j : Nat}

theorem primary_allocateAt (c : Client) (t sink : Nat) :
    (allocateAt c t sink).1.primary = c.primary := by
  unfold allocateAt
  split <;> rfl

theorem primary_modify {f : Link → Link} : (modifyLink c i f).primary = c.primary := by
  unfold modifyLink
  split <;> rfl

theorem primary_extranonce {en2Size : Nat} {en1 : Str} {reconnect : Bool} {f : Link → Link}
    (hs : extranonceAt c i en1 en2Size reconnect f = some c') : c'.primary = c.primary := by
  unfold extranonceAt at hs
  cases hl : c.links[i]? with
  | none =>
    rw [hl] at hs
    rw [← Option.some.inj hs]
  | some l =>
    rw [hl] at hs
    obtain ⟨l', _, hs⟩ := Option.bind_eq_some_iff.mp hs
    rw [← Option.some.inj hs]

theorem primary_fold (target : Option Nat) (order : List (Nat × Subscriber))
    (st : Client × List Nat) :
    (order.foldl (migrateOne i target) st).1.primary = st.1.primary := by
  induction order generalizing st with
  | nil => rfl
  | cons e rest ih =>
    rw [List.foldl_cons, ih]
    rcases migrateOne_cases i target st e with h | ⟨t, h, _⟩
    · rw [h]
    · rw [h, primary_allocateAt]

theorem held_modify {f : Link → Link} (hless : ∀ l, (f l).subscribers.length ≤ l.subscribers.length)
    (k : Nat) : held (modifyLink c i f) k ≤ held c k := by
  unfold modifyLink held
  cases hl : c.links[i]? with
  | none => exact Nat.le_refl _
  | some l =>
    dsimp only
    by_cases hk : k = i
    · rw [hk, List.getElem?_set_self (List.getElem?_eq_some_iff.mp hl).1, hl]
      exact hless l
    · rw [List.getElem?_set_ne (Ne.symm hk)]

theorem held_extranonce {en2Size : Nat} {en1 : Str} {reconnect : Bool} {f : Link → Link}
    (hf : ∀ l, (f l).subscribers = l.subscribers)
    (hs : extranonceAt c i en1 en2Size reconnect f = some c') (k : Nat) : held c' k ≤ held c k := by
  unfold extranonceAt at hs
  cases hl : c.links[i]? with
  | none =>
    rw [hl] at hs
    rw [← Option.some.inj hs]
  | some l =>
    rw [hl] at hs
    obtain ⟨l', hl', hs⟩ := Option.bind_eq_some_iff.mp hs
    rw [← Option.some.inj hs]
    unfold held
    dsimp only
    by_cases hk : k = i
    · rw [hk, List.getElem?_set_self (List.getElem?_eq_some_iff.mp hl).1, hl]
      simp only [Option.map_some, Option.getD_some, hf, (extranonce_link hl').2, le_refl]
    · rw [List.getElem?_set_ne (Ne.symm hk)]

/-! ## A migration -/

/-- The first ready link but `i`. -/
def firstOther (c : Client) (i : Nat) : Option Nat :=
  (List.range c.links.length).find? fun j => j ≠ i ∧ readyAt c j

/-- The first one is `p` unless one before it is ready. -/
theorem firstOther_eq_iff (hp : p ≠ i) (hready : readyAt c p = true) :
    firstOther c i = some p ↔ ¬ ∃ q < p, q ≠ i ∧ readyAt c q = true := by
  unfold firstOther
  rw [List.find?_range_eq_some]
  constructor
  · rintro ⟨_, _, hbefore⟩ ⟨q, hq, hqi, hqready⟩
    simpa [hqi, hqready] using hbefore q hq
  · intro hnone
    refine ⟨by simp [hp, hready], List.mem_range.mpr (lt_of_readyAt hready), fun q hq => ?_⟩
    by_contra hq'
    simp only [Bool.not_eq_true', decide_eq_false_iff_not, not_not] at hq'
    exact hnone ⟨q, hq, hq'⟩

theorem primary_migrate (order : List (Nat × Subscriber)) (hfail : c.activeActive = false) :
    (migrateLink c i order).primary =
      (firstOther c i).or (if c.primary = some i then none else c.primary) := by
  unfold migrateLink
  dsimp only
  rw [primary_modify, primary_fold, hfail]
  rfl

/-- A migration to `p` gives no other link a miner. -/
theorem held_migrate {order : List (Nat × Subscriber)} (hfail : c.activeActive = false)
    (htarget : firstOther c i = some p) (hj : j ≠ p) :
    held (migrateLink c i order) j ≤ held c j := by
  have hfold (st : Client × List Nat) (hactive : st.1.activeActive = false) :
      held (order.foldl (migrateOne i (some p)) st).1 j = held st.1 j := by
    induction order generalizing st with
    | nil => rfl
    | cons e rest ih =>
      rw [List.foldl_cons, ih _ ((alike_migrateOne i _ st e).active.trans hactive)]
      unfold migrateOne
      dsimp only
      split
      · rfl
      · rw [hactive]
        have hplaced := placed_allocateAt st.1 p e.2.sink
        split
        · rfl
        · next t ht =>
          cases ht
          split <;> rename_i heq <;> rw [heq] at hplaced <;> exact hplaced.others j hj
  unfold migrateLink
  dsimp only
  refine (held_modify (length_eraseSlots _) j).trans ?_
  rw [hfail]
  have hgo : (List.range c.links.length).find? (fun j => j ≠ i ∧ readyAt c j) = some p := htarget
  rw [if_neg Bool.false_ne_true, hgo]
  exact (hfold _ rfl).le

/-- A link before the primary is ready, and it is the one the miners go to. -/
theorem firstOther_isSome (hp : p ≠ i) (hready : readyAt c p = true) :
    (firstOther c i).isSome = true := by
  unfold firstOther
  rw [List.find?_isSome]
  exact ⟨p, List.mem_range.mpr (lt_of_readyAt hready), by simp [hp, hready]⟩

/-! ## A step -/

/-- A link that is ready after a step is not the one that closes. -/
theorem ne_of_ready {order : List (Nat × Subscriber)}
    (hready' : readyAt (migrateLink (modifyLink c i down) i order) p = true) : p ≠ i := by
  rintro rfl
  have hclosed : connectedAt (modifyLink c p down) p = false := by
    rw [connectedAt_modify false fun l => (Bool.and_false l.connected).symm, Bool.and_false]
  have hup := connectedAt_of_readyAt hready'
  rw [connectedAt_migrate hclosed] at hup
  cases hup

/-- Where the links but `i` are as before, so is the one the miners go to. -/
theorem firstOther_modify (f : Link → Link) : firstOther (modifyLink c i f) i = firstOther c i := by
  have hlen : (modifyLink c i f).links.length = c.links.length := by
    unfold modifyLink
    split
    · rfl
    · exact List.length_set
  unfold firstOther
  rw [hlen]
  refine congrArg₂ List.find? (funext fun j => ?_) rfl
  by_cases hj : j = i
  · simp [hj]
  · rw [readyAt_modify hj]

/-- **What a step does to a primary that stays ready**: it stays the primary
unless it is undercut, and then no other link gets a miner. -/
theorem primary_step {inp : Input} (hfail : c.activeActive = false) (hprimary : c.primary = some p)
    (hs : react c inp = some c') (hready : readyAt c p = true) (hready' : readyAt c' p = true) :
    (c'.primary = some p ↔ ¬ Undercut p c inp) ∧
      (¬ Undercut p c inp → ∀ j, j ≠ p → held c' j ≤ held c j) := by
  have hkept (hp : c'.primary = c.primary) (hheld : ∀ j, j ≠ p → held c' j ≤ held c j)
      (hcut : ¬ Undercut p c inp) : (c'.primary = some p ↔ ¬ Undercut p c inp) ∧
      (¬ Undercut p c inp → ∀ j, j ≠ p → held c' j ≤ held c j) :=
    ⟨iff_of_true (hp.trans hprimary) hcut, fun _ => hheld⟩
  cases inp with
  | connectLink i =>
    obtain rfl := Option.some.inj hs
    exact hkept primary_modify (fun j _ => held_modify (f := down) (fun _ => Nat.le_refl _) j) id
  | connOpen i =>
    obtain rfl := Option.some.inj hs
    exact hkept primary_modify (fun j _ =>
      held_modify (f := fun l => { l with connected := true }) (fun _ => Nat.le_refl _) j) id
  | authorizeResult i =>
    obtain rfl := Option.some.inj hs
    exact hkept primary_modify (fun j _ =>
      held_modify (f := fun l => { l with authorized := true }) (fun _ => Nat.le_refl _) j) id
  | subscribeResult i en1 en2Size =>
    exact hkept (primary_extranonce hs) (fun j _ =>
      held_extranonce (f := fun l => { l with subscribed := true }) (fun _ => rfl) hs j) id
  | setExtranonce i en1 en2Size =>
    exact hkept (primary_extranonce hs) (fun j _ =>
      held_extranonce (f := id) (fun _ => rfl) hs j) id
  | sinkGone sink =>
    obtain rfl := Option.some.inj hs
    exact hkept rfl (fun _ _ => Nat.le_refl _) id
  | detach k slotId =>
    obtain rfl := Option.some.inj hs
    exact hkept primary_modify (fun j _ => held_modify (length_eraseSlots _) j) id
  | attach sink =>
    obtain rfl := Option.some.inj hs
    have hpick : pickLink c = some p := by
      unfold pickLink
      dsimp only
      rw [hfail, if_neg Bool.false_ne_true, hprimary, Option.filter_some, if_pos hready]
    have hattach : (attach c sink).1 = (allocateAt { c with primary := some p } p sink).1 := by
      unfold UpstreamClient.attach
      rw [hpick]
      dsimp only
      rw [hfail, if_neg Bool.false_ne_true]
    show ((attach c sink).1.primary = _ ↔ _) ∧ (_ → ∀ j, j ≠ p → held (attach c sink).1 j ≤ _)
    rw [hattach]
    exact ⟨iff_of_true (primary_allocateAt _ p sink) id,
      fun _ j hj => ((placed_allocateAt _ p sink).others j hj).le⟩
  | connClose i order =>
    obtain rfl := Option.some.inj hs
    have hp := ne_of_ready hready'
    have hfail' : (modifyLink c i down).activeActive = false := active_modify.trans hfail
    have hiff : firstOther c i = some p ↔ ¬ Undercut p c (.connClose i order) :=
      firstOther_eq_iff hp hready
    refine ⟨?_, fun hcut j hj => ?_⟩
    · rw [primary_migrate order hfail', firstOther_modify, ← hiff]
      obtain ⟨t, ht⟩ := Option.isSome_iff_exists.mp (firstOther_isSome hp hready)
      rw [ht, Option.some_or]
    · refine (held_migrate hfail' ?_ hj).trans (held_modify (f := down) (fun _ => Nat.le_refl _) j)
      rw [firstOther_modify, hiff]
      exact hcut

end Steps

/-! ## Runs -/

/-- Steps in which link `p` stays ready and is not undercut. -/
inductive Stays (p : Nat) : Client → Client → Prop where
  | refl {c : Client} (hready : readyAt c p = true) : Stays p c c
  | step {c c' c'' : Client} {inp : Input} (h : Stays p c c') (hs : react c' inp = some c'')
    (hready : readyAt c'' p = true) (hcut : ¬ Undercut p c' inp) : Stays p c c''

theorem Stays.ready {p : Nat} {c c' : Client} (h : Stays p c c') : readyAt c' p = true := by
  cases h with
  | refl hready => exact hready
  | step _ _ hready _ => exact hready

/-- **A primary is given up too early only for a link before it.** As long as
the primary stays ready and no link closes while one before it is ready, it
stays the primary, and whoever comes or is moved is put on it: no other link
gets a miner. The next step that leaves it ready takes the primary from it
exactly when a link closes while one before it is ready. -/
theorem sticky_primary {p : Nat} {c c' : Client} (hfail : c.activeActive = false)
    (hprimary : c.primary = some p) (h : Stays p c c') :
    c'.primary = some p ∧ (∀ j, j ≠ p → held c' j ≤ held c j) ∧
      ∀ inp c'', react c' inp = some c'' → readyAt c'' p = true →
        (c''.primary = some p ↔ ¬ Undercut p c' inp) := by
  have hrun : c'.activeActive = false ∧ c'.primary = some p ∧
      ∀ j, j ≠ p → held c' j ≤ held c j := by
    induction h with
    | refl => exact ⟨hfail, hprimary, fun _ _ => Nat.le_refl _⟩
    | step h hs hready hcut ih =>
      obtain ⟨hfail', hprimary', hheld⟩ := ih
      obtain ⟨hiff, hless⟩ := primary_step hfail' hprimary' hs h.ready hready
      exact ⟨(active_step hs).trans hfail', hiff.mpr hcut,
        fun j hj => (hless hcut j hj).trans (hheld j hj)⟩
  refine ⟨hrun.2.1, hrun.2.2, fun inp c'' hs hready => ?_⟩
  exact (primary_step hrun.1 hrun.2.1 hs h.ready hready).1

/-- Three links that are up, of which the first has been away. -/
def threeLinks : Client where
  nonceBytes := 2
  activeActive := false
  links := [1, 1, 1].map fun weight =>
    { weight, connected := true, authorized := true, subscribed := true, upEn1 := "aa".toList,
      upEn2Size := 8, slotSpan := 65536, nonceBytesEff := 2 }
  primary := some 1

/-- A miner comes to the primary. Then the third link closes, which serves
nobody, and the first is the primary. -/
theorem standby_takes_primary : ∃ c' c'', Stays 1 threeLinks c' ∧
    react c' (.connClose 2 []) = some c'' ∧ readyAt c'' 1 = true ∧
    c'.primary = some 1 ∧ c''.primary ≠ some 1 := by
  have hstep : react threeLinks (.attach 7) = some (attach threeLinks 7).1 := rfl
  have hstays : Stays 1 threeLinks (attach threeLinks 7).1 :=
    .step (.refl (by decide +kernel)) hstep (by decide +kernel) id
  obtain ⟨hprimary, -, hnext⟩ := sticky_primary rfl rfl hstays
  have hready :
      readyAt (migrateLink (modifyLink (attach threeLinks 7).1 2 down) 2 []) 1 = true := by
    decide +kernel
  refine ⟨_, _, hstays, rfl, hready, hprimary, fun h => ?_⟩
  exact (hnext (.connClose 2 []) _ rfl hready).mp h ⟨0, by decide, by decide, by decide +kernel⟩

end MkPool.StickyPrimary
