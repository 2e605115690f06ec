import MkPool.Lib.Balance
import MkPool.Slots
import Mathlib.Data.Rat.Cast.Order

/-! # Active links share the miners by their weights

An active-active client puts whoever comes on the ready link with the least
load, and moves the miners of a closed link one by one in the same way. What
this gives is a balance between any link and one that stays ready. -/
namespace MkPool.UpstreamBalance
open MkPool.Lib MkPool.Utils MkPool.UpstreamClient MkPool.Slots

/-- The miners link `k` serves. -/
def held (c : Client) (k : Nat) : Nat := ((c.links[k]?).map (·.subscribers.length)).getD 0

/-- `std::max<std::uint32_t>(1, weight)` for link `k`. -/
def weightAt (c : Client) (k : Nat) : Nat := ((c.links[k]?).map fun l => max 1 l.weight).getD 1

section Clients

variable {c c' : Client} {i j k t : Nat}

theorem weightAt_pos (c : Client) (k : Nat) : 0 < weightAt c k := by
  unfold weightAt
  cases c.links[k]? with
  | none => exact Nat.one_pos
  | some l => exact Nat.lt_of_lt_of_le Nat.one_pos (Nat.le_max_left 1 l.weight)

theorem loadAt_eq (c : Client) (k : Nat) : loadAt c k = (held c k : ℚ) / weightAt c k := by
  unfold loadAt held weightAt load
  cases c.links[k]? with
  | none => simp
  | some l => simp

/-- Loads are compared across. -/
theorem loadAt_le_iff : loadAt c i ≤ loadAt c j ↔
    held c i * weightAt c j ≤ held c j * weightAt c i := by
  have hi : (0 : ℚ) < weightAt c i := Nat.cast_pos.mpr (weightAt_pos c i)
  have hj : (0 : ℚ) < weightAt c j := Nat.cast_pos.mpr (weightAt_pos c j)
  rw [loadAt_eq, loadAt_eq, div_le_div_iff₀ hi hj]
  exact_mod_cast Iff.rfl

/-! ## The least load -/

theorem foldl_least_le (c : Client) (cs : List Nat) (b t : Nat)
    (h : cs.foldl (fun best i =>
      match best with
      | none => some i
      | some b => if loadAt c i < loadAt c b then some i else some b) (some b) = some t) :
    loadAt c t ≤ loadAt c b ∧ ∀ j ∈ cs, loadAt c t ≤ loadAt c j := by
  induction cs generalizing b with
  | nil =>
    obtain rfl : b = t := Option.some.inj h
    exact ⟨le_refl _, by simp⟩
  | cons i rest ih =>
    rw [List.foldl_cons] at h
    dsimp only at h
    by_cases hlt : loadAt c i < loadAt c b
    · rw [if_pos hlt] at h
      obtain ⟨hi, hrest⟩ := ih i h
      refine ⟨hi.trans hlt.le, fun j hj => ?_⟩
      rcases List.mem_cons.mp hj with rfl | hj
      · exact hi
      · exact hrest j hj
    · rw [if_neg hlt] at h
      obtain ⟨hb, hrest⟩ := ih b h
      refine ⟨hb, fun j hj => ?_⟩
      rcases List.mem_cons.mp hj with rfl | hj
      · exact hb.trans (le_of_not_gt hlt)
      · exact hrest j hj

/-- **No candidate has less load than the one that is picked.** -/
theorem leastLoaded_le {candidates : List Nat} (h : leastLoaded c candidates = some t)
    (hj : j ∈ candidates) : loadAt c t ≤ loadAt c j := by
  cases candidates with
  | nil => cases hj
  | cons i rest =>
    obtain ⟨hi, hrest⟩ := foldl_least_le c rest i t h
    rcases List.mem_cons.mp hj with rfl | hj
    · exact hi
    · exact hrest j hj

theorem lt_of_readyAt (h : readyAt c j = true) : j < c.links.length := by
  unfold readyAt at h
  obtain ⟨l, hl, _⟩ := (Option.any_eq_true _ _).mp h
  exact (List.getElem?_eq_some_iff.mp hl).1

/-! ## What a step does to the counts -/

/-- An allocation only looks for a slot, or takes one. -/
theorem allocateOn_cases (l : Link) (linkId sink : Nat) :
    ∃ nextSlot subscribers,
      (allocateOn l linkId sink).1 = { l with nextSlot, subscribers } ∧
      (subscribers = l.subscribers ∨
        ∃ e, subscribers = e :: l.subscribers ∧ e.1 ∉ l.subscribers.map Prod.fst) := by
  by_cases hready : linkReady l = true
  · unfold allocateOn
    rw [hready]
    cases hs : RoundRobin.search (· ∈ l.subscribers.map Prod.fst) l.slotSpan l.slotSpan
        l.nextSlot with
    | mk found next =>
      cases found with
      | none => exact ⟨next, l.subscribers, rfl, .inl rfl⟩
      | some cand =>
        refine ⟨next, _, rfl, .inr ⟨_, rfl, ?_⟩⟩
        exact RoundRobin.search_free (congrArg Prod.fst hs)
  · rw [allocateOn_not_ready hready]
    exact ⟨l.nextSlot, l.subscribers, rfl, .inl rfl⟩

/-- Link `k` is connected. -/
def connectedAt (c : Client) (k : Nat) : Bool := (c.links[k]?).any (·.connected)

theorem connectedAt_of_readyAt (h : readyAt c j = true) : connectedAt c j = true := by
  unfold readyAt at h
  obtain ⟨l, hl, hready⟩ := (Option.any_eq_true _ _).mp h
  exact (Option.any_eq_true _ _).mpr ⟨l, hl, (linkReady_iff.mp hready).1⟩

/-- What no placement changes. -/
structure Alike (c c' : Client) : Prop where
  active : c'.activeActive = c.activeActive
  weight : weightAt c' = weightAt c
  connected : connectedAt c' = connectedAt c

theorem Alike.refl (c : Client) : Alike c c := ⟨rfl, rfl, rfl⟩

theorem Alike.trans {c'' : Client} (h : Alike c c') (h' : Alike c' c'') : Alike c c'' :=
  ⟨h'.active.trans h.active, h'.weight.trans h.weight, h'.connected.trans h.connected⟩

/-- A placement: link `t` may have one more, and no link that was not ready gets
ready. -/
structure Placed (c c' : Client) (t : Nat) : Prop extends Alike c c' where
  others : ∀ k, k ≠ t → held c' k = held c k
  here : held c' t = held c t ∨ held c' t = held c t + 1
  ready : ∀ k, readyAt c' k = true → readyAt c k = true

theorem placed_allocateAt (c : Client) (t sink : Nat) : Placed c (allocateAt c t sink).1 t := by
  unfold allocateAt
  cases hl : c.links[t]? with
  | none => exact ⟨.refl c, fun _ _ => rfl, .inl rfl, fun _ => id⟩
  | some l =>
    obtain ⟨nextSlot, subscribers, ha, hsubs⟩ := allocateOn_cases l t sink
    dsimp only
    rw [ha]
    have hlt : t < c.links.length := (List.getElem?_eq_some_iff.mp hl).1
    have hhere : (c.links.set t { l with nextSlot, subscribers })[t]? =
        some { l with nextSlot, subscribers } := List.getElem?_set_self hlt
    have hother {k : Nat} (hk : k ≠ t) :
        (c.links.set t { l with nextSlot, subscribers })[k]? = c.links[k]? :=
      List.getElem?_set_ne (Ne.symm hk)
    have hmore : l.subscribers.length ≤ subscribers.length := by
      rcases hsubs with rfl | ⟨e, rfl, _⟩
      · exact Nat.le_refl _
      · exact Nat.le_succ _
    refine ⟨⟨rfl, funext fun k => ?_, funext fun k => ?_⟩, fun k hk => ?_, ?_, fun k hk => ?_⟩
    · by_cases hkt : k = t
      · rw [hkt, weightAt, weightAt, hhere, hl]
        rfl
      · rw [weightAt, weightAt, hother hkt]
    · by_cases hkt : k = t
      · rw [hkt, connectedAt, connectedAt, hhere, hl]
        rfl
      · rw [connectedAt, connectedAt, hother hkt]
    · rw [held, held, hother hk]
    · rw [held, held, hhere, hl]
      rcases hsubs with rfl | ⟨e, rfl, _⟩
      · exact .inl rfl
      · exact .inr rfl
    · by_cases hkt : k = t
      · rw [hkt, readyAt, hl]
        rw [hkt, readyAt, hhere] at hk
        obtain ⟨h₁, h₂, h₃, h₄, h₅, h₆, h₇⟩ := linkReady_iff.mp hk
        exact linkReady_iff.mpr ⟨h₁, h₂, h₃, h₄, h₅, h₆, Nat.lt_of_le_of_lt hmore h₇⟩
      · rw [readyAt, hother hkt] at hk
        exact hk

/-- Link `i` holds at most one miner more than `j`, up to a slack. -/
def WithinAt (c : Client) (d i j : Nat) : Prop := Balance.Within (weightAt c) (held c) d i j

/-- **A placement where the load is least keeps the balance.** -/
theorem WithinAt.placed {d : Nat} (h : WithinAt c d i j) (hp : Placed c c' t)
    (hleast : loadAt c t ≤ loadAt c j) : WithinAt c' d i j := by
  unfold WithinAt at h ⊢
  rw [hp.weight]
  refine h.grow ?_ ?_
  · by_cases hj : j = t
    · rw [hj]
      have hhere := hp.here
      omega
    · exact (hp.others j hj).ge
  · by_cases hi : i = t
    · rw [hi]
      exact hp.here.imp le_of_eq fun hone => ⟨hone, loadAt_le_iff.mp hleast⟩
    · exact .inl (hp.others i hi).le

theorem WithinAt.attach {d sink : Nat} (h : WithinAt c d i j) (hactive : c.activeActive = true)
    (hready : readyAt c j = true) : WithinAt (attach c sink).1 d i j := by
  unfold UpstreamClient.attach
  cases hpick : pickLink c with
  | none => exact h
  | some t =>
    dsimp only
    rw [if_pos hactive]
    unfold pickLink at hpick
    dsimp only at hpick
    rw [if_pos hactive] at hpick
    refine h.placed (placed_allocateAt c t sink) (leastLoaded_le hpick ?_)
    exact List.mem_filter.mpr ⟨List.mem_range.mpr (lt_of_readyAt hready), hready⟩

/-! ## A migration -/

/-- One subscriber is put on a link, the one with the least load of those that
are ready, or stays where it is. -/
theorem migrateOne_cases (k : Nat) (target : Option Nat) (st : Client × List Nat)
    (e : Nat × Subscriber) : (migrateOne k target st e).1 = st.1 ∨
      ∃ t, (migrateOne k target st e).1 = (allocateAt st.1 t e.2.sink).1 ∧
        (st.1.activeActive = true → leastLoaded st.1
          ((List.range st.1.links.length).filter fun j => j ≠ k ∧ readyAt st.1 j) = some t) := by
  unfold migrateOne
  dsimp only
  split
  · exact .inl rfl
  · split
    · exact .inl rfl
    · rename_i t ht
      refine .inr ⟨t, ?_, fun hactive => ?_⟩
      · split <;> rename_i heq <;> rw [heq]
      · rw [if_pos hactive] at ht
        exact ht

theorem alike_migrateOne (k : Nat) (target : Option Nat) (st : Client × List Nat)
    (e : Nat × Subscriber) : Alike st.1 (migrateOne k target st e).1 := by
  rcases migrateOne_cases k target st e with h | ⟨t, h, _⟩
  · rw [h]
    exact .refl st.1
  · rw [h]
    exact (placed_allocateAt st.1 t e.2.sink).toAlike

theorem alike_fold (k : Nat) (target : Option Nat) (order : List (Nat × Subscriber))
    (st : Client × List Nat) : Alike st.1 (order.foldl (migrateOne k target) st).1 := by
  induction order generalizing st with
  | nil => exact .refl st.1
  | cons e rest ih => exact (alike_migrateOne k target st e).trans (ih _)

/-- What a part of a migration keeps for link `j`. -/
structure Shifted (j : Nat) (c c' : Client) : Prop where
  ready : readyAt c' j = true → readyAt c j = true
  within : readyAt c j = true → ∀ d i, WithinAt c d i j → WithinAt c' d i j

theorem Shifted.refl (j : Nat) (c : Client) : Shifted j c c := ⟨id, fun _ _ _ => id⟩

theorem Shifted.trans {c'' : Client} (h : Shifted j c c') (h' : Shifted j c' c'')
    (hready : readyAt c'' j = true) : Shifted j c c'' where
  ready := fun _ => h.ready (h'.ready hready)
  within := fun hj d i hw => h'.within (h'.ready hready) d i (h.within hj d i hw)

theorem shifted_migrateOne {target : Option Nat} {st : Client × List Nat}
    {e : Nat × Subscriber} (hactive : st.1.activeActive = true) (hj : j ≠ k) :
    Shifted j st.1 (migrateOne k target st e).1 := by
  rcases migrateOne_cases k target st e with h | ⟨t, h, hpick⟩
  · rw [h]
    exact .refl j st.1
  · rw [h]
    have hp := placed_allocateAt st.1 t e.2.sink
    refine ⟨hp.ready j, fun hready d i hw => ?_⟩
    refine hw.placed hp (leastLoaded_le (hpick hactive) (List.mem_filter.mpr ?_))
    exact ⟨List.mem_range.mpr (lt_of_readyAt hready), by simp [hj, hready]⟩

theorem shifted_fold {target : Option Nat} (order : List (Nat × Subscriber))
    (st : Client × List Nat) (hactive : st.1.activeActive = true) (hj : j ≠ k)
    (hready : readyAt (order.foldl (migrateOne k target) st).1 j = true) :
    Shifted j st.1 (order.foldl (migrateOne k target) st).1 := by
  induction order generalizing st with
  | nil => exact .refl j st.1
  | cons e rest ih =>
    have hone : Shifted j st.1 (migrateOne k target st e).1 := shifted_migrateOne hactive hj
    have hactive' := (alike_migrateOne k target st e).active.trans hactive
    exact hone.trans (ih _ hactive' hready) hready

/-! ## A step -/

/-- A link is set to one of the same weight and no more subscribers. -/
theorem set_link {l l' : Link} (hl : c.links[k]? = some l) (hweight : l'.weight = l.weight)
    (hless : l'.subscribers.length ≤ l.subscribers.length) :
    weightAt { c with links := c.links.set k l' } = weightAt c ∧
      (∀ m, m ≠ k → held { c with links := c.links.set k l' } m = held c m) ∧
      held { c with links := c.links.set k l' } k ≤ held c k ∧
      (l'.subscribers.length = l.subscribers.length →
        held { c with links := c.links.set k l' } k = held c k) := by
  have hlt : k < c.links.length := (List.getElem?_eq_some_iff.mp hl).1
  have hhere : (c.links.set k l')[k]? = some l' := List.getElem?_set_self hlt
  have hother {m : Nat} (hm : m ≠ k) : (c.links.set k l')[m]? = c.links[m]? :=
    List.getElem?_set_ne (Ne.symm hm)
  refine ⟨funext fun m => ?_, fun m hm => ?_, ?_, fun hsame => ?_⟩
  · by_cases hm : m = k
    · rw [hm, weightAt, weightAt, hhere, hl, Option.map_some, Option.map_some, hweight]
    · rw [weightAt, weightAt, hother hm]
  · rw [held, held, hother hm]
  · rw [held, held, hhere, hl]
    exact hless
  · rw [held, held, hhere, hl]
    exact hsame

theorem modify_link {f : Link → Link} (hweight : ∀ l, (f l).weight = l.weight)
    (hless : ∀ l, (f l).subscribers.length ≤ l.subscribers.length) :
    weightAt (modifyLink c k f) = weightAt c ∧
      (∀ m, m ≠ k → held (modifyLink c k f) m = held c m) ∧
      held (modifyLink c k f) k ≤ held c k ∧
      ((∀ l, (f l).subscribers.length = l.subscribers.length) →
        held (modifyLink c k f) k = held c k) := by
  unfold modifyLink
  cases hl : c.links[k]? with
  | none => exact ⟨rfl, fun _ _ => rfl, Nat.le_refl _, fun _ => rfl⟩
  | some l =>
    obtain ⟨hw, ho, hle, hsame⟩ := set_link (c := c) hl (hweight l) (hless l)
    exact ⟨hw, ho, hle, fun h => hsame (h l)⟩

theorem readyAt_modify {f : Link → Link} (hj : j ≠ k) :
    readyAt (modifyLink c k f) j = readyAt c j := by
  unfold modifyLink
  cases c.links[k]? with
  | none => rfl
  | some l => rw [readyAt, readyAt, List.getElem?_set_ne (Ne.symm hj)]

theorem connectedAt_modify {f : Link → Link} (b : Bool)
    (hf : ∀ l, (f l).connected = (l.connected && b)) :
    connectedAt (modifyLink c k f) k = (connectedAt c k && b) := by
  unfold modifyLink
  cases hl : c.links[k]? with
  | none =>
    rw [connectedAt, hl]
    rfl
  | some l =>
    rw [connectedAt, connectedAt, List.getElem?_set_self (List.getElem?_eq_some_iff.mp hl).1, hl]
    exact hf l

theorem length_eraseSlots (ids : List Nat) (l : Link) :
    (eraseSlots ids l).subscribers.length ≤ l.subscribers.length :=
  List.length_filter_le _ _

/-- Nothing gets more. -/
theorem WithinAt.less {d : Nat} (h : WithinAt c d i j) (hweight : weightAt c' = weightAt c)
    (hj : held c' j = held c j) (hi : held c' i ≤ held c i) : WithinAt c' d i j := by
  unfold WithinAt at h ⊢
  rw [hweight]
  exact h.grow hj.ge (.inl hi)

/-- A change of a link that takes nobody from it. -/
theorem WithinAt.modify {d : Nat} {f : Link → Link} (h : WithinAt c d i j)
    (hweight : ∀ l, (f l).weight = l.weight)
    (hsame : ∀ l, (f l).subscribers.length = l.subscribers.length) :
    WithinAt (modifyLink c k f) d i j ∧ weightAt (modifyLink c k f) = weightAt c := by
  obtain ⟨hw, ho, _, hk⟩ := modify_link (c := c) (k := k) hweight fun l => (hsame l).le
  have heq (m : Nat) : held (modifyLink c k f) m = held c m := by
    by_cases hm : m = k
    · rw [hm]
      exact hk hsame
    · exact ho m hm
  exact ⟨h.less hw (heq j) (heq i).le, hw⟩

theorem connectedAt_migrate {order : List (Nat × Subscriber)}
    (hdown : connectedAt c k = false) : connectedAt (migrateLink c k order) k = false := by
  unfold migrateLink
  dsimp only
  refine (connectedAt_modify (f := eraseSlots _) true fun l =>
    (Bool.and_true l.connected).symm).trans ?_
  rw [Bool.and_true, (alike_fold k _ order _).connected]
  exact hdown

/-- **A migration keeps the balance** with every link that is ready after it. -/
theorem WithinAt.migrate {d : Nat} {order : List (Nat × Subscriber)} (h : WithinAt c d i j)
    (hactive : c.activeActive = true) (hj : j ≠ k) (hready : readyAt c j = true)
    (hready' : readyAt (migrateLink c k order) j = true) :
    WithinAt (migrateLink c k order) d i j ∧ weightAt (migrateLink c k order) = weightAt c := by
  unfold migrateLink at hready' ⊢
  dsimp only at hready' ⊢
  rw [readyAt_modify hj] at hready'
  have hshift := shifted_fold order _ hactive hj hready'
  obtain ⟨hw, ho, hle, _⟩ := modify_link (k := k) (f := eraseSlots _)
    (c := (order.foldl (migrateOne k _) _).1) (fun _ => rfl) (length_eraseSlots _)
  refine ⟨(hshift.within hready d i h).less hw (ho j hj) ?_,
    hw.trans (alike_fold k _ order _).weight⟩
  by_cases hi : i = k
  · rw [hi]
    exact hle
  · exact (ho i hi).le

theorem length_reissue (size : Nat) (gone : List Nat) (subs : List (Nat × Subscriber)) :
    (subs.map (reissue gone size)).length = subs.length :=
  List.length_map _

theorem extranonce_link {nonceBytes en2Size : Nat} {gone : List Nat} {l l' : Link} {en1 : Str}
    {reconnect : Bool}
    (h : setUpstreamExtranonce nonceBytes gone l en1 en2Size reconnect = some l') :
    l'.weight = l.weight ∧ l'.subscribers.length = l.subscribers.length := by
  unfold setUpstreamExtranonce at h
  obtain ⟨slotSpan, _, h⟩ := Option.bind_eq_some_iff.mp h
  obtain rfl := Option.some.inj h
  refine ⟨rfl, ?_⟩
  cases reconnect with
  | false => rfl
  | true => exact length_reissue _ _ _

theorem WithinAt.extranonce {d en2Size : Nat} {en1 : Str} {reconnect : Bool} {f : Link → Link}
    (h : WithinAt c d i j) (hweight : ∀ l, (f l).weight = l.weight)
    (hsame : ∀ l, (f l).subscribers = l.subscribers)
    (hs : extranonceAt c k en1 en2Size reconnect f = some c') :
    WithinAt c' d i j ∧ weightAt c' = weightAt c := by
  unfold extranonceAt at hs
  cases hl : c.links[k]? with
  | none =>
    rw [hl] at hs
    obtain rfl : c = c' := Option.some.inj hs
    exact ⟨h, rfl⟩
  | some l =>
    rw [hl] at hs
    obtain ⟨l', hl', hs⟩ := Option.bind_eq_some_iff.mp hs
    obtain rfl := Option.some.inj hs
    obtain ⟨hlw, hll⟩ := extranonce_link hl'
    have hlen : (f l').subscribers.length = l.subscribers.length := by rw [hsame, hll]
    obtain ⟨hw, ho, _, hk⟩ := set_link (c := c) hl ((hweight l').trans hlw) hlen.le
    have heq (m : Nat) : held { c with links := c.links.set k (f l') } m = held c m := by
      by_cases hm : m = k
      · rw [hm]
        exact hk hlen
      · exact ho m hm
    exact ⟨h.less hw (heq j) (heq i).le, hw⟩

theorem active_modify {f : Link → Link} : (modifyLink c k f).activeActive = c.activeActive := by
  unfold modifyLink
  cases c.links[k]? <;> rfl

theorem active_step {inp : Input} (hs : react c inp = some c') :
    c'.activeActive = c.activeActive := by
  have extranonce {i en2Size : Nat} {en1 : Str} {reconnect : Bool} {f : Link → Link}
      (hs : extranonceAt c i en1 en2Size reconnect f = some c') :
      c'.activeActive = c.activeActive := by
    unfold extranonceAt at hs
    cases hl : c.links[i]? with
    | none =>
      rw [hl] at hs
      rw [Option.some.inj hs]
    | some l =>
      rw [hl] at hs
      obtain ⟨l', _, hs⟩ := Option.bind_eq_some_iff.mp hs
      rw [← Option.some.inj hs]
  cases inp with
  | subscribeResult i en1 en2Size => exact extranonce hs
  | setExtranonce i en1 en2Size => exact extranonce hs
  | attach sink =>
    rw [← Option.some.inj hs]
    show (attach c sink).1.activeActive = c.activeActive
    unfold attach
    cases pickLink c with
    | none => rfl
    | some t => exact (placed_allocateAt _ t sink).active
  | connClose i order =>
    rw [← Option.some.inj hs]
    exact active_modify.trans ((alike_fold i _ order _).active.trans active_modify)
  | sinkGone sink => rw [← Option.some.inj hs]
  | _ =>
    rw [← Option.some.inj hs]
    exact active_modify

/-- The miners who leave link `k` by a `detach`. -/
def leftBy (c c' : Client) (k : Nat) : Input → Nat
  | .detach linkId _ => if linkId = k then held c k - held c' k else 0
  | _ => 0

/-- **A step keeps the balance of every link with one that stays ready**, up to
those who leave it. -/
theorem WithinAt.step {d : Nat} {inp : Input} (h : WithinAt c d i j)
    (hactive : c.activeActive = true) (hs : react c inp = some c') (hready : readyAt c j = true)
    (hready' : readyAt c' j = true) :
    WithinAt c' (d + weightAt c i * leftBy c c' j inp) i j ∧ weightAt c' = weightAt c := by
  cases inp with
  | connectLink i =>
    obtain rfl := Option.some.inj hs
    exact h.modify (fun _ => rfl) fun _ => rfl
  | connOpen i =>
    obtain rfl := Option.some.inj hs
    exact h.modify (fun _ => rfl) fun _ => rfl
  | authorizeResult i =>
    obtain rfl := Option.some.inj hs
    exact h.modify (fun _ => rfl) fun _ => rfl
  | subscribeResult i en1 en2Size =>
    exact h.extranonce (f := fun l => { l with subscribed := true }) (fun _ => rfl)
      (fun _ => rfl) hs
  | setExtranonce i en1 en2Size =>
    exact h.extranonce (f := id) (fun _ => rfl) (fun _ => rfl) hs
  | sinkGone sink =>
    obtain rfl := Option.some.inj hs
    exact ⟨h, rfl⟩
  | attach sink =>
    obtain rfl := Option.some.inj hs
    refine ⟨h.attach hactive hready, ?_⟩
    unfold UpstreamClient.attach
    cases pickLink c with
    | none => rfl
    | some t => exact (placed_allocateAt _ t sink).weight
  | connClose i order =>
    obtain rfl := Option.some.inj hs
    obtain ⟨hdown, hw⟩ := h.modify (k := i) (f := down) (fun _ => rfl) fun _ => rfl
    have hclosed : connectedAt (modifyLink c i down) i = false := by
      rw [connectedAt_modify false fun l => (Bool.and_false l.connected).symm, Bool.and_false]
    have hj : j ≠ i := by
      rintro rfl
      have hup := connectedAt_of_readyAt hready'
      rw [connectedAt_migrate hclosed] at hup
      cases hup
    have hready₁ : readyAt (modifyLink c i down) j = true := (readyAt_modify hj).trans hready
    obtain ⟨hm, hmw⟩ := hdown.migrate (active_modify.trans hactive) hj hready₁ hready'
    exact ⟨hm, hmw.trans hw⟩
  | detach k slotId =>
    obtain rfl := Option.some.inj hs
    obtain ⟨hw, ho, hle, _⟩ := modify_link (c := c) (k := k) (f := eraseSlots [slotId])
      (fun _ => rfl) (length_eraseSlots _)
    have hless (m : Nat) : held (detach c k slotId) m ≤ held c m := by
      by_cases hm : m = k
      · rw [hm]
        exact hle
      · exact (ho m hm).le
    refine ⟨?_, hw⟩
    unfold WithinAt at h ⊢
    rw [show weightAt (detach c k slotId) = weightAt c from hw]
    by_cases hk : k = j
    · rw [leftBy, if_pos hk]
      exact h.leave (by omega) (hless i)
    · rw [leftBy, if_neg hk]
      exact h.grow (ho j (Ne.symm hk)).ge (.inl (hless i))

/-! ## Runs -/

/-- Some steps of a client during which all links of `R` stay ready, and how
many miners left each link by themselves. -/
inductive Stretch (R : Finset Nat) : Client → (Nat → Nat) → Client → Prop where
  | refl {c : Client} (hready : ∀ j ∈ R, readyAt c j = true) : Stretch R c (fun _ => 0) c
  | step {c c' c'' : Client} {left : Nat → Nat} {inp : Input} (h : Stretch R c left c')
    (hoffer : Offered c' inp) (hs : react c' inp = some c'')
    (hready : ∀ j ∈ R, readyAt c'' j = true) :
    Stretch R c (fun k => left k + leftBy c' c'' k inp) c''

variable {R : Finset Nat} {left : Nat → Nat}

theorem Stretch.active (h : Stretch R c left c') (hactive : c.activeActive = true) :
    c'.activeActive = true := by
  induction h with
  | refl => exact hactive
  | step _ _ hs _ ih => exact (active_step hs).trans ih

theorem Stretch.ready (h : Stretch R c left c') (hj : j ∈ R) : readyAt c' j = true := by
  cases h with
  | refl hready => exact hready j hj
  | step _ _ _ hready => exact hready j hj

/-- Over a stretch the balance is loosened by those who leave only. -/
theorem Stretch.within {d : Nat} (h : Stretch R c left c') (hactive : c.activeActive = true)
    (hj : j ∈ R) (hw : WithinAt c d i j) :
    WithinAt c' (d + weightAt c i * left j) i j ∧ weightAt c' = weightAt c := by
  induction h with
  | refl => exact ⟨hw, rfl⟩
  | step h _ hs hready ih =>
    obtain ⟨hstep, hweight⟩ :=
      ih.1.step (h.active hactive) hs (h.ready hj) (hready j hj)
    rw [ih.2, Nat.add_assoc, ← Nat.mul_add] at hstep
    exact ⟨hstep, hweight.trans ih.2⟩

/-- **Active links stay balanced.** Whatever happens while the links of `R` stay
ready, no link serves, for its weight, more than one miner more than a link of
`R`, but for what it had too many at first and for those who left the other; and
a link that was in balance at first has at most its share, by weight, of the
miners of `R` and of those who left, and one miner more. -/
theorem links_stay_balanced (hactive : c.activeActive = true) (h : Stretch R c left c')
    (i : Nat) :
    (∀ j ∈ R, Balance.Within (weightAt c') (held c')
      (Balance.excess (weightAt c) (held c) i j + weightAt c' i * left j) i j) ∧
    ((∀ j ∈ R, Balance.excess (weightAt c) (held c) i j = 0) →
      held c' i * ∑ j ∈ R, weightAt c' j ≤
        weightAt c' i * ∑ j ∈ R, (held c' j + left j) + ∑ j ∈ R, weightAt c' j) := by
  have hall : ∀ j ∈ R, Balance.Within (weightAt c') (held c')
      (Balance.excess (weightAt c) (held c) i j + weightAt c' i * left j) i j := by
    intro j hj
    obtain ⟨hw, hweight⟩ := h.within (i := i) hactive hj (Balance.within_excess _ _ i j)
    rw [WithinAt, hweight] at hw
    rw [hweight]
    exact hw
  refine ⟨hall, fun hexcess => Balance.share_of_within fun j hj => ?_⟩
  have hone := hall j hj
  rw [hexcess j hj, Nat.zero_add] at hone
  exact hone

end Clients

/-! ## Two links -/

/-- The stretch of a list of inputs, where no link closes and those of `R` stay
ready. -/
def stretchAll (R : Finset Nat) (c : Client) (left : Nat → Nat) :
    List Input → Option (Client × (Nat → Nat))
  | [] => some (c, left)
  | inp :: rest =>
    if noneCloses c inp then
      (react c inp).bind fun c' =>
        if ∀ j ∈ R, readyAt c' j = true then
          stretchAll R c' (fun k => left k + leftBy c c' k inp) rest
        else none
    else none

theorem stretch_of_stretchAll {R : Finset Nat} {c₀ c c' : Client} {left left' : Nat → Nat}
    {inputs : List Input} (hc : Stretch R c₀ left c)
    (h : stretchAll R c left inputs = some (c', left')) : Stretch R c₀ left' c' := by
  induction inputs generalizing c left with
  | nil =>
    obtain ⟨rfl, rfl⟩ := Prod.mk.injEq .. ▸ Option.some.inj h
    exact hc
  | cons inp rest ih =>
    unfold stretchAll at h
    split at h
    · rename_i hnone
      obtain ⟨c₁, h₁, h⟩ := Option.bind_eq_some_iff.mp h
      split at h
      · rename_i hready
        exact ih (.step hc (offered_of_noneCloses c inp hnone).1 h₁ hready) h
      · cases h
    · cases h

/-- Two links of weights 1 and 2 that are up. -/
def twoLinks : Client where
  nonceBytes := 2
  activeActive := true
  links := [1, 2].map fun weight =>
    { weight, connected := true, authorized := true, subscribed := true, upEn1 := "aa".toList,
      upEn2Size := 8, slotSpan := 65536, nonceBytesEff := 2 }

/-- Four miners come, and one of the second link leaves. -/
def fourCome : List Input := [.attach 1, .attach 2, .attach 3, .attach 4, .detach 1 0]

/-- The first link serves two, the second one after one left it: the bound is met. -/
theorem links_stay_balanced_once : ∃ c' left, Stretch {0, 1} twoLinks left c' ∧
    held c' 0 = 2 ∧ held c' 1 = 1 ∧ left 1 = 1 ∧
    Balance.Within (weightAt c') (held c') (0 + weightAt c' 0 * left 1) 0 1 := by
  have h : (stretchAll {0, 1} twoLinks (fun _ => 0) fourCome).any (fun r =>
      decide (held r.1 0 = 2) && decide (held r.1 1 = 1) && decide (r.2 1 = 1)) = true := by
    decide +kernel
  obtain ⟨r, hr, hx⟩ := (Option.any_eq_true _ _).mp h
  simp only [Bool.and_eq_true, decide_eq_true_eq] at hx
  have hs : Stretch {0, 1} twoLinks r.2 r.1 :=
    stretch_of_stretchAll (.refl (by decide +kernel)) hr
  refine ⟨r.1, r.2, hs, hx.1.1, hx.1.2, hx.2, ?_⟩
  exact (links_stay_balanced rfl hs 0).1 1 (by decide)

end MkPool.UpstreamBalance
