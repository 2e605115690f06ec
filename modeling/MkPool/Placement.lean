import MkPool.Migration

/-! # Where the sessions of the proxy are

The client enters slots for sinks, and moves them under its lock. A session
learns of a move later. The entries are where the sessions will be. -/
namespace MkPool.Placement
open MkPool.Lib MkPool.Lib.Mailbox MkPool.Utils MkPool.Coinbase
open MkPool.UpstreamClient hiding Input react Offered Run
open MkPool.UpstreamSource MkPool.Proxy MkPool.Bindings MkPool.Migration

/-! ## The condition -/

def NoRebind (box : List SinkEvent) : Prop := ∀ ev ∈ box, isRebind ev = false

/-- A session closes when it knows of all moves, also where a move makes it
close. A relay session that is attached is not asked to open again, or only
while no link is ready. -/
def Orderly (c : State) : Input → Prop
  | .close n => ∀ p ∈ c.parties[n]?, p.miner.closed = false → NoRebind p.mailbox
  | .requestSv2 n (.openStandardChannel _) =>
    ∀ p ∈ c.parties[n]?, p.miner.attached = true → anyReady c.client = false
  | .deliver n => ∀ p ∈ c.parties[n]?, p.miner.closed = false →
    ∀ ev rest, p.mailbox = ev :: rest →
      match p.miner with
      | .v1 s => isRebind ev = true → s.extranonceSubscribed = false → NoRebind rest
      | .sv2 s => ev = .state true → s.attached = true → s.channelOpen = true ∨
        anyReady c.client = false
  | _ => True

/-! ## Where a session will be -/

/-- The slot a session will hold. -/
def place (p : Party) : Option (Nat × Nat) :=
  if bound p then (view p).linkId.map (·, (view p).slotId) else none

def placeAt (parties : List Party) (n : Nat) : Option (Nat × Nat) := parties[n]?.bind place

/-- What holds of a session by itself. -/
structure Calm (p : Party) : Prop where
  unbound : p.miner.closed = false → p.miner.attached = false → NoRebind p.mailbox
  busy : p.phase ≠ .idle → p.miner.closed = false
  attaching : p.phase = .attaching → p.miner.attached = false
  subscribed : ∀ s, p.miner = .v1 s → s.attached = true → s.subscribed = true

/-- What is kept: the entries are where the sessions will be. -/
structure Books (c : State) : Prop where
  apart : SlotsApart c.client
  owned : ∀ i k n, Taken c.client i k n ↔ placeAt c.parties n = some (i, k)
  calm : ∀ (n : Nat) p, c.parties[n]? = some p → Calm p
  gone : ∀ n ∈ c.client.gone, ∃ p, c.parties[n]? = some p ∧ p.miner.closed = true
  removed : ∀ r ∈ c.removed, r.1 = r.2

section
variable {c : State} {p p' : Party} {n i k : Nat} {ev : SinkEvent} {box : List SinkEvent}

/-- Calls that move nobody leave the place as it is. -/
theorem settled_place (slot : HeldSlot) (h : NoRebind box) :
    (settled applyCall slot box).linkId = slot.linkId ∧
      (settled applyCall slot box).slotId = slot.slotId ∧
      (settled applyCall slot box).slotHex = slot.slotHex := by
  induction box generalizing slot with
  | nil => exact ⟨rfl, rfl, rfl⟩
  | cons ev box ih =>
    have hev := h ev (List.mem_cons_self ..)
    obtain ⟨hlink, hslot, hhex⟩ :=
      ih (applyCall slot ev) fun e he => h e (List.mem_cons_of_mem ev he)
    rw [settled_cons, hlink, hslot, hhex]
    cases ev with
    | rebind => cases hev
    | _ => exact ⟨rfl, rfl, rfl⟩

theorem view_posted : view (posted p ev) = applyCall (view p) ev := settled_post

theorem place_posted (hev : isRebind ev = false) : place (posted p ev) = place p := by
  unfold place
  rw [view_posted]
  cases ev with
  | rebind => cases hev
  | _ => rfl

theorem placeAt_set (hp : c.parties[n]? = some p) (m : Nat) :
    placeAt (c.parties.set n p') m = if n = m then place p' else placeAt c.parties m := by
  unfold placeAt
  by_cases hn : n = m
  · subst hn
    rw [if_pos rfl, List.getElem?_set_self (List.getElem?_eq_some_iff.mp hp).1]
    rfl
  · rw [if_neg hn, List.getElem?_set_ne hn]

theorem placeAt_post (hev : isRebind ev = false) (parties : List Party) (m : Nat) :
    placeAt (post parties (n, ev)) m = placeAt parties m := by
  unfold placeAt
  rw [getElem?_post]
  split
  · cases parties[m]? with
    | none => rfl
    | some p => exact place_posted hev
  · rfl

theorem placeAt_postAll {calls : List (Nat × SinkEvent)}
    (hcalls : ∀ call ∈ calls, isRebind call.2 = false) (parties : List Party) (m : Nat) :
    placeAt (postAll parties calls) m = placeAt parties m := by
  induction calls generalizing parties with
  | nil => rfl
  | cons call calls ih =>
    have hrest := ih (fun call' h => hcalls call' (List.mem_cons_of_mem call h))
      (post parties call)
    exact hrest.trans (placeAt_post (hcalls call (List.mem_cons_self ..)) parties m)

/-! ## Steps that move nobody -/

/-- The client changes, but no entry. -/
theorem Books.client (h : Books c) {client : Client}
    (hseats : client.links.map seats = c.client.links.map seats)
    (hgone : client.gone = c.client.gone) : Books { c with client } where
  apart := h.apart.congr hseats
  owned i k n := (taken_congr hseats).trans (h.owned i k n)
  calm := h.calm
  gone := by
    dsimp only
    rw [hgone]
    exact h.gone
  removed := h.removed

theorem Calm.posted (h : Calm p) (hev : isRebind ev = false) : Calm (posted p ev) where
  unbound hopen hatt e he := by
    rcases List.mem_append.mp he with he | he
    · exact h.unbound hopen hatt e he
    · rw [List.mem_singleton.mp he]
      exact hev
  busy := h.busy
  attaching := h.attaching
  subscribed := h.subscribed

/-- Calls are posted that move nobody. -/
theorem Books.post (h : Books c) (calls : List (Nat × SinkEvent))
    (hcalls : ∀ call ∈ calls, isRebind call.2 = false) :
    Books { c with parties := postAll c.parties calls } where
  apart := h.apart
  owned i k n := by
    dsimp only
    rw [placeAt_postAll hcalls]
    exact h.owned i k n
  calm := forall_postAll h.calm fun call hcall _ hp => hp.posted (hcalls call hcall)
  gone n hn := by
    obtain ⟨p, hp, hclosed⟩ := h.gone n hn
    have hlen : n < (postAll c.parties calls).length := by
      rw [length_postAll]
      exact (List.getElem?_eq_some_iff.mp hp).1
    have hkept := @forall_postAll c.parties (fun m q => m = n → q.miner.closed = true) calls
      (fun m q hq hm => by
        subst hm
        obtain rfl := Option.some.inj (hp.symm.trans hq)
        exact hclosed)
      (fun _ _ q hq hm => hq hm)
    exact ⟨_, List.getElem?_eq_getElem hlen, hkept n _ (List.getElem?_eq_getElem hlen) rfl⟩
  removed := h.removed

theorem Books.calm_set (h : Books c) (hp : c.parties[n]? = some p) (hcalm : Calm p') :
    ∀ (m : Nat) q, (c.parties.set n p')[m]? = some q → Calm q := by
  intro m q hq
  by_cases hn : n = m
  · subst hn
    rw [List.getElem?_set_self (List.getElem?_eq_some_iff.mp hp).1] at hq
    obtain rfl := Option.some.inj hq
    exact hcalm
  · rw [List.getElem?_set_ne hn] at hq
    exact h.calm m q hq

theorem Books.gone_set (h : Books c) (hp : c.parties[n]? = some p)
    (hclosed : p.miner.closed = true → p'.miner.closed = true) :
    ∀ m ∈ c.client.gone, ∃ q, (c.parties.set n p')[m]? = some q ∧ q.miner.closed = true := by
  intro m hm
  obtain ⟨q, hq, hqc⟩ := h.gone m hm
  by_cases hn : n = m
  · subst hn
    obtain rfl := Option.some.inj (hp.symm.trans hq)
    exact ⟨p', List.getElem?_set_self (List.getElem?_eq_some_iff.mp hp).1, hclosed hqc⟩
  · exact ⟨q, (List.getElem?_set_ne hn).trans hq, hqc⟩

/-- A session changes, and stays in its place. -/
theorem Books.set (h : Books c) (hp : c.parties[n]? = some p) (hplace : place p' = place p)
    (hcalm : Calm p') (hclosed : p.miner.closed = true → p'.miner.closed = true) :
    Books { c with parties := c.parties.set n p' } where
  apart := h.apart
  owned i k m := by
    dsimp only
    rw [placeAt_set hp, h.owned i k m]
    split
    · rename_i hn
      subst hn
      rw [hplace]
      unfold placeAt
      rw [hp]
      rfl
    · rfl
  calm := h.calm_set hp hcalm
  gone := h.gone_set hp hclosed
  removed := h.removed

/-- What the session knows of its slot stays, and so does its strand. -/
theorem place_same {p p' : Party} (h : SameSlot p.miner p'.miner) (hbox : p'.mailbox = p.mailbox) :
    place p' = place p := by
  unfold place bound view
  rw [h.slot, h.attached, h.closed, hbox]

theorem Calm.same (h : Calm p) (hs : SameSlot p.miner p'.miner) (hbox : p'.mailbox = p.mailbox)
    (hphase : p'.phase = .idle ∨ p'.phase = p.phase)
    (hsub : ∀ s, p'.miner = .v1 s → s.attached = true → s.subscribed = true) : Calm p' where
  unbound := by
    rw [hs.closed, hs.attached, hbox]
    exact h.unbound
  busy hbusy := by
    rw [hs.closed]
    rcases hphase with hidle | hsame
    · exact absurd hidle hbusy
    · exact h.busy (hsame ▸ hbusy)
  attaching hphase' := by
    rw [hs.attached]
    rcases hphase with hidle | hsame
    · rw [hidle] at hphase'
      cases hphase'
    · exact h.attaching (hsame ▸ hphase')
  subscribed := hsub

/-! ## Attaching and detaching -/

/-- A session that is nowhere gets a slot, or none. -/
theorem Books.attach (h : Books c) (hp : c.parties[n]? = some p) (hfree : place p = none)
    (hplace : place p' =
      (UpstreamClient.attach c.client n).2.map fun slot => (slot.linkId, slot.slotId))
    (hcalm : Calm p') (hclosed : p.miner.closed = true → p'.miner.closed = true) :
    Books { c with
      client := (UpstreamClient.attach c.client n).1, parties := c.parties.set n p' } := by
  rcases attach_cases c.client n with
    ⟨primary, j, l, next, cand, ha, heq⟩ | ⟨primary, c', heq, hpassed⟩
  · rw [heq] at hplace ⊢
    have hsame (i k m : Nat) : Taken { c.client with primary } i k m ↔ Taken c.client i k m :=
      taken_congr rfl
    have hapart : SlotsApart { c.client with primary } := h.apart
    refine ⟨hapart.allocate ha, fun i k m => ?_, h.calm_set hp hcalm, h.gone_set hp hclosed,
      h.removed⟩
    have hnone : placeAt c.parties n = none := by
      unfold placeAt
      rw [hp]
      exact hfree
    rw [taken_allocate ha, hsame, h.owned i k m, placeAt_set hp]
    split
    · rename_i hn
      subst hn
      rw [hnone, hplace]
      constructor
      · rintro (hnone | ⟨rfl, rfl, -⟩)
        · cases hnone
        · rfl
      · intro heq
        obtain ⟨rfl, rfl⟩ := Prod.mk.inj (Option.some.inj heq)
        exact .inr ⟨rfl, rfl, rfl⟩
    · rename_i hn
      exact ⟨fun hm => hm.resolve_right fun heq => hn heq.2.2.symm, .inl⟩
  · rw [heq] at hplace ⊢
    have hset := h.set hp (hplace.trans hfree.symm) hcalm hclosed
    exact hset.client hpassed.seats hpassed.gone

/-- A session closes that knows its place, and releases it. -/
theorem Books.detach (h : Books c) (hp : c.parties[n]? = some p) {slot : HeldSlot}
    (hplace : place p = slot.linkId.map (·, slot.slotId)) (hplace' : place p' = none)
    (hcalm : Calm p') (hclosed : p'.miner.closed = true) :
    Books (detachBy { c with parties := c.parties.set n p' } n slot) := by
  unfold detachBy
  cases hlink : slot.linkId with
  | none =>
    rw [hlink] at hplace
    exact h.set hp (hplace'.trans hplace.symm) hcalm fun _ => hclosed
  | some i =>
    rw [hlink] at hplace
    have hown : placeAt c.parties n = some (i, slot.slotId) := by
      unfold placeAt
      rw [hp]
      exact hplace
    have hmine := (h.owned i slot.slotId n).mpr hown
    refine ⟨h.apart.erase _, fun j k m => ?_, h.calm_set hp hcalm, ?_, ?_⟩
    · have herase : Taken (UpstreamClient.detach c.client i slot.slotId) j k m ↔
          Taken c.client j k m ∧ ¬ (j = i ∧ k = slot.slotId) := by
        unfold Taken UpstreamClient.detach
        constructor
        · rintro ⟨t, ht, rfl, hm⟩
          obtain ⟨ht, hnot⟩ := (seated_erase _).mp ht
          exact ⟨⟨t, ht, rfl, hm⟩, fun heq => hnot ⟨heq.1, List.mem_singleton.mpr heq.2⟩⟩
        · rintro ⟨⟨t, ht, rfl, hm⟩, hnot⟩
          exact ⟨t, (seated_erase _).mpr
            ⟨ht, fun heq => hnot ⟨heq.1, List.mem_singleton.mp heq.2⟩⟩, rfl, hm⟩
      dsimp only
      rw [herase, placeAt_set hp, h.owned j k m]
      split
      · rename_i hn
        subst hn
        rw [hown, hplace']
        constructor
        · rintro ⟨heq, hnot⟩
          obtain ⟨rfl, rfl⟩ := Prod.mk.inj (Option.some.inj heq)
          exact (hnot ⟨rfl, rfl⟩).elim
        · intro heq
          cases heq
      · rename_i hn
        refine ⟨And.left, fun hm => ⟨hm, ?_⟩⟩
        rintro ⟨rfl, rfl⟩
        exact hn (hmine.unique ((h.owned j slot.slotId m).mpr hm) h.apart)
    · have hgone : (UpstreamClient.detach c.client i slot.slotId).gone = c.client.gone := by
        unfold UpstreamClient.detach modifyLink
        split <;> rfl
      dsimp only
      rw [hgone]
      exact h.gone_set hp fun _ => hclosed
    · intro r hr
      rcases List.mem_append.mp hr with hr | hr
      · obtain ⟨e, he, rfl⟩ := List.mem_map.mp hr
        obtain ⟨hmem, hid⟩ := List.mem_filter.mp he
        obtain ⟨l, hl, hmem⟩ := List.mem_flatMap.mp hmem
        have hseat : Seated c.client i (seatOf e) :=
          ⟨l, by simpa using hl, List.mem_map_of_mem hmem⟩
        exact hmine.unique ⟨seatOf e, hseat, of_decide_eq_true hid, rfl⟩ h.apart
      · exact h.removed r hr

/-! ## Migration -/

/-- What a migration keeps on its way. -/
structure Underway (c : State) (i : Nat) (m : Moving) : Prop where
  apart : SlotsApart m.client
  owned : ∀ j k n, Taken m.client j k n ∧ ¬ (j = i ∧ k ∈ m.ids) ↔
    placeAt m.parties n = some (j, k)
  calm : ∀ (n : Nat) p, m.parties[n]? = some p → Calm p
  gone : ∀ n ∈ m.client.gone, ∃ p, m.parties[n]? = some p ∧ p.miner.closed = true

theorem place_closed (hclosed : p.miner.closed = true) : place p = none := by
  unfold place bound
  simp [hclosed]

theorem Underway.move {m m' : Moving} (h : Underway c i m) (hmove : Move c i m m') :
    Underway c i m' := by
  cases hmove with
  | @erase t hseat hleft hgone =>
    -- the sink of an entry is open
    obtain ⟨p, hp, hclosed⟩ := h.gone t.sink hgone
    have hplace := (h.owned i t.slotId t.sink).mp ⟨⟨t, hseat, rfl, rfl⟩, fun hin => hleft hin.2⟩
    unfold placeAt at hplace
    rw [hp, Option.bind_some, place_closed hclosed] at hplace
    cases hplace
  | @skip client hpassed =>
    exact ⟨h.apart.congr hpassed.seats,
      fun j k n => (and_congr_left' (taken_congr hpassed.seats)).trans (h.owned j k n),
      h.calm, hpassed.gone ▸ h.gone⟩
  | @move t j next cand l hseat hleft hlive hne ha =>
    have hold := (h.owned i t.slotId t.sink).mp ⟨⟨t, hseat, rfl, rfl⟩, fun hin => hleft hin.2⟩
    obtain ⟨p, hp, hplace⟩ := Option.bind_eq_some_iff.mp hold
    have hbound : bound p = true := by
      by_contra hnot
      unfold place at hplace
      rw [if_neg hnot] at hplace
      cases hplace
    have hnew : place (posted p (rebindTo c (Slots.slotOf l j cand))) = some (j, cand) := by
      unfold place
      rw [view_posted, if_pos (show bound (posted p _) = true from hbound)]
      rfl
    refine ⟨h.apart.allocate ha, fun j' k' n => ?_, fun n q hq => ?_, fun n hn => ?_⟩
    · have hpost : placeAt (post m.parties (t.sink, rebindTo c (Slots.slotOf l j cand))) n =
          if t.sink = n then some (j, cand) else placeAt m.parties n := by
        unfold placeAt
        rw [getElem?_post]
        split
        · rename_i hn
          subst hn
          rw [hp]
          exact hnew
        · rfl
      dsimp only
      rw [hpost, taken_allocate ha]
      split
      · rename_i hn
        subst hn
        constructor
        · rintro ⟨hold' | ⟨rfl, rfl, -⟩, hnot⟩
          · have heq := (h.owned j' k' t.sink).mp
              ⟨hold', fun hin => hnot ⟨hin.1, List.mem_cons_of_mem _ hin.2⟩⟩
            obtain ⟨rfl, rfl⟩ := Prod.mk.inj (Option.some.inj (hold.symm.trans heq))
            exact (hnot ⟨rfl, List.mem_cons_self ..⟩).elim
          · rfl
        · intro heq
          obtain ⟨rfl, rfl⟩ := Prod.mk.inj (Option.some.inj heq)
          exact ⟨.inr ⟨rfl, rfl, rfl⟩, fun hin => hne hin.1⟩
      · rename_i hn
        rw [← h.owned j' k' n]
        constructor
        · rintro ⟨hold' | ⟨-, -, heq⟩, hnot⟩
          · exact ⟨hold', fun hin => hnot ⟨hin.1, List.mem_cons_of_mem _ hin.2⟩⟩
          · exact (hn heq.symm).elim
        · rintro ⟨hold', hnot⟩
          refine ⟨.inl hold', ?_⟩
          rintro ⟨rfl, hin⟩
          rcases List.mem_cons.mp hin with rfl | hin
          · exact hn (Taken.unique ⟨t, hseat, rfl, rfl⟩ hold' h.apart)
          · exact hnot ⟨rfl, hin⟩
    · dsimp only at hq
      rw [getElem?_post] at hq
      split at hq
      · rename_i hn
        subst hn
        rw [hp] at hq
        obtain rfl := Option.some.inj hq
        have hcalm := h.calm _ p hp
        refine ⟨fun hopen hatt => ?_, hcalm.busy, hcalm.attaching, hcalm.subscribed⟩
        replace hatt : p.miner.attached = false := hatt
        unfold bound at hbound
        rw [hatt] at hbound
        cases hbound
      · exact h.calm n q hq
    · obtain ⟨q, hq, hclosed⟩ := h.gone n hn
      dsimp only
      rw [getElem?_post, hq]
      split
      · exact ⟨_, rfl, hclosed⟩
      · exact ⟨q, rfl, hclosed⟩

theorem stranded_inert (moved : List (Nat × Option ProxySlot)) :
    ∀ call ∈ stranded moved, isRebind call.2 = false := by
  intro call hcall
  obtain ⟨m, -, hm⟩ := List.mem_filterMap.mp hcall
  split at hm
  · cases hm
    rfl
  · cases hm

/-- A migration starts. -/
theorem Books.underway (h : Books c) (i : Nat) :
    Underway c i ⟨migrationStart c.client i, [], c.parties⟩ := by
  have hdown : (migrationStart c.client i).links.map seats = c.client.links.map seats :=
    map_seats_modify fun _ => rfl
  have hgone : (migrationStart c.client i).gone = c.client.gone := by
    unfold migrationStart modifyLink
    dsimp only
    split <;> rfl
  exact ⟨h.apart.congr hdown, fun j k n => by simpa using (taken_congr hdown).trans (h.owned j k n),
    h.calm, hgone ▸ h.gone⟩

theorem Books.closeLink (h : Books c) {order : List (Nat × Subscriber)}
    (hoffer : ∃ l, c.client.links[i]? = some l ∧ order.Perm l.subscribers) :
    Books (closeLink c i order) := by
  obtain ⟨m, moved, hm, heq⟩ := closeLink_induction h.apart hoffer (h.underway i) fun _ _ h => h.move
  rw [heq]
  have herased : Books { c with
      client := modifyLink m.client i (eraseSlots m.ids), parties := m.parties } := by
    refine ⟨hm.apart.erase _, fun j k n => ?_, hm.calm, ?_, h.removed⟩
    · rw [← hm.owned j k n]
      unfold Taken
      constructor
      · rintro ⟨t, ht, rfl, hn⟩
        obtain ⟨ht, hnot⟩ := (seated_erase _).mp ht
        exact ⟨⟨t, ht, rfl, hn⟩, hnot⟩
      · rintro ⟨⟨t, ht, rfl, hn⟩, hnot⟩
        exact ⟨t, (seated_erase _).mpr ⟨ht, hnot⟩, rfl, hn⟩
    · have hsame : (modifyLink m.client i (eraseSlots m.ids)).gone = m.client.gone := by
        unfold modifyLink
        split <;> rfl
      dsimp only
      rw [hsame]
      exact hm.gone
  exact herased.post _ (stranded_inert moved)

/-! ## The client's other steps -/

/-- The upstreams change no entry, unless a link is closed. -/
theorem Books.clientStep (h : Books c) {c' : State} {input : UpstreamClient.Input}
    (hs : clientStep c input = some c')
    (hinput : match input with
      | .connClose .. | .attach _ | .detach .. | .sinkGone _ => False
      | _ => True) : Books c' := by
  obtain ⟨hseats, hgone⟩ := seats_clientStep hs hinput
  obtain ⟨client, -, rfl⟩ := Option.map_eq_some_iff.mp hs
  exact h.client hseats hgone

/-- The sink of a session that is closed is destroyed. -/
theorem Books.destroy (h : Books c) (hp : c.parties[n]? = some p) (hclosed : p.miner.closed = true) :
    Books { c with client := { c.client with gone := n :: c.client.gone } } where
  apart := h.apart
  owned := h.owned
  calm := h.calm
  gone m hm := by
    rcases List.mem_cons.mp hm with rfl | hm
    · exact ⟨p, hp, hclosed⟩
    · exact h.gone m hm
  removed := h.removed

theorem place_unattached (hatt : p.miner.attached = false) : place p = none := by
  unfold place bound
  simp [hatt]

/-- A miner connects. -/
theorem Books.connect (h : Books c) (hfree : p.miner.attached = false) (hidle : p.phase = .idle)
    (hbox : p.mailbox = []) : Books { c with parties := c.parties ++ [p] } where
  apart := h.apart
  owned i k m := by
    rw [h.owned i k m]
    unfold placeAt
    dsimp only
    rcases Nat.lt_trichotomy m c.parties.length with hm | rfl | hm
    · rw [List.getElem?_append_left hm]
    · rw [List.getElem?_concat_length, List.getElem?_eq_none (Nat.le_refl _), Option.bind_some,
        place_unattached hfree]
      rfl
    · have hlen : (c.parties ++ [p]).length ≤ m := by
        rw [List.length_append]
        exact hm
      rw [List.getElem?_eq_none hlen, List.getElem?_eq_none hm.le]
  calm m q hq := by
    dsimp only at hq
    rcases List.mem_append.mp (List.mem_of_getElem? hq) with hmem | hmem
    · obtain ⟨m', hm'⟩ := List.mem_iff_getElem?.mp hmem
      exact h.calm m' q hm'
    · obtain rfl := List.mem_singleton.mp hmem
      refine ⟨fun _ _ e he => ?_, fun hbusy => absurd hidle hbusy, fun hatt => ?_, fun s hs hatt => ?_⟩
      · rw [hbox] at he
        cases he
      · exact hfree
      · rw [hs] at hfree
        exact absurd (hfree.symm.trans hatt) Bool.false_ne_true
  gone m hm := by
    obtain ⟨q, hq, hclosed⟩ := h.gone m hm
    have hlt := (List.getElem?_eq_some_iff.mp hq).1
    exact ⟨q, (List.getElem?_append_left hlt).trans hq, hclosed⟩
  removed := h.removed

/-! ## Handlers of sessions -/

theorem subscribed_remember (s : ProxySession.Session) (job : ProxyNotify) :
    (ProxySession.rememberJob s job).subscribed = s.subscribed := by
  unfold ProxySession.rememberJob
  split <;> rfl

theorem subscribed_emit (s : ProxySession.Session) (force : Bool) :
    (ProxySession.emitCurrentJob s force).subscribed = s.subscribed := by
  unfold ProxySession.emitCurrentJob
  split <;> rfl

theorem subscribed_requestV1 (env : Env) (s : ProxySession.Session) (r : RequestV1) :
    (requestV1 env s r).1.subscribed = s.subscribed := by
  cases r with
  | configure | extranonceSubscribe => rfl
  | subscribe =>
    unfold requestV1
    dsimp only
    split <;> rfl
  | authorize =>
    unfold requestV1 ProxySession.handleAuthorize
    dsimp only
    split
    · exact subscribed_emit _ true
    · rfl
  | submit params now =>
    obtain ⟨line, hline, -⟩ := handleSubmit_sends env s params now
    unfold requestV1
    dsimp only
    rw [hline]
    rfl

theorem subscribed_handleV1 (s : ProxySession.Session) (ev : SinkEvent) :
    (handleV1 s ev).1.subscribed = s.subscribed := by
  cases ev with
  | job job =>
    unfold handleV1 ProxySession.onUpstreamJob
    dsimp only
    split
    · exact (subscribed_emit _ false).trans (subscribed_remember _ job)
    · exact subscribed_remember _ job
  | diff =>
    unfold handleV1 ProxySession.onUpstreamDiff
    dsimp only
    split <;> rfl
  | extranonce =>
    unfold handleV1 ProxySession.onUpstreamExtranonce
    dsimp only
    split
    · exact subscribed_emit _ true
    · rfl
  | state =>
    unfold handleV1
    dsimp only
    split
    · split <;> rfl
    · rfl
  | rebind slot job =>
    unfold handleV1 ProxySession.onRebind
    dsimp only
    split
    · cases job with
      | none => rfl
      | some job => exact (subscribed_emit _ true).trans (subscribed_remember _ job)
    · rfl

/-- A handler went through that leaves the session in its place. -/
theorem Books.goOn (h : Books c) (hp : c.parties[n]? = some p) (hplace : place p' = place p)
    (hatt : p'.miner.attached = p.miner.attached) (hopen : p.miner.closed = false)
    (hopen' : p'.miner.closed = false) (hidle : p'.phase = .idle)
    (hbox : ∀ ev ∈ p'.mailbox, ev ∈ p.mailbox)
    (hsub : ∀ s, p'.miner = .v1 s → s.attached = true → s.subscribed = true) {next : Next}
    (hstay : next ≠ .detach)
    (hnext : next = .attach → p.miner.attached = false ∨ anyReady c.client = false) :
    Books (goOn c n p' next) := by
  have hcalm : Calm p' := by
    refine ⟨fun _ hfree ev hev => ?_, fun hbusy => absurd hidle hbusy, fun hbusy => ?_, hsub⟩
    · exact (h.calm n p hp).unbound hopen (hatt ▸ hfree) ev (hbox ev hev)
    · rw [hidle] at hbusy
      cases hbusy
  have hclosed : p.miner.closed = true → p'.miner.closed = true := by simp [hopen]
  cases next with
  | done => exact h.set hp hplace hcalm hclosed
  | detach => exact absurd rfl hstay
  | attach =>
    have hfree : anyReady c.client = true → p'.miner.attached = false := fun hready =>
      hatt.trans ((hnext rfl).resolve_right (by simp [hready]))
    have hstart : Books { c with parties := c.parties.set n (startAttach c.client p') } := by
      unfold startAttach
      split
      · rename_i hready
        refine h.set hp ?_ ?_ hclosed
        · exact hplace
        · exact ⟨hcalm.unbound, fun _ => hopen', fun _ => hfree hready, hsub⟩
      · cases hm : p'.miner with
        | v1 s =>
          have hsame : SameSlot p'.miner (.v1 (ProxySession.held s)) := by
            rw [hm]
            exact ⟨rfl, rfl, rfl⟩
          refine h.set hp ?_ ?_ (by simp [hopen])
          · refine Eq.trans ?_ hplace
            exact place_same hsame rfl
          · refine ⟨?_, fun _ => hsame.closed.trans hopen', fun hbusy => (Phase.noConfusion hbusy), ?_⟩
            · intro hopen hfree
              exact hcalm.unbound (hsame.closed ▸ hopen) (hsame.attached ▸ hfree)
            · intro t ht hatt
              cases ht
              exact hsub s hm hatt
        | sv2 s =>
          have heq : ({ p' with phase := .registering, miner := .sv2 s } : Party) =
              { p' with phase := .registering } := by rw [← hm]
          dsimp only
          rw [heq]
          refine h.set hp ?_ ?_ hclosed
          · exact hplace
          · exact ⟨hcalm.unbound, fun _ => hopen', fun hbusy => (Phase.noConfusion hbusy), hsub⟩
    exact hstart

theorem Books.requestV1 (h : Books c) {env : Env} {r : RequestV1} {s : ProxySession.Session}
    (hp : c.parties[n]? = some p) (hm : p.miner = .v1 s) (hidle : p.phase = .idle)
    (hopen : p.miner.closed = false) :
    Books (Proxy.goOn c n { p with miner := .v1 (Proxy.requestV1 env s r).1 }
      (Proxy.requestV1 env s r).2) := by
  have hsame := sameSlot_requestV1 env s r
  rw [← hm] at hsame
  have hsub := (h.calm n p hp).subscribed s hm
  refine h.goOn hp ?_ ?_ hopen ?_ ?_ ?_ ?_ ?_ ?_
  · exact place_same hsame rfl
  · exact hsame.attached
  · exact hsame.closed.trans hopen
  · exact hidle
  · exact fun _ => id
  · intro t ht hatt
    cases ht
    have hkept : (Proxy.requestV1 env s r).1.attached = s.attached :=
      hsame.attached.trans (congrArg Miner.attached hm)
    rw [subscribed_requestV1]
    exact hsub (hkept ▸ hatt)
  · cases r with
    | subscribe =>
      unfold Proxy.requestV1
      dsimp only
      split <;> simp
    | _ => simp [Proxy.requestV1]
  · intro hnext
    cases r with
    | subscribe =>
      refine .inl ?_
      rw [hm]
      by_contra hatt
      have hyes := hsub (Bool.not_eq_false _ ▸ hatt)
      unfold Proxy.requestV1 at hnext
      dsimp only at hnext
      rw [if_pos hyes] at hnext
      cases hnext
    | _ => cases hnext

theorem Books.requestSv2 (h : Books c) {env : Env} {r : RequestSv2} {s : RelaySession.Session}
    (hp : c.parties[n]? = some p) (hm : p.miner = .sv2 s) (hidle : p.phase = .idle)
    (hopen : p.miner.closed = false) (hok : Orderly c (.requestSv2 n r)) :
    Books (Proxy.goOn c n { p with miner := .sv2 (Proxy.requestSv2 env s r).1 }
      (Proxy.requestSv2 env s r).2) := by
  have hsame := sameSlot_requestSv2 env s r
  rw [← hm] at hsame
  refine h.goOn hp ?_ ?_ hopen ?_ ?_ ?_ ?_ ?_ ?_
  · exact place_same hsame rfl
  · exact hsame.attached
  · exact hsame.closed.trans hopen
  · exact hidle
  · exact fun _ => id
  · exact fun t ht => Miner.noConfusion ht
  · cases r <;> simp [Proxy.requestSv2]
  · intro hnext
    cases r with
    | openStandardChannel requestId =>
      have hready := hok p hp
      cases hatt : p.miner.attached with
      | false => exact .inl rfl
      | true => exact .inr (hready hatt)
    | _ => cases hnext

/-- A call moves the session where it is expected to be. -/
theorem place_delivered {ev : SinkEvent} {mailbox : List SinkEvent} {m : Miner}
    (hbox : p.mailbox = ev :: mailbox) (hslot : m.slot = applyCall p.miner.slot ev)
    (hatt : m.attached = p.miner.attached) (hclosed : m.closed = p.miner.closed) :
    place { p with miner := m, mailbox } = place p := by
  unfold place bound view
  rw [hbox, settled_cons, hslot, hatt, hclosed]

/-- A rebind reaches an open session only while it is attached. -/
theorem Calm.attached_of_rebind (h : Calm p) (hopen : p.miner.closed = false)
    (hev : ev ∈ p.mailbox) (hrebind : isRebind ev = true) : p.miner.attached = true := by
  by_contra hatt
  have hnot := h.unbound hopen (by simpa using hatt) ev hev
  rw [hnot] at hrebind
  cases hrebind

theorem Calm.attached_delivered (h : Calm p) (hopen : p.miner.closed = false)
    (hev : ev ∈ p.mailbox) : (p.miner.attached || isRebind ev) = p.miner.attached := by
  cases hrebind : isRebind ev with
  | false => exact Bool.or_false _
  | true =>
    rw [h.attached_of_rebind hopen hev hrebind]
    rfl

theorem Books.deliverV1 (h : Books c) {s : ProxySession.Session} {mailbox : List SinkEvent}
    (hp : c.parties[n]? = some p) (hm : p.miner = .v1 s) (hidle : p.phase = .idle)
    (hopen : p.miner.closed = false) (hbox : p.mailbox = ev :: mailbox)
    (hok : Orderly c (.deliver n)) :
    Books (Proxy.goOn c n { p with miner := .v1 (handleV1 s ev).1, mailbox } (handleV1 s ev).2) := by
  have hcalm := h.calm n p hp
  have hev : ev ∈ p.mailbox := hbox ▸ List.mem_cons_self ..
  obtain ⟨hslot, hatt, hclosed⟩ := slot_handleV1 s ev
  have hmatt : p.miner.attached = s.attached := congrArg Miner.attached hm
  have hmclosed : s.closed = false := (congrArg Miner.closed hm).symm.trans hopen
  have hkept : (handleV1 s ev).1.attached = p.miner.attached := by
    rw [hatt, ← hmatt]
    exact hcalm.attached_delivered hopen hev
  have hsub : ∀ t, Miner.v1 (handleV1 s ev).1 = .v1 t → t.attached = true → t.subscribed = true := by
    rintro t ⟨⟩ ht
    rw [subscribed_handleV1]
    exact hcalm.subscribed s hm (hmatt ▸ hkept ▸ ht)
  have hstep (hstay : (handleV1 s ev).1.closed = false) (hdone : (handleV1 s ev).2 ≠ .detach)
      (hnext : (handleV1 s ev).2 = .attach →
        p.miner.attached = false ∨ anyReady c.client = false) :
      Books (Proxy.goOn c n { p with miner := .v1 (handleV1 s ev).1, mailbox }
        (handleV1 s ev).2) := by
    refine h.goOn hp ?_ ?_ hopen ?_ ?_ ?_ hsub hdone hnext
    · exact place_delivered hbox (hslot.trans (by rw [hm]; rfl)) hkept (hstay.trans hopen.symm)
    · exact hkept
    · exact hstay
    · exact hidle
    · intro e he
      rw [hbox]
      exact List.mem_cons_of_mem ev he
  cases ev with
  | job | diff | extranonce =>
    exact hstep (by rw [hclosed, hmclosed]; rfl) (by simp [handleV1]) (by simp [handleV1])
  | state up =>
    refine hstep (by rw [hclosed, hmclosed]; rfl) ?_ fun hnext => .inl ?_
    · unfold handleV1
      dsimp only
      split
      · split <;> simp
      · simp
    · by_contra hfree
      have hyes := hcalm.subscribed s hm (by simpa [hmatt] using hfree)
      unfold handleV1 at hnext
      dsimp only at hnext
      rw [if_pos hyes] at hnext
      split at hnext <;> cases hnext
  | rebind slot job diff =>
    have hmine := hcalm.attached_of_rebind hopen hev rfl
    cases hsubscribed : s.extranonceSubscribed with
    | true =>
      have hstay : (handleV1 s (.rebind slot job diff)).1.closed = false := by
        rw [hclosed, hmclosed, hsubscribed]
        rfl
      have hdone : (handleV1 s (.rebind slot job diff)).2 = .done := by
        show (if (handleV1 s (.rebind slot job diff)).1.closed then Next.detach else .done) = _
        rw [hstay]
        rfl
      exact hstep hstay (by simp [hdone]) (by simp [hdone])
    | false =>
      -- the miner cannot be told, and the session closes
      have hdrop : (handleV1 s (.rebind slot job diff)).1.closed = true := by
        rw [hclosed, hsubscribed]
        exact Bool.or_true _
      have hrest : NoRebind mailbox := by
        have := hok p hp hopen _ mailbox hbox
        rw [hm] at this
        exact this rfl hsubscribed
      have hnext : (handleV1 s (.rebind slot job diff)).2 = .detach := by
        show (if (handleV1 s (.rebind slot job diff)).1.closed then Next.detach else .done) = _
        rw [hdrop]
        rfl
      rw [hnext]
      refine h.detach hp ?_ ?_ ?_ ?_
      · obtain ⟨hlink, hid, -⟩ := settled_place (.of slot) hrest
        unfold place bound view
        rw [hmine, hopen, hbox, settled_cons]
        dsimp only [Miner.slot]
        rw [hslot]
        show Option.map (·, (settled applyCall (HeldSlot.of slot) mailbox).slotId)
          (settled applyCall (HeldSlot.of slot) mailbox).linkId = _
        rw [hlink, hid]
        rfl
      · exact place_closed hdrop
      · refine ⟨fun hopen' => ?_, fun hbusy => absurd hidle hbusy, fun hbusy => ?_, hsub⟩
        · exact absurd (hdrop.symm.trans hopen') (by simp)
        · exact absurd (hidle.symm.trans hbusy) (by simp)
      · exact hdrop

theorem Books.deliverSv2 (h : Books c) {env : Env} {s : RelaySession.Session}
    {mailbox : List SinkEvent} {r : RelaySession.Session × Next} (hp : c.parties[n]? = some p)
    (hm : p.miner = .sv2 s) (hidle : p.phase = .idle) (hopen : p.miner.closed = false)
    (hbox : p.mailbox = ev :: mailbox) (hok : Orderly c (.deliver n))
    (hr : handleSv2 env s ev = some r) :
    Books (Proxy.goOn c n { p with miner := .sv2 r.1, mailbox } r.2) := by
  have hcalm := h.calm n p hp
  have hev : ev ∈ p.mailbox := hbox ▸ List.mem_cons_self ..
  obtain ⟨hslot, hatt, hclosed⟩ := slot_handleSv2 hr
  have hmatt : p.miner.attached = s.attached := congrArg Miner.attached hm
  have hmclosed : s.closed = p.miner.closed := (congrArg Miner.closed hm).symm
  have hkept : r.1.attached = p.miner.attached := by
    rw [hatt, ← hmatt]
    exact hcalm.attached_delivered hopen hev
  refine h.goOn hp ?_ ?_ hopen ?_ ?_ ?_ ?_ ?_ ?_
  · exact place_delivered hbox (hslot.trans (by rw [hm]; rfl)) hkept (hclosed.trans hmclosed)
  · exact hkept
  · exact hclosed.trans (hmclosed.trans hopen)
  · exact hidle
  · intro e he
    rw [hbox]
    exact List.mem_cons_of_mem ev he
  · exact fun t ht => Miner.noConfusion ht
  · cases ev with
    | state up =>
      cases hr
      dsimp only
      split <;> simp
    | diff =>
      cases hr
      simp
    | job | extranonce | rebind =>
      obtain ⟨s', -, rfl⟩ := Option.map_eq_some_iff.mp hr
      simp
  · intro hnext
    cases ev with
    | state up =>
      cases hr
      dsimp only at hnext
      split at hnext
      · rename_i hopens
        rw [Bool.and_eq_true, Bool.and_eq_true, Bool.not_eq_true'] at hopens
        obtain ⟨⟨rfl, -⟩, hnone⟩ := hopens
        have hcond := hok p hp hopen _ mailbox hbox
        rw [hm] at hcond
        rw [hmatt]
        cases hatt : s.attached with
        | false => exact .inl rfl
        | true => exact .inr ((hcond rfl hatt).resolve_left (by simp [hnone]))
      · cases hnext
    | diff =>
      cases hr
      cases hnext
    | job | extranonce | rebind =>
      obtain ⟨s', -, rfl⟩ := Option.map_eq_some_iff.mp hr
      cases hnext

/-- What `attach` returned is what the session holds. -/
structure Bound (m : Miner) (got : Option ProxySlot) : Prop where
  slot : m.slot = got.elim {} HeldSlot.of
  attached : m.attached = got.isSome
  closed : m.closed = false
  subscribed : ∀ s, m = .v1 s → got.isSome = true → s.subscribed = true

theorem bound_attachV1 {s : ProxySession.Session} (hfree : s.attached = false)
    (hopen : s.closed = false) (slot : Option ProxySlot) (diff : ℚ) :
    Bound (.v1 (ProxySession.attachReturned s slot diff)) slot := by
  cases slot with
  | none => exact ⟨rfl, hfree, hopen, fun _ _ h => by cases h⟩
  | some slot =>
    unfold ProxySession.attachReturned
    dsimp only
    split <;>
    · refine ⟨rfl, rfl, hopen, fun t ht _ => ?_⟩
      cases ht
      rfl

theorem bound_attachSv2 {s : RelaySession.Session} (hfree : s.attached = false)
    (hopen : s.closed = false) (slot : Option ProxySlot) (diff : ℚ) :
    Bound (.sv2 (RelaySession.attachReturned s slot diff).1) slot := by
  cases slot with
  | none => exact ⟨rfl, hfree, hopen, fun _ h => Miner.noConfusion h⟩
  | some slot =>
    unfold RelaySession.attachReturned
    dsimp only
    split <;> exact ⟨rfl, rfl, hopen, fun _ h => Miner.noConfusion h⟩

/-- An `attach` returned. -/
theorem Books.attached (h : Books c) (hp : c.parties[n]? = some p) (hphase : p.phase = .attaching)
    {m : Miner} {phase : Phase} (hbound : Bound m (UpstreamClient.attach c.client n).2)
    (hnext : phase ≠ .attaching) :
    Books { c with
      client := (UpstreamClient.attach c.client n).1
      parties := c.parties.set n { p with miner := m, phase } } := by
  have hcalm := h.calm n p hp
  have hopen := hcalm.busy (by simp [hphase])
  have hfree := hcalm.attaching hphase
  have hbox := hcalm.unbound hopen hfree
  refine h.attach hp (place_unattached hfree) ?_ ?_ (by simp [hopen])
  · unfold place bound view
    rw [hbound.attached, hbound.closed, hbound.slot]
    cases (UpstreamClient.attach c.client n).2 with
    | none => rfl
    | some slot =>
      obtain ⟨hlink, hid, -⟩ := settled_place (.of slot) hbox
      show Option.map (·, (settled applyCall (HeldSlot.of slot) p.mailbox).slotId)
        (settled applyCall (HeldSlot.of slot) p.mailbox).linkId = _
      rw [hlink, hid]
      rfl
  · refine ⟨fun _ _ => hbox, fun _ => hbound.closed, fun h => absurd h hnext, fun s hs hatt => ?_⟩
    refine hbound.subscribed s hs (hbound.attached.symm.trans ?_)
    exact (congrArg Miner.attached hs).trans hatt

theorem subscribed_jobReturned (s : ProxySession.Session) (job : Option ProxyNotify) :
    (ProxySession.jobReturned s job).subscribed = s.subscribed := by
  cases job with
  | none => rfl
  | some job => exact subscribed_remember _ job

theorem Books.advance (h : Books c) {env : Env} {c' : State} (hp : c.parties[n]? = some p)
    (hs : advance env c n p = some c') : Books c' := by
  have hcalm := h.calm n p hp
  unfold Proxy.advance at hs
  cases hphase : p.phase with
  | idle =>
    rw [hphase] at hs
    cases hs
    exact h
  | registering =>
    rw [hphase] at hs
    cases hs
    have hset : Books { c with parties := c.parties.set n { p with phase := .idle } } := by
      refine h.set hp ?_ ?_ id
      · rfl
      · exact hcalm.same (.refl _) rfl (.inl rfl) hcalm.subscribed
    exact ⟨hset.apart, hset.owned, hset.calm, hset.gone, hset.removed⟩
  | attaching =>
    rw [hphase] at hs
    have hopen := hcalm.busy (by simp [hphase])
    have hfree := hcalm.attaching hphase
    cases hs
    cases hm : p.miner with
    | v1 s =>
      refine h.attached hp hphase (bound_attachV1 ?_ ?_ _ _) (by split <;> simp)
      · exact (congrArg Miner.attached hm).symm.trans hfree
      · exact (congrArg Miner.closed hm).symm.trans hopen
    | sv2 s =>
      refine h.attached hp hphase (bound_attachSv2 ?_ ?_ _ _) (by split_ifs <;> simp)
      · exact (congrArg Miner.attached hm).symm.trans hfree
      · exact (congrArg Miner.closed hm).symm.trans hopen
  | fetching =>
    rw [hphase] at hs
    have hstep {m : Miner} (hsame : SameSlot p.miner m)
        (hsub : ∀ s, m = .v1 s → s.attached = true → s.subscribed = true) :
        Books { c with parties := c.parties.set n { p with miner := m, phase := .idle } } := by
      refine h.set hp ?_ ?_ fun hclosed => hsame.closed.trans hclosed
      · exact place_same hsame rfl
      · exact hcalm.same hsame rfl (.inl rfl) hsub
    dsimp only at hs
    cases hm : p.miner with
    | v1 s =>
      rw [hm] at hs hstep
      cases hs
      refine hstep (sameSlot_jobReturned s _) ?_
      rintro t ⟨⟩ hatt
      rw [subscribed_jobReturned]
      exact hcalm.subscribed s hm ((sameSlot_jobReturned s _).attached.symm.trans hatt)
    | sv2 s =>
      rw [hm] at hs hstep
      obtain ⟨t, ht, rfl⟩ := Option.map_eq_some_iff.mp hs
      exact hstep (sameSlot_jobReturnedSv2 ht) fun _ h => Miner.noConfusion h

theorem Books.closeParty (h : Books c) (hp : c.parties[n]? = some p) (hidle : p.phase = .idle)
    (hok : Orderly c (.close n)) : Books (closeParty c n p) := by
  have hcalm := h.calm n p hp
  unfold Proxy.closeParty
  split
  · exact h
  · rename_i hnot
    have hopen : p.miner.closed = false := by simpa using hnot
    have hclosed : p.miner.close.closed = true := by
      cases p.miner <;> rfl
    have hslot : p.miner.close.slot = p.miner.slot := by
      cases p.miner <;> rfl
    have hcalm' : Calm { p with miner := p.miner.close } := by
      refine ⟨fun h => ?_, fun h => absurd hidle h, fun h => ?_, fun s hs hatt => ?_⟩
      · exact absurd (hclosed.symm.trans h) (by simp)
      · exact absurd (hidle.symm.trans h) (by simp)
      · cases hm : p.miner with
        | v1 t =>
          rw [hm] at hs
          cases hs
          exact hcalm.subscribed t hm hatt
        | sv2 t =>
          rw [hm] at hs
          exact Miner.noConfusion hs
    have hgone : place { p with miner := p.miner.close } = none := place_closed hclosed
    split
    · rename_i hatt
      refine h.detach hp ?_ hgone hcalm' hclosed
      obtain ⟨hlink, hid, -⟩ := settled_place p.miner.slot (hok p hp hopen)
      unfold place bound view
      rw [hatt, hopen, hlink, hid]
      dsimp only
      rw [hslot]
      rfl
    · rename_i hatt
      refine h.set hp ?_ hcalm' fun _ => hclosed
      exact hgone.trans (place_unattached (by simpa using hatt)).symm

/-! ## Runs -/

/-- **A step keeps the books.** -/
theorem Books.react (h : Books c) {env : Env} {c' : State} {input : Input}
    (hoffer : Offered c input) (hok : Orderly c input) (hs : react env c input = some c') :
    Books c' := by
  have hparty {m : Nat} {f : Party → Option State} (hf : ∀ p, c.parties[m]? = some p →
      f p = some c' → Books c') (hs : onParty c m f = some c') : Books c' := by
    rcases onParty_cases hs with rfl | ⟨p, hp, hfp⟩
    · exact h
    · exact hf p hp hfp
  cases input with
  | connectLink i | connOpen i | subscribeResult i => exact h.clientStep hs trivial
  | connClose i order =>
    cases hs
    exact h.closeLink hoffer.2
  | authorizeResult i =>
    rw [Proxy.react] at hs
    obtain ⟨c₁, hc₁, rfl⟩ := Option.map_eq_some_iff.mp hs
    have h₁ := (h.clientStep hc₁ trivial).post
      ((c₁.waiters.filter (· ∉ c₁.client.gone)).map (·, .state true)) fun call hcall => by
        obtain ⟨_, -, rfl⟩ := List.mem_map.mp hcall
        rfl
    exact ⟨h₁.apart, h₁.owned, h₁.calm, h₁.gone, h₁.removed⟩
  | setExtranonce i =>
    rw [Proxy.react] at hs
    obtain ⟨c₁, hc₁, rfl⟩ := Option.map_eq_some_iff.mp hs
    refine (h.clientStep hc₁ trivial).post _ fun call hcall => ?_
    unfold reissues at hcall
    split at hcall
    · cases hcall
    · obtain ⟨_, -, rfl⟩ := List.mem_map.mp hcall
      rfl
  | setDifficulty i diff =>
    rw [Proxy.react] at hs
    split at hs
    · cases hs
      exact h
    · cases hs
      have h₁ := h.post ((linkSinks c.client i).map (·, .diff diff)) fun call hcall => by
        obtain ⟨_, -, rfl⟩ := List.mem_map.mp hcall
        rfl
      exact ⟨h₁.apart, h₁.owned, h₁.calm, h₁.gone, h₁.removed⟩
  | notify i job =>
    cases hs
    exact ⟨h.apart, h.owned, h.calm, h.gone, h.removed⟩
  | handOn =>
    rw [Proxy.react] at hs
    split at hs
    · cases hs
      exact h
    · rename_i i job _
      cases hs
      have h₁ := h.post ((linkSinks c.client i).map (·, .job job)) fun call hcall => by
        obtain ⟨_, -, rfl⟩ := List.mem_map.mp hcall
        rfl
      exact ⟨h₁.apart, h₁.owned, h₁.calm, h₁.gone, h₁.removed⟩
  | connectV1 =>
    cases hs
    exact h.connect rfl rfl rfl
  | connectSv2 =>
    cases hs
    exact h.connect rfl rfl rfl
  | requestV1 m r =>
    refine hparty (fun p hp hf => ?_) hs
    obtain ⟨hidle, hopen⟩ := hoffer p hp
    cases hm : p.miner with
    | v1 s =>
      rw [hm] at hf
      cases hf
      exact h.requestV1 hp hm hidle hopen
    | sv2 s =>
      rw [hm] at hf
      cases hf
      exact h
  | requestSv2 m r =>
    refine hparty (fun p hp hf => ?_) hs
    obtain ⟨hidle, hopen⟩ := hoffer p hp
    cases hm : p.miner with
    | v1 s =>
      rw [hm] at hf
      cases hf
      exact h
    | sv2 s =>
      rw [hm] at hf
      cases hf
      exact h.requestSv2 hp hm hidle hopen hok
  | advance m => exact hparty (fun p hp hf => h.advance hp hf) hs
  | deliver m =>
    refine hparty (fun p hp hf => ?_) hs
    have hidle := hoffer p hp
    unfold Proxy.deliver at hf
    cases hbox : p.mailbox with
    | nil =>
      rw [hbox] at hf
      cases hf
      exact h
    | cons ev mailbox =>
      rw [hbox] at hf
      dsimp only at hf
      split at hf
      · rename_i hclosed
        cases hf
        refine h.set hp ?_ ?_ id
        · rw [place_closed hclosed]
          exact place_closed hclosed
        · have hcalm := h.calm m p hp
          refine ⟨fun hopen => ?_, hcalm.busy, hcalm.attaching, hcalm.subscribed⟩
          exact absurd (hclosed.symm.trans hopen) (by simp)
      · rename_i hnot
        have hopen : p.miner.closed = false := by simpa using hnot
        cases hm : p.miner with
        | v1 s =>
          rw [hm] at hf
          cases hf
          exact h.deliverV1 hp hm hidle hopen hbox hok
        | sv2 s =>
          rw [hm] at hf
          obtain ⟨r, hr, rfl⟩ := Option.map_eq_some_iff.mp hf
          exact h.deliverSv2 hp hm hidle hopen hbox hok hr
  | close m =>
    refine hparty (fun p hp hf => ?_) hs
    cases hf
    exact h.closeParty hp (hoffer p hp) hok
  | destroy m =>
    cases hs
    obtain ⟨p, hp, -, hclosed, -⟩ := hoffer
    exact h.destroy hp hclosed

end

theorem Books.initial (n : UInt8) (activeActive : Bool) (weights : List Nat) :
    Books (initial n activeActive weights) where
  apart l hl := by
    obtain ⟨w, -, rfl⟩ := List.mem_map.mp hl
    exact List.nodup_nil
  owned i k m := by
    refine ⟨?_, fun h => by cases h⟩
    rintro ⟨t, ⟨l, hl, ht⟩, -⟩
    obtain ⟨w, -, rfl⟩ := List.mem_map.mp (List.mem_of_getElem? hl)
    cases ht
  calm := by
    intro m p hp
    cases hp
  gone := by
    intro m hm
    cases hm
  removed := by
    intro r hr
    cases hr

/-- **In every run in which sessions close when they know of all moves, and
attached sessions do not open again, the books are kept.** -/
theorem books_of_run {env : Env} {c : State} (h : Run env Orderly c) : Books c := by
  induction h with
  | init n activeActive weights => exact .initial n activeActive weights
  | step _ hoffer hok hs ih => exact ih.react hoffer hok hs

/-! ### Runs step by step -/

/-- A move after which nobody has missed anything. -/
def orderlyMove (c : State) : Input → Bool
  | .close n => (c.parties[n]?).all fun p => p.mailbox.isEmpty
  | .requestSv2 .. => false
  | .deliver n => (c.parties[n]?).all fun p =>
    match p.miner with
    | .v1 s => s.extranonceSubscribed
    | .sv2 _ => false
  | _ => true

theorem orderly_of_move (c : State) (i : Input) (h : orderlyMove c i = true) : Orderly c i := by
  cases i with
  | close n =>
    intro p hp _ ev hev
    have hbox : (c.parties[n]?).all (fun p => p.mailbox.isEmpty) = true := h
    rw [Option.mem_def.mp hp] at hbox
    have hempty : p.mailbox = [] := by simpa using hbox
    rw [hempty] at hev
    cases hev
  | requestSv2 n r => cases h
  | deliver n =>
    intro p hp _ ev rest _
    have htold : (c.parties[n]?).all (fun p =>
      match p.miner with
      | .v1 s => s.extranonceSubscribed
      | .sv2 _ => false) = true := h
    rw [Option.mem_def.mp hp] at htold
    dsimp only [Option.all] at htold
    cases hm : p.miner with
    | v1 s =>
      rw [hm] at htold
      exact fun _ hnot => absurd (hnot.symm.trans htold) Bool.false_ne_true
    | sv2 s =>
      rw [hm] at htold
      cases htold
  | _ => trivial

/-- A V1 miner takes a slot. -/
def attaches (n : Nat) : List Input := [.requestV1 n .subscribe, .advance n, .advance n]

end MkPool.Placement
