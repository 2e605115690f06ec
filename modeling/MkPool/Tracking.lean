import MkPool.Placement
import MkPool.PartySteps

/-! # An entry leads to its session

Whatever was closed or lost, an entry for an open session is where that session
will be, provided the session attached once. -/
namespace MkPool.Tracking
open MkPool.Lib MkPool.Lib.Mailbox MkPool.Utils MkPool.Coinbase
open MkPool.UpstreamClient hiding Input react Offered Run
open MkPool.UpstreamSource MkPool.Proxy MkPool.Bindings MkPool.Migration MkPool.Placement
open MkPool.PartySteps

/-- A relay session that is attached is not asked to open again, or only while
no link is ready. -/
def Single (c : State) : Input → Prop
  | .requestSv2 n (.openStandardChannel _) =>
    ∀ p ∈ c.parties[n]?, p.miner.attached = true → anyReady c.client = false
  | .deliver n =>
    ∀ p ∈ c.parties[n]?, p.miner.closed = false → ∀ s, p.miner = .sv2 s →
      ∀ rest, p.mailbox = .state true :: rest → s.attached = true →
        s.channelOpen = true ∨ anyReady c.client = false
  | _ => True

/-! ## Sessions -/

section
variable {env : Env} {c c' : State} {n m i' k : Nat} {i : Input} {p p' : Party} {client : Client}

theorem calm_next (h : Calm p) (hopen : p.miner.closed = false)
    {next : Next} (hnext : next = .attach → p.miner.attached = false ∨ anyReady client = false) :
    Calm (afterNext client p next) := by
  cases next with
  | done | detach => exact h
  | attach =>
    show Calm (startAttach client p)
    unfold startAttach
    split
    · rename_i hready
      have hfree : p.miner.attached = false := (hnext rfl).resolve_right (by simp [hready])
      exact ⟨h.unbound, fun _ => hopen, fun _ => hfree, h.subscribed⟩
    · cases hm : p.miner with
      | v1 s =>
        have hsame : SameSlot p.miner (.v1 (ProxySession.held s)) := by
          rw [hm]
          exact ⟨rfl, rfl, rfl⟩
        refine ⟨fun hopen hfree => ?_, fun _ => hsame.closed.trans hopen,
          fun hbusy => Phase.noConfusion hbusy, fun t ht hatt => ?_⟩
        · exact h.unbound (hsame.closed.symm.trans hopen) (hsame.attached.symm.trans hfree)
        · cases ht
          exact h.subscribed s hm hatt
      | sv2 s =>
        have hclosed : s.closed = false := (congrArg Miner.closed hm).symm.trans hopen
        refine ⟨fun hopen hfree => ?_, fun _ => hclosed, fun hbusy => Phase.noConfusion hbusy,
          fun t ht => Miner.noConfusion ht⟩
        exact h.unbound ((congrArg Miner.closed hm).trans hopen)
          ((congrArg Miner.attached hm).trans hfree)

/-- A handler went through that leaves the session open. -/
theorem calm_same (h : Calm p) (hatt : p'.miner.attached = p.miner.attached)
    (hopen : p.miner.closed = false) (hidle : p'.phase = .idle)
    (hbox : ∀ ev ∈ p'.mailbox, ev ∈ p.mailbox)
    (hsub : ∀ s, p'.miner = .v1 s → s.attached = true → s.subscribed = true) : Calm p' where
  unbound _ hfree ev hev := h.unbound hopen (hatt ▸ hfree) ev (hbox ev hev)
  busy hbusy := absurd hidle hbusy
  attaching hphase := by
    rw [hidle] at hphase
    cases hphase
  subscribed := hsub

/-- **A handler keeps a session calm**, if it does not attach twice. -/
theorem calm_handled (h : Calm p) (hp : c.parties[n]? = some p)
    (honce : (∃ s, p.miner = .v1 s) ∨ Single c i) (hs : Handled env c n p i client p') :
    Calm p' := by
  cases hs with
  | @requestV1 s r hm hidle hopen =>
    have hsame := sameSlot_requestV1 env s r
    rw [← hm] at hsame
    have hsub : ∀ t, Miner.v1 (requestV1 env s r).1 = .v1 t → t.attached = true →
        t.subscribed = true := by
      rintro t ⟨⟩ hatt
      rw [subscribed_requestV1]
      exact h.subscribed s hm ((congrArg Miner.attached hm).symm.trans
        (hsame.attached.symm.trans hatt))
    have hcalm : Calm { p with miner := .v1 (requestV1 env s r).1 } :=
      calm_same h hsame.attached hopen hidle (fun _ hev => hev) hsub
    refine calm_next hcalm (hsame.closed.trans hopen) fun hnext => .inl (hsame.attached.trans ?_)
    cases r with
    | subscribe =>
      rw [hm]
      by_contra hatt
      have hyes := h.subscribed s hm (Bool.not_eq_false _ ▸ hatt)
      unfold requestV1 at hnext
      dsimp only at hnext
      rw [if_pos hyes] at hnext
      cases hnext
    | _ => cases hnext
  | @requestSv2 s r hm hidle hopen =>
    have hsame := sameSlot_requestSv2 env s r
    rw [← hm] at hsame
    have hcalm : Calm { p with miner := .sv2 (requestSv2 env s r).1 } :=
      calm_same h hsame.attached hopen hidle (fun _ hev => hev) fun t ht => Miner.noConfusion ht
    refine calm_next hcalm (hsame.closed.trans hopen) fun hnext => ?_
    cases r with
    | openStandardChannel requestId =>
      rcases honce with ⟨t, ht⟩ | hsingle
      · exact Miner.noConfusion (ht.symm.trans hm)
      · have hready := hsingle p hp
        cases hatt : p.miner.attached with
        | false => exact .inl (hsame.attached.trans hatt)
        | true => exact .inr (hready hatt)
    | _ => cases hnext
  | dropped hclosed hbox =>
    refine ⟨fun hopen => ?_, h.busy, h.attaching, h.subscribed⟩
    exact absurd (hclosed.symm.trans hopen) (by simp)
  | @deliverV1 s ev mailbox hm hidle hopen hbox =>
    obtain ⟨-, hatt, hclosed⟩ := slot_handleV1 s ev
    have hev : ev ∈ p.mailbox := hbox ▸ List.mem_cons_self ..
    have hmatt : p.miner.attached = s.attached := congrArg Miner.attached hm
    have hkept : (handleV1 s ev).1.attached = p.miner.attached := by
      rw [hatt, ← hmatt]
      exact h.attached_delivered hopen hev
    have hsub : ∀ t, Miner.v1 (handleV1 s ev).1 = .v1 t → t.attached = true →
        t.subscribed = true := by
      rintro t ⟨⟩ ht
      rw [subscribed_handleV1]
      exact h.subscribed s hm (hmatt ▸ hkept ▸ ht)
    have hmail : ∀ e ∈ mailbox, e ∈ p.mailbox := fun e he => hbox ▸ List.mem_cons_of_mem ev he
    have hcalm : Calm { p with miner := .v1 (handleV1 s ev).1, mailbox } :=
      calm_same h hkept hopen hidle hmail hsub
    cases ev with
    | state up =>
      refine calm_next hcalm ?_ fun hnext => .inl (hkept.trans ?_)
      · exact (hclosed.trans (Bool.or_false _)).trans ((congrArg Miner.closed hm).symm.trans hopen)
      · by_contra hfree
        have hyes := h.subscribed s hm (by simpa [hmatt] using hfree)
        unfold handleV1 at hnext
        dsimp only at hnext
        rw [if_pos hyes] at hnext
        split at hnext <;> cases hnext
    | rebind slot job diff =>
      unfold afterNext
      split
      · rename_i hnext
        have hdone : (if (handleV1 s (.rebind slot job diff)).1.closed then Next.detach else .done) =
          .attach := hnext
        split at hdone <;> cases hdone
      · exact hcalm
    | _ => exact hcalm
  | @deliverSv2 s ev mailbox r hm hidle hopen hbox hr =>
    obtain ⟨-, hatt, hclosed⟩ := slot_handleSv2 hr
    have hev : ev ∈ p.mailbox := hbox ▸ List.mem_cons_self ..
    have hmatt : p.miner.attached = s.attached := congrArg Miner.attached hm
    have hkept : r.1.attached = p.miner.attached := by
      rw [hatt, ← hmatt]
      exact h.attached_delivered hopen hev
    have hmail : ∀ e ∈ mailbox, e ∈ p.mailbox := fun e he => hbox ▸ List.mem_cons_of_mem ev he
    have hcalm : Calm { p with miner := .sv2 r.1, mailbox } :=
      calm_same h hkept hopen hidle hmail fun t ht => Miner.noConfusion ht
    refine calm_next hcalm ?_ fun hnext => ?_
    · exact hclosed.trans ((congrArg Miner.closed hm).symm.trans hopen)
    · cases ev with
      | state up =>
        cases hr
        dsimp only at hnext
        split at hnext
        · rename_i hopens
          rw [Bool.and_eq_true, Bool.and_eq_true, Bool.not_eq_true'] at hopens
          obtain ⟨⟨rfl, -⟩, hnone⟩ := hopens
          rcases honce with ⟨t, ht⟩ | hsingle
          · exact Miner.noConfusion (ht.symm.trans hm)
          · cases hfree : s.attached with
            | false => exact .inl hfree
            | true =>
              exact .inr ((hsingle p hp hopen s hm mailbox hbox hfree).resolve_left (by simp [hnone]))
        · cases hnext
      | diff =>
        cases hr
        cases hnext
      | job | extranonce | rebind =>
        obtain ⟨s', -, rfl⟩ := Option.map_eq_some_iff.mp hr
        cases hnext
  | close hidle hopen =>
    have hclosed : p.miner.close.closed = true := by cases p.miner <;> rfl
    refine ⟨fun hopen => absurd (hclosed.symm.trans hopen) (by simp), fun h => absurd hidle h,
      fun h => absurd (hidle.symm.trans h) (by simp), fun s hs hatt => ?_⟩
    cases hm : p.miner with
    | v1 t =>
      rw [hm] at hs
      cases hs
      exact h.subscribed t hm hatt
    | sv2 t =>
      rw [hm] at hs
      exact Miner.noConfusion hs
  | registered hphase =>
    exact ⟨h.unbound, fun hbusy => absurd rfl hbusy, fun hphase => Phase.noConfusion hphase,
      h.subscribed⟩
  | @attachV1 s hphase hm =>
    have hopen := h.busy (by simp [hphase])
    have hfree := h.attaching hphase
    have hbound := bound_attachV1 ((congrArg Miner.attached hm).symm.trans hfree)
      ((congrArg Miner.closed hm).symm.trans hopen) (attach c.client n).2
      (diffFor c (attach c.client n).2)
    refine ⟨fun _ _ => h.unbound hopen hfree, fun _ => hbound.closed, fun hphase => ?_,
      fun t ht hatt => hbound.subscribed t ht ?_⟩
    · dsimp only at hphase
      split at hphase <;> cases hphase
    · exact hbound.attached.symm.trans ((congrArg Miner.attached ht).trans hatt)
  | @attachSv2 s phase hphase hm hnext =>
    have hopen := h.busy (by simp [hphase])
    have hfree := h.attaching hphase
    have hbound := bound_attachSv2 ((congrArg Miner.attached hm).symm.trans hfree)
      ((congrArg Miner.closed hm).symm.trans hopen) (attach c.client n).2
      (diffFor c (attach c.client n).2)
    exact ⟨fun _ _ => h.unbound hopen hfree, fun _ => hbound.closed, fun h => absurd h hnext,
      fun t ht => Miner.noConfusion ht⟩
  | @fetchV1 s hphase hm =>
    have hsame := sameSlot_jobReturned s (p.miner.slot.linkId.bind c.jobs)
    rw [← hm] at hsame
    refine calm_same h hsame.attached (h.busy (by simp [hphase])) rfl (fun _ hev => hev) ?_
    rintro t ⟨⟩ hatt
    rw [subscribed_jobReturned]
    exact h.subscribed s hm ((congrArg Miner.attached hm).symm.trans
      (hsame.attached.symm.trans hatt))
  | @fetchSv2 s t hphase hm hjob =>
    have hsame := sameSlot_jobReturnedSv2 hjob
    rw [← hm] at hsame
    exact calm_same h hsame.attached (h.busy (by simp [hphase])) rfl (fun _ hev => hev)
      fun t ht => Miner.noConfusion ht

theorem place_afterNext (client : Client) (p : Party) (next : Next) :
    place (afterNext client p next) = place p := by
  have hsame := sameSlot_afterNext client p next
  unfold place bound view
  rw [hsame.slot, hsame.attached, hsame.closed, mailbox_afterNext]

theorem place_bound {m : Miner} {got : Option ProxySlot} {phase : Phase} (h : Bound m got)
    (hbox : NoRebind p.mailbox) :
    place { p with miner := m, phase } = got.map fun slot => (slot.linkId, slot.slotId) := by
  unfold place bound view
  rw [h.attached, h.closed, h.slot]
  cases got with
  | none => rfl
  | some slot =>
    obtain ⟨hlink, hid, -⟩ := settled_place (.of slot) hbox
    show Option.map (·, (settled applyCall (HeldSlot.of slot) p.mailbox).slotId)
      (settled applyCall (HeldSlot.of slot) p.mailbox).linkId = _
    rw [hlink, hid]
    rfl

theorem taken_clientAfter {j : Nat} {next : Next}
    (h : Taken (clientAfter c.client p next) j k m) : Taken c.client j k m := by
  unfold clientAfter at h
  split at h
  · split at h
    · exact h
    · obtain ⟨t, ht, rfl, rfl⟩ := h
      exact ⟨t, ((seated_erase _).mp ht).1, rfl, rfl⟩
  · exact h

/-- A handler enters nobody, but by an attach. -/
theorem taken_handled {j : Nat} (hs : Handled env c n p i client p') (h : Taken client j k m) :
    Taken c.client j k m ∨ client = (attach c.client n).1 := by
  cases hs with
  | attachV1 | attachSv2 => exact .inr rfl
  | deliverV1 | close => exact .inl (taken_clientAfter h)
  | _ => exact .inl h

/-- An open session was open, and stays in its place, unless it attaches. -/
theorem place_handled (h : Calm p) (hs : Handled env c n p i client p')
    (hopen' : p'.miner.closed = false) :
    p.miner.closed = false ∧
      (place p' = place p ∧ (∀ j k m, Taken client j k m → Taken c.client j k m) ∨
        place p = none ∧ client = (attach c.client n).1 ∧
          place p' = (attach c.client n).2.map fun slot => (slot.linkId, slot.slotId)) := by
  have hattaching (hphase : p.phase = .attaching) :
      p.miner.closed = false ∧ p.miner.attached = false :=
    ⟨h.busy (by simp [hphase]), h.attaching hphase⟩
  cases hs with
  | @requestV1 s r hm hidle hopen =>
    have hsame := sameSlot_requestV1 env s r
    rw [← hm] at hsame
    rw [place_afterNext]
    exact ⟨hopen, .inl ⟨place_same hsame rfl, fun _ _ _ => id⟩⟩
  | @requestSv2 s r hm hidle hopen =>
    have hsame := sameSlot_requestSv2 env s r
    rw [← hm] at hsame
    rw [place_afterNext]
    exact ⟨hopen, .inl ⟨place_same hsame rfl, fun _ _ _ => id⟩⟩
  | dropped hclosed => exact absurd (hclosed.symm.trans hopen') (by simp)
  | @deliverV1 s ev mailbox hm hidle hopen hbox =>
    obtain ⟨hslot, hatt, -⟩ := slot_handleV1 s ev
    rw [(sameSlot_afterNext ..).closed] at hopen'
    rw [place_afterNext]
    refine ⟨hopen, .inl ⟨place_delivered hbox (hslot.trans (by rw [hm]; rfl)) ?_
      (hopen'.trans hopen.symm), fun _ _ _ => taken_clientAfter⟩⟩
    refine hatt.trans ?_
    rw [← show p.miner.attached = s.attached from congrArg Miner.attached hm]
    exact h.attached_delivered hopen (hbox ▸ List.mem_cons_self ..)
  | @deliverSv2 s ev mailbox r hm hidle hopen hbox hr =>
    obtain ⟨hslot, hatt, -⟩ := slot_handleSv2 hr
    rw [(sameSlot_afterNext ..).closed] at hopen'
    rw [place_afterNext]
    refine ⟨hopen, .inl ⟨place_delivered hbox (hslot.trans (by rw [hm]; rfl)) ?_
      (hopen'.trans hopen.symm), fun _ _ _ => id⟩⟩
    refine hatt.trans ?_
    rw [← show p.miner.attached = s.attached from congrArg Miner.attached hm]
    exact h.attached_delivered hopen (hbox ▸ List.mem_cons_self ..)
  | close =>
    have hclosed : p.miner.close.closed = true := by cases p.miner <;> rfl
    exact absurd (hclosed.symm.trans hopen') (by simp)
  | registered => exact ⟨hopen', .inl ⟨rfl, fun _ _ _ => id⟩⟩
  | @attachV1 s hphase hm =>
    obtain ⟨hopen, hfree⟩ := hattaching hphase
    refine ⟨hopen, .inr ⟨place_unattached hfree, rfl, place_bound (bound_attachV1 ?_ ?_ _ _) ?_⟩⟩
    · exact (congrArg Miner.attached hm).symm.trans hfree
    · exact (congrArg Miner.closed hm).symm.trans hopen
    · exact h.unbound hopen hfree
  | @attachSv2 s phase hphase hm hnext =>
    obtain ⟨hopen, hfree⟩ := hattaching hphase
    refine ⟨hopen, .inr ⟨place_unattached hfree, rfl, place_bound (bound_attachSv2 ?_ ?_ _ _) ?_⟩⟩
    · exact (congrArg Miner.attached hm).symm.trans hfree
    · exact (congrArg Miner.closed hm).symm.trans hopen
    · exact h.unbound hopen hfree
  | @fetchV1 s hphase hm =>
    have hsame := sameSlot_jobReturned s (p.miner.slot.linkId.bind c.jobs)
    rw [← hm] at hsame
    exact ⟨h.busy (by simp [hphase]), .inl ⟨place_same hsame rfl, fun _ _ _ => id⟩⟩
  | @fetchSv2 s t hphase hm hjob =>
    have hsame := sameSlot_jobReturnedSv2 hjob
    rw [← hm] at hsame
    exact ⟨h.busy (by simp [hphase]), .inl ⟨place_same hsame rfl, fun _ _ _ => id⟩⟩

theorem taken_attach {sink j : Nat} (h : Taken (attach c.client sink).1 j k m) :
    Taken c.client j k m ∨
      m = sink ∧ (attach c.client sink).2.map (fun slot => (slot.linkId, slot.slotId)) =
        some (j, k) := by
  rcases attach_cases c.client sink with
    ⟨primary, j', l, next, cand, ha, heq⟩ | ⟨primary, c', heq, hpassed⟩
  · rw [heq] at h ⊢
    rcases (taken_allocate ha).mp h with h | ⟨rfl, rfl, rfl⟩
    · exact .inl ((taken_congr rfl).mp h)
    · exact .inr ⟨rfl, rfl⟩
  · rw [heq] at h
    exact .inl ((taken_congr rfl).mp ((taken_congr hpassed.seats).mp h))

/-! ## The entries of one session -/

/-- The entries of an open session are where it will be. -/
structure Tracked (c : State) (n : Nat) (p : Party) : Prop where
  known : p.miner.closed = false → ∀ j k, Taken c.client j k n → place p = some (j, k)
  calm : Calm p

/-- A slot is entered once, and for a session that has connected. -/
structure Entered (client : Client) (parties : List Party) : Prop where
  apart : SlotsApart client
  connected : ∀ j k n, Taken client j k n → n < parties.length

theorem Entered.congr {parties : List Party} (h : Entered c.client c.parties)
    (hseats : client.links.map seats = c.client.links.map seats)
    (hlen : c.parties.length ≤ parties.length) : Entered client parties where
  apart := h.apart.congr hseats
  connected j k n htaken := (h.connected j k n ((taken_congr hseats).mp htaken)).trans_le hlen

theorem Tracked.handled (h : Tracked c n p) (hp : c.parties[n]? = some p)
    (honce : (∃ s, p.miner = .v1 s) ∨ Single c i) (hs : Handled env c n p i c'.client p') :
    Tracked c' n p' := by
  refine ⟨fun hopen j k htaken => ?_, calm_handled h.calm hp honce hs⟩
  obtain ⟨hopen₀, ⟨hsame, hless⟩ | ⟨hnone, hclient, hplace⟩⟩ := place_handled h.calm hs hopen
  · rw [hsame]
    exact h.known hopen₀ j k (hless j k n htaken)
  · rw [hclient] at htaken
    rcases taken_attach htaken with htaken | ⟨-, hgot⟩
    · have hthere := h.known hopen₀ j k htaken
      rw [hnone] at hthere
      cases hthere
    · exact hplace.trans hgot

/-- A handler of another session. -/
theorem Tracked.other (h : Tracked c n p) (hne : m ≠ n) {q q' : Party}
    (hs : Handled env c m q i c'.client q') : Tracked c' n p := by
  refine ⟨fun hopen j k htaken => h.known hopen j k ?_, h.calm⟩
  rcases taken_handled hs htaken with htaken | hclient
  · exact htaken
  · rw [hclient] at htaken
    exact (taken_attach htaken).resolve_right fun heq => hne heq.1.symm

/-- Calls are posted that move nobody. -/
theorem Tracked.post (h : Tracked c n p) (hseats : c'.client.links.map seats = c.client.links.map seats)
    {evs : List SinkEvent} (hevs : NoRebind evs) :
    Tracked c' n { p with mailbox := p.mailbox ++ evs } := by
  have hplace : place { p with mailbox := p.mailbox ++ evs } = place p := by
    obtain ⟨hlink, hid, -⟩ := settled_place (view p) hevs
    unfold place
    have hview : view { p with mailbox := p.mailbox ++ evs } = settled applyCall (view p) evs :=
      settled_append evs
    rw [hview, hlink, hid]
    rfl
  refine ⟨fun hopen j k htaken => ?_, ?_, h.calm.busy, h.calm.attaching, h.calm.subscribed⟩
  · rw [hplace]
    exact h.known hopen j k ((taken_congr hseats).mp htaken)
  · intro hopen hfree ev hev
    rcases List.mem_append.mp hev with hev | hev
    · exact h.calm.unbound hopen hfree ev hev
    · exact hevs ev hev

/-! ## Migration -/

theorem Entered.move {j : Nat} {m m' : Moving} (h : Entered m.client m.parties)
    (hmove : Move c j m m') : Entered m'.client m'.parties := by
  cases hmove with
  | erase => exact h
  | skip hpassed =>
    exact ⟨h.apart.congr hpassed.seats, fun j k n htaken =>
      h.connected j k n ((taken_congr hpassed.seats).mp htaken)⟩
  | @move t k next cand l hseat hleft hlive hne ha =>
    refine ⟨h.apart.allocate ha, fun j' k' n' htaken => ?_⟩
    have hlen (call : Nat × SinkEvent) : (post m.parties call).length = m.parties.length :=
      List.length_modify ..
    dsimp only
    rw [hlen]
    rcases (taken_allocate ha).mp htaken with htaken | ⟨-, -, rfl⟩
    · exact h.connected j' k' n' htaken
    · exact h.connected j t.slotId t.sink ⟨t, hseat, rfl, rfl⟩

/-- What is kept of a session while a link is closed. -/
structure TrackedUnderway (j n : Nat) (m : Moving) : Prop where
  known : ∀ p, m.parties[n]? = some p → p.miner.closed = false →
    ∀ j' k, Taken m.client j' k n → ¬ (j' = j ∧ k ∈ m.ids) → place p = some (j', k)
  calm : ∀ p, m.parties[n]? = some p → Calm p

theorem TrackedUnderway.move {j : Nat} {m m' : Moving} (h : TrackedUnderway j n m)
    (hmove : Move c j m m') : TrackedUnderway j n m' := by
  cases hmove with
  | @erase t hseat hleft hgone =>
    refine ⟨fun p hp hopen j' k htaken hnot => ?_, h.calm⟩
    exact h.known p hp hopen j' k htaken fun hin => hnot ⟨hin.1, List.mem_cons_of_mem _ hin.2⟩
  | @skip client hpassed =>
    refine ⟨fun p hp hopen j' k htaken hnot => ?_, h.calm⟩
    exact h.known p hp hopen j' k ((taken_congr hpassed.seats).mp htaken) hnot
  | @move t k next cand l hseat hleft hlive hne ha =>
    have hold {p : Party} (hp : m.parties[n]? = some p) (hopen : p.miner.closed = false)
        (hn : t.sink = n) : place p = some (j, t.slotId) :=
      h.known p hp hopen j t.slotId ⟨t, hseat, rfl, hn⟩ fun hin => hleft hin.2
    refine ⟨fun q hq hopen j' k' htaken hnot => ?_, fun q hq => ?_⟩
    · dsimp only at hq
      rw [getElem?_post] at hq
      split at hq
      · rename_i hn
        obtain ⟨p, hp, rfl⟩ := Option.map_eq_some_iff.mp hq
        have hthere := hold hp hopen hn
        have hbound : bound p = true := by
          by_contra hnot
          unfold place at hthere
          rw [if_neg hnot] at hthere
          cases hthere
        have hnew : place (posted p (rebindTo c (Slots.slotOf l k cand))) = some (k, cand) := by
          unfold place
          rw [view_posted, if_pos (show bound (posted p _) = true from hbound)]
          rfl
        rcases (taken_allocate ha).mp htaken with htaken | ⟨rfl, rfl, -⟩
        · have hother := h.known p hp hopen j' k' htaken fun hin =>
            hnot ⟨hin.1, List.mem_cons_of_mem _ hin.2⟩
          obtain ⟨rfl, rfl⟩ := Prod.mk.inj (Option.some.inj (hthere.symm.trans hother))
          exact (hnot ⟨rfl, List.mem_cons_self ..⟩).elim
        · exact hnew
      · rename_i hn
        rcases (taken_allocate ha).mp htaken with htaken | ⟨-, -, heq⟩
        · exact h.known q hq hopen j' k' htaken fun hin =>
            hnot ⟨hin.1, List.mem_cons_of_mem _ hin.2⟩
        · exact (hn heq.symm).elim
    · dsimp only at hq
      rw [getElem?_post] at hq
      split at hq
      · rename_i hn
        obtain ⟨p, hp, rfl⟩ := Option.map_eq_some_iff.mp hq
        have hcalm := h.calm p hp
        refine ⟨fun hopen hfree => ?_, hcalm.busy, hcalm.attaching, hcalm.subscribed⟩
        have hthere := hold hp hopen hn
        rw [place_unattached (show p.miner.attached = false from hfree)] at hthere
        cases hthere
      · exact h.calm q hq

theorem Entered.closeLink {j : Nat} {order : List (Nat × Subscriber)}
    (h : Entered c.client c.parties)
    (hoffer : ∃ l, c.client.links[j]? = some l ∧ order.Perm l.subscribers) :
    Entered (closeLink c j order).client (closeLink c j order).parties := by
  have hdown : (migrationStart c.client j).links.map seats = c.client.links.map seats :=
    map_seats_modify fun _ => rfl
  obtain ⟨m, moved, hm, heq⟩ := closeLink_induction (P := fun m => Entered m.client m.parties)
    h.apart hoffer (h.congr hdown (Nat.le_refl _)) fun _ _ h => h.move
  rw [heq]
  refine ⟨hm.apart.erase _, fun j' k n htaken => ?_⟩
  obtain ⟨t, ht, rfl, rfl⟩ := htaken
  rw [length_postAll]
  exact hm.connected j' t.slotId t.sink ⟨t, ((seated_erase _).mp ht).1, rfl, rfl⟩

theorem Tracked.closeLink {j : Nat} {order : List (Nat × Subscriber)} (h : Tracked c n p)
    (hp : c.parties[n]? = some p) (hapart : SlotsApart c.client)
    (hoffer : ∃ l, c.client.links[j]? = some l ∧ order.Perm l.subscribers)
    (hp' : (Proxy.closeLink c j order).parties[n]? = some p') :
    Tracked (Proxy.closeLink c j order) n p' := by
  have hdown : (migrationStart c.client j).links.map seats = c.client.links.map seats :=
    map_seats_modify fun _ => rfl
  have hstart : TrackedUnderway j n ⟨migrationStart c.client j, [], c.parties⟩ := by
    refine ⟨fun q hq hopen j' k htaken _ => ?_, fun q hq => ?_⟩
    · obtain rfl := Option.some.inj (hp.symm.trans hq)
      exact h.known hopen j' k ((taken_congr hdown).mp htaken)
    · obtain rfl := Option.some.inj (hp.symm.trans hq)
      exact h.calm
  obtain ⟨m, moved, hm, heq⟩ := closeLink_induction hapart hoffer hstart fun _ _ h => h.move
  rw [heq] at hp' ⊢
  dsimp only at hp'
  rw [getElem?_postAll] at hp'
  obtain ⟨q, hq, rfl⟩ := Option.map_eq_some_iff.mp hp'
  have herased : Tracked { c with
      client := modifyLink m.client j (eraseSlots m.ids), parties := m.parties } n q := by
    refine ⟨fun hopen j' k htaken => ?_, hm.calm q hq⟩
    obtain ⟨t, ht, rfl, hsink⟩ := htaken
    obtain ⟨ht, hnot⟩ := (seated_erase _).mp ht
    exact hm.known q hq hopen j' t.slotId ⟨t, ht, rfl, hsink⟩ hnot
  refine herased.post ?_ fun ev hev => ?_
  · rfl
  · obtain ⟨o, -, hsome⟩ := List.mem_filterMap.mp (mem_callsOf.mp hev)
    split at hsome
    · cases hsome
      rfl
    · cases hsome

theorem apart_attach (h : SlotsApart c.client) (sink : Nat) :
    SlotsApart (attach c.client sink).1 := by
  rcases attach_cases c.client sink with
    ⟨primary, j, l, next, cand, ha, heq⟩ | ⟨primary, c', heq, hpassed⟩
  · have hprimary : SlotsApart { c.client with primary } := h
    rw [heq]
    exact hprimary.allocate ha
  · have hprimary : SlotsApart { c.client with primary } := h
    rw [heq]
    exact hprimary.congr hpassed.seats

theorem apart_handled (h : SlotsApart c.client) (hs : Handled env c n p i client p') :
    SlotsApart client := by
  have hafter (q : Party) (next : Next) : SlotsApart (clientAfter c.client q next) := by
    unfold clientAfter
    split
    · split
      · exact h
      · exact h.erase _
    · exact h
  cases hs with
  | attachV1 | attachSv2 => exact apart_attach h n
  | deliverV1 | close => exact hafter _ _
  | _ => exact h

theorem Entered.handled (h : Entered c.client c.parties) (hn : n < c.parties.length)
    (hs : Handled env c n p i client p') : Entered client c.parties where
  apart := apart_handled h.apart hs
  connected j k m htaken := by
    rcases taken_handled hs htaken with htaken | hclient
    · exact h.connected j k m htaken
    · rw [hclient] at htaken
      rcases taken_attach htaken with htaken | ⟨rfl, -⟩
      · exact h.connected j k m htaken
      · exact hn

/-! ## Steps -/

/-- What holds of all sessions that attach once: the V1 ones, and where it is
asked for, the relay ones. -/
structure Ledger (relays : Prop) (c : State) : Prop where
  entered : Entered c.client c.parties
  tracked : ∀ (n : Nat) p, c.parties[n]? = some p → (∃ s, p.miner = .v1 s) ∨ relays → Tracked c n p

theorem kind_afterNext {next : Next} (h : ∃ s, (afterNext client p next).miner = .v1 s) :
    ∃ s, p.miner = .v1 s := by
  cases next with
  | done | detach => exact h
  | attach =>
    obtain ⟨s, hs⟩ := h
    rcases miner_startAttach client p with heq | ⟨s', hm, -⟩
    · exact ⟨s, heq.symm.trans hs⟩
    · exact ⟨s', hm⟩

theorem kind_handled (hs : Handled env c n p i client p') (h : ∃ s, p'.miner = .v1 s) :
    ∃ s, p.miner = .v1 s := by
  cases hs with
  | requestV1 hm | deliverV1 hm | attachV1 _ hm | fetchV1 _ hm => exact ⟨_, hm⟩
  | requestSv2 | deliverSv2 =>
    obtain ⟨s, hs⟩ := kind_afterNext h
    exact Miner.noConfusion hs
  | dropped | registered => exact h
  | close =>
    obtain ⟨s, hs⟩ := h
    cases hm : p.miner with
    | v1 t => exact ⟨t, rfl⟩
    | sv2 t =>
      rw [hm] at hs
      exact Miner.noConfusion hs
  | attachSv2 | fetchSv2 =>
    obtain ⟨s, hs⟩ := h
    exact Miner.noConfusion hs

/-- A step whose calls move nobody. -/
theorem Ledger.posts {relays : Prop} (h : Ledger relays c)
    (hseats : c'.client.links.map seats = c.client.links.map seats) (calls : List (Nat × SinkEvent))
    (hcalls : ∀ call ∈ calls, isRebind call.2 = false)
    (hparties : c'.parties = postAll c.parties calls) : Ledger relays c' where
  entered := by
    rw [hparties]
    exact h.entered.congr hseats (length_postAll calls).ge
  tracked n q hq hwho := by
    rw [hparties, getElem?_postAll] at hq
    obtain ⟨p, hp, rfl⟩ := Option.map_eq_some_iff.mp hq
    exact (h.tracked n p hp hwho).post hseats fun ev hev => hcalls _ (mem_callsOf.mp hev)

theorem Ledger.connect {relays : Prop} (h : Ledger relays c) (hclient : c'.client = c.client)
    {m : Miner} (hfree : m.attached = false)
    (hparties : c'.parties = c.parties ++ [{ miner := m }]) : Ledger relays c' where
  entered := by
    rw [hparties]
    exact h.entered.congr (by rw [hclient]) (by simp)
  tracked n q hq hwho := by
    rw [hparties] at hq
    rcases Nat.lt_or_ge n c.parties.length with hn | hn
    · rw [List.getElem?_append_left hn] at hq
      obtain ⟨hknown, hcalm⟩ := h.tracked n q hq hwho
      exact ⟨hclient ▸ hknown, hcalm⟩
    · rw [List.getElem?_append_right hn] at hq
      obtain rfl := List.mem_singleton.mp (List.mem_of_getElem? hq)
      refine ⟨fun _ j k htaken => ?_, ⟨fun _ _ ev hev => (nomatch hev), fun hbusy => absurd rfl hbusy,
        fun hphase => Phase.noConfusion hphase, fun s hs hatt => ?_⟩⟩
      · rw [hclient] at htaken
        exact absurd (h.entered.connected j k n htaken) (by omega)
      · exact absurd (hfree.symm.trans ((congrArg Miner.attached hs).trans hatt)) Bool.false_ne_true

/-- **A step keeps the ledger.** -/
theorem Ledger.react {relays : Prop} (h : Ledger relays c) (hoffer : Offered c i)
    (hok : relays → Single c i) (hs : react env c i = some c') : Ledger relays c' := by
  have hstill (hseats : c'.client.links.map seats = c.client.links.map seats)
      (hparties : c'.parties = c.parties) : Ledger relays c' :=
    h.posts hseats [] (fun _ h => nomatch h) hparties
  cases i with
  | connectLink j | connOpen j | subscribeResult j =>
    exact hstill (seats_clientStep hs trivial).1 (parties_clientStep hs)
  | connClose j order =>
    cases hs
    refine ⟨h.entered.closeLink hoffer.2, fun n q hq hwho => ?_⟩
    obtain ⟨p, hp, hstep⟩ := @posted_closeLink env c n (.connClose j order) q j order hoffer hq
    have hwho' : (∃ s, p.miner = .v1 s) ∨ relays := by
      refine hwho.imp_left fun hv1 => ?_
      cases hstep with
      | posted => exact hv1
      | handled hs => exact kind_handled hs hv1
    exact (h.tracked n p hp hwho').closeLink hp h.entered.apart hoffer.2 hq
  | authorizeResult j =>
    rw [Proxy.react] at hs
    obtain ⟨c₁, hc₁, rfl⟩ := Option.map_eq_some_iff.mp hs
    refine h.posts (seats_clientStep hc₁ trivial).1 _ (fun call hcall => ?_)
      (congrArg (postAll · _) (parties_clientStep hc₁))
    obtain ⟨_, -, rfl⟩ := List.mem_map.mp hcall
    rfl
  | setExtranonce j =>
    rw [Proxy.react] at hs
    obtain ⟨c₁, hc₁, rfl⟩ := Option.map_eq_some_iff.mp hs
    refine h.posts (seats_clientStep hc₁ trivial).1 _ (fun call hcall => ?_)
      (congrArg (postAll · _) (parties_clientStep hc₁))
    unfold reissues at hcall
    split at hcall
    · cases hcall
    · obtain ⟨_, -, rfl⟩ := List.mem_map.mp hcall
      rfl
  | setDifficulty j diff =>
    rw [Proxy.react] at hs
    split at hs
    · cases hs
      exact h
    · cases hs
      refine h.posts rfl _ (fun call hcall => ?_) rfl
      obtain ⟨_, -, rfl⟩ := List.mem_map.mp hcall
      rfl
  | notify j job =>
    cases hs
    exact hstill rfl rfl
  | handOn =>
    rw [Proxy.react] at hs
    split at hs
    · cases hs
      exact h
    · cases hs
      refine h.posts rfl _ (fun call hcall => ?_) rfl
      obtain ⟨_, -, rfl⟩ := List.mem_map.mp hcall
      rfl
  | connectV1 | connectSv2 =>
    cases hs
    exact h.connect rfl rfl rfl
  | requestV1 m | requestSv2 m | advance m | deliver m | close m =>
    rcases serves_cases hoffer hs rfl with rfl | ⟨p, p', hserves⟩
    · exact h
    · have hn : m < c.parties.length := (List.getElem?_eq_some_iff.mp hserves.party).1
      refine ⟨?_, fun n q hq hwho => ?_⟩
      · have hentered := h.entered.handled hn hserves.handled
        rw [hserves.parties]
        exact ⟨hentered.apart, fun j k n htaken => by
          rw [List.length_set]
          exact hentered.connected j k n htaken⟩
      · rw [hserves.parties] at hq
        by_cases hmn : m = n
        · subst hmn
          rw [List.getElem?_set_self hn] at hq
          obtain rfl := Option.some.inj hq
          have hwho' := hwho.imp_left (kind_handled hserves.handled)
          exact (h.tracked m p hserves.party hwho').handled hserves.party (hwho'.imp_right hok)
            hserves.handled
        · rw [List.getElem?_set_ne hmn] at hq
          exact (h.tracked n q hq hwho).other hmn hserves.handled
  | destroy m =>
    cases hs
    exact hstill rfl rfl

end

theorem Ledger.initial (relays : Prop) (n : UInt8) (activeActive : Bool) (weights : List Nat) :
    Ledger relays (initial n activeActive weights) where
  entered := by
    refine ⟨fun l hl => ?_, fun j k m htaken => ?_⟩
    · obtain ⟨w, -, rfl⟩ := List.mem_map.mp hl
      exact List.nodup_nil
    · obtain ⟨t, ⟨l, hl, ht⟩, -⟩ := htaken
      obtain ⟨w, -, rfl⟩ := List.mem_map.mp (List.mem_of_getElem? hl)
      cases ht
  tracked _ _ hp := nomatch hp

end MkPool.Tracking
