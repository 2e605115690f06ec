import MkPool.Tracking

/-! # The calls that wait for a session

The jobs among the calls on a strand were issued by the link whose slot the
session will have when it gets them. -/
namespace MkPool.Supply
open MkPool.Lib MkPool.Lib.Mailbox MkPool.Utils MkPool.Coinbase
open MkPool.UpstreamClient hiding Input react Offered Run
open MkPool.UpstreamSource MkPool.Proxy MkPool.Bindings MkPool.Migration MkPool.Placement
open MkPool.PartySteps MkPool.Tracking

/-! ## Calls -/

/-- What is issued by the link of a call, where the call comes to a slot. -/
def CallIssued (issued : List (Nat × ProxyNotify)) (slot : HeldSlot) : SinkEvent → Prop
  | .job job => ∃ i, slot.linkId = some i ∧ (i, job) ∈ issued
  | .rebind slot (some job) _ => (slot.linkId, job) ∈ issued
  | _ => True

section
variable {issued issued' : List (Nat × ProxyNotify)} {evs : List SinkEvent} {ev : SinkEvent}

theorem suited_noRebind {slot : HeldSlot} (hmoves : NoRebind evs)
    (h : ∀ ev ∈ evs, CallIssued issued slot ev) :
    Suited applyCall (CallIssued issued) slot evs := by
  induction evs generalizing slot with
  | nil => trivial
  | cons ev evs ih =>
    have hlink : (applyCall slot ev).linkId = slot.linkId := by
      have hev := hmoves ev (List.mem_cons_self ..)
      cases ev with
      | rebind => cases hev
      | _ => rfl
    refine ⟨h ev (List.mem_cons_self ..), ih (fun e he => hmoves e (List.mem_cons_of_mem ev he)) ?_⟩
    intro e he
    have hissued := h e (List.mem_cons_of_mem ev he)
    cases e with
    | job job =>
      obtain ⟨i, hi, hjob⟩ := hissued
      exact ⟨i, hlink.trans hi, hjob⟩
    | rebind => cases hmoves _ (List.mem_cons_of_mem ev he)
    | _ => trivial

theorem suited_always {slot : HeldSlot} (h : ∀ ev ∈ evs, ∀ slot, CallIssued issued slot ev) :
    Suited applyCall (CallIssued issued) slot evs := by
  induction evs generalizing slot with
  | nil => trivial
  | cons ev evs ih =>
    exact ⟨h ev (List.mem_cons_self ..) slot, ih fun e he => h e (List.mem_cons_of_mem ev he)⟩

theorem CallIssued.mono (hless : ∀ x ∈ issued, x ∈ issued') (slot : HeldSlot) (ev : SinkEvent)
    (h : CallIssued issued slot ev) : CallIssued issued' slot ev := by
  cases ev with
  | job job =>
    obtain ⟨i, hi, hjob⟩ := h
    exact ⟨i, hi, hless _ hjob⟩
  | rebind slot job =>
    cases job with
    | none => trivial
    | some job => exact hless _ h
  | _ => trivial

end

/-! ## Sessions -/

/-- What waits for a session. -/
structure Waiting (issued : List (Nat × ProxyNotify)) (p : Party) : Prop where
  suited : Suited applyCall (CallIssued issued) p.miner.slot p.mailbox
  quiet : p.miner.attached = false → ∀ ev ∈ p.mailbox, ∃ up, ev = .state up

section
variable {env : Env} {c c' : State} {n m : Nat} {i : Input} {p p' : Party} {client : Client}
  {issued : List (Nat × ProxyNotify)} {ev : SinkEvent} {mailbox evs : List SinkEvent}

theorem Waiting.mono (h : Waiting issued p) {issued' : List (Nat × ProxyNotify)}
    (hless : ∀ x ∈ issued, x ∈ issued') : Waiting issued' p :=
  ⟨h.suited.mono (CallIssued.mono hless), h.quiet⟩

theorem Waiting.same (h : Waiting issued p) (hsame : SameSlot p.miner p'.miner)
    (hbox : p'.mailbox = p.mailbox) : Waiting issued p' where
  suited := by
    rw [hsame.slot, hbox]
    exact h.suited
  quiet hfree := by
    rw [hbox]
    exact h.quiet (hsame.attached.symm.trans hfree)

theorem Waiting.next (h : Waiting issued p) (client : Client) (next : Next) :
    Waiting issued (afterNext client p next) :=
  h.same (sameSlot_afterNext client p next) (mailbox_afterNext client p next)

/-- The first call is delivered. -/
theorem Waiting.delivered (h : Waiting issued p) (hbox : p.mailbox = ev :: mailbox) {m : Miner}
    (hslot : m.slot = applyCall p.miner.slot ev) (hatt : m.attached = p.miner.attached) :
    Waiting issued { p with miner := m, mailbox } where
  suited := by
    have hsuited := h.suited
    rw [hbox] at hsuited
    show Suited applyCall _ m.slot mailbox
    rw [hslot]
    exact hsuited.2
  quiet hfree e he :=
    h.quiet (hatt.symm.trans hfree) e (hbox ▸ List.mem_cons_of_mem ev he)

/-- The session is bound to a slot. Only states are announced to one that is
not. -/
theorem Waiting.bound (h : Waiting issued p) (hfree : p.miner.attached = false) (m : Miner)
    (phase : Phase) : Waiting issued { p with miner := m, phase } where
  suited := by
    refine suited_always fun ev hev slot => ?_
    obtain ⟨up, rfl⟩ := h.quiet hfree ev hev
    trivial
  quiet _ := h.quiet hfree

/-- A handler goes through. -/
theorem Waiting.handled (h : p.miner.closed = false → Waiting issued p) (hcalm : Calm p)
    (hs : Handled env c n p i client p') (hopen' : p'.miner.closed = false) :
    Waiting issued p' := by
  cases hs with
  | @requestV1 s r hm hidle hopen =>
    have hsame : SameSlot p.miner (.v1 (requestV1 env s r).1) := by
      rw [hm]
      exact sameSlot_requestV1 env s r
    have hkept : Waiting issued { p with miner := .v1 (requestV1 env s r).1 } := by
      refine (h hopen).same hsame ?_
      rfl
    exact hkept.next ..
  | @requestSv2 s r hm hidle hopen =>
    have hsame : SameSlot p.miner (.sv2 (requestSv2 env s r).1) := by
      rw [hm]
      exact sameSlot_requestSv2 env s r
    have hkept : Waiting issued { p with miner := .sv2 (requestSv2 env s r).1 } := by
      refine (h hopen).same hsame ?_
      rfl
    exact hkept.next ..
  | dropped hclosed => exact absurd (hclosed.symm.trans hopen') (by simp)
  | @deliverV1 s ev mailbox hm hidle hopen hbox =>
    obtain ⟨hslot, hatt, -⟩ := slot_handleV1 s ev
    have hkept := hcalm.attached_delivered hopen (hbox ▸ List.mem_cons_self ..)
    rw [hm] at hkept
    refine Waiting.next ((h hopen).delivered hbox ?_ ?_) ..
    · rw [hm]
      exact hslot
    · rw [hm]
      exact hatt.trans hkept
  | @deliverSv2 s ev mailbox r hm hidle hopen hbox hr =>
    obtain ⟨hslot, hatt, -⟩ := slot_handleSv2 hr
    have hkept := hcalm.attached_delivered hopen (hbox ▸ List.mem_cons_self ..)
    rw [hm] at hkept
    refine Waiting.next ((h hopen).delivered hbox ?_ ?_) ..
    · rw [hm]
      exact hslot
    · rw [hm]
      exact hatt.trans hkept
  | close hidle hopen =>
    have hclosed : p.miner.close.closed = true := by cases p.miner <;> rfl
    exact absurd (hclosed.symm.trans hopen') (by simp)
  | registered hphase => exact (h hopen').same (.refl _) rfl
  | attachV1 hphase hm =>
    exact (h (hcalm.busy (by simp [hphase]))).bound (hcalm.attaching hphase) ..
  | attachSv2 hphase hm =>
    exact (h (hcalm.busy (by simp [hphase]))).bound (hcalm.attaching hphase) ..
  | @fetchV1 s hphase hm =>
    refine (h (hcalm.busy (by simp [hphase]))).same ?_ rfl
    rw [hm]
    exact sameSlot_jobReturned s _
  | @fetchSv2 s t hphase hm hjob =>
    refine (h (hcalm.busy (by simp [hphase]))).same ?_ rfl
    rw [hm]
    exact sameSlot_jobReturnedSv2 hjob

/-- Calls are posted to an open session whose entries are where it will be. -/
theorem Waiting.posted (h : Waiting c.issued p) (hstored : Stored c)
    (hknown : ∀ j k, Taken c.client j k n → place p = some (j, k))
    (hevs : ∀ ev ∈ evs, Posted c n ev)
    (hmoves : (∀ ev ∈ evs, isRebind ev = false) ∨ c.handingOn = none) :
    Waiting c.issued { p with mailbox := p.mailbox ++ evs } where
  suited := by
    refine h.suited.append ?_
    show Suited applyCall _ (view p) evs
    rcases hmoves with hmoves | hnone
    · refine suited_noRebind hmoves fun ev hev => ?_
      cases hevs ev hev with
      | @job j k job hjob hsink =>
        have hplace := hknown j k hsink
        unfold place at hplace
        split at hplace
        · obtain ⟨j', hj', heq⟩ := Option.map_eq_some_iff.mp hplace
          obtain ⟨rfl, -⟩ := Prod.mk.inj heq
          exact ⟨j', hj', hstored.handing j' job hjob⟩
        · cases hplace
      | rebind slot hsink => exact absurd (hmoves _ hev) (by simp [rebindTo, isRebind])
      | _ => trivial
    · refine suited_always fun ev hev slot => ?_
      cases hevs ev hev with
      | job hjob =>
        rw [hnone] at hjob
        cases hjob
      | rebind slot' hsink =>
        show CallIssued c.issued slot (.rebind slot' (c.jobs slot'.linkId) _)
        cases hjob : c.jobs slot'.linkId with
        | none => trivial
        | some job => exact hstored.jobs _ job hjob
      | _ => trivial
  quiet hfree ev hev := by
    rcases List.mem_append.mp hev with hev | hev
    · exact h.quiet hfree ev hev
    · have hnowhere {j k : Nat} (hsink : Taken c.client j k n) : False := by
        have hplace := hknown j k hsink
        have hunplaced : place p = none := place_unattached hfree
        rw [hunplaced] at hplace
        cases hplace
      cases hevs ev hev with
      | state up => exact ⟨up, rfl⟩
      | job _ hsink | diff hsink | extranonce hsink | rebind _ hsink =>
        exact (hnowhere hsink).elim

/-! ## Steps -/

/-- What is kept of all sessions that attach once. -/
structure Supplied (relays : Prop) (c : State) : Prop where
  stored : Stored c
  ledger : Ledger relays c
  waiting : ∀ (n : Nat) p, c.parties[n]? = some p → (∃ s, p.miner = .v1 s) ∨ relays →
    p.miner.closed = false → Waiting c.issued p

theorem Supplied.react {relays : Prop} (h : Supplied relays c) (hoffer : Offered c i)
    (hok : relays → Single c i) (hs : react env c i = some c') : Supplied relays c' := by
  refine ⟨h.stored.react hs, h.ledger.react hoffer hok hs, fun n q hq hwho hopen => ?_⟩
  have hfresh {m : Miner} (hm : q = { miner := m }) : Waiting c'.issued q := by
    rw [hm]
    exact ⟨trivial, fun _ _ hev => nomatch hev⟩
  rcases party_cases hoffer hs hq with ⟨p, hp, hstep⟩ | hq' | hq'
  · refine Waiting.mono ?_ (issued_mono hs)
    cases hstep with
    | posted evs hevs hmoves =>
      exact (h.waiting n p hp hwho hopen).posted h.stored
        ((h.ledger.tracked n p hp hwho).known hopen) hevs hmoves
    | handled hs =>
      have hwho' := hwho.imp_left (kind_handled hs)
      exact Waiting.handled (h.waiting n p hp hwho') (h.ledger.tracked n p hp hwho').calm hs hopen
  · exact hfresh hq'
  · exact hfresh hq'

end

theorem Supplied.initial (relays : Prop) (n : UInt8) (activeActive : Bool) (weights : List Nat) :
    Supplied relays (initial n activeActive weights) where
  stored := stored_initial n activeActive weights
  ledger := .initial relays n activeActive weights
  waiting _ _ hp := nomatch hp

end MkPool.Supply
