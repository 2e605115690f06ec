import MkPool.Proxy
import MkPool.Slots

/-! # What a session's slot is, and will be

The client knows a session's slot once the calls on its strand are delivered. -/
namespace MkPool.Bindings
open MkPool.Lib MkPool.Lib.Mailbox MkPool.Utils MkPool.Coinbase MkPool.Sv2Messages
open MkPool.UpstreamClient MkPool.UpstreamSource MkPool.Proxy

/-! ## The slot a session settles in -/

/-- What a call does to the slot of the session. -/
def applyCall (slot : HeldSlot) : SinkEvent → HeldSlot
  | .extranonce en1Hex en2Size => slot.withExtranonce en1Hex en2Size
  | .rebind slot _ _ => .of slot
  | _ => slot

/-- The slot once all calls are delivered. -/
def view (p : Party) : HeldSlot := settled applyCall p.miner.slot p.mailbox

/-- The session is bound to a slot, and open. -/
def bound (p : Party) : Bool := p.miner.attached && !p.miner.closed

def isRebind : SinkEvent → Bool
  | .rebind .. => true
  | _ => false

/-- What a session knows of its slot. -/
structure SameSlot (m m' : Miner) : Prop where
  slot : m'.slot = m.slot
  attached : m'.attached = m.attached
  closed : m'.closed = m.closed

theorem SameSlot.refl (m : Miner) : SameSlot m m := ⟨rfl, rfl, rfl⟩

theorem SameSlot.trans {m m' m'' : Miner} (h : SameSlot m m') (h' : SameSlot m' m'') :
    SameSlot m m'' :=
  ⟨h'.slot.trans h.slot, h'.attached.trans h.attached, h'.closed.trans h.closed⟩

/-! ### V1 sessions -/

section V1
variable {s : ProxySession.Session} {env : Env}

theorem sameSlot_emit (s : ProxySession.Session) (force : Bool) :
    SameSlot (.v1 s) (.v1 (ProxySession.emitCurrentJob s force)) := by
  unfold ProxySession.emitCurrentJob
  split <;> exact ⟨rfl, rfl, rfl⟩

theorem sameSlot_remember (s : ProxySession.Session) (job : ProxyNotify) :
    SameSlot (.v1 s) (.v1 (ProxySession.rememberJob s job)) := by
  unfold ProxySession.rememberJob
  split <;> exact ⟨rfl, rfl, rfl⟩

theorem sameSlot_jobReturned (s : ProxySession.Session) (job : Option ProxyNotify) :
    SameSlot (.v1 s) (.v1 (ProxySession.jobReturned s job)) := by
  cases job with
  | none => exact ⟨rfl, rfl, rfl⟩
  | some job =>
    have h := sameSlot_remember { s with curJob := some job } job
    exact ⟨h.slot, h.attached, h.closed⟩

/-- A submit is answered by one line. -/
theorem handleSubmit_sends (env : Env) (s : ProxySession.Session)
    (params : Option (List JsonValue.Json)) (now : UInt32) :
    ∃ line, (ProxySession.handleSubmit env s params now).1 = s.send line ∧
      (line = .result ∨ ∃ code reason, line = .error code reason) := by
  have hreject (code : Nat) (reason : Str) :
      ∃ line, ProxySession.reject s code reason = s.send line ∧
        (line = .result ∨ ∃ code reason, line = .error code reason) :=
    ⟨_, rfl, .inr ⟨code, reason, rfl⟩⟩
  unfold ProxySession.handleSubmit
  split
  · exact hreject ..
  · split
    · exact hreject ..
    · split
      · exact hreject ..
      · split
        · exact hreject ..
        · unfold ProxySession.submitOnJob
          split
          · exact hreject ..
          · split
            · exact hreject ..
            · split
              · exact hreject ..
              · split
                · exact hreject ..
                · unfold ProxySession.scoreShare
                  dsimp only
                  split
                  · exact hreject ..
                  · exact ⟨.result, rfl, .inl rfl⟩

theorem sameSlot_requestV1 (env : Env) (s : ProxySession.Session) (r : RequestV1) :
    SameSlot (.v1 s) (.v1 (requestV1 env s r).1) := by
  cases r with
  | configure params => exact ⟨rfl, rfl, rfl⟩
  | subscribe =>
    unfold requestV1
    dsimp only
    split <;> exact ⟨rfl, rfl, rfl⟩
  | authorize =>
    unfold requestV1 ProxySession.handleAuthorize
    dsimp only
    split
    · have h := sameSlot_emit { s.send .result with authorized := true } true
      exact ⟨h.slot, h.attached, h.closed⟩
    · exact ⟨rfl, rfl, rfl⟩
  | extranonceSubscribe => exact ⟨rfl, rfl, rfl⟩
  | submit params now =>
    obtain ⟨line, hline, -⟩ := handleSubmit_sends env s params now
    unfold requestV1
    dsimp only
    rw [hline]
    exact ⟨rfl, rfl, rfl⟩

theorem slot_onRebind (s : ProxySession.Session) (slot : ProxySlot) (job : Option ProxyNotify)
    (diff : ℚ) :
    (ProxySession.onRebind s slot job diff).slot = .of slot ∧
      (ProxySession.onRebind s slot job diff).attached = true ∧
      (ProxySession.onRebind s slot job diff).closed = (s.closed || !s.extranonceSubscribed) := by
  unfold ProxySession.onRebind
  dsimp only
  split
  · rename_i hsub
    cases job with
    | none => exact ⟨rfl, rfl, by simp [hsub, ProxySession.sendSetDifficulty,
        ProxySession.Session.send]⟩
    | some job =>
      have hemit (t : ProxySession.Session) :
          SameSlot (.v1 t) (.v1 (ProxySession.emitCurrentJob (ProxySession.rememberJob t job) true)) :=
        (sameSlot_remember t job).trans (sameSlot_emit _ true)
      refine ⟨(hemit _).slot, (hemit _).attached, (hemit _).closed.trans ?_⟩
      simp [hsub, Miner.closed, ProxySession.sendSetDifficulty, ProxySession.Session.send]
  · rename_i hsub
    exact ⟨rfl, rfl, by simp [hsub]⟩

/-- A call to a V1 session does to its slot what the client expects. -/
theorem slot_handleV1 (s : ProxySession.Session) (ev : SinkEvent) :
    (handleV1 s ev).1.slot = applyCall s.slot ev ∧
      (handleV1 s ev).1.attached = (s.attached || isRebind ev) ∧
      (handleV1 s ev).1.closed = (s.closed || (isRebind ev && !s.extranonceSubscribed)) := by
  cases ev with
  | job job =>
    unfold handleV1 ProxySession.onUpstreamJob
    have hkeep := sameSlot_remember { s with curJob := some job } job
    dsimp only
    split
    · have hemit := hkeep.trans (sameSlot_emit _ false)
      exact ⟨hemit.slot, hemit.attached.trans (Bool.or_false _).symm,
        hemit.closed.trans (Bool.or_false _).symm⟩
    · exact ⟨hkeep.slot, hkeep.attached.trans (Bool.or_false _).symm,
        hkeep.closed.trans (Bool.or_false _).symm⟩
  | diff diff =>
    unfold handleV1 ProxySession.onUpstreamDiff
    dsimp only
    split <;>
      exact ⟨rfl, by simp [isRebind, ProxySession.sendSetDifficulty, ProxySession.Session.send],
        by simp [isRebind, ProxySession.sendSetDifficulty, ProxySession.Session.send]⟩
  | extranonce en1Hex en2Size =>
    unfold handleV1 ProxySession.onUpstreamExtranonce
    dsimp only
    split
    · have hemit := sameSlot_emit (({ s with slot := s.slot.withExtranonce en1Hex en2Size } :
        ProxySession.Session).send (.setExtranonce en1Hex en2Size)) true
      exact ⟨hemit.slot, hemit.attached.trans (Bool.or_false _).symm,
        hemit.closed.trans (Bool.or_false _).symm⟩
    · exact ⟨rfl, by simp [isRebind], by simp [isRebind]⟩
  | state up =>
    unfold handleV1
    dsimp only
    split
    · split <;>
        exact ⟨rfl, by simp [isRebind, ProxySession.sendSubscribeReply, ProxySession.Session.send],
          by simp [isRebind, ProxySession.sendSubscribeReply, ProxySession.Session.send]⟩
    · exact ⟨rfl, by simp [isRebind], by simp [isRebind]⟩
  | rebind slot job diff =>
    obtain ⟨hslot, hatt, hclosed⟩ := slot_onRebind s slot job diff
    exact ⟨hslot, by simp [handleV1, hatt, isRebind], by simp [handleV1, hclosed, isRebind]⟩

end V1

/-! ### SV2 sessions -/

section SV2
variable {s s' : RelaySession.Session} {env : Env}

/-- The session that emits a job: the counter is moved on. -/
def counted (s : RelaySession.Session) : RelaySession.Session :=
  { s with en2Counter := s.en2Counter + 1 }

/-- What becomes of a job: the channel is not open, an exception is thrown, or
the messages are sent. -/
inductive Emits (env : Env) (s : RelaySession.Session) (job : ProxyNotify) :
    RelaySession.Session → Prop where
  | unopened (hopen : s.channelOpen = false) : Emits env s job s
  | thrown {fixed : Str} (hopen : s.channelOpen = true)
    (hfixed : RelaySession.currentFixedEn2 (counted s) = some fixed)
    (hroot : (RelaySession.rootWith env.hashes job (s.slot.en1Hex ++ fixed)).bind hexToBytes =
      none) :
    Emits env s job (counted s)
  | sent {fixed : Str} {mroot : Bytes} (hopen : s.channelOpen = true)
    (hfixed : RelaySession.currentFixedEn2 (counted s) = some fixed)
    (hroot : (RelaySession.rootWith env.hashes job (s.slot.en1Hex ++ fixed)).bind hexToBytes =
      some mroot) :
    Emits env s job
      { RelaySession.withJob (counted s) ⟨job, fixed, s.slot⟩ with
        sent :=
          ((RelaySession.setNewPrevHash (counted s) job).toList.map fun msg =>
            .reply (.setNewPrevHash msg)) ++
            .newMiningJob (RelaySession.newMiningJob (counted s) job mroot) ⟨job, fixed, s.slot⟩ ::
              s.sent }

theorem emits_of_emitJob {job : ProxyNotify} (h : RelaySession.emitJob env s job = some s') :
    Emits env s job s' := by
  unfold RelaySession.emitJob at h
  split at h
  · rename_i hnot
    cases h
    exact .unopened (by simpa using hnot)
  · rename_i hnot
    have hopen : s.channelOpen = true := by simpa using hnot
    obtain ⟨fixed, hfixed, h⟩ := Option.bind_eq_some_iff.mp h
    split at h
    · rename_i hroot
      cases h
      exact .thrown hopen hfixed hroot
    · rename_i mroot hroot
      have hsent := Emits.sent hopen hfixed hroot
      unfold counted at hsent
      split at h <;> rename_i hprev <;> cases h <;> rw [hprev] at hsent <;> exact hsent

theorem sameSlot_emitJob {job : ProxyNotify} (h : RelaySession.emitJob env s job = some s') :
    SameSlot (.sv2 s) (.sv2 s') := by
  cases emits_of_emitJob h <;> exact ⟨rfl, rfl, rfl⟩

theorem sameSlot_jobReturnedSv2 {job : Option ProxyNotify}
    (h : RelaySession.jobReturned env s job = some s') : SameSlot (.sv2 s) (.sv2 s') := by
  unfold RelaySession.jobReturned at h
  cases job with
  | none =>
    cases h
    exact ⟨rfl, rfl, rfl⟩
  | some job =>
    have hemit := sameSlot_emitJob h
    exact ⟨hemit.slot, hemit.attached, hemit.closed⟩

/-- A submit sends a message, or nothing. -/
theorem handleSubmitShares_sends (env : Env) (s : RelaySession.Session)
    (msg : SubmitSharesStandard) (now : UInt32) :
    (RelaySession.handleSubmitShares env s msg now).1 = s ∨
      (∃ code, (RelaySession.handleSubmitShares env s msg now).1 = RelaySession.reject s msg code) ∨
      ∃ sum, (RelaySession.handleSubmitShares env s msg now).1 =
        s.send (.submitSharesSuccess s.channelId msg.sequenceNumber 1 sum) := by
  unfold RelaySession.handleSubmitShares
  split
  · exact .inr (.inl ⟨_, rfl⟩)
  · split
    · exact .inr (.inl ⟨_, rfl⟩)
    · unfold RelaySession.submitOnJob
      split
      · exact .inr (.inl ⟨_, rfl⟩)
      · split
        · exact .inl rfl
        · dsimp only
          split
          · exact .inr (.inl ⟨_, rfl⟩)
          · exact .inr (.inr ⟨_, rfl⟩)

theorem sameSlot_requestSv2 (env : Env) (s : RelaySession.Session) (r : RequestSv2) :
    SameSlot (.sv2 s) (.sv2 (requestSv2 env s r).1) := by
  cases r with
  | setupConnection => exact ⟨rfl, rfl, rfl⟩
  | openStandardChannel requestId => exact ⟨rfl, rfl, rfl⟩
  | submitShares msg now =>
    unfold requestSv2
    dsimp only
    rcases handleSubmitShares_sends env s msg now with h | ⟨code, h⟩ | ⟨sum, h⟩ <;> rw [h] <;>
      exact ⟨rfl, rfl, rfl⟩

theorem sameSlot_sendSetTarget (s : RelaySession.Session) (diff : ℚ) :
    SameSlot (.sv2 s) (.sv2 (RelaySession.sendSetTarget s diff)) := by
  unfold RelaySession.sendSetTarget
  split <;> exact ⟨rfl, rfl, rfl⟩

/-- A call to an SV2 session does to its slot what the client expects. -/
theorem slot_handleSv2 {ev : SinkEvent} {r : RelaySession.Session × Next}
    (h : handleSv2 env s ev = some r) :
    r.1.slot = applyCall s.slot ev ∧ r.1.attached = (s.attached || isRebind ev) ∧
      r.1.closed = s.closed := by
  cases ev with
  | job job =>
    obtain ⟨s', hs', rfl⟩ := Option.map_eq_some_iff.mp h
    unfold RelaySession.onUpstreamJob at hs'
    dsimp only at hs'
    split at hs'
    · have hemit := sameSlot_emitJob hs'
      exact ⟨hemit.slot, hemit.attached.trans (Bool.or_false _).symm, hemit.closed⟩
    · cases hs'
      exact ⟨rfl, by simp [isRebind], rfl⟩
  | diff diff =>
    cases h
    have hsame := sameSlot_sendSetTarget
      { s with targetDiff := if 0 < diff then diff else s.targetDiff }
      (if 0 < diff then diff else s.targetDiff)
    exact ⟨hsame.slot, hsame.attached.trans (Bool.or_false _).symm, hsame.closed⟩
  | extranonce en1Hex en2Size =>
    obtain ⟨s', hs', rfl⟩ := Option.map_eq_some_iff.mp h
    unfold RelaySession.onUpstreamExtranonce at hs'
    dsimp only at hs'
    split at hs'
    · split at hs'
      · have hemit := sameSlot_emitJob hs'
        exact ⟨hemit.slot, hemit.attached.trans (Bool.or_false _).symm, hemit.closed⟩
      · cases hs'
        exact ⟨rfl, by simp [isRebind], rfl⟩
    · cases hs'
      exact ⟨rfl, by simp [isRebind], rfl⟩
  | state up =>
    cases h
    exact ⟨rfl, by simp [isRebind], rfl⟩
  | rebind slot job diff =>
    obtain ⟨s', hs', rfl⟩ := Option.map_eq_some_iff.mp h
    unfold RelaySession.onRebind at hs'
    dsimp only at hs'
    have htarget := sameSlot_sendSetTarget
      { s with
        slot := .of slot, attached := true
        targetDiff := if 0 < diff then diff else s.targetDiff }
      (if 0 < diff then diff else s.targetDiff)
    cases job with
    | none =>
      cases hs'
      exact ⟨htarget.slot, htarget.attached.trans (Bool.or_true _).symm, htarget.closed⟩
    | some job =>
      have hemit := sameSlot_emitJob hs'
      refine ⟨hemit.slot.trans htarget.slot, ?_, hemit.closed.trans htarget.closed⟩
      exact (hemit.attached.trans htarget.attached).trans (Bool.or_true _).symm

end SV2

/-! ## The slots of the client -/

/-- A slot that is entered for a sink. -/
structure Seat where
  slotId : Nat
  sink : Nat
  slotHex : Str

def seatOf (e : Nat × Subscriber) : Seat := ⟨e.1, e.2.sink, e.2.slotHex⟩

def seats (l : Link) : List Seat := l.subscribers.map seatOf

/-- The seat is one of link `i`. -/
def Seated (c : Client) (i : Nat) (t : Seat) : Prop := ∃ l, c.links[i]? = some l ∧ t ∈ seats l

/-- Slot `k` of link `i` is entered for sink `n`. -/
def Taken (c : Client) (i k n : Nat) : Prop := ∃ t, Seated c i t ∧ t.slotId = k ∧ t.sink = n

/-- A link enters a slot once. -/
def SlotsApart (c : Client) : Prop := ∀ l ∈ c.links, ((seats l).map Seat.slotId).Nodup

section Tables
variable {c c' : Client} {i j : Nat} {t t' : Seat} {l : Link}

theorem seated_congr (h : c'.links.map seats = c.links.map seats) :
    Seated c' i t ↔ Seated c i t := by
  have hi := congrArg (·[i]?) h
  simp only [List.getElem?_map] at hi
  unfold Seated
  constructor
  · rintro ⟨l', hl', ht⟩
    rw [hl'] at hi
    obtain ⟨l, hl, hseats⟩ := Option.map_eq_some_iff.mp hi.symm
    exact ⟨l, hl, hseats ▸ ht⟩
  · rintro ⟨l, hl, ht⟩
    rw [hl] at hi
    obtain ⟨l', hl', hseats⟩ := Option.map_eq_some_iff.mp hi
    exact ⟨l', hl', hseats ▸ ht⟩

theorem SlotsApart.congr (h : SlotsApart c) (hseats : c'.links.map seats = c.links.map seats) :
    SlotsApart c' := by
  intro l' hl'
  have hmem : seats l' ∈ c.links.map seats := hseats ▸ List.mem_map_of_mem hl'
  obtain ⟨l, hl, heq⟩ := List.mem_map.mp hmem
  rw [← heq]
  exact h l hl

theorem Seated.unique (h : Seated c i t) (h' : Seated c i t') (hapart : SlotsApart c)
    (hid : t.slotId = t'.slotId) : t = t' := by
  obtain ⟨l, hl, ht⟩ := h
  obtain ⟨l', hl', ht'⟩ := h'
  obtain rfl := Option.some.inj (hl.symm.trans hl')
  exact List.inj_on_of_nodup_map (hapart l (List.mem_of_getElem? hl)) ht ht' hid

/-- The seats of a link are replaced. -/
theorem seated_set {l' : Link} (hl : c.links[j]? = some l) :
    Seated { c with links := c.links.set j l' } i t ↔
      if i = j then t ∈ seats l' else Seated c i t := by
  have hlt := (List.getElem?_eq_some_iff.mp hl).1
  unfold Seated
  by_cases hij : i = j
  · subst hij
    rw [if_pos rfl]
    dsimp only
    rw [List.getElem?_set_self hlt]
    constructor
    · rintro ⟨_, h, ht⟩
      obtain rfl := Option.some.inj h
      exact ht
    · exact fun ht => ⟨l', rfl, ht⟩
  · rw [if_neg hij]
    dsimp only
    rw [List.getElem?_set_ne (Ne.symm hij)]

theorem map_seats_set {l' : Link} (hl : c.links[j]? = some l) (hseats : seats l' = seats l) :
    (c.links.set j l').map seats = c.links.map seats := by
  obtain ⟨hlt, rfl⟩ := List.getElem?_eq_some_iff.mp hl
  rw [List.map_set, hseats]
  refine List.ext_getElem? fun k => ?_
  by_cases hk : j = k
  · subst hk
    rw [List.getElem?_set_self (by simpa using hlt), List.getElem?_map,
      List.getElem?_eq_getElem hlt]
    rfl
  · rw [List.getElem?_set_ne hk]

theorem map_seats_modify {f : Link → Link} (hf : ∀ l, seats (f l) = seats l) :
    (modifyLink c j f).links.map seats = c.links.map seats := by
  unfold modifyLink
  cases hl : c.links[j]? with
  | none => rfl
  | some l => exact map_seats_set hl (hf l)

theorem seats_erase (ids : List Nat) (l : Link) :
    seats (eraseSlots ids l) = (seats l).filter fun t => t.slotId ∉ ids := by
  unfold seats eraseSlots
  rw [List.filter_map]
  rfl

theorem seated_erase (ids : List Nat) :
    Seated (modifyLink c j (eraseSlots ids)) i t ↔
      Seated c i t ∧ ¬ (i = j ∧ t.slotId ∈ ids) := by
  unfold modifyLink
  cases hl : c.links[j]? with
  | none =>
    refine ⟨fun h => ⟨h, ?_⟩, And.left⟩
    rintro ⟨rfl, -⟩
    obtain ⟨l, hl', -⟩ := h
    rw [hl] at hl'
    cases hl'
  | some l =>
    rw [seated_set hl]
    by_cases hij : i = j
    · subst hij
      rw [if_pos rfl, seats_erase, List.mem_filter]
      constructor
      · rintro ⟨ht, hid⟩
        exact ⟨⟨l, hl, ht⟩, fun h => of_decide_eq_true hid h.2⟩
      · rintro ⟨⟨l', hl', ht⟩, hid⟩
        obtain rfl := Option.some.inj (hl.symm.trans hl')
        exact ⟨ht, decide_eq_true fun h => hid ⟨rfl, h⟩⟩
    · rw [if_neg hij]
      exact ⟨fun h => ⟨h, fun heq => hij heq.1⟩, And.left⟩

theorem SlotsApart.modify (h : SlotsApart c) {f : Link → Link}
    (hf : ∀ l, (seats (f l)).Sublist (seats l)) : SlotsApart (modifyLink c j f) := by
  unfold modifyLink
  cases hl : c.links[j]? with
  | none => exact h
  | some l =>
    intro l' hl'
    rcases List.mem_or_eq_of_mem_set hl' with hl' | rfl
    · exact h l' hl'
    · exact (h l (List.mem_of_getElem? hl)).sublist ((hf l).map _)

theorem SlotsApart.erase (h : SlotsApart c) (ids : List Nat) :
    SlotsApart (modifyLink c j (eraseSlots ids)) :=
  h.modify fun l => by
    rw [seats_erase]
    exact List.filter_sublist

/-! ### Allocation -/

/-- The client after an allocation. -/
def withSeat (c : Client) (j : Nat) (l : Link) (sink next cand : Nat) : Client :=
  { c with
    links := c.links.set j
      { l with nextSlot := next, subscribers := Slots.entry l sink cand :: l.subscribers } }

def newSeat (l : Link) (sink cand : Nat) : Seat := seatOf (Slots.entry l sink cand)

/-- An allocation that succeeds. -/
structure Allocates (c : Client) (j sink : Nat) (l : Link) (next cand : Nat) : Prop where
  link : c.links[j]? = some l
  ready : linkReady l = true
  free : cand ∉ (seats l).map Seat.slotId
  search : RoundRobin.search (· ∈ l.subscribers.map Prod.fst) l.slotSpan l.slotSpan l.nextSlot =
    (some cand, next)

theorem allocateOn_cases (l : Link) (j sink : Nat) :
    (∃ next cand, linkReady l = true ∧
      RoundRobin.search (· ∈ l.subscribers.map Prod.fst) l.slotSpan l.slotSpan l.nextSlot =
        (some cand, next) ∧
      allocateOn l j sink =
        ({ l with nextSlot := next, subscribers := Slots.entry l sink cand :: l.subscribers },
          some (Slots.slotOf l j cand))) ∨
    ∃ next, (l.nextSlot < l.slotSpan → next < l.slotSpan) ∧
      allocateOn l j sink = ({ l with nextSlot := next }, none) := by
  by_cases hready : linkReady l = true
  · unfold allocateOn
    rw [if_neg (by simp [hready])]
    dsimp only
    cases hs : RoundRobin.search (· ∈ l.subscribers.map Prod.fst) l.slotSpan l.slotSpan
      l.nextSlot with
    | mk found next =>
      cases found with
      | none =>
        refine .inr ⟨next, fun hlt => ?_, rfl⟩
        have hlast := @RoundRobin.search_next_lt (· ∈ l.subscribers.map Prod.fst) _ l.slotSpan
          l.slotSpan l.nextSlot hlt
        rwa [hs] at hlast
      | some cand => exact .inl ⟨next, cand, hready, rfl, rfl⟩
  · rw [Slots.allocateOn_not_ready hready]
    exact .inr ⟨l.nextSlot, id, rfl⟩

/-- What an allocation that finds no slot may change. -/
inductive Passed (c : Client) : Client → Prop where
  | same : Passed c c
  | next {j next : Nat} {l : Link} (hl : c.links[j]? = some l)
    (hnext : l.nextSlot < l.slotSpan → next < l.slotSpan) :
    Passed c { c with links := c.links.set j { l with nextSlot := next } }

/-- What an allocation does. -/
theorem allocateAt_cases (c : Client) (j sink : Nat) :
    (∃ l next cand, Allocates c j sink l next cand ∧
      allocateAt c j sink = (withSeat c j l sink next cand, some (Slots.slotOf l j cand))) ∨
    ∃ c', allocateAt c j sink = (c', none) ∧ Passed c c' := by
  unfold allocateAt
  cases hl : c.links[j]? with
  | none => exact .inr ⟨c, rfl, .same⟩
  | some l =>
    dsimp only
    rcases allocateOn_cases l j sink with ⟨next, cand, hready, hs, ha⟩ | ⟨next, hnext, ha⟩
    · have hfree := RoundRobin.search_free (congrArg Prod.fst hs)
      rw [ha]
      refine .inl ⟨l, next, cand, ⟨hl, hready, ?_, hs⟩, rfl⟩
      simpa [seats, seatOf] using hfree
    · rw [ha]
      exact .inr ⟨_, rfl, .next hl hnext⟩

theorem Allocates.seated {sink next cand : Nat} (h : Allocates c j sink l next cand) :
    Seated (withSeat c j l sink next cand) i t ↔
      Seated c i t ∨ i = j ∧ t = newSeat l sink cand := by
  unfold withSeat
  rw [seated_set h.link]
  by_cases hij : i = j
  · subst hij
    rw [if_pos rfl]
    show t ∈ newSeat l sink cand :: seats l ↔ _
    rw [List.mem_cons]
    constructor
    · rintro (ht | ht)
      · exact .inr ⟨rfl, ht⟩
      · exact .inl ⟨l, h.link, ht⟩
    · rintro (⟨l', hl', ht⟩ | ⟨-, ht⟩)
      · obtain rfl := Option.some.inj (h.link.symm.trans hl')
        exact .inr ht
      · exact .inl ht
  · rw [if_neg hij]
    exact ⟨.inl, fun ht => ht.resolve_right fun h => hij h.1⟩

theorem SlotsApart.allocate (hapart : SlotsApart c) {sink next cand : Nat}
    (h : Allocates c j sink l next cand) : SlotsApart (withSeat c j l sink next cand) := by
  intro l' hl'
  rcases List.mem_or_eq_of_mem_set hl' with hl' | rfl
  · exact hapart l' hl'
  · exact List.nodup_cons.mpr ⟨h.free, hapart l (List.mem_of_getElem? h.link)⟩

theorem map_seats_next {next : Nat} (hl : c.links[j]? = some l) :
    (c.links.set j { l with nextSlot := next }).map seats = c.links.map seats :=
  map_seats_set hl rfl

/-! ### What is entered -/

theorem taken_congr {k n : Nat} (h : c'.links.map seats = c.links.map seats) :
    Taken c' i k n ↔ Taken c i k n := by
  unfold Taken
  exact exists_congr fun t => and_congr_left' (seated_congr h)

theorem Taken.unique {k n m : Nat} (h : Taken c i k n) (h' : Taken c i k m)
    (hapart : SlotsApart c) : n = m := by
  obtain ⟨t, ht, hk, rfl⟩ := h
  obtain ⟨t', ht', hk', rfl⟩ := h'
  rw [ht.unique ht' hapart (hk.trans hk'.symm)]

theorem taken_allocate {client : Client} {k sink next cand m : Nat}
    (ha : Allocates client j sink l next cand) :
    Taken (withSeat client j l sink next cand) i k m ↔
      Taken client i k m ∨ i = j ∧ k = cand ∧ m = sink := by
  unfold Taken
  constructor
  · rintro ⟨t, ht, rfl, rfl⟩
    rcases ha.seated.mp ht with ht | ⟨hij, rfl⟩
    · exact .inl ⟨t, ht, rfl, rfl⟩
    · exact .inr ⟨hij, rfl, rfl⟩
  · rintro (⟨t, ht, hk, hm⟩ | ⟨rfl, rfl, rfl⟩)
    · exact ⟨t, ha.seated.mpr (.inl ht), hk, hm⟩
    · exact ⟨newSeat l m k, ha.seated.mpr (.inr ⟨rfl, rfl⟩), rfl, rfl⟩

theorem gone_modify {f : Link → Link} :
    (modifyLink c i f).gone = c.gone := by
  unfold modifyLink
  split <;> rfl

/-! ### Extranonces -/

theorem seats_setExtranonce {nonceBytes en2Size : Nat} {gone : List Nat} {l' : Link} {en1 : Str}
    {reconnect : Bool}
    (h : setUpstreamExtranonce nonceBytes gone l en1 en2Size reconnect = some l') :
    seats l' = seats l := by
  obtain ⟨span, -, h⟩ := Option.bind_eq_some_iff.mp h
  cases h
  cases reconnect with
  | false => rfl
  | true =>
    unfold seats
    dsimp only
    rw [if_pos rfl, List.map_map]
    refine List.map_congr_left fun e _ => ?_
    show seatOf (reissue gone _ e) = seatOf e
    unfold reissue
    split <;> rfl

theorem seats_extranonceAt {en1 : Str} {en2Size : Nat} {reconnect : Bool}
    {f : Link → Link} (hf : ∀ l, seats (f l) = seats l)
    (h : extranonceAt c i en1 en2Size reconnect f = some c') :
    c'.links.map seats = c.links.map seats ∧ c'.gone = c.gone := by
  unfold extranonceAt at h
  cases hl : c.links[i]? with
  | none =>
    rw [hl] at h
    cases h
    exact ⟨rfl, rfl⟩
  | some l =>
    rw [hl] at h
    obtain ⟨l', hset, h⟩ := Option.bind_eq_some_iff.mp h
    cases h
    exact ⟨map_seats_set hl ((hf l').trans (seats_setExtranonce hset)), rfl⟩

/-! ### Attaching -/

theorem Passed.seats (h : Passed c c') : c'.links.map seats = c.links.map seats := by
  cases h with
  | same => rfl
  | next hl => exact map_seats_next hl

theorem Passed.gone (h : Passed c c') : c'.gone = c.gone := by
  cases h <;> rfl

/-- What an attach does. -/
theorem attach_cases (c : Client) (sink : Nat) :
    (∃ primary j l next cand, Allocates { c with primary } j sink l next cand ∧
      attach c sink =
        (withSeat { c with primary } j l sink next cand, some (Slots.slotOf l j cand))) ∨
    ∃ primary c', attach c sink = (c', none) ∧ Passed { c with primary } c' := by
  unfold attach
  cases pickLink c with
  | none => exact .inr ⟨c.primary, c, rfl, .same⟩
  | some j =>
    dsimp only
    rcases allocateAt_cases
      { c with primary := if c.activeActive then c.primary else some j } j sink with
      ⟨l, next, cand, ha, heq⟩ | ⟨c', heq, hpassed⟩
    · exact .inl ⟨_, j, l, next, cand, ha, heq⟩
    · exact .inr ⟨_, _, heq, hpassed⟩

end Tables

end MkPool.Bindings
