import MkPool.Placement
import MkPool.PartySteps

/-! # Sessions follow the extranonce of their link

A session has the extranonce 1 of its link with its slot behind it, and the
rest of the extranonce 2, and has told its miner. The client changes the
extranonce of a link on its own thread; sessions that are bound to the link
hear of it later, or not at all. -/
namespace MkPool.Following
open MkPool.Lib MkPool.Lib.Mailbox MkPool.Utils MkPool.Coinbase MkPool.Sv2Messages
open MkPool.StratumV2
open MkPool.UpstreamClient hiding Input react Offered Run
open MkPool.UpstreamSource MkPool.Proxy MkPool.Bindings MkPool.Migration MkPool.Placement
open MkPool.PartySteps

/-! ## The property -/

/-- The extranonce a line tells a V1 miner. -/
def lineTells : ProxySession.Line → Option (Str × Nat)
  | .subscribed en1Hex en2Size => some (en1Hex, en2Size)
  | .setExtranonce en1Hex en2Size => some (en1Hex, en2Size)
  | _ => none

/-- A message that depends on the extranonce. -/
def telling : RelaySession.Frame → Bool
  | .reply (.openStandardSuccess _) => true
  | .newMiningJob .. => true
  | _ => false

/-- An SV2 miner gets the extranonce 1 when its channel is opened. Jobs are
built with it, and with an extranonce 2 of the slot's size. -/
def FrameTells (env : Env) (slot : HeldSlot) : RelaySession.Frame → Prop
  | .reply (.openStandardSuccess msg) => hexToBytes slot.en1Hex = some msg.extranoncePrefix
  | .newMiningJob msg built =>
    built.fixedEn2Hex.length = 2 * slot.en2Size ∧
      ∃ mroot, (RelaySession.rootWith env.hashes built.up
        (slot.en1Hex ++ built.fixedEn2Hex)).bind hexToBytes = some mroot ∧
        msg.merkleRoot = hashOrZero mroot
  | _ => False

/-- The miner was told the values of its session, and nothing else since. -/
def Told (env : Env) : Miner → Prop
  | .v1 s =>
    s.subscribed = true ∧ s.sent.findSome? lineTells = some (s.slot.en1Hex, s.slot.en2Size)
  | .sv2 s => s.channelOpen = true ∧ ∃ f, s.sent.find? telling = some f ∧ FrameTells env s.slot f

/-- Once all calls are delivered, the attached and open sessions have the values
of their links, and so have their miners. -/
def Current (env : Env) (c : State) : Prop :=
  (∀ p ∈ c.parties, p.mailbox = []) →
    ∀ p ∈ c.parties, p.miner.closed = false → p.miner.attached = true →
      (∃ i l, p.miner.slot.linkId = some i ∧ c.client.links[i]? = some l ∧
        p.miner.slot.en1Hex = l.upEn1 ++ p.miner.slot.slotHex ∧
        2 * p.miner.slot.en2Size + p.miner.slot.slotHex.length = 2 * l.upEn2Size) ∧
      Told env p.miner

/-! ## The condition -/

/-- The next job can be built and sent. -/
def Buildable (env : Env) (s : RelaySession.Session) (job : ProxyNotify) : Prop :=
  ∃ fixed, RelaySession.currentFixedEn2 (counted s) = some fixed ∧
    ((RelaySession.rootWith env.hashes job (s.slot.en1Hex ++ fixed)).bind hexToBytes).isSome = true

/-- A call to a relay session comes with a job by which its miner is told, or
after one. -/
def Tellable (env : Env) (s : RelaySession.Session) : SinkEvent → Prop
  | .extranonce en1Hex en2Size =>
    s.slot.withExtranonce en1Hex en2Size = s.slot ∨
      ∃ job, s.latestUpJob = some job ∧
        Buildable env { s with slot := s.slot.withExtranonce en1Hex en2Size } job
  | .rebind slot job _ => ∃ j, job = some j ∧ Buildable env { s with slot := .of slot } j
  | _ => True

/-- A subscribe result repeats the extranonce of a link that has subscribers, a
new extranonce keeps the width of their slots, and the allocator counts in that
width. A relay session attaches where the extranonce is hex, and is moved or
called only when there is a job to tell its miner. -/
def Steady (env : Env) (c : State) (i : Input) : Prop :=
  Orderly c i ∧
    match i with
    | .subscribeResult j en1 en2Size =>
      ∀ l, c.client.links[j]? = some l →
        (l.subscribers ≠ [] → en1 = l.upEn1 ∧ en2Size = l.upEn2Size) ∧
        l.nextSlot < 256 ^ effectiveBytes c.client.nonceBytes en2Size
    | .setExtranonce j _ en2Size =>
      ∀ l, c.client.links[j]? = some l →
        (l.subscribers ≠ [] → effectiveBytes c.client.nonceBytes en2Size = l.nonceBytesEff) ∧
        l.nextSlot < 256 ^ effectiveBytes c.client.nonceBytes en2Size
    | .advance n =>
      ∀ p ∈ c.parties[n]?, p.phase = .attaching → ∀ s, p.miner = .sv2 s →
        ∀ slot ∈ (attach c.client n).2, (hexToBytes slot.en1Hex).isSome = true
    | .deliver n =>
      ∀ p ∈ c.parties[n]?, ∀ s, p.miner = .sv2 s → p.miner.closed = false →
        ∀ ev rest, p.mailbox = ev :: rest → Tellable env s ev
    | _ => True

/-! ## Links -/

/-- The width is that of the extranonce, and the allocator counts in it. -/
structure Laid (nonceBytes : Nat) (l : Link) : Prop where
  eff : l.nonceBytesEff = effectiveBytes nonceBytes l.upEn2Size
  span : l.slotSpan = 0 ∨ l.slotSpan = 256 ^ l.nonceBytesEff ∧ l.nextSlot < l.slotSpan

def AllLaid (c : Client) : Prop := ∀ l ∈ c.links, Laid c.nonceBytes l

section Links
variable {c c' : Client} {l l' : Link} {nonceBytes i j k n : Nat}

/-- What a link lends. -/
structure SameLoan (l l' : Link) : Prop where
  upEn1 : l'.upEn1 = l.upEn1
  upEn2Size : l'.upEn2Size = l.upEn2Size
  eff : l'.nonceBytesEff = l.nonceBytesEff

theorem Laid.same (h : Laid nonceBytes l) (hsame : SameLoan l l') (hspan : l'.slotSpan = l.slotSpan)
    (hnext : l.nextSlot < l.slotSpan → l'.nextSlot < l.slotSpan) : Laid nonceBytes l' where
  eff := by rw [hsame.eff, hsame.upEn2Size, h.eff]
  span := by
    rw [hspan, hsame.eff]
    exact h.span.imp_right fun hs => ⟨hs.1, hnext hs.2⟩

theorem AllLaid.set (h : AllLaid c) (hl : Laid c.nonceBytes l) :
    AllLaid { c with links := c.links.set j l } := by
  intro l' hl'
  rcases List.mem_or_eq_of_mem_set hl' with hl' | rfl
  · exact h l' hl'
  · exact hl

theorem AllLaid.modify (h : AllLaid c) {f : Link → Link} (hf : ∀ l, SameLoan l (f l))
    (hspan : ∀ l, (f l).slotSpan = l.slotSpan) (hnext : ∀ l, (f l).nextSlot = l.nextSlot) :
    AllLaid (modifyLink c j f) := by
  unfold modifyLink
  cases hl : c.links[j]? with
  | none => exact h
  | some l =>
    refine h.set ((h l (List.mem_of_getElem? hl)).same (hf l) (hspan l) fun hlt => ?_)
    rw [hnext]
    exact hlt

theorem AllLaid.allocate (h : AllLaid c) {sink next cand : Nat}
    (ha : Allocates c j sink l next cand) : AllLaid (withSeat c j l sink next cand) := by
  refine h.set ((h l (List.mem_of_getElem? ha.link)).same ⟨rfl, rfl, rfl⟩ rfl fun hlt => ?_)
  have hlast := @RoundRobin.search_next_lt (· ∈ l.subscribers.map Prod.fst) _ l.slotSpan
    l.slotSpan l.nextSlot hlt
  rwa [ha.search] at hlast

theorem AllLaid.passed (h : AllLaid c) (hpassed : Passed c c') : AllLaid c' := by
  cases hpassed with
  | same => exact h
  | next hl hnext => exact h.set ((h _ (List.mem_of_getElem? hl)).same ⟨rfl, rfl, rfl⟩ rfl hnext)

theorem AllLaid.attach (h : AllLaid c) (sink : Nat) : AllLaid (attach c sink).1 := by
  rcases attach_cases c sink with
    ⟨primary, j, l, next, cand, ha, heq⟩ | ⟨primary, c', heq, hpassed⟩
  · have hprimary : AllLaid { c with primary } := h
    rw [heq]
    exact hprimary.allocate ha
  · have hprimary : AllLaid { c with primary } := h
    rw [heq]
    exact hprimary.passed hpassed

/-- A slot of a ready link has its width. -/
theorem Laid.width (h : Laid nonceBytes l) (hready : linkReady l = true) {cand next : Nat}
    (hsearch : RoundRobin.search (· ∈ l.subscribers.map Prod.fst) l.slotSpan l.slotSpan l.nextSlot =
      (some cand, next)) :
    (hexPadded (l.nonceBytesEff * 2) cand).length = l.nonceBytesEff * 2 := by
  obtain ⟨-, -, -, -, hspan, heff, -⟩ := Slots.linkReady_iff.mp hready
  obtain ⟨hspan, hnext⟩ := h.span.resolve_left (by omega)
  refine length_hexPadded (by omega) ?_
  have hcand := RoundRobin.search_lt hnext (congrArg Prod.fst hsearch)
  rw [hspan] at hcand
  rwa [Nat.mul_comm, Nat.pow_mul]

theorem effectiveBytes_fits {en2Size : Nat} :
    rest en2Size (effectiveBytes nonceBytes en2Size) + effectiveBytes nonceBytes en2Size =
      en2Size := by
  unfold rest effectiveBytes
  dsimp only
  split_ifs <;> omega

theorem laid_extranonce {gone : List Nat} {en1 : Str} {en2Size : Nat} {reconnect : Bool}
    (hset : setUpstreamExtranonce nonceBytes gone l en1 en2Size reconnect = some l')
    (hnext : l.nextSlot < 256 ^ effectiveBytes nonceBytes en2Size) :
    Laid nonceBytes l' ∧ l'.upEn1 = en1 ∧ l'.upEn2Size = en2Size ∧ seats l' = seats l := by
  have hseats := seats_setExtranonce hset
  obtain ⟨span, hspan, h⟩ := Option.bind_eq_some_iff.mp hset
  cases h
  refine ⟨⟨rfl, .inr ?_⟩, rfl, rfl, hseats⟩
  have hlt : effectiveBytes nonceBytes en2Size < 4 := by
    by_contra hge
    rw [Slots.span_undefined (by omega)] at hspan
    cases hspan
  rw [Slots.span_of_width hlt] at hspan
  cases hspan
  exact ⟨rfl, hnext⟩

/-! ## Loans -/

/-- A slot is one that the client entered for the sink, with the extranonce its
link has now. -/
def Fits (c : Client) (n : Nat) (slot : HeldSlot) : Prop :=
  ∃ i l, slot.linkId = some i ∧ c.links[i]? = some l ∧ ⟨slot.slotId, n, slot.slotHex⟩ ∈ seats l ∧
    slot.en1Hex = l.upEn1 ++ slot.slotHex ∧ slot.en2Size = rest l.upEn2Size l.nonceBytesEff ∧
    slot.slotHex.length = l.nonceBytesEff * 2

/-- The entry stays, and the link lends the same. -/
theorem Fits.kept {slot : HeldSlot} (h : Fits c n slot)
    (hkept : ∀ i l, slot.linkId = some i → c.links[i]? = some l →
      ⟨slot.slotId, n, slot.slotHex⟩ ∈ seats l →
      ∃ l', c'.links[i]? = some l' ∧ SameLoan l l' ∧ ⟨slot.slotId, n, slot.slotHex⟩ ∈ seats l') :
    Fits c' n slot := by
  obtain ⟨i, l, hi, hl, hmem, hen1, hen2, hlen⟩ := h
  obtain ⟨l', hl', hsame, hstay⟩ := hkept i l hi hl hmem
  refine ⟨i, l', hi, hl', hstay, ?_, ?_, ?_⟩
  · rw [hen1, hsame.upEn1]
  · rw [hen2, hsame.upEn2Size, hsame.eff]
  · rw [hlen, hsame.eff]

theorem Fits.set {slot : HeldSlot} (h : Fits c n slot) (hl : c.links[j]? = some l)
    (hsame : ∀ t ∈ seats l, SameLoan l l')
    (hstay : ∀ t ∈ seats l, slot.linkId = some j → t.slotId = slot.slotId → t ∈ seats l') :
    Fits { c with links := c.links.set j l' } n slot := by
  refine h.kept fun i l₀ hi hl₀ hmem => ?_
  by_cases hij : j = i
  · subst hij
    obtain rfl := Option.some.inj (hl.symm.trans hl₀)
    exact ⟨l', List.getElem?_set_self (List.getElem?_eq_some_iff.mp hl).1, hsame _ hmem,
      hstay _ hmem hi rfl⟩
  · exact ⟨l₀, (List.getElem?_set_ne hij).trans hl₀, ⟨rfl, rfl, rfl⟩, hmem⟩

theorem Fits.modify {slot : HeldSlot} (h : Fits c n slot) {f : Link → Link}
    (hsame : ∀ l, SameLoan l (f l))
    (hstay : ∀ l, ∀ t ∈ seats l, slot.linkId = some j → t.slotId = slot.slotId → t ∈ seats (f l)) :
    Fits (modifyLink c j f) n slot := by
  unfold modifyLink
  cases hl : c.links[j]? with
  | none => exact h
  | some l => exact h.set hl (fun _ _ => hsame l) (hstay l)

theorem Fits.allocate {slot : HeldSlot} (h : Fits c n slot) {sink next cand : Nat}
    (ha : Allocates c j sink l next cand) : Fits (withSeat c j l sink next cand) n slot :=
  h.set ha.link (fun _ _ => ⟨rfl, rfl, rfl⟩) fun _ ht _ _ => List.mem_cons_of_mem _ ht

theorem Fits.passed {slot : HeldSlot} (h : Fits c n slot) (hpassed : Passed c c') :
    Fits c' n slot := by
  cases hpassed with
  | same => exact h
  | next hl _ => exact h.set hl (fun _ _ => ⟨rfl, rfl, rfl⟩) fun _ ht _ _ => ht

/-- A slot that was just entered. -/
theorem fits_allocated (hlaid : AllLaid c) {next cand : Nat} (ha : Allocates c j n l next cand) :
    Fits (withSeat c j l n next cand) n (.of (Slots.slotOf l j cand)) := by
  have hlt := (List.getElem?_eq_some_iff.mp ha.link).1
  refine ⟨j, _, rfl, List.getElem?_set_self hlt, List.mem_cons_self .., rfl, rfl, ?_⟩
  exact (hlaid l (List.mem_of_getElem? ha.link)).width ha.ready ha.search

end Links

/-! ## What miners are told -/

section Told
variable {env : Env}

/-- What is sent tells nothing, and the slot stays. -/
theorem Told.v1_kept {s t : ProxySession.Session} (h : Told env (.v1 s))
    (hslot : t.slot = s.slot) (hsub : t.subscribed = s.subscribed) {lines : List ProxySession.Line}
    (hsent : t.sent = lines ++ s.sent) (hlines : ∀ line ∈ lines, lineTells line = none) :
    Told env (.v1 t) := by
  refine ⟨hsub.trans h.1, ?_⟩
  rw [hsent, hslot, List.findSome?_append, List.findSome?_eq_none_iff.mpr hlines]
  exact h.2

/-- A line tells the slot. -/
theorem told_line {t : ProxySession.Session} (hsub : t.subscribed = true)
    {lines rest : List ProxySession.Line} {line : ProxySession.Line}
    (hsent : t.sent = lines ++ line :: rest) (hlines : ∀ line ∈ lines, lineTells line = none)
    (hline : lineTells line = some (t.slot.en1Hex, t.slot.en2Size)) : Told env (.v1 t) := by
  refine ⟨hsub, ?_⟩
  rw [hsent, List.findSome?_append, List.findSome?_eq_none_iff.mpr hlines, Option.none_or,
    List.findSome?_cons, hline]

/-- The line of the current job. -/
def jobLines (s : ProxySession.Session) (force : Bool) : List ProxySession.Line :=
  s.curJob.toList.map fun job =>
    .notify (if force then ProxySession.forcedClean job.notifyLine else job.notifyLine) job s.slot

theorem sent_emit (s : ProxySession.Session) (force : Bool) :
    (ProxySession.emitCurrentJob s force).sent = jobLines s force ++ s.sent := by
  unfold ProxySession.emitCurrentJob jobLines
  cases s.curJob <;> rfl

theorem jobLines_tell (s : ProxySession.Session) (force : Bool) :
    ∀ line ∈ jobLines s force, lineTells line = none := by
  intro line hline
  obtain ⟨job, -, rfl⟩ := List.mem_map.mp hline
  rfl

theorem sent_remember (s : ProxySession.Session) (job : ProxyNotify) :
    (ProxySession.rememberJob s job).sent = s.sent := by
  unfold ProxySession.rememberJob
  split <;> rfl

theorem told_requestV1 {s : ProxySession.Session} (h : Told env (.v1 s)) (r : RequestV1) :
    Told env (.v1 (requestV1 env s r).1) := by
  have hsub := subscribed_requestV1 env s r
  have hslot : (requestV1 env s r).1.slot = s.slot := (sameSlot_requestV1 env s r).slot
  cases r with
  | configure | extranonceSubscribe =>
    refine h.v1_kept hslot hsub (List.singleton_append ..).symm fun line hline => ?_
    rw [List.mem_singleton.mp hline]
    rfl
  | subscribe =>
    have hsubscribed : s.subscribed = true := h.1
    unfold requestV1
    rw [if_pos hsubscribed]
    exact told_line hsubscribed (List.nil_append _).symm (fun _ h => nomatch h) rfl
  | authorize =>
    have hsubscribed : s.subscribed = true := h.1
    have hsent : (requestV1 env s .authorize).1.sent =
        (jobLines { s.send .result with authorized := true } true ++ [.result]) ++ s.sent := by
      unfold requestV1 ProxySession.handleAuthorize
      dsimp only
      rw [if_pos (show (s.send .result).subscribed = true from hsubscribed), sent_emit,
        List.append_assoc]
      rfl
    refine h.v1_kept hslot hsub hsent fun line hline => ?_
    rcases List.mem_append.mp hline with hline | hline
    · exact jobLines_tell _ _ line hline
    · rw [List.mem_singleton.mp hline]
      rfl
  | submit params now =>
    obtain ⟨line, hline, htext⟩ := handleSubmit_sends env s params now
    have hsent : (requestV1 env s (.submit params now)).1.sent = [line] ++ s.sent :=
      congrArg ProxySession.Session.sent hline
    refine h.v1_kept hslot hsub hsent fun line' hline' => ?_
    rw [List.mem_singleton.mp hline']
    rcases htext with rfl | ⟨code, reason, rfl⟩ <;> rfl

theorem told_handleV1 {s : ProxySession.Session} (h : Told env (.v1 s)) (ev : SinkEvent)
    (hopen : (handleV1 s ev).1.closed = false) : Told env (.v1 (handleV1 s ev).1) := by
  have hsub := subscribed_handleV1 s ev
  have hsubscribed : s.subscribed = true := h.1
  obtain ⟨hslot, -, hclosed⟩ := slot_handleV1 s ev
  cases ev with
  | job job =>
    have hsent : ∃ lines, (handleV1 s (.job job)).1.sent = lines ++ s.sent ∧
        ∀ line ∈ lines, lineTells line = none := by
      unfold handleV1 ProxySession.onUpstreamJob
      dsimp only
      split
      · rw [sent_emit, sent_remember]
        exact ⟨_, rfl, jobLines_tell _ _⟩
      · rw [sent_remember]
        exact ⟨[], rfl, fun _ h => nomatch h⟩
    obtain ⟨lines, hsent, hlines⟩ := hsent
    exact h.v1_kept hslot hsub hsent hlines
  | diff diff =>
    have hsent : (handleV1 s (.diff diff)).1.sent =
        [.setDifficulty (llround (if 0 < diff then diff else 1))] ++ s.sent := by
      unfold handleV1 ProxySession.onUpstreamDiff
      dsimp only
      rw [if_pos hsubscribed]
      rfl
    refine h.v1_kept hslot hsub hsent fun line hline => ?_
    rw [List.mem_singleton.mp hline]
    rfl
  | extranonce en1Hex en2Size =>
    have hsent : ∃ t, (handleV1 s (.extranonce en1Hex en2Size)).1.sent =
        jobLines t true ++ .setExtranonce en1Hex en2Size :: s.sent := by
      unfold handleV1 ProxySession.onUpstreamExtranonce
      dsimp only
      rw [if_pos hsubscribed, sent_emit]
      exact ⟨_, rfl⟩
    obtain ⟨t, hsent⟩ := hsent
    refine told_line (hsub.trans hsubscribed) hsent (jobLines_tell t true) ?_
    rw [hslot]
    rfl
  | state up =>
    unfold handleV1
    dsimp only
    rw [if_pos hsubscribed]
    split
    · exact told_line hsubscribed (List.nil_append _).symm (fun _ h => nomatch h) rfl
    · exact h
  | rebind slot job diff =>
    have htold : s.extranonceSubscribed = true := by
      rw [hclosed] at hopen
      simpa [isRebind] using (Bool.or_eq_false_iff.mp hopen).2
    have hsent : ∃ lines rest, (handleV1 s (.rebind slot job diff)).1.sent =
        lines ++ .setExtranonce slot.en1Hex slot.en2Size :: rest ∧
        ∀ line ∈ lines, lineTells line = none := by
      unfold handleV1 ProxySession.onRebind
      dsimp only
      rw [if_pos htold]
      cases job with
      | none =>
        refine ⟨[.setDifficulty _], s.sent, rfl, fun line hline => ?_⟩
        rw [List.mem_singleton.mp hline]
        rfl
      | some job =>
        dsimp only
        rw [sent_emit, sent_remember]
        refine ⟨_, s.sent, List.append_cons _ _ _, fun line hline => ?_⟩
        rcases List.mem_append.mp hline with hline | hline
        · exact jobLines_tell _ _ line hline
        · rw [List.mem_singleton.mp hline]
          rfl
    obtain ⟨lines, rest, hsent, hlines⟩ := hsent
    refine told_line (hsub.trans hsubscribed) hsent hlines ?_
    rw [hslot]
    rfl

theorem told_attachV1 (s : ProxySession.Session) (slot : ProxySlot) (diff : ℚ) :
    Told env (.v1 (ProxySession.attachReturned s (some slot) diff)) := by
  have hsent : ∃ lines, (ProxySession.attachReturned s (some slot) diff).sent =
      lines ++ .subscribed slot.en1Hex slot.en2Size :: s.sent ∧
      ∀ line ∈ lines, lineTells line = none := by
    unfold ProxySession.attachReturned
    dsimp only
    split
    · refine ⟨[.setVersionMask _, .setDifficulty _], rfl, fun line hline => ?_⟩
      rcases List.mem_pair.mp hline with rfl | rfl <;> rfl
    · refine ⟨[.setDifficulty _], rfl, fun line hline => ?_⟩
      rw [List.mem_singleton.mp hline]
      rfl
  have hbound : (ProxySession.attachReturned s (some slot) diff).subscribed = true ∧
      (ProxySession.attachReturned s (some slot) diff).slot = .of slot := by
    unfold ProxySession.attachReturned
    dsimp only
    split <;> exact ⟨rfl, rfl⟩
  obtain ⟨lines, hsent, hlines⟩ := hsent
  refine told_line hbound.1 hsent hlines ?_
  rw [hbound.2]
  rfl

theorem told_jobReturned {s : ProxySession.Session} (h : Told env (.v1 s))
    (job : Option ProxyNotify) : Told env (.v1 (ProxySession.jobReturned s job)) := by
  cases job with
  | none => exact h
  | some job =>
    have hsame := sameSlot_jobReturned s (some job)
    have hsent : (ProxySession.jobReturned s (some job)).sent = [] ++ s.sent := sent_remember _ job
    exact h.v1_kept hsame.slot (subscribed_jobReturned s _) hsent fun _ h => nomatch h

/-! ### SV2 miners -/

/-- What is sent tells nothing, and the slot stays. -/
theorem Told.sv2_kept {s t : RelaySession.Session} (h : Told env (.sv2 s))
    (hslot : t.slot = s.slot) (hopen : t.channelOpen = s.channelOpen)
    {frames : List RelaySession.Frame} (hsent : t.sent = frames ++ s.sent)
    (hframes : ∀ f ∈ frames, telling f = false) : Told env (.sv2 t) := by
  obtain ⟨hchannel, f, hf, htells⟩ := h
  refine ⟨hopen.trans hchannel, f, ?_, hslot ▸ htells⟩
  have hnone : frames.find? telling = none :=
    List.find?_eq_none.mpr fun f hf => by simp [hframes f hf]
  rw [hsent, List.find?_append, hnone, Option.none_or]
  exact hf

theorem length_of_mapM {f : Nat → Option UInt8} {ns : List Nat} {bytes : Bytes}
    (h : ns.mapM f = some bytes) : bytes.length = ns.length := by
  induction ns generalizing bytes with
  | nil =>
    cases h
    rfl
  | cons n ns ih =>
    rw [List.mapM_cons] at h
    obtain ⟨b, -, h⟩ := Option.bind_eq_some_iff.mp h
    obtain ⟨bs, hbs, h⟩ := Option.bind_eq_some_iff.mp h
    cases h
    exact congrArg (· + 1) (ih hbs)

theorem length_fixedEn2 {s : RelaySession.Session} {fixed : Str}
    (h : RelaySession.currentFixedEn2 s = some fixed) : fixed.length = 2 * s.slot.en2Size := by
  obtain ⟨bytes, hbytes, rfl⟩ := Option.map_eq_some_iff.mp h
  have hlen : bytes.length = s.slot.en2Size := (length_of_mapM hbytes).trans List.length_range
  rw [bytesToHex, Hex.length_encode, hlen]

/-- A job that was sent tells the slot. -/
theorem told_emits {s t : RelaySession.Session} {job : ProxyNotify} (h : Emits env s job t)
    (hopen : s.channelOpen = true) (hbuild : Buildable env s job) : Told env (.sv2 t) := by
  obtain ⟨fixed', hfixed', hsome⟩ := hbuild
  cases h with
  | unopened hnot => exact absurd (hnot.symm.trans hopen) Bool.false_ne_true
  | thrown _ hfixed hroot =>
    obtain rfl := Option.some.inj (hfixed'.symm.trans hfixed)
    rw [hroot] at hsome
    cases hsome
  | @sent fixed mroot _ hfixed hroot =>
    refine ⟨hopen, .newMiningJob (RelaySession.newMiningJob (counted s) job mroot)
      ⟨job, fixed, s.slot⟩, ?_, length_fixedEn2 hfixed, mroot, hroot, rfl⟩
    dsimp only
    rw [List.find?_append, List.find?_eq_none.mpr, Option.none_or, List.find?_cons_of_pos rfl]
    intro f hf
    obtain ⟨msg, -, rfl⟩ := List.mem_map.mp hf
    exact Bool.false_ne_true

/-- A job that was sent, or not, leaves the miner told. -/
theorem Told.emits {s t : RelaySession.Session} {job : ProxyNotify} (h : Told env (.sv2 s))
    (hemits : Emits env s job t) : Told env (.sv2 t) := by
  cases hemits with
  | unopened => exact h
  | thrown => exact h
  | @sent fixed mroot hopen hfixed hroot =>
    exact told_emits (.sent hopen hfixed hroot) hopen ⟨fixed, hfixed, by rw [hroot]; rfl⟩

theorem told_requestSv2 {s : RelaySession.Session} (h : Told env (.sv2 s)) (r : RequestSv2) :
    Told env (.sv2 (requestSv2 env s r).1) := by
  cases r with
  | setupConnection =>
    exact h.sv2_kept rfl rfl (List.singleton_append ..).symm fun f hf => by
      rw [List.mem_singleton.mp hf]
      rfl
  | openStandardChannel => exact h
  | submitShares msg now =>
    unfold requestSv2
    dsimp only
    rcases handleSubmitShares_sends env s msg now with heq | ⟨code, heq⟩ | ⟨sum, heq⟩
    · rw [heq]
      exact h
    all_goals
      rw [heq]
      refine h.sv2_kept rfl rfl (List.singleton_append ..).symm fun f hf => ?_
      rw [List.mem_singleton.mp hf]
      rfl

theorem told_setTarget {s : RelaySession.Session} (h : Told env (.sv2 s)) (diff : ℚ) :
    Told env (.sv2 (RelaySession.sendSetTarget s diff)) := by
  unfold RelaySession.sendSetTarget
  split
  · refine h.sv2_kept rfl rfl (List.singleton_append ..).symm fun f hf => ?_
    rw [List.mem_singleton.mp hf]
    rfl
  · exact h

theorem told_handleSv2 {s : RelaySession.Session} {r : RelaySession.Session × Next}
    {ev : SinkEvent} (h : Told env (.sv2 s)) (hr : handleSv2 env s ev = some r)
    (hok : Tellable env s ev) : Told env (.sv2 r.1) := by
  have hchannel : s.channelOpen = true := h.1
  cases ev with
  | job job =>
    obtain ⟨t, ht, rfl⟩ := Option.map_eq_some_iff.mp hr
    unfold RelaySession.onUpstreamJob at ht
    dsimp only at ht
    rw [if_pos hchannel] at ht
    exact Told.emits (s := { s with latestUpJob := some job }) h (emits_of_emitJob ht)
  | diff diff =>
    cases hr
    exact told_setTarget (s := { s with targetDiff := if 0 < diff then diff else s.targetDiff }) h _
  | extranonce en1Hex en2Size =>
    obtain ⟨t, ht, rfl⟩ := Option.map_eq_some_iff.mp hr
    unfold RelaySession.onUpstreamExtranonce at ht
    dsimp only at ht
    rcases hok with hslot | ⟨job, hjob, hbuild⟩
    · rw [hslot] at ht
      split at ht
      · rw [if_pos hchannel] at ht
        exact h.emits (emits_of_emitJob ht)
      · cases ht
        exact h
    · rw [hjob] at ht
      dsimp only at ht
      rw [if_pos hchannel] at ht
      exact told_emits (emits_of_emitJob ht) hchannel hbuild
  | state up =>
    cases hr
    exact h
  | rebind slot job diff =>
    obtain ⟨t, ht, rfl⟩ := Option.map_eq_some_iff.mp hr
    obtain ⟨j, rfl, hbuild⟩ := hok
    unfold RelaySession.onRebind at ht
    dsimp only at ht
    refine told_emits (emits_of_emitJob ht) ?_ ?_
    · unfold RelaySession.sendSetTarget
      split <;> exact hchannel
    · unfold RelaySession.sendSetTarget
      split <;> exact hbuild

theorem told_attachSv2 (s : RelaySession.Session) (slot : ProxySlot) (diff : ℚ)
    (hhex : (hexToBytes slot.en1Hex).isSome = true) :
    Told env (.sv2 (RelaySession.attachReturned s (some slot) diff).1) := by
  obtain ⟨bytes, hbytes⟩ := Option.isSome_iff_exists.mp hhex
  unfold RelaySession.attachReturned
  dsimp only
  rw [hbytes]
  exact ⟨rfl, _, List.find?_cons_of_pos rfl, hbytes⟩

theorem told_jobReturnedSv2 {s t : RelaySession.Session} {job : Option ProxyNotify}
    (h : Told env (.sv2 s)) (ht : RelaySession.jobReturned env s job = some t) :
    Told env (.sv2 t) := by
  unfold RelaySession.jobReturned at ht
  cases job with
  | none =>
    cases ht
    exact h
  | some job => exact Told.emits (s := { s with latestUpJob := some job }) h (emits_of_emitJob ht)

end Told

/-! ## Sessions -/

/-- An open session tells its miner where it is, and is called for its state
only until it is somewhere. -/
structure Informed (env : Env) (p : Party) : Prop where
  told : p.miner.closed = false → p.miner.attached = true → Told env p.miner
  quiet : p.miner.closed = false → p.miner.attached = false → ∀ ev ∈ p.mailbox,
    ∃ up, ev = .state up

section Sessions
variable {env : Env} {c c' : State} {n m : Nat} {i : Input} {p p' : Party} {client : Client}

/-- Only entered sinks are called. -/
theorem posted_bound {ev : SinkEvent} (h : Posted c n ev) (hbooks : Books c)
    (hp : c.parties[n]? = some p) : (∃ up, ev = .state up) ∨ bound p = true := by
  have htaken {i k : Nat} (hsink : Taken c.client i k n) : bound p = true := by
    have hplace := (hbooks.owned i k n).mp hsink
    unfold placeAt at hplace
    rw [hp, Option.bind_some] at hplace
    by_contra hnot
    unfold place at hplace
    rw [if_neg hnot] at hplace
    cases hplace
  cases h with
  | job _ hsink | diff hsink | extranonce hsink | rebind _ hsink => exact .inr (htaken hsink)
  | state up => exact .inl ⟨up, rfl⟩

theorem told_afterNext (client : Client) (p : Party) (next : Next) (h : Told env p.miner) :
    Told env (afterNext client p next).miner := by
  cases next with
  | done | detach => exact h
  | attach =>
    show Told env (startAttach client p).miner
    rcases miner_startAttach client p with heq | ⟨s, hm, heq⟩
    · rw [heq]
      exact h
    · rw [heq]
      rw [hm] at h
      exact h

theorem Informed.next (client : Client) (next : Next) (h : Informed env p) :
    Informed env (afterNext client p next) where
  told hopen hatt := by
    have hsame := sameSlot_afterNext client p next
    exact told_afterNext client p next
      (h.told (hsame.closed.symm.trans hopen) (hsame.attached.symm.trans hatt))
  quiet hopen hatt := by
    have hsame := sameSlot_afterNext client p next
    rw [mailbox_afterNext]
    exact h.quiet (hsame.closed.symm.trans hopen) (hsame.attached.symm.trans hatt)

/-- A handler keeps its miner informed. -/
theorem Informed.handled (h : Informed env p) (hcalm : Calm p) (hp : c.parties[n]? = some p)
    (hok : Steady env c i) (hs : Handled env c n p i client p') : Informed env p' := by
  have hbusy {phase : Phase} (hphase : p.phase = phase) (hne : phase ≠ .idle) :
      p.miner.closed = false := hcalm.busy (by rw [hphase]; exact hne)
  cases hs with
  | @requestV1 s r hm hidle hopen =>
    have hsame := sameSlot_requestV1 env s r
    rw [← hm] at hsame
    refine Informed.next _ _ ⟨fun _ hatt => ?_, fun hopen' hatt => ?_⟩
    · have htold := h.told hopen (hsame.attached.symm.trans hatt)
      rw [hm] at htold
      exact told_requestV1 htold r
    · exact h.quiet hopen (hsame.attached.symm.trans hatt)
  | @requestSv2 s r hm hidle hopen =>
    have hsame := sameSlot_requestSv2 env s r
    rw [← hm] at hsame
    refine Informed.next _ _ ⟨fun _ hatt => ?_, fun hopen' hatt => ?_⟩
    · have htold := h.told hopen (hsame.attached.symm.trans hatt)
      rw [hm] at htold
      exact told_requestSv2 htold r
    · exact h.quiet hopen (hsame.attached.symm.trans hatt)
  | dropped hclosed hbox =>
    exact ⟨fun hopen => absurd (hclosed.symm.trans hopen) (by simp),
      fun hopen => absurd (hclosed.symm.trans hopen) (by simp)⟩
  | @deliverV1 s ev mailbox hm hidle hopen hbox =>
    obtain ⟨-, hatt, hclosed⟩ := slot_handleV1 s ev
    have hev : ev ∈ p.mailbox := hbox ▸ List.mem_cons_self ..
    have hkept : (handleV1 s ev).1.attached = p.miner.attached := by
      rw [hatt, ← show p.miner.attached = s.attached from congrArg Miner.attached hm]
      exact hcalm.attached_delivered hopen hev
    refine Informed.next _ _ ⟨fun hopen' hatt' => ?_, fun hopen' hatt' e he => ?_⟩
    · have htold := h.told hopen (hkept.symm.trans hatt')
      rw [hm] at htold
      exact told_handleV1 htold ev hopen'
    · exact h.quiet hopen (hkept.symm.trans hatt') e (hbox ▸ List.mem_cons_of_mem ev he)
  | @deliverSv2 s ev mailbox r hm hidle hopen hbox hr =>
    obtain ⟨-, hatt, hclosed⟩ := slot_handleSv2 hr
    have hev : ev ∈ p.mailbox := hbox ▸ List.mem_cons_self ..
    have hkept : r.1.attached = p.miner.attached := by
      rw [hatt, ← show p.miner.attached = s.attached from congrArg Miner.attached hm]
      exact hcalm.attached_delivered hopen hev
    refine Informed.next _ _ ⟨fun hopen' hatt' => ?_, fun hopen' hatt' e he => ?_⟩
    · have htold := h.told hopen (hkept.symm.trans hatt')
      rw [hm] at htold
      exact told_handleSv2 htold hr (hok.2 p hp s hm hopen ev mailbox hbox)
    · exact h.quiet hopen (hkept.symm.trans hatt') e (hbox ▸ List.mem_cons_of_mem ev he)
  | close hidle hopen =>
    have hclosed : p.miner.close.closed = true := by cases p.miner <;> rfl
    exact ⟨fun hopen => absurd (hclosed.symm.trans hopen) (by simp),
      fun hopen => absurd (hclosed.symm.trans hopen) (by simp)⟩
  | registered hphase => exact ⟨h.told, h.quiet⟩
  | @attachV1 s hphase hm =>
    have hopen := hbusy hphase (by simp)
    refine ⟨fun _ hatt => ?_, fun _ _ => h.quiet hopen (hcalm.attaching hphase)⟩
    have hfree : s.attached = false :=
      (congrArg Miner.attached hm).symm.trans (hcalm.attaching hphase)
    dsimp only at hatt ⊢
    cases hslot : (attach c.client n).2 with
    | none =>
      rw [hslot] at hatt
      exact absurd (hfree.symm.trans hatt) Bool.false_ne_true
    | some slot => exact told_attachV1 s slot _
  | @attachSv2 s phase hphase hm hnext =>
    have hopen := hbusy hphase (by simp)
    refine ⟨fun _ hatt => ?_, fun _ _ => h.quiet hopen (hcalm.attaching hphase)⟩
    have hfree : s.attached = false :=
      (congrArg Miner.attached hm).symm.trans (hcalm.attaching hphase)
    dsimp only at hatt ⊢
    cases hslot : (attach c.client n).2 with
    | none =>
      rw [hslot] at hatt
      exact absurd (hfree.symm.trans hatt) Bool.false_ne_true
    | some slot => exact told_attachSv2 s slot _ (hok.2 p hp hphase s hm slot hslot)
  | @fetchV1 s hphase hm =>
    have hsame := sameSlot_jobReturned s (p.miner.slot.linkId.bind c.jobs)
    rw [← hm] at hsame
    refine ⟨fun hopen hatt => ?_, fun hopen hatt => ?_⟩
    · have htold := h.told (hsame.closed.symm.trans hopen) (hsame.attached.symm.trans hatt)
      rw [hm] at htold
      exact told_jobReturned htold _
    · exact h.quiet (hsame.closed.symm.trans hopen) (hsame.attached.symm.trans hatt)
  | @fetchSv2 s t hphase hm hjob =>
    have hsame := sameSlot_jobReturnedSv2 hjob
    rw [← hm] at hsame
    refine ⟨fun hopen hatt => ?_, fun hopen hatt => ?_⟩
    · have htold := h.told (hsame.closed.symm.trans hopen) (hsame.attached.symm.trans hatt)
      rw [hm] at htold
      exact told_jobReturnedSv2 htold hjob
    · exact h.quiet (hsame.closed.symm.trans hopen) (hsame.attached.symm.trans hatt)

theorem Informed.step (h : Informed env p) (hbooks : Books c) (hp : c.parties[n]? = some p)
    (hok : Steady env c i) (hs : PartyStep env c n p i p') : Informed env p' := by
  cases hs with
  | posted evs hevs _ =>
    refine ⟨h.told, fun hopen hatt ev hev => ?_⟩
    rcases List.mem_append.mp hev with hev | hev
    · exact h.quiet hopen hatt ev hev
    · refine (posted_bound (hevs ev hev) hbooks hp).resolve_right fun hbound => ?_
      exact absurd (hatt.symm.trans (bound_iff.mp hbound).1) Bool.false_ne_true
  | handled hs => exact h.handled (hbooks.calm n p hp) hp hok hs

/-! ## Where sessions will be -/

/-- The sessions that are somewhere have what their links lend. -/
def AllFit (c : State) : Prop :=
  ∀ (n : Nat) p, c.parties[n]? = some p → bound p = true → Fits c.client n (view p)

/-- A call that leaves the slot as it is. -/
def inert : SinkEvent → Bool
  | .extranonce .. => false
  | .rebind .. => false
  | _ => true

theorem settled_inert {evs : List SinkEvent} (h : ∀ ev ∈ evs, inert ev = true) (slot : HeldSlot) :
    settled applyCall slot evs = slot := by
  refine settled_of_inert fun ev hev slot => ?_
  have hinert := h ev hev
  cases ev with
  | extranonce | rebind => cases hinert
  | _ => rfl

theorem AllFit.post (h : AllFit c) {calls : List (Nat × SinkEvent)}
    (hcalls : ∀ call ∈ calls, inert call.2 = true) :
    AllFit { c with parties := postAll c.parties calls } := by
  intro n q hq hbound
  dsimp only at hq
  rw [getElem?_postAll] at hq
  obtain ⟨p, hp, rfl⟩ := Option.map_eq_some_iff.mp hq
  have hview : view { p with mailbox := p.mailbox ++ callsOf n calls } = view p := by
    unfold view
    rw [settled_append]
    exact settled_inert (fun ev hev => hcalls _ (mem_callsOf.mp hev)) _
  rw [hview]
  exact h n p hp hbound

/-- The links lend what they lent. -/
theorem AllFit.lend (h : AllFit c) {client : Client}
    (hfits : ∀ n slot, Fits c.client n slot → Fits client n slot) : AllFit { c with client } :=
  fun n p hp hbound => hfits n _ (h n p hp hbound)

theorem view_afterNext (client : Client) (p : Party) (next : Next) :
    view (afterNext client p next) = view p := by
  unfold view
  rw [(sameSlot_afterNext client p next).slot, mailbox_afterNext]

theorem bound_afterNext (client : Client) (p : Party) (next : Next) :
    bound (afterNext client p next) = bound p := by
  have hsame := sameSlot_afterNext client p next
  unfold bound
  rw [hsame.attached, hsame.closed]

/-- What the session is after a handler that is no attach. -/
theorem bound_kept {next : Next} (hslot : view p' = view p)
    (hatt : p'.miner.attached = p.miner.attached) (hopen : p.miner.closed = false)
    (hfit : bound p = true → Fits c.client n (view p)) (hsame : client = c.client)
    (hbound : bound (afterNext c.client p' next) = true) :
    Fits client n (view (afterNext c.client p' next)) := by
  rw [bound_afterNext] at hbound
  rw [view_afterNext, hslot, hsame]
  refine hfit (bound_iff.mpr ⟨?_, hopen⟩)
  rw [← hatt]
  exact (bound_iff.mp hbound).1

theorem view_delivered {ev : SinkEvent} {mailbox : List SinkEvent} {miner : Miner}
    (hbox : p.mailbox = ev :: mailbox) (hslot : miner.slot = applyCall p.miner.slot ev) :
    view { p with miner, mailbox } = view p := by
  unfold view
  rw [hbox, settled_cons, hslot]

/-- A session that took a slot has what the link lends. -/
theorem fits_attached {m : Miner} {phase : Phase} (hlaid : AllLaid c.client)
    (hbound : Bound m (attach c.client n).2) (hbox : ∀ ev ∈ p.mailbox, ∃ up, ev = .state up)
    (hatt : bound { p with miner := m, phase } = true) :
    Fits (attach c.client n).1 n (view { p with miner := m, phase }) := by
  have hinert : ∀ ev ∈ p.mailbox, inert ev = true := by
    intro ev hev
    obtain ⟨up, rfl⟩ := hbox ev hev
    rfl
  have hview : view { p with miner := m, phase } = m.slot := settled_inert hinert _
  have hsome : (attach c.client n).2.isSome = true :=
    hbound.attached.symm.trans (bound_iff.mp hatt).1
  rw [hview, hbound.slot]
  rcases attach_cases c.client n with
    ⟨primary, j, l, next, cand, ha, heq⟩ | ⟨primary, c', heq, hpassed⟩
  · have hlaid : AllLaid { c.client with primary } := hlaid
    rw [heq]
    exact fits_allocated hlaid ha
  · rw [heq] at hsome
    cases hsome

theorem Informed.fits (h : Informed env p) (hcalm : Calm p) (hlaid : AllLaid c.client)
    (hfit : bound p = true → Fits c.client n (view p)) (hs : Handled env c n p i client p')
    (hbound : bound p' = true) : Fits client n (view p') := by
  have hattaching (hphase : p.phase = .attaching) :
      p.miner.closed = false ∧ p.miner.attached = false :=
    ⟨hcalm.busy (by simp [hphase]), hcalm.attaching hphase⟩
  cases hs with
  | @requestV1 s r hm hidle hopen =>
    have hsame := sameSlot_requestV1 env s r
    rw [← hm] at hsame
    exact bound_kept (congrArg (settled applyCall · p.mailbox) hsame.slot) hsame.attached hopen hfit
      rfl hbound
  | @requestSv2 s r hm hidle hopen =>
    have hsame := sameSlot_requestSv2 env s r
    rw [← hm] at hsame
    exact bound_kept (congrArg (settled applyCall · p.mailbox) hsame.slot) hsame.attached hopen hfit
      rfl hbound
  | dropped hclosed hbox =>
    exact absurd (hclosed.symm.trans (bound_iff.mp hbound).2) (by simp)
  | @deliverV1 s ev mailbox hm hidle hopen hbox =>
    obtain ⟨hslot, hatt, -⟩ := slot_handleV1 s ev
    have hev : ev ∈ p.mailbox := hbox ▸ List.mem_cons_self ..
    have hkept : (handleV1 s ev).1.attached = p.miner.attached := by
      rw [hatt, ← show p.miner.attached = s.attached from congrArg Miner.attached hm]
      exact hcalm.attached_delivered hopen hev
    have hstays : (handleV1 s ev).1.closed = false := by
      rw [bound_afterNext] at hbound
      exact (bound_iff.mp hbound).2
    have hnext : (handleV1 s ev).2 ≠ .detach := by
      intro hdetach
      cases ev with
      | rebind slot job diff =>
        have hdone : (if (handleV1 s (.rebind slot job diff)).1.closed then Next.detach else .done) =
          .detach := hdetach
        rw [hstays] at hdone
        cases hdone
      | state up =>
        unfold handleV1 at hdetach
        dsimp only at hdetach
        split at hdetach
        · split at hdetach <;> cases hdetach
        · cases hdetach
      | _ => cases hdetach
    refine bound_kept (view_delivered hbox (hslot.trans (by rw [hm]; rfl))) hkept hopen hfit ?_ hbound
    unfold clientAfter
    split
    · rename_i hdetach
      exact absurd hdetach hnext
    · rfl
  | @deliverSv2 s ev mailbox r hm hidle hopen hbox hr =>
    obtain ⟨hslot, hatt, -⟩ := slot_handleSv2 hr
    have hev : ev ∈ p.mailbox := hbox ▸ List.mem_cons_self ..
    have hkept : r.1.attached = p.miner.attached := by
      rw [hatt, ← show p.miner.attached = s.attached from congrArg Miner.attached hm]
      exact hcalm.attached_delivered hopen hev
    exact bound_kept (view_delivered hbox (hslot.trans (by rw [hm]; rfl))) hkept hopen hfit rfl hbound
  | close hidle hopen =>
    have hclosed : p.miner.close.closed = true := by cases p.miner <;> rfl
    exact absurd (hclosed.symm.trans (bound_iff.mp hbound).2) (by simp)
  | registered hphase => exact hfit hbound
  | @attachV1 s hphase hm =>
    obtain ⟨hopen, hfree⟩ := hattaching hphase
    refine fits_attached hlaid (bound_attachV1 ?_ ?_ _ _) (h.quiet hopen hfree) hbound
    · exact (congrArg Miner.attached hm).symm.trans hfree
    · exact (congrArg Miner.closed hm).symm.trans hopen
  | @attachSv2 s phase hphase hm hnext =>
    obtain ⟨hopen, hfree⟩ := hattaching hphase
    refine fits_attached hlaid (bound_attachSv2 ?_ ?_ _ _) (h.quiet hopen hfree) hbound
    · exact (congrArg Miner.attached hm).symm.trans hfree
    · exact (congrArg Miner.closed hm).symm.trans hopen
  | @fetchV1 s hphase hm =>
    have hsame := sameSlot_jobReturned s (p.miner.slot.linkId.bind c.jobs)
    rw [← hm] at hsame
    have hview : view { p with
        miner := .v1 (ProxySession.jobReturned s (p.miner.slot.linkId.bind c.jobs)),
        phase := .idle } = view p := congrArg (settled applyCall · p.mailbox) hsame.slot
    rw [hview]
    refine hfit (bound_iff.mpr ⟨?_, ?_⟩)
    · exact hsame.attached.symm.trans (bound_iff.mp hbound).1
    · exact hsame.closed.symm.trans (bound_iff.mp hbound).2
  | @fetchSv2 s t hphase hm hjob =>
    have hsame := sameSlot_jobReturnedSv2 hjob
    rw [← hm] at hsame
    have hview : view { p with miner := .sv2 t, phase := .idle } = view p :=
      congrArg (settled applyCall · p.mailbox) hsame.slot
    rw [hview]
    refine hfit (bound_iff.mpr ⟨?_, ?_⟩)
    · exact hsame.attached.symm.trans (bound_iff.mp hbound).1
    · exact hsame.closed.symm.trans (bound_iff.mp hbound).2

/-- The client after a handler lends what it lent to the others. -/
theorem fits_others (hs : Handled env c n p i client p') {slot : HeldSlot}
    (hfit : Fits c.client m slot)
    (htaken : ∀ j, slot.linkId = some j → Taken client j slot.slotId m) : Fits client m slot := by
  have hattach : Fits (attach c.client n).1 m slot := by
    rcases attach_cases c.client n with
      ⟨primary, j, l, next, cand, ha, heq⟩ | ⟨primary, c', heq, hpassed⟩
    · have hfit : Fits { c.client with primary } m slot := hfit
      rw [heq]
      exact hfit.allocate ha
    · have hfit : Fits { c.client with primary } m slot := hfit
      rw [heq]
      exact hfit.passed hpassed
  have hafter (q : Party) (next : Next)
      (htaken : ∀ j, slot.linkId = some j → Taken (clientAfter c.client q next) j slot.slotId m) :
      Fits (clientAfter c.client q next) m slot := by
    unfold clientAfter at htaken ⊢
    split at htaken
    · split at htaken
      · exact hfit
      · refine hfit.modify (fun _ => ⟨rfl, rfl, rfl⟩) fun l t ht hlink hid => ?_
        rename_i j _
        obtain ⟨t', ht', hid', -⟩ := htaken j hlink
        obtain ⟨-, hnot⟩ := (seated_erase _).mp ht'
        rw [seats_erase, List.mem_filter]
        refine ⟨ht, decide_eq_true fun hmem => hnot ⟨rfl, ?_⟩⟩
        rw [hid', ← hid]
        exact hmem
    · exact hfit
  cases hs with
  | attachV1 | attachSv2 => exact hattach
  | deliverV1 | close => exact hafter _ _ htaken
  | _ => exact hfit

theorem laid_handled (hlaid : AllLaid c.client) (hs : Handled env c n p i client p') :
    AllLaid client := by
  have hafter (q : Party) (next : Next) : AllLaid (clientAfter c.client q next) := by
    unfold clientAfter
    split
    · split
      · exact hlaid
      · exact hlaid.modify (fun _ => ⟨rfl, rfl, rfl⟩) (fun _ => rfl) fun _ => rfl
    · exact hlaid
  cases hs with
  | attachV1 | attachSv2 => exact hlaid.attach n
  | deliverV1 | close => exact hafter _ _
  | _ => exact hlaid

theorem AllFit.serves (h : AllFit c) (hbooks : Books c) (hbooks' : Books c')
    (hlaid : AllLaid c.client) (hinf : ∀ (n : Nat) p, c.parties[n]? = some p → Informed env p)
    (hs : Serves env c c' i n p p') : AllFit c' := by
  intro m q hq hbound
  have hq' := hq
  rw [hs.parties] at hq
  by_cases hn : n = m
  · subst hn
    rw [List.getElem?_set_self (List.getElem?_eq_some_iff.mp hs.party).1] at hq
    obtain rfl := Option.some.inj hq
    exact (hinf n p hs.party).fits (hbooks.calm n p hs.party) hlaid (h n p hs.party) hs.handled hbound
  · rw [List.getElem?_set_ne hn] at hq
    refine fits_others hs.handled (h m q hq hbound) fun j hj => ?_
    refine (hbooks'.owned j (view q).slotId m).mpr ?_
    unfold placeAt place
    rw [hq', Option.bind_some, if_pos hbound, hj]
    rfl

/-! ## Steps of the client -/

theorem AllFit.modify (h : AllFit c) {j : Nat} {f : Link → Link} (hsame : ∀ l, SameLoan l (f l))
    (hseats : ∀ l, seats (f l) = seats l) : AllFit { c with client := modifyLink c.client j f } :=
  h.lend fun _ _ hfit => hfit.modify hsame fun l t ht _ _ => by
    rw [hseats]
    exact ht

/-- The extranonce of a link changes before its sessions hear of it. -/
theorem extranonceAt_cases {client client' : Client} {j en2Size : Nat} {en1 : Str} {reconnect : Bool}
    {f : Link → Link} (h : extranonceAt client j en1 en2Size reconnect f = some client') :
    client' = client ∧ client.links[j]? = none ∨ ∃ l l', client.links[j]? = some l ∧
      setUpstreamExtranonce client.nonceBytes client.gone l en1 en2Size reconnect = some l' ∧
      client' = { client with links := client.links.set j (f l') } := by
  unfold extranonceAt at h
  cases hl : client.links[j]? with
  | none =>
    rw [hl] at h
    cases h
    exact .inl ⟨rfl, rfl⟩
  | some l =>
    rw [hl] at h
    obtain ⟨l', hset, h⟩ := Option.bind_eq_some_iff.mp h
    cases h
    exact .inr ⟨l, l', rfl, hset, rfl⟩

theorem settled_extranonce {en1Hex : Str} {en2Size : Nat} {evs : List SinkEvent} (hne : evs ≠ [])
    (hall : ∀ ev ∈ evs, ev = .extranonce en1Hex en2Size) (slot : HeldSlot) :
    settled applyCall slot evs = slot.withExtranonce en1Hex en2Size := by
  induction evs generalizing slot with
  | nil => exact absurd rfl hne
  | cons ev evs ih =>
    rw [settled_cons, hall ev (List.mem_cons_self ..)]
    cases evs with
    | nil => rfl
    | cons ev' evs =>
      rw [ih (by simp) fun e he => hall e (List.mem_cons_of_mem ev he)]
      rfl

/-- A subscribe result repeats what the link lent, where it lends. -/
theorem AllFit.subscribed (h : AllFit c) (hlaid : AllLaid c.client) {j en2Size : Nat} {en1 : Str}
    {f : Link → Link} (hf : ∀ l, SameLoan l (f l) ∧ seats (f l) = seats l)
    (hspan : ∀ l, (f l).slotSpan = l.slotSpan ∧ (f l).nextSlot = l.nextSlot)
    (hok : ∀ l, c.client.links[j]? = some l →
      (l.subscribers ≠ [] → en1 = l.upEn1 ∧ en2Size = l.upEn2Size) ∧
      l.nextSlot < 256 ^ effectiveBytes c.client.nonceBytes en2Size)
    (hs : extranonceAt c.client j en1 en2Size false f = some client) :
    AllFit { c with client } ∧ AllLaid client := by
  rcases extranonceAt_cases hs with ⟨rfl, -⟩ | ⟨l, l', hl, hset, rfl⟩
  · exact ⟨h, hlaid⟩
  · obtain ⟨hsame, hnext⟩ := hok l hl
    have hold := hlaid l (List.mem_of_getElem? hl)
    obtain ⟨hnew, hen1, hsize, hseats⟩ := laid_extranonce hset hnext
    have hloan : l.subscribers ≠ [] → SameLoan l l' := by
      intro hne
      obtain ⟨rfl, rfl⟩ := hsame hne
      exact ⟨hen1, hsize, by rw [hnew.eff, hold.eff, hsize]⟩
    refine ⟨h.lend fun n slot hfit => hfit.set hl (fun t ht => ?_) fun t ht _ _ => ?_,
      hlaid.set (hnew.same (hf l').1 (hspan l').1 fun hlt => ?_)⟩
    · have hne : l.subscribers ≠ [] := by
        intro hnil
        unfold seats at ht
        rw [hnil] at ht
        cases ht
      have hfirst := hloan hne
      have hsecond := (hf l').1
      exact ⟨hsecond.upEn1.trans hfirst.upEn1, hsecond.upEn2Size.trans hfirst.upEn2Size,
        hsecond.eff.trans hfirst.eff⟩
    · rw [(hf l').2, hseats]
      exact ht
    · rw [(hspan l').2]
      exact hlt

/-- The calls of `set_extranonce` tell a session on the link its new values. -/
theorem calls_reissue (hbooks : Books c) {j k : Nat} {l : Link} {hex : Str}
    (hl : c.client.links[j]? = some l) (hp : c.parties[n]? = some p)
    (hmem : ⟨k, n, hex⟩ ∈ seats l) (hopen : p.miner.closed = false) :
    callsOf n (reissues c.client j) ≠ [] ∧ ∀ ev ∈ callsOf n (reissues c.client j),
      ev = .extranonce (l.upEn1 ++ hex) (rest l.upEn2Size l.nonceBytesEff) := by
  have hcalls {ev : SinkEvent} : ev ∈ callsOf n (reissues c.client j) ↔
      ∃ e ∈ l.subscribers, e.2.sink ∉ c.client.gone ∧ e.2.sink = n ∧
        ev = .extranonce (l.upEn1 ++ e.2.slotHex) (rest l.upEn2Size l.nonceBytesEff) := by
    unfold reissues
    rw [mem_callsOf, hl]
    simp only [List.mem_map, List.mem_filter, decide_eq_true_eq, Prod.mk.injEq]
    constructor
    · rintro ⟨e, ⟨he, hlive⟩, hn, rfl⟩
      exact ⟨e, he, hlive, hn, rfl⟩
    · rintro ⟨e, he, hlive, hn, rfl⟩
      exact ⟨e, ⟨he, hlive⟩, hn, rfl⟩
  obtain ⟨e, he, heq⟩ := List.mem_map.mp hmem
  obtain ⟨rfl, rfl, rfl⟩ := Seat.mk.injEq .. ▸ heq
  constructor
  · have hlive : e.2.sink ∉ c.client.gone := by
      intro hgone
      obtain ⟨q, hq, hclosed⟩ := hbooks.gone _ hgone
      obtain rfl := Option.some.inj (hp.symm.trans hq)
      exact absurd (hopen.symm.trans hclosed) Bool.false_ne_true
    exact List.ne_nil_of_mem (hcalls.mpr ⟨e, he, hlive, rfl, rfl⟩)
  · intro ev hev
    obtain ⟨e', he', -, hsink, rfl⟩ := hcalls.mp hev
    -- the sink has one entry
    have hown := (hbooks.owned j e.1 e.2.sink).mp (taken_of_mem hl he)
    have hown' := (hbooks.owned j e'.1 e.2.sink).mp (hsink ▸ taken_of_mem hl he')
    have hid : e'.1 = e.1 := congrArg Prod.snd (Option.some.inj (hown'.symm.trans hown))
    have hseat : seatOf e' = seatOf e :=
      List.inj_on_of_nodup_map (hbooks.apart l (List.mem_of_getElem? hl))
        (List.mem_map_of_mem he') (List.mem_map_of_mem he) hid
    rw [show e'.2.slotHex = e.2.slotHex from congrArg Seat.slotHex hseat]

theorem AllFit.reissued (h : AllFit c) (hbooks : Books c) (hlaid : AllLaid c.client)
    {j en2Size : Nat} {en1 : Str}
    (hok : ∀ l, c.client.links[j]? = some l →
      (l.subscribers ≠ [] → effectiveBytes c.client.nonceBytes en2Size = l.nonceBytesEff) ∧
      l.nextSlot < 256 ^ effectiveBytes c.client.nonceBytes en2Size)
    (hs : extranonceAt c.client j en1 en2Size true id = some client) :
    AllFit { c with client, parties := postAll c.parties (reissues client j) } ∧
      AllLaid client := by
  obtain ⟨hkept, hgone⟩ := seats_extranonceAt (f := id) (fun _ => rfl) hs
  have hbooks' : Books { c with client } := hbooks.client hkept hgone
  rcases extranonceAt_cases hs with ⟨rfl, hnone⟩ | ⟨l, l', hl, hset, rfl⟩
  · have hcalls : reissues c.client j = [] := by
      unfold reissues
      rw [hnone]
    rw [hcalls]
    exact ⟨h, hlaid⟩
  · obtain ⟨hwidth, hnext⟩ := hok l hl
    obtain ⟨hnew, hen1, hsize, hseats⟩ := laid_extranonce hset hnext
    have hl' : (c.client.links.set j l')[j]? = some l' :=
      List.getElem?_set_self (List.getElem?_eq_some_iff.mp hl).1
    refine ⟨fun n q hq hbound => ?_, hlaid.set hnew⟩
    dsimp only at hq
    rw [getElem?_postAll] at hq
    obtain ⟨p, hp, rfl⟩ := Option.map_eq_some_iff.mp hq
    have hbound : bound p = true := hbound
    obtain ⟨i, l₀, hi, hl₀, hmem, hslot, hrest, hlen⟩ := h n p hp hbound
    show Fits { c.client with links := c.client.links.set j l' } n (view { p with
      mailbox := p.mailbox ++ callsOf n (reissues { c.client with
        links := c.client.links.set j l' } j) })
    by_cases hij : i = j
    · subst hij
      obtain rfl := Option.some.inj (hl.symm.trans hl₀)
      have hmem' : ⟨(view p).slotId, n, (view p).slotHex⟩ ∈ seats l' := hseats ▸ hmem
      obtain ⟨hne, hall⟩ := calls_reissue hbooks' hl' hp hmem' (bound_iff.mp hbound).2
      have hview : view { p with
          mailbox := p.mailbox ++ callsOf n (reissues { c.client with
            links := c.client.links.set i l' } i) } =
          (view p).withExtranonce (l'.upEn1 ++ (view p).slotHex)
            (rest l'.upEn2Size l'.nonceBytesEff) := by
        unfold view
        rw [settled_append]
        exact settled_extranonce hne hall _
      have hsubs : l.subscribers ≠ [] := by
        intro hnil
        unfold seats at hmem
        rw [hnil] at hmem
        cases hmem
      rw [hview]
      refine ⟨i, l', hi, hl', hmem', rfl, rfl, ?_⟩
      rw [hnew.eff, hsize, hwidth hsubs]
      exact hlen
    · -- the session is entered on another link only
      have hcalls : callsOf n (reissues { c.client with links := c.client.links.set j l' } j) = [] := by
        refine List.eq_nil_iff_forall_not_mem.mpr fun ev hev => hij ?_
        unfold reissues at hev
        rw [mem_callsOf] at hev
        dsimp only at hev
        rw [hl'] at hev
        obtain ⟨e, he, heq⟩ := List.mem_map.mp hev
        obtain ⟨rfl, -⟩ := Prod.mk.inj heq
        have hthere := (hbooks'.owned j e.1 e.2.sink).mp
          (taken_of_mem hl' (List.mem_filter.mp he).1)
        have hhere : placeAt c.parties e.2.sink = some (i, (view p).slotId) := by
          unfold placeAt place
          rw [hp, Option.bind_some]
          rw [if_pos (show bound p = true from hbound), hi]
          rfl
        exact congrArg Prod.fst (Option.some.inj (hhere.symm.trans hthere))
      rw [hcalls, List.append_nil]
      have hstay : Fits c.client n (view p) := ⟨i, l₀, hi, hl₀, hmem, hslot, hrest, hlen⟩
      refine hstay.kept fun i' l₁ hi' hl₁ hmem₁ => ?_
      obtain rfl := Option.some.inj (hi.symm.trans hi')
      exact ⟨l₁, (List.getElem?_set_ne (Ne.symm hij)).trans hl₁, ⟨rfl, rfl, rfl⟩, hmem₁⟩

/-! ## Migration -/

/-- What a migration keeps on its way. -/
structure FitsUnderway (c : State) (i : Nat) (m : Moving) : Prop where
  places : Underway c i m
  laid : AllLaid m.client
  fits : ∀ (n : Nat) p, m.parties[n]? = some p → bound p = true → Fits m.client n (view p)

theorem FitsUnderway.move {j : Nat} {m m' : Moving} (h : FitsUnderway c j m)
    (hmove : Move c j m m') : FitsUnderway c j m' := by
  have hplaces := h.places.move hmove
  cases hmove with
  | erase => exact ⟨hplaces, h.laid, h.fits⟩
  | skip hpassed =>
    exact ⟨hplaces, h.laid.passed hpassed, fun n p hp hbound => (h.fits n p hp hbound).passed hpassed⟩
  | @move t k next cand l hseat hleft hlive hne ha =>
    refine ⟨hplaces, h.laid.allocate ha, fun n q hq hbound => ?_⟩
    dsimp only at hq
    rw [getElem?_post] at hq
    split at hq
    · rename_i hn
      subst hn
      obtain ⟨p, hp, rfl⟩ := Option.map_eq_some_iff.mp hq
      rw [view_posted]
      exact fits_allocated h.laid ha
    · exact (h.fits n q hq hbound).allocate ha

theorem AllFit.closeLink (h : AllFit c) (hbooks : Books c) (hlaid : AllLaid c.client) {j : Nat}
    {order : List (Nat × Subscriber)}
    (hoffer : ∃ l, c.client.links[j]? = some l ∧ order.Perm l.subscribers) :
    AllFit (closeLink c j order) ∧ AllLaid (closeLink c j order).client := by
  have hstart : FitsUnderway c j ⟨migrationStart c.client j, [], c.parties⟩ := by
    refine ⟨hbooks.underway j, ?_, fun n p hp hbound => ?_⟩
    · exact hlaid.modify (fun _ => ⟨rfl, rfl, rfl⟩) (fun _ => rfl) fun _ => rfl
    · exact (h n p hp hbound).modify (fun _ => ⟨rfl, rfl, rfl⟩) fun _ _ ht _ _ => ht
  obtain ⟨m, moved, hm, heq⟩ :=
    closeLink_induction hbooks.apart hoffer hstart fun _ _ h => h.move
  rw [heq]
  refine ⟨?_, ?_⟩
  · have herased : AllFit { c with
        client := modifyLink m.client j (eraseSlots m.ids), parties := m.parties } := by
      intro n p hp hbound
      have hfit := hm.fits n p hp hbound
      refine hfit.modify (fun _ => ⟨rfl, rfl, rfl⟩) fun l t ht hlink hid => ?_
      have hplace : placeAt m.parties n = some (j, (view p).slotId) := by
        unfold placeAt place
        dsimp only at hp
        rw [hp, Option.bind_some, if_pos hbound, hlink]
        rfl
      have hnot := ((hm.places.owned j (view p).slotId n).mpr hplace).2
      rw [seats_erase, List.mem_filter]
      refine ⟨ht, decide_eq_true fun hmem => hnot ⟨rfl, ?_⟩⟩
      rw [← hid]
      exact hmem
    refine herased.post fun call hcall => ?_
    obtain ⟨o, -, hsome⟩ := List.mem_filterMap.mp hcall
    split at hsome
    · obtain rfl := Option.some.inj hsome
      rfl
    · cases hsome
  · exact hm.laid.modify (fun _ => ⟨rfl, rfl, rfl⟩) (fun _ => rfl) fun _ => rfl

/-! ## Runs -/

/-- What is kept. -/
structure Follows (env : Env) (c : State) : Prop where
  books : Books c
  laid : AllLaid c.client
  fits : AllFit c
  informed : ∀ (n : Nat) p, c.parties[n]? = some p → Informed env p

theorem Follows.current (h : Follows env c) : Current env c := by
  intro hdel p hp hopen hatt
  obtain ⟨n, hn⟩ := List.mem_iff_getElem?.mp hp
  refine ⟨?_, (h.informed n p hn).told hopen hatt⟩
  have hview : view p = p.miner.slot := by
    unfold view
    rw [hdel p hp, settled_nil]
  obtain ⟨i, l, hi, hl, -, hen1, hen2, hlen⟩ := h.fits n p hn (bound_iff.mpr ⟨hatt, hopen⟩)
  rw [hview] at hi hen1 hen2 hlen
  refine ⟨i, l, hi, hl, hen1, ?_⟩
  have hrest := @effectiveBytes_fits c.client.nonceBytes l.upEn2Size
  rw [← (h.laid l (List.mem_of_getElem? hl)).eff] at hrest
  omega

theorem informed_new {m : Miner} (hfree : m.attached = false) :
    Informed env { miner := m } where
  told _ hatt := absurd (hfree.symm.trans hatt) Bool.false_ne_true
  quiet _ _ _ hev := nomatch hev

theorem AllFit.connect (h : AllFit c) (hfree : p.miner.attached = false) :
    AllFit { c with parties := c.parties ++ [p] } := by
  intro n q hq hbound
  dsimp only at hq
  rcases Nat.lt_or_ge n c.parties.length with hn | hn
  · rw [List.getElem?_append_left hn] at hq
    exact h n q hq hbound
  · rw [List.getElem?_append_right hn] at hq
    obtain rfl := List.mem_singleton.mp (List.mem_of_getElem? hq)
    exact absurd (hfree.symm.trans (bound_iff.mp hbound).1) Bool.false_ne_true

/-- **A step keeps the loans.** -/
theorem Follows.loans (h : Follows env c) (hbooks' : Books c') (hoffer : Offered c i)
    (hok : Steady env c i) (hs : react env c i = some c') : AllFit c' ∧ AllLaid c'.client := by
  have hmodify {j : Nat} {f : Link → Link} (hsame : ∀ l, SameLoan l (f l))
      (hseats : ∀ l, seats (f l) = seats l) (hspan : ∀ l, (f l).slotSpan = l.slotSpan)
      (hnext : ∀ l, (f l).nextSlot = l.nextSlot) :
      AllFit { c with client := modifyLink c.client j f } ∧ AllLaid (modifyLink c.client j f) :=
    ⟨h.fits.modify hsame hseats, h.laid.modify hsame hspan hnext⟩
  cases i with
  | connectLink j | connOpen j =>
    cases hs
    exact hmodify (fun _ => ⟨rfl, rfl, rfl⟩) (fun _ => rfl) (fun _ => rfl) fun _ => rfl
  | connClose j order =>
    cases hs
    exact h.fits.closeLink h.books h.laid hoffer.2
  | subscribeResult j en1 en2Size =>
    obtain ⟨client, hclient, rfl⟩ := Option.map_eq_some_iff.mp hs
    exact h.fits.subscribed h.laid (f := fun l => { l with subscribed := true })
      (fun _ => ⟨⟨rfl, rfl, rfl⟩, rfl⟩) (fun _ => ⟨rfl, rfl⟩) hok.2 hclient
  | authorizeResult j =>
    rw [react] at hs
    obtain ⟨c₁, hc₁, rfl⟩ := Option.map_eq_some_iff.mp hs
    cases hc₁
    obtain ⟨hfits, hlaid⟩ := hmodify (j := j) (f := fun l => { l with authorized := true })
      (fun _ => ⟨rfl, rfl, rfl⟩) (fun _ => rfl) (fun _ => rfl) fun _ => rfl
    refine ⟨hfits.post fun call hcall => ?_, hlaid⟩
    obtain ⟨_, -, rfl⟩ := List.mem_map.mp hcall
    rfl
  | setExtranonce j en1 en2Size =>
    rw [react] at hs
    obtain ⟨c₁, hc₁, rfl⟩ := Option.map_eq_some_iff.mp hs
    obtain ⟨client, hclient, rfl⟩ := Option.map_eq_some_iff.mp hc₁
    exact h.fits.reissued h.books h.laid hok.2 hclient
  | setDifficulty j diff =>
    rw [react] at hs
    split at hs
    · cases hs
      exact ⟨h.fits, h.laid⟩
    · cases hs
      refine ⟨h.fits.post fun call hcall => ?_, h.laid⟩
      obtain ⟨_, -, rfl⟩ := List.mem_map.mp hcall
      rfl
  | notify j job =>
    cases hs
    exact ⟨h.fits, h.laid⟩
  | handOn =>
    rw [react] at hs
    split at hs
    · cases hs
      exact ⟨h.fits, h.laid⟩
    · cases hs
      refine ⟨h.fits.post fun call hcall => ?_, h.laid⟩
      obtain ⟨_, -, rfl⟩ := List.mem_map.mp hcall
      rfl
  | connectV1 | connectSv2 =>
    cases hs
    exact ⟨h.fits.connect rfl, h.laid⟩
  | requestV1 m | requestSv2 m | advance m | deliver m | close m =>
    rcases serves_cases hoffer hs rfl with rfl | ⟨p, p', hserves⟩
    · exact ⟨h.fits, h.laid⟩
    · exact ⟨h.fits.serves h.books hbooks' h.laid h.informed hserves,
        laid_handled h.laid hserves.handled⟩
  | destroy m =>
    cases hs
    exact ⟨h.fits, h.laid⟩

theorem Follows.react (h : Follows env c) (hoffer : Offered c i) (hok : Steady env c i)
    (hs : react env c i = some c') : Follows env c' := by
  have hbooks := h.books.react hoffer hok.1 hs
  obtain ⟨hfits, hlaid⟩ := h.loans hbooks hoffer hok hs
  refine ⟨hbooks, hlaid, hfits, fun n q hq => ?_⟩
  rcases party_cases hoffer hs hq with ⟨p, hp, hstep⟩ | rfl | rfl
  · exact (h.informed n p hp).step h.books hp hok hstep
  · exact informed_new rfl
  · exact informed_new rfl

end Sessions

theorem Follows.initial (env : Env) (n : UInt8) (activeActive : Bool) (weights : List Nat) :
    Follows env (initial n activeActive weights) where
  books := .initial n activeActive weights
  laid l hl := by
    obtain ⟨w, -, rfl⟩ := List.mem_map.mp hl
    exact ⟨rfl, .inl rfl⟩
  fits _ _ hp := nomatch hp
  informed _ _ hp := nomatch hp

/-- **In every run whose extranonces keep what sessions were lent, and whose
relay sessions have a job to tell, the sessions follow their links.** -/
theorem sessions_follow {env : Env} {c : State} (h : Run env (Steady env) c) : Current env c := by
  have hfollows : Follows env c := by
    induction h with
    | init n activeActive weights => exact .initial env n activeActive weights
    | step _ hoffer hok hs ih => exact ih.react hoffer hok hs
  exact hfollows.current

/-! ### Such a run -/

/-- A move of V1 miners, after which none has missed anything. -/
def steadyMove (c : State) (i : Input) : Bool :=
  orderlyMove c i &&
    match i with
    | .subscribeResult j _ en2Size =>
      (c.client.links[j]?).all fun l =>
        l.subscribers.isEmpty && decide (l.nextSlot < 256 ^ effectiveBytes c.client.nonceBytes en2Size)
    | .setExtranonce j _ en2Size =>
      (c.client.links[j]?).all fun l =>
        decide (effectiveBytes c.client.nonceBytes en2Size = l.nonceBytesEff) &&
          decide (l.nextSlot < 256 ^ effectiveBytes c.client.nonceBytes en2Size)
    | .advance n | .deliver n =>
      (c.parties[n]?).all fun p =>
        match p.miner with
        | .v1 _ => true
        | .sv2 _ => false
    | _ => true

theorem steady_of_move (env : Env) (c : State) (i : Input) (h : steadyMove c i = true) :
    Steady env c i := by
  obtain ⟨horderly, h⟩ := (Bool.and_eq_true _ _).mp h
  refine ⟨orderly_of_move c i horderly, ?_⟩
  have hv1 {n : Nat} (h : (c.parties[n]?).all (fun p =>
      match p.miner with
      | .v1 _ => true
      | .sv2 _ => false) = true) :
      ∀ p ∈ c.parties[n]?, ∀ s, p.miner ≠ .sv2 s := by
    intro p hp s hm
    rw [Option.mem_def.mp hp] at h
    dsimp only [Option.all] at h
    rw [hm] at h
    cases h
  cases i with
  | subscribeResult j en1 en2Size =>
    intro l hl
    dsimp only at h
    rw [hl] at h
    simp only [Option.all, Bool.and_eq_true, List.isEmpty_iff, decide_eq_true_eq] at h
    exact ⟨fun hne => absurd h.1 hne, h.2⟩
  | setExtranonce j en1 en2Size =>
    intro l hl
    dsimp only at h
    rw [hl] at h
    simp only [Option.all, Bool.and_eq_true, decide_eq_true_eq] at h
    exact ⟨fun _ => h.1, h.2⟩
  | advance n => exact fun p hp _ s hm => absurd hm (hv1 h p hp s)
  | deliver n => exact fun p hp s hm => absurd hm (hv1 h p hp s)
  | _ => trivial

/-- The values of the first session. -/
def firstHolds (c : State) : Option (Str × Nat) :=
  (c.parties[0]?).map fun p => (p.miner.slot.en1Hex, p.miner.slot.en2Size)

/-- A miner is told of a new extranonce, and of another link. -/
theorem sessions_follow_moved :
    ∃ c, Run sampleEnv (Steady sampleEnv) c ∧ firstHolds c = some ("b00000".toList, 6) ∧
      Current sampleEnv c := by
  obtain ⟨c, hrun, hkind⟩ := exists_run sampleEnv steadyMove (steady_of_move sampleEnv) [1, 1]
    (linkUp 0 "a0" ++ linkUp 1 "b0" ++ [.connectV1, .requestV1 0 .extranonceSubscribe] ++
      attaches 0 ++ [.setExtranonce 0 "c0".toList 8, .deliver 0,
        .connClose 0 [(0, ⟨0, "0000".toList, 6⟩)], .deliver 0])
    (fun c => decide (firstHolds c = some ("b00000".toList, 6))) (by decide +kernel)
  exact ⟨c, hrun, of_decide_eq_true hkind, sessions_follow hrun⟩

/-! ### Sessions that are left behind -/

/-- All calls are delivered, and an open session has not the values of its link. -/
def astray (c : State) : Bool :=
  c.parties.all (fun p => p.mailbox.isEmpty) && c.parties.any fun p =>
    !p.miner.closed && p.miner.attached &&
      match p.miner.slot.linkId.bind (c.client.links[·]?) with
      | none => true
      | some l => decide (p.miner.slot.en1Hex ≠ l.upEn1 ++ p.miner.slot.slotHex) ||
          decide (2 * p.miner.slot.en2Size + p.miner.slot.slotHex.length ≠ 2 * l.upEn2Size)

theorem not_current_of_astray {env : Env} {c : State} (h : astray c = true) : ¬ Current env c := by
  intro hcurrent
  simp only [astray, Bool.and_eq_true, List.all_eq_true, List.isEmpty_iff, List.any_eq_true,
    Bool.not_eq_true'] at h
  obtain ⟨hdel, p, hp, ⟨hopen, hatt⟩, hwrong⟩ := h
  obtain ⟨⟨i, l, hi, hl, hen1, hen2⟩, -⟩ := hcurrent hdel p hp hopen hatt
  rw [hi, Option.bind_some, hl] at hwrong
  simp [hen1, hen2] at hwrong

/-- All calls are delivered, and an SV2 miner has an extranonce 1 from before. -/
def untold (c : State) : Bool :=
  c.parties.all (fun p => p.mailbox.isEmpty) && c.parties.any fun p =>
    !p.miner.closed && p.miner.attached &&
      match p.miner with
      | .v1 _ => false
      | .sv2 s =>
        match s.sent.find? telling with
        | some (.reply (.openStandardSuccess msg)) =>
          decide (hexToBytes s.slot.en1Hex ≠ some msg.extranoncePrefix)
        | _ => false

theorem not_current_of_untold {env : Env} {c : State} (h : untold c = true) : ¬ Current env c := by
  intro hcurrent
  simp only [untold, Bool.and_eq_true, List.all_eq_true, List.isEmpty_iff, List.any_eq_true,
    Bool.not_eq_true'] at h
  obtain ⟨hdel, p, hp, ⟨hopen, hatt⟩, hwrong⟩ := h
  obtain ⟨-, htold⟩ := hcurrent hdel p hp hopen hatt
  cases hm : p.miner with
  | v1 s =>
    rw [hm] at hwrong
    cases hwrong
  | sv2 s =>
    rw [hm] at hwrong htold
    obtain ⟨-, f, hf, htells⟩ := htold
    dsimp only at hwrong
    split at hwrong
    · rename_i msg hmsg
      obtain rfl := Option.some.inj (hmsg.symm.trans hf)
      exact of_decide_eq_true hwrong htells
    · cases hwrong

/-- A run to a state where a session does not follow its only link, which lends
some values. -/
def Strays (en1 : String) (en2Size : Nat) (holds : String × Nat) : Prop :=
  ∃ c, Run sampleEnv (fun _ _ => True) c ∧
    c.client.links.map (fun l => (l.upEn1, l.upEn2Size)) = [(en1.toList, en2Size)] ∧
    firstHolds c = some (holds.1.toList, holds.2) ∧ ¬ Current sampleEnv c

theorem strays_of_inputs {en1 : String} {en2Size : Nat} {holds : String × Nat}
    (inputs : List Input)
    (h : (reactAll sampleEnv (fun _ _ => true) (initial 2 false [1]) inputs).any (fun c =>
      decide (c.client.links.map (fun l => (l.upEn1, l.upEn2Size)) = [(en1.toList, en2Size)]) &&
        (decide (firstHolds c = some (holds.1.toList, holds.2)) && (astray c || untold c))) = true) :
    Strays en1 en2Size holds := by
  obtain ⟨c, hrun, hkind⟩ := exists_run sampleEnv (fun _ _ => true) (fun _ _ _ => trivial) [1]
    inputs _ h
  simp only [Bool.and_eq_true, decide_eq_true_eq, Bool.or_eq_true] at hkind
  obtain ⟨hlends, hholds, hwrong⟩ := hkind
  exact ⟨c, hrun, hlends, hholds, hwrong.elim not_current_of_astray not_current_of_untold⟩

/-- A link that was lost comes back with another extranonce: the session that
stayed bound to it has the old one. An extranonce 2 of another width leaves a
session's values not adding up. And an SV2 miner is not told while there is no
job. -/
theorem sessions_left_behind :
    Strays "b0" 8 ("a00000", 6) ∧ Strays "a0" 2 ("a00000", 1) ∧ Strays "c0" 8 ("c00000", 6) :=
  ⟨strays_of_inputs (linkUp 0 "a0" ++ [.connectV1, .requestV1 0 .extranonceSubscribe] ++
      attaches 0 ++ [.connClose 0 [(0, ⟨0, "0000".toList, 6⟩)], .deliver 0] ++ linkUp 0 "b0")
      (by decide +kernel),
    strays_of_inputs (linkUp 0 "a0" ++ [.connectV1] ++ attaches 0 ++
      [.setExtranonce 0 "a0".toList 2, .deliver 0]) (by decide +kernel),
    strays_of_inputs (linkUp 0 "a0" ++ [.connectSv2, .requestSv2 0 .setupConnection,
      .requestSv2 0 (.openStandardChannel 1), .advance 0, .advance 0,
      .setExtranonce 0 "c0".toList 8, .deliver 0]) (by decide +kernel)⟩

end MkPool.Following
