import MkPool.UpstreamClient
import Mathlib.Tactic.SplitIfs

/-! # Slots of one link do not overlap

A slot is a number below `256 ^ nonce_bytes_eff`, written in that many bytes.
The width is worked out anew for every upstream extranonce, while the slots
that are taken stay as they are. -/
namespace MkPool.Slots
open MkPool.Lib MkPool.Utils MkPool.UpstreamClient

/-- The sink of the subscriber still locks. -/
def Live (gone : List Nat) (e : Nat × Subscriber) : Prop := e.2.sink ∉ gone

instance (gone : List Nat) : DecidablePred (Live gone) :=
  fun e => inferInstanceAs (Decidable (e.2.sink ∉ gone))

/-! ## What is kept of a link -/

/-- The slots of a link, its allocator and its extranonce. -/
structure Kept (gone : List Nat) (l : Link) : Prop where
  keys : (l.subscribers.map Prod.fst).Nodup
  slots : ∀ e ∈ l.subscribers, Live gone e → e.1 < 256 ^ l.nonceBytesEff ∧
    e.2.slotHex = hexPadded (l.nonceBytesEff * 2) e.1 ∧
    e.2.given + l.nonceBytesEff = l.upEn2Size ∧ 0 < l.nonceBytesEff
  fits : l.nonceBytesEff = 0 ∨ l.nonceBytesEff < l.upEn2Size
  span : l.slotSpan = 256 ^ l.nonceBytesEff ∧ l.nextSlot < l.slotSpan ∨
    l.subscribed = false ∧ l.nextSlot = 0
  usable : l.subscribed = true → l.upEn1 ≠ [] ∧ 0 < l.nonceBytesEff

section Links

variable {gone : List Nat} {l : Link} {i sink : Nat}

theorem kept_new (weight : Nat) : Kept gone { weight } :=
  ⟨List.nodup_nil, by simp, .inl rfl, .inr ⟨rfl, rfl⟩, by simp⟩

/-- The slots that are taken. -/
def taken (l : Link) : List Nat := l.subscribers.map Prod.fst

/-- Nothing of the allocator changes, and no slot is added. -/
theorem Kept.same {l' : Link} (h : Kept gone l) (hsubs : l'.subscribers.Sublist l.subscribers)
    (heff : l'.nonceBytesEff = l.nonceBytesEff) (hsize : l'.upEn2Size = l.upEn2Size)
    (hspan : l'.slotSpan = l.slotSpan) (hnext : l'.nextSlot = l.nextSlot)
    (hen1 : l'.upEn1 = l.upEn1) (hdown : l'.subscribed = true → l.subscribed = true) :
    Kept gone l' where
  keys := h.keys.sublist (hsubs.map _)
  slots := by
    rw [heff, hsize]
    exact fun e he => h.slots e (hsubs.subset he)
  fits := by
    rw [heff, hsize]
    exact h.fits
  span := by
    rw [heff, hspan, hnext]
    refine h.span.imp_right fun hs => ⟨?_, hs.2⟩
    by_contra hup
    exact absurd (hdown (by simpa using hup)) (by simp [hs.1])
  usable := by
    rw [heff, hen1]
    exact fun hup => h.usable (hdown hup)

theorem Kept.down (h : Kept gone l) : Kept gone (down l) :=
  h.same (.refl _) rfl rfl rfl rfl rfl (by simp [UpstreamClient.down])

theorem Kept.erase (h : Kept gone l) (ids : List Nat) : Kept gone (eraseSlots ids l) :=
  h.same List.filter_sublist rfl rfl rfl rfl rfl id

theorem Kept.lost (h : Kept gone l) (sink : Nat) : Kept (sink :: gone) l :=
  ⟨h.keys, fun e he hlive => h.slots e he fun hg => hlive (List.mem_cons_of_mem _ hg),
    h.fits, h.span, h.usable⟩

/-- What readiness means for a link. -/
theorem linkReady_iff : linkReady l = true ↔ l.connected = true ∧ l.authorized = true ∧
    l.subscribed = true ∧ l.upEn1 ≠ [] ∧ 0 < l.slotSpan ∧ 0 < l.nonceBytesEff ∧
    l.subscribers.length < l.slotSpan := by
  unfold linkReady
  simp only [Bool.and_eq_true, Bool.not_eq_true', decide_eq_true_eq, List.isEmpty_eq_false_iff,
    and_assoc]

/-- The slot `cand` of a link for a sink. -/
def entry (l : Link) (sink cand : Nat) : Nat × Subscriber :=
  (cand, ⟨sink, hexPadded (l.nonceBytesEff * 2) cand, rest l.upEn2Size l.nonceBytesEff⟩)

def slotOf (l : Link) (linkId cand : Nat) : ProxySlot where
  linkId
  slotId := cand
  slotHex := hexPadded (l.nonceBytesEff * 2) cand
  en1Hex := l.upEn1 ++ hexPadded (l.nonceBytesEff * 2) cand
  en2Size := rest l.upEn2Size l.nonceBytesEff

/-- **An allocation on a ready link succeeds**, with a new slot of the link's
width. -/
theorem allocateOn_ready (i sink : Nat) (h : Kept gone l) (hready : linkReady l = true) :
    ∃ cand next, cand < l.slotSpan ∧ cand ∉ taken l ∧ next < l.slotSpan ∧
      allocateOn l i sink =
        ({ l with nextSlot := next, subscribers := entry l sink cand :: l.subscribers },
          some (slotOf l i cand)) := by
  obtain ⟨_, _, hsub, _, _, _, hroom⟩ := linkReady_iff.mp hready
  have hnext : l.nextSlot < l.slotSpan := by
    rcases h.span with hs | ⟨hs, _⟩
    · exact hs.2
    · rw [hs] at hsub
      cases hsub
  have hlen : (taken l).length < l.slotSpan := by simpa [taken] using hroom
  obtain ⟨n, hn, hfree⟩ := RoundRobin.exists_free hlen
  obtain ⟨cand, hcand⟩ := RoundRobin.search_complete hnext hn hfree
  have hlt : (RoundRobin.search (· ∈ taken l) l.slotSpan l.slotSpan l.nextSlot).2 < l.slotSpan :=
    RoundRobin.search_next_lt hnext
  refine ⟨cand, _, RoundRobin.search_lt hnext hcand, RoundRobin.search_free hcand, hlt, ?_⟩
  unfold allocateOn
  rw [hready]
  cases hs : RoundRobin.search (· ∈ taken l) l.slotSpan l.slotSpan l.nextSlot with
  | mk found next =>
    rw [hs] at hcand
    obtain rfl : found = some cand := hcand
    unfold taken at hs
    simp only [Bool.not_true, Bool.false_eq_true, if_false, hs]
    rfl

theorem allocateOn_not_ready (hready : ¬ linkReady l = true) :
    allocateOn l i sink = (l, none) := by
  unfold allocateOn
  rw [Bool.not_eq_true] at hready
  simp [hready]

theorem Kept.allocateOn (h : Kept gone l) : Kept gone (allocateOn l i sink).1 := by
  by_cases hready : linkReady l = true
  · obtain ⟨cand, next, hcand, hfree, hnext, ha⟩ := allocateOn_ready i sink h hready
    obtain ⟨_, _, hsub, _, _, heff, _⟩ := linkReady_iff.mp hready
    rw [ha]
    have hspan : l.slotSpan = 256 ^ l.nonceBytesEff := by
      rcases h.span with hs | ⟨hs, _⟩
      · exact hs.1
      · rw [hs] at hsub
        cases hsub
    have hfits : l.nonceBytesEff < l.upEn2Size := h.fits.resolve_left (by omega)
    refine ⟨List.nodup_cons.mpr ⟨hfree, h.keys⟩, ?_, h.fits, .inl ⟨hspan, hnext⟩, h.usable⟩
    intro e he hlive
    rcases List.mem_cons.mp he with rfl | he
    · refine ⟨hspan ▸ hcand, rfl, ?_, heff⟩
      show rest l.upEn2Size l.nonceBytesEff + l.nonceBytesEff = l.upEn2Size
      unfold rest
      rw [if_pos hfits]
      omega
    · exact h.slots e he hlive
  · rw [allocateOn_not_ready hready]
    exact h

/-- An extranonce suits a link. Its slots can be counted in 32 bits; while a
subscriber lives the width stays, and at a subscription, of which the sessions
are not told, the size too; the next slot is one of the width; and a link in use
gets an extranonce it can share out. -/
structure Suits (nonceBytes : Nat) (gone : List Nat) (l : Link) (en1 : Str) (en2Size : Nat)
    (subscribing : Bool) : Prop where
  shift : effectiveBytes nonceBytes en2Size < 4
  width : ∀ e ∈ l.subscribers, Live gone e → effectiveBytes nonceBytes en2Size = l.nonceBytesEff ∧
    (subscribing = true → en2Size = l.upEn2Size)
  next : l.nextSlot < 256 ^ effectiveBytes nonceBytes en2Size
  usable : subscribing = true ∨ l.subscribed = true → en1 ≠ [] ∧ 2 ≤ en2Size

theorem effectiveBytes_lt {nonceBytes en2Size : Nat} (h : 0 < effectiveBytes nonceBytes en2Size) :
    effectiveBytes nonceBytes en2Size < en2Size := by
  unfold effectiveBytes at h ⊢
  dsimp only at h ⊢
  split_ifs at h ⊢ <;> omega

theorem effectiveBytes_pos {nonceBytes en2Size : Nat} (h : 2 ≤ en2Size) :
    0 < effectiveBytes nonceBytes en2Size := by
  unfold effectiveBytes
  dsimp only
  split_ifs <;> omega

/-- The span of a width below four bytes. -/
theorem span_of_width {eff : Nat} (h : eff < 4) :
    spanOf eff = some (256 ^ eff) := by
  unfold spanOf
  by_cases hz : eff = 0
  · rw [if_pos hz, hz]
    rfl
  · rw [if_neg hz, shiftOne, if_pos (by omega), Nat.pow_mul]

/-- From four bytes on the shift is undefined. -/
theorem span_undefined {eff : Nat} (h : 4 ≤ eff) :
    spanOf eff = none := by
  rw [spanOf, if_neg (by omega), shiftOne, if_neg (by omega)]

theorem mem_reissue {size : Nat} {subs : List (Nat × Subscriber)} {e : Nat × Subscriber}
    (he : e ∈ subs.map (reissue gone size)) (hlive : Live gone e) :
    ∃ e₀ ∈ subs, Live gone e₀ ∧ e.1 = e₀.1 ∧ e.2.slotHex = e₀.2.slotHex ∧ e.2.given = size := by
  obtain ⟨e₀, he₀, rfl⟩ := List.mem_map.mp he
  by_cases hg : e₀.2.sink ∈ gone
  · have hsame : reissue gone size e₀ = e₀ := if_pos hg
    rw [hsame] at hlive
    exact absurd hg hlive
  · have hnew : reissue gone size e₀ = (e₀.1, { e₀.2 with given := size }) := if_neg hg
    exact ⟨e₀, he₀, hg, by rw [hnew], by rw [hnew], by rw [hnew]⟩

theorem keys_reissue (size : Nat) (subs : List (Nat × Subscriber)) :
    (subs.map (reissue gone size)).map Prod.fst = subs.map Prod.fst := by
  rw [List.map_map]
  refine List.map_congr_left fun e _ => ?_
  show (reissue gone size e).1 = e.1
  unfold reissue
  split <;> rfl

/-- **A suitable extranonce keeps the slots.** -/
theorem Kept.extranonce {nonceBytes en2Size : Nat} {en1 : Str} {subscribing : Bool}
    (h : Kept gone l) (reconnect : Bool) (hs : Suits nonceBytes gone l en1 en2Size subscribing)
    (hkind : reconnect = false → subscribing = true) :
    ∃ l', setUpstreamExtranonce nonceBytes gone l en1 en2Size reconnect = some l' ∧
      Kept gone l' ∧ (subscribing = true → Kept gone { l' with subscribed := true }) := by
  unfold setUpstreamExtranonce
  dsimp only
  rw [span_of_width hs.shift]
  refine ⟨_, rfl, ?_⟩
  have hkeys : ((if reconnect then l.subscribers.map (reissue gone (rest en2Size
      (effectiveBytes nonceBytes en2Size))) else l.subscribers).map Prod.fst).Nodup := by
    cases reconnect with
    | true =>
      rw [if_pos rfl, keys_reissue]
      exact h.keys
    | false => exact h.keys
  have hslots : ∀ e ∈ (if reconnect then l.subscribers.map (reissue gone (rest en2Size
      (effectiveBytes nonceBytes en2Size))) else l.subscribers), Live gone e →
      e.1 < 256 ^ effectiveBytes nonceBytes en2Size ∧
      e.2.slotHex = hexPadded (effectiveBytes nonceBytes en2Size * 2) e.1 ∧
      e.2.given + effectiveBytes nonceBytes en2Size = en2Size ∧
      0 < effectiveBytes nonceBytes en2Size := by
    intro e he hlive
    cases reconnect with
    | true =>
      obtain ⟨e₀, he₀, hlive₀, hid, hhex, hgiven⟩ := mem_reissue he hlive
      obtain ⟨hlt, hslot, _, hpos⟩ := h.slots e₀ he₀ hlive₀
      rw [(hs.width e₀ he₀ hlive₀).1] at hgiven ⊢
      have hfits := effectiveBytes_lt ((hs.width e₀ he₀ hlive₀).1 ▸ hpos)
      rw [(hs.width e₀ he₀ hlive₀).1] at hfits
      refine ⟨hid ▸ hlt, by rw [hhex, hslot, hid], ?_, hpos⟩
      rw [hgiven, rest, if_pos hfits]
      omega
    | false =>
      obtain ⟨hlt, hslot, hgiven, hpos⟩ := h.slots e he hlive
      obtain ⟨heff, hsize⟩ := hs.width e he hlive
      rw [heff, hsize (hkind rfl)]
      exact ⟨hlt, hslot, hgiven, hpos⟩
  have hfits : effectiveBytes nonceBytes en2Size = 0 ∨
      effectiveBytes nonceBytes en2Size < en2Size := by
    by_cases hz : effectiveBytes nonceBytes en2Size = 0
    · exact .inl hz
    · exact .inr (effectiveBytes_lt (by omega))
  have husable (hup : subscribing = true ∨ l.subscribed = true) :
      en1 ≠ [] ∧ 0 < effectiveBytes nonceBytes en2Size :=
    ⟨(hs.usable hup).1, effectiveBytes_pos (hs.usable hup).2⟩
  exact ⟨⟨hkeys, hslots, hfits, .inl ⟨rfl, hs.next⟩, fun hup => husable (.inr hup)⟩,
    fun hsub => ⟨hkeys, hslots, hfits, .inl ⟨rfl, hs.next⟩, fun _ => husable (.inl hsub)⟩⟩

end Links

/-! ## All links -/

/-- Every link is kept. -/
def AllKept (c : Client) : Prop := ∀ l ∈ c.links, Kept c.gone l

section Clients

variable {c : Client} {i sink : Nat}

theorem AllKept.set {l : Link} (h : AllKept c) (hl : Kept c.gone l) :
    AllKept { c with links := c.links.set i l } := by
  intro l' hl'
  rcases List.mem_or_eq_of_mem_set hl' with hl' | rfl
  · exact h l' hl'
  · exact hl

theorem AllKept.primary (h : AllKept c) (primary : Option Nat) : AllKept { c with primary } := h

theorem AllKept.modify {f : Link → Link} (h : AllKept c)
    (hf : ∀ l, Kept c.gone l → Kept c.gone (f l)) : AllKept (modifyLink c i f) := by
  unfold modifyLink
  cases hl : c.links[i]? with
  | none => exact h
  | some l => exact h.set (hf l (h l (List.mem_of_getElem? hl)))

theorem AllKept.allocateAt (h : AllKept c) (i sink : Nat) : AllKept (allocateAt c i sink).1 := by
  unfold UpstreamClient.allocateAt
  cases hl : c.links[i]? with
  | none => exact h
  | some l => exact h.set (h l (List.mem_of_getElem? hl)).allocateOn

theorem AllKept.attach (h : AllKept c) : AllKept (attach c sink).1 := by
  unfold UpstreamClient.attach
  cases pickLink c with
  | none => exact h
  | some i => exact (h.primary _).allocateAt i sink

theorem AllKept.migrateOne {target : Option Nat} {ids : List Nat} {e : Nat × Subscriber}
    (h : AllKept c) : AllKept (migrateOne i target (c, ids) e).1 := by
  unfold UpstreamClient.migrateOne
  dsimp only
  split
  · exact h
  · split
    · exact h
    · rename_i t _
      have ha := h.allocateAt t e.2.sink
      split <;> rename_i heq <;> rw [heq] at ha <;> exact ha

theorem AllKept.migrate {order : List (Nat × Subscriber)} (h : AllKept c) :
    AllKept (migrateLink c i order) := by
  unfold migrateLink
  have hfold {target : Option Nat} (st : Client × List Nat) (hst : AllKept st.1) :
      AllKept (order.foldl (UpstreamClient.migrateOne i target) st).1 := by
    induction order generalizing st with
    | nil => exact hst
    | cons e rest ih => exact ih _ hst.migrateOne
  exact (hfold _ (h.primary _)).modify fun l hl => hl.erase _

/-- The upstream's extranonce suits the link it is for. -/
def Steady (c : Client) : Input → Prop
  | .subscribeResult i en1 en2Size =>
    ∀ l, c.links[i]? = some l → Suits c.nonceBytes c.gone l en1 en2Size true
  | .setExtranonce i en1 en2Size =>
    ∀ l, c.links[i]? = some l → Suits c.nonceBytes c.gone l en1 en2Size false
  | _ => True

/-- **A step is defined and keeps every link.** -/
theorem AllKept.step {inp : Input} (h : AllKept c) (hok : Steady c inp) :
    ∃ c', react c inp = some c' ∧ AllKept c' := by
  have extranonce {i en2Size : Nat} {en1 : Str} {subscribing : Bool} {f : Link → Link}
      (hok : ∀ l, c.links[i]? = some l → Suits c.nonceBytes c.gone l en1 en2Size subscribing)
      (hf : ∀ l, Kept c.gone l → (subscribing = true → Kept c.gone { l with subscribed := true }) →
        Kept c.gone (f l)) :
      ∃ c', extranonceAt c i en1 en2Size (!subscribing) f = some c' ∧ AllKept c' := by
    unfold extranonceAt
    cases hl : c.links[i]? with
    | none => exact ⟨c, rfl, h⟩
    | some l =>
      obtain ⟨l', hl', hkept, hsub⟩ := (h l (List.mem_of_getElem? hl)).extranonce
        (!subscribing) (hok l hl) (by simp)
      dsimp only
      rw [hl']
      exact ⟨_, rfl, h.set (hf l' hkept hsub)⟩
  cases inp with
  | connectLink i => exact ⟨_, rfl, h.modify fun l hl => hl.down⟩
  | connOpen i =>
    exact ⟨_, rfl, h.modify fun l hl => hl.same (.refl _) rfl rfl rfl rfl rfl id⟩
  | connClose i order => exact ⟨_, rfl, (h.modify fun l hl => hl.down).migrate⟩
  | subscribeResult i en1 en2Size => exact extranonce hok fun l _ hsub => hsub rfl
  | authorizeResult i =>
    exact ⟨_, rfl, h.modify fun l hl => hl.same (.refl _) rfl rfl rfl rfl rfl id⟩
  | setExtranonce i en1 en2Size => exact extranonce hok fun l hl _ => hl
  | attach sink => exact ⟨_, rfl, h.attach⟩
  | detach linkId slotId => exact ⟨_, rfl, h.modify fun l hl => hl.erase _⟩
  | sinkGone sink => exact ⟨_, rfl, fun l hl => (h l hl).lost sink⟩

theorem allKept_of_run (h : Run Steady c) : AllKept c := by
  induction h with
  | init n activeActive weights =>
    intro l hl
    obtain ⟨weight, _, rfl⟩ := List.mem_map.mp hl
    exact kept_new weight
  | step _ _ hok hs ih =>
    obtain ⟨c', hs', hc'⟩ := ih.step hok
    obtain rfl := Option.some.inj (hs.symm.trans hs')
    exact hc'

/-! ## What follows for the slots -/

/-- The link serves miners. -/
def Up (l : Link) : Prop := l.connected = true ∧ l.authorized = true ∧ l.subscribed = true

/-- The slots of the live subscribers of a link are different texts of its
width, which with the size given to the session make up the upstream's; and
whoever comes gets one, while a link that is up has slots left. -/
structure DisjointSlots (c : Client) : Prop where
  width : ∀ l ∈ c.links, ∀ e ∈ l.subscribers, Live c.gone e →
    e.2.slotHex.length = l.nonceBytesEff * 2
  different : ∀ l ∈ c.links, ((l.subscribers.filter (Live c.gone)).map (·.2.slotHex)).Nodup
  sizes : ∀ l ∈ c.links, ∀ e ∈ l.subscribers, Live c.gone e →
    e.2.slotHex.length / 2 + e.2.given = l.upEn2Size
  room : ∀ l ∈ c.links, Up l → l.subscribers.length < 256 ^ l.nonceBytesEff →
    ∀ sink, ∃ slot, (attach c sink).2 = some slot

/-- The fold keeps a candidate, once it has one. -/
theorem foldl_least (c : Client) (cs : List Nat) (b : Nat) :
    ∃ j, (j = b ∨ j ∈ cs) ∧ cs.foldl (fun best i =>
      match best with
      | none => some i
      | some b => if loadAt c i < loadAt c b then some i else some b) (some b) = some j := by
  induction cs generalizing b with
  | nil => exact ⟨b, .inl rfl, rfl⟩
  | cons i rest ih =>
    rw [List.foldl_cons]
    dsimp only
    by_cases hlt : loadAt c i < loadAt c b
    · rw [if_pos hlt]
      obtain ⟨j, hj, hfold⟩ := ih i
      exact ⟨j, .inr (by simpa using hj), hfold⟩
    · rw [if_neg hlt]
      obtain ⟨j, hj, hfold⟩ := ih b
      exact ⟨j, hj.imp_right (List.mem_cons_of_mem _), hfold⟩

theorem leastLoaded_mem {candidates : List Nat} (h : candidates ≠ []) :
    ∃ j ∈ candidates, leastLoaded c candidates = some j := by
  cases candidates with
  | nil => exact absurd rfl h
  | cons i rest =>
    obtain ⟨j, hj, hfold⟩ := foldl_least c rest i
    exact ⟨j, by simpa using hj, hfold⟩

/-- While a link is ready, one is picked. -/
theorem pickLink_ready (h : ∃ l ∈ c.links, linkReady l = true) :
    ∃ j, pickLink c = some j ∧ readyAt c j = true := by
  obtain ⟨l, hl, hready⟩ := h
  obtain ⟨i, hi, hget⟩ := List.mem_iff_getElem.mp hl
  have hat : readyAt c i = true := by
    unfold readyAt
    rw [List.getElem?_eq_getElem hi, hget]
    exact hready
  have hmem : i ∈ (List.range c.links.length).filter (readyAt c) :=
    List.mem_filter.mpr ⟨List.mem_range.mpr hi, hat⟩
  have hne : (List.range c.links.length).filter (readyAt c) ≠ [] := List.ne_nil_of_mem hmem
  unfold pickLink
  dsimp only
  by_cases hact : c.activeActive = true
  · rw [if_pos hact]
    obtain ⟨j, hj, hpick⟩ := leastLoaded_mem (c := c) hne
    exact ⟨j, hpick, (List.mem_filter.mp hj).2⟩
  · rw [if_neg hact]
    cases hp : c.primary.filter (readyAt c) with
    | some j => exact ⟨j, rfl, (Option.filter_eq_some_iff.mp hp).2⟩
    | none =>
      obtain ⟨j, hj⟩ := Option.ne_none_iff_exists'.mp (mt List.head?_eq_none_iff.mp hne)
      exact ⟨j, hj, (List.mem_filter.mp (List.mem_of_head? hj)).2⟩

theorem attach_ready (h : AllKept c) (hready : ∃ l ∈ c.links, linkReady l = true) (sink : Nat) :
    ∃ slot, (attach c sink).2 = some slot := by
  obtain ⟨j, hpick, hat⟩ := pickLink_ready hready
  obtain ⟨l, hl, hl'⟩ := (Option.any_eq_true _ _).mp hat
  have hkept : Kept c.gone l := h l (List.mem_of_getElem? hl)
  obtain ⟨cand, next, _, _, _, ha⟩ := allocateOn_ready j sink hkept hl'
  refine ⟨slotOf l j cand, ?_⟩
  unfold attach
  rw [hpick]
  unfold allocateAt
  dsimp only
  rw [hl]
  dsimp only
  rw [ha]

theorem AllKept.disjointSlots (h : AllKept c) : DisjointSlots c := by
  have hwidth : ∀ l ∈ c.links, ∀ e ∈ l.subscribers, Live c.gone e →
      e.2.slotHex.length = l.nonceBytesEff * 2 := by
    intro l hl e he hlive
    obtain ⟨hlt, hhex, _, hpos⟩ := (h l hl).slots e he hlive
    rw [hhex]
    refine length_hexPadded (by omega) ?_
    rw [Nat.mul_comm, Nat.pow_mul]
    exact hlt
  refine ⟨hwidth, fun l hl => ?_, fun l hl e he hlive => ?_, fun l hl hup hroom sink => ?_⟩
  · have hkeys : ((l.subscribers.filter (Live c.gone)).map Prod.fst).Nodup :=
      (h l hl).keys.sublist (List.filter_sublist.map _)
    have hlive {e : Nat × Subscriber} (he : e ∈ l.subscribers.filter (Live c.gone)) :
        e.2.slotHex = hexPadded (l.nonceBytesEff * 2) e.1 := by
      obtain ⟨hmem, hl'⟩ := List.mem_filter.mp he
      exact ((h l hl).slots e hmem (of_decide_eq_true hl')).2.1
    rw [List.map_congr_left fun e he => hlive he]
    show ((l.subscribers.filter (Live c.gone)).map
      (hexPadded (l.nonceBytesEff * 2) ∘ Prod.fst)).Nodup
    rw [← List.map_map]
    exact hkeys.map_on fun a _ b _ hab => hexPadded_injective hab
  · obtain ⟨_, _, hgiven, _⟩ := (h l hl).slots e he hlive
    rw [hwidth l hl e he hlive, Nat.mul_div_cancel _ (by omega)]
    omega
  · obtain ⟨hconn, hauth, hsub⟩ := hup
    refine attach_ready h ⟨l, hl, linkReady_iff.mpr ⟨hconn, hauth, hsub, ?_⟩⟩ sink
    obtain ⟨hen1, heff⟩ := (h l hl).usable hsub
    have hspan : l.slotSpan = 256 ^ l.nonceBytesEff := by
      rcases (h l hl).span with hs | ⟨hs, _⟩
      · exact hs.1
      · rw [hs] at hsub
        cases hsub
    rw [hspan]
    exact ⟨hen1, Nat.pow_pos (by omega), heff, hroom⟩

/-- **Slots do not overlap.** In every run whose upstream extranonces suit their
links, the slots are disjoint in every state, and no step is undefined. -/
theorem slots_stay_disjoint (c : Client) (run : Run Steady c) :
    DisjointSlots c ∧ ∀ i, Steady c i → react c i ≠ none := by
  have hkept := allKept_of_run run
  refine ⟨hkept.disjointSlots, fun i hok hnone => ?_⟩
  obtain ⟨c', hs, _⟩ := hkept.step hok
  rw [hnone] at hs
  cases hs

end Clients

/-! ## Three runs -/

/-- The state after a list of inputs, each made where the check allows it. -/
def reactAll (check : Client → Input → Bool) : Client → List Input → Option Client
  | c, [] => some c
  | c, i :: rest => if check c i then (react c i).bind fun c' => reactAll check c' rest else none

theorem run_of_reactAll {ok : Client → Input → Prop} {check : Client → Input → Bool}
    (hcheck : ∀ c i, check c i = true → Offered c i ∧ ok c i) {c c' : Client}
    {inputs : List Input} (hc : Run ok c) (h : reactAll check c inputs = some c') : Run ok c' := by
  induction inputs generalizing c with
  | nil =>
    cases h
    exact hc
  | cons i rest ih =>
    unfold reactAll at h
    split at h
    · rename_i hi
      obtain ⟨c₁, h₁, h⟩ := Option.bind_eq_some_iff.mp h
      exact ih (.step hc (hcheck c i hi).1 (hcheck c i hi).2 h₁) h
    · cases h

/-- A client with one link. -/
def oneLink (n : UInt8) : Client where
  nonceBytes := configNonceBytes n
  activeActive := false
  links := [{ weight := 1 }]

theorem run_oneLink {ok : Client → Input → Prop} (n : UInt8) : Run ok (oneLink n) :=
  .init n false [1]

/-- The link comes up with an extranonce 2 of 8 bytes, and a miner comes. -/
def minerComes : List Input :=
  [.connectLink 0, .connOpen 0, .subscribeResult 0 "aa".toList 8, .authorizeResult 0, .attach 7]

/-- No link closes. -/
def noneCloses (_ : Client) : Input → Bool
  | .connClose .. => false
  | _ => true

theorem offered_of_noneCloses (c : Client) (i : Input) (h : noneCloses c i = true) :
    Offered c i ∧ True := by
  cases i <;> first | exact ⟨trivial, trivial⟩ | cases h

/-- **Neither the width nor the shift is checked.** A miner keeps its slot of
two bytes when the upstream's extranonce 2 shrinks to two bytes; and with four
bytes for a slot, the span of a link is undefined. -/
theorem slot_outgrows_extranonce :
    (∃ c, Run (fun _ _ => True) c ∧ ¬ DisjointSlots c) ∧
      ∃ c i, Run (fun _ _ => True) c ∧ Offered c i ∧ react c i = none := by
  constructor
  · have h : (reactAll noneCloses (oneLink 2)
        (minerComes ++ [.setExtranonce 0 "aa".toList 2])).any (fun c =>
          (c.links[0]?).any fun l => decide (l.nonceBytesEff = 1) && l.subscribers.any fun e =>
            decide (Live c.gone e) && decide (e.2.slotHex.length = 4)) = true := by
      decide +kernel
    obtain ⟨c, hc, hx⟩ := (Option.any_eq_true _ _).mp h
    obtain ⟨l, hl, hx⟩ := (Option.any_eq_true _ _).mp hx
    simp only [Bool.and_eq_true, List.any_eq_true, decide_eq_true_eq] at hx
    obtain ⟨heff, e, he, hlive, hlen⟩ := hx
    refine ⟨c, run_of_reactAll offered_of_noneCloses (run_oneLink 2) hc, fun hd => ?_⟩
    have hwidth := hd.width l (List.mem_of_getElem? hl) e he hlive
    rw [hlen, heff] at hwidth
    cases hwidth
  · exact ⟨oneLink 4, .subscribeResult 0 "aa".toList 8, run_oneLink 4, trivial, by decide⟩

/-- Links get one extranonce that can be shared out, before anybody comes. -/
def settled (c : Client) : Input → Bool
  | .connClose .. | .setExtranonce .. => false
  | .subscribeResult i en1 en2Size =>
    (c.links[i]?).all fun l => l.subscribers.isEmpty && decide (l.nextSlot = 0) && !en1.isEmpty &&
      decide (2 ≤ en2Size) && decide (effectiveBytes c.nonceBytes en2Size < 4)
  | _ => true

theorem steady_of_settled (c : Client) (i : Input) (h : settled c i = true) :
    Offered c i ∧ Steady c i := by
  cases i with
  | connClose => cases h
  | setExtranonce => cases h
  | subscribeResult i en1 en2Size =>
    refine ⟨trivial, fun l hl => ?_⟩
    simp only [settled, hl, Option.all_some, Bool.and_eq_true, decide_eq_true_eq,
      List.isEmpty_iff, Bool.not_eq_true', List.isEmpty_eq_false_iff] at h
    obtain ⟨⟨⟨⟨hempty, hnext⟩, hen1⟩, hsize⟩, hshift⟩ := h
    refine ⟨hshift, fun e he => ?_, ?_, fun _ => ⟨hen1, hsize⟩⟩
    · rw [hempty] at he
      cases he
    · rw [hnext]
      exact Nat.pow_pos (by omega)
  | _ => exact ⟨trivial, trivial⟩

/-- Two miners come to one link. -/
theorem slots_stay_disjoint_once :
    ∃ c : Client, (∃ l ∈ c.links, l.subscribers.length = 2) ∧ DisjointSlots c := by
  have h : (reactAll settled (oneLink 2) (minerComes ++ [.attach 8])).any (fun c =>
      c.links.any fun l => decide (l.subscribers.length = 2)) = true := by
    decide +kernel
  obtain ⟨c, hc, hx⟩ := (Option.any_eq_true _ _).mp h
  simp only [List.any_eq_true, decide_eq_true_eq] at hx
  exact ⟨c, hx,
    (slots_stay_disjoint c (run_of_reactAll steady_of_settled (run_oneLink 2) hc)).1⟩

end MkPool.Slots
