import MkPool.Sv2UpstreamClient

/-! # Slices of the extended channel

A slot is a running number, cut to `nonce_bytes_` bytes. What the sessions hold
is not looked at when a number is given out, nor when a channel is opened
again. -/
namespace MkPool.Sv2Slices
open MkPool.Lib MkPool.Utils MkPool.Sv2Messages MkPool.Sv2UpstreamClient
open MkPool.UpstreamClient (ProxySlot configNonceBytes rest)

/-- The session that holds the slot is there. -/
def Live (gone : List Nat) (h : Nat × ProxySlot) : Prop := h.1 ∉ gone

instance (gone : List Nat) : DecidablePred (Live gone) :=
  fun h => inferInstanceAs (Decidable (h.1 ∉ gone))

/-- The slots of live subscribers are different texts, and each makes up the
channel's extranonce with the bytes that are left to its miner, of which there
is one at least. -/
structure DisjointSlices (c : Client) : Prop where
  different : ((c.held.filter (Live c.gone)).map (·.2.slotHex)).Nodup
  sizes : ∀ h ∈ c.held, Live c.gone h →
    h.2.slotHex.length / 2 + h.2.en2Size = c.extranonceSize.toNat ∧ 1 ≤ h.2.en2Size

/-- A number as a slot of a width. -/
def slotText (width slotId : Nat) : Str := bytesToHex (Wire.leBytes width slotId).reverse

theorem length_slotText (width slotId : Nat) : (slotText width slotId).length = 2 * width := by
  unfold slotText bytesToHex
  rw [Hex.length_encode, List.length_reverse, Wire.length_leBytes]

theorem slotText_inj {width a b : Nat} :
    slotText width a = slotText width b ↔ a % 256 ^ width = b % 256 ^ width := by
  rw [← Wire.leBytes_inj]
  unfold slotText
  constructor
  · exact fun h => List.reverse_injective (Hex.encode_injective h)
  · intro h
    rw [h]

theorem filter_live_cons {gone : List Nat} {s : Nat × ProxySlot} (hlive : Live gone s)
    (held : List (Nat × ProxySlot)) :
    (s :: held).filter (Live gone) = s :: held.filter (Live gone) := by
  simp [hlive]

/-- What is kept of the slots: they are written in the present width. -/
structure Sliced (c : Client) : Prop extends DisjointSlices c where
  texts : ∀ h ∈ c.held, Live c.gone h → h.2.slotHex = slotText c.nonceBytes.toNat h.2.slotId

section
variable {c c' : Client} {sink : Nat}

theorem sliced_initial (user : Str) (n : UInt8) : Sliced (initial user n) where
  different := List.nodup_nil
  sizes := by simp [initial]
  texts := by simp [initial]

/-- A live slot leaves bytes to its miner. -/
theorem Sliced.width_lt (h : Sliced c) {s : Nat × ProxySlot} (hs : s ∈ c.held)
    (hlive : Live c.gone s) : c.nonceBytes.toNat < c.extranonceSize.toNat := by
  obtain ⟨hsum, hone⟩ := h.sizes s hs hlive
  rw [h.texts s hs hlive, length_slotText] at hsum
  omega

/-! ## Steps that leave the slots alone -/

/-- Some slots may be given back and some sessions go. -/
structure Fewer (c c' : Client) : Prop where
  live : (c'.held.filter (Live c'.gone)).Sublist (c.held.filter (Live c.gone))
  nonceBytes : c'.nonceBytes = c.nonceBytes
  size : c'.extranonceSize = c.extranonceSize

theorem Fewer.of_eq (hheld : c'.held = c.held) (hgone : c'.gone = c.gone)
    (hnonce : c'.nonceBytes = c.nonceBytes) (hsize : c'.extranonceSize = c.extranonceSize) :
    Fewer c c' :=
  ⟨by rw [hheld, hgone], hnonce, hsize⟩

/-- What else changed before does not matter. -/
theorem Fewer.after {c₀ : Client} (h : Fewer c c') (hheld : c.held = c₀.held)
    (hgone : c.gone = c₀.gone) (hnonce : c.nonceBytes = c₀.nonceBytes)
    (hsize : c.extranonceSize = c₀.extranonceSize) : Fewer c₀ c' :=
  ⟨by rw [← hheld, ← hgone]; exact h.live, h.nonceBytes.trans hnonce, h.size.trans hsize⟩

theorem Sliced.fewer (h : Sliced c) (hf : Fewer c c') : Sliced c' := by
  have hmem {s : Nat × ProxySlot} (hs : s ∈ c'.held) (hlive : Live c'.gone s) :
      s ∈ c.held ∧ Live c.gone s := by
    have hs' := hf.live.subset (List.mem_filter.mpr ⟨hs, decide_eq_true hlive⟩)
    exact ⟨(List.mem_filter.mp hs').1, of_decide_eq_true (List.mem_filter.mp hs').2⟩
  refine ⟨⟨h.different.sublist (hf.live.map _), ?_⟩, ?_⟩
  · intro s hs hlive
    rw [hf.size]
    exact h.sizes s (hmem hs hlive).1 (hmem hs hlive).2
  · intro s hs hlive
    rw [hf.nonceBytes]
    exact h.texts s (hmem hs hlive).1 (hmem hs hlive).2

theorem fewer_detach (sink : Nat) (slotId : UInt32) : Fewer c (detach c sink slotId) where
  live := List.filter_sublist.filter _
  nonceBytes := rfl
  size := rfl

theorem fewer_sinkGone (sink : Nat) : Fewer c { c with gone := sink :: c.gone } where
  live := by
    refine List.monotone_filter_right _ fun s hs => ?_
    have hs := of_decide_eq_true hs
    exact decide_eq_true fun hg => hs (List.mem_cons_of_mem _ hg)
  nonceBytes := rfl
  size := rfl

theorem fewer_teardown : Fewer c (teardown c).1 := by
  unfold teardown
  split <;> exact .of_eq rfl rfl rfl rfl

theorem fewer_rebuild (clean : Bool) : Fewer c (rebuildAndBroadcast c clean).1 := by
  unfold rebuildAndBroadcast
  split <;> exact .of_eq rfl rfl rfl rfl

theorem fewer_submit (s : UpstreamSource.UpstreamSubmit) (cb : Option Nat) :
    Fewer c (submit c s cb).1 := by
  unfold submit
  split
  · split
    · exact .of_eq rfl rfl rfl rfl
    · split <;> exact .of_eq rfl rfl rfl rfl
  · exact .of_eq rfl rfl rfl rfl

theorem fewer_runPosted (p : Posted) : Fewer c (runPosted c p).1 := by
  unfold runPosted
  split <;> exact .of_eq rfl rfl rfl rfl

theorem fewer_onSubmitResult (seq : UInt32) (accepted : Bool) (err : Str) :
    Fewer c (onSubmitResult c seq accepted err).1 := by
  unfold onSubmitResult
  split <;> exact .of_eq rfl rfl rfl rfl

/-- The message opens the channel. -/
def Opens : Reply → Prop
  | .openExtendedSuccess ok => ok.extranoncePrefix.length ≤ 32
  | _ => False

theorem fewer_handleFrame {msg : Reply} (h : ¬ Opens msg) : Fewer c (handleFrame c msg).1 := by
  cases msg with
  | openExtendedSuccess ok =>
    unfold handleFrame
    dsimp only
    rw [if_pos (by simpa [Opens] using h)]
    exact .of_eq rfl rfl rfl rfl
  | setupConnectionError => exact fewer_teardown
  | openMiningChannelError => exact fewer_teardown
  | newExtendedMiningJob j =>
    unfold handleFrame onExtendedJob
    dsimp only
    split
    · exact (fewer_rebuild _).after rfl rfl rfl rfl
    · exact .of_eq rfl rfl rfl rfl
  | setNewPrevHash ph =>
    unfold handleFrame onSetPrevHash
    dsimp only
    split
    · exact (fewer_rebuild _).after rfl rfl rfl rfl
    · exact .of_eq rfl rfl rfl rfl
  | submitSharesSuccess => exact fewer_onSubmitResult ..
  | submitSharesError => exact fewer_onSubmitResult ..
  | _ => exact .of_eq rfl rfl rfl rfl

/-! ## Opening and attaching -/

/-- The next number is a slot that nobody has, of a width that can be written
and that leaves bytes to the miner. -/
structure Free (c : Client) : Prop where
  fits : c.nonceBytes.toNat < c.extranonceSize.toNat
  written : c.nonceBytes.toNat ≤ 4
  unheld : ∀ h ∈ c.held, Live c.gone h →
    h.2.slotId % 256 ^ c.nonceBytes.toNat ≠ c.nextSlot.toNat % 256 ^ c.nonceBytes.toNat

/-- While somebody holds a slot, a channel is opened again with the extranonce
size it had; and the next slot is free when somebody attaches. -/
def Fits (_ : Log) (c : Client) : Input → Prop
  | .received (.openExtendedSuccess ok) =>
    ok.extranoncePrefix.length ≤ 32 → (∃ h ∈ c.held, Live c.gone h) →
      ok.extranonceSize = c.extranonceSize
  | .attach _ => c.channelOk = true → Free c
  | _ => True

theorem handleFrame_open {ok : OpenExtendedSuccess} (hshort : ok.extranoncePrefix.length ≤ 32) :
    handleFrame c (.openExtendedSuccess ok) = onChannelOpen c ok := if_neg (by omega)

theorem Sliced.open (h : Sliced c) {ok : OpenExtendedSuccess}
    (hsize : (∃ h ∈ c.held, Live c.gone h) → ok.extranonceSize = c.extranonceSize) :
    Sliced (onChannelOpen c ok).1 := by
  refine ⟨⟨h.different, fun s hs hlive => ?_⟩, fun s hs hlive => ?_⟩
  · show _ = ok.extranonceSize.toNat ∧ _
    rw [hsize ⟨s, hs, hlive⟩]
    exact h.sizes s hs hlive
  · have hlt := h.width_lt hs hlive
    show _ = slotText (if _ then _ else _ : UInt8).toNat _
    rw [if_neg (by rw [hsize ⟨s, hs, hlive⟩]; omega)]
    exact h.texts s hs hlive

/-- A channel opened with another size leaves slots that do not make it up. -/
theorem Sliced.size_of_open (h : Sliced c) {ok : OpenExtendedSuccess}
    (hd : DisjointSlices (onChannelOpen c ok).1) {s : Nat × ProxySlot} (hs : s ∈ c.held)
    (hlive : Live c.gone s) : ok.extranonceSize = c.extranonceSize := by
  have hnew : _ = ok.extranonceSize.toNat ∧ _ := hd.sizes s hs hlive
  rw [(h.sizes s hs hlive).1] at hnew
  exact UInt16.toNat_inj.mp hnew.1.symm

/-- The session has the next slot. -/
def takeSlot (c : Client) (sink : Nat) : Client × Option ProxySlot :=
  let slot := c.slotWith (slotText c.nonceBytes.toNat c.nextSlot.toNat)
  ({ c with
      nextSlot := c.nextSlot + 1
      subscribers := (c.nextSlot, sink) :: c.subscribers.filter fun e => e.1 ≠ c.nextSlot
      held := (sink, slot) :: c.held },
    some slot)

theorem attach_up (hup : c.channelOk = true) :
    attach c sink = if c.nonceBytes.toNat ≤ 4 then some (takeSlot c sink) else none := by
  by_cases hwritten : c.nonceBytes.toNat ≤ 4
  · simp [attach, slotHexOf, hup, hwritten, takeSlot, slotText]
  · simp [attach, slotHexOf, hup, hwritten]

theorem attach_down (hdown : ¬ c.channelOk = true) : attach c sink = some (c, none) := by
  unfold attach
  rw [Bool.not_eq_true] at hdown
  rw [hdown]
  rfl

theorem Sliced.takeSlot (h : Sliced c) (hthere : sink ∉ c.gone) (hfree : Free c) :
    Sliced (takeSlot c sink).1 := by
  have hlive : Live c.gone (sink, c.slotWith (slotText c.nonceBytes.toNat c.nextSlot.toNat)) :=
    hthere
  refine ⟨⟨?_, ?_⟩, ?_⟩
  · show (((_ :: c.held).filter (Live c.gone)).map _).Nodup
    rw [filter_live_cons hlive, List.map_cons, List.nodup_cons]
    refine ⟨fun hmem => ?_, h.different⟩
    obtain ⟨s, hs, hsame⟩ := List.mem_map.mp hmem
    obtain ⟨hs, hslive⟩ := List.mem_filter.mp hs
    have hslive := of_decide_eq_true hslive
    rw [h.texts s hs hslive] at hsame
    exact hfree.unheld s hs hslive (slotText_inj.mp hsame)
  · intro s hs hslive
    rcases List.mem_cons.mp hs with rfl | hs
    · have hfit := hfree.fits
      show (slotText _ _).length / 2 + rest _ _ = c.extranonceSize.toNat ∧ 1 ≤ rest _ _
      rw [length_slotText, rest, if_pos hfit]
      omega
    · exact h.sizes s hs hslive
  · intro s hs hslive
    rcases List.mem_cons.mp hs with rfl | hs
    · rfl
    · exact h.texts s hs hslive

/-- A slot that collides, or that leaves its miner nothing, was not free. -/
theorem Sliced.free_of_takeSlot (h : Sliced c) (hthere : sink ∉ c.gone)
    (hwritten : c.nonceBytes.toNat ≤ 4) (hd : DisjointSlices (Sv2Slices.takeSlot c sink).1) :
    Free c := by
  have hlive : Live c.gone (sink, c.slotWith (slotText c.nonceBytes.toNat c.nextSlot.toNat)) :=
    hthere
  have hone : 1 ≤ rest c.extranonceSize.toNat c.nonceBytes.toNat :=
    (hd.sizes _ List.mem_cons_self hlive).2
  have hdiff : (((_ :: c.held).filter (Live c.gone)).map _).Nodup := hd.different
  rw [filter_live_cons hlive, List.map_cons, List.nodup_cons] at hdiff
  refine ⟨?_, hwritten, fun s hs hslive hsame => hdiff.1 ?_⟩
  · by_contra hfit
    rw [rest, if_neg hfit] at hone
    omega
  · refine List.mem_map.mpr ⟨s, List.mem_filter.mpr ⟨hs, decide_eq_true hslive⟩, ?_⟩
    rw [h.texts s hs hslive]
    exact slotText_inj.mpr hsame

end

/-! ## Runs -/

section
variable {c : Client} {log : Log}

/-- The steps that cannot hurt the slots. -/
theorem fewer_of_step {i : Input} (hattach : ∀ sink, i ≠ .attach sink)
    (hopen : ∀ msg, i = .received msg → ¬ Opens msg) :
    ∃ r, react c i = some r ∧ Fewer c r.1 := by
  cases i with
  | attach sink => exact absurd rfl (hattach sink)
  | received msg => exact ⟨_, rfl, fewer_handleFrame (hopen msg rfl)⟩
  | detach sink slotId => exact ⟨_, rfl, fewer_detach sink slotId⟩
  | sinkGone sink => exact ⟨_, rfl, fewer_sinkGone sink⟩
  | teardown => exact ⟨_, rfl, fewer_teardown⟩
  | submit s cb =>
    refine ⟨_, rfl, ?_⟩
    unfold submitNumbered
    split
    · exact (fewer_submit _ _).after rfl rfl rfl rfl
    · exact fewer_submit _ _
  | runPosted =>
    unfold react
    dsimp only
    cases c.posted with
    | nil => exact ⟨_, rfl, .of_eq rfl rfl rfl rfl⟩
    | cons p posted => exact ⟨_, rfl, (fewer_runPosted p).after rfl rfl rfl rfl⟩
  | connect =>
    refine ⟨_, rfl, ?_⟩
    unfold connect
    split <;> exact .of_eq rfl rfl rfl rfl
  | _ => exact ⟨_, rfl, .of_eq rfl rfl rfl rfl⟩

/-- **A step that fits keeps the slices.** -/
theorem Sliced.step (h : Sliced c) {i : Input} (hoffer : Offered c i) (hok : Fits log c i) :
    ∃ r, react c i = some r ∧ Sliced r.1 := by
  have easy (hattach : ∀ sink, i ≠ .attach sink) (hopen : ∀ msg, i = .received msg → ¬ Opens msg) :
      ∃ r, react c i = some r ∧ Sliced r.1 := by
    obtain ⟨r, hr, hf⟩ := fewer_of_step (c := c) hattach hopen
    exact ⟨r, hr, h.fewer hf⟩
  cases i with
  | attach sink =>
    by_cases hup : c.channelOk = true
    · have hfree : Free c := hok hup
      have hstep : react c (.attach sink) =
          some ((Sv2Slices.takeSlot c sink).1, [.attached sink (Sv2Slices.takeSlot c sink).2]) := by
        show (attach c sink).map _ = _
        rw [attach_up hup, if_pos hfree.written]
        rfl
      exact ⟨_, hstep, h.takeSlot hoffer hfree⟩
    · have hstep : react c (.attach sink) = some (c, [.attached sink none]) := by
        show (attach c sink).map _ = _
        rw [attach_down hup]
        rfl
      exact ⟨_, hstep, h⟩
  | received msg =>
    by_cases hopens : Opens msg
    · cases msg with
      | openExtendedSuccess ok =>
        refine ⟨_, rfl, ?_⟩
        rw [handleFrame_open hopens]
        exact h.open (hok hopens)
      | _ => exact hopens.elim
    · refine easy (by simp) fun msg' he => ?_
      cases he
      exact hopens
  | _ => exact easy (by simp) (by simp)

/-- **A step that keeps the slices fits.** -/
theorem Sliced.fits_of_step (h : Sliced c) {i : Input} (hoffer : Offered c i)
    {r : Client × List Output} (hr : react c i = some r) (hd : DisjointSlices r.1) :
    Fits log c i := by
  cases i with
  | attach sink =>
    intro hup
    obtain ⟨r', hr', rfl⟩ := Option.map_eq_some_iff.mp hr
    rw [attach_up hup] at hr'
    by_cases hwritten : c.nonceBytes.toNat ≤ 4
    · rw [if_pos hwritten] at hr'
      obtain rfl := Option.some.inj hr'
      exact h.free_of_takeSlot hoffer hwritten hd
    · rw [if_neg hwritten] at hr'
      cases hr'
  | received msg =>
    cases msg with
    | openExtendedSuccess ok =>
      rintro hshort ⟨s, hs, hlive⟩
      obtain rfl := Option.some.inj hr
      rw [handleFrame_open hshort] at hd
      exact h.size_of_open hd hs hlive
    | _ => exact trivial
  | _ => exact trivial

theorem sliced_of_run (run : Run Fits log c) : Sliced c := by
  induction run with
  | init user n => exact sliced_initial user n
  | step run hoffer hok hs ih =>
    obtain ⟨r, hr, hd⟩ := ih.step hoffer hok
    rw [hs] at hr
    obtain rfl := Option.some.inj hr
    exact hd

/-- **Slices are disjoint** in every state of a run whose channels keep their
size under the sessions and whose next slots are free. The first step that is
not of this kind is undefined or breaks it. -/
theorem slices_stay_disjoint (log : Log) (c : Client) (run : Run Fits log c) :
    DisjointSlices c ∧ ∀ i, Offered c i →
      (Fits log c i ↔ ∃ r, react c i = some r ∧ DisjointSlices r.1) := by
  have hkept := sliced_of_run run
  refine ⟨hkept.toDisjointSlices, fun i hoffer => ⟨fun hok => ?_, ?_⟩⟩
  · obtain ⟨r, hr, hd⟩ := hkept.step hoffer hok
    exact ⟨r, hr, hd.toDisjointSlices⟩
  · rintro ⟨r, hr, hd⟩
    exact hkept.fits_of_step hoffer hr hd

end

/-! ## Runs of one client -/

/-- A session attaches to a channel, and others come and go until the counter
of one byte is round. -/
def comesRound : List Input :=
  channelOpens 8 ++ [.attach 0]
    ++ (List.range 255).flatMap (fun k => [.attach (k + 1), .detach (k + 1) (UInt32.ofNat (k + 1))])
    ++ [.attach 256]

/-- The two latest slots of live sessions are one text. -/
def sharedSlice (c : Client) : Bool :=
  match c.held.filter (Live c.gone) with
  | a :: b :: _ => decide (a.2.slotHex = b.2.slotHex)
  | _ => false

theorem not_disjoint_of_shared {c : Client} (h : sharedSlice c = true) : ¬ DisjointSlices c := by
  intro hd
  have hdiff := hd.different
  unfold sharedSlice at h
  split at h
  · rename_i a b rest hfilter
    rw [hfilter] at hdiff
    simp only [List.map_cons, List.nodup_cons, List.mem_cons, not_or] at hdiff
    exact hdiff.1.1 (of_decide_eq_true h)
  · cases h

/-- A live session has a slot that does not make up the channel's extranonce,
or no bytes for its miner. -/
def misfit (c : Client) : Bool :=
  c.held.any fun h => decide (Live c.gone h) &&
    !decide (h.2.slotHex.length / 2 + h.2.en2Size = c.extranonceSize.toNat ∧ 1 ≤ h.2.en2Size)

theorem not_disjoint_of_misfit {c : Client} (h : misfit c = true) : ¬ DisjointSlices c := by
  intro hd
  obtain ⟨s, hs, h⟩ := List.any_eq_true.mp h
  simp only [Bool.and_eq_true, decide_eq_true_eq, Bool.not_eq_true', decide_eq_false_iff_not] at h
  exact h.2 (hd.sizes s hs h.1)

/-- **Slices collide when the counter is round**, a channel of one byte leaves
its miner nothing, and a channel opened again with another size leaves the
slots as they were. -/
theorem slices_collide :
    (∃ log c, Run (fun _ _ _ => True) log c ∧ sharedSlice c = true ∧ ¬ DisjointSlices c) ∧
      (∃ log c, Run (fun _ _ _ => True) log c ∧ c.extranonceSize = 1 ∧ ¬ DisjointSlices c) ∧
      ∃ log c, Run (fun _ _ _ => True) log c ∧ c.extranonceSize = 6 ∧ ¬ DisjointSlices c := by
  refine ⟨?_, ?_, ?_⟩
  · obtain ⟨log, c, hrun, hbad⟩ := exists_run 1 comesRound (fun _ c => sharedSlice c)
      (by decide +kernel)
    exact ⟨log, c, hrun, hbad, not_disjoint_of_shared hbad⟩
  · obtain ⟨log, c, hrun, hbad⟩ := exists_run 2 (channelOpens 1 ++ [.attach 0])
      (fun _ c => decide (c.extranonceSize = 1) && misfit c) (by decide +kernel)
    simp only [Bool.and_eq_true, decide_eq_true_eq] at hbad
    exact ⟨log, c, hrun, hbad.1, not_disjoint_of_misfit hbad.2⟩
  · obtain ⟨log, c, hrun, hbad⟩ := exists_run 2
      (channelOpens 8 ++ [.attach 0, .teardown] ++ channelOpens 6)
      (fun _ c => decide (c.extranonceSize = 6) && misfit c) (by decide +kernel)
    simp only [Bool.and_eq_true, decide_eq_true_eq] at hbad
    exact ⟨log, c, hrun, hbad.1, not_disjoint_of_misfit hbad.2⟩

/-- A channel is opened while nobody holds a slot, and slots have new numbers. -/
def fitting (_ : Log) (c : Client) : Input → Bool
  | .received (.openExtendedSuccess _) => c.held.isEmpty
  | .attach _ =>
    decide (c.nonceBytes.toNat < c.extranonceSize.toNat) && decide (c.nonceBytes.toNat ≤ 4) &&
      c.held.all fun h =>
        h.2.slotId % 256 ^ c.nonceBytes.toNat != c.nextSlot.toNat % 256 ^ c.nonceBytes.toNat
  | _ => true

theorem fits_of_fitting (log : Log) (c : Client) (i : Input) (h : fitting log c i = true) :
    Fits log c i := by
  cases i with
  | received msg =>
    cases msg with
    | openExtendedSuccess ok =>
      rintro - ⟨s, hs, -⟩
      rw [List.isEmpty_iff.mp h] at hs
      cases hs
    | _ => exact trivial
  | attach sink =>
    simp only [fitting, Bool.and_eq_true, decide_eq_true_eq, List.all_eq_true, bne_iff_ne] at h
    exact fun _ => ⟨h.1.1, h.1.2, fun s hs _ => h.2 s hs⟩
  | _ => exact trivial

/-- Two miners come to one channel. -/
theorem slices_stay_disjoint_once :
    ∃ log c, Run Fits log c ∧ c.held.length = 2 ∧ DisjointSlices c := by
  have h : (reactAll fitting ([], initial [] 2)
      (channelOpens 8 ++ [.attach 7, .attach 8])).any
      (fun st => decide (st.2.held.length = 2)) = true := by
    decide +kernel
  obtain ⟨st, hst, htwo⟩ := (Option.any_eq_true _ _).mp h
  have hrun : Run Fits st.1 st.2 := run_of_reactAll fits_of_fitting (.init [] 2) hst
  exact ⟨st.1, st.2, hrun, of_decide_eq_true htwo, (slices_stay_disjoint st.1 st.2 hrun).1⟩

end MkPool.Sv2Slices
