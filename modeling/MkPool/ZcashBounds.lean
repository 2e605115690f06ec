import MkPool.ZcashLayout

/-! # The bounds of the coinbase of the node

When the three functions of `zcash.hpp` stay inside the transaction they are
given, and with how much work. Only the sizes are checked; the bytes that the
sizes announce are stepped over or copied as they come. -/
namespace MkPool.ZcashBounds
open MkPool.Lib MkPool.Utils MkPool.Zcash

/-! ## The walk, in exact numbers -/

/-- Where the inputs end, if every size is there. -/
def inputsEnd (raw : Bytes) : Nat → Nat → Option Nat
  | 0, p => some p
  | vin + 1, p =>
    match sizeAt raw (p + 36) with
    | none => none
    | some (sl, q) => inputsEnd raw vin (q + sl + 4)

/-- Each outpoint is inside, and where its size is there, so are the script and
the sequence. -/
def InputsInside (raw : Bytes) : Nat → Nat → Prop
  | 0, _ => True
  | vin + 1, p => p + 36 ≤ raw.length ∧
    ∀ sl q, sizeAt raw (p + 36) = some (sl, q) →
      q + sl + 4 ≤ raw.length ∧ InputsInside raw vin (q + sl + 4)

/-- Where the outputs end, if every size is there. -/
def outputsEnd (raw : Bytes) : Nat → Nat → Option Nat
  | 0, p => some p
  | vout + 1, p =>
    match sizeAt raw (p + 8) with
    | none => none
    | some (sl, q) => outputsEnd raw vout (q + sl)

/-- No value and no script goes past the last position. -/
def OutputsBelow (raw : Bytes) : Nat → Nat → Prop
  | 0, _ => True
  | vout + 1, p => p + 8 < 2 ^ 64 ∧
    ∀ sl q, sizeAt raw (p + 8) = some (sl, q) →
      q + sl < 2 ^ 64 ∧ OutputsBelow raw vout (q + sl)

/-- There is a header. The inputs that are reached are inside. The outputs that
are reached do not wrap, and when all are there the last one ends inside. -/
def StaysInside (raw : Bytes) : Prop :=
  20 ≤ raw.length ∧ ∀ vin p, sizeAt raw 20 = some (vin, p) →
    InputsInside raw vin p ∧ ∀ p', inputsEnd raw vin p = some p' →
      ∀ vout ods, sizeAt raw p' = some (vout, ods) →
        OutputsBelow raw vout ods ∧ ∀ e, outputsEnd raw vout ods = some e → e ≤ raw.length

/-- Nothing outside is touched and no position wraps, with work bounded by the
length. -/
structure Safe {α : Type} (raw : Bytes) (t : Traced α) : Prop where
  inside : AllInside raw t
  work : work t.touched ≤ 10 * raw.length + 200

/-! ## What the condition follows from -/

section Needed

variable {β : Type} {raw : Bytes}

theorem advance_inside {p k : Nat} {f : Nat → Traced β} (h : AllInside raw (advance p k >>= f)) :
    p + k < 2 ^ 64 ∧ AllInside raw (f (p + k)) ∧
      (advance p k >>= f).result = (f (p + k)).result := by
  obtain ⟨hmove, hrest⟩ := (allInside_bind _ _).mp h
  have hfit : p + k < 2 ^ 64 := hmove (.move p k) List.mem_cons_self
  have hres := (@readsAs_advance raw p k hfit).result
  exact ⟨hfit, hrest _ hres, by rw [bind_some hres]⟩

theorem range_inside {first last : Nat} {f : Bytes → Traced β}
    (h : AllInside raw (range raw first last >>= f)) :
    (first ≤ last ∧ last ≤ raw.length) ∧ AllInside raw (f ((raw.take last).drop first)) ∧
      (range raw first last >>= f).result = (f ((raw.take last).drop first)).result := by
  obtain ⟨hcopy, hrest⟩ := (allInside_bind _ _).mp h
  exact ⟨hcopy (.copy first last) List.mem_cons_self, hrest _ rfl, rfl⟩

theorem size_inside (hraw : raw.length < 2 ^ 63) {p : Nat} {f : Nat × Nat → Traced β}
    (h : AllInside raw (readCompact raw p >>= f)) {n q : Nat} (hsize : sizeAt raw p = some (n, q)) :
    AllInside raw (f (n, q)) ∧ (readCompact raw p >>= f).result = (f (n, q)).result := by
  have hres := (@readCompact_reads raw (by omega) p).result.trans hsize
  exact ⟨((allInside_bind _ _).mp h).2 _ hres, by rw [bind_some hres]⟩

/-- The inputs that are copied are inside. -/
theorem inputs_of_gather (hraw : raw.length < 2 ^ 63) {vin p : Nat} {prevouts sequences : Bytes}
    (h : AllInside raw (gatherInputs raw vin p prevouts sequences)) :
    InputsInside raw vin p ∧ ∀ p', inputsEnd raw vin p = some p' →
      ∃ prevouts' sequences', (gatherInputs raw vin p prevouts sequences).result =
        some (prevouts', sequences', p') := by
  induction vin generalizing p prevouts sequences with
  | zero =>
    refine ⟨trivial, fun p' he => ?_⟩
    cases he
    exact ⟨prevouts, sequences, rfl⟩
  | succ vin ih =>
    unfold gatherInputs at h ⊢
    obtain ⟨⟨_, hend⟩, h, hres₁⟩ := range_inside h
    obtain ⟨_, h, hres₂⟩ := advance_inside h
    cases hsize : sizeAt raw (p + 36) with
    | none =>
      refine ⟨⟨hend, fun sl q he => ?_⟩, fun p' he => ?_⟩
      · rw [hsize] at he
        cases he
      · rw [inputsEnd, hsize] at he
        cases he
    | some x =>
      obtain ⟨sl, q⟩ := x
      obtain ⟨h, hres₃⟩ := size_inside hraw h hsize
      obtain ⟨_, h, hres₄⟩ := advance_inside h
      obtain ⟨⟨_, hlast⟩, h, hres₅⟩ := range_inside h
      obtain ⟨_, h, hres₆⟩ := advance_inside h
      obtain ⟨hrest, hall⟩ := ih h
      refine ⟨⟨hend, fun sl' q' he => ?_⟩, fun p' he => ?_⟩
      · rw [hsize] at he
        cases he
        exact ⟨hlast, hrest⟩
      · rw [inputsEnd, hsize] at he
        obtain ⟨prevouts', sequences', hres⟩ := hall p' he
        refine ⟨prevouts', sequences', ?_⟩
        rw [hres₁, hres₂, hres₃]
        exact hres₄.trans (hres₅.trans (hres₆.trans hres))

/-- The outputs that are stepped over do not wrap. -/
theorem outputs_of_skip (hraw : raw.length < 2 ^ 63) {vout p : Nat}
    (h : AllInside raw (skipOutputs raw vout p)) :
    OutputsBelow raw vout p ∧ ∀ e, outputsEnd raw vout p = some e →
      (skipOutputs raw vout p).result = some e := by
  induction vout generalizing p with
  | zero =>
    refine ⟨trivial, fun e he => ?_⟩
    cases he
    rfl
  | succ vout ih =>
    unfold skipOutputs at h ⊢
    obtain ⟨hfit, h, hres₁⟩ := advance_inside h
    cases hsize : sizeAt raw (p + 8) with
    | none =>
      refine ⟨⟨hfit, fun sl q he => ?_⟩, fun e he => ?_⟩
      · rw [hsize] at he
        cases he
      · rw [outputsEnd, hsize] at he
        cases he
    | some x =>
      obtain ⟨sl, q⟩ := x
      obtain ⟨h, hres₂⟩ := size_inside hraw h hsize
      obtain ⟨hbelow, h, hres₃⟩ := advance_inside h
      obtain ⟨hrest, hall⟩ := ih h
      refine ⟨⟨hfit, fun sl' q' he => ?_⟩, fun e he => ?_⟩
      · rw [hsize] at he
        cases he
        exact ⟨hbelow, hrest⟩
      · rw [outputsEnd, hsize] at he
        rw [hres₁, hres₂]
        exact hres₃.trans (hall e he)

/-- **The transaction id asks for it all.** -/
theorem staysInside_of_txid (hraw : raw.length < 2 ^ 63) {blake : Blake2b}
    (h : AllInside raw (zip244Txid blake raw)) : StaysInside raw := by
  unfold zip244Txid at h
  obtain ⟨⟨_, hheader⟩, h, _⟩ := range_inside h
  refine ⟨hheader, fun vin p hvin => ?_⟩
  have h := ((allInside_bind _ _).mp h).2 _ rfl
  obtain ⟨h, _⟩ := size_inside hraw h hvin
  obtain ⟨hgather, h⟩ := (allInside_bind _ _).mp h
  obtain ⟨hinputs, hend⟩ := inputs_of_gather hraw hgather
  refine ⟨hinputs, fun p' hp' vout ods hvout => ?_⟩
  obtain ⟨prevouts, sequences, hres⟩ := hend p' hp'
  obtain ⟨h, _⟩ := size_inside hraw (h _ hres) hvout
  obtain ⟨hskip, h⟩ := (allInside_bind _ _).mp h
  obtain ⟨houtputs, hlast⟩ := outputs_of_skip hraw hskip
  refine ⟨houtputs, fun e he => ?_⟩
  exact (range_inside (h e (hlast e he))).1.2

end Needed

/-! ## What the condition is enough for -/

section Enough

variable {β : Type} {raw : Bytes} {budget : Nat} {R : β → Nat → Prop}

theorem within_advance {p k : Nat} {f : Nat → Traced β} (hfit : p + k < 2 ^ 64) (hb : 1 ≤ budget)
    (hf : Within raw (f (p + k)) (budget - 1) R) : Within raw (advance p k >>= f) budget R :=
  (Within.advance (Q := fun q left => q = p + k ∧ left = budget - 1) hfit hb ⟨rfl, rfl⟩).bind
    fun q left hq => by rwa [hq.1, hq.2]

theorem within_range {first last : Nat} {f : Bytes → Traced β} (hle : first ≤ last)
    (hlast : last ≤ raw.length) (hb : last - first + 1 ≤ budget)
    (hf : ∀ bytes, Within raw (f bytes) (budget - (last - first + 1)) R) :
    Within raw (range raw first last >>= f) budget R :=
  (Within.range (Q := fun _ left => left = budget - (last - first + 1)) hle hlast hb rfl).bind
    fun bytes _ hleft => hleft ▸ hf bytes

theorem within_size (hraw : raw.length < 2 ^ 63) {p : Nat} {f : Nat × Nat → Traced β}
    (hb : 18 ≤ budget)
    (hf : ∀ n q, sizeAt raw p = some (n, q) → ∀ left, budget - 18 ≤ left →
      Within raw (f (n, q)) left R) : Within raw (readCompact raw p >>= f) budget R :=
  ((readCompact_reads (by omega) p).within (Q := fun x left =>
      sizeAt raw p = some x ∧ budget - 18 ≤ left) hb fun x left hx hleft => ⟨hx, hleft⟩).bind
    fun x left hx => hf x.1 x.2 hx.1 left hx.2

theorem skipInputs_within (hraw : raw.length < 2 ^ 63) {vin p c : Nat}
    (h : InputsInside raw vin p) (hp : p ≤ raw.length) (hc : 60 ≤ c)
    (hb : 4 * (raw.length - p) + c ≤ budget) :
    Within raw (skipInputs raw vin p) budget fun p' left =>
      inputsEnd raw vin p = some p' ∧ p' ≤ raw.length ∧ 4 * (raw.length - p') + c ≤ left := by
  induction vin generalizing p budget with
  | zero => exact .pure ⟨rfl, hp, hb⟩
  | succ vin ih =>
    obtain ⟨hend, hsizes⟩ := h
    unfold skipInputs
    refine within_advance (by omega) (by omega) (within_size hraw (by omega) ?_)
    intro sl q hsize left hleft
    obtain ⟨hlast, hrest⟩ := hsizes sl q hsize
    obtain ⟨hlt, _, _⟩ := sizeAt_bounds hsize
    refine within_advance (by omega) (by omega) (within_advance (by omega) (by omega) ?_)
    refine (ih hrest hlast (by omega)).mono fun p' left' hdone => ?_
    rw [inputsEnd, hsize]
    exact hdone

theorem gatherInputs_within (hraw : raw.length < 2 ^ 63) {vin p c : Nat}
    {prevouts sequences : Bytes} (h : InputsInside raw vin p) (hp : p ≤ raw.length) (hc : 60 ≤ c)
    (hb : 4 * (raw.length - p) + c ≤ budget) :
    Within raw (gatherInputs raw vin p prevouts sequences) budget fun x left =>
      inputsEnd raw vin p = some x.2.2 ∧ x.2.2 ≤ raw.length ∧
        4 * (raw.length - x.2.2) + c ≤ left := by
  induction vin generalizing p budget prevouts sequences with
  | zero => exact .pure ⟨rfl, hp, hb⟩
  | succ vin ih =>
    obtain ⟨hend, hsizes⟩ := h
    unfold gatherInputs
    refine within_range (by omega) hend (by omega) fun prevout => ?_
    refine within_advance (by omega) (by omega) (within_size hraw (by omega) ?_)
    intro sl q hsize left hleft
    obtain ⟨hlast, hrest⟩ := hsizes sl q hsize
    obtain ⟨hlt, _, _⟩ := sizeAt_bounds hsize
    refine within_advance (by omega) (by omega) ?_
    refine within_range (by omega) hlast (by omega) fun sequence => ?_
    refine within_advance (by omega) (by omega) ?_
    refine (ih hrest hlast (by omega)).mono fun p' left' hdone => ?_
    rw [inputsEnd, hsize]
    exact hdone

theorem skipOutputs_within (hraw : raw.length < 2 ^ 63) {vout p c : Nat}
    (h : OutputsBelow raw vout p) (hc : 60 ≤ c) (hb : 4 * (raw.length - p) + c ≤ budget) :
    Within raw (skipOutputs raw vout p) budget fun e left =>
      outputsEnd raw vout p = some e ∧ 4 * (raw.length - e) + c ≤ left := by
  induction vout generalizing p budget with
  | zero => exact .pure ⟨rfl, hb⟩
  | succ vout ih =>
    obtain ⟨hfit, hsizes⟩ := h
    unfold skipOutputs
    refine within_advance hfit (by omega) (within_size hraw (by omega) ?_)
    intro sl q hsize left hleft
    obtain ⟨hbelow, hrest⟩ := hsizes sl q hsize
    obtain ⟨hlt, hin, _⟩ := sizeAt_bounds hsize
    refine within_advance hbelow (by omega) ?_
    refine (ih hrest (by omega)).mono fun e left' hdone => ?_
    rw [outputsEnd, hsize]
    exact hdone

theorem outputsEnd_ge {vout p e : Nat} (h : outputsEnd raw vout p = some e) : p ≤ e := by
  induction vout generalizing p with
  | zero =>
    cases h
    rfl
  | succ vout ih =>
    unfold outputsEnd at h
    split at h
    · cases h
    · rename_i sl q hsize
      have hlt := (sizeAt_bounds hsize).1
      have hle := ih h
      omega

/-- The outputs stand one behind the other. -/
inductive Chain (raw : Bytes) : Nat → List OutputAt → Nat → Prop where
  | nil (p : Nat) : Chain raw p [] p
  | cons {p sl q e : Nat} {outputs : List OutputAt} (hsize : sizeAt raw (p + 8) = some (sl, q))
      (rest : Chain raw (q + sl) outputs e) : Chain raw p (⟨p, q, sl⟩ :: outputs) e

theorem Chain.room {p e : Nat} {outputs : List OutputAt} (h : Chain raw p outputs e) :
    p + 9 * outputs.length ≤ e := by
  induction h with
  | nil p => rfl
  | cons hsize rest ih =>
    have hlt := (sizeAt_bounds hsize).1
    rw [List.length_cons]
    omega

theorem scanOutputs_within (hraw : raw.length < 2 ^ 63) {vout p c : Nat}
    (h : OutputsBelow raw vout p) (hc : 60 ≤ c) (hb : 4 * (raw.length - p) + c ≤ budget) :
    Within raw (scanOutputs raw vout p) budget fun x left =>
      Chain raw p x.1 x.2 ∧ outputsEnd raw vout p = some x.2 ∧
        4 * (raw.length - x.2) + c ≤ left := by
  induction vout generalizing p budget with
  | zero => exact .pure ⟨.nil p, rfl, hb⟩
  | succ vout ih =>
    obtain ⟨hfit, hsizes⟩ := h
    unfold scanOutputs
    refine within_advance hfit (by omega) (within_size hraw (by omega) ?_)
    intro sl q hsize left hleft
    obtain ⟨hbelow, hrest⟩ := hsizes sl q hsize
    obtain ⟨hlt, hin, _⟩ := sizeAt_bounds hsize
    refine within_advance hbelow (by omega) ?_
    refine (ih hrest (by omega)).bind fun x left' hdone => .pure ?_
    rw [outputsEnd, hsize]
    exact ⟨.cons hsize hdone.1, hdone.2⟩

/-- What `parse_layout` returns. -/
structure Parsed (raw : Bytes) (l : CoinbaseLayout) : Prop where
  chain : Chain raw l.outputsStart l.outputs l.outputsEnd
  first : l.voutCountPos ≤ raw.length
  last : l.outputsEnd ≤ raw.length

theorem parseLayout_within (hraw : raw.length < 2 ^ 63) (h : StaysInside raw) {c : Nat}
    (hc : 100 ≤ c) (hb : 4 * raw.length + c ≤ budget) :
    Within raw (parseLayout raw) budget fun l left => Parsed raw l ∧ c ≤ left + 40 := by
  unfold parseLayout
  refine within_size hraw (by omega) fun vin p hvin b₁ hb₁ => ?_
  obtain ⟨hinputs, hends⟩ := h.2 vin p hvin
  obtain ⟨_, hp, _⟩ := sizeAt_bounds hvin
  have hskip : Within raw (skipInputs raw vin p) b₁ _ :=
    skipInputs_within (c := c - 18) hraw hinputs hp (by omega) (by omega)
  refine hskip.bind fun p' b₂ hdone => ?_
  obtain ⟨hend, hp', hb₂⟩ := hdone
  refine within_size hraw (by omega) fun vout ods hvout b₃ hb₃ => ?_
  obtain ⟨houtputs, hlast⟩ := hends p' hend vout ods hvout
  obtain ⟨hlt, hods, _⟩ := sizeAt_bounds hvout
  have hscan : Within raw (scanOutputs raw vout ods) b₃ _ :=
    scanOutputs_within (c := c - 40) hraw houtputs (by omega) (by omega)
  refine hscan.bind fun x b₄ hdone' => .pure ?_
  obtain ⟨hchain, he, hb₄⟩ := hdone'
  exact ⟨⟨hchain, hp', hlast x.2 he⟩, by omega⟩

theorem zip244Txid_within (hraw : raw.length < 2 ^ 63) (h : StaysInside raw) (blake : Blake2b)
    (hb : 10 * raw.length + 200 ≤ budget) :
    Within raw (zip244Txid blake raw) budget fun _ _ => True := by
  have hheader := h.1
  have hbranch : ∀ i ∈ [8, 9, 10, 11], i < raw.length := by
    intro i hi
    simp only [List.mem_cons, List.not_mem_nil, or_false] at hi
    omega
  unfold zip244Txid
  refine within_range (by omega) hheader (by omega) fun header => ?_
  refine ((mapM_reads id [8, 9, 10, 11] hbranch).within (Q := fun _ left =>
    10 * raw.length + 170 ≤ left) (by show 4 ≤ _; omega) fun x left _ hleft => ?_).bind
      fun branch b₀ hb₀ => ?_
  · have hfour : [8, 9, 10, 11].length = 4 := rfl
    omega
  refine within_size hraw (by omega) fun vin p hvin b₁ hb₁ => ?_
  obtain ⟨hinputs, hends⟩ := h.2 vin p hvin
  obtain ⟨_, hp, _⟩ := sizeAt_bounds hvin
  have hgather : Within raw (gatherInputs raw vin p [] []) b₁ _ :=
    gatherInputs_within (c := 6 * raw.length + 150) hraw hinputs hp (by omega) (by omega)
  refine hgather.bind fun x b₂ hdone => ?_
  obtain ⟨prevouts, sequences, p'⟩ := x
  obtain ⟨hend, hp', hb₂⟩ := hdone
  dsimp only at hend hp' hb₂ ⊢
  refine within_size hraw (by omega) fun vout ods hvout b₃ hb₃ => ?_
  obtain ⟨houtputs, hlast⟩ := hends _ hend vout ods hvout
  obtain ⟨hlt, hods, _⟩ := sizeAt_bounds hvout
  have hskip : Within raw (skipOutputs raw vout ods) b₃ _ :=
    skipOutputs_within (c := 6 * raw.length + 100) hraw houtputs (by omega) (by omega)
  refine hskip.bind fun e b₄ hdone' => ?_
  obtain ⟨he, hb₄⟩ := hdone'
  have hle := hlast e he
  refine within_range (outputsEnd_ge he) hle (by omega) fun outputs => ?_
  exact .pure trivial

/-- The values are read. -/
theorem findBest_within {p e : Nat} {outputs : List OutputAt} (h : Chain raw p outputs e)
    (he : e ≤ raw.length) {i : Nat} {found : Nat × Nat} (hb : 8 * outputs.length ≤ budget) :
    Within raw (findBest raw outputs i found) budget fun _ left =>
      budget ≤ left + 8 * outputs.length := by
  induction h generalizing budget i found with
  | nil p => exact .pure (by omega)
  | cons hsize rest ih =>
    rename_i p sl q e outputs
    obtain ⟨hlt, hin, _⟩ := sizeAt_bounds hsize
    obtain ⟨mi, best⟩ := found
    rw [List.length_cons] at hb ⊢
    have hplaces : ∀ b ∈ List.range 8, p + b < raw.length := by
      intro b hb
      have := List.mem_range.mp hb
      omega
    unfold findBest valueAt
    rw [bind_assoc]
    refine ((mapM_reads (p + ·) (List.range 8) hplaces).within (Q := fun _ left =>
      budget ≤ left + 8) (by rw [List.length_range]; omega) fun x left _ hleft => ?_).bind
        fun xs b₁ hb₁ => ?_
    · rw [List.length_range] at hleft
      omega
    · rw [pure_bind]
      exact (ih he (by omega)).mono fun _ left hleft => (by omega)

/-- The outputs are copied. -/
theorem rewrite_within {p e : Nat} {outputs : List OutputAt} (h : Chain raw p outputs e)
    (he : e ≤ raw.length) {mi minerVal : Nat} {donation : Nat × Bool}
    {minerScript donationScript : Bytes} {i : Nat} {done : Bytes × Nat}
    (hb : 2 * (e - p) ≤ budget) :
    Within raw (rewrite raw mi minerVal donation minerScript donationScript outputs i done) budget
      fun _ left => budget ≤ left + 2 * (e - p) := by
  induction h generalizing budget i done with
  | nil p => exact .pure (by omega)
  | cons hsize rest ih =>
    rename_i p sl q e outputs
    obtain ⟨hlt, hin, _⟩ := sizeAt_bounds hsize
    have hroom := rest.room
    obtain ⟨newouts, count⟩ := done
    unfold rewrite
    have hnext {done : Bytes × Nat} {b₁ : Nat} (hb₁ : budget ≤ b₁ + 2 * (q + sl - p)) :
        Within raw (rewrite raw mi minerVal donation minerScript donationScript outputs (i + 1) done)
          b₁ fun _ left => budget ≤ left + 2 * (e - p) :=
      (ih he (by omega)).mono fun _ left hleft => (by omega)
    dsimp only
    split
    · split <;> exact hnext (by omega)
    · refine within_range (by omega) (by omega) (by omega) fun value => ?_
      refine within_range (by omega) (by omega) (by omega) fun script => ?_
      exact hnext (by omega)

theorem swapMinerOutput_within (hraw : raw.length < 2 ^ 63) (h : StaysInside raw)
    (minerScript donationScript : Bytes) (percent : ℚ) (hb : 10 * raw.length + 200 ≤ budget) :
    Within raw (swapMinerOutput raw minerScript donationScript percent) budget fun _ _ => True := by
  unfold swapMinerOutput
  have hparse : Within raw (parseLayout raw) budget fun l left =>
      Parsed raw l ∧ 6 * raw.length + 100 ≤ left + 40 :=
    parseLayout_within hraw h (by omega) (by omega)
  refine hparse.bind fun l b₁ hl => ?_
  obtain ⟨hl, hb₁⟩ := hl
  have hroom := hl.chain.room
  have hlast := hl.last
  have hfirst := hl.first
  by_cases hempty : l.outputs = [] ∨ minerScript = []
  · rw [if_pos hempty]
    exact .pure trivial
  · rw [if_neg hempty]
    refine (findBest_within hl.chain hlast (by omega)).bind fun found b₂ hb₂ => ?_
    obtain ⟨mi, best⟩ := found
    refine (rewrite_within hl.chain hlast (by omega)).bind fun done b₃ hb₃ => ?_
    obtain ⟨newouts, count⟩ := done
    refine within_range (by omega) hfirst (by omega) fun front => ?_
    refine within_range hlast le_rfl (by omega) fun rest => ?_
    exact .pure trivial

end Enough

/-- A header, no inputs, and one output of no value whose script has the size
that is announced by these bytes. -/
def oneOutput (size : Bytes) : Bytes :=
  List.replicate 20 0 ++ (0 :: 1 :: (List.replicate 8 0 ++ size))

/-- What is left to check of such a transaction. -/
theorem staysInside_oneOutput {size : Bytes} {sl q : Nat}
    (hsize : sizeAt (oneOutput size) 30 = some (sl, q)) (hsmall : q + sl < 2 ^ 64) :
    StaysInside (oneOutput size) ↔ q + sl ≤ 30 + size.length := by
  have hlen : (oneOutput size).length = 30 + size.length := by
    unfold oneOutput
    rw [List.length_append, List.length_cons, List.length_cons, List.length_append,
      List.length_replicate, List.length_replicate]
    omega
  have hin : sizeAt (oneOutput size) 20 = some (0, 21) := rfl
  have hout : sizeAt (oneOutput size) 21 = some (1, 22) := rfl
  generalize oneOutput size = raw at hsize hlen hin hout ⊢
  have hend : outputsEnd raw 1 22 = some (q + sl) := by
    unfold outputsEnd
    rw [hsize]
    rfl
  rw [← hlen]
  constructor
  · intro h
    exact ((h.2 0 21 hin).2 21 rfl 1 22 hout).2 _ hend
  · intro h
    have hheader : 20 ≤ raw.length := by omega
    refine ⟨hheader, fun vin p hvin => ?_⟩
    rw [hin] at hvin
    cases hvin
    refine ⟨trivial, fun p' hp' vout ods hvout => ?_⟩
    cases hp'
    rw [hout] at hvout
    cases hvout
    refine ⟨⟨by omega, fun sl' q' hs => ?_⟩, fun e he => ?_⟩
    · rw [hsize] at hs
      cases hs
      exact ⟨hsmall, trivial⟩
    · rw [hend] at he
      cases he
      exact h

end MkPool.ZcashBounds
