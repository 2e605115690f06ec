import MkPool.Lib.Codec

/-! # Legacy transactions

The fields of a transaction without witnesses, their codec, and what a coinbase
is among them: one input, of the null outpoint. -/
namespace MkPool.Lib.Transaction
open MkPool.Lib

structure TxIn where
  prevHash : List UInt8
  prevIndex : Nat
  script : List UInt8
  sequence : Nat
deriving DecidableEq

structure TxOut where
  value : Nat
  script : List UInt8
deriving DecidableEq

structure Tx where
  version : Nat
  inputs : List TxIn
  outputs : List TxOut
  lockTime : Nat
deriving DecidableEq

/-! ## Codecs -/

def txIn : Codec TxIn :=
  ((Codec.fixed 32).seq ((Codec.le 4).seq (Codec.blob.seq (Codec.le 4)))).map
    (fun p => ⟨p.1, p.2.1, p.2.2.1, p.2.2.2⟩)
    (fun i => (i.prevHash, i.prevIndex, i.script, i.sequence)) fun _ _ => rfl

def txOut : Codec TxOut :=
  ((Codec.le 8).seq Codec.blob).map (fun p => ⟨p.1, p.2⟩) (fun o => (o.value, o.script))
    fun _ _ => rfl

def tx : Codec Tx :=
  ((Codec.le 4).seq (txIn.counted.seq (txOut.counted.seq (Codec.le 4)))).map
    (fun p => ⟨p.1, p.2.1, p.2.2.1, p.2.2.2⟩)
    (fun t => (t.version, t.inputs, t.outputs, t.lockTime)) fun _ _ => rfl

theorem fits_txIn {i : TxIn} : txIn.Fits i ↔
    i.prevHash.length = 32 ∧ i.prevIndex < 256 ^ 4 ∧ i.script.length < 2 ^ 64 ∧
      i.sequence < 256 ^ 4 := by
  rw [← Codec.fits_le, ← Codec.fits_blob, ← Codec.fits_le]
  exact ⟨fun h => h.2, fun h => ⟨rfl, h⟩⟩

theorem fits_txOut {o : TxOut} : txOut.Fits o ↔ o.value < 256 ^ 8 ∧ o.script.length < 2 ^ 64 := by
  rw [← Codec.fits_le, ← Codec.fits_blob]
  exact ⟨fun h => h.2, fun h => ⟨rfl, h⟩⟩

theorem fits_tx {t : Tx} : tx.Fits t ↔
    t.version < 256 ^ 4 ∧ (t.inputs.length < 2 ^ 64 ∧ ∀ i ∈ t.inputs, txIn.Fits i) ∧
      (t.outputs.length < 2 ^ 64 ∧ ∀ o ∈ t.outputs, txOut.Fits o) ∧ t.lockTime < 256 ^ 4 := by
  rw [← Codec.fits_le, ← Codec.fits_counted, ← Codec.fits_counted, ← Codec.fits_le]
  exact ⟨fun h => h.2, fun h => ⟨rfl, h⟩⟩

theorem write_txIn (i : TxIn) : txIn.write i =
    i.prevHash ++ (Wire.leBytes 4 i.prevIndex ++
      (Codec.compact.write i.script.length ++ i.script ++ Wire.leBytes 4 i.sequence)) := rfl

theorem write_txOut (o : TxOut) : txOut.write o =
    Wire.leBytes 8 o.value ++ (Codec.compact.write o.script.length ++ o.script) := rfl

theorem write_tx (t : Tx) : tx.write t =
    Wire.leBytes 4 t.version ++ (Codec.compact.write t.inputs.length ++
      t.inputs.flatMap txIn.write ++ (Codec.compact.write t.outputs.length ++
        t.outputs.flatMap txOut.write ++ Wire.leBytes 4 t.lockTime)) := rfl

/-! ## Coinbases -/

/-- The outpoint of no output. -/
def TxIn.Null (i : TxIn) : Prop := i.prevHash = List.replicate 32 0 ∧ i.prevIndex = 2 ^ 32 - 1

/-- A coinbase of a given script. -/
structure Tx.CoinbaseOf (t : Tx) (script : List UInt8) : Prop where
  input : ∃ i, t.inputs = [i] ∧ i.Null ∧ i.script = script
  paid : t.outputs ≠ []

theorem Tx.CoinbaseOf.fields {t : Tx} {script : List UInt8} (h : t.CoinbaseOf script) :
    ∃ sequence, t.inputs = [⟨List.replicate 32 0, 2 ^ 32 - 1, script, sequence⟩] := by
  obtain ⟨⟨prevHash, prevIndex, _, sequence⟩, hi, ⟨hhash, hindex⟩, rfl⟩ := h.input
  dsimp only at hhash hindex
  subst hhash hindex
  exact ⟨sequence, hi⟩

/-- What stands before the size of a coinbase's script, after the version. -/
def outpoint : List UInt8 := 1 :: (List.replicate 32 0 ++ List.replicate 4 0xff)

@[simp] theorem length_outpoint : outpoint.length = 37 := rfl

/-- What follows the script of a coinbase. -/
def tail (sequence : Nat) (outputs : List TxOut) (lockTime : Nat) : List UInt8 :=
  Wire.leBytes 4 sequence ++ (txOut.counted.write outputs ++ Wire.leBytes 4 lockTime)

/-- The text follows the script of a coinbase that pays. -/
def IsTail (bs : List UInt8) : Prop :=
  ∃ sequence outputs lockTime, outputs ≠ [] ∧
    (sequence < 256 ^ 4 ∧ txOut.counted.Fits outputs ∧ lockTime < 256 ^ 4) ∧
      bs = tail sequence outputs lockTime

theorem not_isTail_nil : ¬ IsTail [] := by
  rintro ⟨sequence, outputs, lockTime, _, _, h⟩
  have hlen := congrArg List.length h
  simp only [tail, List.length_append, Wire.length_leBytes, List.length_nil] at hlen
  omega

/-- The middle of a tail is a list of outputs. -/
theorem isTail_iff {sequence lockTime : Nat} {bs : List UInt8} (hs : sequence < 256 ^ 4)
    (hl : lockTime < 256 ^ 4) :
    IsTail (Wire.leBytes 4 sequence ++ (bs ++ Wire.leBytes 4 lockTime)) ↔
      ∃ outputs, outputs ≠ [] ∧ txOut.counted.whole bs = some outputs := by
  constructor
  · rintro ⟨sequence', outputs, lockTime', hne, ⟨_, hfits, _⟩, h⟩
    have h := List.append_inj_right h (by simp only [Wire.length_leBytes])
    have h := List.append_inj_left' h (by simp only [Wire.length_leBytes])
    exact ⟨outputs, hne, (Codec.whole_eq_some _).mpr ⟨hfits, h⟩⟩
  · rintro ⟨outputs, hne, h⟩
    obtain ⟨hfits, rfl⟩ := (Codec.whole_eq_some _).mp h
    exact ⟨sequence, outputs, lockTime, hne, ⟨hs, hfits, hl⟩, rfl⟩

theorem length_write_txOut (o : TxOut) : 9 ≤ (txOut.write o).length := by
  obtain ⟨b, bs, hw, _⟩ := Codec.writeCompact_cons o.script.length
  have hcompact : Codec.compact.write o.script.length = b :: bs := hw
  rw [write_txOut, hcompact]
  simp only [List.length_append, Wire.length_leBytes, List.length_cons]
  omega

/-- **The number that is announced.** In front of as many outputs or more, a
list of outputs is read when it is all of them. -/
theorem whole_outputs_iff {n : Nat} {outputs : List TxOut} (hn : 0 < n) (hsmall : n < 0xfd)
    (hle : n ≤ outputs.length) (hfits : ∀ o ∈ outputs, txOut.Fits o) :
    (∃ outs, outs ≠ [] ∧ txOut.counted.whole (Codec.compact.write n ++
        outputs.flatMap txOut.write) = some outs) ↔ outputs.length = n := by
  constructor
  · rintro ⟨outs, _, h⟩
    obtain ⟨hfit, h⟩ := (Codec.whole_eq_some _).mp h
    rw [Codec.write_counted] at h
    have hlen := Codec.eq_of_compact_small hsmall h
    rw [hlen] at h
    have h := List.append_cancel_left h
    have hfirst : (txOut.times n).Fits (outputs.take n) := by
      refine ⟨by rw [List.length_take]; omega, fun o ho => hfits o (List.mem_of_mem_take ho)⟩
    have hall : (txOut.times n).Fits outs := ⟨hlen, (Codec.fits_counted.mp hfit).2⟩
    have hsplit : outputs.flatMap txOut.write = (outputs.take n).flatMap txOut.write ++
        (outputs.drop n).flatMap txOut.write := by
      rw [← List.flatMap_append, List.take_append_drop]
    have h : (outputs.take n).flatMap txOut.write ++ (outputs.drop n).flatMap txOut.write =
        outs.flatMap txOut.write ++ [] := by rw [← hsplit, h, List.append_nil]
    obtain ⟨_, hrest⟩ := (txOut.times n).write_append_inj hfirst hall h
    have hnone : outputs.drop n = [] := by
      cases hd : outputs.drop n with
      | nil => rfl
      | cons o os =>
        rw [hd, List.flatMap_cons] at hrest
        have hlong := congrArg List.length hrest
        have ho := length_write_txOut o
        simp only [List.length_append, List.length_nil] at hlong
        omega
    have := List.drop_eq_nil_iff.mp hnone
    omega
  · rintro rfl
    refine ⟨outputs, List.ne_nil_of_length_pos hn, (Codec.whole_eq_some _).mpr ⟨?_, rfl⟩⟩
    exact Codec.fits_counted.mpr ⟨by omega, hfits⟩

theorem write_coinbase {version sequence lockTime : Nat} {script : List UInt8}
    {outputs : List TxOut} :
    tx.write ⟨version, [⟨List.replicate 32 0, 2 ^ 32 - 1, script, sequence⟩], outputs, lockTime⟩ =
      Wire.leBytes 4 version ++ (outpoint ++ (Codec.compact.write script.length ++
        (script ++ tail sequence outputs lockTime))) := by
  have hone : Codec.compact.write 1 = [1] := rfl
  have hindex : Wire.leBytes 4 (2 ^ 32 - 1) = List.replicate 4 0xff := by decide
  rw [write_tx]
  simp only [List.length_singleton, hone, List.flatMap_cons, List.flatMap_nil, write_txIn, hindex,
    outpoint, tail, Codec.write_counted, List.append_assoc, List.append_nil, List.nil_append,
    List.cons_append]

/-- The script of the first input, read up to its end. -/
def firstScript (bs : List UInt8) : Option (List UInt8) :=
  (((Codec.le 4).seq (Codec.compact.seq ((Codec.fixed 32).seq ((Codec.le 4).seq
    Codec.blob)))).read bs).map fun p => p.1.2.2.2.2

theorem firstScript_coinbase {version : Nat} {script rest : List UInt8}
    (hv : version < 256 ^ 4) (hs : script.length < 2 ^ 64) :
    firstScript (Wire.leBytes 4 version ++ (outpoint ++ (Codec.compact.write script.length ++
      (script ++ rest)))) = some script := by
  have hlast : 2 ^ 32 - 1 < 256 ^ 4 := by decide
  let front : Codec _ := (Codec.le 4).seq (Codec.compact.seq ((Codec.fixed 32).seq
    ((Codec.le 4).seq Codec.blob)))
  have hread := front.read_write (a := (version, 1, List.replicate 32 0, 2 ^ 32 - 1, script))
    ⟨Codec.fits_le.mpr hv, (by decide : 1 < 2 ^ 64), List.length_replicate,
      Codec.fits_le.mpr hlast, Codec.fits_blob.mpr hs⟩ rest
  have hwrite : front.write (version, 1, List.replicate 32 0, 2 ^ 32 - 1, script) ++ rest =
      Wire.leBytes 4 version ++ (outpoint ++ (Codec.compact.write script.length ++
        (script ++ rest))) := by
    have hindex : Wire.leBytes 4 (2 ^ 32 - 1) = List.replicate 4 0xff := by decide
    show Wire.leBytes 4 version ++ (Codec.compact.write 1 ++ (List.replicate 32 0 ++
      (Wire.leBytes 4 (2 ^ 32 - 1) ++ (Codec.compact.write script.length ++ script)))) ++ rest = _
    rw [hindex]
    simp only [List.append_assoc, outpoint, List.cons_append]
    rfl
  unfold firstScript
  rw [← hwrite, hread]
  rfl

/-- **Coinbases by their text.** With a one-byte size, a text is a coinbase of
the script that stands there when that is the size and a tail follows. -/
theorem whole_coinbase_iff {version n : Nat} {script rest : List UInt8} (hv : version < 256 ^ 4)
    (hn : n < 0xfd) :
    (∃ t, tx.whole (Wire.leBytes 4 version ++ (outpoint ++ (Codec.compact.write n ++
        (script ++ rest)))) = some t ∧ t.CoinbaseOf script) ↔
      script.length = n ∧ IsTail rest := by
  constructor
  · rintro ⟨t, hwhole, hc⟩
    obtain ⟨hfits, hbs⟩ := (tx.whole_eq_some).mp hwhole
    obtain ⟨v, inputs, outputs, lockTime⟩ := t
    obtain ⟨sequence, rfl⟩ := hc.fields
    obtain ⟨_, ⟨_, hin⟩, hout, hlock⟩ := fits_tx.mp hfits
    obtain ⟨_, _, _, hseq⟩ := fits_txIn.mp (hin _ (List.mem_singleton.mpr rfl))
    rw [write_coinbase] at hbs
    have hbs := List.append_inj_right hbs (by simp)
    have hbs := List.append_inj_right hbs rfl
    have hlen := Codec.eq_of_compact_small hn hbs
    rw [hlen] at hbs
    have hbs := List.append_cancel_left (List.append_cancel_left hbs)
    exact ⟨hlen, sequence, outputs, lockTime, hc.paid,
      ⟨hseq, Codec.fits_counted.mpr hout, hlock⟩, hbs⟩
  · rintro ⟨rfl, sequence, outputs, lockTime, hne, ⟨hseq, hout, hlock⟩, rfl⟩
    refine ⟨⟨version, [⟨List.replicate 32 0, 2 ^ 32 - 1, script, sequence⟩], outputs, lockTime⟩,
      ?_, ⟨⟨_, rfl, ⟨rfl, rfl⟩, rfl⟩, hne⟩⟩
    rw [← write_coinbase]
    refine (tx.whole_eq_some).mpr ⟨fits_tx.mpr ⟨hv, ⟨by simp, fun i hi => ?_⟩,
      Codec.fits_counted.mp hout, hlock⟩, rfl⟩
    rw [List.mem_singleton.mp hi]
    have hlast : 2 ^ 32 - 1 < 256 ^ 4 := by decide
    exact fits_txIn.mpr ⟨List.length_replicate, hlast, by show script.length < _; omega, hseq⟩

/-! ## Transactions of one input -/

/-- The text follows the script of the one input of a transaction, which need
not pay. -/
def IsRest (bs : List UInt8) : Prop :=
  ∃ sequence outputs lockTime,
    (sequence < 256 ^ 4 ∧ txOut.counted.Fits outputs ∧ lockTime < 256 ^ 4) ∧
      bs = tail sequence outputs lockTime

theorem IsTail.isRest {bs : List UInt8} (h : IsTail bs) : IsRest bs := by
  obtain ⟨sequence, outputs, lockTime, _, hfits, rfl⟩ := h
  exact ⟨sequence, outputs, lockTime, hfits, rfl⟩

theorem not_isRest_nil : ¬ IsRest [] := by
  rintro ⟨sequence, outputs, lockTime, _, h⟩
  have hlen := congrArg List.length h
  simp only [tail, List.length_append, Wire.length_leBytes, List.length_nil] at hlen
  omega

/-- A rest that announces outputs has them. -/
theorem isTail_of_isRest {sequence n : Nat} {bs : List UInt8} (hn : 0 < n) (hsmall : n < 0xfd)
    (h : IsRest (Wire.leBytes 4 sequence ++ (Codec.compact.write n ++ bs))) :
    IsTail (Wire.leBytes 4 sequence ++ (Codec.compact.write n ++ bs)) := by
  obtain ⟨sequence', outputs, lockTime, hfits, heq⟩ := h
  refine ⟨sequence', outputs, lockTime, ?_, hfits, heq⟩
  have hcount := List.append_inj_right heq (by simp only [Wire.length_leBytes])
  rw [Codec.write_counted, List.append_assoc] at hcount
  have hlen := Codec.eq_of_compact_small hsmall hcount
  exact List.ne_nil_of_length_pos (by omega)

/-- The number of inputs stands before the outpoint. -/
theorem one_input_of_whole {version : Nat} {bs : List UInt8} {t : Tx}
    (h : tx.whole (Wire.leBytes 4 version ++ (outpoint ++ bs)) = some t) :
    ∃ i, t.inputs = [i] := by
  obtain ⟨_, hbs⟩ := (tx.whole_eq_some).mp h
  rw [write_tx] at hbs
  have hbs := List.append_inj_right hbs (by simp only [Wire.length_leBytes])
  have hone : Codec.compact.write 1 ++ (List.replicate 32 0 ++ List.replicate 4 0xff ++ bs) =
      outpoint ++ bs := rfl
  rw [← hone, List.append_assoc, List.append_assoc (Codec.compact.write t.inputs.length)] at hbs
  exact List.length_eq_one_iff.mp (Codec.eq_of_compact_small (by decide) hbs)

/-- **Transactions by their text.** With a one-byte size, what stands after it
is the script and the rest of a transaction when there is enough for the
script, and a rest follows. -/
theorem whole_iff {version n : Nat} {bs : List UInt8} (hv : version < 256 ^ 4) (hn : n < 0xfd) :
    (∃ t, tx.whole (Wire.leBytes 4 version ++ (outpoint ++ (Codec.compact.write n ++ bs))) =
      some t) ↔ n ≤ bs.length ∧ IsRest (bs.drop n) := by
  constructor
  · rintro ⟨t, h⟩
    obtain ⟨i, hi⟩ := one_input_of_whole h
    obtain ⟨hfits, hbs⟩ := (tx.whole_eq_some).mp h
    obtain ⟨v, inputs, outputs, lockTime⟩ := t
    obtain ⟨prevHash, prevIndex, script, sequence⟩ := i
    obtain rfl : inputs = _ := hi
    obtain ⟨_, ⟨_, hin⟩, hout, hlock⟩ := fits_tx.mp hfits
    obtain ⟨hhash, _, _, hseq⟩ := fits_txIn.mp (hin _ (List.mem_singleton.mpr rfl))
    have hone : Codec.compact.write 1 = [1] := rfl
    simp only [write_tx, List.length_singleton, hone, List.flatMap_cons, List.flatMap_nil,
      write_txIn, outpoint, List.append_assoc, List.append_nil, List.nil_append,
      List.cons_append] at hbs
    have hbs := (List.cons.inj (List.append_inj_right hbs (by simp only [Wire.length_leBytes]))).2
    have hbs := List.append_inj_right hbs (by rw [List.length_replicate]; exact hhash.symm)
    have hbs := List.append_inj_right hbs (by rw [List.length_replicate, Wire.length_leBytes])
    have hlen : script.length = n := Codec.eq_of_compact_small hn hbs
    rw [hlen] at hbs
    have hbs := List.append_cancel_left hbs
    rw [hbs]
    refine ⟨by rw [List.length_append]; omega, sequence, outputs, lockTime,
      ⟨hseq, Codec.fits_counted.mpr hout, hlock⟩, ?_⟩
    rw [List.drop_left' hlen, tail, Codec.write_counted]
    simp only [List.append_assoc]
  · rintro ⟨hle, sequence, outputs, lockTime, ⟨hseq, hout, hlock⟩, hrest⟩
    have hsplit : bs = bs.take n ++ tail sequence outputs lockTime := by
      rw [← hrest, List.take_append_drop]
    have hlen : (bs.take n).length = n := by
      rw [List.length_take]
      omega
    refine ⟨⟨version, [⟨List.replicate 32 0, 2 ^ 32 - 1, bs.take n, sequence⟩], outputs, lockTime⟩,
      (tx.whole_eq_some).mpr ⟨fits_tx.mpr ⟨hv, ⟨by simp, fun i hi => ?_⟩,
        Codec.fits_counted.mp hout, hlock⟩, ?_⟩⟩
    · rw [List.mem_singleton.mp hi]
      have hlast : 2 ^ 32 - 1 < 256 ^ 4 := by decide
      refine fits_txIn.mpr ⟨List.length_replicate, hlast, ?_, hseq⟩
      show (bs.take n).length < _
      omega
    · rw [write_coinbase, hlen, ← hsplit]

end MkPool.Lib.Transaction
