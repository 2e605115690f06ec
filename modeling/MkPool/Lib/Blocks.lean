import MkPool.Lib.Transaction

/-! # Blocks

Headers of eighty bytes, transactions with and without witnesses, and the blocks
they make. -/
namespace MkPool.Lib.Blocks
open MkPool.Lib MkPool.Lib.Transaction

/-! ## Headers -/

structure Header where
  version : Nat
  prevHash : List UInt8
  root : List UInt8
  time : Nat
  bits : Nat
  nonce : Nat
deriving DecidableEq

def header : Codec Header :=
  ((Codec.le 4).seq ((Codec.fixed 32).seq ((Codec.fixed 32).seq ((Codec.le 4).seq
    ((Codec.le 4).seq (Codec.le 4)))))).map
    (fun p => ⟨p.1, p.2.1, p.2.2.1, p.2.2.2.1, p.2.2.2.2.1, p.2.2.2.2.2⟩)
    (fun h => (h.version, h.prevHash, h.root, h.time, h.bits, h.nonce)) fun _ _ => rfl

theorem fits_header {h : Header} : header.Fits h ↔
    h.version < 256 ^ 4 ∧ h.prevHash.length = 32 ∧ h.root.length = 32 ∧ h.time < 256 ^ 4 ∧
      h.bits < 256 ^ 4 ∧ h.nonce < 256 ^ 4 := by
  rw [← Codec.fits_le, ← Codec.fits_le, ← Codec.fits_le, ← Codec.fits_le]
  exact ⟨fun h => h.2, fun h => ⟨rfl, h⟩⟩

theorem write_header (h : Header) : header.write h =
    Wire.leBytes 4 h.version ++ (h.prevHash ++ (h.root ++ (Wire.leBytes 4 h.time ++
      (Wire.leBytes 4 h.bits ++ Wire.leBytes 4 h.nonce)))) := rfl

/-- A header by its fields as they are written. -/
theorem header_of_fields {version prevHash root time bits nonce : List UInt8}
    (hversion : version.length = 4) (hprev : prevHash.length = 32) (hroot : root.length = 32)
    (htime : time.length = 4) (hbits : bits.length = 4) (hnonce : nonce.length = 4) :
    ∃ h, header.Fits h ∧ h.root = root ∧
      header.write h = version ++ (prevHash ++ (root ++ (time ++ (bits ++ nonce)))) := by
  have number {bs : List UInt8} (h : bs.length = 4) :
      Wire.leValue bs < 256 ^ 4 ∧ Wire.leBytes 4 (Wire.leValue bs) = bs := by
    rw [← h]
    exact ⟨Wire.leValue_lt bs, Wire.leBytes_leValue bs⟩
  refine ⟨⟨Wire.leValue version, prevHash, root, Wire.leValue time, Wire.leValue bits,
    Wire.leValue nonce⟩, fits_header.mpr ⟨(number hversion).1, hprev, hroot, (number htime).1,
      (number hbits).1, (number hnonce).1⟩, rfl, ?_⟩
  rw [write_header, (number hversion).2, (number htime).2, (number hbits).2, (number hnonce).2]

/-! ## Transactions with witnesses -/

/-- A transaction, and for each of its inputs a stack, where there are
witnesses. -/
structure WitnessTx where
  tx : Tx
  witness : Option (List (List (List UInt8)))
deriving DecidableEq

/-- What follows the version of a transaction without witnesses: it has inputs. -/
def bareBody : Codec (List TxIn × (List TxOut × Nat)) :=
  (txIn.counted.restrict fun inputs => !inputs.isEmpty).seq (txOut.counted.seq (Codec.le 4))

/-- What follows the version of a transaction with witnesses: a mark in place of
the number of inputs. -/
def markedBody : Codec (Unit × (((List TxIn × List TxOut) × List (List (List UInt8))) × Nat)) :=
  (Codec.mark [0, 1]).seq
    (((txIn.counted.seq txOut.counted).seqDep fun p => Codec.blob.counted.times p.1.length).seq
      (Codec.le 4))

theorem bare_apart (a : List TxIn × (List TxOut × Nat))
    (b : Unit × (((List TxIn × List TxOut) × List (List (List UInt8))) × Nat)) (s t : List UInt8)
    (ha : bareBody.Fits a) : bareBody.write a ++ s ≠ markedBody.write b ++ t := by
  obtain ⟨c, cs, hw, hc⟩ := Codec.writeCompact_cons a.1.length
  have hbare : bareBody.write a ++ s = c :: (cs ++ (a.1.flatMap txIn.write ++
      ((txOut.counted.seq (Codec.le 4)).write a.2 ++ s))) := by
    show Codec.writeCompact a.1.length ++ a.1.flatMap txIn.write ++ _ ++ s = _
    rw [hw]
    simp only [List.cons_append, List.append_assoc]
  have hsome : a.1.length ≠ 0 := by
    have hne := ha.1.2
    simpa using hne
  rw [hbare]
  intro h
  have hzero : c = 0 := (List.cons.inj h).1
  rw [hzero] at hc
  split at hc
  · exact hsome hc.symm
  · split at hc
    · cases hc
    · split at hc <;> cases hc

def witnessTx : Codec WitnessTx :=
  ((Codec.le 4).seq (bareBody.either markedBody fun a b s t ha _ => bare_apart a b s t ha)).map
    (fun p => match p.2 with
      | .inl b => ⟨⟨p.1, b.1, b.2.1, b.2.2⟩, none⟩
      | .inr m => ⟨⟨p.1, m.2.1.1.1, m.2.1.1.2, m.2.2⟩, some m.2.1.2⟩)
    (fun t => (t.tx.version, match t.witness with
      | none => .inl (t.tx.inputs, t.tx.outputs, t.tx.lockTime)
      | some w => .inr ((), ((t.tx.inputs, t.tx.outputs), w), t.tx.lockTime)))
    fun p _ => by obtain ⟨v, b | m⟩ := p <;> rfl

theorem fits_bare {t : Tx} (h : tx.Fits t) (hne : t.inputs ≠ []) : witnessTx.Fits ⟨t, none⟩ := by
  obtain ⟨hversion, hin, hout, hlock⟩ := fits_tx.mp h
  refine ⟨rfl, Codec.fits_le.mpr hversion, ⟨Codec.fits_counted.mpr hin, ?_⟩,
    Codec.fits_counted.mpr hout, Codec.fits_le.mpr hlock⟩
  simpa using hne

/-- Without witnesses, a transaction is its own text. -/
@[simp] theorem write_bare (t : Tx) : witnessTx.write ⟨t, none⟩ = tx.write t := by
  show Wire.leBytes 4 t.version ++ (txIn.counted.write t.inputs ++
    (txOut.counted.write t.outputs ++ Wire.leBytes 4 t.lockTime)) = _
  simp only [write_tx, Codec.write_counted, List.append_assoc]

theorem fits_marked {t : Tx} {w : List (List (List UInt8))} (h : tx.Fits t)
    (hlen : w.length = t.inputs.length) (hw : ∀ s ∈ w, Codec.blob.counted.Fits s) :
    witnessTx.Fits ⟨t, some w⟩ := by
  obtain ⟨hversion, hin, hout, hlock⟩ := fits_tx.mp h
  exact ⟨rfl, Codec.fits_le.mpr hversion, ⟨rfl, rfl, beq_self_eq_true _⟩,
    ⟨⟨Codec.fits_counted.mpr hin, Codec.fits_counted.mpr hout⟩, hlen, hw⟩, Codec.fits_le.mpr hlock⟩

theorem write_marked (t : Tx) (w : List (List (List UInt8))) :
    witnessTx.write ⟨t, some w⟩ =
      Wire.leBytes 4 t.version ++ ([0, 1] ++ ((txIn.counted.write t.inputs ++
        txOut.counted.write t.outputs) ++ (w.flatMap Codec.blob.counted.write ++
          Wire.leBytes 4 t.lockTime))) := by
  show Wire.leBytes 4 t.version ++ ([0, 1] ++ (((txIn.counted.write t.inputs ++
    txOut.counted.write t.outputs) ++ w.flatMap Codec.blob.counted.write) ++
      Wire.leBytes 4 t.lockTime)) = _
  simp only [List.append_assoc]

/-! ## Blocks -/

structure Block where
  header : Header
  txs : List WitnessTx
deriving DecidableEq

def block : Codec Block :=
  (header.seq witnessTx.counted).map (fun p => ⟨p.1, p.2⟩) (fun b => (b.header, b.txs)) fun _ _ => rfl

theorem fits_block {b : Block} : block.Fits b ↔
    header.Fits b.header ∧ b.txs.length < 2 ^ 64 ∧ ∀ t ∈ b.txs, witnessTx.Fits t := by
  rw [← Codec.fits_counted]
  exact ⟨fun h => h.2, fun h => ⟨rfl, h⟩⟩

theorem write_block (b : Block) : block.write b =
    header.write b.header ++ (Codec.compact.write b.txs.length ++ b.txs.flatMap witnessTx.write) :=
  rfl

end MkPool.Lib.Blocks
