import MkPool.Lib.Transaction
import MkPool.ZcashLayout

/-! # The payout of a Zcash coinbase

What `parse_layout` finds in a transaction that is written as it should be, and
what `swap_miner_output` makes of it: the same transaction, with one output of
the largest value redirected. -/
namespace MkPool.ZcashPayout
open MkPool.Lib MkPool.Lib.Transaction MkPool.Utils MkPool.Zcash

/-! ## The format -/

/-- The transparent part of a version 5 transaction. -/
structure ZcashTx where
  header : Bytes
  inputs : List TxIn
  outputs : List TxOut

/-- A header of twenty bytes, the inputs and the outputs, each behind their
number. Sizes are in their shortest form. -/
def zcashTx : Codec ZcashTx :=
  ((Codec.fixed 20).seq (txIn.counted.seq txOut.counted)).map
    (fun p => ⟨p.1, p.2.1, p.2.2⟩) (fun t => (t.header, t.inputs, t.outputs)) fun _ _ => rfl

theorem fits_zcashTx {t : ZcashTx} : zcashTx.Fits t ↔ t.header.length = 20 ∧
    (t.inputs.length < 2 ^ 64 ∧ ∀ i ∈ t.inputs, txIn.Fits i) ∧
      t.outputs.length < 2 ^ 64 ∧ ∀ o ∈ t.outputs, txOut.Fits o := by
  rw [← Codec.fits_counted, ← Codec.fits_counted]
  exact ⟨fun h => h.2, fun h => ⟨rfl, h⟩⟩

theorem write_zcashTx (t : ZcashTx) : zcashTx.write t =
    t.header ++ ((Codec.compact.write t.inputs.length ++ t.inputs.flatMap txIn.write) ++
      (Codec.compact.write t.outputs.length ++ t.outputs.flatMap txOut.write)) := rfl

/-- The outputs that a layout finds in the bytes. -/
def outputsOf (raw : Bytes) (l : CoinbaseLayout) : List TxOut :=
  l.outputs.map fun o =>
    ⟨Wire.leValue ((raw.drop o.value).take 8), (raw.drop o.script).take o.length⟩

/-! ## Reading on -/

section Reading

variable {raw a b : Bytes} {p : Nat}

theorem drop_after (h : raw.drop p = a ++ b) : raw.drop (p + a.length) = b := by
  rw [← List.drop_drop, h, List.drop_left]

theorem end_le (hp : p ≤ raw.length) (h : raw.drop p = a ++ b) : p + a.length ≤ raw.length := by
  have hlen := congrArg List.length h
  rw [List.length_drop, List.length_append] at hlen
  omega

theorem take_here (h : raw.drop p = a ++ b) : (raw.drop p).take a.length = a := by
  rw [h, List.take_left]

/-- A size in its shortest form is read. -/
theorem sizeAt_write {n : Nat} (hn : n < 2 ^ 64) (h : raw.drop p = Codec.compact.write n ++ b) :
    sizeAt raw p = some (n, p + (Codec.compact.write n).length) := by
  have hw : Codec.compact.write n = Codec.writeCompact n := rfl
  rw [hw] at h ⊢
  unfold Codec.writeCompact at h ⊢
  have wide {x : UInt8} {k : Nat} (hx : ¬ x.toNat < 0xfd) (hk : sizeWidth x = k)
      (hfit : n < 256 ^ k) (hd : raw.drop p = (x :: Wire.leBytes k n) ++ b) :
      sizeAt raw p = some (n, p + (x :: Wire.leBytes k n).length) := by
    have htake : (Wire.leBytes k n ++ b).take k = Wire.leBytes k n :=
      List.take_left' (Wire.length_leBytes k n)
    unfold sizeAt
    rw [hd, List.cons_append]
    dsimp only
    rw [if_neg hx, hk, if_pos (by rw [List.length_append, Wire.length_leBytes]; omega), htake,
      Wire.leValue_leBytes hfit, List.length_cons, Wire.length_leBytes, Nat.add_right_comm]
    rfl
  by_cases h₁ : n < 0xfd
  · rw [if_pos h₁] at h ⊢
    have hone : Wire.leBytes 1 n = [UInt8.ofNat n] := by
      rw [Wire.leBytes, Wire.leBytes, Nat.mod_eq_of_lt (by omega)]
    have hbyte : (UInt8.ofNat n).toNat = n := by
      rw [UInt8.toNat_ofNat', Nat.mod_eq_of_lt (by omega)]
    rw [hone] at h ⊢
    unfold sizeAt
    rw [h, List.singleton_append]
    dsimp only
    rw [hbyte, if_pos h₁]
    rfl
  · rw [if_neg h₁] at h ⊢
    by_cases h₂ : n < 2 ^ 16
    · rw [if_pos h₂] at h ⊢
      exact wide (by decide) (by decide) (by omega) h
    · rw [if_neg h₂] at h ⊢
      by_cases h₃ : n < 2 ^ 32
      · rw [if_pos h₃] at h ⊢
        exact wide (by decide) (by decide) (by omega) h
      · rw [if_neg h₃] at h ⊢
        exact wide (by decide) (by decide) (by omega) h

theorem result_advance {β : Type} {q k : Nat} {f : Nat → Traced β} (h : q + k < 2 ^ 64) :
    (advance q k >>= f).result = (f (q + k)).result := by
  rw [bind_some (@readsAs_advance [] q k h).result]

theorem result_size {β : Type} {n q : Nat} {f : Nat × Nat → Traced β}
    (hraw : raw.length < 2 ^ 64) (h : sizeAt raw p = some (n, q)) :
    (readCompact raw p >>= f).result = (f (n, q)).result := by
  rw [bind_some ((readCompact_reads hraw p).result.trans h)]

end Reading

/-! ## The layout of a written transaction -/

/-- Where outputs stand that begin at a position. -/
def places : Nat → List TxOut → List OutputAt
  | _, [] => []
  | p, o :: outs =>
    ⟨p, p + 8 + (Codec.compact.write o.script.length).length, o.script.length⟩ ::
      places (p + (txOut.write o).length) outs

section Layout

variable {raw rest : Bytes} {p : Nat}

theorem skipInputs_write (hraw : raw.length < 2 ^ 64) {ins : List TxIn}
    (hfits : ∀ i ∈ ins, txIn.Fits i) (hp : p ≤ raw.length)
    (h : raw.drop p = ins.flatMap txIn.write ++ rest) :
    (skipInputs raw ins.length p).result = some (p + (ins.flatMap txIn.write).length) := by
  induction ins generalizing p with
  | nil => rfl
  | cons i ins ih =>
    obtain ⟨hhash, _, hscript, _⟩ := fits_txIn.mp (hfits i List.mem_cons_self)
    rw [List.flatMap_cons, List.append_assoc] at h
    have hend := end_le hp h
    have hnext := drop_after h
    have hwrite : txIn.write i = (i.prevHash ++ Wire.leBytes 4 i.prevIndex) ++
        (Codec.compact.write i.script.length ++ (i.script ++ Wire.leBytes 4 i.sequence)) := by
      rw [write_txIn, List.append_assoc, List.append_assoc]
    have hlen : (txIn.write i).length = 36 + ((Codec.compact.write i.script.length).length +
        (i.script.length + 4)) := by
      rw [hwrite]
      simp only [List.length_append, hhash, Wire.length_leBytes]
    rw [hwrite, List.append_assoc] at h
    have hsize : sizeAt raw (p + 36) = some (i.script.length,
        p + 36 + (Codec.compact.write i.script.length).length) := by
      have hdrop := drop_after h
      rw [show (i.prevHash ++ Wire.leBytes 4 i.prevIndex).length = 36 by
        simp [hhash]] at hdrop
      rw [List.append_assoc] at hdrop
      exact sizeAt_write hscript hdrop
    rw [List.length_cons, skipInputs, result_advance (by omega), result_size hraw hsize,
      result_advance (by omega), result_advance (by omega)]
    have hpos : p + 36 + (Codec.compact.write i.script.length).length + i.script.length + 4 =
        p + (txIn.write i).length := by omega
    rw [hpos, ih (fun j hj => hfits j (List.mem_cons_of_mem _ hj)) hend hnext, List.flatMap_cons,
      List.length_append, Nat.add_assoc]

/-- The size of a script stands behind the value. -/
theorem sizeAt_output {o : TxOut} (hfits : txOut.Fits o) (h : raw.drop p = txOut.write o ++ rest) :
    sizeAt raw (p + 8) =
      some (o.script.length, p + 8 + (Codec.compact.write o.script.length).length) := by
  rw [write_txOut, List.append_assoc] at h
  have hdrop := drop_after h
  rw [Wire.length_leBytes, List.append_assoc] at hdrop
  exact sizeAt_write (fits_txOut.mp hfits).2 hdrop

theorem length_write (o : TxOut) : (txOut.write o).length =
    8 + ((Codec.compact.write o.script.length).length + o.script.length) := by
  rw [write_txOut, List.length_append, List.length_append, Wire.length_leBytes]

theorem scanOutputs_write (hraw : raw.length < 2 ^ 64) {outs : List TxOut}
    (hfits : ∀ o ∈ outs, txOut.Fits o) (hp : p ≤ raw.length)
    (h : raw.drop p = outs.flatMap txOut.write ++ rest) :
    (scanOutputs raw outs.length p).result =
      some (places p outs, p + (outs.flatMap txOut.write).length) := by
  induction outs generalizing p with
  | nil => rfl
  | cons o outs ih =>
    have ho := hfits o List.mem_cons_self
    rw [List.flatMap_cons, List.append_assoc] at h
    have hend := end_le hp h
    have hnext := drop_after h
    have hlen := length_write o
    have hsize := sizeAt_output ho h
    have hpos : p + 8 + (Codec.compact.write o.script.length).length + o.script.length =
        p + (txOut.write o).length := by omega
    have hrest := ih (fun x hx => hfits x (List.mem_cons_of_mem _ hx)) hend hnext
    rw [List.length_cons, scanOutputs, result_advance (by omega), result_size hraw hsize,
      result_advance (by omega), hpos, bind_some hrest, List.flatMap_cons, List.length_append,
      ← Nat.add_assoc]
    rfl

/-- The value and the script of an output. -/
theorem output_parts {o : TxOut} (h : raw.drop p = txOut.write o ++ rest) :
    (raw.drop p).take 8 = Wire.leBytes 8 o.value ∧
      (raw.drop (p + 8 + (Codec.compact.write o.script.length).length)).take o.script.length =
        o.script := by
  rw [write_txOut, List.append_assoc] at h
  have htake := take_here h
  have hdrop := drop_after h
  rw [Wire.length_leBytes] at htake hdrop
  rw [List.append_assoc] at hdrop
  exact ⟨htake, take_here (drop_after hdrop)⟩

/-- What stands at the places of outputs. -/
theorem outputs_at {outs : List TxOut} (hfits : ∀ o ∈ outs, txOut.Fits o)
    (h : raw.drop p = outs.flatMap txOut.write ++ rest) :
    (places p outs).map (fun o => (⟨Wire.leValue ((raw.drop o.value).take 8),
      (raw.drop o.script).take o.length⟩ : TxOut)) = outs := by
  induction outs generalizing p with
  | nil => rfl
  | cons o outs ih =>
    have ho := fits_txOut.mp (hfits o List.mem_cons_self)
    rw [List.flatMap_cons, List.append_assoc] at h
    have hnext := drop_after h
    obtain ⟨hvalue, hscript⟩ := output_parts h
    rw [places, List.map_cons, ih (fun x hx => hfits x (List.mem_cons_of_mem _ hx)) hnext]
    dsimp only
    rw [hvalue, hscript, Wire.leValue_leBytes ho.1]

end Layout

/-- The parts of a transaction, and where they stand. -/
structure Written (raw : Bytes) (t : ZcashTx) (rest : Bytes) (l : CoinbaseLayout) : Prop where
  front : raw.take l.voutCountPos =
    t.header ++ (Codec.compact.write t.inputs.length ++ t.inputs.flatMap txIn.write)
  back : raw.drop l.outputsEnd = rest
  start : raw.drop l.outputsStart = t.outputs.flatMap txOut.write ++ rest
  places : l.outputs = places l.outputsStart t.outputs
  first : l.voutCountPos ≤ raw.length
  last : l.outputsEnd ≤ raw.length

/-- **A written transaction is parsed.** -/
theorem parseLayout_write {t : ZcashTx} (hfits : zcashTx.Fits t) {raw rest : Bytes}
    (hwrite : raw = zcashTx.write t ++ rest) (hraw : raw.length < 2 ^ 64) :
    ∃ l, (parseLayout raw).result = some l ∧ Written raw t rest l := by
  obtain ⟨hheader, ⟨hin, hins⟩, hout, houts⟩ := fits_zcashTx.mp hfits
  have h₀ : raw.drop 0 = t.header ++ (Codec.compact.write t.inputs.length ++
      (t.inputs.flatMap txIn.write ++ (Codec.compact.write t.outputs.length ++
        (t.outputs.flatMap txOut.write ++ rest)))) := by
    rw [List.drop_zero, hwrite, write_zcashTx]
    simp only [List.append_assoc]
  have hp₁ := end_le (Nat.zero_le _) h₀
  have h₁ := drop_after h₀
  rw [Nat.zero_add, hheader] at hp₁ h₁
  have hp₂ := end_le hp₁ h₁
  have h₂ := drop_after h₁
  have hp₃ := end_le hp₂ h₂
  have h₃ := drop_after h₂
  have hp₄ := end_le hp₃ h₃
  have h₄ := drop_after h₃
  have hp₅ := end_le hp₄ h₄
  have h₅ := drop_after h₄
  have hsizeIn := sizeAt_write hin h₁
  have hsizeOut := sizeAt_write hout h₃
  have hskip := skipInputs_write hraw hins hp₂ h₂
  have hscan := scanOutputs_write hraw houts hp₄ h₄
  refine ⟨⟨_, _, _, places _ t.outputs⟩, ?_, ⟨?_, h₅, h₄, rfl, hp₃, hp₅⟩⟩
  · unfold parseLayout
    rw [result_size hraw hsizeIn]
    dsimp only
    rw [bind_some hskip]
    dsimp only
    rw [result_size hraw hsizeOut]
    dsimp only
    rw [bind_some hscan]
    rfl
  · have hlen : 20 + (Codec.compact.write t.inputs.length).length +
        (t.inputs.flatMap txIn.write).length =
          (t.header ++ (Codec.compact.write t.inputs.length ++
            t.inputs.flatMap txIn.write)).length := by
      rw [List.length_append, List.length_append, hheader, Nat.add_assoc]
    show raw.take (20 + (Codec.compact.write t.inputs.length).length +
        (t.inputs.flatMap txIn.write).length) = _
    have hsplit : raw = (t.header ++ (Codec.compact.write t.inputs.length ++
        t.inputs.flatMap txIn.write)) ++ (Codec.compact.write t.outputs.length ++
          (t.outputs.flatMap txOut.write ++ rest)) := by
      rw [hwrite, write_zcashTx]
      simp only [List.append_assoc]
    rw [hlen, hsplit, List.take_left]

theorem Written.outputs {raw rest : Bytes} {t : ZcashTx} {l : CoinbaseLayout}
    (h : Written raw t rest l) (hfits : ∀ o ∈ t.outputs, txOut.Fits o) :
    outputsOf raw l = t.outputs := by
  unfold outputsOf
  rw [h.places]
  exact outputs_at hfits h.start

/-! ## The largest output -/

/-- The index and the value that `findBest` keeps. -/
def bestOf : List TxOut → Nat → Nat × Nat → Nat × Nat
  | [], _, found => found
  | o :: outs, i, (mi, best) =>
    bestOf outs (i + 1) (if best ≤ o.value then (i, o.value) else (mi, best))

/-- The last one of the largest value is kept, or what was there is larger than
all. -/
theorem bestOf_cases (outs : List TxOut) (i mi best : Nat) :
    (bestOf outs i (mi, best) = (mi, best) ∧ ∀ o ∈ outs, o.value < best) ∨
      ∃ before o after, outs = before ++ o :: after ∧
        bestOf outs i (mi, best) = (i + before.length, o.value) ∧ best ≤ o.value ∧
          ∀ x ∈ outs, x.value ≤ o.value := by
  induction outs generalizing i mi best with
  | nil => exact .inl ⟨rfl, fun o ho => by cases ho⟩
  | cons o outs ih =>
    unfold bestOf
    by_cases hle : best ≤ o.value
    · rw [if_pos hle]
      rcases ih (i + 1) i o.value with ⟨hkept, hall⟩ | ⟨before, x, after, rfl, hfound, hx, hall⟩
      · refine .inr ⟨[], o, outs, rfl, hkept, hle, fun x hx => ?_⟩
        rcases List.mem_cons.mp hx with rfl | hx
        · exact le_rfl
        · exact (hall x hx).le
      · refine .inr ⟨o :: before, x, after, rfl, ?_, hle.trans hx, fun y hy => ?_⟩
        · rw [hfound, List.length_cons]
          congr 1
          omega
        · rcases List.mem_cons.mp hy with rfl | hy
          · exact hx
          · exact hall y hy
    · rw [if_neg hle]
      rcases ih (i + 1) mi best with ⟨hkept, hall⟩ | ⟨before, x, after, rfl, hfound, hx, hall⟩
      · refine .inl ⟨hkept, fun x hx => ?_⟩
        rcases List.mem_cons.mp hx with rfl | hx
        · omega
        · exact hall x hx
      · refine .inr ⟨o :: before, x, after, rfl, ?_, hx, fun y hy => ?_⟩
        · rw [hfound, List.length_cons]
          congr 1
          omega
        · rcases List.mem_cons.mp hy with rfl | hy
          · omega
          · exact hall y hy

section Swap

variable {raw rest : Bytes} {p : Nat}

theorem valueAt_write {o : TxOut} (hfits : txOut.Fits o) (script length : Nat)
    (h : raw.drop p = txOut.write o ++ rest) :
    (valueAt raw ⟨p, script, length⟩).result = some o.value := by
  have htake := (output_parts h).1
  have hroom : p + 8 ≤ raw.length := by
    have hlen := congrArg List.length htake
    rw [List.length_take, List.length_drop, Wire.length_leBytes] at hlen
    omega
  have hplaces : ∀ b ∈ List.range 8, p + b < raw.length := by
    intro b hb
    have hlt := List.mem_range.mp hb
    omega
  have hbytes : (List.range 8).map (fun b => raw.getD (p + b) 0) = Wire.leBytes 8 o.value := by
    rw [← htake]
    refine List.ext_getElem (by simp; omega) fun i hi _ => ?_
    have hlt : p + i < raw.length := by
      rw [List.length_map, List.length_range] at hi
      omega
    rw [List.getElem_map, List.getElem_range, List.getElem_take, List.getElem_drop,
      List.getD_eq_getElem _ _ hlt]
  have hread := (mapM_reads (p + ·) (List.range 8) hplaces).result
  rw [hbytes] at hread
  unfold valueAt
  rw [bind_some hread]
  show some (Wire.leValue (Wire.leBytes 8 o.value)) = _
  rw [Wire.leValue_leBytes (fits_txOut.mp hfits).1]

theorem findBest_write {outs : List TxOut} (hfits : ∀ o ∈ outs, txOut.Fits o)
    (h : raw.drop p = outs.flatMap txOut.write ++ rest) (i : Nat) (found : Nat × Nat) :
    (findBest raw (places p outs) i found).result = some (bestOf outs i found) := by
  induction outs generalizing p i found with
  | nil => rfl
  | cons o outs ih =>
    rw [List.flatMap_cons, List.append_assoc] at h
    have hvalue := valueAt_write (hfits o List.mem_cons_self)
      (p + 8 + (Codec.compact.write o.script.length).length) o.script.length h
    have hnext := drop_after h
    obtain ⟨mi, best⟩ := found
    rw [places, findBest, bind_some hvalue]
    exact ih (fun x hx => hfits x (List.mem_cons_of_mem _ hx)) hnext _ _

/-! ## The outputs, written again -/

/-- What stands for the output that is redirected. -/
def paid (minerVal : Nat) (donation : Nat × Bool) (minerScript donationScript : Bytes) :
    List TxOut :=
  if donation.2 then [⟨minerVal - donation.1, minerScript⟩, ⟨donation.1, donationScript⟩]
  else [⟨minerVal - donation.1, minerScript⟩]

/-- The outputs, with others for the one of an index. -/
def replaced (mi : Nat) (others : List TxOut) : List TxOut → Nat → List TxOut
  | [], _ => []
  | o :: outs, i => (if i = mi then others else [o]) ++ replaced mi others outs (i + 1)

theorem replaced_past {mi i : Nat} (h : mi < i) (others outs : List TxOut) :
    replaced mi others outs i = outs := by
  induction outs generalizing i with
  | nil => rfl
  | cons o outs ih =>
    rw [replaced, if_neg (by omega), ih (by omega)]
    rfl

theorem replaced_at (others before after : List TxOut) (o : TxOut) (i : Nat) :
    replaced (i + before.length) others (before ++ o :: after) i = before ++ others ++ after := by
  induction before generalizing i with
  | nil =>
    rw [List.nil_append, replaced, List.length_nil, Nat.add_zero, if_pos rfl,
      replaced_past (by omega)]
    rfl
  | cons b before ih =>
    have hindex : i + (b :: before).length = i + 1 + before.length := by
      rw [List.length_cons]
      omega
    rw [List.cons_append, replaced, if_neg (by rw [List.length_cons]; omega), hindex, ih]
    rfl

theorem writeCompact_short {n : Nat} (h : n < 2 ^ 32) : writeCompact n = Codec.compact.write n := by
  show _ = Codec.writeCompact n
  unfold writeCompact Codec.writeCompact
  by_cases h₁ : n < 0xfd
  · rw [if_pos h₁, if_pos h₁, Wire.leBytes, Wire.leBytes, Nat.mod_eq_of_lt (by omega)]
  · rw [if_neg h₁, if_neg h₁]
    by_cases h₂ : n ≤ 0xffff
    · rw [if_pos h₂, if_pos (by omega)]
    · rw [if_neg h₂, if_neg (by omega), if_pos h]

theorem appendOutput_eq (outs : Bytes) (value : Nat) {script : Bytes}
    (h : script.length < 2 ^ 32) :
    appendOutput outs value script = outs ++ txOut.write ⟨value, script⟩ := by
  unfold appendOutput
  rw [writeCompact_short h, write_txOut]
  simp only [List.append_assoc]

theorem paid_write (minerVal : Nat) (donation : Nat × Bool) {minerScript donationScript : Bytes}
    (hminer : minerScript.length < 2 ^ 32) (hdonation : donationScript.length < 2 ^ 32)
    (newouts : Bytes) (count : Nat) :
    (if donation.2 then (appendOutput (appendOutput newouts (minerVal - donation.1) minerScript)
        donation.1 donationScript, count + 2)
      else (appendOutput newouts (minerVal - donation.1) minerScript, count + 1)) =
    (newouts ++ (paid minerVal donation minerScript donationScript).flatMap txOut.write,
      count + (paid minerVal donation minerScript donationScript).length) := by
  unfold paid
  split
  · rw [appendOutput_eq _ _ hminer, appendOutput_eq _ _ hdonation]
    simp
  · rw [appendOutput_eq _ _ hminer]
    simp

theorem rewrite_write {mi minerVal : Nat} {donation : Nat × Bool}
    {minerScript donationScript : Bytes} (hminer : minerScript.length < 2 ^ 32)
    (hdonation : donationScript.length < 2 ^ 32) {outs : List TxOut}
    (hshort : ∀ o ∈ outs, o.script.length < 2 ^ 32)
    (h : raw.drop p = outs.flatMap txOut.write ++ rest) (i : Nat) (newouts : Bytes) (count : Nat) :
    (rewrite raw mi minerVal donation minerScript donationScript (places p outs) i
      (newouts, count)).result =
      some (newouts ++ (replaced mi (paid minerVal donation minerScript donationScript)
          outs i).flatMap txOut.write,
        count + (replaced mi (paid minerVal donation minerScript donationScript)
          outs i).length) := by
  induction outs generalizing p i newouts count with
  | nil => simp [places, rewrite, replaced]
  | cons o outs ih =>
    rw [List.flatMap_cons, List.append_assoc] at h
    have hnext := drop_after h
    have hrest := ih (fun x hx => hshort x (List.mem_cons_of_mem _ hx)) hnext (i + 1)
    rw [places, rewrite, replaced]
    dsimp only
    by_cases hi : i = mi
    · rw [if_pos hi, if_pos hi]
      have hpaid := paid_write minerVal donation hminer hdonation newouts count
      split
      · rename_i hsplit
        rw [if_pos hsplit] at hpaid
        show (rewrite raw mi minerVal donation minerScript donationScript _ (i + 1) _).result = _
        rw [hpaid, hrest, List.flatMap_append, List.append_assoc, List.length_append, Nat.add_assoc]
      · rename_i hsplit
        rw [if_neg hsplit] at hpaid
        show (rewrite raw mi minerVal donation minerScript donationScript _ (i + 1) _).result = _
        rw [hpaid, hrest, List.flatMap_append, List.append_assoc, List.length_append, Nat.add_assoc]
    · rw [if_neg hi, if_neg hi]
      obtain ⟨hvalue, hscript⟩ := output_parts h
      have hcopy : (raw.take (p + 8)).drop p = Wire.leBytes 8 o.value := by
        rw [List.drop_take, Nat.add_sub_cancel_left, hvalue]
      have hcopy' : (raw.take (p + 8 + (Codec.compact.write o.script.length).length +
          o.script.length)).drop (p + 8 + (Codec.compact.write o.script.length).length) =
            o.script := by
        rw [List.drop_take, Nat.add_sub_cancel_left, hscript]
      have hbytes : newouts ++ (raw.take (p + 8)).drop p ++ writeCompact o.script.length ++
          (raw.take (p + 8 + (Codec.compact.write o.script.length).length +
            o.script.length)).drop (p + 8 + (Codec.compact.write o.script.length).length) =
          newouts ++ txOut.write o := by
        rw [hcopy, hcopy', writeCompact_short (hshort o List.mem_cons_self), write_txOut]
        simp only [List.append_assoc]
      show (rewrite raw mi minerVal donation minerScript donationScript _ (i + 1)
        (newouts ++ _ ++ _ ++ _, count + 1)).result = _
      rw [hbytes, hrest, List.flatMap_append, List.append_assoc, List.length_append, Nat.add_assoc,
        List.flatMap_singleton]
      rfl

/-! ## The payout -/

/-- The donation, when it splits the value. -/
def Splits (value : Nat) (donationScript : Bytes) (percent : ℚ) (donation : Nat) : Prop :=
  donationScript ≠ [] ∧ 0 < percent ∧
    donation = ⌊(value : ℚ) * percent / 100 + 1 / 2⌋.toNat ∧ 0 < donation ∧ donation < value

/-- One output of the largest value is replaced by one to the miner, which is
followed by the donation where that splits. -/
inductive Redirected (minerScript donationScript : Bytes) (percent : ℚ) :
    List TxOut → List TxOut → Prop where
  | whole (before : List TxOut) (o : TxOut) (after : List TxOut)
      (largest : ∀ x ∈ before ++ o :: after, x.value ≤ o.value)
      (unsplit : ¬ ∃ donation, Splits o.value donationScript percent donation) :
      Redirected minerScript donationScript percent (before ++ o :: after)
        (before ++ ⟨o.value, minerScript⟩ :: after)
  | split (before : List TxOut) (o : TxOut) (after : List TxOut) (donation : Nat)
      (largest : ∀ x ∈ before ++ o :: after, x.value ≤ o.value)
      (splits : Splits o.value donationScript percent donation) :
      Redirected minerScript donationScript percent (before ++ o :: after)
        (before ++ ⟨o.value - donation, minerScript⟩ :: ⟨donation, donationScript⟩ :: after)

/-- The value of all outputs. -/
def total (outs : List TxOut) : Nat := (outs.map TxOut.value).sum

theorem Redirected.total_eq {minerScript donationScript : Bytes} {percent : ℚ}
    {old new : List TxOut} (h : Redirected minerScript donationScript percent old new) :
    total new = total old := by
  cases h with
  | whole before o after => simp [total]
  | split before o after donation _ splits =>
    obtain ⟨_, _, _, _, hlt⟩ := splits
    simp only [total, List.map_append, List.map_cons, List.sum_append, List.sum_cons]
    omega

theorem donationVal_cases (value : Nat) (donationScript : Bytes) (percent : ℚ) :
    (donationVal value donationScript percent = (0, false) ∧
        ¬ ∃ donation, Splits value donationScript percent donation) ∨
      ∃ donation, donationVal value donationScript percent = (donation, true) ∧
        Splits value donationScript percent donation := by
  unfold donationVal
  by_cases hset : donationScript ≠ [] ∧ 0 < percent
  · rw [if_pos hset]
    dsimp only
    by_cases hnone : ⌊(value : ℚ) * percent / 100 + 1 / 2⌋.toNat = 0 ∨
        value ≤ ⌊(value : ℚ) * percent / 100 + 1 / 2⌋.toNat
    · rw [if_pos hnone]
      refine .inl ⟨rfl, ?_⟩
      rintro ⟨donation, _, _, rfl, hpos, hlt⟩
      omega
    · rw [if_neg hnone]
      exact .inr ⟨_, rfl, hset.1, hset.2, rfl, by omega, by omega⟩
  · rw [if_neg hset]
    exact .inl ⟨rfl, fun ⟨donation, hscript, hpercent, _⟩ => hset ⟨hscript, hpercent⟩⟩

/-- What `swap_miner_output` writes is the transaction with other outputs. -/
theorem swap_write {t : ZcashTx} (hfits : zcashTx.Fits t) {raw rest : Bytes}
    (hwrite : raw = zcashTx.write t ++ rest) (hraw : raw.length < 2 ^ 64)
    (hsome : t.outputs ≠ []) (hcount : t.outputs.length + 1 < 2 ^ 32)
    (hshort : ∀ o ∈ t.outputs, o.script.length < 2 ^ 32) {minerScript donationScript : Bytes}
    (hne : minerScript ≠ []) (hminer : minerScript.length < 2 ^ 32)
    (hdonation : donationScript.length < 2 ^ 32) (percent : ℚ) :
    ∃ new, Redirected minerScript donationScript percent t.outputs new ∧
      new.length ≤ t.outputs.length + 1 ∧
      (swapMinerOutput raw minerScript donationScript percent).result =
        some (zcashTx.write { t with outputs := new } ++ rest) := by
  obtain ⟨_, _, _, houts⟩ := fits_zcashTx.mp hfits
  obtain ⟨l, hparse, hl⟩ := parseLayout_write hfits hwrite hraw
  obtain ⟨before, o, after, hsplit, hbest, _, hlargest⟩ :
      ∃ before o after, t.outputs = before ++ o :: after ∧
        bestOf t.outputs 0 (0, 0) = (0 + before.length, o.value) ∧ 0 ≤ o.value ∧
          ∀ x ∈ t.outputs, x.value ≤ o.value := by
    rcases bestOf_cases t.outputs 0 0 0 with ⟨_, hall⟩ | h
    · obtain ⟨o, ho⟩ := List.exists_mem_of_ne_nil _ hsome
      exact absurd (hall o ho) (Nat.not_lt_zero _)
    · exact h
  have hpos : l.outputs ≠ [] := by
    rw [hl.places, hsplit]
    cases before <;> exact List.cons_ne_nil _ _
  have hfound : (findBest raw l.outputs 0 (0, 0)).result = some (before.length, o.value) := by
    rw [hl.places, findBest_write houts hl.start 0 (0, 0), hbest, Nat.zero_add]
  generalize hd : donationVal o.value donationScript percent = donation
  have hreplaced : replaced before.length (paid o.value donation minerScript donationScript)
      t.outputs 0 = before ++ paid o.value donation minerScript donationScript ++ after := by
    have hat := replaced_at (paid o.value donation minerScript donationScript) before after o 0
    rwa [Nat.zero_add, ← hsplit] at hat
  have hwritten : (rewrite raw before.length o.value donation minerScript donationScript l.outputs 0
      ([], 0)).result = some ((before ++ paid o.value donation minerScript donationScript ++
        after).flatMap txOut.write,
          (before ++ paid o.value donation minerScript donationScript ++ after).length) := by
    rw [hl.places, rewrite_write hminer hdonation hshort hl.start 0 [] 0, hreplaced,
      List.nil_append, Nat.zero_add]
  have hpaid : (paid o.value donation minerScript donationScript).length ≤ 2 := by
    unfold paid
    split <;> simp
  have hlen : (before ++ paid o.value donation minerScript donationScript ++ after).length ≤
      t.outputs.length + 1 := by
    rw [hsplit]
    simp only [List.length_append, List.length_cons]
    omega
  refine ⟨before ++ paid o.value donation minerScript donationScript ++ after, ?_, hlen, ?_⟩
  · rw [hsplit] at hlargest ⊢
    rcases donationVal_cases o.value donationScript percent with ⟨hval, hunsplit⟩ |
      ⟨amount, hval, hsplits⟩
    · obtain rfl : donation = (0, false) := hd.symm.trans hval
      have hone : before ++ paid o.value (0, false) minerScript donationScript ++ after =
          before ++ ⟨o.value, minerScript⟩ :: after := by simp [paid]
      rw [hone]
      exact .whole before o after hlargest hunsplit
    · obtain rfl : donation = (amount, true) := hd.symm.trans hval
      have htwo : before ++ paid o.value (amount, true) minerScript donationScript ++ after =
          before ++ ⟨o.value - amount, minerScript⟩ :: ⟨amount, donationScript⟩ :: after := by
        simp [paid]
      rw [htwo]
      exact .split before o after amount hlargest hsplits
  · unfold swapMinerOutput
    rw [bind_some hparse]
    dsimp only
    rw [if_neg (not_or.mpr ⟨hpos, hne⟩), bind_some hfound]
    dsimp only
    rw [hd, bind_some hwritten]
    show some ((raw.take l.voutCountPos).drop 0 ++ writeCompact _ ++ _ ++
      (raw.take raw.length).drop l.outputsEnd) = _
    rw [List.drop_zero, List.take_length, hl.front, hl.back, writeCompact_short (by omega),
      write_zcashTx]
    simp only [List.append_assoc]

theorem fits_of_redirected {minerScript donationScript : Bytes} {percent : ℚ}
    {old new : List TxOut} (h : Redirected minerScript donationScript percent old new)
    (hfits : ∀ o ∈ old, txOut.Fits o) (hminer : minerScript.length < 2 ^ 32)
    (hdonation : donationScript.length < 2 ^ 32) : ∀ o ∈ new, txOut.Fits o := by
  cases h with
  | whole before o after =>
    have ho := (fits_txOut.mp (hfits o (by simp))).1
    intro x hx
    rcases List.mem_append.mp hx with hx | hx
    · exact hfits x (List.mem_append_left _ hx)
    · rcases List.mem_cons.mp hx with rfl | hx
      · exact fits_txOut.mpr ⟨ho, by show minerScript.length < _; omega⟩
      · exact hfits x (List.mem_append_right _ (List.mem_cons_of_mem _ hx))
  | split before o after donation _ splits =>
    have ho := (fits_txOut.mp (hfits o (by simp))).1
    have hlt := splits.2.2.2.2
    intro x hx
    rcases List.mem_append.mp hx with hx | hx
    · exact hfits x (List.mem_append_left _ hx)
    · rcases List.mem_cons.mp hx with rfl | hx
      · exact fits_txOut.mpr ⟨by show o.value - donation < _; omega,
          by show minerScript.length < _; omega⟩
      · rcases List.mem_cons.mp hx with rfl | hx
        · exact fits_txOut.mpr ⟨by show donation < _; omega,
            by show donationScript.length < _; omega⟩
        · exact hfits x (List.mem_append_right _ (List.mem_cons_of_mem _ hx))

theorem length_compact (n : Nat) : (Codec.compact.write n).length ≤ 9 := by
  show (Codec.writeCompact n).length ≤ 9
  unfold Codec.writeCompact
  split <;> [skip; split <;> [skip; split]] <;> simp

/-- The outputs grow by two scripts at most. -/
theorem length_of_redirected {minerScript donationScript : Bytes} {percent : ℚ}
    {old new : List TxOut} (h : Redirected minerScript donationScript percent old new) :
    (new.flatMap txOut.write).length ≤ (old.flatMap txOut.write).length +
      (17 + minerScript.length) + (17 + donationScript.length) := by
  have hone (value : Nat) (script : Bytes) :
      (txOut.write ⟨value, script⟩).length ≤ 17 + script.length := by
    have hsize := length_compact script.length
    rw [length_write]
    show 8 + ((Codec.compact.write script.length).length + script.length) ≤ _
    omega
  cases h with
  | whole before o after =>
    have hminer := hone o.value minerScript
    simp only [List.flatMap_append, List.flatMap_cons, List.length_append]
    omega
  | split before o after donation =>
    have hminer := hone (o.value - donation) minerScript
    have hdonation := hone donation donationScript
    simp only [List.flatMap_append, List.flatMap_cons, List.length_append]
    omega

end Swap

/-- No inputs, and these outputs. -/
def sampleTx (outputs : List TxOut) : ZcashTx := ⟨List.replicate 20 0, [], outputs⟩

theorem fits_sampleTx {outputs : List TxOut} (hlen : outputs.length < 2 ^ 64)
    (h : ∀ o ∈ outputs, txOut.Fits o) : zcashTx.Fits (sampleTx outputs) :=
  fits_zcashTx.mpr ⟨List.length_replicate, ⟨Nat.two_pow_pos 64, fun i hi => (by cases hi)⟩, hlen, h⟩

end MkPool.ZcashPayout
