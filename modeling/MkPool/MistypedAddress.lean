import MkPool.SegwitAddress

/-! # A mistyped address

An address with one wrong character in its data part. The checksums are linear,
so the error stays in them whatever follows, and none turns the constant of
Bech32 into that of Bech32m. -/
namespace MkPool.MistypedAddress
open MkPool.Lib MkPool.Lib.Digits MkPool.Lib.Polymod MkPool.Utils MkPool.Address
open MkPool.AddressDecode MkPool.Spelling MkPool.Bech32 MkPool.SegwitAddress

/-- One character, from `start` on, is another one of the charset. -/
def Mistyped (start : Nat) (s s' : Str) : Prop :=
  ∃ a x c b, s = a ++ x :: b ∧ s' = a ++ c :: b ∧ start ≤ a.length ∧
    c.toLower ∈ bech32Charset ∧ c.toLower ≠ x.toLower

/-- Where the payload of a CashAddr text begins. -/
def payloadStart (s : Str) : Nat :=
  match s.idxOf? ':' with
  | some colon => colon + 1
  | none => 0

/-! ## The symbols -/

theorem charsetText_nats (vs : Bytes) :
    charsetText (nats vs) = vs.map fun v => bech32Charset.getD v.toNat ' ' := List.map_map

theorem values_injective {as bs : Bytes} (ha : Fives as) (hb : Fives bs)
    (h : charsetText (nats as) = charsetText (nats bs)) : as = bs := by
  have hread := charsetValues_iff.mpr ⟨hb, rfl⟩
  rw [← h, charsetValues_iff.mpr ⟨ha, rfl⟩] at hread
  exact Except.ok.inj hread

/-- Another character is another symbol, and the others are the same. -/
theorem changed {values values' : Bytes} (h : Fives values) (h' : Fives values') {m b : Str}
    {x c : Char} (hx : charsetText (nats values) = m ++ x :: b)
    (hc : charsetText (nats values') = m ++ c :: b) (hne : c ≠ x) :
    ∃ as v w bs, values = as ++ v :: bs ∧ values' = as ++ w :: bs ∧ v.toNat < 2 ^ 5 ∧
      w.toNat < 2 ^ 5 ∧ v ≠ w := by
  rw [charsetText_nats] at hx hc
  obtain ⟨as, tail, rfl, has, htail⟩ := List.map_eq_append_iff.mp hx
  obtain ⟨v, bs, rfl, hv, hbs⟩ := List.map_eq_cons_iff.mp htail
  obtain ⟨as', tail', rfl, has', htail'⟩ := List.map_eq_append_iff.mp hc
  obtain ⟨w, bs', rfl, hw, hbs'⟩ := List.map_eq_cons_iff.mp htail'
  have hfront : as' = as := by
    refine values_injective (fun u hu => h' u (by simp [hu])) (fun u hu => h u (by simp [hu])) ?_
    rw [charsetText_nats, charsetText_nats, has, has']
  have hback : bs' = bs := by
    refine values_injective (fun u hu => h' u (by simp [hu])) (fun u hu => h u (by simp [hu])) ?_
    rw [charsetText_nats, charsetText_nats, hbs, hbs']
  refine ⟨as, v, w, bs, rfl, by rw [hfront, hback], h v (by simp), h' w (by simp), ?_⟩
  rintro rfl
  exact hne (hw.symm.trans hv)

/-- A place behind the front is in the text after it. -/
theorem after_front {front a m b : Str} {x : Char} (h : a ++ x :: b = front ++ m)
    (hlen : front.length ≤ a.length) : ∃ m', a = front ++ m' ∧ m = m' ++ x :: b := by
  have hfront : a.take front.length = front := by
    have htake := congrArg (List.take front.length) h
    rwa [List.take_append_of_le_length hlen, List.take_left] at htake
  have ha : a = front ++ a.drop front.length := by
    conv_lhs => rw [← List.take_append_drop front.length a, hfront]
  refine ⟨a.drop front.length, ha, ?_⟩
  rw [ha, List.append_assoc] at h
  exact (List.append_cancel_left h).symm

/-! ## Bech32 -/

/-- The errors that would turn one constant into the other. -/
theorem shift_ne_constants : ∀ e < 2 ^ 5, ∀ n < 72,
    bech32Code.shift e n ≠ target .bech32 ^^^ target .bech32m := by
  decide +kernel

theorem lowerCase_changed (a : Str) (x : Char) (b : Str) :
    lowerCase (a ++ x :: b) = lowerCase a ++ x.toLower :: lowerCase b := List.map_append

theorem bech32_refused {hrp s s' : Str} {enc enc' : Encoding} {data data' : Bytes}
    (h : bech32Decode hrp s = .ok (enc, data)) (hshort : data.length ≤ 65)
    (hmis : Mistyped (hrp.length + 1) s s') : bech32Decode hrp s' ≠ .ok (enc', data') := by
  intro h'
  obtain ⟨a, x, c, b, rfl, rfl, hstart, _, hne⟩ := hmis
  obtain ⟨values, hreads, hlen, hchk, rfl⟩ := bech32Decode_iff.mp h
  obtain ⟨values', hreads', _, hchk', _⟩ := bech32Decode_iff.mp h'
  have hsplit (vs : Bytes) : hrp ++ '1' :: charsetText (nats vs) =
      (hrp ++ ['1']) ++ charsetText (nats vs) := by simp
  have hroom : (hrp ++ ['1']).length ≤ (lowerCase a).length := by
    rw [lowerCase, List.length_map, List.length_append]
    exact hstart
  have htext := hreads.text
  have htext' := hreads'.text
  rw [lowerCase_changed, hsplit] at htext htext'
  obtain ⟨m, hm, hx⟩ := after_front htext hroom
  obtain ⟨m', hm', hc⟩ := after_front htext' hroom
  obtain rfl : m' = m := List.append_cancel_left (hm'.symm.trans hm)
  obtain ⟨as, v, w, bs, rfl, rfl, hv, hw, hvw⟩ := changed hreads.fives hreads'.fives hx hc hne
  have hxor := bech32Code.run_changed 1 (nats (bech32HrpExpand hrp ++ as)) (nats bs) v.toNat w.toNat
  have hnats (u : UInt8) : nats (bech32HrpExpand hrp ++ as) ++ u.toNat :: nats bs =
      nats (bech32HrpExpand hrp ++ (as ++ u :: bs)) := by simp [nats]
  rw [hnats, hnats, ← toNat_bech32Polymod, ← toNat_bech32Polymod, hchk, hchk'] at hxor
  have hsize {u : UInt8} (hu : u.toNat < 2 ^ 5) : u.toNat < 2 ^ bech32Code.size :=
    Nat.lt_of_lt_of_le hu (by decide)
  by_cases hsame : enc = enc'
  · rw [hsame, Nat.xor_self] at hxor
    have hzero := bech32Code.shift_eq_zero (Nat.xor_lt_two_pow (hsize hv) (hsize hw)) hxor.symm
    exact hvw (UInt8.toNat_inj.mp (Nat.xor_eq_zero_iff.mp hzero))
  · have hn : (nats bs).length < 72 := by
      rw [List.length_take, List.length_append, List.length_cons] at hshort
      rw [nats, List.length_map]
      rw [List.length_append, List.length_cons] at hlen
      omega
    have hnever := shift_ne_constants _ (Nat.xor_lt_two_pow hv hw) _ hn
    cases enc <;> cases enc'
    · exact hsame rfl
    · exact hnever hxor.symm
    · exact hnever (hxor.symm.trans (Nat.xor_comm _ _))
    · exact hsame rfl

/-- A segwit text has few symbols. -/
theorem short_of_segwit {hrp s : Str} {info : SegwitInfo} (h : segwitDecode hrp s = .ok info) :
    ∃ data, bech32Decode hrp s = .ok (info.encoding, data) ∧ data.length ≤ 65 := by
  obtain ⟨version, rest, hdec, _, hprog, hsound⟩ := segwitDecode_parts.mp h
  obtain ⟨values, hreads, _, _, hdata⟩ := bech32Decode_iff.mp hdec
  have hrest : Fives rest := fun v hv =>
    hreads.fives v (List.mem_of_mem_take (hdata ▸ List.mem_cons_of_mem version hv))
  have hlen := congrArg List.length ((convertBits_iff hrest).mp hprog)
  have hprogram := hsound.length.2
  rw [length_repack, nats, List.length_map, nats, List.length_map] at hlen
  refine ⟨_, hdec, ?_⟩
  rw [List.length_cons]
  omega

/-! ## CashAddr -/

theorem payload_changed {a b : Str} {x c : Char} (hc : c.toLower ∈ bech32Charset)
    (h : payloadStart (a ++ x :: b) ≤ a.length) :
    ∃ front m, cashParts (a ++ x :: b) = (front, m ++ x :: b) ∧
      cashParts (a ++ c :: b) = (front, m ++ c :: b) := by
  have hsign : c ≠ ':' := by
    rintro rfl
    exact absurd hc (by decide)
  have hidx (t : Str) : (a ++ t).idxOf? ':' =
      (a.idxOf? ':').or ((t.idxOf? ':').map (· + a.length)) := List.findIdx?_append
  cases ha : a.idxOf? ':' with
  | some colon =>
    have hin : colon + 1 ≤ a.length := (List.idxOf?_eq_some_iff.mp ha).1
    have hparts (t : Str) : cashParts (a ++ t) = (a.take colon, a.drop (colon + 1) ++ t) := by
      unfold cashParts
      rw [hidx, ha]
      show ((a ++ t).take colon, (a ++ t).drop (colon + 1)) = _
      rw [List.take_append_of_le_length (by omega), List.drop_append_of_le_length hin]
    exact ⟨_, _, hparts _, hparts _⟩
  | none =>
    have hrest : b.idxOf? ':' = none ∧ x ≠ ':' := by
      unfold payloadStart at h
      rw [hidx, ha] at h
      cases ht : (x :: b).idxOf? ':' with
      | none =>
        have hno := List.idxOf?_eq_none_iff.mp ht
        rw [List.mem_cons, not_or] at hno
        exact ⟨List.idxOf?_eq_none_iff.mpr hno.2, fun he => hno.1 he.symm⟩
      | some k =>
        rw [ht] at h
        have hle : k + a.length + 1 ≤ a.length := h
        omega
    have hparts {y : Char} (hy : y ≠ ':') :
        cashParts (a ++ y :: b) = ("bitcoincash".toList, a ++ y :: b) := by
      have htail : (y :: b).idxOf? ':' = none := by
        rw [List.idxOf?_eq_none_iff, List.mem_cons, not_or]
        exact ⟨fun he => hy he.symm, List.idxOf?_eq_none_iff.mp hrest.1⟩
      unfold cashParts
      rw [hidx, ha, htail]
      rfl
    exact ⟨_, a, hparts hrest.2, hparts hsign⟩

theorem cash_refused {s s' : Str} {cad cad' : CashDecoded} (h : cashaddrDecode s = .ok cad)
    (hmis : Mistyped (payloadStart s) s s') : cashaddrDecode s' ≠ .ok cad' := by
  intro h'
  obtain ⟨a, x, c, b, rfl, rfl, hstart, hc, hne⟩ := hmis
  obtain ⟨values, _, hreads, _, hchk, _⟩ := cashaddrDecode_iff.mp h
  obtain ⟨values', _, hreads', _, hchk', _⟩ := cashaddrDecode_iff.mp h'
  obtain ⟨front, m, hparts, hparts'⟩ := payload_changed hc hstart
  have htext := hreads.text
  have htext' := hreads'.text
  rw [hparts, lowerCase_changed] at htext
  rw [hparts', lowerCase_changed] at htext'
  obtain ⟨as, v, w, bs, rfl, rfl, hv, hw, hvw⟩ :=
    changed hreads.fives hreads'.fives htext.symm htext'.symm hne
  rw [hparts] at hchk
  rw [hparts'] at hchk'
  have hrun {vs : Bytes} (h : cashaddrPolymod vs = 0) : cashCode.run 1 (nats vs) = 1 := by
    have hzero := congrArg UInt64.toNat h
    rw [toNat_cashaddrPolymod] at hzero
    exact Nat.xor_eq_zero_iff.mp hzero
  have hnats (u : UInt8) : nats (cashaddrExpandPrefix (lowerCase front) ++ (as ++ u :: bs)) =
      nats (cashaddrExpandPrefix (lowerCase front) ++ as) ++ u.toNat :: nats bs := by simp [nats]
  have hone := hrun hchk
  have hone' := hrun hchk'
  rw [hnats] at hone hone'
  have hsize {u : UInt8} (hu : u.toNat < 2 ^ 5) : u.toNat < 2 ^ cashCode.size :=
    Nat.lt_of_lt_of_le hu (by decide)
  exact cashCode.run_ne (hsize hv) (hsize hw) (fun he => hvw (UInt8.toNat_inj.mp he))
    (hone.trans hone'.symm)

/-- **A mistyped address is refused.** One character of the data part is another
one of the charset, in either case, and the decoder that accepted the address
refuses it. -/
theorem mistyped_refused :
    (∀ hrp s s' info, segwitDecode hrp s = .ok info → Mistyped (hrp.length + 1) s s' →
      ∃ e, segwitDecode hrp s' = .error e) ∧
    (∀ s s' cad, cashaddrDecode s = .ok cad → Mistyped (payloadStart s) s s' →
      ∃ e, cashaddrDecode s' = .error e) := by
  refine ⟨fun hrp s s' info h hmis => ?_, fun s s' cad h hmis => ?_⟩
  · obtain ⟨data, hdec, hshort⟩ := short_of_segwit h
    cases hres : segwitDecode hrp s' with
    | error e => exact ⟨e, rfl⟩
    | ok info' =>
      obtain ⟨data', hdec', _⟩ := short_of_segwit hres
      exact absurd hdec' (bech32_refused hdec hshort hmis)
  · cases hres : cashaddrDecode s' with
    | error e => exact ⟨e, rfl⟩
    | ok cad' => exact absurd hres (cash_refused h hmis)

/-- The first letter of an address is typed as the one beside it. -/
theorem mistyped_refused_sample : ∃ info e, segwitDecode "bc".toList sampleAddress = .ok info ∧
    segwitDecode "bc".toList "bc1pw508d6qejxtdg4y5r3zarvary0c5xw7kv8f3t4".toList = .error e := by
  have h : (match segwitDecode "bc".toList sampleAddress with
      | .ok _ => true
      | .error _ => false) = true := by
    decide +kernel
  split at h
  · rename_i info hinfo
    have hmis : Mistyped ("bc".toList.length + 1) sampleAddress
        "bc1pw508d6qejxtdg4y5r3zarvary0c5xw7kv8f3t4".toList :=
      ⟨"bc1".toList, 'q', 'p', "w508d6qejxtdg4y5r3zarvary0c5xw7kv8f3t4".toList, by decide +kernel,
        by decide +kernel, by decide, by decide, by decide⟩
    obtain ⟨e, he⟩ := mistyped_refused.1 _ _ _ info hinfo hmis
    exact ⟨info, e, hinfo, he⟩
  · cases h

end MkPool.MistypedAddress
