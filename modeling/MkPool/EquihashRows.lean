import Mathlib.Data.List.GetD
import MkPool.Equihash
import MkPool.Lib.Digits

/-! # What the verifier unpacks

`ExpandArray` writes the digits of its input, each in as many bytes as it needs,
and all its accesses are inside. From it come the indices of a solution and the
first rows. -/
namespace MkPool.Equihash
open MkPool.Lib MkPool.Lib.Digits MkPool.Utils

/-! ## Big-endian bytes -/

/-- A number in `w` bytes. -/
def be (w v : Nat) : Bytes := (Wire.leBytes w v).reverse

@[simp] theorem length_be (w v : Nat) : (be w v).length = w := by
  rw [be, List.length_reverse, Wire.length_leBytes]

theorem beValue_be {w v : Nat} (h : v < 256 ^ w) : beValue (be w v) = v := by
  rw [beValue_eq, be, List.reverse_reverse, Wire.leValue_leBytes h]

theorem be_beValue (bs : Bytes) : be bs.length (beValue bs) = bs := by
  rw [be, leBytes_beValue rfl, List.reverse_reverse]

theorem be_inj {w v v' : Nat} (h : v < 256 ^ w) (h' : v' < 256 ^ w) :
    be w v = be w v' ↔ v = v' := by
  constructor
  · intro heq
    rw [← beValue_be h, heq, beValue_be h']
  · intro heq
    rw [heq]

theorem be_eq_digits (w v : Nat) : be w v = (digits 256 w v).map UInt8.ofNat := by
  induction w generalizing v with
  | zero => rfl
  | succ w ih =>
    rw [digits, List.map_append, ← ih]
    simp [be, Wire.leBytes]

theorem be_eq_map (w v : Nat) :
    be w v = (List.range' 0 w).map fun x => UInt8.ofNat (v / 256 ^ (w - 1 - x) % 256) := by
  rw [be_eq_digits, digits_eq_map, List.map_map]
  rfl

theorem value_bytes (bs : Bytes) : value (2 ^ 8) (bs.map UInt8.toNat) = beValue bs := by
  unfold value beValue
  rw [List.foldl_map]
  congr 1
  funext acc b
  omega

theorem beValue_append (as bs : Bytes) :
    beValue (as ++ bs) = beValue as * 256 ^ bs.length + beValue bs := by
  rw [← value_bytes, List.map_append, value_append, List.length_map, value_bytes, value_bytes]
  rfl

/-! ## One byte of the input -/

/-- The byte that is cut out of the accumulator. -/
theorem cut_eq (acc bits bitLen k : Nat) :
    (acc >>> (bits + 8 * k)) &&& (((1 <<< bitLen - 1) >>> (8 * k)) &&& 0xff) =
      acc / 2 ^ bits % 2 ^ bitLen / 256 ^ k % 256 := by
  have hpow : 256 ^ k = 2 ^ (8 * k) := (pow_mul 2 8 k).symm
  rw [hpow, Nat.one_shiftLeft]
  show _ &&& (_ &&& (2 ^ 8 - 1)) = _ % 2 ^ 8
  refine Nat.eq_of_testBit_eq fun i => ?_
  simp only [Nat.testBit_and, Nat.testBit_shiftRight, Nat.testBit_two_pow_sub_one,
    Nat.testBit_mod_two_pow, Nat.testBit_div_two_pow]
  have hplace : bits + 8 * k + i = i + 8 * k + bits := by omega
  have hmask : 8 * k + i = i + 8 * k := by omega
  rw [hplace, hmask]
  cases decide (i < 8) <;> cases decide (i + 8 * k < bitLen) <;> simp

/-- Of the value, the accumulator has the bits that are cut out. -/
theorem cut_of_wrapped {v k bitLen : Nat} (h : k + bitLen ≤ 32) :
    v % 2 ^ 32 / 2 ^ k % 2 ^ bitLen = v % 2 ^ (k + bitLen) / 2 ^ k := by
  have hdvd : 2 ^ (k + bitLen) ∣ 2 ^ 32 := pow_dvd_pow 2 h
  rw [← Nat.mod_mul_right_div_self, ← pow_add, Nat.mod_mod_of_dvd _ hdvd]

/-- What the loop has done with the first `i` bytes. -/
structure Expanded {n : Nat} (inp : Bytes) (bitLen outWidth : Nat) (s : Expanding n) (i : Nat)
    (written : List Nat) : Prop where
  stream : ∃ rest, Stream 8 bitLen ((inp.take i).map UInt8.toNat) written s.accBits rest
  value : s.accValue = beValue (inp.take i) % 2 ^ 32
  bits : s.accBits < bitLen
  j : s.j = outWidth * written.length
  out : s.out.Holds (written.flatMap (be outWidth))

section Expand

variable {n : Nat} {inp : Bytes} {bitLen bytePad : Nat}

/-- The zero bytes and the bytes of a digit. -/
theorem padded_digit {outWidth d : Nat} (hpad : bytePad ≤ outWidth)
    (hd : d < 256 ^ (outWidth - bytePad)) :
    (List.range' 0 bytePad).map (fun _ => (0 : UInt8)) ++
      (List.range' bytePad (outWidth - bytePad)).map
        (fun x => UInt8.ofNat (d / 256 ^ (outWidth - x - 1) % 256)) = be outWidth d := by
  have hrange : List.range' 0 outWidth =
      List.range' 0 bytePad ++ List.range' bytePad (outWidth - bytePad) := by
    have happ : List.range' 0 bytePad ++ List.range' (0 + bytePad) (outWidth - bytePad) =
        List.range' 0 (bytePad + (outWidth - bytePad)) := List.range'_append_1
    have hsum : bytePad + (outWidth - bytePad) = outWidth := by omega
    rw [Nat.zero_add, hsum] at happ
    exact happ.symm
  rw [be_eq_map, hrange, List.map_append]
  congr 1
  · refine List.map_congr_left fun x hx => ?_
    have hlt : x < bytePad := by simpa using hx
    have hzero : d / 256 ^ (outWidth - 1 - x) = 0 := by
      refine Nat.div_eq_of_lt (hd.trans_le (Nat.pow_le_pow_right (by omega) ?_))
      omega
    rw [hzero]
    rfl
  · refine List.map_congr_left fun x _ => ?_
    rw [Nat.sub_right_comm]

/-- The two loops that write a digit. -/
theorem digit_written {outWidth acc bits d j : Nat} {front : Bytes} {out : Buffer UInt8 n}
    (h : out.Holds front) (hj : front.length = j) (hroom : j + outWidth ≤ n)
    (hpad : bytePad ≤ outWidth) (hcut : acc / 2 ^ bits % 2 ^ bitLen = d)
    (hd : d < 256 ^ (outWidth - bytePad)) :
    ∃ out₁ out₂, (List.range' 0 bytePad).foldlM (fun out x => out.write (j + x) 0) out = some out₁ ∧
      (List.range' bytePad (outWidth - bytePad)).foldlM (fun out x => out.write (j + x)
        (UInt8.ofNat ((acc >>> (bits + 8 * (outWidth - x - 1))) &&&
          (((1 <<< bitLen - 1) >>> (8 * (outWidth - x - 1))) &&& 0xff)))) out₁ = some out₂ ∧
      out₂.Holds (front ++ be outWidth d) := by
  obtain ⟨out₁, hfirst, hout₁⟩ := h.writes (F := fun out x => out.write (j + x) 0)
    (f := fun _ => 0) (s := 0) (k := bytePad) (by omega) fun out x _ _ => by rw [hj, Nat.sub_zero]
  have hlen : (front ++ (List.range' 0 bytePad).map fun _ => (0 : UInt8)).length =
      j + bytePad := by
    rw [List.length_append, hj, List.length_map, List.length_range']
  obtain ⟨out₂, hsecond, hout₂⟩ := hout₁.writes
    (F := fun out x => out.write (j + x) (UInt8.ofNat ((acc >>> (bits + 8 * (outWidth - x - 1))) &&&
      (((1 <<< bitLen - 1) >>> (8 * (outWidth - x - 1))) &&& 0xff))))
    (f := fun x => UInt8.ofNat (d / 256 ^ (outWidth - x - 1) % 256)) (s := bytePad)
    (k := outWidth - bytePad) (by omega) fun out x hle _ => by
      rw [cut_eq, hcut, hlen]
      congr 1
      omega
  rw [List.append_assoc, padded_digit hpad hd] at hout₂
  exact ⟨out₁, out₂, hfirst, hsecond, hout₂⟩

/-- A byte is read, and a digit is written when there are bits for it. -/
theorem expandByte_expanded {outWidth i : Nat} {s : Expanding n} {written : List Nat}
    (hlow : 8 ≤ bitLen) (hbig : bitLen ≤ 25) (hwidth : outWidth = (bitLen + 7) / 8 + bytePad)
    (hi : i < inp.length) (hroom : outWidth * (8 * (i + 1) / bitLen) ≤ n)
    (h : Expanded inp bitLen outWidth s i written) :
    ∃ s' written', expandByte inp bitLen bytePad outWidth s i = some s' ∧
      Expanded inp bitLen outWidth s' (i + 1) written' := by
  obtain ⟨rest, hstream⟩ := h.stream
  have hbits := h.bits
  have htake : inp.take (i + 1) = inp.take i ++ [inp[i]] := (List.take_append_getElem hi).symm
  have hread : inp[i]? = some inp[i] := List.getElem?_eq_getElem hi
  generalize inp[i] = b at htake hread
  have hbyte : b.toNat < 2 ^ 8 := b.toNat_lt
  have hfed := hstream.feed hbyte
  have hmap : (inp.take (i + 1)).map UInt8.toNat = (inp.take i).map UInt8.toNat ++ [b.toNat] := by
    rw [htake, List.map_append, List.map_singleton]
  rw [← hmap] at hfed
  have hvalue : (s.accValue <<< 8 ||| b.toNat) % 2 ^ 32 = beValue (inp.take (i + 1)) % 2 ^ 32 := by
    rw [htake, beValue_append, ← Nat.shiftLeft_add_eq_or_of_lt hbyte, Nat.shiftLeft_eq, h.value]
    show _ = (beValue (inp.take i) * 256 ^ 1 + beValue [b]) % 2 ^ 32
    have hone : beValue [b] = b.toNat := by simp [beValue]
    rw [hone, pow_one]
    omega
  have hrest := hfed.rest_eq
  rw [value_bytes] at hrest
  unfold expandByte
  rw [hread]
  dsimp only [Option.bind_eq_bind, Option.bind_some]
  rw [hvalue]
  by_cases hfull : bitLen ≤ s.accBits + 8
  · rw [if_pos hfull]
    have hemit := hfed.emit hfull
    have hlength := hemit.length
    have hdigit := hemit.small
    generalize hd : (rest * 2 ^ 8 + b.toNat) / 2 ^ (s.accBits + 8 - bitLen) = d at hemit hdigit
    have hcut : beValue (inp.take (i + 1)) % 2 ^ 32 / 2 ^ (s.accBits + 8 - bitLen) % 2 ^ bitLen =
        d := by
      have hsum : s.accBits + 8 - bitLen + bitLen = s.accBits + 8 := by omega
      rw [cut_of_wrapped (by omega), hsum, ← hrest, hd]
    have hdlt : d < 256 ^ (outWidth - bytePad) := by
      have hbytes : 256 ^ (outWidth - bytePad) = 2 ^ (8 * (outWidth - bytePad)) :=
        (pow_mul 2 8 _).symm
      rw [hbytes]
      exact (hdigit d (by simp)).trans_le (Nat.pow_le_pow_right (by omega) (by omega))
    have hcount : written.length + 1 ≤ 8 * (i + 1) / bitLen := by
      rw [List.length_append, List.length_singleton, List.length_map, List.length_take,
        Nat.min_eq_left hi] at hlength
      rw [Nat.le_div_iff_mul_le (by omega)]
      omega
    have hfit : s.j + outWidth ≤ n := by
      have hmul := Nat.mul_le_mul_left outWidth hcount
      rw [Nat.mul_succ, ← h.j] at hmul
      omega
    have hfront : (written.flatMap (be outWidth)).length = s.j := by
      rw [Buffer.length_records (length_be outWidth), h.j]
    obtain ⟨out₁, out₂, hfirst, hsecond, hout⟩ :=
      digit_written h.out hfront hfit (by omega) hcut hdlt
    refine ⟨⟨s.accBits + 8 - bitLen, beValue (inp.take (i + 1)) % 2 ^ 32, s.j + outWidth, out₂⟩,
      written ++ [d], ?_, ⟨⟨_, hemit⟩, rfl, ?_, ?_, ?_⟩⟩
    · rw [hfirst]
      dsimp only [Option.bind_some]
      rw [hsecond]
      rfl
    · show s.accBits + 8 - bitLen < bitLen
      omega
    · show s.j + outWidth = _
      rw [h.j, List.length_append, List.length_singleton, Nat.mul_succ]
    · rw [List.flatMap_append, List.flatMap_singleton]
      exact hout
  · rw [if_neg hfull]
    exact ⟨_, written, rfl, ⟨⟨_, hfed⟩, rfl, Nat.lt_of_not_le hfull, h.j, h.out⟩⟩

/-- All the bytes from `i` on. -/
theorem expandBytes_expanded {outWidth i k : Nat} {s : Expanding n} {written : List Nat}
    (hlow : 8 ≤ bitLen) (hbig : bitLen ≤ 25) (hwidth : outWidth = (bitLen + 7) / 8 + bytePad)
    (hi : i + k ≤ inp.length) (hroom : outWidth * (8 * (i + k) / bitLen) ≤ n)
    (h : Expanded inp bitLen outWidth s i written) :
    ∃ s' written', (List.range' i k).foldlM (expandByte inp bitLen bytePad outWidth) s = some s' ∧
      Expanded inp bitLen outWidth s' (i + k) written' := by
  induction k generalizing i s written with
  | zero => exact ⟨s, written, rfl, h⟩
  | succ k ih =>
    have hless : outWidth * (8 * (i + 1) / bitLen) ≤ n :=
      (Nat.mul_le_mul_left _ (Nat.div_le_div_right (by omega))).trans hroom
    obtain ⟨s₁, written₁, hstep, h₁⟩ :=
      expandByte_expanded hlow hbig hwidth (by omega) hless h
    have hsum : i + 1 + k = i + (k + 1) := by omega
    obtain ⟨s₂, written₂, hrest, h₂⟩ := ih (by omega) (by rwa [hsum]) h₁
    refine ⟨s₂, written₂, ?_, by rwa [hsum] at h₂⟩
    rw [List.range'_succ, List.foldlM_cons, hstep]
    exact hrest

/-- **`ExpandArray` stays inside and writes the digits.** The digits are those
of the input, and less than one digit of bits is left of it. -/
theorem expandArray_digits (inp : Bytes) (bitLen bytePad : Nat) {inLen outLen : Nat}
    (out : Buffer UInt8 n) (hlow : 8 ≤ bitLen) (hbig : bitLen ≤ 25) (hin : inLen ≤ inp.length)
    (hlen : outLen = 8 * ((bitLen + 7) / 8 + bytePad) * inLen / bitLen) (hout : outLen ≤ n) :
    ∃ out' written bits rest, expandArray inp inLen out outLen bitLen bytePad = some out' ∧
      out'.Holds (written.flatMap (be ((bitLen + 7) / 8 + bytePad))) ∧ bits < bitLen ∧
      Stream 8 bitLen ((inp.take inLen).map UInt8.toNat) written bits rest := by
  have hstart : Expanded inp bitLen ((bitLen + 7) / 8 + bytePad) ⟨0, 0, 0, out⟩ 0 [] :=
    ⟨⟨0, Stream.start 8 bitLen⟩, rfl, Nat.lt_of_lt_of_le (Nat.zero_lt_succ 7) hlow, rfl,
      Buffer.holds_nil out⟩
  have hroom : ((bitLen + 7) / 8 + bytePad) * (8 * (0 + inLen) / bitLen) ≤ n := by
    refine (Nat.mul_div_le_mul_div_assoc _ _ _).trans ?_
    have hcomm : ((bitLen + 7) / 8 + bytePad) * (8 * (0 + inLen)) =
        8 * ((bitLen + 7) / 8 + bytePad) * inLen := by
      rw [Nat.zero_add, ← Nat.mul_assoc, Nat.mul_comm _ 8]
    rw [hcomm, ← hlen]
    exact hout
  obtain ⟨s, written, hrun, h⟩ :=
    expandBytes_expanded hlow hbig rfl (by omega) hroom hstart
  obtain ⟨rest, hstream⟩ := h.stream
  rw [Nat.zero_add] at hstream
  refine ⟨s.out, written, s.accBits, rest, ?_, h.out, h.bits, hstream⟩
  unfold expandArray
  dsimp only
  rw [if_neg (by omega), hrun]
  rfl

end Expand

/-! ## The indices of a solution -/

/-- The 512 big-endian numbers of 21 bits in 1344 bytes. -/
def indicesOf (soln : Bytes) : List Nat := digits (2 ^ 21) 512 (beValue soln)

theorem lt_of_mem_indices {soln : Bytes} {i : Nat} (h : i ∈ indicesOf soln) : i < 2 ^ 21 :=
  lt_of_mem_digits (Nat.two_pow_pos 21) h

theorem getIndices_eq {soln : Bytes} (hlen : soln.length = 1344) :
    getIndicesFromMinimal soln 20 = some (indicesOf soln) := by
  have hsize : 8 * 4 * soln.length / (20 + 1) = 8 * ((21 + 7) / 8 + 1) * soln.length / 21 := rfl
  obtain ⟨array, written, bits, rest, hexpand, hholds, hbits, hstream⟩ :=
    expandArray_digits soln 21 1 (Buffer.fill (8 * 4 * soln.length / (20 + 1)) 0) (by omega)
      (by omega) le_rfl hsize le_rfl
  rw [List.take_length] at hstream
  have hwritten : written = indicesOf soln := by
    rw [hstream.eq_digits (k := 512) hbits (by rw [List.length_map, hlen]), value_bytes, indicesOf]
  have hcount : (8 * 4 * soln.length / (20 + 1) + 3) / 4 = written.length := by
    rw [hwritten, indicesOf, length_digits, hlen]
  have hrow : array.Holds ([] ++ (written.flatMap (be 4) ++ [])) := by simpa using hholds
  have hrecords : ∀ i x, written[i]? = some x →
      (array.slice (0 + 4 * (0 + i)) 4 >>= fun bei => some (beValue bei)) = some x := by
    intro i x hi
    have hx : x < 2 ^ 21 := lt_of_mem_indices (hwritten ▸ List.mem_of_getElem? hi)
    have hslice := hrow.record (length_be 4) hi
    rw [Nat.zero_add i]
    rw [List.length_nil] at hslice
    rw [hslice]
    show some (beValue (be 4 x)) = some x
    rw [beValue_be (by omega)]
  have hall := Buffer.mapM_records (F := fun i => array.slice (0 + 4 * i) 4 >>= fun bei =>
    some (beValue bei)) (g := id) (s := 0) hrecords
  rw [List.map_id, hwritten] at hall
  unfold getIndicesFromMinimal
  dsimp only
  rw [hexpand]
  dsimp only [Option.bind_eq_bind, Option.bind_some]
  rw [hcount, hwritten]
  exact hall

/-- **Unpacking is a bijection** between 1344 bytes and 512 numbers of 21 bits. -/
theorem indicesOf_bijOn : Set.BijOn indicesOf {soln | soln.length = 1344}
    {is | is.length = 512 ∧ ∀ i ∈ is, i < 2 ^ 21} := by
  have hspan : (2 ^ 21) ^ 512 = 256 ^ 1344 := by
    have hbyte : 256 = 2 ^ 8 := rfl
    rw [hbyte, ← pow_mul, ← pow_mul]
  refine ⟨fun soln _ => ⟨length_digits _ _ _, fun i hi => lt_of_mem_indices hi⟩, ?_, ?_⟩
  · intro a (ha : a.length = 1344) b (hb : b.length = 1344) heq
    have hvalue := congrArg (value (2 ^ 21)) heq
    have ha' := beValue_lt a
    have hb' := beValue_lt b
    rw [ha] at ha'
    rw [hb] at hb'
    rw [indicesOf, indicesOf, value_digits, value_digits, hspan, Nat.mod_eq_of_lt ha',
      Nat.mod_eq_of_lt hb'] at hvalue
    rw [← be_beValue a, ← be_beValue b, ha, hb, hvalue]
  · rintro is ⟨hlen, hsmall⟩
    have hlt := value_lt hsmall
    rw [hlen, hspan] at hlt
    refine ⟨be 1344 (value (2 ^ 21) is), length_be _ _, ?_⟩
    rw [indicesOf, beValue_be hlt, ← hlen, digits_value hsmall]

/-! ## What a row stands for -/

/-- The 200 bits of an index. -/
def hashOf (blake : Blake2b50) (header : Bytes) (idx : Nat) : Nat :=
  beValue (((blake personalization (header ++ Wire.leBytes 4 (idx / 2))).bytes.drop
    (idx % 2 * 25)).take 25)

/-- The exclusive or of the hashes of some indices. -/
def xorAll (H : Nat → Nat) (is : List Nat) : Nat := is.foldr (fun i acc => H i ^^^ acc) 0

/-- Twenty of 200 bits, from the first ones on. -/
def chunk (c x : Nat) : Nat := x / (2 ^ 20) ^ (9 - c) % 2 ^ 20

/-- The bits of a row from a chunk on, each chunk in three bytes. -/
def hashBytes (x r : Nat) : Bytes := (List.range' r (10 - r)).flatMap fun c => be 3 (chunk c x)

/-- The bytes of a row after `r` rounds. -/
def rowBytes (H : Nat → Nat) (r : Nat) (is : List Nat) : Bytes :=
  hashBytes (xorAll H is) r ++ is.flatMap (be 4)

theorem chunk_lt (c x : Nat) : chunk c x < 256 ^ 3 :=
  (Nat.mod_lt _ (Nat.two_pow_pos 20)).trans (by norm_num)

theorem chunk_xor (c x y : Nat) : chunk c (x ^^^ y) = chunk c x ^^^ chunk c y := by
  unfold chunk
  rw [← pow_mul, Nat.xor_div_two_pow, Nat.xor_mod_two_pow]

theorem xorAll_append (H : Nat → Nat) (as bs : List Nat) :
    xorAll H (as ++ bs) = xorAll H as ^^^ xorAll H bs := by
  induction as with
  | nil => simp [xorAll]
  | cons a as ih =>
    simp only [xorAll, List.cons_append, List.foldr_cons] at ih ⊢
    rw [ih, Nat.xor_assoc]

theorem length_hashBytes (x r : Nat) : (hashBytes x r).length = 30 - 3 * r := by
  unfold hashBytes
  rw [Buffer.length_records fun c => length_be 3 _, List.length_range']
  omega

theorem hashBytes_succ {x r : Nat} (hr : r < 10) :
    hashBytes x r = be 3 (chunk r x) ++ hashBytes x (r + 1) := by
  have hcount : 10 - r = 10 - (r + 1) + 1 := by omega
  unfold hashBytes
  rw [hcount, List.range'_succ, List.flatMap_cons]

/-- The first row of an index. -/
theorem initialRow_holds (blake : Blake2b50) (header : Bytes) (idx : Nat) :
    ∃ row, initialRow blake header idx = some row ∧
      row.Holds (rowBytes (hashOf blake header) 0 [idx]) := by
  unfold initialRow
  generalize hinp : (blake personalization (header ++ Wire.leBytes 4 (idx / 2))).bytes.drop
    (idx % 2 * 25) = inp
  have hhash : hashOf blake header idx = beValue (inp.take 25) := by rw [hashOf, hinp]
  have hroom : 25 ≤ inp.length := by
    have hsize := (blake personalization (header ++ Wire.leBytes 4 (idx / 2))).size
    rw [← hinp, List.length_drop, hsize]
    omega
  have hsize : 30 = 8 * ((20 + 7) / 8 + 0) * 25 / 20 := rfl
  obtain ⟨out, written, bits, rest, hexpand, hholds, hbits, hstream⟩ :=
    expandArray_digits inp 20 0 StepRow.zeros (by omega) (by omega) hroom hsize (by omega)
  have hlen : ((inp.take 25).map UInt8.toNat).length * 8 = 10 * 20 := by
    rw [List.length_map, List.length_take, Nat.min_eq_left hroom]
  have hwritten : written.flatMap (be 3) = hashBytes (hashOf blake header idx) 0 := by
    rw [hstream.eq_digits hbits hlen, value_bytes, digits_eq_map, List.flatMap_map, hhash]
    rfl
  have hfront : out.Holds (hashBytes (hashOf blake header idx) 0) := hwritten ▸ hholds
  have hpos : (hashBytes (hashOf blake header idx) 0).length = 30 := length_hashBytes _ 0
  obtain ⟨row, hstore, hrow⟩ := hfront.store (be 4 idx) (by rw [hpos, length_be]; omega)
  rw [hpos] at hstore
  refine ⟨row, ?_, ?_⟩
  · dsimp only
    rw [hinp]
    unfold StepRow.init
    rw [hexpand]
    exact hstore
  · simpa [rowBytes, xorAll] using hrow

/-! ## Two rows -/

/-- What a round asks of two rows. -/
def Meets (H : Nat → Nat) (r : Nat) (as bs : List Nat) : Prop :=
  chunk r (xorAll H as) = chunk r (xorAll H bs) ∧ as.headD 0 < bs.headD 0 ∧ as.Disjoint bs

section Pair

variable {H : Nat → Nat} {r : Nat} {as bs : List Nat} {a b : StepRow}

theorem slice_hash (hr : r < 10) (ha : a.Holds (rowBytes H r as)) :
    a.slice 0 3 = some (be 3 (chunk r (xorAll H as))) := by
  rw [rowBytes, hashBytes_succ hr, List.append_assoc, ← List.nil_append (be 3 _ ++ _)] at ha
  have hslice := ha.slice
  rwa [length_be] at hslice

theorem slice_indices (ha : a.Holds (rowBytes H r as)) :
    a.slice (30 - 3 * r) (4 * as.length) = some (as.flatMap (be 4)) := by
  rw [rowBytes, ← List.append_nil (as.flatMap (be 4))] at ha
  have hslice := ha.slice
  rwa [length_hashBytes, Buffer.length_records (length_be 4)] at hslice

theorem slice_index (ha : a.Holds (rowBytes H r as)) {i x : Nat} (hi : as[i]? = some x) :
    a.slice (30 - 3 * r + 4 * i) 4 = some (be 4 x) := by
  rw [rowBytes, ← List.append_nil (as.flatMap (be 4))] at ha
  have hslice := ha.record (length_be 4) hi
  rwa [length_hashBytes] at hslice

/-- The duplicates that are searched. -/
theorem distinctIndices_eq (ha : a.Holds (rowBytes H r as)) (hb : b.Holds (rowBytes H r bs))
    (hlen : as.length = bs.length) : distinctIndices a b (30 - 3 * r) (4 * as.length) =
      some (as.all fun x => bs.all fun y => be 4 x != be 4 y) := by
  have hcount : (4 * as.length + 3) / 4 = as.length := by omega
  unfold distinctIndices
  rw [hcount]
  refine Buffer.allM_records fun i x hi => ?_
  rw [hlen]
  refine Buffer.allM_records fun j y hj => ?_
  rw [Nat.zero_add, Nat.zero_add, slice_index ha hi, slice_index hb hj]
  rfl

theorem distinct_iff (ha : ∀ x ∈ as, x < 2 ^ 21) (hb : ∀ y ∈ bs, y < 2 ^ 21) :
    (as.all fun x => bs.all fun y => be 4 x != be 4 y) = true ↔ as.Disjoint bs := by
  rw [List.all_eq_true]
  constructor
  · intro h x hx hy
    simpa using List.all_eq_true.mp (h x hx) x hy
  · intro h x hx
    rw [List.all_eq_true]
    intro y hy
    rw [bne_iff_ne, Ne, be_inj ((ha x hx).trans (by norm_num)) ((hb y hy).trans (by norm_num))]
    rintro rfl
    exact h hx hy

/-- Of indices that differ, the first ones are compared. -/
theorem order_iff (hlen : as.length = bs.length) (hne : as ≠ []) (ha : ∀ x ∈ as, x < 2 ^ 21)
    (hb : ∀ y ∈ bs, y < 2 ^ 21) (hdisjoint : as.Disjoint bs) :
    byteLe (as.flatMap (be 4)) (bs.flatMap (be 4)) = true ↔ as.headD 0 < bs.headD 0 := by
  obtain ⟨x, as, rfl⟩ := List.exists_cons_of_ne_nil hne
  obtain ⟨y, bs, rfl⟩ := List.exists_cons_of_length_eq_add_one hlen.symm
  have hrest : as.length = bs.length := by simpa using hlen
  have hx : x < 256 ^ 4 := (ha x (by simp)).trans (by norm_num)
  have hy : y < 256 ^ 4 := (hb y (by simp)).trans (by norm_num)
  have hxy : x ≠ y := fun h => hdisjoint List.mem_cons_self (h ▸ List.mem_cons_self)
  have hbytes : (as.flatMap (be 4)).length = (bs.flatMap (be 4)).length := by
    rw [Buffer.length_records (length_be 4), Buffer.length_records (length_be 4), hrest]
  have hlow := beValue_lt (as.flatMap (be 4))
  have hhigh := beValue_lt (bs.flatMap (be 4))
  rw [List.flatMap_cons, List.flatMap_cons, byteLe_iff (by simp [hbytes]), beValue_append,
    beValue_append, beValue_be hx, beValue_be hy, hbytes]
  rw [hbytes] at hlow
  generalize 256 ^ (bs.flatMap (be 4)).length = span at hlow hhigh
  show _ ↔ x < y
  constructor
  · intro hle
    by_contra hnot
    have hmul := Nat.mul_le_mul_right span (show y + 1 ≤ x by omega)
    rw [Nat.succ_mul] at hmul
    omega
  · intro hlt
    have hmul := Nat.mul_le_mul_right span (Nat.succ_le_of_lt hlt)
    rw [Nat.succ_mul] at hmul
    omega

theorem be_xor (w x y : Nat) : List.zipWith (· ^^^ ·) (be w x) (be w y) = be w (x ^^^ y) := by
  rw [be_eq_map, be_eq_map, be_eq_map, List.zipWith_map, List.zipWith_self]
  refine List.map_congr_left fun i _ => ?_
  have hpow : 256 ^ (w - 1 - i) = 2 ^ (8 * (w - 1 - i)) := (pow_mul 2 8 _).symm
  rw [← UInt8.ofNat_xor, hpow, Nat.xor_div_two_pow]
  congr 1
  exact (Nat.xor_mod_two_pow (n := 8)).symm

theorem hashBytes_xor (x y r : Nat) :
    List.zipWith (· ^^^ ·) (hashBytes x r) (hashBytes y r) = hashBytes (x ^^^ y) r := by
  unfold hashBytes
  induction List.range' r (10 - r) with
  | nil => rfl
  | cons c cs ih =>
    rw [List.flatMap_cons, List.flatMap_cons, List.flatMap_cons,
      List.zipWith_append (by rw [length_be, length_be]), be_xor, ih, chunk_xor]

theorem map_getD_range' (l : Bytes) (s : Nat) :
    (List.range' s (l.length - s)).map (fun i => l.getD i 0) = l.drop s := by
  refine List.ext_getElem (by simp) fun i hi hi' => ?_
  rw [List.length_drop] at hi'
  rw [List.getElem_map, List.getElem_range', List.getElem_drop, Nat.one_mul,
    List.getD_eq_getElem _ _ (by omega)]

/-- The row of a pair, when the indices of the first one are below. -/
theorem initCollide_holds (hr : r < 10) (ha : a.Holds (rowBytes H r as))
    (hb : b.Holds (rowBytes H r bs)) (hlen : as.length = bs.length)
    (hroom : 27 - 3 * r + 4 * (as.length + bs.length) ≤ 2054)
    (horder : byteLe (bs.flatMap (be 4)) (as.flatMap (be 4)) = false) :
    ∃ row, StepRow.zeros.initCollide a b (30 - 3 * r) (4 * as.length) 3 = some row ∧
      row.Holds (rowBytes H (r + 1) (as ++ bs)) := by
  have hx := length_hashBytes (xorAll H as) r
  have hy := length_hashBytes (xorAll H bs) r
  have hz := length_hashBytes (xorAll H (as ++ bs)) r
  have hxor := hashBytes_xor (xorAll H as) (xorAll H bs) r
  rw [← xorAll_append] at hxor
  have hbyte : ∀ (row : StepRow) (i : Nat), 3 ≤ i → i < 3 + (30 - 3 * r - 3) →
      (Buffer.read a i >>= fun x => Buffer.read b i >>= fun y => Buffer.write row (i - 3) (x ^^^ y)) =
        Buffer.write row (([] : Bytes).length + (i - 3))
          ((hashBytes (xorAll H (as ++ bs)) r).getD i 0) := by
    intro row i hle hlt
    have hi : i < 30 - 3 * r := by omega
    have hreadA := ha.left.read (List.getElem?_eq_getElem (show i < _ by omega))
    have hreadB := hb.left.read (List.getElem?_eq_getElem (show i < _ by omega))
    have hget : (hashBytes (xorAll H (as ++ bs)) r).getD i 0 =
        (hashBytes (xorAll H as) r)[i] ^^^ (hashBytes (xorAll H bs) r)[i] := by
      simp only [← hxor]
      rw [List.getD_eq_getElem _ _ (by rw [List.length_zipWith]; omega), List.getElem_zipWith]
    rw [hreadA, hreadB, hget, List.length_nil, Nat.zero_add]
    rfl
  obtain ⟨row₁, hwrites, h₁⟩ := (Buffer.holds_nil StepRow.zeros).writes
    (F := fun row i => Buffer.read a i >>= fun x => Buffer.read b i >>= fun y =>
      Buffer.write row (i - 3) (x ^^^ y)) (s := 3) (k := 30 - 3 * r - 3)
    (by rw [List.length_nil]; omega) hbyte
  have hdrop : (List.range' 3 (30 - 3 * r - 3)).map
      (fun i => (hashBytes (xorAll H (as ++ bs)) r).getD i 0) =
        hashBytes (xorAll H (as ++ bs)) (r + 1) := by
    rw [← hz, map_getD_range', hashBytes_succ hr, List.drop_left' (length_be _ _)]
  rw [List.nil_append, hdrop] at h₁
  have hpos : (hashBytes (xorAll H (as ++ bs)) (r + 1)).length = 30 - 3 * r - 3 := by
    rw [length_hashBytes]
    omega
  have hsizeA := Buffer.length_records (length_be 4) as
  have hsizeB := Buffer.length_records (length_be 4) bs
  obtain ⟨row₂, hstore₁, h₂⟩ := h₁.store (as.flatMap (be 4)) (by omega)
  obtain ⟨row₃, hstore₂, h₃⟩ := h₂.store (bs.flatMap (be 4))
    (by rw [List.length_append]; omega)
  rw [hpos] at hstore₁
  rw [List.length_append, hpos, hsizeA] at hstore₂
  have hb' := slice_indices hb
  rw [← hlen] at hb'
  refine ⟨row₃, ?_, ?_⟩
  · unfold StepRow.initCollide
    rw [hwrites]
    dsimp only [Option.bind_eq_bind, Option.bind_some]
    rw [slice_indices ha, hb']
    dsimp only [Option.bind_some]
    rw [horder, Bool.not_false, if_pos rfl, hstore₁]
    exact hstore₂
  · rwa [rowBytes, List.flatMap_append, ← List.append_assoc]

/-- **One step of a round.** The rows are refused, or they give the row of their
indices. -/
theorem collide_rows (hr : r < 10) (ha : a.Holds (rowBytes H r as))
    (hb : b.Holds (rowBytes H r bs)) (hlen : as.length = bs.length) (hne : as ≠ [])
    (hroom : 27 - 3 * r + 4 * (as.length + bs.length) ≤ 2054) (has : ∀ x ∈ as, x < 2 ^ 21)
    (hbs : ∀ y ∈ bs, y < 2 ^ 21) :
    (Meets H r as bs → ∃ row, collide a b (30 - 3 * r) (4 * as.length) = some (some row) ∧
      row.Holds (rowBytes H (r + 1) (as ++ bs))) ∧
    (¬ Meets H r as bs → collide a b (30 - 3 * r) (4 * as.length) = some none) := by
  have hib := slice_indices hb
  rw [← hlen] at hib
  have hdistinct := distinctIndices_eq ha hb hlen
  have hhash := be_inj (w := 3) (chunk_lt r (xorAll H as)) (chunk_lt r (xorAll H bs))
  unfold collide
  rw [slice_hash hr ha, slice_hash hr hb, slice_indices ha, hib, hdistinct]
  dsimp only [Option.bind_eq_bind, Option.bind_some]
  constructor
  · rintro ⟨hcollide, hfirst, hdisjoint⟩
    have hle := (order_iff hlen hne has hbs hdisjoint).mpr hfirst
    have hlt : byteLe (bs.flatMap (be 4)) (as.flatMap (be 4)) = false := by
      have hnot := (order_iff hlen.symm (fun h => hne (by simpa [h] using hlen)) hbs has
        hdisjoint.symm).not.mpr (Nat.not_lt_of_lt hfirst)
      exact Bool.eq_false_iff.mpr hnot
    obtain ⟨row, hrow, hholds⟩ := initCollide_holds hr ha hb hlen hroom hlt
    refine ⟨row, ?_, hholds⟩
    rw [if_neg (not_not.mpr (hhash.mpr hcollide)), hle, (distinct_iff has hbs).mpr hdisjoint, hrow]
    rfl
  · intro hnot
    by_cases hcollide : chunk r (xorAll H as) = chunk r (xorAll H bs)
    · rw [if_neg (not_not.mpr (hhash.mpr hcollide))]
      cases hle : byteLe (as.flatMap (be 4)) (bs.flatMap (be 4)) with
      | false => rfl
      | true =>
        have hdup : (as.all fun x => bs.all fun y => be 4 x != be 4 y) = false := by
          rw [Bool.eq_false_iff]
          intro hall
          have hdisjoint := (distinct_iff has hbs).mp hall
          exact hnot ⟨hcollide, (order_iff hlen hne has hbs hdisjoint).mp hle, hdisjoint⟩
        rw [hdup]
        rfl
    · rw [if_pos (hhash.not.mpr hcollide)]
      rfl

end Pair

end MkPool.Equihash
