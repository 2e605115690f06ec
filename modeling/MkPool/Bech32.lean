import MkPool.Lib.Polymod
import MkPool.Spelling

/-! # The parts of Bech32 and CashAddr

The two checksums of the source are linear, `convert_bits` regroups digits, and
the charset numbers the symbols. -/
namespace MkPool.Bech32
open MkPool.Lib MkPool.Lib.Digits MkPool.Lib.Polymod MkPool.Utils MkPool.Address
open MkPool.AddressDecode MkPool.Spelling

/-! ## The checksums -/

/-- The checksum of Bech32, six symbols. -/
def bech32Code : Code where
  width := 5
  more := 5
  gens := [0x3b6a57b2, 0x26508e6d, 0x1ea119fa, 0x3d4233dd, 0x2a1462b3]
  gens_lt := by decide
  full := by decide

/-- The checksum of CashAddr, eight symbols. -/
def cashCode : Code where
  width := 5
  more := 7
  gens := [0x98f2bc8e61, 0x79b76d99e2, 0xf33e5fb3c4, 0xae2eabe2a8, 0x1e4f43e470]
  gens_lt := by decide
  full := by decide

/-- The values of symbols. -/
def nats (vs : Bytes) : List Nat := vs.map UInt8.toNat

theorem toNat_chosen (p : Prop) [Decidable p] (chk g : UInt32) :
    (if p then chk ^^^ g else chk).toNat = chk.toNat ^^^ (if p then g.toNat else 0) := by
  split
  · exact UInt32.toNat_xor chk g
  · exact (Nat.xor_zero _).symm

theorem toNat_chosen64 (p : Prop) [Decidable p] (chk g : UInt64) :
    (if p then chk ^^^ g else chk).toNat = chk.toNat ^^^ (if p then g.toNat else 0) := by
  split
  · exact UInt64.toNat_xor chk g
  · exact (Nat.xor_zero _).symm

theorem bit_iff (b : UInt32) {i : Nat} (hi : i < 32) :
    (b >>> UInt32.ofNat i) &&& 1 ≠ 0 ↔ b.toNat / 2 ^ i % 2 = 1 := by
  rw [Ne, ← UInt32.toNat_inj, UInt32.toNat_and, UInt32.toNat_shiftRight, UInt32.toNat_ofNat',
    Nat.mod_eq_of_lt (by omega : i < 2 ^ 32), Nat.mod_eq_of_lt hi, Nat.shiftRight_eq_div_pow]
  show ¬ (b.toNat / 2 ^ i) &&& 1 = 0 ↔ _
  rw [Nat.and_one_is_mod]
  omega

theorem bit8_iff (b : UInt8) {i : Nat} (hi : i < 8) :
    (b >>> UInt8.ofNat i) &&& 1 ≠ 0 ↔ b.toNat / 2 ^ i % 2 = 1 := by
  rw [Ne, ← UInt8.toNat_inj, UInt8.toNat_and, UInt8.toNat_shiftRight, UInt8.toNat_ofNat',
    Nat.mod_eq_of_lt (by omega : i < 2 ^ 8), Nat.mod_eq_of_lt hi, Nat.shiftRight_eq_div_pow]
  show ¬ (b.toNat / 2 ^ i) &&& 1 = 0 ↔ _
  rw [Nat.and_one_is_mod]
  omega

/-- Five generators, one after the other. -/
theorem xor_mix (x b g₀ g₁ g₂ g₃ g₄ : Nat) : x ^^^ mix [g₀, g₁, g₂, g₃, g₄] b =
    x ^^^ (if b / 2 ^ 0 % 2 = 1 then g₀ else 0) ^^^ (if b / 2 ^ 1 % 2 = 1 then g₁ else 0) ^^^
      (if b / 2 ^ 2 % 2 = 1 then g₂ else 0) ^^^ (if b / 2 ^ 3 % 2 = 1 then g₃ else 0) ^^^
        (if b / 2 ^ 4 % 2 = 1 then g₄ else 0) := by
  simp only [mix, Nat.div_div_eq_div_mul, Nat.xor_zero, Nat.xor_assoc, pow_zero, Nat.div_one]
  rfl

theorem range_five : List.range 5 = [0, 1, 2, 3, 4] := rfl

theorem toNat_bech32Polymod (vs : Bytes) :
    (bech32Polymod vs).toNat = bech32Code.run 1 (nats vs) := by
  unfold bech32Polymod Code.run nats
  rw [List.foldl_map]
  refine (List.foldl_hom UInt32.toNat fun chk v => ?_).symm
  have htop : (chk >>> 25).toNat = chk.toNat >>> 25 := UInt32.toNat_shiftRight chk 25
  have hand : (chk &&& 0x1ffffff).toNat = chk.toNat % 2 ^ 25 := by
    rw [UInt32.toNat_and]
    exact Nat.and_two_pow_sub_one_eq_mod chk.toNat 25
  have hlow : ((chk &&& 0x1ffffff) <<< 5).toNat = (chk.toNat % 2 ^ 25) <<< 5 := by
    rw [UInt32.toNat_shiftLeft, hand]
    refine Nat.mod_eq_of_lt ?_
    have hlt := Nat.mod_lt chk.toNat (Nat.two_pow_pos 25)
    rw [Nat.shiftLeft_eq]
    show chk.toNat % 2 ^ 25 * 2 ^ 5 < 2 ^ 32
    omega
  rw [range_five]
  simp only [List.foldl_cons, List.foldl_nil, toNat_chosen, UInt32.toNat_xor, hlow, htop,
    UInt8.toNat_toUInt32, bit_iff _ (by omega : 0 < 32), bit_iff _ (by omega : 1 < 32),
    bit_iff _ (by omega : 2 < 32), bit_iff _ (by omega : 3 < 32), bit_iff _ (by omega : 4 < 32)]
  exact xor_mix _ _ _ _ _ _ _

theorem toNat_cashaddrPolymod (vs : Bytes) :
    (cashaddrPolymod vs).toNat = cashCode.run 1 (nats vs) ^^^ 1 := by
  unfold cashaddrPolymod Code.run nats
  rw [List.foldl_map, UInt64.toNat_xor]
  refine congrArg (· ^^^ 1) (List.foldl_hom UInt64.toNat fun c v => ?_).symm
  have htop (i : Nat) (hi : i < 5) : (c >>> 35).toUInt8.toNat / 2 ^ i % 2 =
      c.toNat >>> 35 / 2 ^ i % 2 := by
    have hshift : (c >>> 35).toNat = c.toNat >>> 35 := UInt64.toNat_shiftRight c 35
    have hbyte : (c >>> 35).toUInt8.toNat = c.toNat >>> 35 % 2 ^ 8 := by
      rw [UInt64.toNat_toUInt8, hshift]
    rw [hbyte]
    interval_cases i <;> omega
  have hand : (c &&& 0x07ffffffff).toNat = c.toNat % 2 ^ 35 := by
    rw [UInt64.toNat_and]
    exact Nat.and_two_pow_sub_one_eq_mod c.toNat 35
  have hlow : ((c &&& 0x07ffffffff) <<< 5).toNat = (c.toNat % 2 ^ 35) <<< 5 := by
    rw [UInt64.toNat_shiftLeft, hand]
    refine Nat.mod_eq_of_lt ?_
    have hlt := Nat.mod_lt c.toNat (Nat.two_pow_pos 35)
    rw [Nat.shiftLeft_eq]
    show c.toNat % 2 ^ 35 * 2 ^ 5 < 2 ^ 64
    omega
  rw [range_five]
  simp only [List.foldl_cons, List.foldl_nil, toNat_chosen64, UInt64.toNat_xor, hlow,
    UInt8.toNat_toUInt64, bit8_iff _ (by omega : 0 < 8), bit8_iff _ (by omega : 1 < 8),
    bit8_iff _ (by omega : 2 < 8), bit8_iff _ (by omega : 3 < 8), bit8_iff _ (by omega : 4 < 8),
    htop 0 (by omega), htop 1 (by omega), htop 2 (by omega), htop 3 (by omega), htop 4 (by omega)]
  exact xor_mix _ _ _ _ _ _ _

/-! ## The charset -/

/-- The values of symbols fit five bits. -/
def Fives (vs : Bytes) : Prop := ∀ v ∈ vs, v.toNat < 2 ^ 5

/-- The text of symbols. -/
def charsetText (vs : List Nat) : Str := vs.map fun v => bech32Charset.getD v ' '

theorem idxOf_charset {c : Char} {i : Nat} :
    bech32Charset.idxOf? c = some i ↔ i < 2 ^ 5 ∧ c = bech32Charset.getD i ' ' := by
  have hread : ∀ i < 2 ^ 5, bech32Charset.idxOf? (bech32Charset.getD i ' ') = some i := by decide
  constructor
  · intro h
    obtain ⟨hi, hc, _⟩ := List.idxOf?_eq_some_iff.mp h
    refine ⟨hi, ?_⟩
    rw [List.getD_eq_getElem _ _ hi]
    exact hc.symm
  · rintro ⟨hi, rfl⟩
    exact hread i hi

theorem charsetValues_cons (c : Char) (s : Str) :
    charsetValues bech32Charset (c :: s) =
      match bech32Charset.idxOf? c with
      | none => .error .badCharacter
      | some idx => (charsetValues bech32Charset s).map (UInt8.ofNat idx :: ·) := by
  unfold charsetValues
  rw [List.mapM_cons]
  cases bech32Charset.idxOf? c <;> rfl

/-- A text has values when it is the text of them. -/
theorem charsetValues_iff {s : Str} {vs : Bytes} :
    charsetValues bech32Charset s = .ok vs ↔ Fives vs ∧ s = charsetText (nats vs) := by
  induction s generalizing vs with
  | nil =>
    show Except.ok [] = Except.ok vs ↔ _
    constructor
    · intro h
      obtain rfl := Except.ok.inj h
      exact ⟨fun v hv => (by cases hv), rfl⟩
    · intro h
      rw [List.map_eq_nil_iff.mp (List.map_eq_nil_iff.mp h.2.symm)]
  | cons c s ih =>
    rw [charsetValues_cons]
    constructor
    · intro h
      cases hc : bech32Charset.idxOf? c with
      | none =>
        rw [hc] at h
        cases h
      | some i =>
        obtain ⟨hi, hchar⟩ := idxOf_charset.mp hc
        have hbyte : (UInt8.ofNat i).toNat = i := by
          rw [UInt8.toNat_ofNat', Nat.mod_eq_of_lt (by omega)]
        rw [hc] at h
        cases hrest : charsetValues bech32Charset s with
        | error e =>
          rw [hrest] at h
          cases h
        | ok rest =>
          rw [hrest] at h
          obtain rfl := Except.ok.inj h
          obtain ⟨hfives, htext⟩ := ih.mp hrest
          refine ⟨fun v hv => ?_, ?_⟩
          · rcases List.mem_cons.mp hv with rfl | hv
            · rwa [hbyte]
            · exact hfives v hv
          · rw [hchar, htext]
            show _ = bech32Charset.getD (UInt8.ofNat i).toNat ' ' :: _
            rw [hbyte]
            rfl
    · rintro ⟨hvs, h⟩
      cases vs with
      | nil => cases h
      | cons v vs =>
        obtain ⟨hhead, htail⟩ := List.cons.inj h
        have hc : bech32Charset.idxOf? c = some v.toNat :=
          idxOf_charset.mpr ⟨hvs v List.mem_cons_self, hhead⟩
        have hrest := ih.mpr ⟨fun w hw => hvs w (List.mem_cons_of_mem _ hw), htail⟩
        rw [hc, hrest]
        show Except.ok (UInt8.ofNat v.toNat :: vs) = _
        rw [UInt8.ofNat_toNat]

theorem not_mem_charsetText {c : Char} (hc : c ∉ bech32Charset) (hspace : c ≠ ' ')
    (vs : List Nat) : c ∉ charsetText vs := by
  intro h
  obtain ⟨v, _, rfl⟩ := List.mem_map.mp h
  rw [List.getD_eq_getElem?_getD] at hc hspace
  cases hv : bech32Charset[v]? with
  | none => rw [hv] at hspace; exact hspace rfl
  | some c => rw [hv] at hc; exact hc (List.mem_of_getElem? hv)

/-! ## Regrouping -/

/-- What `convert_bits` keeps, from symbols to bytes. -/
structure Regroups (read : Bytes) (g : Regroup) : Prop where
  stream : Stream 5 8 (nats read) (nats g.out) g.bits (g.acc.toNat % 2 ^ g.bits)
  few : g.bits < 8

theorem Regroups.next {read : Bytes} {g : Regroup} (h : Regroups read g) {v : UInt8}
    (hv : v.toNat < 2 ^ 5) : Regroups (read ++ [v]) (g.next 5 8 v) := by
  obtain ⟨acc, bits, out⟩ := g
  have hfew : bits < 8 := h.few
  have hacc : (((acc <<< UInt32.ofNat 5) ||| v.toUInt32) &&&
      ((1 <<< UInt32.ofNat (5 + 8 - 1)) - 1)).toNat = (acc.toNat * 2 ^ 5 + v.toNat) % 2 ^ 12 := by
    have hshift : (acc <<< UInt32.ofNat 5).toNat = 2 ^ 5 * (acc.toNat % 2 ^ 27) := by
      rw [UInt32.toNat_shiftLeft, Nat.shiftLeft_eq]
      show acc.toNat * 2 ^ 5 % 2 ^ 32 = _
      omega
    have hmask : (((1 : UInt32) <<< UInt32.ofNat (5 + 8 - 1)) - 1).toNat = 2 ^ 12 - 1 := by decide
    rw [UInt32.toNat_and, UInt32.toNat_or, UInt8.toNat_toUInt32, hshift, hmask,
      ← Nat.two_pow_add_eq_or_of_lt hv, Nat.and_two_pow_sub_one_eq_mod]
    omega
  generalize hnew : ((acc <<< UInt32.ofNat 5) ||| v.toUInt32) &&&
      ((1 <<< UInt32.ofNat (5 + 8 - 1)) - 1) = acc' at hacc
  have hrest (n : Nat) (hn : n ≤ bits + 5) : acc'.toNat % 2 ^ n =
      (acc.toNat % 2 ^ bits * 2 ^ 5 + v.toNat) % 2 ^ n := by
    have hpow : 2 ^ bits * 2 ^ 5 = 2 ^ n * 2 ^ (bits + 5 - n) := by
      rw [← pow_add, ← pow_add]
      congr 1
      omega
    have hsplit : acc.toNat * 2 ^ 5 + v.toNat =
        2 ^ n * (2 ^ (bits + 5 - n) * (acc.toNat / 2 ^ bits)) +
          (acc.toNat % 2 ^ bits * 2 ^ 5 + v.toNat) := by
      rw [← Nat.mul_assoc, ← hpow]
      calc _ = (2 ^ bits * (acc.toNat / 2 ^ bits) + acc.toNat % 2 ^ bits) * 2 ^ 5 + v.toNat := by
            rw [Nat.div_add_mod]
        _ = _ := by ring
    rw [hacc, Nat.mod_mod_of_dvd _ (pow_dvd_pow 2 (by omega)), hsplit, Nat.mul_add_mod]
  have hfed := h.stream.feed hv
  have hnats (bs : Bytes) (b : UInt8) : nats (bs ++ [b]) = nats bs ++ [b.toNat] := List.map_append
  show Regroups (read ++ [v]) ⟨_, _, _⟩
  dsimp only
  rw [hnew]
  by_cases hfull : 8 ≤ bits + 5
  · have hone : (bits + 5) / 8 = 1 := by omega
    have hbits : (bits + 5) % 8 = bits + 5 - 8 := by omega
    have hbyte : ((acc' >>> UInt32.ofNat (bits + 5 - (0 + 1) * 8)) &&&
        ((1 <<< UInt32.ofNat 8) - 1)).toUInt8.toNat =
          (acc.toNat % 2 ^ bits * 2 ^ 5 + v.toNat) / 2 ^ (bits + 5 - 8) := by
      have hshift : (acc' >>> UInt32.ofNat (bits + 5 - (0 + 1) * 8)).toNat =
          acc'.toNat / 2 ^ (bits + 5 - 8) := by
        rw [UInt32.toNat_shiftRight, Nat.shiftRight_eq_div_pow, UInt32.toNat_ofNat']
        congr 2
        omega
      have hmask : (((1 : UInt32) <<< UInt32.ofNat 8) - 1).toNat = 2 ^ 8 - 1 := by decide
      have hpow : 2 ^ (bits + 5 - 8) * 2 ^ 8 = 2 ^ (bits + 5) := by
        rw [← pow_add]
        congr 1
        omega
      rw [UInt32.toNat_toUInt8, UInt32.toNat_and, hshift, hmask, Nat.and_two_pow_sub_one_eq_mod,
        Nat.mod_mod, ← Nat.mod_mul_right_div_self, hpow, hrest _ le_rfl,
        Nat.mod_eq_of_lt hfed.short]
    refine ⟨?_, by show (bits + 5) % 8 < 8; omega⟩
    have hemit := hfed.emit hfull
    rw [← hnats] at hemit
    show Stream 5 8 _ (nats (out ++ (List.range ((bits + 5) / 8)).map _)) ((bits + 5) % 8)
      (acc'.toNat % 2 ^ ((bits + 5) % 8))
    rw [hone, hbits, hrest _ (by omega)]
    show Stream 5 8 _ (nats (out ++ [((acc' >>> UInt32.ofNat (bits + 5 - (0 + 1) * 8)) &&&
      ((1 <<< UInt32.ofNat 8) - 1)).toUInt8])) _ _
    rw [hnats, hnats, hbyte]
    rwa [hnats] at hemit
  · have hnone : (bits + 5) / 8 = 0 := by omega
    have hbits : (bits + 5) % 8 = bits + 5 := by omega
    refine ⟨?_, by show (bits + 5) % 8 < 8; omega⟩
    show Stream 5 8 _ (nats (out ++ (List.range ((bits + 5) / 8)).map _)) ((bits + 5) % 8)
      (acc'.toNat % 2 ^ ((bits + 5) % 8))
    rw [hnone, hbits, hrest _ le_rfl, Nat.mod_eq_of_lt hfed.short, hnats, List.range_zero,
      List.map_nil, List.append_nil]
    exact hfed

theorem regroup_small {input : Bytes} (hin : Fives input) {read : Bytes} {g : Regroup}
    (h : Regroups read g) :
    ∃ g', regroup 5 8 input g = .ok g' ∧ Regroups (read ++ input) g' := by
  induction input generalizing read g with
  | nil => exact ⟨g, rfl, by rwa [List.append_nil]⟩
  | cons v input ih =>
    have hv : v.toNat < 2 ^ 5 := hin v List.mem_cons_self
    have hfit : ¬ v.toNat >>> 5 ≠ 0 := by
      rw [Nat.shiftRight_eq_div_pow, Nat.div_eq_of_lt hv]
      exact not_not_intro rfl
    obtain ⟨g', hg, hall⟩ := ih (fun w hw => hin w (List.mem_cons_of_mem _ hw)) (h.next hv)
    refine ⟨g', ?_, by rwa [List.append_assoc] at hall⟩
    rw [regroup, if_neg hfit, hg]

/-- **`convert_bits` without padding.** The symbols are those of the bytes, with
the fewest zero bits at the end. -/
theorem convertBits_iff {ds prog : Bytes} (h : Fives ds) :
    convertBits ds 5 8 false = .ok prog ↔ nats ds = repack 8 5 (nats prog) := by
  have hstart : Regroups [] ⟨0, 0, []⟩ := ⟨.start 5 8, Nat.zero_lt_succ 7⟩
  obtain ⟨g, hg, hread⟩ := regroup_small h hstart
  have hstream : Stream 5 8 (nats ds) (nats g.out) g.bits (g.acc.toNat % 2 ^ g.bits) := hread.stream
  have hfew := hread.few
  have hrest : (g.acc <<< UInt32.ofNat (8 - g.bits)) &&& ((1 <<< UInt32.ofNat 8) - 1) ≠ 0 ↔
      g.acc.toNat % 2 ^ g.bits ≠ 0 := by
    have hmask : (((1 : UInt32) <<< UInt32.ofNat 8) - 1).toNat = 2 ^ 8 - 1 := by decide
    have hshift : (g.acc <<< UInt32.ofNat (8 - g.bits)).toNat % 2 ^ 8 =
        g.acc.toNat % 2 ^ g.bits * 2 ^ (8 - g.bits) := by
      have hpow : 2 ^ 8 = 2 ^ g.bits * 2 ^ (8 - g.bits) := by
        rw [← pow_add]
        congr 1
        omega
      have hcount : (UInt32.ofNat (8 - g.bits)).toNat % 32 = 8 - g.bits := by
        rw [UInt32.toNat_ofNat']
        omega
      rw [UInt32.toNat_shiftLeft, Nat.shiftLeft_eq, hcount,
        Nat.mod_mod_of_dvd _ (pow_dvd_pow 2 (by omega)), hpow, Nat.mul_mod_mul_right]
    rw [Ne, ← UInt32.toNat_inj, UInt32.toNat_and, hmask, Nat.and_two_pow_sub_one_eq_mod, hshift]
    show ¬ _ = 0 ↔ _
    rw [Nat.mul_eq_zero, or_iff_left (Nat.two_pow_pos _).ne']
  have hfives : ∀ d ∈ nats ds, d < 2 ^ 5 := by
    intro d hd
    obtain ⟨v, hv, rfl⟩ := List.mem_map.mp hd
    exact h v hv
  have hbytes (bs : Bytes) : ∀ d ∈ nats bs, d < 2 ^ 8 := by
    intro d hd
    obtain ⟨v, _, rfl⟩ := List.mem_map.mp hd
    exact v.toNat_lt
  have hclean : convertBits ds 5 8 false = .ok prog ↔
      g.bits < 5 ∧ g.acc.toNat % 2 ^ g.bits = 0 ∧ g.out = prog := by
    unfold convertBits
    rw [hg]
    show (if 5 ≤ g.bits ∨ (g.acc <<< UInt32.ofNat (8 - g.bits)) &&&
      ((1 <<< UInt32.ofNat 8) - 1) ≠ 0 then Except.error AddressError.badLength else .ok g.out) =
        .ok prog ↔ _
    by_cases hbad : 5 ≤ g.bits ∨ g.acc.toNat % 2 ^ g.bits ≠ 0
    · rw [if_pos (by rwa [hrest])]
      refine ⟨fun he => (by cases he), fun hc => ?_⟩
      omega
    · rw [if_neg (by rwa [hrest]), Except.ok.injEq]
      exact ⟨fun he => ⟨by omega, by omega, he⟩, fun hc => hc.2.2⟩
  rw [hclean]
  constructor
  · rintro ⟨hbits, hzero, rfl⟩
    rw [hzero] at hstream
    exact repack_of_stream hstream hbits hfives
  · intro he
    have hback := stream_repack (w := 8) (v := 5) (by omega) (hbytes prog)
    have hpad : (repack 8 5 (nats prog)).length * 5 - (nats prog).length * 8 < 5 := by
      rw [length_repack]
      omega
    rw [← he] at hback hpad
    obtain ⟨hout, hbits, hzero⟩ := hstream.unique hback hfew (by omega)
    refine ⟨by omega, hzero, ?_⟩
    exact List.map_injective_iff.mpr (fun a b => UInt8.toNat_inj.mp) hout

/-! ## The decoders -/

theorem rfind_append {a b : Str} {c : Char} (h : c ∉ b) :
    rfind (a ++ c :: b) c = some a.length := by
  have hrev : (a ++ c :: b).reverse = b.reverse ++ c :: a.reverse := by simp
  have hb : b.reverse.idxOf? c = none := List.idxOf?_eq_none_iff.mpr (by simpa using h)
  have hidx : (b.reverse ++ c :: a.reverse).idxOf? c = some b.length := by
    rw [List.idxOf?_eq_some_iff]
    refine ⟨by simp, by simp, fun j hj => ?_⟩
    have hin : j < b.reverse.length := by simpa using hj
    rw [List.getElem_append_left hin]
    intro he
    have hmem : b.reverse[j] ∈ b := List.mem_reverse.mp (List.getElem_mem _)
    rw [he] at hmem
    exact h hmem
  unfold rfind
  rw [hrev, hidx, Option.map_some, List.length_append, List.length_cons]
  congr 1
  omega

/-- The last place of a character. -/
theorem rfind_split {s : Str} {c : Char} {pos : Nat} (h : rfind s c = some pos) :
    ∃ a b, s = a ++ c :: b ∧ c ∉ b ∧ a.length = pos := by
  have hmem : c ∈ s.reverse := by
    by_contra hno
    rw [rfind, List.idxOf?_eq_none_iff.mpr hno] at h
    cases h
  obtain ⟨b, a, hrev, hb⟩ := List.eq_append_cons_of_mem hmem
  have hs : s = a.reverse ++ c :: b.reverse := by
    have := congrArg List.reverse hrev
    simpa using this
  have hno : c ∉ b.reverse := by simpa using hb
  refine ⟨a.reverse, b.reverse, hs, hno, ?_⟩
  rw [hs, rfind_append hno] at h
  exact Option.some.inj h

/-- The constant of an encoding. -/
def target : Encoding → Nat
  | .bech32 => 1
  | .bech32m => 0x2bc830a3

theorem encodingOf_iff {chk : UInt32} {enc : Encoding} :
    encodingOf chk = .ok enc ↔ chk.toNat = target enc := by
  have hone : chk.toNat = 1 ↔ chk = 1 := by
    rw [← UInt32.toNat_inj]
    rfl
  have hm : chk.toNat = 0x2bc830a3 ↔ chk = 0x2bc830a3 := by
    rw [← UInt32.toNat_inj]
    rfl
  unfold encodingOf target
  by_cases h1 : chk = 1
  · subst h1
    cases enc <;> decide
  · by_cases h2 : chk = 0x2bc830a3
    · subst h2
      cases enc <;> decide
    · rw [if_neg h1, if_neg h2]
      cases enc with
      | bech32 => simp [hone, h1]
      | bech32m => simp [hm, h2]

/-- A text is the prefix, a `1` and these symbols. -/
structure Reads (hrp s : Str) (values : Bytes) : Prop where
  oneCase : OneCase s
  named : hrp ≠ []
  fives : Fives values
  text : lowerCase s = hrp ++ '1' :: charsetText (nats values)

theorem one_not_mem (vs : List Nat) : '1' ∉ charsetText vs :=
  not_mem_charsetText (by decide) (by decide) vs

theorem length_charsetText (vs : Bytes) : (charsetText (nats vs)).length = vs.length := by
  unfold charsetText nats
  rw [List.length_map, List.length_map]

/-- **What `bech32_decode` accepts.** -/
theorem bech32Decode_iff {hrp s : Str} {enc : Encoding} {data : Bytes} :
    bech32Decode hrp s = .ok (enc, data) ↔ ∃ values, Reads hrp s values ∧ 6 ≤ values.length ∧
      (bech32Polymod (bech32HrpExpand hrp ++ values)).toNat = target enc ∧
      data = values.take (values.length - 6) := by
  constructor
  · intro h
    unfold bech32Decode at h
    split at h
    · cases h
    · rename_i hcase
      dsimp only at h
      split at h
      · cases h
      · rename_i pos hpos
        obtain ⟨a, b, hlower, hno, hlen⟩ := rfind_split hpos
        split at h
        · cases h
        · rename_i hroom
          have htake : (lowerCase s).take pos = a := by
            rw [hlower, ← hlen, List.take_left]
          have hdrop : (lowerCase s).drop (pos + 1) = b := by
            rw [hlower, ← hlen, ← List.drop_drop, List.drop_left]
            rfl
          rw [htake, hdrop] at h
          split at h
          · cases h
          · rename_i hhrp
            obtain rfl : a = hrp := not_not.mp hhrp
            cases hvalues : charsetValues bech32Charset b with
            | error e =>
              rw [hvalues] at h
              cases h
            | ok values =>
              rw [hvalues] at h
              obtain ⟨hfives, rfl⟩ := charsetValues_iff.mp hvalues
              cases henc : encodingOf (bech32Polymod (bech32HrpExpand a ++ values)) with
              | error e =>
                simp only [bind, Except.bind, henc] at h
                cases h
              | ok enc' =>
                simp only [bind, Except.bind, henc] at h
                cases h
                rw [hlower, List.length_append, List.length_cons, length_charsetText] at hroom
                refine ⟨values, ⟨oneCase_iff.mpr (by simpa using hcase), ?_, hfives, hlower⟩,
                  by omega, encodingOf_iff.mp henc, rfl⟩
                rw [← List.length_pos_iff]
                omega
  · rintro ⟨values, hreads, hlen, hchk, rfl⟩
    have hpos := List.length_pos_iff.mpr hreads.named
    have hdrop : (hrp ++ '1' :: charsetText (nats values)).drop (hrp.length + 1) =
        charsetText (nats values) := by
      rw [← List.drop_drop, List.drop_left]
      rfl
    unfold bech32Decode
    rw [if_neg (by simp [oneCase_iff.mp hreads.oneCase])]
    dsimp only
    rw [hreads.text, rfind_append (one_not_mem _)]
    dsimp only
    rw [List.length_append, List.length_cons, length_charsetText, if_neg (by omega), List.take_left,
      if_neg (not_not_intro rfl), hdrop, charsetValues_iff.mpr ⟨hreads.fives, rfl⟩]
    simp only [bind, Except.bind, encodingOf_iff.mpr hchk]
    rfl

/-- The payload of a CashAddr text is these symbols. -/
structure CashReads (s : Str) (values : Bytes) : Prop where
  oneCase : OneCase (cashParts s).2
  fives : Fives values
  text : lowerCase (cashParts s).2 = charsetText (nats values)

/-- The symbols are those of a version and a hash of its size. -/
structure CashPacks (data : Bytes) (version : UInt8) (hash : Bytes) : Prop where
  packed : nats data = repack 8 5 (nats (version :: hash))
  size : hash.length = sizeMap (version &&& 7).toNat / 8

/-- **What `cashaddr_decode` accepts.** -/
theorem cashaddrDecode_iff {s : Str} {cad : CashDecoded} :
    cashaddrDecode s = .ok cad ↔ ∃ values version, CashReads s values ∧ 8 ≤ values.length ∧
      cashaddrPolymod (cashaddrExpandPrefix (lowerCase (cashParts s).1) ++ values) = 0 ∧
      CashPacks (values.take (values.length - 8)) version cad.hash ∧
      cad.hrp = lowerCase (cashParts s).1 ∧ cad.type = (version >>> 3) &&& 0x1f := by
  have fives_take {values : Bytes} (h : Fives values) (n : Nat) : Fives (values.take n) :=
    fun v hv => h v (List.mem_of_mem_take hv)
  constructor
  · intro h
    unfold cashaddrDecode at h
    dsimp only at h
    split at h
    · cases h
    · rename_i hcase
      cases hvalues : charsetValues cashCharset (lowerCase (cashParts s).2) with
      | error e =>
        rw [hvalues] at h
        cases h
      | ok values =>
        rw [hvalues] at h
        obtain ⟨hfives, htext⟩ := charsetValues_iff.mp hvalues
        simp only [bind, Except.bind] at h
        split at h
        · cases h
        · rename_i hroom
          split at h
          · cases h
          · rename_i hchk
            cases hbytes : convertBits (values.take (values.length - 8)) 5 8 false with
            | error e =>
              rw [hbytes] at h
              cases h
            | ok bytes =>
              rw [hbytes] at h
              cases bytes with
              | nil => cases h
              | cons version hash =>
                dsimp only at h
                split at h
                · rename_i hsize
                  cases h
                  exact ⟨values, version, ⟨oneCase_iff.mpr (by simpa using hcase), hfives, htext⟩,
                    by omega, not_not.mp hchk,
                    ⟨(convertBits_iff (fives_take hfives _)).mp hbytes, hsize⟩, rfl, rfl⟩
                · cases h
  · rintro ⟨values, version, hreads, hlen, hchk, hpacks, hhrp, htype⟩
    have hbytes := (convertBits_iff (fives_take hreads.fives _)).mpr hpacks.packed
    unfold cashaddrDecode
    dsimp only
    rw [if_neg (by simp [oneCase_iff.mp hreads.oneCase])]
    show (charsetValues bech32Charset _ >>= _) = _
    rw [charsetValues_iff.mpr ⟨hreads.fives, hreads.text⟩]
    simp only [bind, Except.bind]
    rw [if_neg (by omega), if_neg (not_not_intro hchk), hbytes]
    dsimp only
    rw [dif_pos hpacks.size]
    obtain ⟨hrp, type, hash, size⟩ := cad
    obtain rfl : hrp = _ := hhrp
    obtain rfl : type = _ := htype
    rfl

end MkPool.Bech32
