import MkPool.Base58
import MkPool.Zcash

/-! # Two decoders of Base58

One works in a vector that was made large enough, the other lets its list of
digits grow. Both give the bytes of the number that a text spells. -/
namespace MkPool.Base58Agreement
open MkPool.Lib MkPool.Utils MkPool.Address MkPool.AddressDecode MkPool.Base58 MkPool.Zcash

/-- The number a text goes on to from another, if all its characters are
digits. -/
def numberFrom : Nat → Str → Option Nat
  | n, [] => some n
  | n, c :: s => (base58Digit c).bind fun d => numberFrom (58 * n + d) s

/-- The number a text spells. -/
def base58Number (s : Str) : Option Nat := numberFrom 0 s

/-- A zero byte for each one in front, then the bytes of the number, the most
significant first. -/
def base58Bytes (s : Str) (n : Nat) : Bytes :=
  List.replicate (s.takeWhile (· == '1')).length 0 ++ (minimalBytes n).reverse

theorem base58Digit_lt {c : Char} {d : Nat} (h : base58Digit c = some d) : d < 58 := by
  obtain ⟨hlt, _⟩ := List.idxOf?_eq_some_iff.mp h
  exact hlt

theorem numberFrom_isSome (n : Nat) (s : Str) :
    (numberFrom n s).isSome = true ↔ ∀ c ∈ s, c ∈ base58Alphabet := by
  induction s generalizing n with
  | nil => simp [numberFrom]
  | cons c s ih =>
    rw [numberFrom, List.forall_mem_cons]
    cases hd : base58Digit c with
    | none =>
      have hnot : c ∉ base58Alphabet := List.idxOf?_eq_none_iff.mp hd
      simp [hnot]
    | some d =>
      have hmem : c ∈ base58Alphabet := by
        by_contra hnot
        rw [base58Digit, List.idxOf?_eq_none_iff.mpr hnot] at hd
        cases hd
      rw [Option.bind_some, ih]
      simp [hmem]

/-- The ones in front do not count. -/
theorem numberFrom_zero_drop (s : Str) :
    numberFrom 0 (s.drop (s.takeWhile (· == '1')).length) = numberFrom 0 s := by
  induction s with
  | nil => rfl
  | cons c s ih =>
    by_cases hc : c = '1'
    · subst hc
      rw [List.takeWhile_cons_of_pos rfl, List.length_cons, List.drop_succ_cons, ih]
      rfl
    · rw [List.takeWhile_cons_of_neg (by simpa using hc)]
      rfl

/-! ## The growing list -/

/-- A carry through the bytes of a number. -/
theorem b58Carry_minimalBytes (n carry : Nat) :
    b58Carry carry (minimalBytes n) = minimalBytes (58 * n + carry) := by
  induction n using Nat.strong_induction_on generalizing carry with
  | _ n ih =>
    by_cases h : n = 0
    · rw [h, minimalBytes_zero, Nat.mul_zero, Nat.zero_add]
      rfl
    · have hb : (UInt8.ofNat (n % 256)).toNat = n % 256 := by
        rw [UInt8.toNat_ofNat']
        omega
      have hlow : (58 * n + carry) % 256 = (carry + 58 * (n % 256)) % 256 := by omega
      have hhigh : (58 * n + carry) / 256 = 58 * (n / 256) + (carry + 58 * (n % 256)) / 256 := by
        omega
      rw [minimalBytes_pos h, minimalBytes_pos (n := 58 * n + carry) (by omega), b58Carry, hb, hlow,
        hhigh, ih _ (Nat.div_lt_self (by omega) (by omega))]

theorem b58Digits_minimalBytes (n : Nat) (s : Str) :
    b58Digits s (minimalBytes n) = (numberFrom n s).map minimalBytes := by
  induction s generalizing n with
  | nil => rfl
  | cons c s ih =>
    have hchar : b58Alphabet.idxOf? c = base58Digit c := rfl
    rw [b58Digits, numberFrom, hchar]
    cases base58Digit c with
    | none => rfl
    | some d =>
      dsimp only
      rw [b58Carry_minimalBytes, ih]
      rfl

theorem b58Decode_eq (s : Str) : b58Decode s = (base58Number s).map (base58Bytes s) := by
  have hdigits := b58Digits_minimalBytes 0 s
  rw [minimalBytes_zero] at hdigits
  unfold b58Decode base58Number
  rw [hdigits]
  cases numberFrom 0 s with
  | none => rfl
  | some n =>
    show some (minimalBytes n ++ List.replicate _ 0).reverse = some (base58Bytes s n)
    rw [List.reverse_append, List.reverse_replicate]
    rfl

/-! ## The vector -/

/-- With room for the characters to come, the digits are those of the number. -/
theorem base58Digits_eq (s : Str) (b256 : Bytes)
    (hroom : (Wire.leValue b256 + 1) * 58 ^ s.length ≤ 256 ^ b256.length) :
    match numberFrom (Wire.leValue b256) s with
    | none => base58Digits s b256 = .error .badCharacter
    | some n => ∃ out, base58Digits s b256 = .ok out ∧ Wire.leValue out = n := by
  induction s generalizing b256 with
  | nil => exact ⟨b256, rfl, rfl⟩
  | cons c s ih =>
    rw [numberFrom, base58Digits]
    cases hd : base58Digit c with
    | none => rfl
    | some d =>
      obtain ⟨hlen, hval⟩ := base58Carry_value d b256
      have hlt := base58Digit_lt hd
      have hstep : (d + 58 * Wire.leValue b256 + 1) * 58 ^ s.length ≤ 256 ^ b256.length := by
        calc (d + 58 * Wire.leValue b256 + 1) * 58 ^ s.length
            ≤ ((Wire.leValue b256 + 1) * 58) * 58 ^ s.length := Nat.mul_le_mul_right _ (by omega)
          _ = (Wire.leValue b256 + 1) * 58 ^ (c :: s).length := by
            rw [List.length_cons, pow_succ, Nat.mul_assoc, Nat.mul_comm 58]
          _ ≤ 256 ^ b256.length := hroom
      have hfits : d + 58 * Wire.leValue b256 < 256 ^ b256.length := by
        have hone := Nat.le_mul_of_pos_right (d + 58 * Wire.leValue b256 + 1)
          (Nat.pow_pos (n := s.length) (by omega : 0 < 58))
        omega
      have hcarry : (base58Carry d b256).1 = 0 := by
        by_contra hne
        have hle := Nat.le_mul_of_pos_right (256 ^ b256.length) (Nat.pos_of_ne_zero hne)
        omega
      rw [hcarry, Nat.mul_zero, Nat.add_zero, Nat.add_comm] at hval
      have hnext := ih (base58Carry d b256).2 (by
        rw [hlen, hval]
        rwa [Nat.add_comm d] at hstep)
      rw [hval] at hnext
      rw [Option.bind_some]
      dsimp only
      rw [if_neg (not_not_intro hcarry)]
      exact hnext

/-- The bytes of a number have no zero in front. -/
theorem dropWhile_minimalBytes (n : Nat) :
    (minimalBytes n).reverse.dropWhile (· == 0) = (minimalBytes n).reverse := by
  induction n using Nat.strong_induction_on with
  | _ n ih =>
    by_cases h : n = 0
    · rw [h, minimalBytes_zero]
      rfl
    · rw [minimalBytes_pos h, List.reverse_cons]
      by_cases hsmall : n / 256 = 0
      · have hb : UInt8.ofNat (n % 256) ≠ 0 := by
          intro he
          have := congrArg UInt8.toNat he
          rw [UInt8.toNat_ofNat'] at this
          have hzero : (0 : UInt8).toNat = 0 := rfl
          omega
        rw [hsmall, minimalBytes_zero, List.reverse_nil, List.nil_append,
          List.dropWhile_cons_of_neg (by simpa using hb)]
      · have hrec := ih (n / 256) (Nat.div_lt_self (Nat.pos_of_ne_zero h) (by omega))
        have hne : (minimalBytes (n / 256)).reverse ≠ [] := by
          rw [minimalBytes_pos hsmall, List.reverse_cons]
          simp
        obtain ⟨b, bs, hbs⟩ := List.exists_cons_of_ne_nil hne
        rw [hbs] at hrec ⊢
        have hb : b ≠ 0 := by
          rintro rfl
          have hlen := congrArg List.length hrec
          have hle := (List.dropWhile_suffix (· == (0 : UInt8)) (l := bs)).length_le
          rw [List.dropWhile_cons, if_pos (by decide), List.length_cons] at hlen
          omega
        rw [List.cons_append, List.dropWhile_cons, if_neg (by simpa using hb)]

/-- The vector is never too short. -/
theorem base58Decode_eq (s : Str) : base58Decode s =
    match base58Number s with
    | none => .error .badCharacter
    | some n => .ok (base58Bytes s n) := by
  have hzero (k : Nat) : Wire.leValue (List.replicate k 0) = 0 := by
    rw [← Wire.leBytes_zero, Wire.leValue_leBytes (Nat.pow_pos (by omega))]
  have hdigits := base58Digits_eq (s.drop (s.takeWhile (· == '1')).length)
    (List.replicate (s.length * 733 / 1000 + 1) 0) (by
      rw [hzero, Nat.zero_add, Nat.one_mul, List.length_replicate]
      calc 58 ^ (s.drop (s.takeWhile (· == '1')).length).length ≤ 58 ^ s.length :=
            Nat.pow_le_pow_right (by omega) (by rw [List.length_drop]; omega)
        _ ≤ 256 ^ (s.length * 733 / 1000 + 1) := (room s.length).le)
  rw [hzero, numberFrom_zero_drop] at hdigits
  unfold base58Decode base58Number
  cases hn : numberFrom 0 s with
  | none =>
    rw [hn] at hdigits
    dsimp only at hdigits ⊢
    rw [hdigits]
    rfl
  | some n =>
    rw [hn] at hdigits
    obtain ⟨out, hout, hvalue⟩ := hdigits
    dsimp only
    rw [hout]
    show Except.ok (_ ++ out.reverse.dropWhile (· == 0)) = Except.ok _
    have hrest : out.reverse.dropWhile (· == 0) =
        (minimalBytes n).reverse.dropWhile (· == 0) :=
      dropWhile_eq_of_value (by
        rw [List.reverse_reverse, List.reverse_reverse, hvalue, leValue_minimalBytes])
    rw [hrest, dropWhile_minimalBytes]
    rfl

/-! ## Transparent addresses -/

section Addresses

variable {sha256 : Bytes → Hash256}

/-- `sha256d_arr`. -/
def twice (sha256 : Bytes → Hash256) (bs : Bytes) : Hash256 := sha256 (sha256 bs).bytes

/-- The body of a text of twenty-six bytes. -/
theorem body_eq {raw : Bytes} (h : raw.length = 26) :
    (raw.take (raw.length - 4)).drop 2 = (raw.take 22).drop 2 ∧
      ((raw.take (raw.length - 4)).drop 2).length = 20 := by
  rw [h]
  refine ⟨rfl, ?_⟩
  rw [List.length_drop, List.length_take]
  omega

/-- The script of a version, and what the other decoder makes of it. -/
theorem script_of_version {ver : Nat} {body : Bytes} (size : body.length = 20) :
    (if ver = 0x1cb8 ∨ ver = 0x1d25 then [0x76, 0xa9, 0x14] ++ body ++ [0x88, 0xac]
      else if ver = 0x1cbd ∨ ver = 0x1cba then [0xa9, 0x14] ++ body ++ [0x87]
      else []) =
      match fromVersion (zcashVersion ver) body size with
      | .ok d => d.script
      | .error _ => [] := by
  unfold zcashVersion
  by_cases h1 : ver = 0x1cb8
  · subst h1
    rfl
  by_cases h2 : ver = 0x1cbd
  · subst h2
    rfl
  by_cases h3 : ver = 0x1d25
  · subst h3
    rfl
  by_cases h4 : ver = 0x1cba
  · subst h4
    rfl
  rw [if_neg h1, if_neg h2, if_neg h3, if_neg h4, if_neg (by omega), if_neg (by omega)]
  rfl

/-- The script of an address is that of the decoded address, or none. -/
theorem taddrToScript_eq {s : Str} {raw : Bytes} (hraw : b58Decode s = some raw)
    (hlen : raw.length = 26) : taddrToScript (twice sha256) s =
      match fromBase58 sha256 raw with
      | .ok d => d.script
      | .error _ => [] := by
  obtain ⟨hbody, hsize⟩ := body_eq hlen
  have hverify : base58checkVerify sha256 raw =
      decide (base58Checksum sha256 (raw.take (raw.length - 4)) = raw.drop (raw.length - 4)) := by
    unfold base58checkVerify
    rw [if_neg (by omega)]
  have hsum : ((twice sha256 (raw.take (raw.length - 4))).bytes.take 4) =
      base58Checksum sha256 (raw.take (raw.length - 4)) := rfl
  unfold taddrToScript fromBase58
  rw [hraw]
  dsimp only
  rw [if_neg (not_not_intro hlen), if_neg (show ¬ raw.length < 5 by omega), hverify, hsum,
    if_pos hlen, dif_pos hsize]
  by_cases hcheck : base58Checksum sha256 (raw.take (raw.length - 4)) = raw.drop (raw.length - 4)
  · have hpass : ¬ (true = false) := by decide
    rw [if_neg (not_not_intro hcheck.symm), decide_eq_true hcheck, if_neg hpass, ← hbody]
    exact script_of_version hsize
  · rw [if_pos (Ne.symm hcheck), decide_eq_false hcheck, if_pos rfl]

/-- **The two decoders agree.** Both give the bytes of the number a text over
the alphabet spells, and fail on any other. Where these are twenty-six, the
script of a transparent address is that of the address decoded. -/
theorem decoders_agree (sha256 : Bytes → Hash256) (s : Str) :
    ((base58Number s).isSome = true ↔ ∀ c ∈ s, c ∈ base58Alphabet) ∧
    base58Decode s = (match base58Number s with
      | some n => .ok (base58Bytes s n)
      | none => .error .badCharacter) ∧
    b58Decode s = (base58Number s).map (base58Bytes s) ∧
    ∀ raw, base58Decode s = .ok raw → raw.length = 26 →
      (taddrToScript (twice sha256) s ≠ [] ↔ ∃ d, fromBase58 sha256 raw = .ok d) ∧
      ∀ d, fromBase58 sha256 raw = .ok d →
        bytesToHex (taddrToScript (twice sha256) s) = scriptPubkeyHex d := by
  have hvector := base58Decode_eq s
  refine ⟨numberFrom_isSome 0 s, ?_, b58Decode_eq s, fun raw hraw hlen => ?_⟩
  · rw [hvector]
    cases base58Number s <;> rfl
  · have hlist : b58Decode s = some raw := by
      rw [hvector] at hraw
      rw [b58Decode_eq]
      cases hn : base58Number s with
      | none =>
        rw [hn] at hraw
        cases hraw
      | some n =>
        rw [hn] at hraw
        cases hraw
        rfl
    rw [taddrToScript_eq hlist hlen]
    cases hd : fromBase58 sha256 raw with
    | error e =>
      refine ⟨⟨fun hne => absurd rfl hne, ?_⟩, ?_⟩
      · rintro ⟨d, h⟩
        cases h
      · rintro d h
        cases h
    | ok d =>
      dsimp only
      refine ⟨⟨fun _ => ⟨d, rfl⟩, fun _ hnil => ?_⟩, fun d' h => ?_⟩
      · have := d.script_length
        rw [hnil, List.length_nil] at this
        omega
      · cases h
        exact (scriptPubkeyHex_eq d).symm

end Addresses

end MkPool.Base58Agreement
