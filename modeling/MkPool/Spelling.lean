import Mathlib
import MkPool.Base58
import MkPool.Blacklist

/-! # The spellings of a destination

The blacklist and the grants know an address by the letters that were typed. A
destination has several spellings that `decode` accepts: the other case for
Bech32 and CashAddr, another version byte for Base58. -/
namespace MkPool.Spelling
open MkPool.Lib MkPool.Utils MkPool.Address MkPool.AddressDecode MkPool.Base58 MkPool.Blacklist

/-! ## Case -/

/-- `std::toupper` of every character. -/
def upperCase (s : Str) : Str := s.map Char.toUpper

/-- All letters are of one case. -/
def OneCase (s : Str) : Prop := hasUpper s = false ∨ hasLower s = false

theorem oneCase_iff {s : Str} : OneCase s ↔ (hasUpper s && hasLower s) = false := by
  unfold OneCase
  rw [Bool.and_eq_false_iff]

theorem oneCase_upperCase (s : Str) : OneCase (upperCase s) := by
  refine .inr ?_
  unfold hasLower upperCase
  rw [List.any_map, List.any_eq_false]
  exact fun c _ => by simp

theorem oneCase_lowerCase (s : Str) : OneCase (lowerCase s) := by
  refine .inl ?_
  unfold hasUpper lowerCase
  rw [List.any_map, List.any_eq_false]
  exact fun c _ => by simp

theorem OneCase.drop {s : Str} (h : OneCase s) (n : Nat) : OneCase (s.drop n) := by
  have sub {p : Char → Bool} (hp : s.any p = false) : (s.drop n).any p = false := by
    rw [List.any_eq_false] at hp ⊢
    exact fun c hc => hp c (List.mem_of_mem_drop hc)
  exact h.imp sub sub

@[simp] theorem lowerCase_upperCase (s : Str) : lowerCase (upperCase s) = lowerCase s := by
  unfold lowerCase upperCase
  rw [List.map_map]
  exact List.map_congr_left fun c _ => Char.toLower_toUpper_eq_toLower c

@[simp] theorem lowerCase_lowerCase (s : Str) : lowerCase (lowerCase s) = lowerCase s := by
  unfold lowerCase
  rw [List.map_map]
  exact List.map_congr_left fun c _ => Char.toLower_toLower_eq_toLower c

/-- A sign that is not a letter has no case. -/
theorem toLower_eq_iff {c x : Char} (hx : x.isAlpha = false) : c.toLower = x ↔ c = x := by
  constructor
  · rintro rfl
    have hc : ¬ c.isUpper := by
      intro hup
      rw [Char.isAlpha_toLower_eq_isAlpha] at hx
      simp [Char.isAlpha, hup] at hx
    rw [Char.toLower_eq_of_not_isUpper hc]
  · rintro rfl
    refine Char.toLower_eq_of_not_isUpper fun hup => ?_
    simp [Char.isAlpha, hup] at hx

theorem length_of_lowerCase {a b : Str} (h : lowerCase a = lowerCase b) : a.length = b.length := by
  simpa [lowerCase] using congrArg List.length h

theorem idxOf_colon (s : Str) : (lowerCase s).idxOf? ':' = s.idxOf? ':' := by
  unfold lowerCase List.idxOf?
  rw [List.findIdx?_map]
  congr 1
  funext c
  have h : c.toLower = ':' ↔ c = ':' := toLower_eq_iff (by decide)
  show (c.toLower == ':') = (c == ':')
  rw [Bool.eq_iff_iff]
  simpa using h

theorem contains_colon (s : Str) : (lowerCase s).contains ':' = s.contains ':' := by
  have h {c : Char} : c.toLower = ':' ↔ c = ':' := toLower_eq_iff (by decide)
  simp [lowerCase, h]

theorem lowerCase_parts {a b : Str} (h : lowerCase a = lowerCase b) :
    lowerCase (cashParts a).1 = lowerCase (cashParts b).1 ∧
      lowerCase (cashParts a).2 = lowerCase (cashParts b).2 := by
  have hidx : a.idxOf? ':' = b.idxOf? ':' := by rw [← idxOf_colon, h, idxOf_colon]
  unfold cashParts
  rw [hidx]
  cases b.idxOf? ':' with
  | none => exact ⟨rfl, h⟩
  | some colon =>
    have htake := congrArg (List.take colon) h
    have hdrop := congrArg (List.drop (colon + 1)) h
    unfold lowerCase at htake hdrop ⊢
    rw [← List.map_take, ← List.map_take] at htake
    rw [← List.map_drop, ← List.map_drop] at hdrop
    exact ⟨htake, hdrop⟩

theorem oneCase_payload {s : Str} (h : OneCase s) : OneCase (cashParts s).2 := by
  unfold cashParts
  split
  · exact h.drop _
  · exact h

/-- A CashAddr text is read by its letters. -/
theorem cashaddrDecode_congr {a b : Str} (h : lowerCase a = lowerCase b)
    (ha : OneCase (cashParts a).2) (hb : OneCase (cashParts b).2) :
    cashaddrDecode a = cashaddrDecode b := by
  obtain ⟨hhrp, hpayload⟩ := lowerCase_parts h
  unfold cashaddrDecode
  dsimp only
  rw [if_neg (by simp [oneCase_iff.mp ha]), if_neg (by simp [oneCase_iff.mp hb]), hhrp, hpayload]

theorem oneCase_of_cash {a : Str} {cad : CashDecoded} (h : cashaddrDecode a = .ok cad) :
    OneCase (cashParts a).2 := by
  unfold cashaddrDecode at h
  dsimp only at h
  split at h
  · cases h
  · rename_i hmixed
    exact oneCase_iff.mpr (by simpa using hmixed)

theorem bech32Decode_congr {a b hrp : Str} (h : lowerCase a = lowerCase b) (ha : OneCase a)
    (hb : OneCase b) : bech32Decode hrp a = bech32Decode hrp b := by
  unfold bech32Decode
  rw [if_neg (by simp [oneCase_iff.mp ha]), if_neg (by simp [oneCase_iff.mp hb]), h]

theorem oneCase_of_bech {a hrp : Str} {net : Network} {d : Decoded}
    (h : tryBech a hrp net = some d) : OneCase a := by
  unfold tryBech at h
  split at h
  · split at h
    · cases h
    · rename_i sw hsw
      unfold segwitDecode bech32Decode at hsw
      split at hsw
      · cases hsw
      · rename_i hmixed
        exact oneCase_iff.mpr (by simpa using hmixed)
  · cases h

/-! ## The branches of `decode` -/

/-- The first character decides little but its letter. -/
theorem prefixlessCash_lower (s : Str) : prefixlessCash (lowerCase s) = prefixlessCash s := by
  cases s with
  | nil => rfl
  | cons c s => simp [prefixlessCash, lowerCase]

theorem looksBech_lower (s hrp : Str) : looksBech (lowerCase s) hrp = looksBech s hrp := by
  have hchar (i : Nat) : (lowerCase s).getD i '\x00' = (s.getD i '\x00').toLower := by
    unfold lowerCase
    rw [List.getD_eq_getElem?_getD, List.getD_eq_getElem?_getD, List.getElem?_map]
    cases s[i]? <;> rfl
  have hone {c : Char} : c.toLower = '1' ↔ c = '1' := toLower_eq_iff (by decide)
  have hlen : (lowerCase s).length = s.length := List.length_map _
  unfold looksBech
  simp only [hchar, hlen, hone, Char.toLower_toLower_eq_toLower]

theorem tryBech_congr {a b : Str} (h : lowerCase a = lowerCase b) (ha : OneCase a)
    (hb : OneCase b) (hrp : Str) (net : Network) : tryBech a hrp net = tryBech b hrp net := by
  have hlooks : looksBech a hrp = looksBech b hrp := by
    rw [← looksBech_lower a, h, looksBech_lower]
  unfold tryBech segwitDecode
  rw [hlooks, bech32Decode_congr h ha hb]

theorem tryCash_congr {a b : Str} (h : lowerCase a = lowerCase b)
    (hdecode : cashaddrDecode a = cashaddrDecode b) : tryCash a = tryCash b := by
  have hcolon : a.contains ':' = b.contains ':' := by
    rw [← contains_colon a, h, contains_colon]
  have hfirst : prefixlessCash a = prefixlessCash b := by
    rw [← prefixlessCash_lower a, h, prefixlessCash_lower]
  unfold tryCash
  rw [hcolon, hfirst, hdecode]

/-- The branch that accepted an address. -/
inductive Accepted (sha256 : Bytes → Hash256) (a : Str) (d : Decoded) : Prop where
  | cash (h : tryCash a = some (.ok d))
  | bech (hcash : tryCash a = none)
      (h : (bechPrefixes.findSome? fun (hrp, net) => tryBech a hrp net) = some d)
  | base58 {raw : Bytes} (hraw : base58Decode a = .ok raw) (h : fromBase58 sha256 raw = .ok d)

theorem accepted_of_decode {sha256 : Bytes → Hash256} {a : Str} {d : Decoded}
    (h : decode sha256 a = .ok d) : Accepted sha256 a d := by
  unfold decode decodeImpl at h
  split at h
  · cases h
  · split at h
    · cases h
    · split at h
      · rename_i answer hcash
        exact .cash (h ▸ hcash)
      · rename_i hcash
        split at h
        · rename_i d' hbech
          cases h
          exact .bech hcash hbech
        · split at h
          · rename_i raw hraw
            exact .base58 hraw h
          · cases h

theorem bounds_of_decode {sha256 : Bytes → Hash256} {a : Str} {d : Decoded}
    (h : decode sha256 a = .ok d) : 0 < a.length ∧ a.length ≤ 128 := by
  unfold decode decodeImpl at h
  split at h
  · cases h
  · rename_i hempty
    split at h
    · cases h
    · rename_i hlong
      rw [List.isEmpty_iff] at hempty
      exact ⟨List.length_pos_iff.mpr hempty, by omega⟩

theorem cash_of_tryCash {a : Str} {d : Decoded} (h : tryCash a = some (.ok d)) :
    (a.contains ':' || prefixlessCash a) = true ∧
      ∃ cad, cashaddrDecode a = .ok cad ∧ fromCash cad = .ok d := by
  unfold tryCash at h
  dsimp only at h
  split at h
  · rename_i hcond
    split at h
    · rename_i cad hcad
      exact ⟨hcond, cad, hcad, Option.some.inj h⟩
    · split at h
      · cases Option.some.inj h
      · cases h
  · cases h

/-- An address of a cased format keeps its meaning in the other case. -/
theorem decode_recased {sha256 : Bytes → Hash256} {a b : Str} {d : Decoded}
    (h : decode sha256 a = .ok d) (hlower : lowerCase b = lowerCase a) (hb : OneCase b)
    (hcased : tryCash a = some (.ok d) ∨ tryCash a = none ∧
      (bechPrefixes.findSome? fun (hrp, net) => tryBech a hrp net) = some d) :
    decode sha256 b = .ok d := by
  obtain ⟨hpos, hlong⟩ := bounds_of_decode h
  have hlen := length_of_lowerCase hlower
  have hempty : b.isEmpty = false := by
    rw [List.isEmpty_eq_false_iff, ← List.length_pos_iff]
    omega
  unfold decode decodeImpl
  rw [hempty, if_neg (by decide), if_neg (by omega)]
  rcases hcased with hcash | ⟨hcash, hbech⟩
  · obtain ⟨_, cad, hcad, _⟩ := cash_of_tryCash hcash
    have hdecode := cashaddrDecode_congr hlower (oneCase_payload hb) (oneCase_of_cash hcad)
    rw [tryCash_congr hlower hdecode, hcash]
  · obtain ⟨⟨hrp, net⟩, _, hfound⟩ := List.exists_of_findSome?_eq_some hbech
    have ha := oneCase_of_bech hfound
    have hdecode := cashaddrDecode_congr hlower (oneCase_payload hb) (oneCase_payload ha)
    have hsame : (fun (p : Str × Network) => tryBech b p.1 p.2) =
        fun p => tryBech a p.1 p.2 := funext fun p => tryBech_congr hlower hb ha p.1 p.2
    have hfind : (bechPrefixes.findSome? fun (hrp, net) => tryBech b hrp net) = some d :=
      (congrArg (bechPrefixes.findSome? ·) hsame).trans hbech
    rw [tryCash_congr hlower hdecode, hcash]
    dsimp only
    rw [hfind]

/-! ## The first letter -/

theorem alpha_of_toLower {c x : Char} (h : c.toLower = x) (hx : x.isAlpha = true) :
    c.isAlpha = true := by
  rw [← Char.isAlpha_toLower_eq_isAlpha, h]
  exact hx

theorem letter_of_getD {a : Str} {x : Char} (h : (a.getD 0 '\x00').toLower = x)
    (hx : x.isAlpha = true) : ∃ c rest, a = c :: rest ∧ c.isAlpha = true := by
  cases a with
  | nil =>
    rw [← h] at hx
    exact absurd hx (by decide)
  | cons c rest => exact ⟨c, rest, rfl, alpha_of_toLower h hx⟩

/-- The prefix of a CashAddr is read in lower case. -/
theorem hrp_of_cash {a : Str} {cad : CashDecoded} (h : cashaddrDecode a = .ok cad) :
    cad.hrp = lowerCase (cashParts a).1 := by
  unfold cashaddrDecode at h
  dsimp only at h
  split at h
  · cases h
  · cases hvalues : charsetValues cashCharset (lowerCase (cashParts a).2) with
    | error e =>
      rw [hvalues] at h
      cases h
    | ok values =>
      rw [hvalues] at h
      simp only [bind, Except.bind] at h
      split at h
      · cases h
      · split at h
        · cases h
        · split at h
          · cases h
          · split at h
            · cases h
            · split at h
              · cases h
                rfl
              · cases h

theorem alpha_of_network {hrp : Str} {net : Network} (h : cashNetwork hrp = some net) :
    (hrp.getD 0 '\x00').isAlpha = true := by
  unfold cashNetwork at h
  split at h
  · rename_i hnames
    rcases hnames with rfl | rfl | rfl <;> decide
  · split at h
    · rename_i hnames
      rcases hnames with rfl | rfl <;> decide
    · split at h
      · rename_i hnames
        rcases hnames with rfl | rfl <;> decide
      · cases h

/-- An address of a cased format begins with a letter. -/
theorem letter_of_cash {a : Str} {d : Decoded} (h : tryCash a = some (.ok d)) :
    ∃ c rest, a = c :: rest ∧ c.isAlpha = true := by
  obtain ⟨hcond, cad, hcad, hfrom⟩ := cash_of_tryCash h
  cases hidx : a.idxOf? ':' with
  | none =>
    have hcolon : a.contains ':' = false := by simpa using List.idxOf?_eq_none_iff.mp hidx
    rw [hcolon, Bool.false_or] at hcond
    cases a with
    | nil => cases hcond
    | cons c rest =>
      unfold prefixlessCash at hcond
      simp only [Bool.or_eq_true, decide_eq_true_eq] at hcond
      rcases hcond with (hc | hc) | hc <;> exact ⟨c, rest, rfl, alpha_of_toLower hc (by decide)⟩
  | some colon =>
    obtain ⟨net, hnet⟩ : ∃ net, cashNetwork cad.hrp = some net := by
      unfold fromCash at hfrom
      split at hfrom
      · cases hfrom
      · rename_i net hnet
        exact ⟨net, hnet⟩
    have halpha := alpha_of_network hnet
    have hparts : (cashParts a).1 = a.take colon := by
      unfold cashParts
      rw [hidx]
    rw [hrp_of_cash hcad, hparts] at halpha
    cases a with
    | nil => cases hidx
    | cons c rest =>
      refine ⟨c, rest, rfl, ?_⟩
      cases colon with
      | zero =>
        rw [List.take_zero] at halpha
        exact absurd halpha (by decide)
      | succ n =>
        have hc : c.toLower.isAlpha = true := halpha
        rwa [Char.isAlpha_toLower_eq_isAlpha] at hc

theorem letter_of_bech {a : Str} {d : Decoded}
    (h : (bechPrefixes.findSome? fun (hrp, net) => tryBech a hrp net) = some d) :
    ∃ c rest, a = c :: rest ∧ c.isAlpha = true := by
  obtain ⟨⟨hrp, net⟩, hmem, hfound⟩ := List.exists_of_findSome?_eq_some h
  have halpha : (hrp.getD 0 '\x00').isAlpha = true := by
    have hall : ∀ p ∈ bechPrefixes, (p.1.getD 0 '\x00').isAlpha = true := by decide
    exact hall _ hmem
  have hlooks : looksBech a hrp = true := by
    by_contra hno
    simp only [tryBech, hno] at hfound
    cases hfound
  unfold looksBech at hlooks
  simp only [Bool.and_eq_true, decide_eq_true_eq] at hlooks
  exact letter_of_getD hlooks.1.1.2 halpha

/-- A text with a letter has two cases. -/
theorem other_case {a : Str} {c : Char} {rest : Str} (ha : a = c :: rest)
    (hc : c.isAlpha = true) : upperCase a ≠ a ∨ lowerCase a ≠ a := by
  by_contra hsame
  rw [not_or, not_not, not_not] at hsame
  have heq : upperCase a = lowerCase a := hsame.1.trans hsame.2.symm
  rw [ha] at heq
  have hhead : c.toUpper = c.toLower := (List.cons.inj heq).1
  have hup := Char.isUpper_toUpper_eq_isAlpha c
  rw [hhead, Char.isUpper_toLower_eq_false, hc] at hup
  cases hup

/-! ## Another version byte -/

section Versions

variable {sha256 : Bytes → Hash256}

/-- What a Base58Check text encodes. -/
def payload (sha256 : Bytes → Hash256) (version : UInt8) (program : Bytes) : Bytes :=
  (version :: program) ++ base58Checksum sha256 (version :: program)

theorem length_payload {version : UInt8} {program : Bytes} (h : program.length = 20) :
    (payload sha256 version program).length = 25 := by
  unfold payload base58Checksum
  rw [List.length_append, List.length_cons, h, List.length_take,
    (sha256 (sha256 (version :: program)).bytes).size]
  rfl

theorem fromBase58_payload {version : UInt8} {program : Bytes} (h : program.length = 20) :
    fromBase58 sha256 (payload sha256 version program)
      = fromVersion (base58Version version.toNat) program h := by
  have hlen : (payload sha256 version program).length = 25 := length_payload h
  have hbody : (payload sha256 version program).take 21 = version :: program :=
    List.take_left' (by rw [List.length_cons, h])
  have hsum : (payload sha256 version program).drop 21 =
      base58Checksum sha256 (version :: program) :=
    List.drop_left' (by rw [List.length_cons, h])
  have hverify : base58checkVerify sha256 (payload sha256 version program) = true := by
    unfold base58checkVerify
    rw [hlen, if_neg (by decide)]
    show decide (base58Checksum sha256 ((payload sha256 version program).take 21)
      = (payload sha256 version program).drop 21) = true
    rw [hbody, hsum]
    exact decide_eq_true rfl
  have hdrop : ((payload sha256 version program).take 21).drop 1 = program := by
    rw [hbody]
    rfl
  have hsame {found : Option (AddressType × Network)} {body : Bytes} (hb : body.length = 20)
      (he : body = program) : fromVersion found body hb = fromVersion found program h := by
    subst he
    rfl
  unfold fromBase58
  rw [hlen, hverify, if_neg (by decide), if_neg (by decide), if_neg (by decide)]
  dsimp only
  rw [dif_pos (by rw [hdrop, h])]
  exact hsame _ hdrop

theorem pays_of_version {found : Option (AddressType × Network)} {body : Bytes}
    {size : body.length = 20} {d : Decoded} (h : fromVersion found body size = .ok d) :
    (d.type = .p2pkh ∨ d.type = .p2sh) ∧ d.program.length = 20 := by
  unfold fromVersion at h
  split at h
  · cases h
    exact ⟨.inl rfl, size⟩
  · cases h
    exact ⟨.inr rfl, size⟩
  · cases h

/-- What a Base58 address pays. -/
theorem pays_of_base58 {raw : Bytes} {d : Decoded} (h : fromBase58 sha256 raw = .ok d) :
    (d.type = .p2pkh ∨ d.type = .p2sh) ∧ d.program.length = 20 := by
  unfold fromBase58 at h
  split at h
  · cases h
  · split at h
    · cases h
    · split at h
      · dsimp only at h
        split at h
        · exact pays_of_version h
        · cases h
      · dsimp only at h
        split at h
        · exact pays_of_version h
        · cases h

/-- The first characters of the texts with these versions, which no other branch
takes. -/
def firstChars : Str := ['1', '2', '3', 'm', 'n']

/-- The number of bytes with a version before them. -/
theorem value_of_version (version : UInt8) {rest : Bytes} (hlen : rest.length = 24) :
    version.toNat * 256 ^ 24 ≤ Wire.leValue (version :: rest).reverse ∧
      Wire.leValue (version :: rest).reverse < (version.toNat + 1) * 256 ^ 24 := by
  have hlt := Wire.leValue_lt rest.reverse
  rw [List.length_reverse, hlen] at hlt
  rw [List.reverse_cons, Wire.leValue_append, List.length_reverse, hlen]
  simp only [Wire.leValue]
  omega

theorem first_of_digit {version : UInt8} {rest : Bytes} (hv : version ≠ 0) {e k : Nat}
    (he : 0 < e) (hlt : e < 58) (hlow : e * 58 ^ k ≤ Wire.leValue (version :: rest).reverse)
    (hhigh : Wire.leValue (version :: rest).reverse < (e + 1) * 58 ^ k) :
    ∃ text, base58Encode (version :: rest) = base58Char e :: text := by
  have hzeros : (version :: rest).takeWhile (· == 0) = [] :=
    List.takeWhile_cons_of_neg (by simpa using hv)
  unfold base58Encode
  rw [hzeros]
  cases hds : (Nat.digits 58 (Wire.leValue (version :: rest).reverse)).reverse with
  | nil =>
    have hnil : Nat.digits 58 (Wire.leValue (version :: rest).reverse) = [] := by
      simpa using hds
    have hpos : 0 < e * 58 ^ k := Nat.mul_pos he (Nat.pow_pos (by omega))
    rw [Nat.digits_eq_nil_iff_eq_zero] at hnil
    omega
  | cons d ds =>
    obtain rfl := firstDigit hds he hlt hlow hhigh
    exact ⟨ds.map base58Char, rfl⟩

/-- The texts of these versions begin with a sign no other branch takes. -/
theorem first_of_version {version : UInt8} {rest : Bytes} (hlen : rest.length = 24)
    (hv : version ∈ [0x00, 0x6f, 0x05, 0xc4]) :
    ∃ c text, base58Encode (version :: rest) = c :: text ∧ c ∈ firstChars := by
  simp only [List.mem_cons, List.not_mem_nil, or_false] at hv
  rcases hv with rfl | rfl | rfl | rfl
  · exact ⟨'1', _, rfl, by decide⟩
  · obtain ⟨hlow, hhigh⟩ := value_of_version 0x6f hlen
    by_cases hm : Wire.leValue (0x6f :: rest).reverse < 45 * 58 ^ 33
    · obtain ⟨text, htext⟩ := first_of_digit (e := 44) (k := 33) (by decide) (by omega) (by omega)
        (le_trans (by decide) hlow) hm
      exact ⟨_, text, htext, by decide⟩
    · obtain ⟨text, htext⟩ := first_of_digit (e := 45) (k := 33) (by decide) (by omega) (by omega)
        (Nat.not_lt.mp hm) (lt_of_lt_of_le hhigh (by decide))
      exact ⟨_, text, htext, by decide⟩
  · obtain ⟨hlow, hhigh⟩ := value_of_version 0x05 hlen
    obtain ⟨text, htext⟩ := first_of_digit (e := 2) (k := 33) (by decide) (by omega) (by omega)
      (le_trans (by decide) hlow) (lt_of_lt_of_le hhigh (by decide))
    exact ⟨_, text, htext, by decide⟩
  · obtain ⟨hlow, hhigh⟩ := value_of_version 0xc4 hlen
    obtain ⟨text, htext⟩ := first_of_digit (e := 1) (k := 34) (by decide) (by omega) (by omega)
      (le_trans (by decide) hlow) (lt_of_lt_of_le hhigh (by decide))
    exact ⟨_, text, htext, by decide⟩

/-- The texts are short, and have no colon. -/
theorem length_encode_le {bs : Bytes} (h : bs.length = 25) : (base58Encode bs).length ≤ 128 := by
  have hvalue := Wire.leValue_lt bs.reverse
  rw [List.length_reverse, h] at hvalue
  have hdigits : (Nat.digits 58 (Wire.leValue bs.reverse)).length ≤ 35 := by
    rw [Nat.digits_length_le_iff (by omega)]
    exact lt_trans hvalue (by decide)
  have hzeros : (bs.takeWhile (· == 0)).length ≤ 25 := by
    rw [← h]
    exact (List.takeWhile_sublist _).length_le
  unfold base58Encode
  rw [List.length_append, List.length_replicate, List.length_map, List.length_reverse]
  omega

theorem no_colon_encode (bs : Bytes) : (base58Encode bs).contains ':' = false := by
  have hchar {d : Nat} (hd : d < 58) : base58Char d ≠ ':' := by
    intro he
    have hdigit := base58Digit_char hd
    rw [he] at hdigit
    cases hdigit
  rw [List.contains_eq_mem, decide_eq_false_iff_not]
  unfold base58Encode
  intro hmem
  rcases List.mem_append.mp hmem with hmem | hmem
  · have := (List.mem_replicate.mp hmem).2
    exact absurd this (by decide)
  · obtain ⟨d, hd, he⟩ := List.mem_map.mp hmem
    exact hchar (Nat.digits_lt_base (by omega) (List.mem_reverse.mp hd)) he

/-- The texts with these versions are read as Base58. -/
theorem decode_encode {version : UInt8} {rest : Bytes} (hlen : rest.length = 24)
    (hv : version ∈ [0x00, 0x6f, 0x05, 0xc4]) :
    decode sha256 (base58Encode (version :: rest)) = fromBase58 sha256 (version :: rest) := by
  have hshort : (base58Encode (version :: rest)).length ≤ 128 :=
    length_encode_le (by rw [List.length_cons, hlen])
  have hcolon := no_colon_encode (version :: rest)
  have hread := base58Decode_encode (version :: rest)
  obtain ⟨c, text, htext, hc⟩ := first_of_version hlen hv
  rw [htext] at hshort hcolon hread ⊢
  have hfirst : prefixlessCash (c :: text) = false := by
    have hall : (firstChars.all fun c =>
        !(c.toLower = 'q' || c.toLower = 'p' || c.toLower = 'r')) = true := by decide
    have hc' := List.all_eq_true.mp hall c hc
    unfold prefixlessCash
    simpa using hc'
  have hcash : tryCash (c :: text) = none := by
    unfold tryCash
    rw [hcolon, hfirst]
    rfl
  have hbech : (bechPrefixes.findSome? fun (hrp, net) => tryBech (c :: text) hrp net) = none := by
    rw [List.findSome?_eq_none_iff]
    intro p hp
    have hall : (bechPrefixes.all fun p => firstChars.all fun c =>
        !decide (c.toLower = p.1.getD 0 '\x00')) = true := by decide
    have hne : (c.toLower = p.1.getD 0 '\x00') = False := by
      have hc' := List.all_eq_true.mp (List.all_eq_true.mp hall p hp) c hc
      simpa using hc'
    have hlooks : looksBech (c :: text) p.1 = false := by
      unfold looksBech
      simp only [List.getD_cons_zero, hne, decide_false, Bool.and_false, Bool.false_and]
    show tryBech (c :: text) p.1 p.2 = none
    unfold tryBech
    rw [hlooks]
    rfl
  unfold decode decodeImpl
  rw [if_neg (by simp), if_neg (by omega), hcash, hbech, hread]

/-- The versions of the addresses that pay a key hash or a script hash. -/
theorem version_pays {version : UInt8} {type : AddressType}
    (h : (version, type) ∈ [((0x00 : UInt8), AddressType.p2pkh), (0x6f, .p2pkh), (0x05, .p2sh),
      (0xc4, .p2sh)]) {program : Bytes} (hp : program.length = 20) :
    ∃ d, decode sha256 (base58Encode (payload sha256 version program)) = .ok d ∧
      d.type = type ∧ d.program = program := by
  have hv : version ∈ [0x00, 0x6f, 0x05, 0xc4] := List.mem_map_of_mem (f := Prod.fst) h
  have hrest : (program ++ base58Checksum sha256 (version :: program)).length = 24 := by
    have hlen : (payload sha256 version program).length = 25 := length_payload hp
    have hcons : (payload sha256 version program).length =
      (program ++ base58Checksum sha256 (version :: program)).length + 1 := rfl
    omega
  have hdecode : decode sha256 (base58Encode (payload sha256 version program)) =
      fromBase58 sha256 (payload sha256 version program) := decode_encode hrest hv
  have hread : decode sha256 (base58Encode (payload sha256 version program)) =
      fromVersion (base58Version version.toNat) program hp :=
    hdecode.trans (fromBase58_payload hp)
  rw [hread]
  simp only [List.mem_cons, Prod.mk.injEq, List.not_mem_nil, or_false] at h
  rcases h with ⟨rfl, rfl⟩ | ⟨rfl, rfl⟩ | ⟨rfl, rfl⟩ | ⟨rfl, rfl⟩ <;> exact ⟨_, rfl, rfl, rfl⟩

end Versions

/-! ## What the policy sees -/

section Policy

variable {sha256 : Bytes → Hash256} {a : Str} {d : Decoded}

theorem scriptPubkeyHex_congr {d d' : Decoded} (ht : d'.type = d.type)
    (hp : d'.program = d.program) : scriptPubkeyHex d' = scriptPubkeyHex d := by
  unfold scriptPubkeyHex
  rw [ht, hp]

/-- A Base58 address has a text with another version. -/
theorem respelled_base58 {raw : Bytes} (hraw : base58Decode a = .ok raw)
    (h : fromBase58 sha256 raw = .ok d) :
    ∃ b d', b ≠ a ∧ decode sha256 b = .ok d' ∧ scriptPubkeyHex d' = scriptPubkeyHex d := by
  obtain ⟨htype, hp⟩ := pays_of_base58 h
  obtain ⟨v₁, v₂, hne, h₁, h₂⟩ : ∃ v₁ v₂ : UInt8, v₁ ≠ v₂ ∧
      (v₁, d.type) ∈ [((0x00 : UInt8), AddressType.p2pkh), (0x6f, .p2pkh), (0x05, .p2sh),
        (0xc4, .p2sh)] ∧
      (v₂, d.type) ∈ [((0x00 : UInt8), AddressType.p2pkh), (0x6f, .p2pkh), (0x05, .p2sh),
        (0xc4, .p2sh)] := by
    rcases htype with ht | ht <;> rw [ht]
    · exact ⟨0x00, 0x6f, by decide, by decide, by decide⟩
    · exact ⟨0x05, 0xc4, by decide, by decide, by decide⟩
  obtain ⟨v, hv, hother⟩ : ∃ v, (v, d.type) ∈ [((0x00 : UInt8), AddressType.p2pkh),
      (0x6f, .p2pkh), (0x05, .p2sh), (0xc4, .p2sh)] ∧ payload sha256 v d.program ≠ raw := by
    by_cases hfirst : payload sha256 v₁ d.program = raw
    · refine ⟨v₂, h₂, fun hsecond => hne ?_⟩
      exact (List.cons.inj (hfirst.trans hsecond.symm)).1
    · exact ⟨v₁, h₁, hfirst⟩
  obtain ⟨d', hdecode, ht, hprog⟩ :
      ∃ d', decode sha256 (base58Encode (payload sha256 v d.program)) = .ok d' ∧
        d'.type = d.type ∧ d'.program = d.program := version_pays hv hp
  refine ⟨_, d', fun hsame => hother ?_, hdecode, scriptPubkeyHex_congr ht hprog⟩
  have hread := base58Decode_encode (payload sha256 v d.program)
  rw [hsame, hraw] at hread
  exact (Except.ok.inj hread).symm

/-- **Every destination has two spellings at least.** -/
theorem respelled (h : decode sha256 a = .ok d) :
    ∃ b d', b ≠ a ∧ decode sha256 b = .ok d' ∧ scriptPubkeyHex d' = scriptPubkeyHex d := by
  have recased (hcased : tryCash a = some (.ok d) ∨ tryCash a = none ∧
      (bechPrefixes.findSome? fun (hrp, net) => tryBech a hrp net) = some d) {c : Char} {rest : Str}
      (ha : a = c :: rest) (hc : c.isAlpha = true) :
      ∃ b d', b ≠ a ∧ decode sha256 b = .ok d' ∧ scriptPubkeyHex d' = scriptPubkeyHex d := by
    rcases other_case ha hc with hne | hne
    · exact ⟨_, d, hne, decode_recased h (lowerCase_upperCase a) (oneCase_upperCase a) hcased, rfl⟩
    · exact ⟨_, d, hne, decode_recased h (lowerCase_lowerCase a) (oneCase_lowerCase a) hcased, rfl⟩
  cases accepted_of_decode h with
  | cash hcash =>
    obtain ⟨c, rest, ha, hc⟩ := letter_of_cash hcash
    exact recased (.inl hcash) ha hc
  | bech hcash hbech =>
    obtain ⟨c, rest, ha, hc⟩ := letter_of_bech hbech
    exact recased (.inr ⟨hcash, hbech⟩) ha hc
  | base58 hraw hfrom => exact respelled_base58 hraw hfrom

/-- The tables with a row for one text alone, blocked and granted. -/
def rowsOf (a : Str) : Tables where
  addressBlacklist := [a]
  workersBlacklist := []
  freeHashrateGrants := [a]

/-- The content that is loaded from one row. -/
def contentOf (a : Str) : Content := reload (some (rowsOf a)) {}

theorem blocked_contentOf {b : Str} (ha : a ≠ []) :
    addressBlocked (contentOf a) b = decide (b = a) ∧
      freeGranted (contentOf a) b = decide (b = a) := by
  have hrows : ([a].filter fun r => !r.isEmpty).toFinset = {a} := by simp [ha]
  have hblocked : (contentOf a).addresses = {a} := hrows
  have hgranted : (contentOf a).freeGrants = {a} := hrows
  unfold addressBlocked freeGranted
  simp [hblocked, hgranted]

theorem passes_contentOf {b worker : Str} (ha : a ≠ [])
    (hw : ¬ freeToken <:+: normalize worker) :
    Passes (view (contentOf a) b worker) ↔ b ≠ a := by
  have hfree : workerIsFree worker = false := by
    rw [← Bool.not_eq_true]
    exact fun h => hw ((findSub_isSome_iff _ _).mp h)
  have hword : workerBlocked (contentOf a) worker = false := by
    unfold workerBlocked contentOf reload rowsOf
    simp
  unfold Passes view
  simp [hfree, hword, (blocked_contentOf (b := b) ha).1]

/-- **The policy goes by the letters.** The answers are of the rows for a text
itself. Two texts of one destination are answered alike by every table only
where they are one text, and every destination has another: with a row for the
first alone, one is refused and the other let pass. -/
theorem policy_by_spelling (sha256 : Bytes → Hash256) (a : Str) (d : Decoded)
    (h : decode sha256 a = .ok d) :
    (∀ bl, (addressBlocked bl a = true ↔ a ∈ bl.addresses) ∧
      (freeGranted bl a = true ↔ a ∈ bl.freeGrants)) ∧
    (∀ b d', decode sha256 b = .ok d' → scriptPubkeyHex d' = scriptPubkeyHex d →
      ((∀ bl, addressBlocked bl b = addressBlocked bl a ∧ freeGranted bl b = freeGranted bl a) ↔
        b = a)) ∧
    ∃ b d', decode sha256 b = .ok d' ∧ scriptPubkeyHex d' = scriptPubkeyHex d ∧
      freeGranted (contentOf a) a = true ∧ freeGranted (contentOf a) b = false ∧
      ∀ worker, ¬ freeToken <:+: normalize worker →
        ¬ Passes (view (contentOf a) a worker) ∧ Passes (view (contentOf a) b worker) := by
  have ha : a ≠ [] := List.length_pos_iff.mp (bounds_of_decode h).1
  refine ⟨fun bl => ⟨decide_eq_true_iff, decide_eq_true_iff⟩,
    fun b d' _ _ => ⟨fun hall => ?_, ?_⟩, ?_⟩
  · have hblocked := (hall (contentOf a)).1
    rw [(blocked_contentOf ha).1, (blocked_contentOf ha).1] at hblocked
    simpa using hblocked
  · rintro rfl
    exact fun bl => ⟨rfl, rfl⟩
  · obtain ⟨b, d', hne, hdecode, hscript⟩ := respelled h
    refine ⟨b, d', hdecode, hscript, ?_, ?_, fun worker hw => ⟨?_, ?_⟩⟩
    · rw [(blocked_contentOf ha).2, decide_eq_true rfl]
    · rw [(blocked_contentOf ha).2, decide_eq_false hne]
    · rw [passes_contentOf ha hw]
      exact not_not_intro rfl
    · rw [passes_contentOf ha hw]
      exact hne

end Policy

/-! ## A Bech32 address -/

def sampleSha (_ : Bytes) : Hash256 := Hash256.zero

/-- An address that pays a witness key hash. -/
def sampleAddress : Str := "bc1qw508d6qejxtdg4y5r3zarvary0c5xw7kv8f3t4".toList

theorem decode_sample : ∃ d d', decode sampleSha sampleAddress = .ok d ∧
    decode sampleSha (upperCase sampleAddress) = .ok d' ∧
    scriptPubkeyHex d' = scriptPubkeyHex d := by
  have h : (match decode sampleSha sampleAddress, decode sampleSha (upperCase sampleAddress) with
      | .ok d, .ok d' => decide (scriptPubkeyHex d' = scriptPubkeyHex d)
      | _, _ => false) = true := by
    decide +kernel
  split at h
  · rename_i d d' hd hd'
    exact ⟨d, d', hd, hd', of_decide_eq_true h⟩
  · cases h

/-- With a row for the address in lower case, it passes in upper case. -/
theorem policy_by_spelling_sample : ∃ d, decode sampleSha sampleAddress = .ok d ∧
    ∃ b d', decode sampleSha b = .ok d' ∧ scriptPubkeyHex d' = scriptPubkeyHex d ∧
      ¬ Passes (view (contentOf sampleAddress) sampleAddress "0".toList) ∧
      Passes (view (contentOf sampleAddress) b "0".toList) := by
  obtain ⟨d, _, hd, _⟩ := decode_sample
  obtain ⟨_, _, b, d', hb, hscript, _, _, hpass⟩ := policy_by_spelling sampleSha sampleAddress d hd
  have hworker : ¬ freeToken <:+: normalize "0".toList := by
    rw [← findSub_isSome_iff]
    decide +kernel
  exact ⟨d, hd, b, d', hb, hscript, hpass _ hworker⟩

/-- **One destination, two answers.** A row in lower case does not block the
same address in upper case. -/
theorem upper_case_not_blocked : ∃ (sha256 : Bytes → Hash256) (bl : Content) (a b : Str)
    (d d' : Decoded), decode sha256 a = .ok d ∧ decode sha256 b = .ok d' ∧
      scriptPubkeyHex d' = scriptPubkeyHex d ∧ addressBlocked bl a ≠ addressBlocked bl b ∧
      freeGranted bl a ≠ freeGranted bl b := by
  obtain ⟨d, d', hd, hd', hscript⟩ := decode_sample
  refine ⟨sampleSha, contentOf sampleAddress, sampleAddress, upperCase sampleAddress, d, d', hd,
    hd', hscript, ?_, ?_⟩ <;> decide +kernel

end MkPool.Spelling
