import MkPool.JsonText

/-! # What is written is read back

`dump` writes exactly the objects whose strings are UTF-8, on one line, and the
parser returns what was written. -/
namespace MkPool.JsonText
open MkPool.Utils MkPool.JsonValue MkPool.Lib

/-! ## Strings -/

theorem escapeFrom_isSome (s : Str) (rs : List Utf8.Range) :
    (escapeFrom rs s).isSome = Utf8.validFrom rs s := by
  induction s generalizing rs with
  | nil => cases rs <;> rfl
  | cons c s ih =>
    cases rs with
    | nil =>
      unfold escapeFrom Utf8.validFrom
      cases Utf8.follow c with
      | none => rfl
      | some rs => simp [ih]
    | cons r rs =>
      unfold escapeFrom Utf8.validFrom
      cases r.holds c
      · rfl
      · simp [ih]

/-- `dump` throws exactly where the text is not UTF-8. -/
theorem dumpString_isSome (s : Str) : (dumpString s).isSome = Utf8.valid s := by
  rw [dumpString, Option.isSome_map, escapeFrom_isSome, Utf8.valid]

theorem hex4_control {n : Nat} (h : n < 0x20) :
    hex4 n = ['0', '0', Hex.digit (n / 16), Hex.digit (n % 16)] := by
  revert n
  decide

theorem scanString_step {st st' : Scan} {c : Char} {out s : Str}
    (hc : ¬ (st = .text [] ∧ c = '"')) (h : st.step c = some (out, st')) :
    scanString st (c :: s) = (scanString st' s).map (Prod.map (out ++ ·) id) := by
  rw [scanString, if_neg hc, h]
  rfl

theorem scanString_skip {st st' : Scan} {c : Char} {s : Str}
    (hc : ¬ (st = .text [] ∧ c = '"')) (h : st.step c = some ([], st')) :
    scanString st (c :: s) = scanString st' s := by
  rw [scanString_step hc h]
  cases scanString st' s <;> rfl

theorem scanString_hex {high : Option Nat} {missing value d : Nat} {s : Str} (hd : d < 16)
    (hm : 1 < missing) :
    scanString (.hex high missing value) (Hex.digit d :: s) =
      scanString (.hex high (missing - 1) (16 * value + d)) s := by
  have hstep : (Scan.hex high missing value).step (Hex.digit d) =
      some ([], .hex high (missing - 1) (16 * value + d)) := by
    simp only [Scan.step, Hex.nibble_digit hd, Option.bind_some]
    rw [if_neg (by omega)]
  exact scanString_skip (by simp) hstep

/-- An escape stands for its character. -/
theorem scanString_escapeChar {c : Char} {rs : List Utf8.Range} (h : Utf8.follow c = some rs)
    (s : Str) :
    scanString (.text []) (escapeChar c ++ s) =
      (scanString (.text rs) s).map (Prod.map (c :: ·) id) := by
  have short {e d : Char} (hd : d ≠ 'u') (hu : unescape d = some e) (he : Utf8.follow e = some rs)
      (ha : e.toNat < 0x80) :
      scanString (.text []) ('\\' :: d :: s) =
        (scanString (.text rs) s).map (Prod.map (e :: ·) id) := by
    obtain rfl : [] = rs := Option.some.inj ((Utf8.follow_ascii ha).symm.trans he)
    have hslash : (Scan.text []).step '\\' = some ([], .escape) := rfl
    have hletter : Scan.escape.step d = some ([e], .text []) := by
      simp only [Scan.step, if_neg hd, hu, Option.map_some]
    rw [scanString_skip (by decide) hslash, scanString_step (by simp) hletter]
    rfl
  unfold escapeChar
  split_ifs with h1 h2 h3 h4 h5 h6 h7 h8
  · exact short (by decide) (by rw [h1]; rfl) h (by rw [h1]; decide)
  · exact short (by decide) (by rw [h2]; rfl) h (by rw [h2]; decide)
  · exact short (by decide) (by rw [h3]; rfl) h (by rw [h3]; decide)
  · exact short (by decide) (by rw [h4]; rfl) h (by rw [h4]; decide)
  · exact short (by decide) (by rw [h5]; rfl) h (by rw [h5]; decide)
  · exact short (by decide) (by rw [h6]; rfl) h (by rw [h6]; decide)
  · exact short (by decide) (by rw [h7]; rfl) h (by rw [h7]; decide)
  · have hslash : (Scan.text []).step '\\' = some ([], .escape) := rfl
    have hletter : Scan.escape.step 'u' = some ([], .hex none 4 0) := rfl
    have hlast : (Scan.hex none 1 (c.toNat / 16)).step (Hex.digit (c.toNat % 16)) =
        some ([c], .text []) := by
      simp only [Scan.step, Hex.nibble_digit (Nat.mod_lt _ (by omega : 0 < 16)), Option.bind_some,
        Scan.codepoint]
      rw [if_pos (by omega), if_neg (by omega), if_neg (by omega), Utf8.encode_ascii (by omega),
        Nat.div_add_mod, Char.ofNat_toNat]
    obtain rfl : [] = rs := Option.some.inj ((Utf8.follow_ascii (by omega)).symm.trans h)
    rw [hex4_control h8]
    simp only [List.cons_append, List.nil_append]
    rw [scanString_skip (by decide) hslash, scanString_skip (by simp) hletter,
      show ('0' : Char) = Hex.digit 0 from rfl, scanString_hex (by omega) (by omega),
      scanString_hex (by omega) (by omega), scanString_hex (by omega) (by omega),
      show 16 * (16 * (16 * 0 + 0) + 0) + c.toNat / 16 = c.toNat / 16 by omega,
      scanString_step (by simp) hlast]
    rfl
  · have hstep : (Scan.text []).step c = some ([c], .text rs) := by
      simp only [Scan.step, if_neg h7, if_neg h8, h, Option.map_some]
    rw [List.singleton_append, scanString_step (by simp [h6]) hstep]
    rfl

theorem scanString_escapeFrom {s body : Str} {rs : List Utf8.Range}
    (h : escapeFrom rs s = some body) (rest : Str) :
    scanString (.text rs) (body ++ '"' :: rest) = some (s, rest) := by
  induction s generalizing rs body with
  | nil =>
    cases rs with
    | nil =>
      cases h
      rfl
    | cons => cases h
  | cons c s ih =>
    cases rs with
    | nil =>
      unfold escapeFrom at h
      cases hf : Utf8.follow c with
      | none => simp [hf] at h
      | some rs =>
        rw [hf] at h
        obtain ⟨b, hb, rfl⟩ := Option.map_eq_some_iff.mp h
        rw [List.append_assoc, scanString_escapeChar hf, ih hb]
        rfl
    | cons r rs =>
      unfold escapeFrom at h
      split at h
      · rename_i hr
        obtain ⟨b, hb, rfl⟩ := Option.map_eq_some_iff.mp h
        have hstep : (Scan.text (r :: rs)).step c = some ([c], .text rs) := if_pos hr
        rw [List.cons_append, scanString_step (by simp) hstep, ih hb]
        rfl
      · cases h

/-- Characters that are written as they stand. -/
def Plain (c : Char) : Prop := 0x20 ≤ c.toNat ∧ c.toNat < 0x80 ∧ c ≠ '"' ∧ c ≠ '\\'

instance : DecidablePred Plain := fun _ => inferInstanceAs (Decidable (_ ∧ _))

theorem escapeChar_plain {c : Char} (h : Plain c) : escapeChar c = [c] := by
  have low (d : Char) (hd : d.toNat < 0x20) : c ≠ d := by
    rintro rfl
    exact absurd h.1 (by omega)
  have hcontrol : ¬ c.toNat < 0x20 := by have := h.1; omega
  simp only [escapeChar, if_neg (low '\x08' (by decide)), if_neg (low '\t' (by decide)),
    if_neg (low '\n' (by decide)), if_neg (low '\x0c' (by decide)), if_neg (low '\r' (by decide)),
    if_neg h.2.2.1, if_neg h.2.2.2, if_neg hcontrol]

theorem dumpString_plain {s : Str} (h : ∀ c ∈ s, Plain c) :
    dumpString s = some ('"' :: s ++ ['"']) := by
  have hbody : escapeFrom [] s = some s := by
    induction s with
    | nil => rfl
    | cons c s ih =>
      rw [List.forall_mem_cons] at h
      unfold escapeFrom
      simp only [Utf8.follow_ascii h.1.2.1, ih h.2, escapeChar_plain h.1]
      rfl
  rw [dumpString, hbody]
  rfl

/-- Nothing below a blank is left in a written string. -/
theorem printable_escapeChar {c d : Char} (h : d ∈ escapeChar c) : 0x20 ≤ d.toNat := by
  have among {s : Str} (hs : s.all (fun d => 0x20 ≤ d.toNat) = true) (hd : d ∈ s) :
      0x20 ≤ d.toNat := of_decide_eq_true (List.all_eq_true.mp hs d hd)
  unfold escapeChar at h
  split_ifs at h with h1 h2 h3 h4 h5 h6 h7 h8
  · exact among (by decide) h
  · exact among (by decide) h
  · exact among (by decide) h
  · exact among (by decide) h
  · exact among (by decide) h
  · exact among (by decide) h
  · exact among (by decide) h
  · have hall : ∀ n < 0x20, ('\\' :: 'u' :: hex4 n).all (fun d => 0x20 ≤ d.toNat) = true := by
      decide
    exact among (hall _ h8) h
  · rw [List.mem_singleton.mp h]
    omega

theorem printable_escapeFrom {s body : Str} {rs : List Utf8.Range}
    (hrs : ∀ r ∈ rs, 0x20 ≤ r.lo) (h : escapeFrom rs s = some body) :
    ∀ d ∈ body, 0x20 ≤ d.toNat := by
  induction s generalizing rs body with
  | nil =>
    cases rs with
    | nil =>
      cases h
      exact fun d hd => absurd hd List.not_mem_nil
    | cons => cases h
  | cons c s ih =>
    cases rs with
    | nil =>
      unfold escapeFrom at h
      cases hf : Utf8.follow c with
      | none => simp [hf] at h
      | some rs =>
        rw [hf] at h
        obtain ⟨b, hb, rfl⟩ := Option.map_eq_some_iff.mp h
        intro d hd
        rcases List.mem_append.mp hd with hd | hd
        · exact printable_escapeChar hd
        · exact ih (fun r hr => (Nat.le_add_left _ _).trans (Utf8.lo_follow hf r hr)) hb d hd
    | cons r rs =>
      unfold escapeFrom at h
      split at h
      · rename_i hr
        obtain ⟨b, hb, rfl⟩ := Option.map_eq_some_iff.mp h
        intro d hd
        rcases List.mem_cons.mp hd with rfl | hd
        · have hlo := hrs r List.mem_cons_self
          simp only [Utf8.Range.holds, Bool.and_eq_true, decide_eq_true_eq] at hr
          omega
        · exact ih (fun r hr => hrs r (List.mem_cons_of_mem _ hr)) hb d hd
      · cases h

theorem printable_dumpString {s out : Str} (h : dumpString s = some out) :
    ∀ d ∈ out, 0x20 ≤ d.toNat := by
  obtain ⟨body, hb, rfl⟩ := Option.map_eq_some_iff.mp h
  have hbody := printable_escapeFrom (by simp) hb
  intro d hd
  simp only [List.cons_append, List.mem_cons, List.mem_append, List.not_mem_nil, or_false] at hd
  rcases hd with rfl | hd | rfl
  · decide
  · exact hbody d hd
  · decide

/-! ## Numbers -/

theorem leading_toDigits {n : Nat} {ds : Str} (h : Nat.toDigits 10 n = '0' :: ds) : n = 0 := by
  induction n using Nat.strongRecOn generalizing ds with
  | ind n ih =>
    by_cases hn : n < 10
    · have hzero : ∀ k < 10, k.digitChar = '0' → k = 0 := by decide
      rw [Nat.toDigits_of_lt_base hn] at h
      exact hzero n hn (List.cons.inj h).1
    · rw [Nat.toDigits_of_base_le (by omega) (by omega)] at h
      cases hd : Nat.toDigits 10 (n / 10) with
      | nil => exact absurd hd Nat.toDigits_ne_nil
      | cons c cs =>
        rw [hd] at h
        obtain ⟨rfl, -⟩ := List.cons.inj h
        have := ih (n / 10) (by omega) hd
        omega

/-- What may follow a number without being a part of it. -/
def Ends (s : Str) : Prop := ∃ c t, s = c :: t ∧ (c = ',' ∨ c = '\x7d')

theorem digits_append {ds t : Str} (hds : ∀ c ∈ ds, c.isDigit = true) (ht : Ends t) :
    digits (ds ++ t) = (ds, t) := by
  have hstop : t.span Char.isDigit = ([], t) := by
    obtain ⟨c, t, rfl, rfl | rfl⟩ := ht <;> rfl
  rw [digits, List.span_eq_takeWhile_dropWhile, List.takeWhile_append_of_pos hds,
    List.dropWhile_append_of_pos hds]
  rw [List.span_eq_takeWhile_dropWhile, Prod.mk.injEq] at hstop
  rw [hstop.1, hstop.2, List.append_nil]

theorem scanNumber_toDigits (strtod : Str → Option ℚ) {n : Nat} (hn : n < 2 ^ 64) {t : Str}
    (ht : Ends t) :
    scanNumber strtod (Nat.toDigits 10 n ++ t) = some (.unsigned n, t) := by
  have hds : ∀ c ∈ Nat.toDigits 10 n, c.isDigit = true := fun c hc =>
    Nat.isDigit_of_mem_toDigits (by omega) (by omega) hc
  have hwhole : scanWhole (Nat.toDigits 10 n ++ t) = some (Nat.toDigits 10 n, t) := by
    cases hd : Nat.toDigits 10 n with
    | nil => exact absurd hd Nat.toDigits_ne_nil
    | cons c cs =>
      by_cases hc : c = '0'
      · subst hc
        obtain rfl := leading_toDigits hd
        cases hd
        rfl
      · have happ := digits_append (hd ▸ hds) ht
        rw [List.cons_append] at happ ⊢
        rw [scanWhole]
        · rw [scanDigits, happ]
        · intro s hs
          exact hc (List.cons.inj hs).1
  have hfraction : scanFraction t = some ([], t) := by
    obtain ⟨c, t, rfl, rfl | rfl⟩ := ht <;> rfl
  have hexponent : scanExponent t = some ([], t) := by
    obtain ⟨c, t, rfl, rfl | rfl⟩ := ht <;> rfl
  have hvalue : number strtod false (Nat.toDigits 10 n) [] = some (.unsigned n) := by
    rw [number, if_pos]
    · rw [Nat.ofDigitChars_ten_toDigits]
    · rw [Nat.ofDigitChars_ten_toDigits]
      exact ⟨rfl, rfl, hn⟩
  have hunsigned : scanUnsigned strtod false (Nat.toDigits 10 n ++ t) = some (.unsigned n, t) := by
    rw [scanUnsigned, hwhole]
    simp [hfraction, hexponent, hvalue]
  cases hd : Nat.toDigits 10 n with
  | nil => exact absurd hd Nat.toDigits_ne_nil
  | cons c cs =>
    rw [hd] at hunsigned
    rw [List.cons_append] at hunsigned ⊢
    rw [scanNumber]
    · exact hunsigned
    · intro s hs
      have hc : c.isDigit = true := hds c (hd ▸ List.mem_cons_self)
      rw [(List.cons.inj hs).1] at hc
      exact absurd hc (by decide)

/-! ## Tokens -/

theorem scanString_shorter {st : Scan} {s t rest : Str} (h : scanString st s = some (t, rest)) :
    rest.length < s.length := by
  induction s generalizing st t with
  | nil => cases h
  | cons c s ih =>
    unfold scanString at h
    split at h
    · cases h
      exact Nat.lt_succ_self _
    · obtain ⟨⟨out, st'⟩, -, h⟩ := Option.bind_eq_some_iff.mp h
      obtain ⟨⟨t', rest'⟩, ht, heq⟩ := Option.map_eq_some_iff.mp h
      cases heq
      exact Nat.lt_succ_of_lt (ih ht)

theorem scanDigits_shorter {s ds rest : Str} (h : scanDigits s = some (ds, rest)) :
    rest.length < s.length := by
  have hsplit : (digits s).1 ++ (digits s).2 = s := by
    rw [digits, List.span_eq_takeWhile_dropWhile, List.takeWhile_append_dropWhile]
  unfold scanDigits at h
  split at h
  · cases h
  · rename_i hne
    have heq := Option.some.inj h
    rw [heq] at hsplit
    have hpos : 0 < ds.length := List.length_pos_iff.mpr fun hnil =>
      hne rest (by rw [heq, hnil])
    have hlen : ds.length + rest.length = s.length := by rw [← hsplit, List.length_append]
    omega

theorem scanWhole_shorter {s ds rest : Str} (h : scanWhole s = some (ds, rest)) :
    rest.length < s.length := by
  unfold scanWhole at h
  split at h
  · cases h
    exact Nat.lt_succ_self _
  · exact scanDigits_shorter h

theorem scanFraction_shorter {s ds rest : Str} (h : scanFraction s = some (ds, rest)) :
    rest.length ≤ s.length := by
  unfold scanFraction at h
  split at h
  · obtain ⟨⟨t, more⟩, ht, heq⟩ := Option.map_eq_some_iff.mp h
    cases heq
    exact (scanDigits_shorter ht).le.trans (Nat.le_succ _)
  · cases h
    exact le_rfl

theorem scanExponent_shorter {s ds rest : Str} (h : scanExponent s = some (ds, rest)) :
    rest.length ≤ s.length := by
  unfold scanExponent at h
  split at h
  · cases h
    exact le_rfl
  · split at h
    · split at h
      · cases h
      · split at h
        · obtain ⟨⟨t, more⟩, ht, heq⟩ := Option.map_eq_some_iff.mp h
          cases heq
          exact (scanDigits_shorter ht).le.trans (by simp only [List.length_cons]; omega)
        · obtain ⟨⟨t, more⟩, ht, heq⟩ := Option.map_eq_some_iff.mp h
          cases heq
          exact (scanDigits_shorter ht).le.trans (Nat.le_succ _)
    · cases h
      exact le_rfl

theorem scanUnsigned_shorter {strtod : Str → Option ℚ} {negative : Bool} {s rest : Str} {v : Json}
    (h : scanUnsigned strtod negative s = some (v, rest)) : rest.length < s.length := by
  obtain ⟨⟨whole, s₁⟩, hwhole, h⟩ := Option.bind_eq_some_iff.mp h
  obtain ⟨⟨fraction, s₂⟩, hfraction, h⟩ := Option.bind_eq_some_iff.mp h
  obtain ⟨⟨exponent, s₃⟩, hexponent, h⟩ := Option.bind_eq_some_iff.mp h
  obtain ⟨w, -, h⟩ := Option.bind_eq_some_iff.mp h
  cases h
  calc rest.length ≤ s₂.length := scanExponent_shorter hexponent
    _ ≤ s₁.length := scanFraction_shorter hfraction
    _ < s.length := scanWhole_shorter hwhole

theorem scanNumber_shorter {strtod : Str → Option ℚ} {s rest : Str} {v : Json}
    (h : scanNumber strtod s = some (v, rest)) : rest.length < s.length := by
  unfold scanNumber at h
  split at h
  · exact (scanUnsigned_shorter h).trans (Nat.lt_succ_self _)
  · exact scanUnsigned_shorter h

/-- A token takes at least one byte. -/
theorem scan_shorter {strtod : Str → Option ℚ} {s rest : Str} {t : Token}
    (h : scan strtod s = some (t, rest)) (ht : t ≠ .endOfInput) : rest.length < s.length := by
  have hspace : (s.dropWhile isSpace).length ≤ s.length := (List.dropWhile_suffix _).length_le
  unfold scan at h
  split at h
  · cases h
    exact absurd rfl ht
  · rename_i c more hs
    rw [hs, List.length_cons] at hspace
    split_ifs at h
    · cases h
      exact absurd rfl ht
    all_goals first
      | (cases h; exact hspace)
      | obtain ⟨⟨v, r⟩, hv, heq⟩ := Option.map_eq_some_iff.mp h
        cases heq
    · exact (scanString_shorter hv).trans hspace
    · exact Nat.lt_of_lt_of_le (scanNumber_shorter hv) hspace
    · unfold scanLiteral at hv
      split_ifs at hv <;> cases hv <;> simp only [List.length_drop, List.length_cons] <;> omega

/-- More fuel than bytes changes nothing. -/
theorem tokens_enough (strtod : Str → Option ℚ) {f g : Nat} {s : Str} (hf : s.length < f)
    (hg : s.length < g) : tokens strtod f s = tokens strtod g s := by
  induction f generalizing g s with
  | zero => omega
  | succ f ih =>
    cases g with
    | zero => omega
    | succ g =>
      unfold tokens
      cases hscan : scan strtod s with
      | none => rfl
      | some r =>
        obtain ⟨t, rest⟩ := r
        cases t
        case endOfInput => rfl
        all_goals
          have hrest := scan_shorter hscan (by simp)
          simp only [Option.bind_some]
          rw [ih (by omega) (by omega : rest.length < g)]

theorem lex_cons {strtod : Str → Option ℚ} {s rest : Str} {t : Token}
    (h : scan strtod s = some (t, rest)) (ht : t ≠ .endOfInput) :
    lex strtod s = (lex strtod rest).map (t :: ·) := by
  have hrest := scan_shorter h ht
  have hfuel : tokens strtod s.length rest = lex strtod rest :=
    tokens_enough strtod hrest (Nat.lt_succ_self _)
  rw [lex, tokens, h, Option.bind_some, ← hfuel]
  cases t with
  | endOfInput => exact absurd rfl ht
  | _ => rfl

/-! ## Objects -/

section

variable {strtod : Str → Option ℚ}

theorem lex_dumpString {s out rest : Str} (h : dumpString s = some out) :
    lex strtod (out ++ rest) = (lex strtod rest).map (.atom (.string s) :: ·) := by
  obtain ⟨body, hb, rfl⟩ := Option.map_eq_some_iff.mp h
  have hstring : scanString (.text []) (body ++ '"' :: rest) = some (s, rest) :=
    scanString_escapeFrom hb rest
  have hscan : scan strtod ('"' :: (body ++ '"' :: rest)) = some (.atom (.string s), rest) := by
    rw [scan, List.dropWhile_cons_of_neg (by decide)]
    simp [hstring]
  rw [List.cons_append, List.cons_append, List.append_assoc, List.singleton_append]
  exact lex_cons hscan (by simp)

theorem lex_toDigits {n : Nat} (hn : n < 2 ^ 64) {rest : Str} (hrest : Ends rest) :
    lex strtod (Nat.toDigits 10 n ++ rest) =
      (lex strtod rest).map (.atom (.unsigned n) :: ·) := by
  refine lex_cons ?_ (by simp)
  have hnumber := scanNumber_toDigits strtod hn hrest
  cases hd : Nat.toDigits 10 n with
  | nil => exact absurd hd Nat.toDigits_ne_nil
  | cons c cs =>
    have hc : c.isDigit = true :=
      Nat.isDigit_of_mem_toDigits (by omega) (by omega) (hd ▸ List.mem_cons_self)
    have other (d : Char) (hd : d.isDigit = false) : c ≠ d := by
      rintro rfl
      rw [hc] at hd
      cases hd
    have hspace : isSpace c = false := by
      simp [isSpace, other ' ' rfl, other '\t' rfl, other '\n' rfl, other '\r' rfl]
    rw [hd, List.cons_append] at hnumber
    rw [List.cons_append, scan, List.dropWhile_cons_of_neg (by simp [hspace])]
    simp only [if_neg (other '\x00' rfl), if_neg (other '\x7b' rfl), if_neg (other '\x7d' rfl),
      if_neg (other '[' rfl), if_neg (other ']' rfl), if_neg (other ':' rfl),
      if_neg (other ',' rfl), if_neg (other '"' rfl), hc, Bool.or_true, if_true, hnumber]
    rfl

/-- A whole number of a field has 64 bits. -/
def Field.Fits : Field → Prop
  | .text _ => True
  | .number n => n < 2 ^ 64

theorem lex_field {f : Field} {out rest : Str} (h : f.dump = some out) (hf : f.Fits)
    (hrest : Ends rest) :
    lex strtod (out ++ rest) = (lex strtod rest).map (.atom f.json :: ·) := by
  cases f with
  | text s => exact lex_dumpString h
  | number n =>
    obtain rfl : Nat.toDigits 10 n = out := by
      rw [← Nat.toList_repr]
      exact Option.some.inj h
    exact lex_toDigits hf hrest

theorem lex_member {f : Str × Field} {out rest : Str} (h : dumpMember f = some out)
    (hf : f.2.Fits) (hrest : Ends rest) :
    lex strtod (out ++ rest) =
      (lex strtod rest).map ([.atom (.string f.1), .colon, .atom f.2.json] ++ ·) := by
  obtain ⟨key, hkey, h⟩ := Option.bind_eq_some_iff.mp h
  obtain ⟨v, hv, h⟩ := Option.bind_eq_some_iff.mp h
  cases h
  rw [List.append_assoc, lex_dumpString hkey, List.cons_append, lex_cons rfl (by simp),
    lex_field hv hf hrest]
  cases lex strtod rest <;> rfl

/-- The state waits for a key of an object with these members. -/
def State.AwaitsKey (st : State) (fields : List (Str × Json)) (stack : List Context) : Prop :=
  st = .nextKey fields stack ∨ (st = .objectStart stack ∧ fields = [])

theorem State.AwaitsKey.step {st : State} {fields : List (Str × Json)} {stack : List Context}
    (h : st.AwaitsKey fields stack) (key : Str) (v : Json) :
    [.atom (.string key), .colon, .atom v].foldlM State.step st =
      some (.after v (.member fields key :: stack)) := by
  rcases h with rfl | ⟨rfl, rfl⟩ <;> rfl

/-- Each member in turn is set in the object. -/
def setFields (fields : List (Str × Json)) (fs : List (Str × Field)) : List (Str × Json) :=
  fs.foldl (fun obj f => setField f.1 f.2.json obj) fields

theorem lex_members {fs : List (Str × Field)} {out rest : Str} (h : dumpMembers fs = some out)
    (hne : fs ≠ []) (hfits : ∀ f ∈ fs, f.2.Fits) {st : State} {fields : List (Str × Json)}
    {stack : List Context} (hst : st.AwaitsKey fields stack) :
    ∃ ts, lex strtod (out ++ '\x7d' :: rest) = (lex strtod rest).map (ts ++ ·) ∧
      ts.foldlM State.step st = some (.after (.object (setFields fields fs)) stack) := by
  induction fs generalizing out st fields with
  | nil => exact absurd rfl hne
  | cons f fs ih =>
    have hf := hfits f List.mem_cons_self
    cases fs with
    | nil =>
      refine ⟨[.atom (.string f.1), .colon, .atom f.2.json] ++ [.endObject], ?_, ?_⟩
      · rw [lex_member h hf ⟨_, _, rfl, Or.inr rfl⟩, lex_cons rfl (by simp)]
        cases lex strtod rest <;> rfl
      · rw [List.foldlM_append, hst.step]
        rfl
    | cons g fs =>
      obtain ⟨first, hfirst, h⟩ := Option.bind_eq_some_iff.mp h
      obtain ⟨more, hmore, h⟩ := Option.bind_eq_some_iff.mp h
      cases h
      have hnext : State.AwaitsKey (.nextKey (setField f.1 f.2.json fields) stack)
          (setField f.1 f.2.json fields) stack := Or.inl rfl
      obtain ⟨ts, hlex, hrun⟩ :=
        ih hmore (by simp) (fun x hx => hfits x (List.mem_cons_of_mem _ hx)) hnext
      refine ⟨[.atom (.string f.1), .colon, .atom f.2.json] ++ .comma :: ts, ?_, ?_⟩
      · rw [List.append_assoc, List.cons_append, lex_member hfirst hf ⟨_, _, rfl, Or.inl rfl⟩,
          lex_cons rfl (by simp), hlex]
        cases lex strtod rest <;> rfl
      · rw [List.foldlM_append, hst.step]
        exact hrun

/-- An object that was written is read back, each key with its value. -/
theorem parse_dump {fields : List (Str × Field)} {out : Str} (h : dump fields = some out)
    (hne : object fields ≠ []) (hfits : ∀ f ∈ object fields, f.2.Fits) :
    parse strtod out = some (.object (setFields [] (object fields))) := by
  obtain ⟨s, hs, rfl⟩ := Option.map_eq_some_iff.mp h
  have hstart : State.AwaitsKey (.objectStart []) [] [] := Or.inr ⟨rfl, rfl⟩
  obtain ⟨ts, hlex, hrun⟩ : ∃ ts, lex strtod (s ++ ['\x7d']) = (lex strtod []).map (ts ++ ·) ∧ _ :=
    lex_members hs hne hfits hstart
  have htext : lex strtod ('\x7b' :: s ++ ['\x7d']) = some (.beginObject :: ts) := by
    rw [List.cons_append, lex_cons rfl (by simp), hlex]
    simp [lex, tokens, scan]
  have hbom : skipBom ('\x7b' :: s ++ ['\x7d']) = some ('\x7b' :: s ++ ['\x7d']) := rfl
  rw [parse, hbom, Option.bind_eq_bind, Option.bind_some, htext, Option.bind_eq_bind,
    Option.bind_some, List.foldlM_cons]
  simp only [State.step, startValue, Option.bind_eq_bind, Option.bind_some, hrun]
  rfl

end

/-! ## The order of keys -/

theorem setField_perm {α : Type} {key : Str} {v : α} {fs : List (Str × α)}
    (h : key ∉ fs.map Prod.fst) : (setField key v fs).Perm ((key, v) :: fs) := by
  induction fs with
  | nil => exact List.Perm.refl _
  | cons f fs ih =>
    rw [List.map_cons, List.mem_cons, not_or] at h
    unfold setField
    rw [if_neg h.1]
    split
    · exact List.Perm.refl _
    · exact ((ih h.2).cons f).trans (List.Perm.swap _ _ _)

theorem object_perm {fs : List (Str × Field)} (h : (fs.map Prod.fst).Nodup) :
    (object fs).Perm fs := by
  have hfold : ∀ acc : List (Str × Field), ((fs ++ acc).map Prod.fst).Nodup →
      (fs.foldl (fun obj f => setField f.1 f.2 obj) acc).Perm (fs ++ acc) := by
    clear h
    induction fs with
    | nil => exact fun acc _ => List.Perm.refl _
    | cons f fs ih =>
      intro acc hnodup
      rw [List.cons_append, List.map_cons, List.nodup_cons, List.map_append, List.mem_append,
        not_or] at hnodup
      have hset : (setField f.1 f.2 acc).Perm (f :: acc) := setField_perm hnodup.1.2
      have hswap : (fs ++ setField f.1 f.2 acc).Perm (f :: (fs ++ acc)) :=
        (hset.append_left fs).trans List.perm_middle
      refine (ih _ ?_).trans hswap
      refine (hswap.map Prod.fst).nodup_iff.mpr ?_
      rw [List.map_cons, List.nodup_cons, List.map_append, List.mem_append, not_or]
      exact hnodup
  have := hfold [] (by rwa [List.append_nil])
  rwa [List.append_nil] at this

theorem find?_setField {key k : Str} {v : Json} {fs : List (Str × Json)} :
    (Json.object (setField key v fs)).find? k =
      if k = key then some v else (Json.object fs).find? k := by
  induction fs with
  | nil =>
    by_cases hk : k = key
    · simp [setField, Json.find?, hk]
    · simp [setField, Json.find?, hk, Ne.symm hk]
  | cons f fs ih =>
    unfold setField
    by_cases hk : k = key
    · subst hk
      rw [if_pos rfl] at ih ⊢
      split_ifs with hkey hlt
      · simp [Json.find?]
      · simp [Json.find?]
      · simpa [Json.find?, Ne.symm hkey] using ih
    · rw [if_neg hk] at ih ⊢
      split_ifs with hkey hlt
      · simp [Json.find?, Ne.symm hk, ← hkey]
      · simp [Json.find?, Ne.symm hk]
      · by_cases hf : f.1 = k
        · simp [Json.find?, hf]
        · simpa [Json.find?, hf] using ih

theorem find?_setFields_aside {fs : List (Str × Field)} {key : Str} (h : key ∉ fs.map Prod.fst)
    (obj : List (Str × Json)) :
    (Json.object (setFields obj fs)).find? key = (Json.object obj).find? key := by
  induction fs generalizing obj with
  | nil => rfl
  | cons f fs ih =>
    rw [List.map_cons, List.mem_cons, not_or] at h
    exact (ih h.2 _).trans (find?_setField.trans (if_neg h.1))

/-- A key that is written once is found with its value. -/
theorem find?_setFields {fs : List (Str × Field)} (hnodup : (fs.map Prod.fst).Nodup)
    {key : Str} {v : Field} (h : (key, v) ∈ fs) (obj : List (Str × Json)) :
    (Json.object (setFields obj fs)).find? key = some v.json := by
  induction fs generalizing obj with
  | nil => cases h
  | cons f fs ih =>
    rw [List.map_cons, List.nodup_cons] at hnodup
    rcases List.mem_cons.mp h with rfl | h
    · exact (find?_setFields_aside hnodup.1 _).trans (find?_setField.trans (if_pos rfl))
    · exact ih hnodup.2 h _

/-! ## Which objects are written -/

/-- The texts of a field are UTF-8. -/
def Field.writable : Field → Bool
  | .text s => Utf8.valid s
  | .number _ => true

theorem dumpMember_isSome (f : Str × Field) :
    (dumpMember f).isSome = (Utf8.valid f.1 && f.2.writable) := by
  have hvalue : f.2.dump.isSome = f.2.writable := by
    cases f.2 with
    | text s => exact dumpString_isSome s
    | number n => rfl
  rw [← dumpString_isSome, ← hvalue, dumpMember]
  cases dumpString f.1 <;> cases f.2.dump <;> rfl

theorem printable_dumpMember {f : Str × Field} {out : Str} (h : dumpMember f = some out) :
    ∀ d ∈ out, 0x20 ≤ d.toNat := by
  obtain ⟨key, hkey, h⟩ := Option.bind_eq_some_iff.mp h
  obtain ⟨v, hv, h⟩ := Option.bind_eq_some_iff.mp h
  cases h
  have hvalue : ∀ d ∈ v, 0x20 ≤ d.toNat := by
    cases hf : f.2 with
    | text s =>
      rw [hf] at hv
      exact printable_dumpString hv
    | number n =>
      rw [hf] at hv
      cases hv
      intro d hd
      rw [Nat.toString_eq_repr, Nat.toList_repr] at hd
      have hdigit := Nat.isDigit_of_mem_toDigits (by omega) (by omega) hd
      have hzero : '0'.toNat ≤ d.toNat := by
        simp only [Char.isDigit, Bool.and_eq_true, decide_eq_true_eq] at hdigit
        exact hdigit.1
      exact le_trans (by decide) hzero
  intro d hd
  rcases List.mem_append.mp hd with hd | hd
  · exact printable_dumpString hkey d hd
  · rcases List.mem_cons.mp hd with rfl | hd
    · decide
    · exact hvalue d hd

theorem dumpMembers_isSome (fs : List (Str × Field)) :
    (dumpMembers fs).isSome = fs.all fun f => (dumpMember f).isSome := by
  induction fs with
  | nil => rfl
  | cons f fs ih =>
    cases fs with
    | nil => simp [dumpMembers]
    | cons g fs =>
      have hrec : dumpMembers (f :: g :: fs) =
          (dumpMember f).bind fun first =>
            (dumpMembers (g :: fs)).bind fun rest => some (first ++ ',' :: rest) := rfl
      rw [List.all_cons, ← ih, hrec]
      cases dumpMember f <;> cases dumpMembers (g :: fs) <;> rfl

/-- An object is written exactly where its keys and texts are UTF-8. -/
theorem dump_isSome {fs : List (Str × Field)} (h : (fs.map Prod.fst).Nodup) :
    (dump fs).isSome = fs.all fun f => Utf8.valid f.1 && f.2.writable := by
  rw [dump, Option.isSome_map, dumpMembers_isSome, ← (object_perm h).all_eq]
  simp only [dumpMember_isSome]

theorem printable_dumpMembers {fs : List (Str × Field)} {out : Str}
    (h : dumpMembers fs = some out) : ∀ d ∈ out, 0x20 ≤ d.toNat := by
  induction fs generalizing out with
  | nil =>
    cases h
    exact fun d hd => absurd hd List.not_mem_nil
  | cons f fs ih =>
    cases fs with
    | nil => exact printable_dumpMember h
    | cons g fs =>
      obtain ⟨first, hfirst, h⟩ := Option.bind_eq_some_iff.mp h
      obtain ⟨more, hmore, h⟩ := Option.bind_eq_some_iff.mp h
      cases h
      intro d hd
      rcases List.mem_append.mp hd with hd | hd
      · exact printable_dumpMember hfirst d hd
      · rcases List.mem_cons.mp hd with rfl | hd
        · decide
        · exact ih hmore d hd

/-- What is written is one line. -/
theorem newline_dump {fields : List (Str × Field)} {out : Str} (h : dump fields = some out) :
    '\n' ∉ out := by
  obtain ⟨s, hs, rfl⟩ := Option.map_eq_some_iff.mp h
  intro hmem
  have hprint := printable_dumpMembers hs '\n'
  simp only [List.cons_append, List.mem_cons, List.mem_append, List.not_mem_nil, or_false] at hmem
  rcases hmem with hmem | hmem | hmem
  · exact absurd hmem (by decide)
  · exact absurd (hprint hmem) (by decide)
  · exact absurd hmem (by decide)

end MkPool.JsonText
