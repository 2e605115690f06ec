import MkPool.JsonRoundTrip

/-! # The id of a reply

Three sessions write the id of a request into their replies, each by its own
`safe_id_json`. Of the pool and the proxy the strings are escaped, except for
control characters; the redirector writes them as they are, and no fractions. -/
namespace MkPool.RequestIds
open MkPool.Utils MkPool.JsonValue MkPool.JsonText MkPool.Lib

/-- `safe_id_json` of `proxy_session.cpp`. -/
def proxySafeIdJson (fmtDouble : ℚ → Str) (msg : Json) : Str := safeIdJson fmtDouble msg

/-- `safe_id_json` of `redirector_session.cpp`. -/
def redirectorSafeIdJson (msg : Json) : Str :=
  match msg.find? "id".toList with
  | some (.integer i) => (toString i).toList
  | some (.unsigned n) => (toString ((n : Int).bmod (2 ^ 64))).toList
  | some (.string s) => '"' :: s ++ ['"']
  | _ => "null".toList

/-! ## Ids and their texts -/

/-- The ids of JSON-RPC, as they are held: null, a number, a string. -/
def IsId : Json → Prop
  | .null => True
  | .integer i => -2 ^ 63 ≤ i ∧ i < 2 ^ 63
  | .unsigned n => n < 2 ^ 64
  | .float _ => True
  | .string _ => True
  | _ => False

/-- Equal values. Numbers of two kinds are compared by what they are. -/
def Same (v id : Json) : Prop := v = id ∨ v.number?.isSome = true ∧ v.number? = id.number?

/-- The text is the JSON of a value equal to the id, alone and in a reply. -/
def Answers (strtod : Str → Option ℚ) (text : Str) (id : Json) : Prop :=
  ∃ v, Same v id ∧ parse strtod text = some v ∧
    ∀ t, Ends t → lex strtod (text ++ t) = (lex strtod t).map (.atom v :: ·)

/-- A number in decimal digits. -/
structure Decimal where
  negative : Bool := false
  whole : Nat
  fraction : Str := []
  exponent : Option (Bool × Str) := none

def Decimal.sign (d : Decimal) : Str := if d.negative then ['-'] else []

/-- The point and the digits behind it. -/
def Decimal.point (d : Decimal) : Str := if d.fraction = [] then [] else '.' :: d.fraction

/-- The exponent, with its sign. -/
def Decimal.power (d : Decimal) : Str :=
  match d.exponent with
  | none => []
  | some (negative, ds) => 'e' :: (if negative then '-' else '+') :: ds

/-- What follows the whole digits. -/
def Decimal.more (d : Decimal) : Str := d.point ++ d.power

def Decimal.text (d : Decimal) : Str := d.sign ++ Nat.toDigits 10 d.whole ++ d.more

structure Decimal.Valid (d : Decimal) : Prop where
  fraction : ∀ c ∈ d.fraction, c.isDigit = true
  exponent : ∀ e ∈ d.exponent, e.2 ≠ [] ∧ ∀ c ∈ e.2, c.isDigit = true

/-- How a double is printed: in decimal digits that `strtod` reads back. Where
neither a point nor an exponent is needed, all digits are. -/
def Printed (fmtDouble : ℚ → Str) (strtod : Str → Option ℚ) (q : ℚ) : Prop :=
  ∃ d : Decimal, d.Valid ∧ fmtDouble q = d.text ∧ strtod d.text = some q ∧
    (d.more = [] → q = if d.negative then -(d.whole : ℚ) else d.whole)

/-- What may stand behind a text: nothing, or more of a reply. -/
def Stops (t : Str) : Prop := t = [] ∨ Ends t

/-- A text that is read as one value. -/
structure Reads (strtod : Str → Option ℚ) (text : Str) (v : Json) : Prop where
  first : ∀ c ∈ text.head?, c.toNat ≠ 0xEF
  scan : ∀ t, Stops t → JsonText.scan strtod (text ++ t) = some (.atom v, t)

section Reading
variable {strtod : Str → Option ℚ} {text : Str} {v id : Json}

theorem skipBom_eq (h : ∀ c ∈ text.head?, c.toNat ≠ 0xEF) : skipBom text = some text := by
  cases text with
  | nil => rfl
  | cons c s => exact if_neg (h c rfl)

theorem Reads.lex (h : Reads strtod text v) {t : Str} (ht : Stops t) :
    JsonText.lex strtod (text ++ t) = (JsonText.lex strtod t).map (.atom v :: ·) :=
  lex_cons (h.scan t ht) (by simp)

theorem Reads.parse (h : Reads strtod text v) : JsonText.parse strtod text = some v := by
  have hlex := h.lex (.inl rfl)
  rw [List.append_nil] at hlex
  rw [JsonText.parse, skipBom_eq h.first, Option.bind_eq_bind, Option.bind_some, hlex]
  rfl

theorem answers_iff (h : Reads strtod text v) : Answers strtod text id ↔ Same v id := by
  constructor
  · rintro ⟨w, hsame, hw, -⟩
    rw [h.parse] at hw
    obtain rfl := Option.some.inj hw
    exact hsame
  · intro hsame
    exact ⟨v, hsame, h.parse, fun t ht => h.lex (.inr ht)⟩

theorem not_answers (h : parse strtod text = none) : ¬ Answers strtod text id := by
  rintro ⟨v, -, hv, -⟩
  rw [h] at hv
  cases hv

/-! ## Numbers -/

theorem digits_eq {ds t : Str} (hds : ∀ c ∈ ds, c.isDigit = true)
    (ht : ∀ c ∈ t.head?, c.isDigit = false) : digits (ds ++ t) = (ds, t) := by
  have hstop : t.takeWhile Char.isDigit = [] ∧ t.dropWhile Char.isDigit = t := by
    cases t with
    | nil => exact ⟨rfl, rfl⟩
    | cons c t => simp [ht c rfl]
  rw [digits, List.span_eq_takeWhile_dropWhile, List.takeWhile_append_of_pos hds,
    List.dropWhile_append_of_pos hds, hstop.1, hstop.2, List.append_nil]

theorem scanDigits_eq {ds t : Str} (hne : ds ≠ []) (hds : ∀ c ∈ ds, c.isDigit = true)
    (ht : ∀ c ∈ t.head?, c.isDigit = false) : scanDigits (ds ++ t) = some (ds, t) := by
  rw [scanDigits, digits_eq hds ht]
  obtain ⟨c, ds, rfl⟩ := List.exists_cons_of_ne_nil hne
  rfl

theorem scanWhole_eq (n : Nat) {t : Str} (ht : ∀ c ∈ t.head?, c.isDigit = false) :
    scanWhole (Nat.toDigits 10 n ++ t) = some (Nat.toDigits 10 n, t) := by
  have hds : ∀ c ∈ Nat.toDigits 10 n, c.isDigit = true := fun c hc =>
    Nat.isDigit_of_mem_toDigits (by omega) (by omega) hc
  cases hd : Nat.toDigits 10 n with
  | nil => exact absurd hd Nat.toDigits_ne_nil
  | cons c cs =>
    by_cases hc : c = '0'
    · subst hc
      obtain rfl := leading_toDigits hd
      cases hd
      rfl
    · rw [← hd, scanWhole]
      · exact scanDigits_eq Nat.toDigits_ne_nil hds ht
      · intro s hs
        rw [hd] at hs
        exact hc (List.cons.inj hs).1

theorem head_stops {t : Str} (ht : Stops t) : ∀ c ∈ t.head?, c = ',' ∨ c = '\x7d' := by
  obtain rfl | ⟨c, t, rfl, hc⟩ := ht
  · simp
  · simpa using hc

theorem head_power (d : Decimal) {t : Str} (ht : Stops t) :
    ∀ c ∈ (d.power ++ t).head?, c = 'e' ∨ c = ',' ∨ c = '\x7d' := by
  unfold Decimal.power
  cases d.exponent with
  | none => exact fun c hc => .inr (head_stops ht c hc)
  | some e => simp

theorem head_more (d : Decimal) {t : Str} (ht : Stops t) :
    ∀ c ∈ (d.point ++ (d.power ++ t)).head?, c.isDigit = false := by
  unfold Decimal.point
  by_cases hf : d.fraction = []
  · rw [if_pos hf, List.nil_append]
    intro c hc
    obtain rfl | rfl | rfl := head_power d ht c hc <;> rfl
  · rw [if_neg hf]
    intro c hc
    obtain rfl : '.' = c := Option.some.inj hc
    rfl

theorem scanFraction_eq {d : Decimal} (hd : d.Valid) {t : Str} (ht : Stops t) :
    scanFraction (d.point ++ (d.power ++ t)) = some (d.point, d.power ++ t) := by
  have hhead := head_power d ht
  unfold Decimal.point
  by_cases hf : d.fraction = []
  · rw [if_pos hf, List.nil_append]
    unfold scanFraction
    split
    · rename_i s hs
      rw [hs] at hhead
      exact absurd (hhead '.' rfl) (by decide)
    · rfl
  · have hstop : ∀ c ∈ (d.power ++ t).head?, c.isDigit = false := by
      intro c hc
      obtain rfl | rfl | rfl := hhead c hc <;> rfl
    rw [if_neg hf, List.cons_append, scanFraction, scanDigits_eq hf hd.fraction hstop]
    rfl

theorem scanExponent_eq {d : Decimal} (hd : d.Valid) {t : Str} (ht : Stops t) :
    scanExponent (d.power ++ t) = some (d.power, t) := by
  have hhead := head_stops ht
  unfold Decimal.power
  cases hexp : d.exponent with
  | none =>
    rw [List.nil_append]
    cases t with
    | nil => rfl
    | cons c t =>
      have hc : ¬ (c = 'e' ∨ c = 'E') := by
        obtain rfl | rfl := hhead c rfl <;> decide
      exact if_neg hc
  | some e =>
    obtain ⟨negative, ds⟩ := e
    obtain ⟨hne, hds⟩ := hd.exponent _ hexp
    have hstop : ∀ c ∈ t.head?, c.isDigit = false := by
      intro c hc
      obtain rfl | rfl := hhead c hc <;> rfl
    have hscan := scanDigits_eq hne hds hstop
    cases negative <;> simp [scanExponent, hscan]

theorem scanNumber_text {d : Decimal} (hd : d.Valid) {t : Str} (ht : Stops t) :
    scanNumber strtod (d.text ++ t) =
      (number strtod d.negative (Nat.toDigits 10 d.whole) d.more).map (·, t) := by
  have hunsigned : scanUnsigned strtod d.negative (Nat.toDigits 10 d.whole ++ (d.more ++ t)) =
      (number strtod d.negative (Nat.toDigits 10 d.whole) d.more).map (·, t) := by
    rw [Decimal.more, List.append_assoc]
    unfold scanUnsigned
    rw [scanWhole_eq _ (head_more d ht)]
    simp only [Option.bind_eq_bind, Option.bind_some, scanFraction_eq hd ht, scanExponent_eq hd ht]
    cases number strtod d.negative (Nat.toDigits 10 d.whole) (d.point ++ d.power) <;> rfl
  rw [Decimal.text, Decimal.sign]
  cases hneg : d.negative with
  | true =>
    rw [hneg] at hunsigned
    simpa [scanNumber] using hunsigned
  | false =>
    rw [hneg] at hunsigned
    obtain ⟨c, cs, hcs⟩ := List.exists_cons_of_ne_nil (Nat.toDigits_ne_nil (b := 10) (n := d.whole))
    have hc : c ≠ '-' := by
      rintro rfl
      have := Nat.isDigit_of_mem_toDigits (b := 10) (n := d.whole) (by omega) (by omega)
        (hcs ▸ List.mem_cons_self)
      exact absurd this (by decide)
    rw [hcs] at hunsigned ⊢
    simp only [if_neg Bool.false_ne_true, List.nil_append, List.cons_append, List.append_assoc]
      at hunsigned ⊢
    rw [scanNumber]
    · exact hunsigned
    · intro s hs
      exact hc (List.cons.inj hs).1

theorem scan_number {c : Char} (hc : c = '-' ∨ c.isDigit = true) (s : Str) :
    scan strtod (c :: s) =
      (scanNumber strtod (c :: s)).map fun r => (.atom r.1, r.2) := by
  have other (d : Char) (hd : d.isDigit = false) (hm : d ≠ '-') : c ≠ d := by
    rintro rfl
    obtain hc | hc := hc
    · exact hm hc
    · rw [hc] at hd
      cases hd
  have hspace : JsonText.isSpace c = false := by
    simp [JsonText.isSpace, other ' ' rfl (by decide), other '\t' rfl (by decide),
      other '\n' rfl (by decide), other '\r' rfl (by decide)]
  have hnumber : (c = '-' || c.isDigit) = true := by simpa using hc
  rw [scan, List.dropWhile_cons_of_neg (by simp [hspace])]
  simp only [if_neg (other '\x00' rfl (by decide)), if_neg (other '\x7b' rfl (by decide)),
    if_neg (other '\x7d' rfl (by decide)), if_neg (other '[' rfl (by decide)),
    if_neg (other ']' rfl (by decide)), if_neg (other ':' rfl (by decide)),
    if_neg (other ',' rfl (by decide)), if_neg (other '"' rfl (by decide)), hnumber, if_true]

/-- A number begins with its sign or a digit. -/
theorem head_text (d : Decimal) : ∃ c s, d.text = c :: s ∧ (c = '-' ∨ c.isDigit = true) := by
  rw [Decimal.text, Decimal.sign]
  cases d.negative with
  | true => exact ⟨'-', _, rfl, .inl rfl⟩
  | false =>
    obtain ⟨c, cs, hcs⟩ := List.exists_cons_of_ne_nil (Nat.toDigits_ne_nil (b := 10) (n := d.whole))
    have hc := Nat.isDigit_of_mem_toDigits (b := 10) (n := d.whole) (by omega) (by omega)
      (hcs ▸ List.mem_cons_self)
    rw [hcs]
    exact ⟨c, cs ++ d.more, rfl, .inr hc⟩

/-- A number is read as one value. -/
theorem reads_decimal {d : Decimal} (hd : d.Valid)
    (hv : number strtod d.negative (Nat.toDigits 10 d.whole) d.more = some v) :
    Reads strtod d.text v := by
  obtain ⟨c, s, hcs, hc⟩ := head_text d
  constructor
  · intro c' hc'
    rw [hcs] at hc'
    obtain rfl : c = c' := Option.some.inj hc'
    obtain rfl | hc := hc
    · decide
    · intro hbom
      have hmark : c = Char.ofNat 0xEF := by rw [← hbom, Char.ofNat_toNat]
      rw [hmark] at hc
      exact absurd hc (by decide)
  · intro t ht
    have hnumber := @scanNumber_text strtod _ hd _ ht
    rw [hv, hcs, List.cons_append] at hnumber
    rw [hcs, List.cons_append, scan_number hc, hnumber]
    rfl

/-! ## What a number is read as -/

theorem number_whole (negative : Bool) (n : Nat) :
    number strtod negative (Nat.toDigits 10 n) [] =
      if negative = false ∧ n < 2 ^ 64 then some (.unsigned n)
      else if negative = true ∧ n ≤ 2 ^ 63 then some (.integer (-n))
      else (strtod ((if negative then ['-'] else []) ++ Nat.toDigits 10 n ++ [])).map .float := by
  unfold number
  rw [Nat.ofDigitChars_ten_toDigits]
  simp

/-- The decimal of a whole number. -/
def wholeDecimal (i : Int) : Decimal := { negative := i < 0, whole := i.natAbs }

theorem toList_toString (i : Int) : (toString i).toList = (wholeDecimal i).text := by
  rw [Int.toString_eq_repr, Int.repr_eq_if]
  unfold Decimal.text Decimal.sign wholeDecimal
  by_cases hi : 0 ≤ i
  · have hneg : ¬ i < 0 := by omega
    rw [if_pos hi, Nat.toList_repr]
    simp [hneg, Decimal.more, Decimal.point, Decimal.power, show i.toNat = i.natAbs by omega]
  · have hneg : i < 0 := by omega
    rw [if_neg hi, String.toList_append, Nat.toList_repr]
    simp [hneg, Decimal.more, Decimal.point, Decimal.power, show (-i).toNat = i.natAbs by omega]

theorem valid_whole (i : Int) : (wholeDecimal i).Valid :=
  ⟨by simp [wholeDecimal], by simp [wholeDecimal]⟩

theorem reads_int {i : Int} (hlo : -2 ^ 63 ≤ i) (hhi : i < 2 ^ 64) :
    ∃ v, Reads strtod (toString i).toList v ∧ v.number? = some (i : ℚ) := by
  rw [toList_toString]
  have hmore : (wholeDecimal i).more = [] := rfl
  by_cases hi : i < 0
  · have hneg : (wholeDecimal i).negative = true := decide_eq_true hi
    refine ⟨.integer i, reads_decimal (valid_whole i) ?_, rfl⟩
    have hfits : i.natAbs ≤ 2 ^ 63 := by omega
    rw [hneg, hmore, number_whole, if_neg (by simp), if_pos ⟨rfl, hfits⟩]
    show some (Json.integer (-(i.natAbs : Int))) = _
    rw [show -(i.natAbs : Int) = i by omega]
  · have hneg : (wholeDecimal i).negative = false := decide_eq_false hi
    refine ⟨.unsigned i.natAbs, reads_decimal (valid_whole i) ?_, ?_⟩
    · have hfits : i.natAbs < 2 ^ 64 := by omega
      rw [hneg, hmore, number_whole, if_pos ⟨rfl, hfits⟩]
      rfl
    · have hcast : ((i.natAbs : Int) : ℚ) = i := by rw [show (i.natAbs : Int) = i by omega]
      exact congrArg some ((Int.cast_natCast _).symm.trans hcast)

theorem reads_printed {fmtDouble : ℚ → Str} {q : ℚ} (h : Printed fmtDouble strtod q) :
    ∃ v, Reads strtod (fmtDouble q) v ∧ v.number? = some q := by
  obtain ⟨d, hd, htext, hback, hwhole⟩ := h
  rw [htext]
  suffices hv : ∃ v, number strtod d.negative (Nat.toDigits 10 d.whole) d.more = some v ∧
      v.number? = some q by
    obtain ⟨v, hv, hq⟩ := hv
    exact ⟨v, reads_decimal hd hv, hq⟩
  have hfloat : (strtod ((if d.negative then ['-'] else []) ++ Nat.toDigits 10 d.whole ++
      d.more)).map Json.float = some (.float q) := by
    rw [Decimal.text, Decimal.sign] at hback
    rw [hback]
    rfl
  by_cases hmore : d.more = []
  · have hq := hwhole hmore
    rw [hmore] at hfloat ⊢
    rw [number_whole]
    by_cases hpos : d.negative = false ∧ d.whole < 2 ^ 64
    · rw [if_pos hpos]
      rw [if_neg (by simp [hpos.1])] at hq
      exact ⟨_, rfl, by rw [hq]; rfl⟩
    · by_cases hneg : d.negative = true ∧ d.whole ≤ 2 ^ 63
      · rw [if_neg hpos, if_pos hneg]
        rw [if_pos hneg.1] at hq
        exact ⟨_, rfl, by rw [hq]; simp [Json.number?]⟩
      · rw [if_neg hpos, if_neg hneg]
        exact ⟨_, hfloat, rfl⟩
  · refine ⟨.float q, ?_, rfl⟩
    rw [number, if_neg (by simp [hmore]), if_neg (by simp [hmore])]
    exact hfloat

/-! ## Strings -/

/-- The string with control characters replaced. -/
def clean (s : Str) : Str := s.map fun c => if c.toNat < 0x20 then '?' else c

theorem not_holds {r : Utf8.Range} (hr : 0x80 ≤ r.lo) {c : Char} (hc : c.toNat < 0x80) :
    r.holds c = false := by
  simp only [Utf8.Range.holds, Bool.and_eq_false_iff, decide_eq_false_iff_not]
  omega

/-- The scanner undoes the escapes of UTF-8, and refuses the rest. -/
theorem scanString_escapeJson {rs : List Utf8.Range} (hrs : ∀ r ∈ rs, 0x80 ≤ r.lo) (s t : Str) :
    scanString (.text rs) (escapeJson s ++ '"' :: t) =
      if Utf8.validFrom rs s then some (clean s, t) else none := by
  induction s generalizing rs with
  | nil =>
    cases rs with
    | nil => rfl
    | cons r rs =>
      have hno := not_holds (hrs r List.mem_cons_self) (c := '"') (by decide)
      simp [escapeJson, scanString, Scan.step, hno, Utf8.validFrom]
  | cons c s ih =>
    have hcons : escapeJson (c :: s) = (if c = '"' || c = '\\' then ['\\', c]
        else if c.toNat < 0x20 then ['?'] else [c]) ++ escapeJson s := rfl
    rw [hcons, List.append_assoc]
    cases rs with
    | nil =>
      by_cases hquote : c = '"' ∨ c = '\\'
      · have hascii : Utf8.follow c = some [] := by obtain rfl | rfl := hquote <;> rfl
        have hkeep : ¬ c.toNat < 0x20 := by obtain rfl | rfl := hquote <;> decide
        have hslash : (Scan.text []).step '\\' = some ([], .escape) := rfl
        have hletter : Scan.escape.step c = some ([c], .text []) := by
          obtain rfl | rfl := hquote <;> rfl
        rw [if_pos (by simpa using hquote), List.cons_append, List.singleton_append,
          scanString_skip (by decide) hslash, scanString_step (by simp) hletter, ih (by simp)]
        simp [Utf8.validFrom, hascii, clean, hkeep, apply_ite]
      · rw [if_neg (by simpa using hquote)]
        by_cases hcontrol : c.toNat < 0x20
        · have hascii : Utf8.follow c = some [] := Utf8.follow_ascii (by omega)
          have hmark : (Scan.text []).step '?' = some (['?'], .text []) := rfl
          rw [if_pos hcontrol, List.singleton_append, scanString_step (by decide) hmark,
            ih (by simp)]
          simp [Utf8.validFrom, hascii, clean, hcontrol, apply_ite]
        · rw [if_neg hcontrol, List.singleton_append]
          cases hfollow : Utf8.follow c with
          | none =>
            have hstep : (Scan.text []).step c = none := by
              simp only [Scan.step, if_neg fun h => hquote (.inr h), if_neg hcontrol, hfollow,
                Option.map_none]
            rw [scanString, if_neg fun h => hquote (.inl h.2), hstep]
            simp [Utf8.validFrom, hfollow]
          | some rs =>
            have hstep : (Scan.text []).step c = some ([c], .text rs) := by
              simp only [Scan.step, if_neg fun h => hquote (.inr h), if_neg hcontrol, hfollow,
                Option.map_some]
            rw [scanString_step (fun h => hquote (.inl h.2)) hstep, ih (Utf8.lo_follow hfollow)]
            simp [Utf8.validFrom, hfollow, clean, hcontrol, apply_ite]
    | cons r rs =>
      have hlow {d : Char} (hd : d.toNat < 0x80) : r.holds d = false :=
        not_holds (hrs r List.mem_cons_self) hd
      have hrefuse {d : Char} (hd : r.holds d = false) (u : Str) :
          scanString (.text (r :: rs)) (d :: u) = none := by
        rw [scanString, if_neg (by simp), Scan.step, hd]
        rfl
      cases hheld : r.holds c with
      | false =>
        have hinvalid : Utf8.validFrom (r :: rs) (c :: s) = false := by
          simp [Utf8.validFrom, hheld]
        rw [hinvalid, if_neg Bool.false_ne_true]
        split_ifs with hquote hcontrol
        · exact hrefuse (hlow (by decide)) _
        · exact hrefuse (hlow (by decide)) _
        · exact hrefuse hheld _
      | true =>
        have hhigh : 0x80 ≤ c.toNat := by
          by_contra hc
          rw [hlow (by omega)] at hheld
          cases hheld
        have hquote : ¬ (c = '"' ∨ c = '\\') := by
          rintro (rfl | rfl)
          · exact absurd hhigh (by decide)
          · exact absurd hhigh (by decide)
        have hstep : (Scan.text (r :: rs)).step c = some ([c], .text rs) := if_pos hheld
        have hkeep : ¬ c.toNat < 0x20 := by omega
        rw [if_neg (by simpa using hquote), if_neg hkeep, List.singleton_append,
          scanString_step (by simp) hstep, ih fun x hx => hrs x (List.mem_cons_of_mem _ hx)]
        simp [Utf8.validFrom, hheld, clean, hkeep, apply_ite]

theorem scan_string (u : Str) :
    scan strtod ('"' :: u) =
      (scanString (.text []) u).map fun r => (.atom (.string r.1), r.2) := by
  rw [scan, List.dropWhile_cons_of_neg (by decide)]
  simp

theorem reads_escaped {s : Str} (h : Utf8.valid s = true) :
    Reads strtod ('"' :: escapeJson s ++ ['"']) (.string (clean s)) := by
  constructor
  · intro c hc
    obtain rfl : '"' = c := Option.some.inj hc
    decide
  · intro t _
    have hscan := @scanString_escapeJson [] (by simp) s t
    rw [if_pos (show Utf8.validFrom [] s = true from h)] at hscan
    rw [List.cons_append, List.cons_append, List.append_assoc, List.singleton_append, scan_string,
      hscan]
    rfl

theorem parse_invalid {u : Str} (h : scanString (.text []) u = none) :
    parse strtod ('"' :: u) = none := by
  have hscan := @scan_string strtod u
  rw [h] at hscan
  have hlex : lex strtod ('"' :: u) = none := by
    rw [lex, tokens, hscan]
    rfl
  rw [parse, skipBom_eq (by simp), Option.bind_eq_bind, Option.bind_some, hlex]
  rfl

/-- A text that begins with a string and is read is that string. -/
theorem parse_string {u : Str} (h : parse strtod ('"' :: u) = some v) :
    ∃ t rest, scanString (.text []) u = some (t, rest) ∧ v = .string t := by
  cases hscan : scanString (.text []) u with
  | none =>
    rw [parse_invalid hscan] at h
    cases h
  | some r =>
    obtain ⟨t, rest⟩ := r
    refine ⟨t, rest, rfl, ?_⟩
    have htoken := @scan_string strtod u
    rw [hscan] at htoken
    have hlex := lex_cons htoken (by simp)
    rw [parse, skipBom_eq (by simp), Option.bind_eq_bind, Option.bind_some, hlex] at h
    obtain ⟨ts, hts, h⟩ := Option.bind_eq_some_iff.mp h
    obtain ⟨more, -, rfl⟩ := Option.map_eq_some_iff.mp hts
    obtain ⟨st, hst, h⟩ := Option.bind_eq_some_iff.mp h
    rw [List.foldlM_cons] at hst
    cases more with
    | nil =>
      cases hst
      exact (Option.some.inj h).symm
    | cons t' more => cases t' <;> cases hst

/-! ## Strings as they are -/

/-- How many bytes the scanner may still write for those it has read. -/
def credit : Scan → Nat
  | .text _ => 0
  | .escape => 0
  | .hex none missing _ => 5 - missing
  | .surrogate _ => 5
  | .surrogateEscape _ => 6
  | .hex (some _) missing _ => 11 - missing

theorem length_encode (n : Nat) : (Utf8.encode n).length ≤ 4 := by
  unfold Utf8.encode
  split_ifs <;> simp

theorem credit_codepoint {high : Option Nat} {n : Nat} {out : Str} {st : Scan}
    (h : Scan.codepoint high n = some (out, st)) : out.length + credit st ≤ 5 := by
  have hlen := length_encode
  unfold Scan.codepoint at h
  cases high with
  | none =>
    dsimp only at h
    split_ifs at h
    · cases h
      exact le_rfl
    · cases h
      exact Nat.le_succ_of_le (hlen _)
  | some hi =>
    dsimp only at h
    split_ifs at h
    obtain ⟨rfl, rfl⟩ := Prod.mk.inj (Option.some.inj h)
    have hpair := hlen (0x10000 + (hi - 0xD800) * 0x400 + (n - 0xDC00))
    have hnone : credit (.text []) = 0 := rfl
    rw [hnone]
    omega

/-- A byte that is read pays for what is written. -/
theorem credit_step {st st' : Scan} {c : Char} {out : Str} (h : st.step c = some (out, st')) :
    out.length + credit st' ≤ credit st + 1 := by
  cases st with
  | text owed =>
    cases owed with
    | nil =>
      rw [Scan.step] at h
      split_ifs at h
      · cases h
        exact Nat.zero_le _
      · obtain ⟨rs, -, heq⟩ := Option.map_eq_some_iff.mp h
        cases heq
        exact le_rfl
    | cons r rs =>
      rw [Scan.step] at h
      split_ifs at h
      cases h
      exact le_rfl
  | escape =>
    rw [Scan.step] at h
    split_ifs at h
    · cases h
      exact le_rfl
    · obtain ⟨d, -, heq⟩ := Option.map_eq_some_iff.mp h
      cases heq
      exact le_rfl
  | hex high missing value =>
    obtain ⟨d, -, h⟩ := Option.bind_eq_some_iff.mp h
    split_ifs at h with hlast
    · have hpaid := credit_codepoint h
      cases high with
      | none => exact hpaid.trans (show 5 ≤ 5 - missing + 1 by omega)
      | some hi => exact hpaid.trans (show 5 ≤ 11 - missing + 1 by omega)
    · cases h
      cases high with
      | none => exact show 0 + (5 - (missing - 1)) ≤ 5 - missing + 1 by omega
      | some hi => exact show 0 + (11 - (missing - 1)) ≤ 11 - missing + 1 by omega
  | surrogate high =>
    rw [Scan.step] at h
    split_ifs at h
    cases h
    exact le_rfl
  | surrogateEscape high =>
    rw [Scan.step] at h
    split_ifs at h
    cases h
    exact le_rfl

theorem length_scanString {st : Scan} {u t rest : Str} (h : scanString st u = some (t, rest)) :
    t.length + rest.length + 1 ≤ u.length + credit st := by
  induction u generalizing st t with
  | nil => cases h
  | cons c u ih =>
    unfold scanString at h
    split at h
    · cases h
      simp
    · obtain ⟨⟨out, st'⟩, hstep, h⟩ := Option.bind_eq_some_iff.mp h
      obtain ⟨⟨t', rest'⟩, ht, heq⟩ := Option.map_eq_some_iff.mp h
      cases heq
      have hrest := ih ht
      have hpaid := credit_step hstep
      simp only [List.length_append, List.length_cons, id_eq] at *
      omega

/-- Characters that stand for themselves in a JSON string. -/
def Raw (c : Char) : Prop := 0x20 ≤ c.toNat ∧ c ≠ '"' ∧ c ≠ '\\'

/-- A string from which nothing is lost has no escapes. -/
theorem raw_of_scanString {rs : List Utf8.Range} (hrs : ∀ r ∈ rs, 0x80 ≤ r.lo) {u t rest : Str}
    (h : scanString (.text rs) u = some (t, rest))
    (hlen : t.length + rest.length + 1 = u.length) :
    u = t ++ '"' :: rest ∧ Utf8.validFrom rs t = true ∧ ∀ c ∈ t, Raw c := by
  induction u generalizing rs t with
  | nil => cases h
  | cons c u ih =>
    unfold scanString at h
    split at h
    · rename_i hend
      obtain ⟨hst, rfl⟩ := hend
      cases h
      obtain rfl : rs = [] := by injection hst
      exact ⟨rfl, rfl, by simp⟩
    · rename_i hgo
      obtain ⟨⟨out, st'⟩, hstep, h⟩ := Option.bind_eq_some_iff.mp h
      obtain ⟨⟨t', rest'⟩, ht, heq⟩ := Option.map_eq_some_iff.mp h
      obtain rfl : rest' = rest := (Prod.mk.inj heq).2
      obtain rfl : out ++ t' = t := (Prod.mk.inj heq).1
      have hpaid := length_scanString ht
      cases rs with
      | nil =>
        rw [Scan.step] at hstep
        split_ifs at hstep with hslash hcontrol
        · -- an escape: its first byte is lost
          cases hstep
          simp [credit] at hlen hpaid
          omega
        · obtain ⟨rs, hfollow, heq⟩ := Option.map_eq_some_iff.mp hstep
          cases heq
          simp only [List.length_append, List.length_cons, List.length_nil] at hlen
          obtain ⟨hu, hvalid, hraw⟩ := ih (Utf8.lo_follow hfollow) ht (by omega)
          refine ⟨by rw [hu]; rfl, ?_, ?_⟩
          · show Utf8.validFrom [] (c :: t') = true
            simp [Utf8.validFrom, hfollow, hvalid]
          · have hc : Raw c := ⟨by omega, fun hq => hgo ⟨rfl, hq⟩, hslash⟩
            exact List.forall_mem_cons.mpr ⟨hc, hraw⟩
      | cons r rs =>
        rw [Scan.step] at hstep
        split_ifs at hstep with hheld
        cases hstep
        simp only [List.length_append, List.length_cons, List.length_nil] at hlen
        obtain ⟨hu, hvalid, hraw⟩ :=
          ih (fun x hx => hrs x (List.mem_cons_of_mem _ hx)) ht (by omega)
        have hhigh : 0x80 ≤ c.toNat := by
          by_contra hlow
          rw [not_holds (hrs r List.mem_cons_self) (by omega)] at hheld
          cases hheld
        refine ⟨by rw [hu]; rfl, ?_, ?_⟩
        · show Utf8.validFrom (r :: rs) (c :: t') = true
          simp [Utf8.validFrom, hheld, hvalid]
        · have hc : Raw c := by
            refine ⟨by omega, ?_, ?_⟩ <;> rintro rfl <;> exact absurd hhigh (by decide)
          exact List.forall_mem_cons.mpr ⟨hc, hraw⟩

theorem escapeJson_raw {s : Str} (h : ∀ c ∈ s, Raw c) : escapeJson s = s := by
  induction s with
  | nil => rfl
  | cons c s ih =>
    rw [List.forall_mem_cons] at h
    obtain ⟨⟨hcontrol, hquote, hslash⟩, hs⟩ := h
    have hcons : escapeJson (c :: s) = (if c = '"' || c = '\\' then ['\\', c]
        else if c.toNat < 0x20 then ['?'] else [c]) ++ escapeJson s := rfl
    rw [hcons, ih hs, if_neg (by simp [hquote, hslash]), if_neg (by omega)]
    rfl

theorem clean_eq_self {s : Str} : clean s = s ↔ ∀ c ∈ s, 0x20 ≤ c.toNat := by
  have hpoint (c : Char) : (if c.toNat < 0x20 then '?' else c) = c ↔ 0x20 ≤ c.toNat := by
    by_cases hc : c.toNat < 0x20
    · rw [if_pos hc]
      refine iff_of_false ?_ (by omega)
      rintro rfl
      exact absurd hc (by decide)
    · rw [if_neg hc]
      exact iff_of_true rfl (by omega)
  conv_lhs => rhs; rw [← List.map_id s]
  rw [clean, List.map_inj_left]
  exact forall₂_congr fun c _ => hpoint c

/-- Quotes around a string are read as the string exactly where it has nothing
to escape. -/
theorem parse_quoted_iff {s : Str} :
    parse strtod ('"' :: s ++ ['"']) = some (.string s) ↔
      Utf8.valid s = true ∧ ∀ c ∈ s, Raw c := by
  constructor
  · intro h
    rw [List.cons_append] at h
    obtain ⟨t, rest, hscan, ht⟩ := parse_string h
    obtain rfl := Json.string.inj ht
    have hle := length_scanString hscan
    simp only [credit, List.length_append, List.length_singleton] at hle
    obtain ⟨-, hvalid, hraw⟩ := raw_of_scanString (by simp) hscan (by
      rw [List.length_append, List.length_singleton]
      omega)
    exact ⟨hvalid, hraw⟩
  · rintro ⟨hvalid, hraw⟩
    have hreads := @reads_escaped strtod _ hvalid
    rw [escapeJson_raw hraw, clean_eq_self.mpr fun c hc => (hraw c hc).1] at hreads
    exact hreads.parse

end Reading

/-! ## Which ids are answered -/

/-- The ids the pool and the proxy answer. -/
def Kept : Json → Prop
  | .null => True
  | .integer _ => True
  | .unsigned n => n < 2 ^ 63
  | .float _ => True
  | .string s => Utf8.valid s = true ∧ ∀ c ∈ s, 0x20 ≤ c.toNat
  | _ => False

/-- The ids the redirector answers. -/
def KeptRaw : Json → Prop
  | .null => True
  | .integer _ => True
  | .unsigned n => n < 2 ^ 63
  | .string s => Utf8.valid s = true ∧ ∀ c ∈ s, Raw c
  | _ => False

section Answering
variable {strtod : Str → Option ℚ} {v id : Json}

theorem same_number {p q : ℚ} (hv : v.number? = some p) (hid : id.number? = some q) :
    Same v id ↔ p = q := by
  unfold Same
  rw [hv, hid]
  constructor
  · rintro (rfl | ⟨-, h⟩)
    · exact Option.some.inj (hv.symm.trans hid)
    · exact Option.some.inj h
  · rintro rfl
    exact .inr ⟨rfl, rfl⟩

theorem same_string {s : Str} : Same v (.string s) ↔ v = .string s := by
  unfold Same
  constructor
  · rintro (h | ⟨hsome, h⟩)
    · exact h
    · rw [h] at hsome
      cases hsome
  · exact .inl

theorem reads_null : Reads strtod "null".toList .null :=
  ⟨by simp, fun _ _ => rfl⟩

theorem answers_null : Answers strtod "null".toList .null ↔ True :=
  (answers_iff reads_null).trans (iff_true_intro (.inl rfl))

theorem answers_int {i : Int} {q : ℚ} (hlo : -2 ^ 63 ≤ i) (hhi : i < 2 ^ 64)
    (hid : id.number? = some q) : Answers strtod (toString i).toList id ↔ (i : ℚ) = q := by
  obtain ⟨v, hreads, hv⟩ := @reads_int strtod _ hlo hhi
  exact (answers_iff hreads).trans (same_number hv hid)

/-- An unsigned number is written as a signed one. -/
theorem answers_unsigned {n : Nat} (hn : n < 2 ^ 64) :
    Answers strtod (toString ((n : Int).bmod (2 ^ 64))).toList (.unsigned n) ↔ n < 2 ^ 63 := by
  have hlow : n < 2 ^ 63 → (n : Int).bmod (2 ^ 64) = n := by
    intro h
    rw [Int.bmod_eq_of_le] <;> omega
  have hhigh : ¬ n < 2 ^ 63 → (n : Int).bmod (2 ^ 64) = n - 2 ^ 64 := by
    intro h
    rw [Int.bmod_def, if_neg] <;> omega
  by_cases h : n < 2 ^ 63
  · rw [hlow h, answers_int (by omega) (by omega) (rfl : (Json.unsigned n).number? = some (n : ℚ))]
    exact iff_of_true (Int.cast_natCast n) h
  · rw [hhigh h, answers_int (by omega) (by omega) (rfl : (Json.unsigned n).number? = some (n : ℚ))]
    refine iff_of_false ?_ h
    push_cast
    norm_num

theorem answers_float {fmtDouble : ℚ → Str} {q : ℚ} (h : Printed fmtDouble strtod q) :
    Answers strtod (fmtDouble q) (.float q) := by
  obtain ⟨v, hreads, hv⟩ := reads_printed h
  exact (answers_iff hreads).mpr ((same_number hv rfl).mpr rfl)

theorem answers_escaped {s : Str} :
    Answers strtod ('"' :: escapeJson s ++ ['"']) (.string s) ↔
      Utf8.valid s = true ∧ ∀ c ∈ s, 0x20 ≤ c.toNat := by
  by_cases hvalid : Utf8.valid s = true
  · rw [answers_iff (reads_escaped hvalid), same_string, Json.string.injEq, clean_eq_self]
    exact (and_iff_right hvalid).symm
  · have hscan := @scanString_escapeJson [] (by simp) s []
    rw [if_neg (show ¬ Utf8.validFrom [] s = true from hvalid)] at hscan
    exact iff_of_false (not_answers (parse_invalid hscan)) fun h => hvalid h.1

theorem answers_quoted {s : Str} :
    Answers strtod ('"' :: s ++ ['"']) (.string s) ↔ Utf8.valid s = true ∧ ∀ c ∈ s, Raw c := by
  constructor
  · rintro ⟨v, hsame, hv, -⟩
    rw [same_string.mp hsame] at hv
    exact parse_quoted_iff.mp hv
  · rintro ⟨hvalid, hraw⟩
    have hreads := @reads_escaped strtod _ hvalid
    rw [escapeJson_raw hraw, clean_eq_self.mpr fun c hc => (hraw c hc).1] at hreads
    exact (answers_iff hreads).mpr (.inl rfl)

end Answering

/-- The text of an id is the JSON of an equal value, alone and in a reply,
exactly for the ids that are kept. -/
theorem answers_kept_iff {fmtDouble : ℚ → Str} {strtod : Str → Option ℚ} {msg id : Json}
    (hid : msg.find? "id".toList = some id) (hheld : IsId id)
    (hfmt : ∀ q, id = .float q → Printed fmtDouble strtod q) :
    (Answers strtod (safeIdJson fmtDouble msg) id ↔ Kept id) ∧
      (Answers strtod (proxySafeIdJson fmtDouble msg) id ↔ Kept id) ∧
      (Answers strtod (redirectorSafeIdJson msg) id ↔ KeptRaw id) := by
  have hpool : Answers strtod (safeIdJson fmtDouble msg) id ↔ Kept id := by
    unfold safeIdJson
    rw [hid]
    cases id with
    | null => exact answers_null
    | integer i =>
      have hhi := hheld.2
      exact (answers_int hheld.1 (by omega) rfl).trans (by simp [Kept])
    | unsigned n => exact answers_unsigned hheld
    | float q => exact iff_true_intro (answers_float (hfmt q rfl))
    | string s => exact answers_escaped
    | bool b => exact hheld.elim
    | array xs => exact hheld.elim
    | object fields => exact hheld.elim
  refine ⟨hpool, hpool, ?_⟩
  unfold redirectorSafeIdJson
  rw [hid]
  cases id with
  | null => exact answers_null
  | integer i =>
    have hhi := hheld.2
    exact (answers_int hheld.1 (by omega) rfl).trans (by simp [KeptRaw])
  | unsigned n => exact answers_unsigned hheld
  | float q =>
    refine (answers_iff reads_null).trans (iff_of_false ?_ id)
    rintro (h | ⟨h, -⟩) <;> cases h
  | string s => exact answers_quoted
  | bool b => exact hheld.elim
  | array xs => exact hheld.elim
  | object fields => exact hheld.elim

/-- How one and a half is printed, and read. -/
theorem printed_sample :
    Printed (fun q => if q = 3 / 2 then "1.5".toList else [])
      (fun s => if s = "1.5".toList then some (3 / 2) else none) (3 / 2) :=
  ⟨{ whole := 1, fraction := ['5'] }, ⟨List.forall_mem_singleton.mpr rfl, by simp⟩,
    (if_pos rfl).trans (by decide), if_pos (by decide), fun h => absurd h (by decide)⟩

theorem answers_kept_iff_float :
    let fmtDouble (q : ℚ) : Str := if q = 3 / 2 then "1.5".toList else []
    let strtod (s : Str) : Option ℚ := if s = "1.5".toList then some (3 / 2) else none
    let msg : Json := .object [("id".toList, .float (3 / 2))]
    (Answers strtod (safeIdJson fmtDouble msg) (.float (3 / 2)) ↔ Kept (.float (3 / 2))) ∧
      (Answers strtod (proxySafeIdJson fmtDouble msg) (.float (3 / 2)) ↔ Kept (.float (3 / 2))) ∧
      (Answers strtod (redirectorSafeIdJson msg) (.float (3 / 2)) ↔ KeptRaw (.float (3 / 2))) := by
  refine answers_kept_iff rfl trivial fun q hq => ?_
  obtain rfl := Json.float.inj hq
  exact printed_sample

/-- The first number without a sign that is too great, a line break, a quote,
and a fraction. -/
theorem ids_not_answered :
    let strtod (_ : Str) : Option ℚ := none
    let fmtDouble (_ : ℚ) : Str := []
    let asking (id : Json) : Json := .object [("id".toList, id)]
    ¬ Answers strtod (safeIdJson fmtDouble (asking (.unsigned (2 ^ 63)))) (.unsigned (2 ^ 63)) ∧
      ¬ Answers strtod (proxySafeIdJson fmtDouble (asking (.string ['\n']))) (.string ['\n']) ∧
      ¬ Answers strtod (redirectorSafeIdJson (asking (.string ['"']))) (.string ['"']) ∧
      ¬ Answers strtod (redirectorSafeIdJson (asking (.float (3 / 2)))) (.float (3 / 2)) := by
  refine ⟨fun h => ?_, fun h => ?_, fun h => ?_, fun h => ?_⟩
  · exact absurd ((answers_unsigned (by decide)).mp h) (by decide)
  · exact absurd ((answers_escaped.mp h).2 '\n' (by simp)) (by decide)
  · exact (answers_quoted.mp h).2 '"' (by simp) |>.2.1 rfl
  · obtain hsame | ⟨hsome, -⟩ := (answers_iff reads_null).mp h
    · cases hsame
    · cases hsome

end MkPool.RequestIds
