import MkPool.JsonValue
import MkPool.Lib.Utf8

/-! # JSON as text

What `nlohmann::json` writes for the flat objects the pool sends, and its parser
without exceptions. `none` is the exception of `dump`, and the discarded value of
a parse that fails. -/
namespace MkPool.JsonText
open MkPool.Utils MkPool.JsonValue MkPool.Lib

/-! ## Writing -/

def hex4 (n : Nat) : Str := hexPadded 4 n

/-- The escapes of `dump`; the bytes of longer scalar values stand as they are. -/
def escapeChar (c : Char) : Str :=
  if c = '\x08' then ['\\', 'b']
  else if c = '\t' then ['\\', 't']
  else if c = '\n' then ['\\', 'n']
  else if c = '\x0c' then ['\\', 'f']
  else if c = '\r' then ['\\', 'r']
  else if c = '"' then ['\\', '"']
  else if c = '\\' then ['\\', '\\']
  else if c.toNat < 0x20 then '\\' :: 'u' :: hex4 c.toNat
  else [c]

/-- `dump_escaped`, with the continuation bytes still owed. -/
def escapeFrom : List Utf8.Range → Str → Option Str
  | [], [] => some []
  | _ :: _, [] => none
  | r :: rs, c :: s => if r.holds c then (escapeFrom rs s).map (c :: ·) else none
  | [], c :: s =>
    match Utf8.follow c with
    | some rs => (escapeFrom rs s).map (escapeChar c ++ ·)
    | none => none

def dumpString (s : Str) : Option Str := (escapeFrom [] s).map fun body => '"' :: body ++ ['"']

/-- A field of an object the pool writes. -/
inductive Field where
  | text (s : Str)
  | number (n : Nat)
deriving DecidableEq

def Field.json : Field → Json
  | .text s => .string s
  | .number n => .unsigned n

def Field.dump : Field → Option Str
  | .text s => dumpString s
  | .number n => some (toString n).toList

/-- An entry of an object, whose keys are in the order of a `std::map`. -/
def setField {α : Type} (key : Str) (v : α) : List (Str × α) → List (Str × α)
  | [] => [(key, v)]
  | f :: fields =>
    if key = f.1 then (key, v) :: fields
    else if key < f.1 then (key, v) :: f :: fields
    else f :: setField key v fields

/-- `json{{key, value}, …}`. -/
def object (fields : List (Str × Field)) : List (Str × Field) :=
  fields.foldl (fun obj f => setField f.1 f.2 obj) []

def dumpMember (f : Str × Field) : Option Str := do
  let key ← dumpString f.1
  let v ← f.2.dump
  return key ++ ':' :: v

/-- The members with commas between them. -/
def dumpMembers : List (Str × Field) → Option Str
  | [] => some []
  | [f] => dumpMember f
  | f :: fields => do
    let first ← dumpMember f
    let rest ← dumpMembers fields
    return first ++ ',' :: rest

/-- `dump` of the object. -/
def dump (fields : List (Str × Field)) : Option Str :=
  (dumpMembers (object fields)).map fun s => '\x7b' :: s ++ ['\x7d']

/-! ## The lexer -/

inductive Token where
  | beginObject
  | endObject
  | beginArray
  | endArray
  | colon
  | comma
  | endOfInput
  /-- A literal, a number or a string. -/
  | atom (v : Json)

/-- Where `scan_string` stands between two bytes. -/
inductive Scan where
  | text (owed : List Utf8.Range)
  | escape
  /-- Hexadecimal digits to come, and the value of those read. -/
  | hex (high : Option Nat) (missing value : Nat)
  | surrogate (high : Nat)
  | surrogateEscape (high : Nat)
deriving DecidableEq

def unescape (c : Char) : Option Char :=
  if c = '"' ∨ c = '\\' ∨ c = '/' then some c
  else if c = 'b' then some '\x08'
  else if c = 'f' then some '\x0c'
  else if c = 'n' then some '\n'
  else if c = 'r' then some '\r'
  else if c = 't' then some '\t'
  else none

/-- What four hexadecimal digits stand for, alone or after a high surrogate. -/
def Scan.codepoint (high : Option Nat) (n : Nat) : Option (Str × Scan) :=
  match high with
  | some h =>
    if 0xDC00 ≤ n ∧ n ≤ 0xDFFF then
      some (Utf8.encode (0x10000 + (h - 0xD800) * 0x400 + (n - 0xDC00)), .text [])
    else none
  | none =>
    if 0xD800 ≤ n ∧ n ≤ 0xDBFF then some ([], .surrogate n)
    else if 0xDC00 ≤ n ∧ n ≤ 0xDFFF then none
    else some (Utf8.encode n, .text [])

/-- One byte of a string: what it adds to the value. -/
def Scan.step : Scan → Char → Option (Str × Scan)
  | .text (r :: rs), c => if r.holds c then some ([c], .text rs) else none
  | .text [], c =>
    if c = '\\' then some ([], .escape)
    else if c.toNat < 0x20 then none
    else (Utf8.follow c).map fun rs => ([c], .text rs)
  | .escape, c =>
    if c = 'u' then some ([], .hex none 4 0) else (unescape c).map fun d => ([d], .text [])
  | .hex high missing value, c =>
    (Hex.nibble c).bind fun d =>
      if missing ≤ 1 then Scan.codepoint high (16 * value + d)
      else some ([], .hex high (missing - 1) (16 * value + d))
  | .surrogate high, c => if c = '\\' then some ([], .surrogateEscape high) else none
  | .surrogateEscape high, c => if c = 'u' then some ([], .hex (some high) 4 0) else none

/-- `scan_string`, behind the opening quote. -/
def scanString : Scan → Str → Option (Str × Str)
  | _, [] => none
  | st, c :: s =>
    if st = .text [] ∧ c = '"' then some ([], s)
    else
      (st.step c).bind fun (out, st') => (scanString st' s).map (Prod.map (out ++ ·) id)

def digits (s : Str) : Str × Str := s.span Char.isDigit

/-- At least one digit. -/
def scanDigits (s : Str) : Option (Str × Str) :=
  match digits s with
  | ([], _) => none
  | r => some r

def scanWhole : Str → Option (Str × Str)
  | '0' :: s => some (['0'], s)
  | s => scanDigits s

def scanFraction : Str → Option (Str × Str)
  | '.' :: s => (scanDigits s).map fun (ds, rest) => ('.' :: ds, rest)
  | s => some ([], s)

def scanExponent : Str → Option (Str × Str)
  | [] => some ([], [])
  | e :: s =>
    if e = 'e' ∨ e = 'E' then
      match s with
      | [] => none
      | c :: t =>
        if c = '+' ∨ c = '-' then (scanDigits t).map fun (ds, rest) => (e :: c :: ds, rest)
        else (scanDigits s).map fun (ds, rest) => (e :: ds, rest)
    else some ([], e :: s)

/-- The value of a number's text. A whole number that fits is one; the rest go to
`strtod`, which has no value for an overflow. -/
def number (strtod : Str → Option ℚ) (negative : Bool) (whole more : Str) : Option Json :=
  let n := Nat.ofDigitChars 10 whole 0
  if more = [] ∧ !negative ∧ n < 2 ^ 64 then some (.unsigned n)
  else if more = [] ∧ negative ∧ n ≤ 2 ^ 63 then some (.integer (-n))
  else (strtod ((if negative then ['-'] else []) ++ whole ++ more)).map .float

/-- `scan_number` behind the sign. -/
def scanUnsigned (strtod : Str → Option ℚ) (negative : Bool) (s : Str) : Option (Json × Str) := do
  let (whole, s) ← scanWhole s
  let (fraction, s) ← scanFraction s
  let (exponent, s) ← scanExponent s
  let v ← number strtod negative whole (fraction ++ exponent)
  return (v, s)

def scanNumber (strtod : Str → Option ℚ) : Str → Option (Json × Str)
  | '-' :: s => scanUnsigned strtod true s
  | s => scanUnsigned strtod false s

def isSpace (c : Char) : Bool := c = ' ' || c = '\t' || c = '\n' || c = '\r'

def scanLiteral (s : Str) : Option (Json × Str) :=
  if "true".toList <+: s then some (.bool true, s.drop 4)
  else if "false".toList <+: s then some (.bool false, s.drop 5)
  else if "null".toList <+: s then some (.null, s.drop 4)
  else none

/-- The next token and what is behind it. A NUL ends the input. -/
def scan (strtod : Str → Option ℚ) (s : Str) : Option (Token × Str) :=
  match s.dropWhile isSpace with
  | [] => some (.endOfInput, [])
  | c :: rest =>
    if c = '\x00' then some (.endOfInput, rest)
    else if c = '\x7b' then some (.beginObject, rest)
    else if c = '\x7d' then some (.endObject, rest)
    else if c = '[' then some (.beginArray, rest)
    else if c = ']' then some (.endArray, rest)
    else if c = ':' then some (.colon, rest)
    else if c = ',' then some (.comma, rest)
    else if c = '"' then (scanString (.text []) rest).map fun (t, more) => (.atom (.string t), more)
    else if c = '-' || c.isDigit then
      (scanNumber strtod (c :: rest)).map fun (v, more) => (.atom v, more)
    else (scanLiteral (c :: rest)).map fun (v, more) => (.atom v, more)

/-- The tokens up to the end of the input. Each takes a byte or more. -/
def tokens (strtod : Str → Option ℚ) : Nat → Str → Option (List Token)
  | 0, _ => none
  | fuel + 1, s =>
    (scan strtod s).bind fun (t, rest) =>
      match t with
      | .endOfInput => some []
      | t => (tokens strtod fuel rest).map (t :: ·)

def lex (strtod : Str → Option ℚ) (s : Str) : Option (List Token) := tokens strtod (s.length + 1) s

/-! ## The parser -/

/-- An array or an object that is not closed yet. -/
inductive Context where
  | element (xs : List Json)
  | member (fields : List (Str × Json)) (key : Str)

/-- What the parser waits for. -/
inductive State where
  | value (stack : List Context)
  | arrayStart (stack : List Context)
  | objectStart (stack : List Context)
  | nextKey (fields : List (Str × Json)) (stack : List Context)
  | colon (fields : List (Str × Json)) (key : Str) (stack : List Context)
  | after (v : Json) (stack : List Context)

def startValue (stack : List Context) : Token → Option State
  | .atom v => some (.after v stack)
  | .beginArray => some (.arrayStart stack)
  | .beginObject => some (.objectStart stack)
  | _ => none

/-- One token of `sax_parse_internal`. A repeated key takes the later value. -/
def State.step : State → Token → Option State
  | .value stack, t => startValue stack t
  | .arrayStart stack, .endArray => some (.after (.array []) stack)
  | .arrayStart stack, t => startValue (.element [] :: stack) t
  | .objectStart stack, .endObject => some (.after (.object []) stack)
  | .objectStart stack, .atom (.string key) => some (.colon [] key stack)
  | .nextKey fields stack, .atom (.string key) => some (.colon fields key stack)
  | .colon fields key stack, .colon => some (.value (.member fields key :: stack))
  | .after v (.element xs :: stack), .comma => some (.value (.element (xs ++ [v]) :: stack))
  | .after v (.element xs :: stack), .endArray => some (.after (.array (xs ++ [v])) stack)
  | .after v (.member fields key :: stack), .comma => some (.nextKey (setField key v fields) stack)
  | .after v (.member fields key :: stack), .endObject =>
    some (.after (.object (setField key v fields)) stack)
  | _, _ => none

def State.result : State → Option Json
  | .after v [] => some v
  | _ => none

/-- The byte order mark, which must be whole where it begins. -/
def skipBom : Str → Option Str
  | [] => some []
  | c :: s =>
    if c.toNat = 0xEF then
      match s with
      | b :: d :: rest => if b.toNat = 0xBB ∧ d.toNat = 0xBF then some rest else none
      | _ => none
    else some (c :: s)

/-- `json::parse(s, nullptr, false)`. -/
def parse (strtod : Str → Option ℚ) (s : Str) : Option Json := do
  let text ← skipBom s
  let ts ← lex strtod text
  let st ← ts.foldlM State.step (.value [])
  st.result

end MkPool.JsonText
