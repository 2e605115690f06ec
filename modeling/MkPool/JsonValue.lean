import MkPool.Utils

/-! # JSON values as the code reads them

A parsed `nlohmann::json`. `value` and the `get` functions throw on a type they
do not convert: they return `none` there. -/
namespace MkPool.JsonValue
open MkPool.Utils

/-- A parsed JSON value. The parser makes an `unsigned` of a whole number that
has no sign, an `integer` of one that has, and a `float` of the rest. -/
inductive Json where
  | null
  | bool (b : Bool)
  | integer (i : Int)
  | unsigned (n : Nat)
  | float (q : ℚ)
  | string (s : Str)
  | array (xs : List Json)
  | object (fields : List (Str × Json))
deriving Inhabited

namespace Json

def isObject : Json → Bool
  | object _ => true
  | _ => false

def isString : Json → Bool
  | string _ => true
  | _ => false

/-- `find(key)` on an object, nothing elsewhere. -/
def find? : Json → Str → Option Json
  | object fields, key => (fields.find? fun f => f.1 = key).map Prod.snd
  | _, _ => none

/-- `contains(key) && at(key).is_object()`. -/
def objectAt? (j : Json) (key : Str) : Option Json :=
  (j.find? key).filter isObject

/-- `contains(key) && at(key).is_array()`. -/
def arrayAt? (j : Json) (key : Str) : Option (List Json) :=
  match j.find? key with
  | some (array xs) => some xs
  | _ => none

/-- `get<std::string>()`. -/
def getString? : Json → Option Str
  | string s => some s
  | _ => none

/-- The number in a JSON value, where it has one. -/
def number? : Json → Option ℚ
  | integer i => some i
  | unsigned n => some n
  | float q => some q
  | _ => none

/-- Conversion of a number to a C integer, towards zero. -/
def truncate (q : ℚ) : Int := if 0 ≤ q then ⌊q⌋ else ⌈q⌉

/-- `get<std::int64_t>()`. -/
def getInt64? (j : Json) : Option Int := j.number?.map fun q => (truncate q).bmod (2 ^ 64)

/-- `get<int>()`, which also converts a boolean. -/
def getInt32? : Json → Option Int
  | bool b => some (if b then 1 else 0)
  | j => j.number?.map fun q => (truncate q).bmod (2 ^ 32)

/-- `get<std::uint32_t>()`. -/
def getUInt32? (j : Json) : Option UInt32 :=
  j.getInt32?.map fun i => UInt32.ofNat (i % 2 ^ 32).toNat

/-- `get<std::uint64_t>()`. -/
def getUInt64? (j : Json) : Option Nat := j.number?.map fun q => (truncate q % 2 ^ 64).toNat

/-- `value(key, fallback)`: the fallback where the key is missing, an
exception where the value is no object or the field does not convert. -/
def value {α : Type} (get : Json → Option α) (j : Json) (key : Str) (fallback : α) : Option α :=
  match j with
  | object _ =>
    match j.find? key with
    | some v => get v
    | none => some fallback
  | _ => none

def valueString (j : Json) (key : String) (fallback : Str) : Option Str :=
  value getString? j key.toList fallback

def valueInt64 (j : Json) (key : String) : Option Int := value getInt64? j key.toList 0

def valueUInt64 (j : Json) (key : String) : Option Nat := value getUInt64? j key.toList 0

def valueInt32 (j : Json) (key : String) : Option Int := value getInt32? j key.toList 0

def valueUInt32 (j : Json) (key : String) : Option UInt32 := value getUInt32? j key.toList 0

end Json

/-! ## Request ids -/

/-- The characters of a JSON string literal: quotes and backslashes escaped,
control characters replaced. -/
def escapeJson (s : Str) : Str :=
  s.flatMap fun c =>
    if c = '"' || c = '\\' then ['\\', c] else if c.toNat < 0x20 then ['?'] else [c]

/-- `safe_id_json`. The text of a floating id is `fmtDouble`'s. -/
def safeIdJson (fmtDouble : ℚ → Str) (msg : Json) : Str :=
  match msg.find? "id".toList with
  | some (.integer i) => (toString i).toList
  | some (.unsigned n) => (toString ((n : Int).bmod (2 ^ 64))).toList
  | some (.float q) => fmtDouble q
  | some (.string s) => '"' :: escapeJson s ++ ['"']
  | _ => "null".toList

end MkPool.JsonValue
