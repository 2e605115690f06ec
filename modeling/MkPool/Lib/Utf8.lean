import Mathlib.Algebra.Order.Ring.Nat
import Mathlib.Data.List.Basic
import Mathlib.Tactic.SplitIfs

/-! # UTF-8

Text is a list of characters, one a byte. The first byte of a scalar value says
in which ranges the bytes after it lie: shortest forms only, no surrogates, and
nothing above U+10FFFF. -/
namespace MkPool.Lib.Utf8

structure Range where
  lo : Nat
  hi : Nat
deriving DecidableEq

def Range.holds (r : Range) (c : Char) : Bool := r.lo ≤ c.toNat && c.toNat ≤ r.hi

/-- Any continuation byte. -/
def tail : Range := ⟨0x80, 0xBF⟩

/-- The ranges of the bytes that follow a first byte. -/
def follow (c : Char) : Option (List Range) :=
  let n := c.toNat
  if n < 0x80 then some []
  else if n < 0xC2 then none
  else if n < 0xE0 then some [tail]
  else if n = 0xE0 then some [⟨0xA0, 0xBF⟩, tail]
  else if n < 0xED then some [tail, tail]
  else if n = 0xED then some [⟨0x80, 0x9F⟩, tail]
  else if n < 0xF0 then some [tail, tail]
  else if n = 0xF0 then some [⟨0x90, 0xBF⟩, tail, tail]
  else if n < 0xF4 then some [tail, tail, tail]
  else if n = 0xF4 then some [⟨0x80, 0x8F⟩, tail, tail]
  else none

theorem follow_ascii {c : Char} (h : c.toNat < 0x80) : follow c = some [] := if_pos h

/-- A byte that follows is never ASCII. -/
theorem lo_follow {c : Char} {rs : List Range} (h : follow c = some rs) :
    ∀ r ∈ rs, 0x80 ≤ r.lo := by
  unfold follow at h
  dsimp only at h
  split_ifs at h <;> cases h <;> simp [tail]

/-- What is left is valid where bytes of these ranges are still owed. -/
def validFrom : List Range → List Char → Bool
  | [], [] => true
  | _ :: _, [] => false
  | r :: rs, c :: s => r.holds c && validFrom rs s
  | [], c :: s =>
    match follow c with
    | some rs => validFrom rs s
    | none => false

def valid (s : List Char) : Bool := validFrom [] s

/-- The bytes of a scalar value. -/
def encode (n : Nat) : List Char :=
  let more (k : Nat) := Char.ofNat (0x80 + n / 64 ^ k % 64)
  if n < 0x80 then [Char.ofNat n]
  else if n < 0x800 then [Char.ofNat (0xC0 + n / 64), more 0]
  else if n < 0x10000 then [Char.ofNat (0xE0 + n / 4096), more 1, more 0]
  else [Char.ofNat (0xF0 + n / 262144), more 2, more 1, more 0]

theorem encode_ascii {n : Nat} (h : n < 0x80) : encode n = [Char.ofNat n] := if_pos h

end MkPool.Lib.Utf8
