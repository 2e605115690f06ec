import MkPool.Lib.Wire

/-! # Byte codecs

A codec writes a value, and reads one from the front of a byte string. What it
reads is what it would have written: a value has one text, and a text one
value. Codecs are put together from smaller ones, their law with them. -/
namespace MkPool.Lib
open MkPool.Lib.Wire

structure Codec (α : Type) where
  /-- The values that can be written. -/
  Fits : α → Prop
  write : α → List UInt8
  read : List UInt8 → Option (α × List UInt8)
  read_iff : ∀ bs a rest, read bs = some (a, rest) ↔ Fits a ∧ bs = write a ++ rest

namespace Codec

variable {α β : Type}

theorem read_write (c : Codec α) {a : α} (h : c.Fits a) (rest : List UInt8) :
    c.read (c.write a ++ rest) = some (a, rest) :=
  (c.read_iff _ _ _).mpr ⟨h, rfl⟩

/-- No value's text starts another's. -/
theorem write_append_inj (c : Codec α) {a b : α} {s t : List UInt8} (ha : c.Fits a)
    (hb : c.Fits b) (h : c.write a ++ s = c.write b ++ t) : a = b ∧ s = t := by
  have hread := c.read_write ha s
  rw [h, c.read_write hb] at hread
  obtain ⟨rfl, rfl⟩ := Prod.mk.inj (Option.some.inj hread)
  exact ⟨rfl, rfl⟩

/-- The value of a text that nothing follows. -/
def whole (c : Codec α) (bs : List UInt8) : Option α :=
  (c.read bs).bind fun p => if p.2.isEmpty then some p.1 else none

theorem whole_eq_some (c : Codec α) {bs : List UInt8} {a : α} :
    c.whole bs = some a ↔ c.Fits a ∧ bs = c.write a := by
  constructor
  · intro h
    obtain ⟨⟨a', rest⟩, hread, h⟩ := Option.bind_eq_some_iff.mp h
    obtain ⟨hfits, hbs⟩ := (c.read_iff _ _ _).mp hread
    dsimp only at h
    split at h
    · rename_i hrest
      obtain rfl := List.isEmpty_iff.mp hrest
      cases h
      exact ⟨hfits, by rw [hbs, List.append_nil]⟩
    · cases h
  · rintro ⟨hfits, rfl⟩
    have hread := c.read_write hfits []
    rw [List.append_nil] at hread
    unfold whole
    rw [hread]
    rfl

/-! ## Putting codecs together -/

/-- A given number of bytes. -/
def fixed (n : Nat) : Codec (List UInt8) where
  Fits bs := bs.length = n
  write bs := bs
  read bs := if n ≤ bs.length then some (bs.take n, bs.drop n) else none
  read_iff bs a rest := by
    constructor
    · intro h
      split at h
      · rename_i hn
        cases h
        exact ⟨by rw [List.length_take]; omega, (List.take_append_drop n bs).symm⟩
      · cases h
    · rintro ⟨hlen, rfl⟩
      rw [if_pos (by rw [List.length_append]; omega), List.take_left' hlen, List.drop_left' hlen]

/-- Another presentation of the values: `g` is written, and `f` of what is
read. -/
def map (c : Codec α) (f : α → β) (g : β → α) (hgf : ∀ a, c.Fits a → g (f a) = a) : Codec β where
  Fits b := f (g b) = b ∧ c.Fits (g b)
  write b := c.write (g b)
  read bs := (c.read bs).map fun p => (f p.1, p.2)
  read_iff bs b rest := by
    constructor
    · intro h
      obtain ⟨⟨a, rest'⟩, hread, he⟩ := Option.map_eq_some_iff.mp h
      obtain ⟨rfl, rfl⟩ := Prod.mk.inj he
      obtain ⟨hfits, hbs⟩ := (c.read_iff _ _ _).mp hread
      have hga := hgf a hfits
      exact ⟨⟨by rw [hga], by rw [hga]; exact hfits⟩, by rw [hga]; exact hbs⟩
    · rintro ⟨⟨hfg, hfits⟩, rfl⟩
      rw [c.read_write hfits]
      simp [hfg]

/-- One value after another. -/
def seq (c : Codec α) (d : Codec β) : Codec (α × β) where
  Fits p := c.Fits p.1 ∧ d.Fits p.2
  write p := c.write p.1 ++ d.write p.2
  read bs := do
    let (a, bs) ← c.read bs
    let (b, bs) ← d.read bs
    return ((a, b), bs)
  read_iff bs p rest := by
    constructor
    · intro h
      obtain ⟨⟨a, bs'⟩, ha, h⟩ := Option.bind_eq_some_iff.mp h
      obtain ⟨⟨b, bs''⟩, hb, h⟩ := Option.bind_eq_some_iff.mp h
      cases h
      obtain ⟨hfa, rfl⟩ := (c.read_iff _ _ _).mp ha
      obtain ⟨hfb, rfl⟩ := (d.read_iff _ _ _).mp hb
      exact ⟨⟨hfa, hfb⟩, by rw [List.append_assoc]⟩
    · rintro ⟨⟨ha, hb⟩, rfl⟩
      rw [List.append_assoc, c.read_write ha]
      dsimp only [Option.bind_eq_bind, Option.bind_some]
      rw [d.read_write hb]
      rfl

/-- A value, and another in a codec that depends on it. -/
def seqDep (c : Codec α) (d : α → Codec β) : Codec (α × β) where
  Fits p := c.Fits p.1 ∧ (d p.1).Fits p.2
  write p := c.write p.1 ++ (d p.1).write p.2
  read bs := do
    let (a, bs) ← c.read bs
    let (b, bs) ← (d a).read bs
    return ((a, b), bs)
  read_iff bs p rest := by
    constructor
    · intro h
      obtain ⟨⟨a, bs'⟩, ha, h⟩ := Option.bind_eq_some_iff.mp h
      obtain ⟨⟨b, bs''⟩, hb, h⟩ := Option.bind_eq_some_iff.mp h
      cases h
      obtain ⟨hfa, rfl⟩ := (c.read_iff _ _ _).mp ha
      obtain ⟨hfb, rfl⟩ := ((d a).read_iff _ _ _).mp hb
      exact ⟨⟨hfa, hfb⟩, by rw [List.append_assoc]⟩
    · rintro ⟨⟨ha, hb⟩, rfl⟩
      rw [List.append_assoc, c.read_write ha]
      dsimp only [Option.bind_eq_bind, Option.bind_some]
      rw [(d p.1).read_write hb]
      rfl

/-- The values that meet a condition. -/
def restrict (c : Codec α) (p : α → Bool) : Codec α where
  Fits a := c.Fits a ∧ p a = true
  write := c.write
  read bs := (c.read bs).filter fun r => p r.1
  read_iff bs a rest := by
    rw [Option.filter_eq_some_iff, c.read_iff]
    constructor
    · rintro ⟨⟨hfits, hbs⟩, hp⟩
      exact ⟨⟨hfits, hp⟩, hbs⟩
    · rintro ⟨⟨hfits, hp⟩, hbs⟩
      exact ⟨⟨hfits, hbs⟩, hp⟩

/-- Given bytes. -/
def mark (w : List UInt8) : Codec Unit :=
  ((fixed w.length).restrict fun bs => bs == w).map (fun _ => ()) (fun _ => w) fun _ h =>
    (beq_iff_eq.mp h.2).symm

/-- A value of one codec or of another, whose texts are never alike. -/
def either (c : Codec α) (d : Codec β)
    (apart : ∀ a b s t, c.Fits a → d.Fits b → c.write a ++ s ≠ d.write b ++ t) :
    Codec (α ⊕ β) where
  Fits := Sum.elim c.Fits d.Fits
  write := Sum.elim c.write d.write
  read bs :=
    match c.read bs with
    | some (a, rest) => some (.inl a, rest)
    | none => (d.read bs).map fun r => (.inr r.1, r.2)
  read_iff bs v rest := by
    cases hc : c.read bs with
    | some r =>
      obtain ⟨hfits, hbs⟩ := (c.read_iff _ _ _).mp hc
      cases v with
      | inl a =>
        constructor
        · intro h
          cases h
          exact ⟨hfits, hbs⟩
        · intro h
          rw [(c.read_iff bs a rest).mpr h] at hc
          cases hc
          rfl
      | inr b =>
        constructor
        · intro h
          cases h
        · rintro ⟨hb, hbs'⟩
          exact absurd (hbs.symm.trans hbs') (apart _ _ _ _ hfits hb)
    | none =>
      cases v with
      | inl a =>
        constructor
        · intro h
          obtain ⟨_, _, h⟩ := Option.map_eq_some_iff.mp h
          cases h
        · intro h
          rw [(c.read_iff bs a rest).mpr h] at hc
          cases hc
      | inr b =>
        constructor
        · intro h
          obtain ⟨_, hd, h⟩ := Option.map_eq_some_iff.mp h
          cases h
          exact (d.read_iff _ _ _).mp hd
        · intro h
          exact Option.map_eq_some_iff.mpr ⟨(b, rest), (d.read_iff bs b rest).mpr h, rfl⟩

/-- A size, then a value of that size. -/
def sized (c : Codec Nat) (body : Nat → Codec β) (size : β → Nat)
    (hsize : ∀ n b, (body n).Fits b → size b = n) : Codec β where
  Fits b := c.Fits (size b) ∧ (body (size b)).Fits b
  write b := c.write (size b) ++ (body (size b)).write b
  read bs := do
    let (n, bs) ← c.read bs
    (body n).read bs
  read_iff bs b rest := by
    constructor
    · intro h
      obtain ⟨⟨n, bs'⟩, hn, hbody⟩ := Option.bind_eq_some_iff.mp h
      obtain ⟨hfn, rfl⟩ := (c.read_iff _ _ _).mp hn
      obtain ⟨hfb, rfl⟩ := ((body n).read_iff _ _ _).mp hbody
      obtain rfl := hsize n b hfb
      exact ⟨⟨hfn, hfb⟩, by rw [List.append_assoc]⟩
    · rintro ⟨⟨hn, hb⟩, rfl⟩
      rw [List.append_assoc, c.read_write hn]
      exact (body (size b)).read_write hb rest

/-- As many values as are asked for. -/
def readTimes (c : Codec α) : Nat → List UInt8 → Option (List α × List UInt8)
  | 0, bs => some ([], bs)
  | n + 1, bs => do
    let (a, bs) ← c.read bs
    let (as, bs) ← readTimes c n bs
    return (a :: as, bs)

theorem readTimes_iff (c : Codec α) (n : Nat) (bs : List UInt8) (as : List α)
    (rest : List UInt8) : c.readTimes n bs = some (as, rest) ↔
      (as.length = n ∧ ∀ a ∈ as, c.Fits a) ∧ bs = as.flatMap c.write ++ rest := by
  induction n generalizing bs as with
  | zero =>
    constructor
    · intro h
      cases h
      exact ⟨⟨rfl, by simp⟩, rfl⟩
    · rintro ⟨⟨hlen, _⟩, rfl⟩
      obtain rfl := List.length_eq_zero_iff.mp hlen
      rfl
  | succ n ih =>
    constructor
    · intro h
      obtain ⟨⟨a, bs'⟩, ha, h⟩ := Option.bind_eq_some_iff.mp h
      obtain ⟨⟨as', bs''⟩, has, h⟩ := Option.bind_eq_some_iff.mp h
      cases h
      obtain ⟨hfa, rfl⟩ := (c.read_iff _ _ _).mp ha
      obtain ⟨⟨hlen, hall⟩, rfl⟩ := (ih _ _).mp has
      refine ⟨⟨by simp [hlen], ?_⟩, by simp⟩
      intro x hx
      rcases List.mem_cons.mp hx with rfl | hx
      · exact hfa
      · exact hall x hx
    · rintro ⟨⟨hlen, hall⟩, rfl⟩
      obtain _ | ⟨a, as⟩ := as
      · cases hlen
      · have has := (ih (as.flatMap c.write ++ rest) as).mpr
          ⟨⟨Nat.succ.inj hlen, fun x hx => hall x (List.mem_cons_of_mem _ hx)⟩, rfl⟩
        unfold readTimes
        rw [List.flatMap_cons, List.append_assoc, c.read_write (hall a List.mem_cons_self)]
        dsimp only [Option.bind_eq_bind, Option.bind_some]
        rw [has]
        rfl

def times (c : Codec α) (n : Nat) : Codec (List α) where
  Fits as := as.length = n ∧ ∀ a ∈ as, c.Fits a
  write as := as.flatMap c.write
  read := c.readTimes n
  read_iff := c.readTimes_iff n

/-! ## Numbers -/

/-- A number in `n` bytes, least significant first. -/
def le (n : Nat) : Codec Nat :=
  (fixed n).map leValue (leBytes n) fun bs hbs => by
    have hlen : bs.length = n := hbs
    rw [← hlen]
    exact leBytes_leValue bs

theorem fits_le {n v : Nat} : (le n).Fits v ↔ v < 256 ^ n := by
  constructor
  · rintro ⟨hv, _⟩
    rw [← hv]
    simpa using leValue_lt (leBytes n v)
  · intro h
    exact ⟨leValue_leBytes h, length_leBytes n v⟩

@[simp] theorem write_le (n v : Nat) : (le n).write v = leBytes n v := rfl

/-! ## Compact sizes -/

/-- A number in the shortest of one, three, five and nine bytes. -/
def writeCompact (n : Nat) : List UInt8 :=
  if n < 0xfd then leBytes 1 n
  else if n < 2 ^ 16 then 0xfd :: leBytes 2 n
  else if n < 2 ^ 32 then 0xfe :: leBytes 4 n
  else 0xff :: leBytes 8 n

/-- A number of `width` bytes that has no shorter form. -/
def readWide (width least : Nat) (bs : List UInt8) : Option (Nat × List UInt8) :=
  ((le width).read bs).filter fun p => decide (least ≤ p.1)

def readCompact : List UInt8 → Option (Nat × List UInt8)
  | [] => none
  | b :: bs =>
    if b.toNat < 0xfd then some (b.toNat, bs)
    else if b.toNat = 0xfd then readWide 2 0xfd bs
    else if b.toNat = 0xfe then readWide 4 (2 ^ 16) bs
    else readWide 8 (2 ^ 32) bs

theorem readWide_iff {width least n : Nat} {bs rest : List UInt8} :
    readWide width least bs = some (n, rest) ↔
      (least ≤ n ∧ n < 256 ^ width) ∧ bs = leBytes width n ++ rest := by
  unfold readWide
  rw [Option.filter_eq_some_iff, (le width).read_iff, fits_le, decide_eq_true_eq]
  exact ⟨fun ⟨⟨hn, hbs⟩, hleast⟩ => ⟨⟨hleast, hn⟩, hbs⟩,
    fun ⟨⟨hleast, hn⟩, hbs⟩ => ⟨⟨hn, hbs⟩, hleast⟩⟩

/-- The first byte of a compact size is the number, or the width. -/
theorem writeCompact_cons (n : Nat) : ∃ b bs, writeCompact n = b :: bs ∧
    b.toNat = if n < 0xfd then n else if n < 2 ^ 16 then 0xfd else if n < 2 ^ 32 then 0xfe
      else 0xff := by
  unfold writeCompact
  by_cases h₁ : n < 0xfd
  · rw [if_pos h₁, if_pos h₁]
    refine ⟨UInt8.ofNat (n % 256), [], rfl, ?_⟩
    rw [UInt8.toNat_ofNat']
    omega
  · rw [if_neg h₁, if_neg h₁]
    split <;> [skip; split] <;> exact ⟨_, _, rfl, rfl⟩

theorem readCompact_iff (bs : List UInt8) (n : Nat) (rest : List UInt8) :
    readCompact bs = some (n, rest) ↔ n < 2 ^ 64 ∧ bs = writeCompact n ++ rest := by
  cases bs with
  | nil =>
    obtain ⟨b, bs, hw, _⟩ := writeCompact_cons n
    simp [readCompact, hw]
  | cons b bs =>
    have hb : b.toNat < 256 := b.toNat_lt
    have byte (k : Nat) (hk : k < 256) (h : b.toNat = k) : b = UInt8.ofNat k := by
      rw [← h, UInt8.ofNat_toNat]
    constructor
    · intro h
      rw [readCompact] at h
      unfold writeCompact
      split at h
      · rename_i hsmall
        cases h
        refine ⟨by omega, ?_⟩
        rw [if_pos hsmall, leBytes, leBytes, Nat.mod_eq_of_lt hb, UInt8.ofNat_toNat]
        rfl
      · split at h <;> [skip; split at h]
        all_goals
          obtain ⟨⟨hleast, hn⟩, rfl⟩ := readWide_iff.mp h
          refine ⟨by omega, ?_⟩
        · rw [if_neg (by omega), if_pos (by omega), byte 0xfd (by omega) (by omega)]
          rfl
        · rw [if_neg (by omega), if_neg (by omega), if_pos (by omega),
            byte 0xfe (by omega) (by omega)]
          rfl
        · rw [if_neg (by omega), if_neg (by omega), if_neg (by omega),
            byte 0xff (by omega) (by omega)]
          rfl
    · rintro ⟨hn, hbs⟩
      unfold writeCompact at hbs
      rw [readCompact]
      split at hbs
      · rename_i hsmall
        obtain ⟨rfl, rfl⟩ := List.cons.inj hbs
        have hv : (UInt8.ofNat (n % 256)).toNat = n := by
          rw [UInt8.toNat_ofNat']
          omega
        rw [hv, if_pos hsmall]
      · split at hbs <;> [skip; split at hbs]
        all_goals
          obtain ⟨rfl, rfl⟩ := List.cons.inj hbs
        · rw [if_neg (by decide), if_pos (by decide)]
          exact readWide_iff.mpr ⟨⟨by omega, by omega⟩, rfl⟩
        · rw [if_neg (by decide), if_neg (by decide), if_pos (by decide)]
          exact readWide_iff.mpr ⟨⟨by omega, by omega⟩, rfl⟩
        · rw [if_neg (by decide), if_neg (by decide), if_neg (by decide)]
          exact readWide_iff.mpr ⟨⟨by omega, by omega⟩, rfl⟩

def compact : Codec Nat where
  Fits n := n < 2 ^ 64
  write := writeCompact
  read := readCompact
  read_iff := readCompact_iff

theorem write_compact_small {n : Nat} (h : n < 0xfd) :
    compact.write n = [UInt8.ofNat n] := by
  show writeCompact n = _
  rw [writeCompact, if_pos h, leBytes, leBytes, Nat.mod_eq_of_lt (by omega)]

/-- A text that starts with a one-byte size starts with no other. -/
theorem eq_of_compact_small {m n : Nat} {s t : List UInt8} (h : n < 0xfd)
    (he : compact.write n ++ s = compact.write m ++ t) : m = n := by
  obtain ⟨b, bs, hw, hb⟩ := writeCompact_cons m
  have hwm : compact.write m = b :: bs := hw
  rw [write_compact_small h, hwm, List.singleton_append, List.cons_append] at he
  have hn : b.toNat = n := by
    rw [← (List.cons.inj he).1, UInt8.toNat_ofNat']
    omega
  rw [hn] at hb
  split at hb <;> [exact hb.symm; split at hb] <;> [omega; split at hb] <;> omega

/-! ## Sized values -/

/-- Bytes after their number. -/
def blob : Codec (List UInt8) :=
  compact.sized fixed List.length fun _ _ h => h

/-- A list after its length. -/
def counted (c : Codec α) : Codec (List α) :=
  compact.sized c.times List.length fun _ _ h => h.1

theorem fits_blob {bs : List UInt8} : blob.Fits bs ↔ bs.length < 2 ^ 64 :=
  ⟨fun h => h.1, fun h => ⟨h, rfl⟩⟩

@[simp] theorem write_blob (bs : List UInt8) :
    blob.write bs = compact.write bs.length ++ bs := rfl

theorem fits_counted {c : Codec α} {as : List α} :
    c.counted.Fits as ↔ as.length < 2 ^ 64 ∧ ∀ a ∈ as, c.Fits a :=
  ⟨fun h => ⟨h.1, h.2.2⟩, fun h => ⟨h.1, rfl, h.2⟩⟩

@[simp] theorem write_counted (c : Codec α) (as : List α) :
    c.counted.write as = compact.write as.length ++ as.flatMap c.write := rfl

end Codec

end MkPool.Lib
