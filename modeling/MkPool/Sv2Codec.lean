import MkPool.Lib.Cursor
import MkPool.Utils

/-! # `sv2_codec.hpp`: the fields of the Stratum V2 wire format

A writer's calls append to its buffer: they are modelled as what they append. A
float is its bits. An array that is written by its length is cut at the widest
one its prefix can say. -/
namespace MkPool.Sv2Codec
open MkPool.Lib MkPool.Lib.Wire MkPool.Utils
open MkPool.Lib.Cursor (take times Reads)

/-- What a reader throws. -/
inductive Thrown where
  | outOfRange
  | tooLong
deriving DecidableEq

abbrev Reader := Cursor.Reader Thrown

/-! ## Writer -/

def writeU8 (v : UInt8) : Bytes := [v]

def writeBool (v : Bool) : Bytes := [if v then 1 else 0]

def writeU16 (v : UInt16) : Bytes := leBytes 2 v.toNat

/-- The low three bytes. -/
def writeU24 (v : UInt32) : Bytes := leBytes 3 v.toNat

def writeU32 (v : UInt32) : Bytes := leBytes 4 v.toNat

def writeU64 (v : UInt64) : Bytes := leBytes 8 v.toNat

def writeU256 (v : Hash256) : Bytes := v.bytes

def writeF32 (bits : UInt32) : Bytes := writeU32 bits

/-- The bytes of a `std::string`. -/
def bytesOf (s : Str) : Bytes := s.map fun c => UInt8.ofNat c.toNat

def writeStr0_255 (s : Str) : Bytes :=
  let len := min s.length 255
  writeU8 (UInt8.ofNat len) ++ bytesOf (s.take len)

def writeB0_32 (bs : Bytes) : Bytes :=
  let len := min bs.length 32
  writeU8 (UInt8.ofNat len) ++ bs.take len

def writeB0_64k (bs : Bytes) : Bytes :=
  let len := min bs.length 65535
  writeU16 (UInt16.ofNat len) ++ bs.take len

def writeOptionU32 : Option UInt32 → Bytes
  | some v => writeU8 1 ++ writeU32 v
  | none => writeU8 0

def writeSeq0_255U256 (hs : List Hash256) : Bytes :=
  let len := min hs.length 255
  writeU8 (UInt8.ofNat len) ++ (hs.take len).flatMap writeU256

/-! ## Reader -/

/-- The bytes of an integer, or-ed together from the low end. -/
def readLe (n : Nat) : Reader Nat := do
  let bs ← take .outOfRange n
  return leValue bs

def readU8 : Reader UInt8 := do
  let v ← readLe 1
  return UInt8.ofNat v

def readBool : Reader Bool := do
  let v ← readU8
  return v != 0

def readU16 : Reader UInt16 := do
  let v ← readLe 2
  return UInt16.ofNat v

def readU24 : Reader UInt32 := do
  let v ← readLe 3
  return UInt32.ofNat v

def readU32 : Reader UInt32 := do
  let v ← readLe 4
  return UInt32.ofNat v

def readU64 : Reader UInt64 := do
  let v ← readLe 8
  return UInt64.ofNat v

/-- An array of 32 bytes filled from the front. -/
def hashOfBytes (bs : Bytes) : Hash256 :=
  if h : bs.length = 32 then ⟨bs, h⟩ else Hash256.zero

def readU256 : Reader Hash256 := do
  let bs ← take .outOfRange 32
  return hashOfBytes bs

def readF32 : Reader UInt32 := readU32

/-- The `std::string` of some bytes. -/
def strOf (bs : Bytes) : Str := bs.map fun b => Char.ofNat b.toNat

def readStr0_255 : Reader Str := do
  let len ← readU8
  let bs ← take .outOfRange len.toNat
  return strOf bs

def readB0_32 : Reader Bytes := do
  let len ← readU8
  if len.toNat > 32 then throw (.thrown .tooLong)
  take .outOfRange len.toNat

def readB0_64k : Reader Bytes := do
  let len ← readU16
  take .outOfRange len.toNat

def readOptionU32 : Reader (Option UInt32) := do
  let active ← readU8
  if active != 0 then
    let v ← readU32
    return some v
  else return none

def readSeq0_255U256 : Reader (List Hash256) := do
  let len ← readU8
  times readU256 len.toNat

/-! ## What a reader takes -/

/-- A text of bytes: characters of one byte each. -/
def ByteText (s : Str) : Prop := ∀ c ∈ s, c.toNat < 256

instance (s : Str) : Decidable (ByteText s) :=
  inferInstanceAs (Decidable (∀ c ∈ s, c.toNat < 256))

theorem toNat_charOfByte (b : UInt8) : (Char.ofNat b.toNat).toNat = b.toNat := by
  have hb : b.toNat < 256 := b.toNat_lt
  have hvalid : b.toNat.isValidChar := Or.inl (by omega)
  rw [Char.ofNat, dif_pos hvalid]
  rfl

theorem bytesOf_strOf (bs : Bytes) : bytesOf (strOf bs) = bs := by
  unfold bytesOf strOf
  rw [List.map_map]
  conv_rhs => rw [← List.map_id bs]
  refine List.map_congr_left fun b _ => ?_
  simp [toNat_charOfByte]

theorem strOf_bytesOf {s : Str} (h : ByteText s) : strOf (bytesOf s) = s := by
  unfold bytesOf strOf
  rw [List.map_map]
  conv_rhs => rw [← List.map_id s]
  refine List.map_congr_left fun c hc => ?_
  have hlt := h c hc
  have hb : (UInt8.ofNat c.toNat).toNat = c.toNat := by
    rw [UInt8.toNat_ofNat']
    omega
  simp [hb, Char.ofNat_toNat]

theorem byteText_strOf (bs : Bytes) : ByteText (strOf bs) := by
  intro c hc
  obtain ⟨b, _, rfl⟩ := List.mem_map.mp hc
  rw [toNat_charOfByte]
  exact b.toNat_lt

@[simp] theorem length_bytesOf (s : Str) : (bytesOf s).length = s.length := by simp [bytesOf]

@[simp] theorem length_strOf (bs : Bytes) : (strOf bs).length = bs.length := by simp [strOf]

theorem hashOfBytes_bytes (h : Hash256) : hashOfBytes h.bytes = h := by
  rw [hashOfBytes, dif_pos h.size]

theorem bytes_hashOfBytes {bs : Bytes} (h : bs.length = 32) : (hashOfBytes bs).bytes = bs := by
  rw [hashOfBytes, dif_pos h]

theorem reads_le (n : Nat) : Reads (readLe n) fun v t => v < 256 ^ n ∧ t = leBytes n v := by
  refine (Cursor.reads_take _ n).map.congr fun v t => ?_
  constructor
  · rintro ⟨bs, ⟨rfl, hlen⟩, rfl⟩
    rw [← hlen]
    exact ⟨leValue_lt bs, (leBytes_leValue bs).symm⟩
  · rintro ⟨hv, rfl⟩
    exact ⟨_, ⟨rfl, length_leBytes n v⟩, (leValue_leBytes hv).symm⟩

/-- An integer type of `n` bytes, written by its value. -/
theorem reads_integer {α : Type} {n : Nat} {ofNat : Nat → α} {toNat : α → Nat}
    (hlt : ∀ a, toNat a < 256 ^ n) (hof : ∀ a, ofNat (toNat a) = a)
    (hto : ∀ v, v < 256 ^ n → toNat (ofNat v) = v) :
    Reads (readLe n >>= fun v => pure (ofNat v)) fun a t => t = leBytes n (toNat a) := by
  refine (reads_le n).map.congr fun a t => ?_
  constructor
  · rintro ⟨v, ⟨hv, rfl⟩, rfl⟩
    rw [hto v hv]
  · rintro rfl
    exact ⟨toNat a, ⟨hlt a, rfl⟩, (hof a).symm⟩

theorem reads_u8 : Reads readU8 fun v t => t = writeU8 v := by
  refine (reads_integer (fun a : UInt8 => a.toNat_lt) (fun a => UInt8.ofNat_toNat)
    fun v hv => ?_).congr fun v t => ?_
  · rw [UInt8.toNat_ofNat']
    omega
  · have hv : v.toNat % 256 = v.toNat := Nat.mod_eq_of_lt v.toNat_lt
    simp [leBytes, writeU8, hv]

theorem reads_bool : Reads readBool fun v t => ∃ tag, t = writeU8 tag ∧ v = (tag != 0) :=
  reads_u8.map

theorem reads_u16 : Reads readU16 fun v t => t = writeU16 v :=
  reads_integer (fun a : UInt16 => a.toNat_lt) (fun _ => UInt16.ofNat_toNat) fun v hv => by
    rw [UInt16.toNat_ofNat']
    omega

theorem reads_u24 : Reads readU24 fun v t => v.toNat < 2 ^ 24 ∧ t = writeU24 v := by
  refine (reads_le 3).map.congr fun v t => ?_
  constructor
  · rintro ⟨n, ⟨hn, rfl⟩, rfl⟩
    have hv : (UInt32.ofNat n).toNat = n := by
      rw [UInt32.toNat_ofNat']
      omega
    rw [writeU24, hv]
    exact ⟨hn, rfl⟩
  · rintro ⟨hv, rfl⟩
    exact ⟨v.toNat, ⟨hv, rfl⟩, UInt32.ofNat_toNat.symm⟩

theorem reads_u32 : Reads readU32 fun v t => t = writeU32 v :=
  reads_integer (fun a : UInt32 => a.toNat_lt) (fun _ => UInt32.ofNat_toNat) fun v hv => by
    rw [UInt32.toNat_ofNat']
    omega

theorem reads_u256 : Reads readU256 fun v t => t = writeU256 v := by
  refine (Cursor.reads_take _ 32).map.congr fun v t => ?_
  constructor
  · rintro ⟨bs, ⟨rfl, hlen⟩, rfl⟩
    exact (bytes_hashOfBytes hlen).symm
  · rintro rfl
    exact ⟨v.bytes, ⟨rfl, v.size⟩, (hashOfBytes_bytes v).symm⟩

theorem reads_f32 : Reads readF32 fun v t => t = writeF32 v := reads_u32

theorem writeStr0_255_of_le {s : Str} (h : s.length ≤ 255) :
    writeStr0_255 s = writeU8 (UInt8.ofNat s.length) ++ bytesOf s := by
  rw [writeStr0_255, Nat.min_eq_left h, List.take_length]

theorem writeB0_32_of_le {bs : Bytes} (h : bs.length ≤ 32) :
    writeB0_32 bs = writeU8 (UInt8.ofNat bs.length) ++ bs := by
  rw [writeB0_32, Nat.min_eq_left h, List.take_length]

theorem writeB0_64k_of_le {bs : Bytes} (h : bs.length ≤ 65535) :
    writeB0_64k bs = writeU16 (UInt16.ofNat bs.length) ++ bs := by
  rw [writeB0_64k, Nat.min_eq_left h, List.take_length]

theorem writeSeq0_255U256_of_le {hs : List Hash256} (h : hs.length ≤ 255) :
    writeSeq0_255U256 hs = writeU8 (UInt8.ofNat hs.length) ++ hs.flatMap writeU256 := by
  rw [writeSeq0_255U256, Nat.min_eq_left h, List.take_length]

theorem toNat_ofNat8 {n : Nat} (h : n ≤ 255) : (UInt8.ofNat n).toNat = n := by
  rw [UInt8.toNat_ofNat']
  omega

theorem reads_str0_255 :
    Reads readStr0_255 fun s t => (s.length ≤ 255 ∧ ByteText s) ∧ t = writeStr0_255 s := by
  refine (reads_u8.bind fun len => (Cursor.reads_take _ len.toNat).map).congr fun s t => ?_
  constructor
  · rintro ⟨len, u, v, rfl, rfl, bs, ⟨rfl, hlen⟩, rfl⟩
    have hle : len.toNat < 256 := len.toNat_lt
    have hs : (strOf bs).length ≤ 255 := by rw [length_strOf]; omega
    refine ⟨⟨hs, byteText_strOf bs⟩, ?_⟩
    rw [writeStr0_255_of_le hs, length_strOf, hlen, UInt8.ofNat_toNat, bytesOf_strOf]
  · rintro ⟨⟨hs, htext⟩, rfl⟩
    refine ⟨UInt8.ofNat s.length, _, _, writeStr0_255_of_le hs, rfl, bytesOf s, ⟨rfl, ?_⟩, ?_⟩
    · rw [length_bytesOf, toNat_ofNat8 hs]
    · exact (strOf_bytesOf htext).symm

theorem reads_throw {α : Type} (e : Thrown) :
    Reads (throw (.thrown e) : Reader α) fun _ _ => False := by
  intro r hr
  refine ⟨fun a r' => ⟨fun h => (by cases h), fun ⟨_, _, h, _⟩ => h.elim⟩, fun h => (by cases h)⟩

theorem reads_b0_32 : Reads readB0_32 fun bs t => bs.length ≤ 32 ∧ t = writeB0_32 bs := by
  have body (len : UInt8) : Reads (ε := Thrown)
      (do if len.toNat > 32 then throw (.thrown .tooLong)
          take .outOfRange len.toNat)
      fun bs t => len.toNat ≤ 32 ∧ bs = t ∧ t.length = len.toNat := by
    by_cases hlen : len.toNat > 32
    · simp only [hlen, if_true]
      refine ((reads_throw .tooLong).bind fun _ => Cursor.reads_take Thrown.outOfRange len.toNat).congr
        fun bs t => ⟨fun ⟨_, _, _, _, h, _⟩ => h.elim, fun ⟨h, _⟩ => by omega⟩
    · simp only [hlen, if_false]
      refine (Cursor.reads_take Thrown.outOfRange len.toNat).congr fun bs t => ?_
      exact ⟨fun h => ⟨by omega, h⟩, fun h => h.2⟩
  refine (reads_u8.bind body).congr fun bs t => ?_
  constructor
  · rintro ⟨len, u, v, rfl, rfl, hle, rfl, hlen⟩
    have hbs : bs.length ≤ 32 := by omega
    refine ⟨hbs, ?_⟩
    rw [writeB0_32_of_le hbs, hlen, UInt8.ofNat_toNat]
  · rintro ⟨hbs, rfl⟩
    have hlen : (UInt8.ofNat bs.length).toNat = bs.length := toNat_ofNat8 (by omega)
    refine ⟨UInt8.ofNat bs.length, _, bs, writeB0_32_of_le hbs, rfl, ?_, rfl, hlen.symm⟩
    rw [hlen]
    exact hbs

theorem reads_b0_64k :
    Reads readB0_64k fun bs t => bs.length ≤ 65535 ∧ t = writeB0_64k bs := by
  refine (reads_u16.bind fun len => Cursor.reads_take Thrown.outOfRange len.toNat).congr fun bs t => ?_
  constructor
  · rintro ⟨len, u, v, rfl, rfl, rfl, hlen⟩
    have hle : len.toNat < 65536 := len.toNat_lt
    have hbs : bs.length ≤ 65535 := by omega
    refine ⟨hbs, ?_⟩
    rw [writeB0_64k_of_le hbs, hlen, UInt16.ofNat_toNat]
  · rintro ⟨hbs, rfl⟩
    have hlen : (UInt16.ofNat bs.length).toNat = bs.length := by
      rw [UInt16.toNat_ofNat']
      omega
    exact ⟨UInt16.ofNat bs.length, _, bs, writeB0_64k_of_le hbs, rfl, rfl, hlen.symm⟩

/-- An option behind a given tag. -/
def spellOption (tag : UInt8) : Option UInt32 → Bytes
  | some v => writeU8 tag ++ writeU32 v
  | none => writeU8 tag

theorem reads_optionU32 : Reads readOptionU32 fun o t =>
    ∃ tag : UInt8, o.isSome = (tag != 0) ∧ t = spellOption tag o := by
  have body (tag : UInt8) : Reads (ε := Thrown)
      (if tag != 0 then do
        let v ← readU32
        return some v
      else return none)
      fun o t => o.isSome = (tag != 0) ∧ t = o.elim [] writeU32 := by
    by_cases htag : (tag != 0) = true
    · rw [if_pos htag]
      refine reads_u32.map.congr fun o t => ?_
      constructor
      · rintro ⟨v, rfl, rfl⟩
        exact ⟨htag.symm, rfl⟩
      · rintro ⟨ho, rfl⟩
        obtain ⟨v, rfl⟩ := Option.isSome_iff_exists.mp (ho.trans htag)
        exact ⟨v, rfl, rfl⟩
    · rw [if_neg htag]
      refine (Cursor.Reads.pure none).congr fun o t => ?_
      have hfalse : (tag != 0) = false := Bool.eq_false_iff.mpr htag
      constructor
      · rintro ⟨rfl, rfl⟩
        exact ⟨hfalse.symm, rfl⟩
      · rintro ⟨ho, rfl⟩
        obtain rfl := Option.isSome_eq_false_iff.mp (ho.trans hfalse) |> Option.isNone_iff_eq_none.mp
        exact ⟨rfl, rfl⟩
  refine (reads_u8.bind body).congr fun o t => ?_
  constructor
  · rintro ⟨tag, u, v, rfl, rfl, ho, rfl⟩
    refine ⟨tag, ho, ?_⟩
    cases o <;> simp [spellOption]
  · rintro ⟨tag, ho, rfl⟩
    refine ⟨tag, writeU8 tag, o.elim [] writeU32, ?_, rfl, ho, rfl⟩
    cases o <;> simp [spellOption]

theorem reads_seq0_255U256 :
    Reads readSeq0_255U256 fun hs t => hs.length ≤ 255 ∧ t = writeSeq0_255U256 hs := by
  refine (reads_u8.bind fun len => Cursor.reads_times reads_u256 len.toNat).congr fun hs t => ?_
  constructor
  · rintro ⟨len, u, v, rfl, rfl, hlen, rfl⟩
    have hle : len.toNat < 256 := len.toNat_lt
    have hhs : hs.length ≤ 255 := by omega
    refine ⟨hhs, ?_⟩
    rw [writeSeq0_255U256_of_le hhs, hlen, UInt8.ofNat_toNat]
  · rintro ⟨hhs, rfl⟩
    exact ⟨UInt8.ofNat hs.length, _, _, writeSeq0_255U256_of_le hhs, rfl,
      (toNat_ofNat8 hhs).symm, rfl⟩

end MkPool.Sv2Codec
