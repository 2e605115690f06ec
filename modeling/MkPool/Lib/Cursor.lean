import MkPool.Lib.Wire

/-! # Reading bytes with a cursor

A cursor stands at a place in a byte array. A reader takes a value there and
moves on, or throws; a byte that is fetched past the end of the array is a fault
of its own. `Reads f S` says that `f` takes exactly the texts that `S` gives a
value, and never faults. -/
namespace MkPool.Lib

structure Cursor where
  data : List UInt8
  pos : Nat
deriving DecidableEq

namespace Cursor

/-- What stops a reader: an exception of its own, or a fetch past the end. -/
inductive Stop (ε : Type) where
  | thrown (e : ε)
  | pastEnd
deriving DecidableEq

abbrev Reader (ε α : Type) := StateT Cursor (Except (Stop ε)) α

variable {ε α β : Type}

def size (r : Cursor) : Nat := r.data.length

/-- The bytes that are still to be read. -/
def left (r : Cursor) : List UInt8 := r.data.drop r.pos

def Inside (r : Cursor) : Prop := r.pos ≤ r.data.length

def advance (r : Cursor) (n : Nat) : Cursor := { r with pos := r.pos + n }

@[simp] theorem advance_zero (r : Cursor) : r.advance 0 = r := rfl

@[simp] theorem advance_advance (r : Cursor) (m n : Nat) :
    (r.advance m).advance n = r.advance (m + n) := by
  simp [advance, Nat.add_assoc]

@[simp] theorem left_advance (r : Cursor) (n : Nat) : (r.advance n).left = r.left.drop n := by
  simp [left, advance]

theorem length_left (r : Cursor) : r.left.length = r.data.length - r.pos := List.length_drop

theorem inside_advance {r : Cursor} {n : Nat} (hr : r.Inside) :
    (r.advance n).Inside ↔ n ≤ r.left.length := by
  simp only [Inside, advance, length_left] at *
  omega

/-- Where a text starts what is left, the cursor can move past it. -/
theorem inside_of_left {r : Cursor} {t rest : List UInt8} (hr : r.Inside)
    (h : r.left = t ++ rest) : (r.advance t.length).Inside := by
  rw [inside_advance hr, h, List.length_append]
  omega

/-- `data[i]`. -/
def byteAt (r : Cursor) (i : Nat) : Except (Stop ε) UInt8 :=
  match r.data[i]? with
  | some b => .ok b
  | none => .error .pastEnd

/-- The `n` bytes from `i` on, fetched one by one. -/
def bytesFrom (r : Cursor) : Nat → Nat → Except (Stop ε) (List UInt8)
  | _, 0 => .ok []
  | i, n + 1 => do
    let b ← r.byteAt i
    let bs ← bytesFrom r (i + 1) n
    return b :: bs

theorem bytesFrom_eq {r : Cursor} {i n : Nat} (h : i + n ≤ r.data.length) :
    r.bytesFrom (ε := ε) i n = .ok ((r.data.drop i).take n) := by
  induction n generalizing i with
  | zero => rfl
  | succ n ih =>
    have hi : i < r.data.length := by omega
    rw [bytesFrom, byteAt, List.getElem?_eq_getElem hi, ih (by omega),
      List.drop_eq_getElem_cons hi, List.take_succ_cons]
    rfl

/-- `f` takes the texts that `S` gives a value, wherever the cursor stands. -/
def Reads (f : Reader ε α) (S : α → List UInt8 → Prop) : Prop :=
  ∀ r : Cursor, r.Inside →
    (∀ a r', f r = .ok (a, r') ↔
      ∃ t rest, S a t ∧ r.left = t ++ rest ∧ r' = r.advance t.length) ∧
    f r ≠ .error .pastEnd

namespace Reads

variable {f : Reader ε α} {S : α → List UInt8 → Prop}

theorem congr {T : α → List UInt8 → Prop} (hf : Reads f S) (h : ∀ a t, S a t ↔ T a t) :
    Reads f T := by
  have hST : S = T := funext fun a => funext fun t => propext (h a t)
  rwa [← hST]

theorem pure (a : α) : Reads (Pure.pure a : Reader ε α) fun b t => b = a ∧ t = [] := by
  intro r hr
  constructor
  · intro b r'
    constructor
    · intro h
      cases h
      exact ⟨[], r.left, ⟨rfl, rfl⟩, rfl, rfl⟩
    · rintro ⟨t, rest, ⟨rfl, rfl⟩, hleft, rfl⟩
      rfl
  · intro h
    cases h

/-- One reader after another takes one text after another. -/
theorem bind {g : α → Reader ε β} {T : α → β → List UInt8 → Prop} (hf : Reads f S)
    (hg : ∀ a, Reads (g a) (T a)) :
    Reads (f >>= g) fun b t => ∃ a u v, t = u ++ v ∧ S a u ∧ T a b v := by
  intro r hr
  have heq : (f >>= g) r = (f r).bind fun p => g p.1 p.2 := rfl
  rw [heq]
  cases hfr : f r with
  | error e =>
    have hpast := (hf r hr).2
    rw [hfr] at hpast
    refine ⟨fun b r' => ⟨fun h => (by cases h), ?_⟩,
      fun h => hpast (congrArg Except.error (Except.error.inj h))⟩
    rintro ⟨t, rest, ⟨a, u, v, rfl, hu, hv⟩, hleft, rfl⟩
    rw [List.append_assoc] at hleft
    have hok := ((hf r hr).1 a _).mpr ⟨u, v ++ rest, hu, hleft, rfl⟩
    rw [hfr] at hok
    cases hok
  | ok p =>
    obtain ⟨a, r₁⟩ := p
    obtain ⟨u, rest₁, hu, hleft₁, rfl⟩ := ((hf r hr).1 a r₁).mp hfr
    have hin := inside_of_left hr hleft₁
    have hleft₂ : (r.advance u.length).left = rest₁ := by
      rw [left_advance, hleft₁, List.drop_left]
    constructor
    · intro b r'
      constructor
      · intro h
        obtain ⟨v, rest, hv, hleft, rfl⟩ := ((hg a _ hin).1 b r').mp h
        rw [hleft₂] at hleft
        refine ⟨u ++ v, rest, ⟨a, u, v, rfl, hu, hv⟩, ?_, ?_⟩
        · rw [hleft₁, hleft, List.append_assoc]
        · rw [advance_advance, List.length_append]
      · rintro ⟨t, rest, ⟨a', u', v', rfl, hu', hv'⟩, hleft, rfl⟩
        rw [List.append_assoc] at hleft
        -- the first reader is a function: it took this text
        have hfirst := ((hf r hr).1 a' _).mpr ⟨u', v' ++ rest, hu', hleft, rfl⟩
        rw [hfr] at hfirst
        obtain ⟨rfl, hadv⟩ := Prod.mk.inj (Except.ok.inj hfirst)
        refine ((hg a _ hin).1 b _).mpr ⟨v', rest, hv', ?_, ?_⟩
        · rw [hadv, left_advance, hleft, List.drop_left]
        · rw [hadv, advance_advance, List.length_append]
    · exact (hg a _ hin).2

theorem map {g : α → β} (hf : Reads f S) :
    Reads (f >>= fun a => Pure.pure (g a)) fun b t => ∃ a, S a t ∧ b = g a := by
  refine (hf.bind fun a => pure (g a)).congr fun b t => ?_
  constructor
  · rintro ⟨a, u, v, rfl, hu, rfl, rfl⟩
    exact ⟨a, by rwa [List.append_nil], rfl⟩
  · rintro ⟨a, ha, rfl⟩
    exact ⟨a, t, [], (List.append_nil t).symm, ha, rfl, rfl⟩

/-- What is read from the start of a text that nothing follows. -/
theorem whole (hf : Reads f S) {bs : List UInt8} {a : α} :
    f ⟨bs, 0⟩ = .ok (a, ⟨bs, bs.length⟩) ↔ S a bs := by
  rw [(hf ⟨bs, 0⟩ (Nat.zero_le _)).1]
  constructor
  · rintro ⟨t, rest, ht, hleft, hr⟩
    have hlen : bs.length = t.length := by
      have hpos := congrArg Cursor.pos hr
      simpa [advance] using hpos
    have hbs : bs = t ++ rest := hleft
    have hrest : rest = [] := by
      rw [hbs, List.length_append] at hlen
      exact List.length_eq_zero_iff.mp (by omega)
    rw [hbs, hrest, List.append_nil]
    exact ht
  · intro h
    exact ⟨bs, [], h, (List.append_nil bs).symm, by simp [advance]⟩

/-- What is read never ends past the end. -/
theorem inside (hf : Reads f S) {r r' : Cursor} {a : α} (hr : r.Inside)
    (h : f r = .ok (a, r')) : r'.Inside := by
  obtain ⟨t, rest, _, hleft, rfl⟩ := ((hf r hr).1 a r').mp h
  exact inside_of_left hr hleft

theorem never_pastEnd (hf : Reads f S) {r : Cursor} (hr : r.Inside) :
    f r ≠ .error .pastEnd :=
  (hf r hr).2

end Reads

/-! ## Fixed widths and counts -/

/-- `n` bytes, where there are as many. -/
def take (e : ε) (n : Nat) : Reader ε (List UInt8) := fun r =>
  if r.pos + n > r.size then .error (.thrown e)
  else do
    let bs ← r.bytesFrom r.pos n
    return (bs, r.advance n)

theorem reads_take (e : ε) (n : Nat) : Reads (take e n) fun bs t => bs = t ∧ t.length = n := by
  intro r hr
  unfold take size
  by_cases hn : r.pos + n > r.data.length
  · rw [if_pos hn]
    refine ⟨fun bs r' => ⟨fun h => (by cases h), ?_⟩, fun h => (by cases h)⟩
    rintro ⟨t, rest, ⟨rfl, hlen⟩, hleft, rfl⟩
    have hlong := congrArg List.length hleft
    rw [length_left, List.length_append] at hlong
    unfold Inside at hr
    omega
  · rw [if_neg hn, bytesFrom_eq (by omega)]
    constructor
    · intro bs r'
      have hlen : (r.left.take n).length = n := by
        rw [List.length_take, length_left]
        omega
      constructor
      · intro h
        cases h
        refine ⟨r.left.take n, r.left.drop n, ⟨rfl, hlen⟩, (List.take_append_drop n _).symm, ?_⟩
        rw [hlen]
      · rintro ⟨t, rest, ⟨rfl, hlen⟩, hleft, rfl⟩
        have htake : (r.data.drop r.pos).take n = bs := by
          rw [← left, hleft, List.take_left' hlen]
        rw [htake, hlen]
        rfl
    · intro h
      cases h

/-- As many values as are asked for. -/
def times (f : Reader ε α) : Nat → Reader ε (List α)
  | 0 => Pure.pure []
  | n + 1 => do
    let a ← f
    let as ← times f n
    return a :: as

theorem reads_times {f : Reader ε α} {write : α → List UInt8}
    (hf : Reads f fun a t => t = write a) (n : Nat) :
    Reads (times f n) fun as t => as.length = n ∧ t = as.flatMap write := by
  induction n with
  | zero =>
    refine (Reads.pure []).congr fun as t => ?_
    constructor
    · rintro ⟨rfl, rfl⟩
      exact ⟨rfl, rfl⟩
    · rintro ⟨hlen, rfl⟩
      obtain rfl := List.length_eq_zero_iff.mp hlen
      exact ⟨rfl, rfl⟩
  | succ n ih =>
    refine (hf.bind fun a => ih.map).congr fun as t => ?_
    constructor
    · rintro ⟨a, u, v, rfl, rfl, as', ⟨hlen, rfl⟩, rfl⟩
      exact ⟨by rw [List.length_cons, hlen], rfl⟩
    · rintro ⟨hlen, rfl⟩
      obtain _ | ⟨a, as'⟩ := as
      · cases hlen
      · exact ⟨a, write a, as'.flatMap write, rfl, rfl, as', ⟨Nat.succ.inj hlen, rfl⟩, rfl⟩

end Cursor

end MkPool.Lib
