import MkPool.Desk
import Mathlib.Data.List.TakeWhile
import Mathlib.Tactic.Ring

/-! # The two readings of a job id

Emission reads the first eight characters of an id with `stoul`, the window
with `from_chars`. On the ids the pool gives its jobs they agree. -/
namespace MkPool.JobIds
open MkPool.Lib MkPool.Lib.Interaction MkPool.Utils MkPool.Job MkPool.Coinbase MkPool.Stratifier
open MkPool.Calls MkPool.JsonValue MkPool.StratumV2 MkPool.Desk

/-- An id as `newJobId` makes them. -/
structure HexId (id : Str) : Prop where
  length : 8 ≤ id.length
  digits : ∀ c ∈ id, isHexDigit c = true

theorem isHexDigit_digit {n : Nat} (h : n < 16) : isHexDigit (Hex.digit n) = true := by
  unfold isHexDigit
  rw [Hex.nibble_digit h]
  rfl

theorem isHexDigit_of_mem {bs : Bytes} {c : Char} (h : c ∈ bytesToHex bs) :
    isHexDigit c = true := by
  obtain ⟨b, _, hc⟩ := List.mem_flatMap.mp h
  have hb : b.toNat < 256 := b.toNat_lt
  simp only [Hex.encodeByte, List.mem_cons, List.not_mem_nil, or_false] at hc
  rcases hc with rfl | rfl
  · exact isHexDigit_digit (by omega)
  · exact isHexDigit_digit (by omega)

theorem hexId_of_newJobId {width32 : Bool} {st st' : StratState} {id : Str}
    (h : StratStep (.newJobId width32) st id st') : HexId id := by
  have h := h.1
  split at h
  · obtain ⟨v, rfl⟩ := h
    refine ⟨by simp [intToHex], fun c hc => ?_⟩
    obtain ⟨i, _, rfl⟩ := List.mem_map.mp hc
    exact isHexDigit_digit (Nat.mod_lt _ (by omega))
  · obtain ⟨v, rfl⟩ := h
    exact ⟨by simp [leHexU64, bytesToHex], fun c hc => isHexDigit_of_mem hc⟩

/-- A job that is published has such an id. -/
theorem hexId_of_work {env : Env} {gbt : Json} {w w' : World}
    (run : desk.Exec (updateWork env.coin env.hashes gbt) w () w') (job : MiningJob)
    (hj : w.jobOf env gbt = some job) : HexId job.jobId := by
  unfold World.jobOf at hj
  unfold updateWork at run
  cases hd : (parseTemplate gbt).bind (draftJob env.coin env.hashes) with
  | none =>
    rw [hd] at hj
    cases hj
  | some draft =>
    rw [hd] at run hj
    obtain ⟨id, w₁, hs, run⟩ := run.perform_inv
    obtain rfl := Option.some.inj hj
    show HexId w.nextId
    have hgives : id = w.nextId := hs.gives
    rw [← hgives]
    exact hexId_of_newJobId hs.strat

/-- A digit is past the blanks and the signs, and its nibble is one. -/
theorem nibble_bounds {c : Char} {n : Nat} (h : Hex.nibble c = some n) : 48 ≤ c.toNat ∧ n < 16 := by
  unfold Hex.nibble at h
  split at h
  · rename_i hc
    have hlo : 48 ≤ c.toNat := hc.1
    have hhi : c.toNat ≤ 57 := hc.2
    cases h
    omega
  · split at h
    · rename_i hc
      have hlo : 97 ≤ c.toNat := hc.1
      have hhi : c.toNat ≤ 102 := hc.2
      cases h
      omega
    · split at h
      · rename_i hc
        have hlo : 65 ≤ c.toNat := hc.1
        have hhi : c.toNat ≤ 70 := hc.2
        cases h
        omega
      · cases h

theorem le_of_isHexDigit {c : Char} (h : isHexDigit c = true) : 48 ≤ c.toNat := by
  obtain ⟨n, hn⟩ := Option.isSome_iff_exists.mp h
  exact (nibble_bounds hn).1

/-- The value of a text of digits is bounded by its length. -/
theorem foldl_nibbles_lt (s : Str) (acc : Nat) :
    s.foldl (fun acc c => 16 * acc + (Hex.nibble c).getD 0) acc < (acc + 1) * 16 ^ s.length := by
  induction s generalizing acc with
  | nil => simp
  | cons c s ih =>
    have hn : (Hex.nibble c).getD 0 < 16 := by
      cases hc : Hex.nibble c with
      | none => simp
      | some n => exact (nibble_bounds hc).2
    rw [List.foldl_cons, List.length_cons]
    calc _ < (16 * acc + (Hex.nibble c).getD 0 + 1) * 16 ^ s.length := ih _
      _ ≤ ((acc + 1) * 16) * 16 ^ s.length := Nat.mul_le_mul_right _ (by omega)
      _ = (acc + 1) * 16 ^ (s.length + 1) := by ring

/-- Digits spell the number that their bytes do. -/
theorem foldl_of_hexToBytes : ∀ {s : Str} {bs : Bytes} (acc : Nat), hexToBytes s = some bs →
    s.foldl (fun acc c => 16 * acc + (Hex.nibble c).getD 0) acc =
      bs.foldl (fun acc b => 256 * acc + b.toNat) acc
  | [], _, _, h => by cases h; rfl
  | [_], _, _, h => by cases h
  | a :: b :: s, bs, acc, h => by
    obtain ⟨x, y, cs, hx, hy, hcs, rfl⟩ := Hex.decode_cons_cons h
    have hbyte : (UInt8.ofNat (16 * x + y)).toNat = 16 * x + y := by
      have := (nibble_bounds hx).2
      have := (nibble_bounds hy).2
      rw [UInt8.toNat_ofNat']
      omega
    simp only [List.foldl_cons, hx, hy, Option.getD_some, hbyte]
    rw [foldl_of_hexToBytes _ hcs]
    ring_nf

/-- `%08x` is the text of the four bytes, most significant first. -/
theorem hexToBytes_hexPadded (v : UInt32) :
    hexToBytes (hexPadded 8 v.toNat) = some (Wire.leBytes 4 v.toNat).reverse := by
  have hlen : (hexPadded 8 v.toNat).length = 8 := length_hexPadded (by omega) v.toNat_lt
  obtain ⟨bs, hbs⟩ := Hex.decode_of_digits
    (fun c hc => digit_of_mem_hexPadded (n := v.toNat) hc) (by rw [hlen]; decide)
  have hsize := Hex.length_of_decode hbs
  have hvalue : beValue bs = v.toNat :=
    (foldl_of_hexToBytes 0 hbs).symm.trans (foldl_hexPadded 8 v.toNat)
  rw [hexToBytes, hbs, ← hvalue, leBytes_beValue (by omega), List.reverse_reverse]

theorem hexToBytes_reversed (v : UInt32) :
    hexToBytes (byteReverseHex (hexPadded 8 v.toNat)) = some (Wire.leBytes 4 v.toNat) := by
  rw [hexToBytes_byteReverseHex (hexToBytes_hexPadded v), List.reverse_reverse]

theorem isSpace_of_isHexDigit {c : Char} (h : isHexDigit c = true) : isSpace c = false := by
  have hc := le_of_isHexDigit h
  by_contra hs
  simp only [isSpace, Bool.not_eq_false, Bool.or_eq_true, Bool.and_eq_true,
    decide_eq_true_eq] at hs
  rcases hs with rfl | ⟨_, hr⟩
  · exact absurd hc (by decide)
  · have hr : c.toNat ≤ 13 := hr
    omega

/-- Hex digits do not start with `0x`. -/
theorem unprefixed {c : Char} {s : Str} (h : ∀ d ∈ c :: s, isHexDigit d = true) :
    (match c :: s with
      | '0' :: x :: d :: rest => if (x = 'x' ∨ x = 'X') ∧ isHexDigit d then d :: rest else c :: s
      | _ => c :: s) = c :: s := by
  split
  · rename_i x d rest he
    rw [if_neg]
    rintro ⟨hx, _⟩
    have hdigit := h x (by rw [he]; simp)
    rcases hx with rfl | rfl <;> exact absurd hdigit (by decide)
  · rfl

/-- A text of digits has no blank, no sign and no `0x`. -/
theorem stoul16_digits {c : Char} {s : Str} (h : ∀ d ∈ c :: s, isHexDigit d = true)
    (hlen : (c :: s).length ≤ 15) :
    stoul16 (c :: s) = some (UInt64.ofNat
      ((c :: s).foldl (fun acc c => 16 * acc + (Hex.nibble c).getD 0) 0)) := by
  have hc : isHexDigit c = true := h c List.mem_cons_self
  have not_sign (d : Char) (hd : d.toNat < 48) : c ≠ d := by
    rintro rfl
    have := le_of_isHexDigit hc
    omega
  have hdrop : (c :: s).dropWhile isSpace = c :: s :=
    List.dropWhile_cons_of_neg (by rw [isSpace_of_isHexDigit hc]; simp)
  have hv := foldl_nibbles_lt (c :: s) 0
  have hpow : 16 ^ (c :: s).length ≤ 16 ^ 15 := Nat.pow_le_pow_right (by omega) hlen
  have hprefix := unprefixed h
  have hread (t : Str) (ht : t = c :: s) :
      (if (t.takeWhile isHexDigit).isEmpty then none
      else if 2 ^ 64 ≤ (t.takeWhile isHexDigit).foldl
          (fun acc c => 16 * acc + (Hex.nibble c).getD 0) 0 then none
      else some (UInt64.ofNat ((t.takeWhile isHexDigit).foldl
          (fun acc c => 16 * acc + (Hex.nibble c).getD 0) 0))) =
        some (UInt64.ofNat
          ((c :: s).foldl (fun acc c => 16 * acc + (Hex.nibble c).getD 0) 0)) := by
    rw [ht, List.takeWhile_eq_self_iff.mpr h, if_neg (by simp), if_neg (by omega)]
  unfold stoul16
  simp only [hdrop, List.head?_cons, Option.some.injEq, not_sign '-' (by decide),
    not_sign '+' (by decide), or_self, if_false]
  exact hread _ hprefix

/-- **The pool's own ids are read alike.** -/
theorem idU32_of_hexId {id : Str} (h : HexId id) : idU32 id = some (emitIdU32 id) := by
  have hlen : ¬ id.length < 8 := by have := h.length; omega
  have hdigits : ∀ c ∈ id.take 8, isHexDigit c = true :=
    fun c hc => h.digits c (List.mem_of_mem_take hc)
  have htake : (id.take 8).length = 8 := by rw [List.length_take]; omega
  unfold idU32 emitIdU32 fromChars32
  rw [if_neg hlen, if_neg hlen]
  generalize id.take 8 = ds at hdigits htake
  obtain _ | ⟨c, s⟩ := ds
  · cases htake
  · rw [stoul16_digits hdigits (by omega)]
    simp [List.takeWhile_eq_self_iff.mpr hdigits]

end MkPool.JobIds
