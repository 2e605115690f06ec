import Mathlib.Tactic.IntervalCases
import MkPool.BlockRelay
import MkPool.CoinbaseLayout

/-! # The height in the coinbase

A node wants the script of a coinbase to begin with the height as a script
pushes a number. The pool pushes the bytes of the height as they are, and the
relay reads such a push back. -/
namespace MkPool.HeightPush
open MkPool.Lib MkPool.Utils MkPool.BlockRelay MkPool.CoinbaseLayout

/-! ## Script numbers -/

/-- The first bit of the last byte is the sign of a script number. -/
def signBit (bs : Bytes) : Bool := bs.getLast?.any fun b => decide (128 ≤ b.toNat)

/-- A number as a script has it: one more byte where the sign would be set. -/
def scriptNum (n : Nat) : Bytes :=
  if signBit (minimalBytes n) then minimalBytes n ++ [0] else minimalBytes n

/-- `CScript() << h`: small numbers have operators of their own. -/
def requiredPush (h : Nat) : Bytes :=
  if h = 0 then [0]
  else if h ≤ 16 then [UInt8.ofNat (0x50 + h)]
  else push (scriptNum h)

theorem leValue_scriptNum (n : Nat) : Wire.leValue (scriptNum n) = n := by
  unfold scriptNum
  split
  · rw [Wire.leValue_append, leValue_minimalBytes]
    rfl
  · exact leValue_minimalBytes n

/-- The last byte has its first bit set in every second half of a power. -/
theorem signBit_minimalBytes (n : Nat) :
    signBit (minimalBytes n) = true ↔ ∃ k, 128 * 256 ^ k ≤ n ∧ n < 256 ^ (k + 1) := by
  induction n using Nat.strong_induction_on with
  | _ n ih =>
    by_cases h : n = 0
    · rw [h, minimalBytes, dif_pos rfl]
      refine ⟨fun hf => (by cases hf), fun hex => ?_⟩
      obtain ⟨k, hk, _⟩ := hex
      have hpos : 0 < 256 ^ k := Nat.pow_pos (by omega)
      omega
    · rw [minimalBytes_pos h]
      by_cases hsmall : n < 256
      · have hnone : minimalBytes (n / 256) = [] := by
          rw [Nat.div_eq_of_lt hsmall, minimalBytes, dif_pos rfl]
        have hb : (UInt8.ofNat (n % 256)).toNat = n := by
          rw [UInt8.toNat_ofNat']
          omega
        rw [hnone]
        show decide (128 ≤ (UInt8.ofNat (n % 256)).toNat) = true ↔ _
        rw [hb, decide_eq_true_eq]
        refine ⟨fun hn => ⟨0, by omega, by omega⟩, fun hex => ?_⟩
        obtain ⟨k, hk, _⟩ := hex
        have hpos : 0 < 256 ^ k := Nat.pow_pos (by omega)
        omega
      · have hne : minimalBytes (n / 256) ≠ [] := by
          rw [minimalBytes_pos (by omega)]
          exact List.cons_ne_nil _ _
        have hlast : signBit (UInt8.ofNat (n % 256) :: minimalBytes (n / 256)) =
            signBit (minimalBytes (n / 256)) := by
          obtain ⟨b, bs, hbs⟩ := List.exists_cons_of_ne_nil hne
          rw [hbs]
          rfl
        rw [hlast, ih _ (Nat.div_lt_self (by omega) (by omega))]
        constructor
        · rintro ⟨k, hk, hlt⟩
          refine ⟨k + 1, ?_, ?_⟩
          · rw [pow_succ]
            omega
          · rw [pow_succ]
            omega
        · rintro ⟨k, hk, hlt⟩
          cases k with
          | zero => omega
          | succ k =>
            rw [pow_succ] at hk hlt
            exact ⟨k, by omega, by omega⟩

/-! ## Blocks -/

/-- The block's coinbase has a script that begins with the push. A block with
witnesses has a marker and a flag before the inputs. -/
def StartsWith (block start : Bytes) : Prop :=
  ∃ header txs version marker outpoint size rest,
    header.length = 80 ∧ txs < 2 ^ 64 ∧ version.length = 4 ∧ (marker = [] ∨ marker = [0, 1]) ∧
      outpoint.length = 36 ∧ size < 2 ^ 64 ∧
      block = header ++ (Codec.compact.write txs ++ (version ++ (marker ++
        (Codec.compact.write 1 ++ (outpoint ++ (Codec.compact.write size ++ (start ++ rest)))))))

theorem wideVarint_at {b front rest : Bytes} {m : UInt8} {n width : Nat} (hn : n < 256 ^ width)
    (hb : b = front ++ (m :: Wire.leBytes width n ++ rest)) :
    wideVarint b front.length width = some (n, front.length + (1 + width)) := by
  have hdrop : b.drop (front.length + 1) = Wire.leBytes width n ++ rest := by
    rw [hb, ← List.drop_drop, List.drop_left]
    rfl
  have hlen : front.length + 1 + width ≤ b.length := by
    rw [hb]
    simp only [List.length_append, List.length_cons, Wire.length_leBytes]
    omega
  unfold wideVarint
  rw [if_pos hlen, hdrop, List.take_left' (Wire.length_leBytes width n), Wire.leValue_leBytes hn,
    Nat.add_assoc]

/-- A compact size is read where it stands. -/
theorem readVarint_at {b front rest : Bytes} {n : Nat} (hn : n < 2 ^ 64)
    (hb : b = front ++ (Codec.compact.write n ++ rest)) :
    readVarint b front.length =
      some (n, front.length + (Codec.compact.write n).length) := by
  have hget {m : UInt8} {tl : Bytes} (h : b = front ++ (m :: tl)) : b[front.length]? = some m := by
    rw [h, List.getElem?_append_right (Nat.le_refl _), Nat.sub_self]
    rfl
  change b = front ++ (Codec.writeCompact n ++ rest) at hb
  show readVarint b front.length = some (n, front.length + (Codec.writeCompact n).length)
  unfold Codec.writeCompact at hb ⊢
  split at hb
  · rename_i h1
    have hb' : (UInt8.ofNat (n % 256)).toNat = n := by
      rw [UInt8.toNat_ofNat']
      omega
    rw [if_pos h1]
    unfold readVarint
    rw [hget hb]
    show (if (UInt8.ofNat (n % 256)).toNat < 0xfd then _ else _) = _
    rw [hb', if_pos h1]
    rfl
  · rename_i h1
    rw [if_neg h1]
    split at hb
    · rename_i h2
      rw [if_pos h2]
      unfold readVarint
      rw [hget hb]
      exact wideVarint_at (by omega) hb
    · rename_i h2
      rw [if_neg h2]
      split at hb
      · rename_i h3
        rw [if_pos h3]
        unfold readVarint
        rw [hget hb]
        exact wideVarint_at (by omega) hb
      · rename_i h3
        rw [if_neg h3]
        unfold readVarint
        rw [hget hb]
        exact wideVarint_at (by omega) hb

/-- The height is read where the script begins. -/
theorem scriptHeight_at {b front bs rest : Bytes} (hpos : bs ≠ []) (hlen : bs.length ≤ 7)
    (hb : b = front ++ (push bs ++ rest)) :
    scriptHeight b front.length = some (Wire.leValue bs) := by
  have hsize : (UInt8.ofNat bs.length).toNat = bs.length := by
    rw [UInt8.toNat_ofNat']
    omega
  have hget : b[front.length]? = some (UInt8.ofNat bs.length) := by
    rw [hb, List.getElem?_append_right (Nat.le_refl _), Nat.sub_self]
    rfl
  have hdrop : b.drop (front.length + 1) = bs ++ rest := by
    rw [hb, ← List.drop_drop, List.drop_left]
    rfl
  have htotal : front.length + 1 + bs.length ≤ b.length := by
    rw [hb]
    simp only [List.length_append, length_push]
    omega
  have hne : bs.length ≠ 0 := fun h0 => hpos (List.length_eq_zero_iff.mp h0)
  unfold scriptHeight
  rw [hget]
  show (if (UInt8.ofNat bs.length).toNat = 0 ∨ 7 < (UInt8.ofNat bs.length).toNat ∨
    b.length < front.length + 1 + (UInt8.ofNat bs.length).toNat then none else _) = _
  rw [hsize, if_neg (by omega), hdrop, List.take_left]

/-- The marker of a block with witnesses is skipped. -/
theorem inputsAt_marker {b front marker rest : Bytes} (hm : marker = [] ∨ marker = [0, 1])
    (hb : b = front ++ (marker ++ (Codec.compact.write 1 ++ rest))) :
    inputsAt b front.length = front.length + marker.length := by
  have hone : Codec.compact.write 1 = [1] := rfl
  have hget (k : Nat) : b[front.length + k]? = (marker ++ ([1] ++ rest))[k]? := by
    rw [hb, hone, List.getElem?_append_right (by omega), Nat.add_sub_cancel_left]
  have h0 := hget 0
  have h1 := hget 1
  rw [Nat.add_zero] at h0
  unfold inputsAt
  rw [h0, h1]
  rcases hm with rfl | rfl
  · rw [if_neg fun h => by cases h.2.1]
    rfl
  · refine if_pos ⟨?_, rfl, rfl⟩
    rw [hb]
    simp only [List.length_append, List.length_cons, List.length_nil]
    omega

/-- Reading a block comes down to reading the start of the script. -/
theorem bip34Height_startsWith {block start : Bytes} (h : StartsWith block start) :
    ∃ front rest, block = front ++ (start ++ rest) ∧
      bip34Height block = (scriptHeight block front.length).getD 0 := by
  obtain ⟨header, txs, version, marker, outpoint, size, rest, hheader, htxs, hversion, hmarker,
    houtpoint, hsize, hblock⟩ := h
  have hblock₁ : block = (header ++ (Codec.compact.write txs ++ version)) ++ (marker ++
      (Codec.compact.write 1 ++ (outpoint ++ (Codec.compact.write size ++ (start ++ rest))))) := by
    rw [hblock]
    simp only [List.append_assoc]
  have hblock₂ : block = (header ++ (Codec.compact.write txs ++ (version ++ marker))) ++
      (Codec.compact.write 1 ++ (outpoint ++ (Codec.compact.write size ++ (start ++ rest)))) := by
    rw [hblock]
    simp only [List.append_assoc]
  have hblock₃ : block = (header ++ (Codec.compact.write txs ++ (version ++ (marker ++
      (Codec.compact.write 1 ++ outpoint))))) ++ (Codec.compact.write size ++ (start ++ rest)) := by
    rw [hblock]
    simp only [List.append_assoc]
  have hcount := readVarint_at htxs hblock
  have hinputs := inputsAt_marker hmarker hblock₁
  have hone := readVarint_at (by omega) hblock₂
  have hscript := readVarint_at hsize hblock₃
  refine ⟨header ++ (Codec.compact.write txs ++ (version ++ (marker ++ (Codec.compact.write 1 ++
    (outpoint ++ Codec.compact.write size))))), rest,
    by rw [hblock]; simp only [List.append_assoc], ?_⟩
  simp only [List.length_append, hheader, hversion, houtpoint] at hcount hinputs hone hscript ⊢
  unfold bip34Height
  rw [hcount]
  simp only [Option.bind_eq_bind, Option.bind_some]
  rw [show 80 + (Codec.compact.write txs).length + 4 =
    80 + ((Codec.compact.write txs).length + 4) from Nat.add_assoc _ _ _, hinputs,
    show 80 + ((Codec.compact.write txs).length + 4) + marker.length =
      80 + ((Codec.compact.write txs).length + (4 + marker.length)) by omega, hone]
  simp only [Option.bind_some]
  rw [show 80 + ((Codec.compact.write txs).length + (4 + marker.length)) +
    (Codec.compact.write 1).length + 36 = 80 + ((Codec.compact.write txs).length +
      (4 + (marker.length + ((Codec.compact.write 1).length + 36)))) by omega, hscript]
  simp only [Option.bind_some]
  congr 2
  omega

/-! ## Exactly the heights with the sign bit clear -/

/-- The pool's push is the one a node requires, and the relay reads it. -/
structure Bip34 (h : Nat) : Prop where
  encoded : encodeBip34Height h = some (bytesToHex (requiredPush h))
  decoded : ∀ block, StartsWith block (requiredPush h) → bip34Height block = h

theorem encodeBip34Height_nat {h : Nat} (hmax : h < 2 ^ 31) :
    encodeBip34Height h = some (bytesToHex (push (heightBytes h))) := by
  cases he : encodeBip34Height h with
  | none =>
    unfold encodeBip34Height at he
    rw [if_neg (by omega)] at he
    cases he
  | some s => rw [(encodeBip34Height_eq (by omega) he).2]

theorem length_scriptNum {h : Nat} (hmax : h < 2 ^ 31) : (scriptNum h).length ≤ 7 := by
  have hlen := length_minimalBytes (n := h) (k := 4) (by omega)
  unfold scriptNum
  split
  · rw [List.length_append, List.length_singleton]
    omega
  · omega

/-- **When the push is right.** The height is seventeen or more, and its top
byte is less than 128. -/
theorem bip34_iff (h : Nat) (hmax : h < 2 ^ 31) :
    Bip34 h ↔ 17 ≤ h ∧ ∀ k, ¬ (128 * 256 ^ k ≤ h ∧ h < 256 ^ (k + 1)) := by
  have hsign := signBit_minimalBytes h
  constructor
  · intro ok
    have hbytes : push (heightBytes h) = requiredPush h := by
      have he := ok.encoded
      rw [encodeBip34Height_nat hmax] at he
      exact Hex.encode_injective (Option.some.inj he)
    have hlen := congrArg List.length hbytes
    have hone := (@length_heightBytes h (by omega) (by omega)).1
    rw [length_push] at hlen
    unfold requiredPush at hlen
    split at hlen
    · rw [List.length_singleton] at hlen
      omega
    · split at hlen
      · rw [List.length_singleton] at hlen
        omega
      · refine ⟨by omega, fun k hk => ?_⟩
        have hset := hsign.mpr ⟨k, hk⟩
        rw [length_push, scriptNum, if_pos hset, List.length_append, heightBytes,
          if_neg (by omega), Int.toNat_natCast, List.length_singleton] at hlen
        omega
  · rintro ⟨h17, hclear⟩
    have hpush : requiredPush h = push (scriptNum h) := by
      unfold requiredPush
      rw [if_neg (by omega), if_neg (by omega)]
    have hnum : scriptNum h = minimalBytes h := by
      unfold scriptNum
      rw [if_neg]
      intro hset
      obtain ⟨k, hk⟩ := hsign.mp hset
      exact hclear k hk
    have hne : scriptNum h ≠ [] := by
      rw [hnum, minimalBytes_pos (by omega)]
      exact List.cons_ne_nil _ _
    refine ⟨?_, fun block hblock => ?_⟩
    · rw [encodeBip34Height_nat hmax, hpush, hnum, heightBytes, if_neg (by omega),
        Int.toNat_natCast]
    · rw [hpush] at hblock
      obtain ⟨front, rest, hb, hheight⟩ := bip34Height_startsWith hblock
      rw [hheight, scriptHeight_at hne (length_scriptNum hmax) hb, leValue_scriptNum]
      rfl

/-- The push of height 800000. -/
theorem bip34_iff_block : Bip34 800000 := by
  refine (bip34_iff 800000 (by omega)).mpr ⟨by omega, fun k hk => ?_⟩
  have hfour : k < 3 := by
    by_contra hge
    have hpow : 256 ^ 3 ≤ 256 ^ k := Nat.pow_le_pow_right (by omega) (by omega)
    omega
  interval_cases k <;> omega

/-- **Height 128 is pushed as a negative number.** -/
theorem height_pushed_negative : ¬ Bip34 128 := by
  intro ok
  exact ((bip34_iff 128 (by omega)).mp ok).2 0 (by omega)

end MkPool.HeightPush
