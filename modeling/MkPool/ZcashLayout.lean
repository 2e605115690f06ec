import Mathlib.Data.List.GetD
import MkPool.Zcash

/-! # Walking a coinbase of the node

What the functions of `zcash.hpp` touch, with the work it takes, and the sizes
and positions they come to, in exact numbers. -/
namespace MkPool.Zcash
open MkPool.Lib MkPool.Utils

/-! ## What is touched -/

/-- What is read is there, a range ends there, and the position does not wrap. -/
def Touch.Inside (raw : Bytes) : Touch → Prop
  | .read i => i < raw.length
  | .copy first last => first ≤ last ∧ last ≤ raw.length
  | .move p k => p + k < 2 ^ 64

/-- An access counts one, and each byte that is copied. -/
def Touch.work : Touch → Nat
  | .copy first last => last - first + 1
  | _ => 1

def work (touched : List Touch) : Nat := (touched.map Touch.work).sum

@[simp] theorem work_nil : work [] = 0 := rfl

@[simp] theorem work_append (xs ys : List Touch) : work (xs ++ ys) = work xs + work ys := by
  unfold work
  rw [List.map_append, List.sum_append]

/-- All that is touched is inside. -/
def AllInside {α : Type} (raw : Bytes) (t : Traced α) : Prop := ∀ x ∈ t.touched, x.Inside raw

section Traced

variable {α β : Type} {raw : Bytes}

theorem bind_none {t : Traced α} {f : α → Traced β} (h : t.result = none) :
    t >>= f = ⟨none, t.touched⟩ := by
  show Traced.bind t f = _
  unfold Traced.bind
  rw [h]

theorem bind_some {t : Traced α} {f : α → Traced β} {a : α} (h : t.result = some a) :
    t >>= f = ⟨(f a).result, t.touched ++ (f a).touched⟩ := by
  show Traced.bind t f = _
  unfold Traced.bind
  rw [h]

instance : LawfulMonad Traced := LawfulMonad.mk' _
  (fun t => by
    obtain ⟨_ | a, touched⟩ := t
    · rfl
    · show (⟨some a, touched ++ []⟩ : Traced _) = _
      rw [List.append_nil])
  (fun a f => rfl)
  (fun t f g => by
    cases h : t.result with
    | none => rw [bind_none h, bind_none rfl, bind_none h]
    | some a =>
      rw [bind_some h, bind_some h]
      cases hf : (f a).result with
      | none => rw [bind_none rfl, bind_none hf]
      | some b => rw [bind_some rfl, bind_some hf, List.append_assoc])

@[simp] theorem result_pure (a : α) : (pure a : Traced α).result = some a := rfl

theorem allInside_pure (a : α) : AllInside raw (pure a : Traced α) := fun x hx => by cases hx

theorem allInside_bind (t : Traced α) (f : α → Traced β) :
    AllInside raw (t >>= f) ↔ AllInside raw t ∧ ∀ a, t.result = some a → AllInside raw (f a) := by
  unfold AllInside
  cases h : t.result with
  | none =>
    rw [bind_none h]
    exact ⟨fun hall => ⟨hall, fun a ha => by cases ha⟩, fun hall => hall.1⟩
  | some a =>
    rw [bind_some h]
    constructor
    · intro hall
      refine ⟨fun x hx => hall x (List.mem_append_left _ hx), fun a' ha' => ?_⟩
      obtain rfl := Option.some.inj ha'
      exact fun x hx => hall x (List.mem_append_right _ hx)
    · rintro ⟨ht, hf⟩ x hx
      rcases List.mem_append.mp hx with hx | hx
      · exact ht x hx
      · exact hf a rfl x hx

/-- All is inside, the budget covers the work, and of a result and what is left
of the budget `Q` holds. -/
structure Within (raw : Bytes) (t : Traced α) (budget : Nat) (Q : α → Nat → Prop) : Prop where
  inside : AllInside raw t
  spent : work t.touched ≤ budget
  done : ∀ a, t.result = some a → Q a (budget - work t.touched)

namespace Within

variable {budget : Nat} {Q : α → Nat → Prop} {R : β → Nat → Prop}

theorem pure {a : α} (h : Q a budget) : Within raw (pure a : Traced α) budget Q where
  inside := allInside_pure a
  spent := Nat.zero_le _
  done a' ha' := by
    obtain rfl := Option.some.inj ha'
    exact h

theorem bind {t : Traced α} {f : α → Traced β} (h : Within raw t budget Q)
    (hf : ∀ a left, Q a left → Within raw (f a) left R) : Within raw (t >>= f) budget R := by
  cases hres : t.result with
  | none =>
    rw [bind_none hres]
    exact ⟨h.inside, h.spent, fun a ha => by cases ha⟩
  | some a =>
    have hnext := hf a _ (h.done a hres)
    have hspent := h.spent
    have hrest := hnext.spent
    refine ⟨(allInside_bind t f).mpr ⟨h.inside, fun a' ha' => ?_⟩, ?_, fun b hb => ?_⟩
    · rw [hres] at ha'
      obtain rfl := Option.some.inj ha'
      exact hnext.inside
    · rw [bind_some hres, work_append]
      omega
    · rw [bind_some hres] at hb ⊢
      have hb' := hnext.done b hb
      rwa [Nat.sub_sub, ← work_append] at hb'

theorem mono {t : Traced α} {Q' : α → Nat → Prop} (h : Within raw t budget Q)
    (hQ : ∀ a left, Q a left → Q' a left) : Within raw t budget Q' :=
  ⟨h.inside, h.spent, fun a ha => hQ a _ (h.done a ha)⟩

theorem advance {p k : Nat} {Q : Nat → Nat → Prop} (hfit : p + k < 2 ^ 64) (hb : 1 ≤ budget)
    (hQ : Q (p + k) (budget - 1)) : Within raw (advance p k) budget Q where
  inside x hx := by
    rw [List.mem_singleton.mp hx]
    exact hfit
  spent := hb
  done a ha := by
    obtain rfl := Option.some.inj ha
    rw [Nat.mod_eq_of_lt hfit]
    exact hQ

theorem range {first last : Nat} {Q : Bytes → Nat → Prop} (hle : first ≤ last)
    (hlast : last ≤ raw.length) (hb : last - first + 1 ≤ budget)
    (hQ : Q ((raw.take last).drop first) (budget - (last - first + 1))) :
    Within raw (range raw first last) budget Q where
  inside x hx := by
    rw [List.mem_singleton.mp hx]
    exact ⟨hle, hlast⟩
  spent := by simpa [Zcash.range, work, Touch.work] using hb
  done a ha := by
    obtain rfl := Option.some.inj ha
    simpa [Zcash.range, work, Touch.work] using hQ

end Within

end Traced

/-! ## Sizes -/

/-- How many bytes follow the first byte of a size. -/
def sizeWidth (n : UInt8) : Nat :=
  if n.toNat < 0xfd then 0 else if n = 0xfd then 2 else if n = 0xfe then 4 else 8

/-- The size at a position, and the position after it, when it is all there. -/
def sizeAt (raw : Bytes) (p : Nat) : Option (Nat × Nat) :=
  match raw.drop p with
  | [] => none
  | n :: rest =>
    if n.toNat < 0xfd then some (n.toNat, p + 1)
    else if sizeWidth n ≤ rest.length then
      some (Wire.leValue (rest.take (sizeWidth n)), p + 1 + sizeWidth n)
    else none

section Sizes

variable {raw : Bytes}

theorem sizeWidth_le (n : UInt8) : sizeWidth n ≤ 8 := by
  unfold sizeWidth
  split <;> [skip; split <;> [skip; split]] <;> omega

theorem sizeAt_bounds {p n q : Nat} (h : sizeAt raw p = some (n, q)) :
    p < q ∧ q ≤ raw.length ∧ n < 2 ^ 64 := by
  unfold sizeAt at h
  split at h
  · cases h
  · rename_i b rest hdrop
    have hlen : raw.length - p = rest.length + 1 := by
      rw [← List.length_drop, hdrop, List.length_cons]
    split at h
    · cases h
      have hb := b.toNat_lt
      omega
    · split at h
      · rename_i hroom
        cases h
        have hlt := Wire.leValue_lt (rest.take (sizeWidth b))
        have hpow : 256 ^ (rest.take (sizeWidth b)).length ≤ 256 ^ 8 := by
          refine Nat.pow_le_pow_right (by omega) ?_
          rw [List.length_take]
          have hwidth := sizeWidth_le b
          omega
        refine ⟨by omega, by omega, Nat.lt_of_lt_of_le hlt (hpow.trans (by norm_num))⟩
      · cases h

/-- What bytes read one by one come to, and what they touch. -/
structure ReadsAs {α : Type} (raw : Bytes) (t : Traced α) (result : Option α) (cost : Nat) :
    Prop where
  result : t.result = result
  inside : AllInside raw t
  cost : work t.touched ≤ cost

theorem ReadsAs.bind {α β : Type} {t : Traced α} {f : α → Traced β} {a : Option α} {b : Option β}
    {c d : Nat} (h : ReadsAs raw t a c) (hnone : a = none → b = none)
    (hf : ∀ x, a = some x → ReadsAs raw (f x) b d) : ReadsAs raw (t >>= f) b (c + d) := by
  have hcost := h.cost
  cases ha : a with
  | none =>
    have hres : t.result = none := h.result.trans ha
    rw [bind_none hres, hnone ha]
    exact ⟨rfl, h.inside, by show work t.touched ≤ _; omega⟩
  | some x =>
    have hres : t.result = some x := h.result.trans ha
    have hnext := hf x ha
    have hrest := hnext.cost
    refine ⟨?_, (allInside_bind t f).mpr ⟨h.inside, fun x' hx' => ?_⟩, ?_⟩
    · rw [bind_some hres]
      exact hnext.result
    · rw [hres] at hx'
      obtain rfl := Option.some.inj hx'
      exact hnext.inside
    · rw [bind_some hres, work_append]
      omega

theorem ReadsAs.within {α : Type} {t : Traced α} {a : Option α} {c budget : Nat}
    {Q : α → Nat → Prop} (h : ReadsAs raw t a c) (hb : c ≤ budget)
    (hQ : ∀ x left, a = some x → budget - c ≤ left → Q x left) : Within raw t budget Q where
  inside := h.inside
  spent := h.cost.trans hb
  done x hx := hQ x _ (h.result ▸ hx) (by have := h.cost; omega)

theorem readsAs_advance {p k : Nat} (hfit : p + k < 2 ^ 64) :
    ReadsAs raw (advance p k) (some (p + k)) 1 where
  result := by
    show some ((p + k) % 2 ^ 64) = _
    rw [Nat.mod_eq_of_lt hfit]
  inside x hx := by
    rw [List.mem_singleton.mp hx]
    exact hfit
  cost := Nat.le_refl 1

theorem readsAs_byteAt {i : Nat} (hi : i < raw.length) :
    ReadsAs raw (byteAt raw i) (some (raw.getD i 0)) 1 where
  result := rfl
  inside x hx := by
    rw [List.mem_singleton.mp hx]
    exact hi
  cost := Nat.le_refl 1

theorem readsAs_pure {α : Type} (a : α) : ReadsAs raw (pure a : Traced α) (some a) 0 :=
  ⟨rfl, allInside_pure a, Nat.le_refl 0⟩

/-- Bytes at the places of a list, each by a read. -/
theorem mapM_reads {ι : Type} (at' : ι → Nat) (is : List ι) (h : ∀ i ∈ is, at' i < raw.length) :
    ReadsAs raw (is.mapM fun i => byteAt raw (at' i)) (some (is.map fun i => raw.getD (at' i) 0))
      is.length := by
  induction is with
  | nil => exact readsAs_pure _
  | cons i is ih =>
    rw [List.mapM_cons, List.length_cons, Nat.add_comm]
    refine (readsAs_byteAt (h i List.mem_cons_self)).bind (fun hn => (by cases hn)) fun x hx => ?_
    obtain rfl := Option.some.inj hx
    have hrest := ih fun j hj => h j (List.mem_cons_of_mem _ hj)
    refine (hrest.bind (d := 0) (fun hn => (by cases hn)) fun xs hxs => ?_)
    obtain rfl := Option.some.inj hxs
    exact readsAs_pure _

theorem readAt_reads {k pos : Nat} (hraw : raw.length < 2 ^ 64) (hpos : pos ≤ raw.length) :
    ReadsAs raw (readAt raw k pos)
      (if pos + k ≤ raw.length then some ((raw.drop pos).take k, pos + k) else none) (2 * k) := by
  induction k generalizing pos with
  | zero =>
    rw [if_pos (by omega)]
    exact readsAs_pure _
  | succ k ih =>
    unfold readAt
    by_cases hend : raw.length ≤ pos
    · rw [if_pos hend, if_neg (by omega)]
      exact ⟨rfl, fun x hx => (by cases hx), Nat.zero_le _⟩
    · rw [if_neg hend]
      have hin : pos < raw.length := by omega
      have hcost : 2 * (k + 1) = 1 + (1 + (2 * k + 0)) := by omega
      rw [hcost]
      refine (readsAs_byteAt hin).bind (fun h => (by cases h)) fun x hx => ?_
      obtain rfl := Option.some.inj hx
      refine (readsAs_advance (by omega)).bind (fun h => (by cases h)) fun q hq => ?_
      obtain rfl := Option.some.inj hq
      refine (ih (by omega)).bind (fun h => ?_) fun rest hrest => ?_
      · split at h
        · cases h
        · rw [if_neg (by omega)]
      · split at hrest
        · rename_i hfit
          obtain rfl := Option.some.inj hrest
          rw [if_pos (by omega)]
          have htake : (raw.drop pos).take (k + 1) =
              raw.getD pos 0 :: (raw.drop (pos + 1)).take k := by
            rw [List.drop_eq_getElem_cons hin, List.take_succ_cons, List.getD_eq_getElem _ _ hin]
          have hsum : pos + (k + 1) = pos + 1 + k := by omega
          rw [htake, hsum]
          exact readsAs_pure _
        · cases hrest

theorem rd_reads {k pos : Nat} (hraw : raw.length < 2 ^ 64) (hpos : pos ≤ raw.length) :
    ReadsAs raw (rd raw k pos) (if pos + k ≤ raw.length then
      some (Wire.leValue ((raw.drop pos).take k), pos + k) else none) (2 * k + 0) := by
  unfold rd
  refine (readAt_reads hraw hpos).bind (fun h => ?_) fun x hx => ?_
  · split at h
    · cases h
    · rename_i hno
      rw [if_neg hno]
  · split at hx
    · rename_i hfit
      obtain rfl := Option.some.inj hx
      rw [if_pos hfit]
      exact readsAs_pure _
    · cases hx

/-- `read_compact` reads the size at a position. -/
theorem readCompact_reads (hraw : raw.length < 2 ^ 64) (p : Nat) :
    ReadsAs raw (readCompact raw p) (sizeAt raw p) 18 := by
  unfold readCompact
  by_cases hend : raw.length ≤ p
  · have hnone : sizeAt raw p = none := by
      unfold sizeAt
      rw [List.drop_eq_nil_of_le hend]
    rw [if_pos hend, hnone]
    exact ⟨rfl, fun x hx => (by cases hx), Nat.zero_le _⟩
  · rw [if_neg hend]
    have hin : p < raw.length := by omega
    have hdrop : raw.drop p = raw.getD p 0 :: raw.drop (p + 1) := by
      rw [List.drop_eq_getElem_cons hin, List.getD_eq_getElem _ _ hin]
    have hroom : (raw.drop (p + 1)).length = raw.length - (p + 1) := List.length_drop
    refine (readsAs_byteAt hin).bind (d := 17) (fun h => (by cases h)) fun n hn => ?_
    obtain rfl := Option.some.inj hn
    refine (readsAs_advance (by omega)).bind (d := 16) (fun h => (by cases h)) fun q hq => ?_
    obtain rfl := Option.some.inj hq
    have hwide {k : Nat} (hk : k ≤ 8) (hwidth : sizeWidth (raw.getD p 0) = k)
        (hbig : ¬ (raw.getD p 0).toNat < 0xfd) :
        ReadsAs raw (rd raw k (p + 1)) (sizeAt raw p) 16 := by
      have hrd := rd_reads (k := k) hraw (show p + 1 ≤ raw.length by omega)
      have hsame : sizeAt raw p = if p + 1 + k ≤ raw.length then
          some (Wire.leValue ((raw.drop (p + 1)).take k), p + 1 + k) else none := by
        unfold sizeAt
        rw [hdrop]
        dsimp only
        rw [if_neg hbig, hwidth, hroom]
        by_cases hfit : k ≤ raw.length - (p + 1)
        · rw [if_pos hfit, if_pos (by omega)]
        · rw [if_neg hfit, if_neg (by omega)]
      rw [hsame]
      exact ⟨hrd.result, hrd.inside, hrd.cost.trans (by omega)⟩
    by_cases hsmall : (raw.getD p 0).toNat < 0xfd
    · rw [if_pos hsmall]
      have hsize : sizeAt raw p = some ((raw.getD p 0).toNat, p + 1) := by
        unfold sizeAt
        rw [hdrop]
        dsimp only
        rw [if_pos hsmall]
      rw [hsize]
      exact ⟨rfl, allInside_pure _, Nat.zero_le _⟩
    · rw [if_neg hsmall]
      by_cases hfd : raw.getD p 0 = 0xfd
      · rw [if_pos hfd]
        exact hwide (by omega) (by rw [hfd]; rfl) hsmall
      · rw [if_neg hfd]
        by_cases hfe : raw.getD p 0 = 0xfe
        · rw [if_pos hfe]
          exact hwide (by omega) (by rw [hfe]; rfl) hsmall
        · rw [if_neg hfe]
          refine hwide (by omega) ?_ hsmall
          unfold sizeWidth
          rw [if_neg hsmall, if_neg hfd, if_neg hfe]

end Sizes

end MkPool.Zcash
