import Mathlib.Data.Finset.Card
import Mathlib.Data.List.Basic

/-! # Searching a circle for a free number

A search that goes round a circle of numbers from where the last one stopped.
It finds a free number whenever there is one. -/
namespace MkPool.Lib.RoundRobin

variable {taken : Nat → Prop} [DecidablePred taken] {span : Nat}

/-- The first free number among `tries`, and where the next search starts. -/
def search (taken : Nat → Prop) [DecidablePred taken] (span : Nat) : Nat → Nat → Option Nat × Nat
  | 0, start => (none, start)
  | tries + 1, start =>
    if taken start then search taken span tries ((start + 1) % span)
    else (some start, (start + 1) % span)

theorem search_free {tries start n : Nat} (h : (search taken span tries start).1 = some n) :
    ¬ taken n := by
  induction tries generalizing start with
  | zero => cases h
  | succ tries ih =>
    unfold search at h
    by_cases ht : taken start
    · rw [if_pos ht] at h
      exact ih h
    · rw [if_neg ht] at h
      obtain rfl := Option.some.inj h
      exact ht

theorem search_lt {tries start n : Nat} (hstart : start < span)
    (h : (search taken span tries start).1 = some n) : n < span := by
  induction tries generalizing start with
  | zero => cases h
  | succ tries ih =>
    unfold search at h
    by_cases ht : taken start
    · rw [if_pos ht] at h
      exact ih (Nat.mod_lt _ (by omega)) h
    · rw [if_neg ht] at h
      obtain rfl := Option.some.inj h
      exact hstart

theorem search_next_lt {tries start : Nat} (hstart : start < span) :
    (search taken span tries start).2 < span := by
  induction tries generalizing start with
  | zero => exact hstart
  | succ tries ih =>
    unfold search
    have hnext : (start + 1) % span < span := Nat.mod_lt _ (by omega)
    by_cases ht : taken start
    · rw [if_pos ht]
      exact ih hnext
    · rw [if_neg ht]
      exact hnext

/-- A search without a find has met taken numbers only. -/
theorem taken_of_search {tries start : Nat} (hstart : start < span)
    (h : (search taken span tries start).1 = none) :
    ∀ k, k < tries → taken ((start + k) % span) := by
  induction tries generalizing start with
  | zero => simp
  | succ tries ih =>
    intro k hk
    unfold search at h
    by_cases ht : taken start
    · rw [if_pos ht] at h
      cases k with
      | zero => simpa [Nat.mod_eq_of_lt hstart] using ht
      | succ k =>
        have hrest := ih (Nat.mod_lt _ (by omega)) h k (by omega)
        rw [Nat.mod_add_mod] at hrest
        rwa [show start + (k + 1) = start + 1 + k by omega]
    · rw [if_neg ht] at h
      cases h

/-- **Once round is enough.** -/
theorem search_complete {start n : Nat} (hstart : start < span) (hn : n < span)
    (hfree : ¬ taken n) : ∃ m, (search taken span span start).1 = some m := by
  cases h : (search taken span span start).1 with
  | some m => exact ⟨m, rfl⟩
  | none =>
    -- `n` is met after the steps from `start` to it
    have hmet := taken_of_search hstart h ((n + span - start) % span) (Nat.mod_lt _ (by omega))
    rw [Nat.add_mod_mod, show start + (n + span - start) = n + span by omega, Nat.add_mod_right,
      Nat.mod_eq_of_lt hn] at hmet
    exact absurd hmet hfree

/-- Fewer numbers than the circle has leave one free. -/
theorem exists_free {l : List Nat} (h : l.length < span) : ∃ n, n < span ∧ n ∉ l := by
  have hcard : l.toFinset.card < (Finset.range span).card := by
    rw [Finset.card_range]
    exact (List.toFinset_card_le l).trans_lt h
  obtain ⟨n, hn, hfree⟩ := Finset.exists_mem_notMem_of_card_lt_card hcard
  exact ⟨n, Finset.mem_range.mp hn, fun hl => hfree (List.mem_toFinset.mpr hl)⟩

end MkPool.Lib.RoundRobin
