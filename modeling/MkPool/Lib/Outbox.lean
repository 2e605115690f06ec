import Mathlib.Data.List.Basic

/-! # An outbox

What is accepted waits, is taken out in batches, and each batch is settled,
given back or lost. Without losses everything accepted stays where it is in the
order. -/
namespace MkPool.Lib.Outbox

variable {α : Type*}

/-- What an outbox has accepted, and how far it got. -/
structure Ledger (α : Type*) where
  accepted : List α := []
  waiting : List α := []
  inFlight : List α := []
  done : List α := []

inductive Move (α : Type*) where
  | accept (a : α)
  | take
  | settle
  | giveBack
  | lose

def Ledger.move (o : Ledger α) : Move α → Ledger α
  | .accept a => { o with accepted := o.accepted ++ [a], waiting := o.waiting ++ [a] }
  | .take => { o with inFlight := o.inFlight ++ o.waiting, waiting := [] }
  | .settle => { o with done := o.done ++ o.inFlight, inFlight := [] }
  | .giveBack => { o with waiting := o.inFlight ++ o.waiting, inFlight := [] }
  | .lose => { o with inFlight := [] }

def Ledger.moves (o : Ledger α) (ms : List (Move α)) : Ledger α := ms.foldl Ledger.move o

@[simp] theorem Ledger.moves_nil (o : Ledger α) : o.moves [] = o := rfl

@[simp] theorem Ledger.moves_one (o : Ledger α) (m : Move α) : o.moves [m] = o.move m := rfl

/-- Where the accepted things are, in order. -/
def Ledger.held (o : Ledger α) : List α := o.done ++ (o.inFlight ++ o.waiting)

/-- Nothing is lost, and nothing is there twice. -/
def Ledger.Conserved (o : Ledger α) : Prop := o.held = o.accepted

theorem conserved_new : ({} : Ledger α).Conserved := rfl

theorem Ledger.Conserved.move {o : Ledger α} (h : o.Conserved) {m : Move α} (hm : m ≠ .lose) :
    (o.move m).Conserved := by
  unfold Conserved held at h ⊢
  cases m with
  | accept a =>
    simp only [Ledger.move, ← h, List.append_assoc]
  | take =>
    simpa only [Ledger.move, List.append_nil] using h
  | settle =>
    simpa only [Ledger.move, List.nil_append, List.append_assoc] using h
  | giveBack =>
    simpa only [Ledger.move, List.nil_append] using h
  | lose => exact absurd rfl hm

/-- Even with losses, what is held was accepted, in this order. -/
theorem held_sublist_move {o : Ledger α} (h : o.held.Sublist o.accepted) (m : Move α) :
    (o.move m).held.Sublist (o.move m).accepted := by
  unfold Ledger.held at h ⊢
  cases m with
  | accept a =>
    simpa only [Ledger.move, List.append_assoc] using h.append_right [a]
  | take =>
    simpa only [Ledger.move, List.append_nil] using h
  | settle =>
    simpa only [Ledger.move, List.nil_append, List.append_assoc] using h
  | giveBack =>
    simpa only [Ledger.move, List.nil_append] using h
  | lose =>
    refine List.Sublist.trans ?_ h
    exact (List.Sublist.refl _).append (List.sublist_append_right _ _)

theorem held_sublist_moves {o : Ledger α} (h : o.held.Sublist o.accepted) (ms : List (Move α)) :
    (o.moves ms).held.Sublist (o.moves ms).accepted := by
  induction ms generalizing o with
  | nil => exact h
  | cons m rest ih => exact ih (held_sublist_move h m)

/-- When as many are done as were accepted, the outbox is empty and all is done
in order. -/
theorem done_of_length {o : Ledger α} (h : o.held.Sublist o.accepted)
    (hlen : o.accepted.length ≤ o.done.length) : o.done = o.accepted := by
  have hdone : o.done.Sublist o.accepted := (List.sublist_append_left _ _).trans h
  exact hdone.eq_of_length (Nat.le_antisymm hdone.length_le hlen)

end MkPool.Lib.Outbox
