import Mathlib.Data.List.Basic

/-! # Mailboxes

A leader posts events to a follower, which applies them later and in order. The
leader reasons about the state the follower will settle in. -/
namespace MkPool.Lib.Mailbox

variable {α β : Type*} {apply : α → β → α} {s : α} {e : β} {box : List β}

/-- The state once everything is delivered. -/
def settled (apply : α → β → α) (s : α) (box : List β) : α := box.foldl apply s

@[simp] theorem settled_nil : settled apply s [] = s := rfl

@[simp] theorem settled_cons : settled apply s (e :: box) = settled apply (apply s e) box := rfl

@[simp] theorem settled_post :
    settled apply s (box ++ [e]) = apply (settled apply s box) e := by
  simp [settled]

theorem settled_append (box' : List β) :
    settled apply s (box ++ box') = settled apply (settled apply s box) box' :=
  List.foldl_append

/-- Events that change nothing. -/
theorem settled_of_inert (h : ∀ e ∈ box, ∀ s, apply s e = s) : settled apply s box = s := by
  induction box with
  | nil => rfl
  | cons e box ih =>
    rw [settled_cons, h e (List.mem_cons_self ..)]
    exact ih fun e' he' => h e' (List.mem_cons_of_mem e he')

/-- Every event suits the state it will be applied to. -/
def Suited (apply : α → β → α) (ok : α → β → Prop) : α → List β → Prop
  | _, [] => True
  | s, e :: box => ok s e ∧ Suited apply ok (apply s e) box

theorem Suited.append {ok : α → β → Prop} {box' : List β} (h : Suited apply ok s box)
    (h' : Suited apply ok (settled apply s box) box') : Suited apply ok s (box ++ box') := by
  induction box generalizing s with
  | nil => exact h'
  | cons e box ih => exact ⟨h.1, ih h.2 h'⟩

theorem Suited.mono {ok ok' : α → β → Prop} (h : Suited apply ok s box)
    (himp : ∀ s e, ok s e → ok' s e) : Suited apply ok' s box := by
  induction box generalizing s with
  | nil => trivial
  | cons e box ih => exact ⟨himp s e h.1, ih h.2⟩

end MkPool.Lib.Mailbox
