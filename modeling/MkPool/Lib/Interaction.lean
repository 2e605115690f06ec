import Mathlib.Order.Basic

/-! # Programs that talk to their surroundings, and what every run of one does

A program is a finite tree: it stops with a value, or makes a call and goes on
with the answer (`Prog`). It fixes no meaning for the calls. A `Machine` does:
it says when a call may be made (`guard`) and how the state moves with the
answer (`step`). `Machine.Exec` is one run to the end, `Machine.wp` what holds
after every run, with every guard met on the way. The same program can be run
by several machines: one that stores what the calls store, one that only
watches the order of the calls. -/
namespace MkPool.Lib.Interaction

/-- A program over the calls `C`, where the call `c` is answered in `A c`. -/
inductive Prog (C : Type) (A : C → Type) (α : Type) : Type where
  | ret (a : α)
  | call (c : C) (k : A c → Prog C A α)

namespace Prog

variable {C : Type} {A : C → Type} {α β γ : Type}

/-- Run `p`, then go on with its value. -/
def bind : Prog C A α → (α → Prog C A β) → Prog C A β
  | ret a, f => f a
  | call c k, f => call c fun x => (k x).bind f

instance : Monad (Prog C A) where
  pure := ret
  bind := bind

/-- The program that makes one call and returns its answer. -/
def perform (c : C) : Prog C A (A c) := call c ret

@[simp] theorem pure_eq (a : α) : (pure a : Prog C A α) = ret a := rfl

@[simp] theorem ret_bind (a : α) (f : α → Prog C A β) : (ret a >>= f) = f a := rfl

@[simp] theorem call_bind (c : C) (k : A c → Prog C A α) (f : α → Prog C A β) :
    (call c k >>= f) = call c fun x => k x >>= f := rfl

@[simp] theorem perform_bind (c : C) (f : A c → Prog C A β) :
    (perform c >>= f) = call c f := rfl

theorem bind_assoc' (p : Prog C A α) (f : α → Prog C A β) (g : β → Prog C A γ) :
    (p >>= f) >>= g = p >>= fun a => f a >>= g := by
  induction p with
  | ret a => rfl
  | call c k ih => exact congrArg (call c) (funext fun x => ih x)

theorem bind_ret (p : Prog C A α) : (p >>= ret) = p := by
  induction p with
  | ret a => rfl
  | call c k ih => exact congrArg (call c) (funext fun x => ih x)

instance : LawfulMonad (Prog C A) :=
  LawfulMonad.mk' (Prog C A) (fun p => bind_ret p) (fun _ _ => rfl) bind_assoc'

/-- Whatever is answered, the program makes calls of `S` only. -/
def All (S : C → Prop) : Prog C A α → Prop
  | ret _ => True
  | call c k => S c ∧ ∀ x, (k x).All S

variable {S : C → Prop}

@[simp] theorem all_ret (a : α) : (ret a : Prog C A α).All S := trivial

@[simp] theorem all_call (c : C) (k : A c → Prog C A α) :
    (call c k).All S ↔ S c ∧ ∀ x, (k x).All S := Iff.rfl

theorem all_perform {c : C} (h : S c) : (perform c : Prog C A (A c)).All S :=
  ⟨h, fun _ => trivial⟩

theorem all_true (p : Prog C A α) : p.All fun _ => True := by
  induction p with
  | ret a => trivial
  | call c k ih => exact ⟨trivial, ih⟩

theorem All.bind {p : Prog C A α} {f : α → Prog C A β} (hp : p.All S)
    (hf : ∀ a, (f a).All S) : (p >>= f).All S := by
  induction p with
  | ret a => exact hf a
  | call c k ih => exact ⟨hp.1, fun x => ih x (hp.2 x)⟩

theorem All.mono {S' : C → Prop} {p : Prog C A α} (hp : p.All S) (h : ∀ c, S c → S' c) :
    p.All S' := by
  induction p with
  | ret a => trivial
  | call c k ih => exact ⟨h c hp.1, fun x => ih x (hp.2 x)⟩

/-- Whatever is answered, the value the program ends with has `P`. -/
def Yields (P : α → Prop) : Prog C A α → Prop
  | ret a => P a
  | call _ k => ∀ x, (k x).Yields P

@[simp] theorem yields_ret (P : α → Prop) (a : α) : (ret a : Prog C A α).Yields P ↔ P a :=
  Iff.rfl

theorem Yields.bind {P : β → Prop} {p : Prog C A α} {f : α → Prog C A β} {Q : α → Prop}
    (hp : p.Yields Q) (hf : ∀ a, Q a → (f a).Yields P) : (p >>= f).Yields P := by
  induction p with
  | ret a => exact hf a hp
  | call c k ih => exact fun x => ih x (hp x)

theorem Yields.mono {P Q : α → Prop} {p : Prog C A α} (hp : p.Yields P)
    (h : ∀ a, P a → Q a) : p.Yields Q := by
  induction p with
  | ret a => exact h a hp
  | call c k ih => exact fun x => ih x (hp x)

/-- A program that may do anything, then one that yields in any case. -/
theorem Yields.after {P : β → Prop} {p : Prog C A α} {f : α → Prog C A β}
    (hf : ∀ a, (f a).Yields P) : (p >>= f).Yields P := by
  induction p with
  | ret a => exact hf a
  | call c k ih => exact fun x => ih x

theorem Yields.perform_bind {P : β → Prop} {c : C} {f : A c → Prog C A β}
    (h : ∀ x, (f x).Yields P) : (perform c >>= f).Yields P := h

/-- Run a program where every call has one answer, or none. -/
def eval {W : Type} (answer : (c : C) → W → Option (A c × W)) : Prog C A α → W → Option (α × W)
  | ret a, w => some (a, w)
  | call c k, w => (answer c w).bind fun r => (k r.1).eval answer r.2

end Prog

/-- What calls mean on states `W`: when one may be made, and how the state
moves when it is answered. -/
structure Machine (C : Type) (A : C → Type) (W : Type) where
  guard : C → W → Prop
  step : (c : C) → W → A c → W → Prop

namespace Machine

variable {C : Type} {A : C → Type} {W : Type} {α β : Type} (M : Machine C A W)

/-- One run of a program to its end. -/
inductive Exec : Prog C A α → W → α → W → Prop where
  | ret (a : α) (w : W) : Exec (.ret a) w a w
  | call {c : C} {k : A c → Prog C A α} {w w' w'' : W} {x : A c} {a : α}
      (hs : M.step c w x w') (hk : Exec (k x) w' a w'') : Exec (.call c k) w a w''

/-- Every run from `w` meets every guard and ends in `Q`. -/
def wp : Prog C A α → (α → W → Prop) → W → Prop
  | .ret a, Q, w => Q a w
  | .call c k, Q, w => M.guard c w ∧ ∀ x w', M.step c w x w' → wp (k x) Q w'

@[simp] theorem wp_ret (a : α) (Q : α → W → Prop) (w : W) :
    M.wp (.ret a) Q w ↔ Q a w := Iff.rfl

@[simp] theorem wp_call (c : C) (k : A c → Prog C A α) (Q : α → W → Prop) (w : W) :
    M.wp (.call c k) Q w ↔
      M.guard c w ∧ ∀ x w', M.step c w x w' → M.wp (k x) Q w' := Iff.rfl

@[simp] theorem wp_bind (p : Prog C A α) (f : α → Prog C A β) (Q : β → W → Prop) (w : W) :
    M.wp (p >>= f) Q w ↔ M.wp p (fun a => M.wp (f a) Q) w := by
  induction p generalizing w with
  | ret a => exact Iff.rfl
  | call c k ih =>
    rw [Prog.call_bind, wp_call, wp_call]
    exact and_congr_right fun _ => forall₃_congr fun x w' _ => ih x w'

theorem wp_mono {p : Prog C A α} {Q R : α → W → Prop} {w : W}
    (h : M.wp p Q w) (hQR : ∀ a w', Q a w' → R a w') : M.wp p R w := by
  induction p generalizing w with
  | ret a => exact hQR a w h
  | call c k ih => exact ⟨h.1, fun x w' hs => ih x (h.2 x w' hs)⟩

/-- **What every run gives.** A weakest precondition holds of the run that was
made. -/
theorem Exec.wp {p : Prog C A α} {w w' : W} {a : α} {Q : α → W → Prop}
    (he : M.Exec p w a w') (h : M.wp p Q w) : Q a w' := by
  induction he with
  | ret a w => exact h
  | call hs _ ih => exact ih (h.2 _ _ hs)

/-- A run ends with a value the program yields. -/
theorem Exec.yields {p : Prog C A α} {w w' : W} {a : α} {P : α → Prop} (he : M.Exec p w a w')
    (h : p.Yields P) : P a := by
  induction he with
  | ret a w => exact h
  | call _ _ ih => exact ih (h _)

theorem Exec.ret_inv {a b : α} {w w' : W} (h : M.Exec (.ret a) w b w') : b = a ∧ w' = w := by
  cases h
  exact ⟨rfl, rfl⟩

theorem Exec.call_inv {c : C} {k : A c → Prog C A α} {a : α} {w w'' : W}
    (h : M.Exec (.call c k) w a w'') : ∃ x w', M.step c w x w' ∧ M.Exec (k x) w' a w'' := by
  obtain _ | ⟨hs, hk⟩ := h
  exact ⟨_, _, hs, hk⟩

theorem Exec.perform_inv {c : C} {f : A c → Prog C A α} {a : α} {w w'' : W}
    (h : M.Exec (Prog.perform c >>= f) w a w'') :
    ∃ x w', M.step c w x w' ∧ M.Exec (f x) w' a w'' :=
  Exec.call_inv M h

theorem Exec.bind_inv {p : Prog C A α} {f : α → Prog C A β} {w w'' : W} {b : β}
    (h : M.Exec (p >>= f) w b w'') : ∃ a w', M.Exec p w a w' ∧ M.Exec (f a) w' b w'' := by
  induction p generalizing w with
  | ret a => exact ⟨a, w, .ret a w, h⟩
  | call c k ih =>
    obtain ⟨x, w', hs, hk⟩ := Exec.call_inv M h
    obtain ⟨a, w₁, hp, hf⟩ := ih x hk
    exact ⟨a, w₁, .call hs hp, hf⟩

/-- What the calls of `S` keep, a run of a program of such calls keeps. -/
theorem Exec.keeps {S : C → Prop} {I : W → Prop} {p : Prog C A α} {w w' : W} {a : α}
    (he : M.Exec p w a w') (hp : p.All S)
    (hI : ∀ c w x w', S c → M.step c w x w' → I w → I w') (h : I w) : I w' := by
  induction he with
  | ret a w => exact h
  | call hs _ ih => exact ih (hp.2 _) (hI _ _ _ _ hp.1 hs h)

/-- An evaluation whose answers the machine allows, in states where `I` holds,
is a run. -/
theorem exec_of_eval {answer : (c : C) → W → Option (A c × W)} {I : W → Prop}
    (ha : ∀ c w x w', I w → answer c w = some (x, w') → M.step c w x w' ∧ I w')
    {p : Prog C A α} {w w' : W} {a : α} (hI : I w) (h : p.eval answer w = some (a, w')) :
    M.Exec p w a w' := by
  induction p generalizing w with
  | ret b =>
    obtain ⟨rfl, rfl⟩ : b = a ∧ w = w' := by simpa [Prog.eval] using h
    exact .ret b w
  | call c k ih =>
    obtain ⟨⟨x, w₁⟩, hx, hk⟩ := Option.bind_eq_some_iff.mp h
    obtain ⟨hs, hI'⟩ := ha c w x w₁ hI hx
    exact .call hs (ih x hI' hk)

end Machine

/-! ## Machines that only watch -/

/-- A watcher of the calls: the phase moves with each call and its answer, and
a call may be refused. -/
structure Monitor (C : Type) (A : C → Type) (Q : Type) where
  allow : C → Q → Prop
  next : (c : C) → Q → A c → Q

/-- The machine of a watcher: any answer may come. -/
def Monitor.machine {C : Type} {A : C → Type} {Q : Type} (N : Monitor C A Q) :
    Machine C A Q where
  guard := N.allow
  step c q x q' := q' = N.next c q x

namespace Monitor

variable {C : Type} {A : C → Type} {Q α β : Type} (N : Monitor C A Q)

/-- From phase `q` the program makes allowed calls only, whatever is answered,
and ends with `P`. -/
def Obeys (p : Prog C A α) (P : α → Q → Prop) (q : Q) : Prop := N.machine.wp p P q

@[simp] theorem obeys_ret (a : α) (P : α → Q → Prop) (q : Q) :
    N.Obeys (.ret a) P q ↔ P a q := Iff.rfl

@[simp] theorem obeys_call (c : C) (k : A c → Prog C A α) (P : α → Q → Prop) (q : Q) :
    N.Obeys (.call c k) P q ↔ N.allow c q ∧ ∀ x, N.Obeys (k x) P (N.next c q x) := by
  refine and_congr Iff.rfl ⟨fun h x => h x _ rfl, ?_⟩
  intro h x q' hq
  subst hq
  exact h x

@[simp] theorem obeys_bind (p : Prog C A α) (f : α → Prog C A β) (P : β → Q → Prop) (q : Q) :
    N.Obeys (p >>= f) P q ↔ N.Obeys p (fun a => N.Obeys (f a) P) q :=
  N.machine.wp_bind p f P q

theorem obeys_mono {p : Prog C A α} {P R : α → Q → Prop} {q : Q}
    (h : N.Obeys p P q) (hPR : ∀ a q', P a q' → R a q') : N.Obeys p R q :=
  N.machine.wp_mono h hPR

end Monitor

/-- **A run under watch.** A run of a program that obeys a watcher ends in a
phase the watcher allows. What each allowed call keeps of phase and state, the
run keeps. -/
theorem Machine.Exec.watched {C : Type} {A : C → Type} {W Q α : Type} {M : Machine C A W}
    {N : Monitor C A Q} {J : Q → W → Prop} {p : Prog C A α} {P : α → Q → Prop} {q : Q} {w w' : W}
    {a : α} (he : M.Exec p w a w') (hp : N.Obeys p P q)
    (hJ : ∀ c q w x w', N.allow c q → M.step c w x w' → J q w → J (N.next c q x) w')
    (h : J q w) : ∃ q', P a q' ∧ J q' w' := by
  induction he generalizing q with
  | ret a w => exact ⟨q, hp, h⟩
  | call hs _ ih =>
    obtain ⟨hallow, hk⟩ := (N.obeys_call _ _ P q).mp hp
    exact ih (hk _) (hJ _ _ _ _ _ hallow hs h)

end MkPool.Lib.Interaction
