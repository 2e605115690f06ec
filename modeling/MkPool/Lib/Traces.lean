import MkPool.Lib.Interaction

/-! # Paths of a program

A path is the calls a program has made with the answers it was given, in order.
A watcher that the program obeys can be run over its paths. -/
namespace MkPool.Lib.Traces
open MkPool.Lib.Interaction

variable {C : Type} {A : C → Type} {α β : Type}

/-- The calls and answers `tr` lead from a program to what is left of it. -/
inductive Leads : Prog C A α → List (Σ c, A c) → Prog C A α → Prop
  | stay (p : Prog C A α) : Leads p [] p
  | call {c : C} {k : A c → Prog C A α} {x : A c} {tr : List (Σ c, A c)} {q : Prog C A α}
      (h : Leads (k x) tr q) : Leads (.call c k) (⟨c, x⟩ :: tr) q

theorem Leads.snoc {p : Prog C A α} {tr : List (Σ c, A c)} {c : C} {k : A c → Prog C A α}
    (h : Leads p tr (.call c k)) (x : A c) : Leads p (tr ++ [⟨c, x⟩]) (k x) := by
  generalize hq : Prog.call c k = q at h
  induction h with
  | stay p =>
    subst hq
    exact .call (.stay _)
  | call _ ih => exact .call (ih hq)

theorem leads_ret {a b : α} {tr : List (Σ c, A c)} :
    Leads (.ret a : Prog C A α) tr (.ret b) ↔ tr = [] ∧ a = b := by
  constructor
  · intro h
    cases h
    exact ⟨rfl, rfl⟩
  · rintro ⟨rfl, rfl⟩
    exact .stay _

theorem leads_call {c : C} {k : A c → Prog C A α} {tr : List (Σ c, A c)} {b : α} :
    Leads (.call c k) tr (.ret b) ↔ ∃ x rest, tr = ⟨c, x⟩ :: rest ∧ Leads (k x) rest (.ret b) := by
  constructor
  · intro h
    cases h with
    | call h => exact ⟨_, _, rfl, h⟩
  · rintro ⟨x, rest, rfl, h⟩
    exact .call h

/-- The path of a composed program is one of each part. -/
theorem leads_bind {p : Prog C A α} {f : α → Prog C A β} {tr : List (Σ c, A c)} {b : β} :
    Leads (p >>= f) tr (.ret b) ↔
      ∃ tr₁ tr₂ a, tr = tr₁ ++ tr₂ ∧ Leads p tr₁ (.ret a) ∧ Leads (f a) tr₂ (.ret b) := by
  induction p generalizing tr with
  | ret a =>
    constructor
    · exact fun h => ⟨[], tr, a, rfl, .stay _, h⟩
    · rintro ⟨tr₁, tr₂, a', rfl, hp, hf⟩
      obtain ⟨rfl, rfl⟩ := leads_ret.mp hp
      exact hf
  | call c k ih =>
    rw [Prog.call_bind, leads_call]
    constructor
    · rintro ⟨x, rest, rfl, h⟩
      obtain ⟨tr₁, tr₂, a, rfl, hp, hf⟩ := (ih x).mp h
      exact ⟨⟨c, x⟩ :: tr₁, tr₂, a, rfl, .call hp, hf⟩
    · rintro ⟨tr₁, tr₂, a, rfl, hp, hf⟩
      obtain ⟨x, rest, rfl, hx⟩ := leads_call.mp hp
      exact ⟨x, rest ++ tr₂, rfl, (ih x).mpr ⟨rest, tr₂, a, rfl, hx, hf⟩⟩

/-- A program that makes calls of `S` only has made no others. -/
theorem Leads.all {S : C → Prop} {p q : Prog C A α} {tr : List (Σ c, A c)} (h : Leads p tr q)
    (hp : p.All S) : q.All S ∧ ∀ e ∈ tr, S e.1 := by
  induction h with
  | stay p => exact ⟨hp, fun e he => (by cases he)⟩
  | call _ ih =>
    obtain ⟨hq, htr⟩ := ih (hp.2 _)
    refine ⟨hq, fun e he => ?_⟩
    rcases List.mem_cons.mp he with rfl | he
    · exact hp.1
    · exact htr e he

/-- The phase a watcher is in after a path. -/
def phaseAfter {Q : Type} (N : Monitor C A Q) (q : Q) (tr : List (Σ c, A c)) : Q :=
  tr.foldl (fun q e => N.next e.1 q e.2) q

/-- A path of a program that obeys a watcher ends as the watcher says. -/
theorem Leads.watched {Q : Type} {N : Monitor C A Q} {p : Prog C A α} {P : α → Q → Prop} {q : Q}
    {a : α} {tr : List (Σ c, A c)} (h : Leads p tr (.ret a)) (hp : N.Obeys p P q) :
    P a (phaseAfter N q tr) := by
  induction p generalizing q tr with
  | ret b =>
    obtain ⟨rfl, rfl⟩ := leads_ret.mp h
    exact hp
  | call c k ih =>
    obtain ⟨x, rest, rfl, hk⟩ := leads_call.mp h
    have hend := ih x hk (((N.obeys_call _ _ _ _).mp hp).2 x)
    exact hend

end MkPool.Lib.Traces
