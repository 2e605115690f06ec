import MkPool.TemplateOrder

/-! # Completions that bring no template

A fetch that fails, or brings what `parseTemplate` or `updateWork` refuses, makes
no job. The generator looks at the tips only: it sets the reply aside where it is
an error or names no new tip, and takes anything else for its template, the null
result of a node's error too. -/
namespace MkPool.FailedTemplates
open MkPool.Utils MkPool.Job MkPool.Coinbase MkPool.Stratifier MkPool.Calls MkPool.JsonValue
open MkPool.Desk MkPool.Play MkPool.Generator MkPool.TemplateOrder

/-- Nothing was made of a template: `parseTemplate` or `updateWork` refuses it. -/
def Refused (env : Env) (tj : Json) : Prop :=
  (parseTemplate tj).bind (draftJob env.coin env.hashes) = none

/-- The reply ends a fetch, with an error or a template. -/
def Completes (g : GeneratorState) (number : Nat) (r : Reply) (f : Fetch) (ec : Bool) (tj : Json) :
    Prop :=
  (g.inFlight.find? fun f => f.number = number) = some f ∧
    outcome f r.ec r.response = some (ec, tj)

/-- The template, the stratifier and the sessions are as they were, no callback
was fired, and a poll that brings the tips of the template is no news. -/
structure Unchanged (f f' : Feed) : Prop where
  template : f'.gen.currentTemplate = f.gen.currentTemplate
  silent : f'.gen.delivered = f.gen.delivered
  strat : f'.desk.world.strat = f.desk.world.strat
  posted : f'.desk.world.posted = f.desk.world.posted
  recognised : ∀ number tj connected g'', prevhashOf tj = prevhashOf f.gen.currentTemplate →
    auxPrevhashOf tj = auxPrevhashOf f.gen.currentTemplate →
      handleBlockTemplate f'.gen number false tj true connected = some g'' →
        g''.currentTemplate = f.gen.currentTemplate ∧ g''.delivered = f.gen.delivered

section Completions

variable {env : Env} {f f' : Feed} {number : Nat} {r : Reply} {fetch : Fetch} {ec : Bool}
  {tj : Json} {jobId : Str}

/-- A refused template leaves the stratifier and the sessions as they were. -/
theorem work_refused {d d' : DeskState} (hrefused : Refused env tj)
    (hs : Step env d (.work tj jobId) d') :
    d'.world.strat = d.world.strat ∧ d'.world.posted = d.world.posted := by
  cases hs with
  | @work s w w' _ _ run =>
    rcases work_cases run with ⟨_, rfl⟩ | ⟨job, hjob, _⟩
    · exact ⟨rfl, rfl⟩
    · obtain ⟨draft, hdraft, _⟩ := Option.map_eq_some_iff.mp hjob
      rw [hrefused] at hdraft
      cases hdraft

/-- A template of the current tips, brought by a poll, is set aside. -/
theorem recognised_of_same {g g'' : GeneratorState} {connected : Bool} (hg : Readable g)
    (hprev : prevhashOf tj = prevhashOf g.currentTemplate)
    (haux : auxPrevhashOf tj = auxPrevhashOf g.currentTemplate)
    (h : handleBlockTemplate g number false tj true connected = some g'') :
    SameTemplate g g'' :=
  same_of_setAside (r := { ec := false, response := .null, connected, threw := false }) hg
    (.inr (.inr (.inr (.inr ⟨rfl, hprev, haux⟩)))) h

theorem handleReply_of_outcome (g : GeneratorState) {f : Fetch} {r : Reply} {ec : Bool}
    {tj : Json} (hout : outcome f r.ec r.response = some (ec, tj)) :
    handleReply g f r =
      match handleBlockTemplate g f.number ec tj f.fromPoll r.connected with
      | none => g
      | some g' =>
        if r.threw && g.delivered.length < g'.delivered.length then g' else finish g' f.number := by
  unfold handleReply
  cases hblock : handleBlockTemplate g f.number ec tj f.fromPoll r.connected with
  | none => simp only [hout, hblock]
  | some g' => simp only [hout, hblock]

/-- **What a completion does to the template.** -/
theorem completed_cases (hg : Readable f.gen) (hc : Completes f.gen number r fetch ec tj)
    (hs : FeedStep env f (.generator (.reply number r) jobId) f') :
    SetAside f.gen fetch.fromPoll r ec tj ∧ SameTemplate f.gen f'.gen ∧ f'.desk = f.desk ∨
      ¬ SetAside f.gen fetch.fromPoll r ec tj ∧
        f'.gen.delivered = (number, tj) :: f.gen.delivered ∧
          Step env f.desk (.work tj jobId) f'.desk := by
  obtain ⟨hfind, hout⟩ := hc
  have hnumber : fetch.number = number := by simpa using List.find?_some hfind
  have hreact : react f.gen (.reply number r) = some (handleReply f.gen fetch r) := by
    show (f.gen.inFlight.find? _).map _ = _
    rw [hfind]
    rfl
  have hreply := handleReply_of_outcome f.gen hout
  by_cases hset : SetAside f.gen fetch.fromPoll r ec tj
  · left
    have hsame : SameTemplate f.gen (handleReply f.gen fetch r) := by
      rw [hreply]
      cases hh : handleBlockTemplate f.gen fetch.number ec tj fetch.fromPoll r.connected with
      | none => exact .refl f.gen
      | some g' =>
        obtain ⟨ht, hsource, hd⟩ := same_of_setAside hg hset hh
        dsimp only
        split
        · exact ⟨ht, hsource, hd⟩
        · exact ⟨ht, hsource, hd⟩
    cases hs with
    | quiet h hd =>
      obtain rfl := Option.some.inj (hreact.symm.trans h)
      exact ⟨hset, hsame, rfl⟩
    | work h hd hwork =>
      obtain rfl := Option.some.inj (hreact.symm.trans h)
      have hlen := congrArg List.length (hsame.delivered.symm.trans hd)
      simp at hlen
  · right
    have hdelivered : (handleReply f.gen fetch r).delivered = (number, tj) :: f.gen.delivered := by
      rw [hreply, (install_of_not_setAside fetch.number hg hset).1, hnumber]
      dsimp only
      split <;> rfl
    cases hs with
    | quiet h hd =>
      obtain rfl := Option.some.inj (hreact.symm.trans h)
      have hlen := congrArg List.length (hdelivered.symm.trans hd)
      simp at hlen
    | work h hd hwork =>
      obtain rfl := Option.some.inj (hreact.symm.trans h)
      obtain ⟨hpair, _⟩ := List.cons.inj (hdelivered.symm.trans hd)
      obtain ⟨_, rfl⟩ := Prod.mk.inj hpair
      exact ⟨hset, hdelivered, hwork⟩

end Completions

/-- A pool that polls has a template, and polls again. The fetches are 0 and 1. -/
def secondPoll : List (Generator.Input × Str) :=
  [(.start false, []), (template 0 'a', firstId), (.pollTimer, [])]

/-- The reply of the second poll. -/
def failing (ec : Bool) : Reply :=
  { ec, response := .object [field "result" .null], connected := true, threw := false }

/-- A poll of a chain without an aux client, at its first reply. -/
def plainPoll (fetch : Fetch) : Bool := fetch.fromPoll && !fetch.aux && fetch.parent.isNone

/-- The second poll fails. -/
theorem second_poll_fails (ec : Bool) (also : Feed → Feed → Bool)
    (h : (advanceAll easyPool (fun _ _ => true) ⟨{}, start easyPool false⟩ secondPoll).any
      (fun f => (f.gen.inFlight.find? fun f => f.number = 1).any plainPoll &&
        (advance easyPool f (.reply 1 (failing ec)) []).any fun f' => also f f') = true) :
    ∃ f f' fetch, Run easyPool false (fun _ _ => True) f ∧ fetch.fromPoll = true ∧
      Completes f.gen 1 (failing ec) fetch ec (.object [field "result" .null]) ∧
        FeedStep easyPool f (.generator (.reply 1 (failing ec)) []) f' ∧ also f f' = true := by
  obtain ⟨f, hf, hx⟩ := (Option.any_eq_true _ _).mp h
  obtain ⟨hfetch, hx⟩ := Bool.and_eq_true_iff.mp hx
  obtain ⟨fetch, hfind, hplain⟩ := (Option.any_eq_true _ _).mp hfetch
  obtain ⟨f', hf', halso⟩ := (Option.any_eq_true _ _).mp hx
  simp only [plainPoll, Bool.and_eq_true, Bool.not_eq_true', Option.isNone_iff_eq_none] at hplain
  obtain ⟨⟨hpoll, haux⟩, hparent⟩ := hplain
  have hrun : Run easyPool false (fun _ _ => True) f :=
    run_of_advanceAll (fun _ _ _ _ => trivial) run_start hf
  refine ⟨f, f', fetch, hrun, hpoll, ⟨hfind, ?_⟩, step_of_advance (readable_of_run hrun) hf', halso⟩
  unfold outcome
  rw [hparent, haux]
  simp [failing]

theorem refused_null : Refused easyPool (.object [field "result" .null]) := by
  unfold Refused
  rw [show parseTemplate (.object [field "result" .null]) = none by rfl]
  rfl

end MkPool.FailedTemplates
