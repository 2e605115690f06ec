import MkPool.Generator
import MkPool.DeskWatch
import MkPool.Play

/-! # Templates in the order of their fetches

The stratifier gets the templates the generator takes. Its tip is that of the
latest fetch, as long as no late reply gets through. -/
namespace MkPool.TemplateOrder
open MkPool.Lib.Interaction MkPool.Utils MkPool.Job MkPool.Coinbase MkPool.Stratifier
open MkPool.Calls MkPool.ClientSession MkPool.JsonValue MkPool.Tasks MkPool.Desk MkPool.Play
open MkPool.DeskWatch MkPool.Generator

/-- The generator of a chain with its stratifier, and a session. -/
structure Feed where
  gen : GeneratorState
  desk : DeskState

/-- What happens next: at the generator, with the random part of the next job
id, or at the desk. -/
inductive FeedInput where
  | generator (i : Generator.Input) (jobId : Str)
  | session (i : Desk.Input)

/-- What the generator delivers is the stratifier's next work. -/
inductive FeedStep (env : Env) : Feed → FeedInput → Feed → Prop where
  | quiet {f : Feed} {g' : GeneratorState} {i : Generator.Input} {jobId : Str}
    (h : react f.gen i = some g') (hd : g'.delivered = f.gen.delivered) :
    FeedStep env f (.generator i jobId) ⟨g', f.desk⟩
  | work {f : Feed} {g' : GeneratorState} {d' : DeskState} {i : Generator.Input} {jobId : Str}
    {number : Nat} {gbt : Json} (h : react f.gen i = some g')
    (hd : g'.delivered = (number, gbt) :: f.gen.delivered)
    (hs : Step env f.desk (.work gbt jobId) d') :
    FeedStep env f (.generator i jobId) ⟨g', d'⟩
  | session {f : Feed} {d' : DeskState} {i : Desk.Input} (hw : ∀ gbt jobId, i ≠ .work gbt jobId)
    (hs : Step env f.desk i d') : FeedStep env f (.session i) ⟨f.gen, d'⟩

/-- The runs of a feed all of whose steps meet a condition. -/
inductive Run (env : Env) (isV2 : Bool) (ok : Feed → FeedInput → Prop) : Feed → Prop where
  | init {d : DeskState} {useZMQ hasAux : Bool} (h : Initial env isV2 d) :
    Run env isV2 ok ⟨{ useZMQ, hasAux }, d⟩
  | step {f f' : Feed} {i : FeedInput} (h : Run env isV2 ok f) (hok : ok f i)
    (hs : FeedStep env f i f') : Run env isV2 ok f'

/-- No late reply gets through. -/
def Ordered (f : Feed) : FeedInput → Prop
  | .generator i _ => InOrder f.gen i
  | .session _ => True

/-- The tip of a template the stratifier makes work of. -/
def tipOf (env : Env) (gbt : Json) : Option Str :=
  ((parseTemplate gbt).bind (draftJob env.coin env.hashes)).map (·.previousblockhash)

/-- The tips the stratifier was given, the latest first, with the numbers of
their fetches. -/
def tips (env : Env) (g : GeneratorState) : List (Nat × Str) :=
  g.delivered.filterMap fun t => (tipOf env t.2).map fun p => (t.1, p)

/-! ## What a step does -/

section Steps

variable {env : Env} {isV2 : Bool} {ok : Feed → FeedInput → Prop} {f f' : Feed} {i : FeedInput}

theorem readable_of_run (h : Run env isV2 ok f) : Readable f.gen := by
  induction h with
  | init h => exact ⟨Option.some_ne_none _, Option.some_ne_none _⟩
  | step _ _ hs ih =>
    cases hs with
    | quiet h _ => exact ih.step h
    | work h _ _ => exact ih.step h
    | session _ _ => exact ih

/-- Only new work moves the tip, and clears the table. -/
theorem desk_keeps {d d' : DeskState} {i : Desk.Input} (hw : ∀ gbt jobId, i ≠ .work gbt jobId)
    (hs : Step env d i d') : d'.world.strat.lastPrevhash = d.world.strat.lastPrevhash ∧
      ∀ evs, d'.world.log = evs ++ d.world.log → (⟨.clearShares, ()⟩ : Event) ∉ evs := by
  cases hs with
  | task offered run =>
    obtain ⟨q, _, seen⟩ := task_seen run
    refine ⟨seen.prevhash, fun evs hlog hmem => ?_⟩
    obtain ⟨evs', hlog', hevs⟩ := seen.log
    obtain rfl : evs = evs' := List.append_cancel_right (hlog.symm.trans hlog')
    exact (hevs _ hmem).1
  | notify head run =>
    obtain ⟨q, _, seen⟩ := task_seen run
    refine ⟨seen.prevhash, fun evs hlog hmem => ?_⟩
    obtain ⟨evs', hlog', hevs⟩ := seen.log
    obtain rfl : evs = evs' := List.append_cancel_right (hlog.symm.trans hlog')
    exact (hevs _ hmem).1
  | work run => exact absurd rfl (hw _ _)
  | others =>
    refine ⟨rfl, fun evs hlog hmem => ?_⟩
    obtain rfl : evs = [] := by simpa using hlog
    cases hmem

/-- New work moves the tip to the template's, if it is work at all. -/
theorem work_moves {d d' : DeskState} {gbt : Json} {jobId : Str}
    (hs : Step env d (.work gbt jobId) d') :
    d'.world.strat.lastPrevhash = (tipOf env gbt).getD d.world.strat.lastPrevhash := by
  cases hs with
  | @work s w w' gbt jobId run =>
    unfold tipOf
    rcases work_cases run with ⟨hnone, rfl⟩ | ⟨job, hjob, rfl⟩
    · rw [Option.map_eq_none_iff.mp hnone]
      rfl
    · obtain ⟨draft, hdraft, rfl⟩ := Option.map_eq_some_iff.mp hjob
      rw [hdraft]
      rfl

end Steps

/-! ## Runs -/

/-- The stratifier's tip is the one of the latest fetch it got work from. -/
def LatestTip (tips : List (Nat × Str)) (tip : Str) : Prop :=
  tips = [] ∧ tip = [] ∨ ∃ number, (number, tip) ∈ tips ∧ ∀ t ∈ tips, t.1 ≤ number

/-- The templates were delivered in the order of their fetches, and the tip is
that of the last. -/
structure InSequence (env : Env) (f : Feed) : Prop where
  source : f.gen.source = f.gen.delivered.head?.map Prod.fst
  sorted : f.gen.delivered.Pairwise fun a b => b.1 ≤ a.1
  tip : f.desk.world.strat.lastPrevhash = ((tips env f.gen).head?.map Prod.snd).getD []

section Runs

variable {env : Env} {isV2 : Bool} {f f' : Feed} {i : FeedInput}

/-- The templates delivered before are of no later fetches. -/
theorem InSequence.le_source (h : InSequence env f) {n : Nat} (hn : f.gen.source = some n) :
    ∀ t ∈ f.gen.delivered, t.1 ≤ n := by
  have hsource := h.source
  have hsorted := h.sorted
  rw [hn] at hsource
  cases hd : f.gen.delivered with
  | nil => simp
  | cons t rest =>
    rw [hd] at hsource hsorted
    obtain rfl : n = t.1 := Option.some.inj hsource
    intro t' ht'
    rcases List.mem_cons.mp ht' with rfl | ht'
    · exact Nat.le_refl _
    · exact (List.pairwise_cons.mp hsorted).1 t' ht'

theorem InSequence.deliver {g' : GeneratorState} {d' : DeskState} {number : Nat} {gbt : Json}
    {gi : Generator.Input} {jobId : Str} (h : InSequence env f) (hread : Readable f.gen)
    (hok : InOrder f.gen gi) (hreact : react f.gen gi = some g')
    (hd : g'.delivered = (number, gbt) :: f.gen.delivered)
    (hs : Step env f.desk (.work gbt jobId) d') :
    InSequence env ⟨g', d'⟩ ∧ ∀ t ∈ f.gen.delivered, t.1 ≤ number := by
  have hsource : g'.source = some number := by
    rcases react_cases hread hreact with ⟨_, _, hsame⟩ | ⟨k, r, _, hi⟩
    · have hlen := congrArg List.length (hsame.symm.trans hd)
      simp at hlen
    · obtain ⟨hpair, _⟩ := List.cons.inj (hi.delivered.symm.trans hd)
      rw [hi.source, (Prod.mk.inj hpair).1]
  have hle : ∀ t ∈ f.gen.delivered, t.1 ≤ number := by
    intro t ht
    cases hn : f.gen.source with
    | none =>
      have hempty := h.source
      rw [hn] at hempty
      rw [List.head?_eq_none_iff.mp (Option.map_eq_none_iff.mp hempty.symm)] at ht
      cases ht
    | some n =>
      obtain ⟨n', hn', hle⟩ := (fresh_iff hread hreact).mpr hok n hn
      obtain rfl : n' = number := Option.some.inj (hn'.symm.trans hsource)
      exact (h.le_source hn t ht).trans hle
  refine ⟨⟨?_, ?_, ?_⟩, hle⟩
  · rw [hsource, hd]
    rfl
  · rw [hd]
    exact List.pairwise_cons.mpr ⟨hle, h.sorted⟩
  · rw [work_moves hs, h.tip]
    unfold tips
    rw [hd, List.filterMap_cons]
    cases tipOf env gbt with
    | none => rfl
    | some p => rfl

/-- **A step of an ordered run.** -/
theorem InSequence.step (h : InSequence env f) (hread : Readable f.gen) (hok : Ordered f i)
    (hs : FeedStep env f i f') : InSequence env f' := by
  cases hs with
  | @quiet g' gi jobId hreact hd =>
    have hsource : g'.source = f.gen.source := by
      rcases react_cases hread hreact with hsame | ⟨k, r, _, hi⟩
      · exact hsame.source
      · have hlen := congrArg List.length (hi.delivered.symm.trans hd)
        simp at hlen
    refine ⟨?_, ?_, ?_⟩
    · rw [hsource, hd]
      exact h.source
    · rw [hd]
      exact h.sorted
    · unfold tips
      rw [hd]
      exact h.tip
  | work hreact hd hwork => exact (h.deliver hread hok hreact hd hwork).1
  | session hw hdesk =>
    refine ⟨h.source, h.sorted, ?_⟩
    rw [(desk_keeps hw hdesk).1]
    exact h.tip

theorem inSequence_of_run (h : Run env isV2 Ordered f) : InSequence env f := by
  induction h with
  | init h =>
    obtain ⟨_, _, _, rfl⟩ := h
    exact ⟨rfl, List.Pairwise.nil, rfl⟩
  | step hrun hok hs ih => exact ih.step (readable_of_run hrun) hok hs

theorem InSequence.latestTip (h : InSequence env f) :
    LatestTip (tips env f.gen) f.desk.world.strat.lastPrevhash := by
  have hsorted : (tips env f.gen).Pairwise fun a b => b.1 ≤ a.1 := by
    refine List.Pairwise.filterMap _ ?_ h.sorted
    rintro a a' hle b hb b' hb'
    obtain ⟨p, _, rfl⟩ := Option.map_eq_some_iff.mp hb
    obtain ⟨p', _, rfl⟩ := Option.map_eq_some_iff.mp hb'
    exact hle
  rw [h.tip]
  cases ht : tips env f.gen with
  | nil => exact .inl ⟨rfl, rfl⟩
  | cons t rest =>
    rw [ht] at hsorted
    refine .inr ⟨t.1, List.mem_cons_self, fun t' ht' => ?_⟩
    rcases List.mem_cons.mp ht' with rfl | ht'
    · exact Nat.le_refl _
    · exact (List.pairwise_cons.mp hsorted).1 t' ht'

/-- **Ordered replies keep the templates fresh.** In every run in which no late
reply gets through, a template is not replaced by that of an earlier fetch, the
stratifier's tip is that of the latest fetch it got work from, and only a
template of no earlier fetch clears the table of shares. -/
theorem templates_stay_fresh (env : Env) (isV2 : Bool) (f f' : Feed) (i : FeedInput)
    (run : Run env isV2 Ordered f) (hok : Ordered f i) (hs : FeedStep env f i f') :
    Fresh f.gen f'.gen ∧ LatestTip (tips env f'.gen) f'.desk.world.strat.lastPrevhash ∧
      ∀ evs, f'.desk.world.log = evs ++ f.desk.world.log → (⟨.clearShares, ()⟩ : Event) ∈ evs →
        ∃ number gbt, f'.gen.delivered = (number, gbt) :: f.gen.delivered ∧
          ∀ t ∈ f.gen.delivered, t.1 ≤ number := by
  have hread := readable_of_run run
  have hseq := inSequence_of_run run
  refine ⟨?_, (hseq.step hread hok hs).latestTip, fun evs hlog hmem => ?_⟩
  · cases hs with
    | quiet hreact _ => exact (fresh_iff hread hreact).mpr hok
    | work hreact _ _ => exact (fresh_iff hread hreact).mpr hok
    | session _ _ => exact fun n hn => ⟨n, hn, Nat.le_refl n⟩
  · cases hs with
    | quiet hreact hd =>
      obtain rfl : evs = [] := by simpa using hlog
      cases hmem
    | work hreact hd hwork => exact ⟨_, _, hd, (hseq.deliver hread hok hreact hd hwork).2⟩
    | session hw hdesk => exact absurd hmem ((desk_keeps hw hdesk).2 evs hlog)

end Runs

/-! ## Two runs -/

/-- The state after an input of the generator, where work is taken at once. -/
def advance (env : Env) (f : Feed) (i : Generator.Input) (jobId : Str) : Option Feed :=
  (react f.gen i).bind fun g' =>
    if g'.delivered.length = f.gen.delivered.length then some ⟨g', f.desk⟩
    else g'.delivered.head?.bind fun t =>
      (perform env usual f.desk (.work t.2 jobId)).map fun d' => ⟨g', d'⟩

/-- The state after a list of inputs, each made where the check allows it. -/
def advanceAll (env : Env) (check : GeneratorState → Generator.Input → Bool) :
    Feed → List (Generator.Input × Str) → Option Feed
  | f, [] => some f
  | f, (i, jobId) :: rest =>
    if check f.gen i then (advance env f i jobId).bind fun f' => advanceAll env check f' rest
    else none

section Advanced

variable {env : Env} {isV2 : Bool} {ok : Feed → FeedInput → Prop} {f f' : Feed}

theorem step_of_advance {i : Generator.Input} {jobId : Str} (hread : Readable f.gen)
    (h : advance env f i jobId = some f') : FeedStep env f (.generator i jobId) f' := by
  obtain ⟨g', hreact, h⟩ := Option.bind_eq_some_iff.mp h
  rcases react_cases hread hreact with hsame | ⟨number, r, _, hi⟩
  · rw [if_pos (congrArg List.length hsame.delivered)] at h
    cases h
    exact .quiet hreact hsame.delivered
  · rw [hi.delivered, List.length_cons, if_neg (by omega)] at h
    obtain ⟨d', hd', rfl⟩ := Option.map_eq_some_iff.mp h
    exact .work hreact hi.delivered
      (step_of_perform (rfl : Move.input usual _ (.work g'.currentTemplate jobId) = _) hd')

theorem run_of_advanceAll {check : GeneratorState → Generator.Input → Bool}
    (hok : ∀ f i jobId, check f.gen i = true → ok f (.generator i jobId))
    {inputs : List (Generator.Input × Str)} (hf : Run env isV2 ok f)
    (h : advanceAll env check f inputs = some f') : Run env isV2 ok f' := by
  induction inputs generalizing f with
  | nil =>
    cases h
    exact hf
  | cons x rest ih =>
    obtain ⟨i, jobId⟩ := x
    unfold advanceAll at h
    split at h
    · rename_i hc
      obtain ⟨f₁, h₁, h⟩ := Option.bind_eq_some_iff.mp h
      exact ih (.step hf (hok f i jobId hc) (step_of_advance (readable_of_run hf) h₁)) h
    · cases h

end Advanced

theorem run_start {env : Env} {ok : Feed → FeedInput → Prop} :
    Run env false ok ⟨{}, start env false⟩ :=
  .init ⟨_, _, _, rfl⟩

def secondId : Str := "0200000000000000".toList

/-- The reply of a fetch, with a template on a tip. -/
def template (number : Nat) (prevhash : Char) : Generator.Input :=
  .reply number
    { ec := false, response := sampleTemplate prevhash 'c', connected := true, threw := false }

/-- A pool that polls starts, and asks again to keep its miners' jobs alive.
The fetches are 0 and 1. -/
def twoFetches : List (Generator.Input × Str) := [(.start false, []), (.updateTimer, [])]

def clearsIn : Event → Bool
  | ⟨.clearShares, _⟩ => true
  | _ => false

/-- **A late reply gets through.** The reply of the first fetch replaces the
template of the second: the tip goes back, and the table is cleared. -/
theorem late_reply_installed :
    ∃ (env : Env) (f f' : Feed) (i : FeedInput), Run env false (fun _ _ => True) f ∧
      FeedStep env f i f' ∧ f.gen.source = some 1 ∧ f'.gen.source = some 0 ∧
      ¬ LatestTip (tips env f'.gen) f'.desk.world.strat.lastPrevhash ∧
      ∃ evs, f'.desk.world.log = evs ++ f.desk.world.log ∧
        (⟨.clearShares, ()⟩ : Event) ∈ evs := by
  have h : (advanceAll easyPool (fun _ _ => true) ⟨{}, start easyPool false⟩
      (twoFetches ++ [(template 1 'b', firstId)])).any (fun f =>
        decide (f.gen.source = some 1) && decide (f.desk.world.log.countP clearsIn = 1) &&
        (advance easyPool f (template 0 'a') secondId).any fun f' =>
          decide (f'.gen.source = some 0) && decide (f'.desk.world.log.countP clearsIn = 2) &&
          decide (f'.desk.world.strat.lastPrevhash = List.replicate 64 'a') &&
          decide (tips easyPool f'.gen =
            [(0, List.replicate 64 'a'), (1, List.replicate 64 'b')])) = true := by
    decide +kernel
  obtain ⟨f, hf, hx⟩ := (Option.any_eq_true _ _).mp h
  simp only [Bool.and_eq_true, decide_eq_true_eq, Option.any_eq_true] at hx
  obtain ⟨⟨hsource, hbefore⟩, f', hf', ⟨⟨hsource', hafter⟩, htip⟩, htips⟩ := hx
  have hrun : Run easyPool false (fun _ _ => True) f :=
    run_of_advanceAll (fun _ _ _ _ => trivial) run_start hf
  have hs := step_of_advance (readable_of_run hrun) hf'
  refine ⟨easyPool, f, f', _, hrun, hs, hsource, hsource', ?_, ?_⟩
  · rw [htip, htips]
    rintro (⟨hnil, _⟩ | ⟨number, hmem, hle⟩)
    · cases hnil
    · have hlast := hle (1, List.replicate 64 'b') (by simp)
      simp only [List.mem_cons, Prod.mk.injEq, List.not_mem_nil, or_false] at hmem
      rcases hmem with ⟨rfl, _⟩ | ⟨_, habsurd⟩
      · omega
      · exact absurd habsurd (by decide)
  · cases hs with
    | quiet _ _ =>
      rw [hbefore] at hafter
      cases hafter
    | work _ _ hwork =>
      obtain ⟨evs, hlog⟩ := log_of_step hwork
      refine ⟨evs, hlog, ?_⟩
      rw [hlog, List.countP_append, hbefore] at hafter
      obtain ⟨⟨c, x⟩, hmem, hc⟩ := List.countP_pos_iff.mp (show 0 < evs.countP clearsIn by omega)
      cases c <;> first | exact hmem | cases hc

/-- The check of an ordered run. -/
def onTime (g : GeneratorState) : Generator.Input → Bool
  | .reply number _ => !(g.source.any fun n => decide (number < n))
  | _ => true

theorem ordered_of_onTime (f : Feed) (i : Generator.Input) (jobId : Str)
    (h : onTime f.gen i = true) : Ordered f (.generator i jobId) := by
  cases i with
  | reply number r =>
    intro _ _ _ n _ _ hn hlt
    simp [onTime, hn] at h
    omega
  | _ => trivial

/-- Both fetches are answered in their order. -/
theorem templates_stay_fresh_once :
    ∃ f f' : Feed, f.gen.source = some 0 ∧ f'.gen.source = some 1 ∧
      LatestTip (tips easyPool f'.gen) f'.desk.world.strat.lastPrevhash := by
  have h : (advanceAll easyPool onTime ⟨{}, start easyPool false⟩
      (twoFetches ++ [(template 0 'a', firstId)])).any (fun f =>
        decide (f.gen.source = some 0) && onTime f.gen (template 1 'b') &&
        (advance easyPool f (template 1 'b') secondId).any fun f' =>
          decide (f'.gen.source = some 1)) = true := by
    decide +kernel
  obtain ⟨f, hf, hx⟩ := (Option.any_eq_true _ _).mp h
  simp only [Bool.and_eq_true, decide_eq_true_eq, Option.any_eq_true] at hx
  obtain ⟨⟨hsource, htime⟩, f', hf', hsource'⟩ := hx
  have hrun : Run easyPool false Ordered f := run_of_advanceAll ordered_of_onTime run_start hf
  have hs := step_of_advance (readable_of_run hrun) hf'
  have hfresh := templates_stay_fresh easyPool false f f' _ hrun
    (ordered_of_onTime f _ secondId htime) hs
  exact ⟨f, f', hsource, hsource', hfresh.2.1⟩

end MkPool.TemplateOrder
