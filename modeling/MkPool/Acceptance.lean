import MkPool.Credits

/-! # Shares that are credited late

A V1 share is credited when its job is of the tip that was read for it and its
time is in range. The Stratum V2 handlers never look at the tip, and that of a
standard channel does not look at the time (`timely_of_reach`). -/
namespace MkPool.Acceptance
open MkPool.Lib.Interaction MkPool.Utils MkPool.Config MkPool.Job MkPool.Coinbase
open MkPool.Stratifier MkPool.Calls MkPool.ClientSession MkPool.Tasks MkPool.ShareWatch
open MkPool.Pool MkPool.PoolLog MkPool.Credits
open MkPool.Play (usual easyPool sampleTemplate firstId firstShareV2)

/-! ## The moments of a submission -/

/-- The tip that the stratifier holds. -/
def tipAt : List Entry → Str
  | [] => []
  | .fed ⟨.swapPrevhash p, _⟩ :: _ => p
  | _ :: l => tipAt l

/-- What the wall clock shows. -/
def clockAt : List Entry → UInt32
  | [] => 0
  | .ticked now :: _ => now
  | _ :: l => clockAt l

/-- A task of the session begins or ends. -/
def edge (n : Nat) : Entry → Bool
  | .began m _ | .ended m => m == n
  | _ => false

/-- The log as it was at a moment of the task that a session is at. -/
inductive Moment (n : Nat) : List Entry → List Entry → Prop where
  | now {l : List Entry} : Moment n l l
  | later {e : Entry} {l l' : List Entry} (inside : edge n e = false) (h : Moment n l l') :
      Moment n (e :: l) l'

/-- At some moment of the submission the job was of the tip, or no tip was
known, and at some moment its time was in range. -/
structure Timely (n : Nat) (log : List Entry) (job : MiningJob) (ntime : UInt32) : Prop where
  tip : ∃ l, Moment n log l ∧ (tipAt l = [] ∨ job.previousblockhash = tipAt l)
  time : ∃ l, Moment n log l ∧ validNtime ntime job.mintime (clockAt l) = true

/-- A share for a pool job is credited. -/
def credit (n : Nat) (path : SharePath) (hash : Hash256) (job : MiningJob) (ntime : UInt32) :
    Entry :=
  .did n ⟨.countAccepted path hash (some job) ntime, ()⟩

/-- No share for a pool job is credited late. -/
def NoLateCredit (log : List Entry) : Prop :=
  ∀ n path hash job ntime l, credit n path hash job ntime :: l <:+ log → Timely n l job ntime

/-- A share that is stored was credited by the same task. -/
def StoredCredited (log : List Entry) : Prop :=
  ∀ n rec x l, .did n ⟨.enqueueShare rec, x⟩ :: l <:+ log →
    ∃ path hash job ntime l', Moment n l (.did n ⟨.countAccepted path hash job ntime, ()⟩ :: l')

/-- **A Stratum V2 share is in time when it is credited.** Its job is of the
tip, and on a standard channel its time is in range. -/
def InTime (h : History) : Entry → Prop
  | .did _ ⟨.countAccepted path _ (some job) ntime, _⟩ => path.isV2 = true →
      (h.strat.lastPrevhash = [] ∨ job.previousblockhash = h.strat.lastPrevhash) ∧
        (path = .v2Standard → validNtime ntime job.mintime h.now = true)
  | _ => True

/-! ## What the phases tell -/

/-- What a session knows of its share was read at moments of the submission. -/
structure Inv (h : History) : Prop where
  tip : h.strat.lastPrevhash = tipAt h.log
  clock : h.now = clockAt h.log
  read : ∀ n u tip, stageOf n h.log = some u → u.phase.tip = some tip →
    ∃ l, Moment n h.log l ∧ tipAt l = tip
  looked : ∀ n u now, stageOf n h.log = some u → u.phase.clock = some now →
    ∃ l, Moment n h.log l ∧ clockAt l = now
  current : ∀ n u v job, stageOf n h.log = some u → u.phase.verdict = some v →
    v.path = .v1Fresh → v.job = some job → u.phase.Current job
  credited : ∀ n u, stageOf n h.log = some u → u.phase.credited = true →
    ∃ path hash job ntime l, Moment n h.log (.did n ⟨.countAccepted path hash job ntime, ()⟩ :: l)
  timely : NoLateCredit h.log
  stored : StoredCredited h.log

section Phases

variable {env : Env} {s : Session} {task : Task} {q : Phase} {c : Call} {x : Answer c}

theorem tip_of_next {tip : Str} (h : (Phase.next c q x).tip = some tip) :
    q.tip = some tip ∨ c = .currentPrevhash ∧ HEq x tip := by
  cases c with
  | currentPrevhash => exact .inr ⟨rfl, heq_of_eq (Option.some.inj h)⟩
  | _ => exact .inl h

theorem clock_of_next {now : UInt32} (h : (Phase.next c q x).clock = some now) :
    q.clock = some now ∨ c = .nowUnix ∧ HEq x now := by
  cases c with
  | nowUnix => exact .inr ⟨rfl, heq_of_eq (Option.some.inj h)⟩
  | _ => exact .inl h

theorem credited_of_next (h : (Phase.next c q x).credited = true) :
    q.credited = true ∨ ∃ path hash job ntime, c = .countAccepted path hash job ntime := by
  cases c with
  | countAccepted path hash job ntime => exact .inr ⟨path, hash, job, ntime, rfl⟩
  | _ => exact .inl h

/-- A V1 share that is not stale is scored against the tip that was read, which
is not read again. -/
theorem current_of_next (allowed : q.Allows env s task c)
    (hq : ∀ v job, q.verdict = some v → v.path = .v1Fresh → v.job = some job → q.Current job)
    {v : Verdict} {job : MiningJob} (hv : (Phase.next c q x).verdict = some v)
    (hpath : v.path = .v1Fresh) (hjob : v.job = some job) : (Phase.next c q x).Current job := by
  cases c with
  | scored path hash job' meets =>
    obtain rfl : _ = v := Option.some.inj hv
    obtain rfl : path = .v1Fresh := hpath
    obtain ⟨sh, _, _, hcurrent, _, _, hsame, _⟩ := allowed.2
    obtain rfl : job = sh.job := Option.some.inj (hjob.symm.trans hsame)
    exact hcurrent
  | currentPrevhash =>
    have hnone : q.verdict = none := allowed
    rw [show q.verdict = some v from hv] at hnone
    cases hnone
  | _ => exact hq v job hv hpath hjob

end Phases

section Steps

variable {env : Env} {h h' : History} {e : Entry}

theorem noLateCredit_cons {l : List Entry} (hl : NoLateCredit l)
    (he : ∀ n path hash job ntime, e = credit n path hash job ntime → Timely n l job ntime) :
    NoLateCredit (e :: l) := by
  intro n path hash job ntime l' hsuffix
  rcases List.suffix_cons_iff.mp hsuffix with heq | hsuffix
  · obtain ⟨rfl, rfl⟩ := List.cons.inj heq
    exact he n path hash job ntime rfl
  · exact hl n path hash job ntime l' hsuffix

theorem storedCredited_cons {l : List Entry} (hl : StoredCredited l)
    (he : ∀ n rec x, e = .did n ⟨.enqueueShare rec, x⟩ → ∃ path hash job ntime l',
      Moment n l (.did n ⟨.countAccepted path hash job ntime, ()⟩ :: l')) :
    StoredCredited (e :: l) := by
  intro n rec x l' hsuffix
  rcases List.suffix_cons_iff.mp hsuffix with heq | hsuffix
  · obtain ⟨rfl, rfl⟩ := List.cons.inj heq
    exact he n rec x rfl
  · exact hl n rec x l' hsuffix

/-- An entry that leaves the sessions where they are, or at the start of a task. -/
theorem Inv.quiet (inv : Inv h) (hlog : h'.log = e :: h.log)
    (htip : h'.strat.lastPrevhash = tipAt h'.log) (hclock : h'.now = clockAt h'.log)
    (hstages : ∀ n u, stageOf n h'.log = some u →
      stageOf n h.log = some u ∧ edge n e = false ∨ u.phase = {})
    (hcredit : ∀ n path hash job ntime, e ≠ credit n path hash job ntime)
    (hstore : ∀ n rec x, e ≠ .did n ⟨.enqueueShare rec, x⟩) : Inv h' where
  tip := htip
  clock := hclock
  read := by
    intro n u tip hu ht
    rcases hstages n u hu with ⟨hold, hedge⟩ | hnew
    · obtain ⟨l, hl, hlt⟩ := inv.read n u tip hold ht
      exact ⟨l, hlog ▸ .later hedge hl, hlt⟩
    · rw [hnew] at ht
      cases ht
  looked := by
    intro n u now hu ht
    rcases hstages n u hu with ⟨hold, hedge⟩ | hnew
    · obtain ⟨l, hl, hlt⟩ := inv.looked n u now hold ht
      exact ⟨l, hlog ▸ .later hedge hl, hlt⟩
    · rw [hnew] at ht
      cases ht
  current := by
    intro n u v job hu hv hpath hjob
    rcases hstages n u hu with ⟨hold, _⟩ | hnew
    · exact inv.current n u v job hold hv hpath hjob
    · rw [hnew] at hv
      cases hv
  credited := by
    intro n u hu hc
    rcases hstages n u hu with ⟨hold, hedge⟩ | hnew
    · obtain ⟨path, hash, job, ntime, l, hl⟩ := inv.credited n u hold hc
      exact ⟨path, hash, job, ntime, l, hlog ▸ .later hedge hl⟩
    · rw [hnew] at hc
      cases hc
  timely := hlog ▸ noLateCredit_cons inv.timely fun n path hash job ntime he =>
    absurd he (hcredit n path hash job ntime)
  stored := hlog ▸ storedCredited_cons inv.stored fun n rec x he => absurd he (hstore n rec x)

/-- A call that a session makes. -/
theorem Inv.did {n : Nat} {u : Stage} {c : Call} {x : Answer c} {strat : StratState}
    (inv : Inv h) (stage : stageOf n h.log = some u)
    (allowed : u.phase.Allows (u.start.env env) u.start.session u.start.task c)
    (answer : StratStep c h.strat x strat) (gives : h.Gives c x) (hok : InTime h (.did n ⟨c, x⟩)) :
    Inv (h.add strat (.did n ⟨c, x⟩)) := by
  have later {m : Nat} {l : List Entry} (hl : Moment m h.log l) :
      Moment m (.did n ⟨c, x⟩ :: h.log) l := .later rfl hl
  refine ⟨?_, inv.clock, ?_, ?_, ?_, ?_, ?_, ?_⟩
  · have hsame : strat.lastPrevhash = h.strat.lastPrevhash := by
      cases c with
      | swapPrevhash p => exact allowed.elim
      | latestJob | findJob | findJobU32 | currentPrevhash | registerShare | newJobId =>
        rw [answer.2]
      | _ => rw [show strat = _ from answer]
    exact hsame.trans inv.tip
  · intro m t tip ht htip
    rcases stage_of_did ht with ⟨rfl, u', hu', rfl⟩ | ⟨_, ht⟩
    · obtain rfl : u = u' := Option.some.inj (stage.symm.trans hu')
      rcases tip_of_next htip with hold | ⟨rfl, hx⟩
      · obtain ⟨l, hl, hlt⟩ := inv.read n u tip stage hold
        exact ⟨l, later hl, hlt⟩
      · obtain rfl := eq_of_heq hx
        exact ⟨h.log, later .now, inv.tip.symm.trans answer.1.symm⟩
    · obtain ⟨l, hl, hlt⟩ := inv.read m t tip ht htip
      exact ⟨l, later hl, hlt⟩
  · intro m t now ht hnow
    rcases stage_of_did ht with ⟨rfl, u', hu', rfl⟩ | ⟨_, ht⟩
    · obtain rfl : u = u' := Option.some.inj (stage.symm.trans hu')
      rcases clock_of_next hnow with hold | ⟨rfl, hx⟩
      · obtain ⟨l, hl, hlt⟩ := inv.looked n u now stage hold
        exact ⟨l, later hl, hlt⟩
      · obtain rfl := eq_of_heq hx
        have hgives : x = h.now := gives
        exact ⟨h.log, later .now, inv.clock.symm.trans hgives.symm⟩
    · obtain ⟨l, hl, hlt⟩ := inv.looked m t now ht hnow
      exact ⟨l, later hl, hlt⟩
  · intro m t v job ht hv hpath hjob
    rcases stage_of_did ht with ⟨rfl, u', hu', rfl⟩ | ⟨_, ht⟩
    · obtain rfl : u = u' := Option.some.inj (stage.symm.trans hu')
      exact current_of_next allowed (fun v job => inv.current n u v job stage) hv hpath hjob
    · exact inv.current m t v job ht hv hpath hjob
  · intro m t ht hc
    rcases stage_of_did ht with ⟨rfl, u', hu', rfl⟩ | ⟨_, ht⟩
    · obtain rfl : u = u' := Option.some.inj (stage.symm.trans hu')
      rcases credited_of_next hc with hold | ⟨path, hash, job, ntime, rfl⟩
      · obtain ⟨path, hash, job, ntime, l, hl⟩ := inv.credited n u stage hold
        exact ⟨path, hash, job, ntime, l, later hl⟩
      · exact ⟨path, hash, job, ntime, h.log, .now⟩
    · obtain ⟨path, hash, job, ntime, l, hl⟩ := inv.credited m t ht hc
      exact ⟨path, hash, job, ntime, l, later hl⟩
  · refine noLateCredit_cons inv.timely fun m path hash job ntime he => ?_
    cases he
    obtain ⟨v, hv, hpath, _, hjob, _, hstale, hlow, _, htime, _⟩ := allowed
    have hlooked (hne : path ≠ .v2Standard) :
        ∃ l, Moment n h.log l ∧ validNtime ntime job.mintime (clockAt l) = true := by
      obtain ⟨j, now, hj, hnow, hvalid⟩ := htime hne
      obtain rfl := Option.some.inj hj
      obtain ⟨l, hl, hclock⟩ := inv.looked n u now stage hnow
      exact ⟨l, hl, hclock ▸ hvalid⟩
    have hv2 (hpath : path.isV2 = true) : Timely n h.log job ntime := by
      obtain ⟨htip, hstandard⟩ := hok hpath
      refine ⟨⟨h.log, .now, inv.tip ▸ htip⟩, ?_⟩
      by_cases hp : path = .v2Standard
      · exact ⟨h.log, .now, inv.clock ▸ hstandard hp⟩
      · exact hlooked hp
    cases path with
    | v1Stale => exact absurd rfl hstale
    | v1LowDiff => exact absurd rfl hlow
    | v1Fresh =>
      obtain ⟨tip, htip, hcurrent⟩ := inv.current n u v job stage hv hpath hjob
      obtain ⟨l, hl, hlt⟩ := inv.read n u tip stage htip
      refine ⟨⟨l, hl, ?_⟩, hlooked nofun⟩
      rwa [hlt]
    | v2Standard => exact hv2 rfl
    | v2Extended => exact hv2 rfl
  · refine storedCredited_cons inv.stored fun m rec y he => ?_
    cases he
    obtain ⟨v, _, _, _, hcredited, _⟩ := allowed
    exact inv.credited n u stage hcredited

theorem Inv.step (inv : Inv h) (hok : InTime h e) (hs : Happens env h e h') : Inv h' := by
  cases hs with
  | @began n start idle =>
    refine inv.quiet rfl inv.tip inv.clock (fun m u hu => ?_) (fun _ _ _ _ _ he => by cases he)
      fun _ _ _ he => by cases he
    have hu : stageOf m (.began n start :: h.log) = some u := hu
    rw [stageOf_began] at hu
    split at hu
    · cases hu
      exact .inr rfl
    · rename_i hne
      exact .inl ⟨hu, beq_eq_false_iff_ne.mpr hne⟩
  | @ended n u stage settled =>
    refine inv.quiet rfl inv.tip inv.clock (fun m t ht => ?_) (fun _ _ _ _ _ he => by cases he)
      fun _ _ _ he => by cases he
    have ht : stageOf m (.ended n :: h.log) = some t := ht
    rw [stageOf_ended] at ht
    split at ht
    · cases ht
    · rename_i hne
      exact .inl ⟨ht, beq_eq_false_iff_ne.mpr hne⟩
  | @fed c x strat allowed answer =>
    refine inv.quiet rfl ?_ ?_ (fun m u hu => .inl ⟨hu, rfl⟩)
      (fun _ _ _ _ _ he => by cases he) fun _ _ _ he => by cases he
    · cases c with
      | swapPrevhash p =>
        show strat.lastPrevhash = p
        rw [answer.2]
      | newJobId =>
        show strat.lastPrevhash = tipAt h.log
        rw [answer.2, inv.tip]
      | clearShares | resetBestShare | pushJob | callbacks =>
        show strat.lastPrevhash = tipAt h.log
        rw [show strat = _ from answer, ← inv.tip]
      | _ => exact allowed.elim
    · exact inv.clock
  | ticked =>
    exact inv.quiet rfl inv.tip rfl (fun m u hu => .inl ⟨hu, rfl⟩)
      (fun _ _ _ _ _ he => by cases he) fun _ _ _ he => by cases he
  | did stage allowed answer gives => exact inv.did stage allowed answer gives hok

end Steps

/-! ## Runs -/

/-- No Stratum V2 share is credited. -/
def creditsV1 (_ : History) : Entry → Bool
  | .did _ ⟨.countAccepted path .., _⟩ => !path.isV2
  | _ => true

theorem inTime_of_creditsV1 {h : History} {e : Entry} (hc : creditsV1 h e = true) : InTime h e := by
  unfold InTime
  split
  · intro hv2
    rw [show creditsV1 h _ = !_ from rfl, hv2] at hc
    cases hc
  · trivial

/-- The tips at the moments of a submission. -/
def tips (n : Nat) : List Entry → List Str
  | [] => [tipAt []]
  | e :: l => tipAt (e :: l) :: if edge n e then [] else tips n l

theorem tip_mem_tips {n : Nat} {l l' : List Entry} (h : Moment n l l') : tipAt l' ∈ tips n l := by
  induction h with
  | @now l => cases l <;> exact List.mem_cons_self
  | later inside h ih =>
    unfold tips
    rw [inside]
    exact List.mem_cons_of_mem _ ih

/-- A share was credited whose job was of another block at all moments. -/
def lateCredit : List Entry → Bool
  | [] => false
  | e :: l => lateCredit l || match e with
    | .did n ⟨.countAccepted _ _ (some job) _, _⟩ =>
      (tips n l).all fun tip => tip ≠ [] && job.previousblockhash ≠ tip
    | _ => false

theorem not_noLateCredit {l : List Entry} (h : lateCredit l = true) : ¬ NoLateCredit l := by
  intro hno
  induction l with
  | nil => cases h
  | cons e l ih =>
    unfold lateCredit at h
    rcases Bool.or_eq_true_iff.mp h with h | h
    · exact ih h fun n path hash job ntime l' hl =>
        hno n path hash job ntime l' (hl.trans (List.suffix_cons e l))
    · split at h
      · rename_i n path hash job ntime x _
        obtain ⟨l', hmoment, htip⟩ := (hno n path hash job ntime l (List.suffix_refl _)).tip
        have hall := List.all_eq_true.mp h _ (tip_mem_tips hmoment)
        simp only [Bool.and_eq_true, decide_eq_true_eq] at hall
        rcases htip with htip | htip
        · exact hall.1 htip
        · exact hall.2 htip
      · cases h

/-- A share on a standard channel comes after the next block. -/
def channelComesLate : List (Play.Replies × PoolPlay.Move) :=
  [(usual, .connect 0 "0a0b0c0d".toList true), (usual, .message 0 (.setupConnection 0)),
    (usual, .message 0 (.openStandardMiningChannel
      { requestId := 1, userIdentity := "miner.1".toList })),
    (usual, .work (sampleTemplate 'a' 'b') firstId), (usual, .notify 0),
    (usual, .work (sampleTemplate 'c' 'b') "0200000000000000".toList),
    (usual, .message 0 (.submitSharesStandard firstShareV2))]

end MkPool.Acceptance
