import MkPool.Effects
import MkPool.Play

/-! # The difficulty a V1 session advertises, and the one it enforces

A miner goes by the last `mining.set_difficulty`. A share is held to the
controller's difficulty, less a tolerance. A share that meets the first is
never found too easy, as long as every difficulty goes out together with a
controller it covers. A suggested difficulty goes out alone. -/
namespace MkPool.AdvertisedDifficulty
open MkPool.Lib.Interaction MkPool.Utils MkPool.Config MkPool.Job MkPool.Coinbase
open MkPool.Calls MkPool.ClientSession MkPool.JsonValue MkPool.Vardiff MkPool.Tasks
open MkPool.Desk MkPool.Effects MkPool.Submit MkPool.Play

/-- The difficulty an event advertises. -/
def advertIn : Event → Option Int
  | ⟨.send (.setDifficulty d), _⟩ => some d
  | _ => none

/-- The last difficulty advertised in a log. -/
def lastAdvertised (log : List Event) : Option Int := log.findSome? advertIn

/-- Every share that was found too easy is below the last difficulty that was
advertised before it. -/
def Enforced (env : Env) (log : List Event) : Prop :=
  ∀ later hash job meets earlier,
    log = later ++ (⟨.scored .v1LowDiff hash job meets, ()⟩ : Event) :: earlier →
    ∀ d, lastAdvertised earlier = some d → difficultyOf env.coin.chain hash < d

theorem Enforced.cons {env : Env} {log : List Event} {e : Event} (h : Enforced env log)
    (he : ∀ hash job meets, e = ⟨.scored .v1LowDiff hash job meets, ()⟩ →
      ∀ d, lastAdvertised log = some d → difficultyOf env.coin.chain hash < d) :
    Enforced env (e :: log) := by
  intro later hash job meets earlier heq
  cases later with
  | nil =>
    obtain ⟨rfl, rfl⟩ := List.cons.inj heq
    exact he hash job meets rfl
  | cons e' later =>
    obtain ⟨_, rfl⟩ := List.cons.inj heq
    exact h later hash job meets earlier rfl

theorem lastAdvertised_cons {e : Event} {log : List Event} (h : advertIn e = none) :
    lastAdvertised (e :: log) = lastAdvertised log := by
  simp [lastAdvertised, h]

/-! ## The condition -/

/-- The difficulty advertised is at least what the controller's difficulty
still lets pass. -/
def Covers (env : Env) (v : VarDiff) (advertised : ℚ) : Prop :=
  v.current * tolerance env ≤ llround advertised

/-- **The steps that advertise what they enforce.** -/
def Honest (env : Env) (d : DeskState) : Input → Prop
  | .task t readings =>
    ∀ v advertised old, Advert ⟨env, d.session, readings, t⟩ v advertised old →
      Covers env v advertised
  | .notify | .work .. | .others .. => True

/-- From 50 on, rounding loses less than the tolerance gives. -/
theorem covers_of_fifty_le {env : Env} {v : VarDiff} (h : 50 ≤ v.current) :
    Covers env v v.current := by
  have hround : v.current - 1 / 2 ≤ llround v.current := by
    unfold llround
    rw [if_pos (by linarith)]
    have hfloor := Int.lt_floor_add_one (v.current + 1 / 2)
    linarith
  have htol : tolerance env ≤ 99 / 100 := by
    unfold tolerance
    split <;> norm_num
  have hmul : v.current * tolerance env ≤ v.current * (99 / 100) :=
    mul_le_mul_of_nonneg_left htol (by linarith)
  unfold Covers
  linarith

/-! ## The invariant -/

/-- The last advertised difficulty covers the controller, and did so for every
share that was found too easy. -/
structure Inv (env : Env) (d : DeskState) : Prop where
  covered : ∀ a, lastAdvertised d.world.log = some a →
    d.session.vardiff.current * tolerance env ≤ a
  enforced : Enforced env d.world.log

section Steps

variable {env : Env} {s t : Session} {w w' : World}

/-- Where the difficulty stays and the event is of no interest, all stays. -/
theorem Inv.call {c : Call} {x : Answer c} (h : Inv env ⟨s, w⟩) (hs : DeskCall c w x w')
    (hv : t.vardiff.current = s.vardiff.current) (hadvert : ∀ d, c ≠ .send (.setDifficulty d))
    (hscored : ∀ hash job meets, c ≠ .scored .v1LowDiff hash job meets) : Inv env ⟨t, w'⟩ := by
  have hnone : advertIn ⟨c, x⟩ = none := by
    unfold advertIn
    split
    · rename_i d _ he
      exact absurd (Sigma.mk.inj he).1 (hadvert d)
    · rfl
  refine ⟨?_, ?_⟩
  · rw [hs.log, lastAdvertised_cons hnone, hv]
    exact h.covered
  · rw [hs.log]
    refine h.enforced.cons fun hash job meets he => ?_
    exact absurd (Sigma.mk.inj he).1 (hscored hash job meets)

theorem Inv.keep (h : Inv env ⟨s, w⟩) (hlog : w'.log = w.log)
    (hv : t.vardiff.current = s.vardiff.current) : Inv env ⟨t, w'⟩ := by
  refine ⟨?_, ?_⟩
  · rw [hlog, hv]
    exact h.covered
  · rw [hlog]
    exact h.enforced

/-- A difficulty that covers the controller is advertised. -/
theorem Inv.advertise {d : ℚ} (h : Inv env ⟨s, w⟩) (hc : Covers env t.vardiff d)
    (hs : DeskCall (.send (.setDifficulty (llround d))) w () w') : Inv env ⟨t, w'⟩ := by
  refine ⟨?_, ?_⟩
  · intro a ha
    rw [hs.log] at ha
    cases ha
    exact hc
  · rw [hs.log]
    refine h.enforced.cons fun hash job meets he => ?_
    cases he

/-- A share is found too easy: the last advertised difficulty is above it. -/
theorem Inv.tooEasy {sh : Share} (h : Inv env ⟨s, w⟩)
    (low : sh.diff env < s.vardiff.current * tolerance env)
    (hs : DeskCall (.scored .v1LowDiff sh.hash (some sh.job) sh.meetsNetwork) w () w') :
    Inv env ⟨s, w'⟩ := by
  refine ⟨?_, ?_⟩
  · rw [hs.log, lastAdvertised_cons rfl]
    exact h.covered
  · rw [hs.log]
    refine h.enforced.cons fun hash job meets he a ha => ?_
    obtain ⟨_, rfl, _⟩ := Call.scored.inj (Sigma.mk.inj he).1
    exact lt_of_lt_of_le low (h.covered a ha)

theorem Inv.effect {T : Turn} {a b : DeskState} (h : Inv T.env a)
    (hok : ∀ v d old, Advert T v d old → Covers T.env v d) (he : Effect T a b) :
    Inv T.env b := by
  cases he with
  | quiet hc hs =>
    refine h.call hs rfl ?_ ?_
    · rintro d rfl
      exact hc
    · rintro hash job meets rfl
      exact hc
  | tidy hcore =>
    have hv := congrArg Session.vardiff hcore
    exact h.keep rfl (congrArg VarDiff.current hv)
  | emit _ _ hs => exact h.call hs rfl (by simp) (by simp)
  | advertise why _ hs => exact h.advertise (hok _ _ _ why) hs
  | @observe s _ now target net v _ hv =>
    have hcur := s.vardiff.onShare_current T.env.exp now target net
    rw [hv] at hcur
    exact h.keep rfl hcur
  | tooEasy low hs => exact h.tooEasy low hs
  | auxBlock _ _ hs => exact h.call hs rfl (by simp) (by simp)
  | payout | doge => exact h.keep rfl rfl

theorem Inv.effects {T : Turn} {a b : DeskState} (h : Inv T.env a)
    (hok : ∀ v d old, Advert T v d old → Covers T.env v d) (he : EffectRun T a b) :
    Inv T.env b := by
  induction he with
  | refl => exact h
  | tail _ he ih => exact ih.effect hok he

theorem Inv.notify {job : MiningJob} {o : Outcome} (hv : s.isV2 = false) (h : Inv env ⟨s, w⟩)
    (run : desk.Exec (notifyNewJob env s job) w o w') : Inv env ⟨o.session, w'⟩ := by
  rcases notify_cases hv run with ⟨ho, rfl⟩ | ⟨aux, _, _, _, _, ho, hs⟩ | ⟨_, run⟩
  · rw [ho]
    exact h
  · rw [ho]
    exact h.call hs rfl (by simp) (by simp)
  · obtain ⟨hcore, hw⟩ := emitJob_line run
    have hd := congrArg Session.vardiff hcore
    rcases hw with rfl | ⟨line, hline, hs⟩
    · exact h.keep rfl (congrArg VarDiff.current hd)
    · exact h.call hs (congrArg VarDiff.current hd) (by simpa using hline) (by simp)

theorem Inv.publish {width32 : Bool} {job : MiningJob} (h : Inv env ⟨s, w⟩) :
    Inv env ⟨s, w.published width32 job⟩ := by
  refine ⟨?_, ?_⟩
  · intro a ha
    refine h.covered a ?_
    rw [← ha]
    unfold World.published workEvents
    cases job.cleanJobs <;> rfl
  · show Enforced env (workEvents width32 job.cleanJobs job ++ w.log)
    have hplain : ∀ e ∈ workEvents width32 job.cleanJobs job,
        ∀ hash job meets, e ≠ ⟨.scored .v1LowDiff hash job meets, ()⟩ := by
      unfold workEvents
      cases job.cleanJobs <;> simp
    generalize workEvents width32 job.cleanJobs job = events at hplain
    induction events with
    | nil => exact h.enforced
    | cons e events ih =>
      refine (ih fun e' he' => hplain e' (List.mem_cons_of_mem _ he')).cons ?_
      exact fun hash job meets he => absurd he (hplain e List.mem_cons_self hash job meets)

end Steps

/-! ## Runs -/

theorem inv_initial {env : Env} {d : DeskState} (h : Initial env false d) : Inv env d := by
  obtain ⟨_, _, _, rfl⟩ := h
  refine ⟨?_, ?_⟩
  · intro a ha
    cases ha
  · intro later hash job meets earlier heq
    exact absurd heq (by simp)

/-- **The advertised difficulty is enforced.** In every run of honest steps,
no share is found too easy that meets the last advertised difficulty. -/
theorem advertised_is_enforced (env : Env) (d : DeskState) (h : Reach env false (Honest env) d) :
    Enforced env d.world.log := by
  refine (v1_invariant (I := Inv env) ?_ ?_ ?_ ?_ ?_ ?_ h).2.enforced
  · exact fun d => inv_initial
  · exact fun s w nextId h => h.keep rfl rfl
  · intro s w t readings o w' hv offered h hok run
    have h' : Inv env ⟨s, { w with readings }⟩ := h.keep rfl rfl
    exact Inv.effects (T := ⟨env, s, readings, t⟩) h' hok (hv.effects offered run)
  · intro s w job rest o w' hv h _ _ run
    have h' : Inv env ⟨s, { w with posted := rest }⟩ := h.keep rfl rfl
    exact h'.notify hv.v1 run
  · intro s w gbt jobId job h _ _
    have h' : Inv env ⟨s, { w with nextId := jobId }⟩ := h.keep rfl rfl
    exact h'.publish
  · exact fun s w seenShares bestShareRound h => h.keep rfl rfl

/-! ## Two runs -/

def sampleId : Str := "0100000000000000".toList

/-- The moves that bring a miner to its first job, and a share of it later. -/
def shareLater (between : List (Replies × Move)) : List (Replies × Move) :=
  [(usual, .line (request "mining.subscribe" [])),
    (usual, .line (request "mining.authorize" ["miner.1", "x"])),
    (usual, .validated none true),
    (usual, .work (sampleTemplate 'a' 'b') sampleId),
    (usual, .notify)] ++ between ++
  [({ now := 100 }, .line (request "mining.submit"
    ["miner.1", "0100000000000000", "0000000000000000", "00000000", "00000000"]))]

/-- The move advertises nothing but the controller's own difficulty, and that
one is covered. -/
def honestMove (d : DeskState) (_ : Move) : Bool :=
  decide (d.session.vardiff.current * tolerance sampleEnv ≤ llround d.session.vardiff.current) &&
    d.world.log.all fun e => match e with
      | ⟨.validateAddress (.payout req), _⟩ => req.customDiff.isNone
      | ⟨.validateAddress (.doge req), _⟩ => req.customDiff.isNone
      | _ => true

theorem honest_of_honestMove {r : Replies} {d : DeskState} {m : Move} {i : Input}
    (hc : honestMove d m = true) (hi : m.input r d = some i) : Honest sampleEnv d i := by
  obtain ⟨hcur, hlog⟩ := (Bool.and_eq_true _ _).mp hc
  cases i with
  | task t readings =>
    intro v advertised old why
    cases why with
    | current =>
      have hcov : Covers sampleEnv d.session.vardiff d.session.vardiff.current := by
        simpa [Covers] using hcur
      exact hcov
    | suggested _ _ h => simp [Stratum.suggestedDiff, sampleEnv] at h
    | retarget _ _ on => simp [sampleEnv] at on
    | custom auth h =>
      obtain ⟨v', hv', rfl⟩ := validated_of_authorizes auth
      have hoff : (⟨.validateAddress v', ()⟩ : Event) ∈ d.world.log := by
        cases m with
        | line | message =>
          simp only [Move.input] at hi
          split at hi <;> cases hi
        | validated error valid =>
          obtain ⟨_, hasked, he⟩ := Option.map_eq_some_iff.mp hi
          cases he
          exact mem_of_askedIn hasked
        | notify | work => cases hi
      have hnone := List.all_eq_true.mp hlog _ hoff
      rcases hv' with rfl | rfl <;> simp [h] at hnone
  | notify | work | others => trivial

/-- The event marks a share found too easy. -/
def tooEasyIn : Event → Bool
  | ⟨.scored .v1LowDiff _ _ _, _⟩ => true
  | _ => false

/-- A share is found too easy in an honest run, and it is below what was
advertised. -/
theorem advertised_is_enforced_once :
    ∃ d : DeskState, d.world.log.any tooEasyIn = true ∧ Enforced sampleEnv d.world.log := by
  have h : (play sampleEnv honestMove (start sampleEnv false) (shareLater [])).any (fun d =>
      d.world.log.any tooEasyIn) = true := by
    decide +kernel
  obtain ⟨d, hd, hx⟩ := (Option.any_eq_true _ _).mp h
  have hreach := reach_of_play (Honest sampleEnv) (fun _ _ _ _ hc hi =>
    honest_of_honestMove hc hi) reach_start hd
  exact ⟨d, hx, advertised_is_enforced sampleEnv d hreach⟩

/-- The pool with retargeting on, where every share has difficulty 2047 and a
bit. -/
def suggestEnv : Env :=
  { sampleEnv with
    coin := { sampleEnv.coin with activeTier := { vardiffEnabled := true } }
    hashes :=
      { sha256d := fun _ => sampleHash
        scrypt := fun _ => lowHash } }

/-- The miner suggests a difficulty of 1024. -/
def suggestion : List (Replies × Move) :=
  [(usual, .line (.object [field "method" (.string "mining.suggest_difficulty".toList),
    field "params" (.array [.unsigned 1024])]))]

/-- The second call before the last scored a share too easy that meets the last
advertised difficulty. -/
def foundTooEasy (d : DeskState) : Bool :=
  match d.world.log with
  | _ :: _ :: ⟨.scored .v1LowDiff hash _ _, _⟩ :: earlier =>
    (lastAdvertised earlier).any fun (a : Int) =>
      decide ((a : ℚ) ≤ difficultyOf suggestEnv.coin.chain hash)
  | _ => false

/-- **A suggested difficulty is advertised and not enforced.** The share is
above the 1024 that was advertised last, and is found too easy. -/
theorem suggested_not_enforced :
    ∃ (env : Env) (d : DeskState), Reach env false (fun _ _ => True) d ∧ ¬ Enforced env d.world.log := by
  have h : (play suggestEnv anyMove (start suggestEnv false) (shareLater suggestion)).any
      foundTooEasy = true := by
    decide +kernel
  obtain ⟨d, hd, hx⟩ := (Option.any_eq_true _ _).mp h
  refine ⟨suggestEnv, d, reach_of_play _ (fun _ _ _ _ _ _ => trivial) reach_start hd, ?_⟩
  intro enforced
  unfold foundTooEasy at hx
  split at hx
  · rename_i e₁ e₂ hash job meets _ earlier heq
    obtain ⟨a, ha, hle⟩ := (Option.any_eq_true _ _).mp hx
    have hlt := enforced [e₁, e₂] hash job meets earlier heq a ha
    exact absurd (of_decide_eq_true hle) (not_le.mpr hlt)
  · cases hx

end MkPool.AdvertisedDifficulty
