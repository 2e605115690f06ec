import MkPool.Tasks

/-! # What a request other than a submit asks for

A request that is no `mining.submit` writes lines, reads the clock, the latest
job and the blacklist, and has an address checked. It asks for nothing else. -/
namespace MkPool.Requests
open MkPool.Lib.Interaction MkPool.Utils MkPool.Job MkPool.Coinbase MkPool.Calls
open MkPool.ClientSession MkPool.JsonValue MkPool.Stratum MkPool.Submit MkPool.Tasks

/-- A call that stores nothing outside the session. -/
def Small : Call → Prop
  | .latestJob | .steadyNow | .blacklist .. | .validateAddress _ | .send _ => True
  | _ => False

section Rules

variable {env : Env} {s : Session} {msg : Json}

theorem small_emitJob {job : MiningJob} {forceClean : Bool} :
    (emitJob env s job forceClean).All Small := by
  unfold emitJob
  split
  · split
    · trivial
    · exact all_last trivial
    · exact all_last trivial
  · exact all_last trivial

theorem small_emitLatest {forceClean : Bool} : (emitLatest env s forceClean).All Small := by
  refine ⟨trivial, fun x => ?_⟩
  cases x with
  | none => trivial
  | some job => exact small_emitJob

theorem small_sendSetDifficulty {d : ℚ} {old : Option ℚ} :
    (sendSetDifficulty env s d old).All Small := by
  refine ⟨trivial, fun now => ⟨trivial, fun _ => ?_⟩⟩
  refine (all_whenDo (Prog.all_perform trivial)).bind fun _ => ?_
  split
  · exact small_emitLatest
  · trivial

theorem small_handleConfigure : (handleConfigure env s msg).All Small := all_last trivial

theorem small_handleSubscribe : (handleSubscribe env s msg).All Small := by
  unfold handleSubscribe
  dsimp only
  split
  · exact all_last trivial
  · refine ⟨trivial, fun _ => all_thenDo small_sendSetDifficulty fun t => ?_⟩
    exact (all_whenDo (Prog.all_perform trivial)).bind fun _ => trivial

theorem small_handleSuggestDifficulty : (handleSuggestDifficulty env s msg).All Small := by
  unfold handleSuggestDifficulty
  refine all_thenDo ?_ fun t => all_last trivial
  split
  · exact small_sendSetDifficulty
  · trivial

theorem small_handleAuthorize : (handleAuthorize env s msg).All Small := by
  unfold handleAuthorize
  dsimp only
  split
  · split
    · exact all_last trivial
    · split
      · exact all_last trivial
      · refine ⟨trivial, fun bl => ?_⟩
        show Prog.All Small (ite _ _ _)
        split
        · exact all_last trivial
        · split
          · exact all_last trivial
          · split
            · exact all_last trivial
            · exact all_last trivial
  · exact all_last trivial

theorem dispatch_submit :
    dispatch env s "mining.submit".toList msg = handleSubmit env s msg := rfl

/-- Every method but `mining.submit`. -/
theorem small_dispatch {method : Str} (h : method ≠ "mining.submit".toList) :
    (dispatch env s method msg).All Small := by
  unfold dispatch
  rw [if_neg h]
  split
  · exact small_handleConfigure
  · split
    · exact small_handleSubscribe
    · split
      · exact small_handleAuthorize
      · split
        · exact small_handleSuggestDifficulty
        · split
          · exact ⟨trivial, fun _ => small_emitLatest⟩
          · exact all_last trivial

end Rules

/-- The line calls `mining.submit`. -/
def Submits (line : Option Json) : Prop :=
  line.bind (fun msg => (msg.find? "method".toList).bind Json.getString?)
    = some "mining.submit".toList

/-- **A line that is no submit.** Whatever it says, it stores nothing outside
the session. -/
theorem small_processLine {env : Env} {s : Session} {line : Option Json} (h : ¬ Submits line) :
    (processLine env s line).All Small := by
  unfold processLine
  split
  · exact all_last trivial
  · rename_i msg
    split
    · exact all_last trivial
    · rename_i method hmethod
      have hne : method ≠ "mining.submit".toList := by
        rintro rfl
        exact h hmethod
      refine Prog.All.bind (small_dispatch hne) fun o => ?_
      cases o with
      | done t => trivial
      | threw t => exact all_last trivial

end MkPool.Requests
