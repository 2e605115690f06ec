import MkPool.Flushes
import MkPool.Lib.Outbox

/-! # The database worker as an outbox

The five queues are one outbox, seen kind by kind. -/
namespace MkPool.WorkerRun
open MkPool.Lib.Outbox MkPool.Utils MkPool.DbWorker MkPool.Flushes

/-- The batch in the worker's hands. -/
def inFlight (w : Worker) : Records :=
  match w.phase with
  | .flushing batch => batch
  | _ => {}

/-- What a step does to the records: which is accepted, and how a batch fares. -/
def movesOf (cfg : Config) (server : Server) (w : Worker) : Input → List (Move Record)
  | .enqueue r => if (enqueue cfg w r).2 then [.accept r] else []
  | .turn reachable =>
    match w.phase with
    | .waiting => [.take]
    | .flushing batch =>
      match flushed cfg server w reachable batch with
      | .ok _ => [.settle]
      | .error .brokenConnection => [.giveBack]
      | .error .other => [.lose]
    | _ => []
  | _ => []

/-- What was accepted before the worker was last told to stop. -/
def owedAfter (w : Worker) (o : Ledger Record) (owed : List Record) : Input → List Record
  | .stop => if w.running then o.accepted else owed
  | _ => owed

/-- The runs all of whose steps meet a condition: the worker, its records as an
outbox, and what was accepted before it was last told to stop. -/
inductive Run (cfg : Config) (server : Server) (ok : Worker → Ledger Record → Input → Prop) :
    Worker → Ledger Record → List Record → Prop where
  | init : Run cfg server ok {} {} []
  | step {w : Worker} {o : Ledger Record} {owed : List Record} {i : Input}
    (h : Run cfg server ok w o owed) (hok : ok w o i) :
    Run cfg server ok (react cfg server w i) (o.moves (movesOf cfg server w i))
      (owedAfter w o owed i)

/-- The outbox seen kind by kind is what the worker has. -/
structure Mirrors (w : Worker) (o : Ledger Record) : Prop where
  waiting : w.queues = split o.waiting
  flying : inFlight w = split o.inFlight
  written : w.db.written = split o.done

section Steps

variable {cfg : Config} {server : Server} {w : Worker} {o : Ledger Record}

theorem enqueue_false {r : Record} (h : cfg.maxQueue ≤ w.queues.count r) :
    enqueue cfg w r = (w, false) := if_pos h

theorem enqueue_true {r : Record} (h : ¬ cfg.maxQueue ≤ w.queues.count r) :
    enqueue cfg w r = ({ w with queues := w.queues.push r }, true) := if_neg h

/-- What becomes of a batch. -/
theorem flushed_cases (cfg : Config) (server : Server) (w : Worker) (reachable : Bool)
    (batch : Records) :
    ((w.connected && reachable) = false ∧
      flushed cfg server w reachable batch = .error .brokenConnection) ∨
    ((w.connected && reachable) = true ∧ (Fits batch ∧ allOf server.acceptable batch = true) ∧
      flushed cfg server w reachable batch = .ok (committed cfg server w.db batch)) ∨
    ((w.connected && reachable) = true ∧ ¬ (Fits batch ∧ allOf server.acceptable batch = true) ∧
      flushed cfg server w reachable batch = .error .other) := by
  unfold flushed
  cases hc : w.connected && reachable with
  | false => exact .inl ⟨rfl, rfl⟩
  | true =>
    rw [if_pos rfl, flush_eq]
    by_cases hok : Fits batch ∧ allOf server.acceptable batch = true
    · exact .inr (.inl ⟨rfl, hok, if_pos hok⟩)
    · exact .inr (.inr ⟨rfl, hok, if_neg hok⟩)

theorem mirrors_new : Mirrors {} {} := ⟨rfl, rfl, rfl⟩

/-- **The worker's steps are moves of the outbox.** -/
theorem Mirrors.step (cfg : Config) (server : Server) (h : Mirrors w o) (i : Input) :
    Mirrors (react cfg server w i) (o.moves (movesOf cfg server w i)) := by
  obtain ⟨hwait, hfly, hdone⟩ := h
  cases i with
  | start =>
    show Mirrors (start w) o
    unfold DbWorker.start
    by_cases hr : w.running = true
    · rw [if_pos hr]
      exact ⟨hwait, hfly, hdone⟩
    · rw [if_neg hr]
      unfold inFlight at hfly
      cases hp : w.phase with
      | off =>
        rw [hp] at hfly
        exact ⟨hwait, hfly, hdone⟩
      | _ =>
        refine ⟨hwait, ?_, hdone⟩
        unfold inFlight
        exact hfly
  | stop => exact ⟨hwait, hfly, hdone⟩
  | enqueue r =>
    by_cases hfull : cfg.maxQueue ≤ w.queues.count r
    · simp only [react, movesOf, enqueue_false hfull, Bool.false_eq_true, if_false]
      exact ⟨hwait, hfly, hdone⟩
    · simp only [react, movesOf, enqueue_true hfull, if_true, Ledger.moves_one, Ledger.move]
      refine ⟨?_, hfly, hdone⟩
      rw [split_append, ← hwait]
      exact push_eq r
  | turn reachable =>
    show Mirrors (turn cfg server w reachable) _
    unfold turn movesOf
    unfold inFlight at hfly
    cases hp : w.phase with
    | flushing batch =>
      rw [hp] at hfly
      dsimp only at hfly ⊢
      rcases flushed_cases cfg server w reachable batch with
        ⟨_, hf⟩ | ⟨_, _, hf⟩ | ⟨_, _, hf⟩
      · rw [hf]
        refine ⟨?_, rfl, hdone⟩
        rw [Ledger.moves_one, Ledger.move, split_append, ← hfly, ← hwait]
      · rw [hf]
        refine ⟨hwait, rfl, ?_⟩
        rw [Ledger.moves_one, Ledger.move, split_append, ← hfly, ← hdone]
        exact written_committed
      · rw [hf]
        exact ⟨hwait, rfl, hdone⟩
    | waiting =>
      rw [hp] at hfly
      dsimp only at hfly ⊢
      have hnone : o.inFlight = [] := nil_of_split hfly.symm
      refine ⟨rfl, ?_, hdone⟩
      rw [Ledger.moves_one, Ledger.move, hnone, List.nil_append, ← hwait]
      by_cases he : w.queues.isEmpty = true
      · rw [isEmpty_iff.mp he]
        rfl
      · simp only [inFlight, he, if_false, Bool.false_eq_true]
    | connecting =>
      rw [hp] at hfly
      dsimp only
      split
      · exact ⟨hwait, hfly, hdone⟩
      · exact ⟨hwait, hfly, hdone⟩
    | top =>
      rw [hp] at hfly
      cases hr : w.running with
      | true => exact ⟨hwait, hfly, hdone⟩
      | false => exact ⟨hwait, hfly, hdone⟩
    | off =>
      refine ⟨hwait, ?_, hdone⟩
      unfold inFlight
      exact hfly
    | starting =>
      rw [hp] at hfly
      exact ⟨hwait, hfly, hdone⟩

theorem mirrors_of_run {ok : Worker → Ledger Record → Input → Prop} {owed : List Record}
    (h : Run cfg server ok w o owed) : Mirrors w o := by
  induction h with
  | init => exact mirrors_new
  | step _ _ ih => exact ih.step cfg server _

end Steps

end MkPool.WorkerRun
