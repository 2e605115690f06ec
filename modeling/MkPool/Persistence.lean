import MkPool.WorkerRun
import Mathlib.Logic.Function.Iterate
import Mathlib.Tactic.Push

/-! # What the database worker writes

A flush of a batch that is too large loses it, and a stop leaves behind what
came after the last drain. -/
namespace MkPool.Persistence
open MkPool.Lib.Outbox MkPool.Utils MkPool.DbWorker MkPool.Flushes MkPool.WorkerRun

section Steps

variable {cfg : Config} {server : Server} {w : Worker} {o : Ledger Record}

/-! ## Runs without losses -/

/-- What a run may rely on: records are acceptable on their own, and after a
stop the database stays reachable. -/
def Granted (server : Server) (w : Worker) : Input → Prop
  | .enqueue r => server.acceptable r = true
  | .stop => ∀ batch, w.phase = .flushing batch → w.connected = true
  | .turn reachable => w.running = false → reachable = true
  | .start => True

/-- No batch that goes out is too large, and the worker is told to stop while it
is about to drain the queues, or with nothing in them. -/
def Spared (w : Worker) : Input → Prop
  | .turn reachable => w.connected = true → reachable = true → Fits (inFlight w)
  | .stop => w.running = true →
      w.phase = .connecting ∨ w.phase = .waiting ∨ w.queues.isEmpty = true
  | _ => True

/-- A batch is lost exactly when it is sent and one of its statements fails. -/
theorem lose_iff {i : Input} (hacc : allOf server.acceptable (inFlight w) = true) :
    Move.lose ∈ movesOf cfg server w i ↔ ∃ reachable, i = .turn reachable ∧ ¬ Spared w i := by
  constructor
  · intro h
    cases i with
    | enqueue r =>
      simp only [movesOf] at h
      split at h <;> simp at h
    | turn reachable =>
      refine ⟨reachable, rfl, fun hspared => ?_⟩
      simp only [movesOf] at h
      unfold Spared inFlight at hspared
      unfold inFlight at hacc
      cases hp : w.phase with
      | flushing batch =>
        rw [hp] at h hacc hspared
        dsimp only at h hacc hspared
        rcases flushed_cases cfg server w reachable batch with
          ⟨_, hf⟩ | ⟨_, _, hf⟩ | ⟨hc, hbad, hf⟩
        · rw [hf] at h
          simp at h
        · rw [hf] at h
          simp at h
        · rw [Bool.and_eq_true] at hc
          exact hbad ⟨hspared hc.1 hc.2, hacc⟩
      | _ =>
        rw [hp] at h
        simp at h
    | _ => simp [movesOf] at h
  · rintro ⟨reachable, rfl, hnot⟩
    unfold Spared at hnot
    push Not at hnot
    obtain ⟨hconn, hreach, hbig⟩ := hnot
    simp only [movesOf]
    unfold inFlight at hbig
    cases hp : w.phase with
    | flushing batch =>
      rw [hp] at hbig
      dsimp only at hbig ⊢
      have hlost : flushed cfg server w reachable batch = .error .other := by
        unfold flushed
        rw [hconn, hreach, Bool.and_true, if_pos rfl, flush_eq, if_neg fun h => hbig h.1]
      rw [hlost]
      exact List.mem_singleton.mpr rfl
    | _ =>
      rw [hp] at hbig
      exact absurd (by decide) hbig

/-- What is promised of the records accepted before the last stop. They are
written when the thread is gone, and on the way there while it winds down. -/
def Owing (w : Worker) (o : Ledger Record) (owed : List Record) : Prop :=
  w.running = false →
    match w.phase with
    | .off | .starting | .top => owed <+: o.done
    | .flushing _ => w.connected = true ∧ owed <+: o.done ++ o.inFlight
    | .connecting | .waiting => True

/-- What holds in a run without losses. -/
structure Kept (server : Server) (w : Worker) (o : Ledger Record) (owed : List Record) : Prop where
  mirrors : Mirrors w o
  conserved : o.Conserved
  acceptable : ∀ r ∈ o.accepted, server.acceptable r = true
  live : w.running = true → w.phase ≠ .off
  linked : w.phase = .waiting → w.connected = true
  asked : owed <+: o.accepted
  owing : Owing w o owed

variable {owed : List Record}

theorem kept_new : Kept server {} {} [] where
  mirrors := mirrors_new
  conserved := conserved_new
  acceptable := by simp
  live := by simp
  linked := by simp
  asked := List.nil_prefix
  owing := fun _ => List.nil_prefix

theorem Kept.mem_accepted (h : Kept server w o owed) {r : Record}
    (hr : r ∈ o.inFlight ∨ r ∈ o.waiting) : r ∈ o.accepted := by
  have hc : o.done ++ (o.inFlight ++ o.waiting) = o.accepted := h.conserved
  rw [← hc]
  simp [hr]

theorem Kept.flying_acceptable (h : Kept server w o owed) :
    allOf server.acceptable (inFlight w) = true := by
  rw [h.mirrors.flying]
  exact allOf_split fun r hr => h.acceptable r (h.mem_accepted (.inl hr))

theorem Kept.waiting_acceptable (h : Kept server w o owed) :
    allOf server.acceptable w.queues = true := by
  rw [h.mirrors.waiting]
  exact allOf_split fun r hr => h.acceptable r (h.mem_accepted (.inr hr))

/-- Outside a flush all that is not done waits. -/
theorem Kept.accepted_eq (h : Kept server w o owed) (hf : inFlight w = {}) :
    o.accepted = o.done ++ o.waiting := by
  have hnone : o.inFlight = [] := nil_of_split (h.mirrors.flying.symm.trans hf)
  have hc : o.done ++ (o.inFlight ++ o.waiting) = o.accepted := h.conserved
  rw [← hc, hnone, List.nil_append]

/-- With nothing queued all is done or under way. -/
theorem Kept.accepted_of_empty (h : Kept server w o owed) (he : w.queues.isEmpty = true) :
    o.accepted = o.done ++ o.inFlight := by
  have hnone : o.waiting = [] := nil_of_split (h.mirrors.waiting.symm.trans (isEmpty_iff.mp he))
  have hc : o.done ++ (o.inFlight ++ o.waiting) = o.accepted := h.conserved
  rw [← hc, hnone, List.append_nil]

theorem Kept.start (h : Kept server w o owed) : Kept server (start w) o owed := by
  have hm : Mirrors (DbWorker.start w) o := h.mirrors.step {} server .start
  unfold DbWorker.start at hm ⊢
  by_cases hr : w.running = true
  · rw [if_pos hr] at hm ⊢
    exact h
  · rw [if_neg hr] at hm ⊢
    cases hp : w.phase with
    | off =>
      rw [hp] at hm
      exact ⟨hm, h.conserved, h.acceptable, by simp, by simp, h.asked, fun hrun => by simp at hrun⟩
    | _ => exact h

theorem Kept.stop (h : Kept server w o owed) (hgranted : Granted server w .stop)
    (hspared : Spared w .stop) :
    Kept server (stop w) o (if w.running then o.accepted else owed) := by
  have hm : Mirrors (DbWorker.stop w) o := h.mirrors.step {} server .stop
  by_cases hr : w.running = true
  · rw [if_pos hr]
    refine ⟨hm, h.conserved, h.acceptable, by simp [DbWorker.stop], h.linked,
      List.prefix_refl _, fun _ => ?_⟩
    have hdrains := hspared hr
    show match w.phase with
      | .off | .starting | .top => o.accepted <+: o.done
      | .flushing _ => w.connected = true ∧ o.accepted <+: o.done ++ o.inFlight
      | .connecting | .waiting => True
    cases hp : w.phase with
    | off => exact absurd hp (h.live hr)
    | flushing batch =>
      rw [hp] at hdrains
      have he : w.queues.isEmpty = true := by simpa using hdrains
      have hall := h.accepted_of_empty he
      exact ⟨hgranted batch hp, hall ▸ List.prefix_refl _⟩
    | connecting => trivial
    | waiting => trivial
    | _ =>
      rw [hp] at hdrains
      have he : w.queues.isEmpty = true := by simpa using hdrains
      have hidle : inFlight w = {} := by
        unfold inFlight
        rw [hp]
      have hnone : o.inFlight = [] := nil_of_split (h.mirrors.flying.symm.trans hidle)
      dsimp only
      rw [h.accepted_of_empty he, hnone, List.append_nil]
  · rw [if_neg hr]
    refine ⟨hm, h.conserved, h.acceptable, by simp [DbWorker.stop], h.linked, h.asked, fun _ => ?_⟩
    exact h.owing (by simpa using hr)

theorem Kept.enqueue (h : Kept server w o owed) {r : Record} (hr : server.acceptable r = true) :
    Kept server (DbWorker.enqueue cfg w r).1 (o.moves (movesOf cfg server w (.enqueue r))) owed := by
  have hm : Mirrors (DbWorker.enqueue cfg w r).1 (o.moves (movesOf cfg server w (.enqueue r))) :=
    h.mirrors.step cfg server (.enqueue r)
  by_cases hfull : cfg.maxQueue ≤ w.queues.count r
  · simp only [movesOf, enqueue_false hfull, Bool.false_eq_true, if_false] at hm ⊢
    exact h
  · simp only [movesOf, enqueue_true hfull, if_true, Ledger.moves_one] at hm ⊢
    refine ⟨hm, h.conserved.move (by simp), ?_, h.live, h.linked,
      h.asked.trans (List.prefix_append _ _), h.owing⟩
    intro t ht
    rcases List.mem_append.mp ht with ht | ht
    · exact h.acceptable t ht
    · rw [List.mem_singleton.mp ht]
      exact hr

/-- **A turn of the thread keeps what is promised**, when its batch fits. -/
theorem Kept.turn (h : Kept server w o owed) {reachable : Bool}
    (hgranted : Granted server w (.turn reachable)) (hspared : Spared w (.turn reachable)) :
    Kept server (turn cfg server w reachable) (o.moves (movesOf cfg server w (.turn reachable)))
      owed := by
  have hm : Mirrors (DbWorker.turn cfg server w reachable)
      (o.moves (movesOf cfg server w (.turn reachable))) := h.mirrors.step cfg server (.turn reachable)
  have howing := h.owing
  unfold Owing at howing
  unfold DbWorker.turn movesOf at hm ⊢
  unfold Spared inFlight at hspared
  cases hp : w.phase with
  | off =>
    rw [hp] at hm
    exact h
  | starting =>
    rw [hp] at hm howing
    exact ⟨hm, h.conserved, h.acceptable, by simp, by simp, h.asked, howing⟩
  | top =>
    rw [hp] at hm howing
    refine ⟨hm, h.conserved, h.acceptable, ?_, ?_, h.asked, fun hr => ?_⟩
    · intro hr
      simp [show w.running = true from hr]
    · intro hw
      dsimp only at hw
      split at hw <;> cases hw
    · have hstop : w.running = false := hr
      simp only [hstop, Bool.false_eq_true, if_false]
      exact howing hstop
  | connecting =>
    rw [hp] at hm
    dsimp only at hm ⊢
    by_cases hc : (w.connected || reachable) = true
    · rw [if_pos hc] at hm ⊢
      exact ⟨hm, h.conserved, h.acceptable, by simp, by simp, h.asked, fun _ => trivial⟩
    · rw [if_neg hc] at hm ⊢
      refine ⟨hm, h.conserved, h.acceptable, by simp, by simp, h.asked, fun hr => ?_⟩
      exact absurd (by rw [hgranted hr, Bool.or_true]) hc
  | waiting =>
    rw [hp] at hm
    dsimp only at hm ⊢
    refine ⟨hm, h.conserved.move (m := .take) (by simp), h.acceptable, ?_, ?_, h.asked,
      fun hr => ?_⟩
    · intro _
      dsimp only
      split <;> simp
    · intro hw
      dsimp only at hw
      split at hw <;> cases hw
    · have hall : o.accepted = o.done ++ o.waiting := h.accepted_eq (by unfold inFlight; rw [hp])
      have hnone : o.inFlight = [] :=
        nil_of_split (h.mirrors.flying.symm.trans (by unfold inFlight; rw [hp]))
      by_cases he : w.queues.isEmpty = true
      · simp only [he, if_true]
        have hdone := h.accepted_of_empty he
        rw [hnone, List.append_nil] at hdone
        exact hdone ▸ h.asked
      · simp only [he, if_false, Bool.false_eq_true]
        refine ⟨by rw [h.linked hp, hgranted hr]; rfl, ?_⟩
        show owed <+: o.done ++ (o.inFlight ++ o.waiting)
        rw [hnone, List.nil_append, ← hall]
        exact h.asked
  | flushing batch =>
    have hacc := h.flying_acceptable
    unfold inFlight at hacc
    rw [hp] at hm howing hspared hacc
    dsimp only at hm hspared hacc ⊢
    rcases flushed_cases cfg server w reachable batch with
      ⟨hc, hf⟩ | ⟨hc, _, hf⟩ | ⟨hc, hbad, _⟩
    · rw [hf] at hm ⊢
      refine ⟨hm, h.conserved.move (m := .giveBack) (by simp), h.acceptable, by simp, by simp,
        h.asked, fun hr => ?_⟩
      have hlink := (howing hr).1
      rw [hlink, hgranted hr] at hc
      cases hc
    · rw [hf] at hm ⊢
      exact ⟨hm, h.conserved.move (m := .settle) (by simp), h.acceptable, by simp, by simp,
        h.asked, fun hr => (howing hr).2⟩
    · rw [Bool.and_eq_true] at hc
      exact absurd ⟨hspared hc.1 hc.2, hacc⟩ hbad

/-- **Every step keeps what is promised.** -/
theorem Kept.step {i : Input} (h : Kept server w o owed) (hgranted : Granted server w i)
    (hspared : Spared w i) :
    Kept server (react cfg server w i) (o.moves (movesOf cfg server w i))
      (owedAfter w o owed i) := by
  cases i with
  | start => exact h.start
  | stop => exact h.stop hgranted hspared
  | enqueue r => exact h.enqueue hgranted
  | turn reachable => exact h.turn hgranted hspared

theorem kept_of_run (h : Run cfg server (fun w _ i => Granted server w i ∧ Spared w i) w o owed) :
    Kept server w o owed := by
  induction h with
  | init => exact kept_new
  | step _ hok ih => exact ih.step hok.1 hok.2

/-- Where everything accepted is. -/
theorem Kept.all_there (h : Kept server w o owed) :
    w.db.written ++ (inFlight w ++ w.queues) = split o.accepted := by
  have hc : o.done ++ (o.inFlight ++ o.waiting) = o.accepted := h.conserved
  rw [h.mirrors.written, h.mirrors.flying, h.mirrors.waiting, ← split_append, ← split_append, hc]

end Steps

/-! ## Turns with the database reachable -/

section Turns

variable {cfg : Config} {server : Server} {w : Worker} {target : Records}

/-- Nothing is queued or under way, and these are written. -/
structure Clear (w : Worker) (target : Records) : Prop where
  queues : w.queues = {}
  flying : inFlight w = {}
  written : w.db.written = target

/-- The thread's next `n` stretches with the database reachable. -/
def turns (cfg : Config) (server : Server) (n : Nat) : Worker → Worker :=
  (fun w => turn cfg server w true)^[n]

theorem Clear.turn (h : Clear w target) : Clear (turn cfg server w true) target := by
  obtain ⟨hq, hf, hw⟩ := h
  unfold inFlight at hf
  unfold DbWorker.turn
  cases hp : w.phase with
  | off =>
    refine ⟨hq, ?_, hw⟩
    unfold inFlight
    rw [hp]
  | starting => exact ⟨hq, rfl, hw⟩
  | top =>
    refine ⟨hq, ?_, hw⟩
    cases hr : w.running with
    | true => rfl
    | false => rfl
  | connecting =>
    rw [Bool.or_true, if_pos rfl]
    exact ⟨hq, rfl, hw⟩
  | waiting =>
    rw [hq]
    exact ⟨rfl, rfl, hw⟩
  | flushing batch =>
    rw [hp] at hf
    obtain rfl : batch = {} := hf
    dsimp only
    rcases flushed_cases cfg server w true {} with
      ⟨_, hf⟩ | ⟨_, _, hf⟩ | ⟨_, hbad, _⟩
    · rw [hf]
      exact ⟨by simp [hq], rfl, hw⟩
    · rw [hf]
      refine ⟨hq, rfl, ?_⟩
      show (committed cfg server w.db {}).written = target
      rw [written_committed, append_empty, hw]
    · exact absurd ⟨by decide, rfl⟩ hbad

theorem Clear.later {n : Nat} (m : Nat) (h : Clear (turns cfg server n w) target) :
    Clear (turns cfg server (m + n) w) target := by
  unfold turns at h ⊢
  rw [Function.iterate_add_apply]
  induction m with
  | zero => exact h
  | succ m ih =>
    rw [Function.iterate_succ_apply']
    exact ih.turn

variable (hfits : Fits w.queues) (hacc : allOf server.acceptable w.queues = true)

include hfits hacc

theorem clear_of_waiting (hp : w.phase = .waiting) (hc : w.connected = true) :
    Clear (turns cfg server 2 w) (w.db.written ++ w.queues) := by
  show Clear (turn cfg server (turn cfg server w true) true) _
  by_cases he : w.queues.isEmpty = true
  · refine Clear.turn ?_
    unfold turn
    rw [hp, he, isEmpty_iff.mp he, append_empty]
    exact ⟨rfl, rfl, rfl⟩
  · have hdrain : turn cfg server w true =
        { w with queues := {}, connected := true, phase := .flushing w.queues } := by
      unfold turn
      rw [hp]
      simp [he, hc]
    have hflush : flushed cfg server (turn cfg server w true) true w.queues =
        .ok (committed cfg server w.db w.queues) := by
      rw [hdrain, flushed, Bool.and_true, if_pos rfl, flush_eq, if_pos ⟨hfits, hacc⟩]
    rw [hdrain] at hflush ⊢
    unfold turn
    dsimp only
    rw [hflush]
    exact ⟨rfl, rfl, written_committed⟩

theorem clear_of_connecting (hp : w.phase = .connecting) :
    Clear (turns cfg server 3 w) (w.db.written ++ w.queues) := by
  have hnext : turn cfg server w true = { w with connected := true, phase := .waiting } := by
    unfold turn
    rw [hp]
    simp
  show Clear (turns cfg server 2 (turn cfg server w true)) _
  rw [hnext]
  exact clear_of_waiting (w := { w with connected := true, phase := .waiting }) hfits hacc rfl rfl

theorem clear_of_top (hp : w.phase = .top) (hr : w.running = true) :
    Clear (turns cfg server 4 w) (w.db.written ++ w.queues) := by
  have hnext : turn cfg server w true = { w with phase := .connecting } := by
    unfold turn
    rewrite [hp, hr]
    rfl
  show Clear (turns cfg server 3 (turn cfg server w true)) _
  rw [hnext]
  exact clear_of_connecting (w := { w with phase := .connecting }) hfits hacc rfl

theorem clear_of_starting (hp : w.phase = .starting) (hr : w.running = true) :
    Clear (turns cfg server 5 w) (w.db.written ++ w.queues) := by
  have hnext : turn cfg server w true = { w with connected := true, phase := .top } := by
    unfold turn
    rw [hp]
  show Clear (turns cfg server 4 (turn cfg server w true)) _
  rw [hnext]
  exact clear_of_top (w := { w with connected := true, phase := .top }) hfits hacc rfl hr

omit hfits hacc

theorem turn_flushing {batch : Records} (hp : w.phase = .flushing batch) :
    turn cfg server w true = match flushed cfg server w true batch with
      | .ok db => { w with db, phase := .top }
      | .error .brokenConnection =>
        { w with queues := batch ++ w.queues, connected := false, phase := .top }
      | .error .other => { w with phase := .top } := by
  unfold turn
  rewrite [hp]
  rfl

theorem clear_of_flushing {batch : Records} (hp : w.phase = .flushing batch)
    (hr : w.running = true) (hfits : Fits (batch ++ w.queues))
    (hacc : allOf server.acceptable (batch ++ w.queues) = true) :
    Clear (turns cfg server 5 w) (w.db.written ++ (batch ++ w.queues)) := by
  show Clear (turns cfg server 4 (turn cfg server w true)) _
  have hparts : allOf server.acceptable batch = true ∧ allOf server.acceptable w.queues = true := by
    rwa [allOf_append, Bool.and_eq_true] at hacc
  have hsize : 9 * (batch.shares.length + w.queues.shares.length) ≤ maxParams := by
    simpa [Fits] using hfits
  have hbatch : Fits batch := by
    unfold Fits
    omega
  have hqueues : Fits w.queues := by
    unfold Fits
    omega
  have hnext := @turn_flushing cfg server w batch hp
  rcases flushed_cases cfg server w true batch with
    ⟨_, hf⟩ | ⟨_, _, hf⟩ | ⟨_, hbad, _⟩
  · rw [hnext, hf]
    exact clear_of_top (w := { w with queues := batch ++ w.queues, connected := false,
                                      phase := .top }) hfits hacc rfl hr
  · rw [hnext, hf]
    have hclear : Clear (turns cfg server 4 _) (_ ++ _) :=
      clear_of_top (w := { w with db := committed cfg server w.db batch, phase := .top })
        hqueues hparts.2 rfl hr
    rwa [written_committed, append_assoc] at hclear
  · exact absurd ⟨hbatch, hparts.1⟩ hbad

/-- **A running worker soon has everything written**, when it fits into one
statement and the database is reachable. -/
theorem Kept.written_soon {o : Ledger Record} {owed : List Record} (h : Kept server w o owed)
    (hr : w.running = true) (hfits : Fits (inFlight w ++ w.queues)) :
    (turns cfg server 5 w).db.written = split o.accepted := by
  have hacc : allOf server.acceptable (inFlight w ++ w.queues) = true := by
    rw [allOf_append, h.flying_acceptable, h.waiting_acceptable]
    rfl
  rw [← h.all_there]
  unfold inFlight at hfits hacc ⊢
  cases hp : w.phase with
  | off => exact absurd hp (h.live hr)
  | flushing batch =>
    rw [hp] at hfits hacc
    exact (clear_of_flushing hp hr hfits hacc).written
  | starting =>
    rw [hp, empty_append] at hfits hacc
    exact (clear_of_starting hfits hacc hp hr).written
  | top =>
    rw [hp, empty_append] at hfits hacc
    exact ((clear_of_top hfits hacc hp hr).later 1).written
  | connecting =>
    rw [hp, empty_append] at hfits hacc
    exact ((clear_of_connecting hfits hacc hp).later 2).written
  | waiting =>
    rw [hp, empty_append] at hfits hacc
    exact ((clear_of_waiting hfits hacc hp (h.linked hp)).later 3).written

end Turns

/-! ## What becomes of accepted records -/

/-- Every accepted record is written, in the worker's hands or queued, once and
in its place among those of its kind; those accepted before a stop are written
when the thread ends; and a running worker that reaches the database writes
them all. -/
structure Lossless (cfg : Config) (server : Server) (w : Worker) (o : Ledger Record)
    (owed : List Record) : Prop where
  kept : w.db.written ++ (inFlight w ++ w.queues) = split o.accepted
  stopped : w.phase = .off → ∃ later, w.db.written = split owed ++ later
  soon : w.running = true → Fits (inFlight w ++ w.queues) →
    (turns cfg server 5 w).db.written = split o.accepted

section Results

variable {cfg : Config} {server : Server} {w : Worker} {o : Ledger Record} {owed : List Record}

/-- **Nothing accepted is lost** in a run whose batches fit and whose stops find
the queues about to be drained or empty. -/
theorem records_written_once
    (h : Run cfg server (fun w _ i => Granted server w i ∧ Spared w i) w o owed) :
    Lossless cfg server w o owed := by
  have hk := kept_of_run h
  refine ⟨hk.all_there, fun hp => ?_, hk.written_soon⟩
  have hstopped : w.running = false := by
    by_contra hr
    exact hk.live (by simpa using hr) hp
  have howed := hk.owing hstopped
  rw [hp] at howed
  obtain ⟨later, hlater⟩ := howed
  exact ⟨split later, by rw [hk.mirrors.written, ← hlater, split_append]⟩

/-- A server that takes every record. -/
def easyServer : Server where
  acceptable _ := true
  netDifficulty _ := 0
  finderEffort _ _ _ := 0

def sampleShare : ShareRecord where
  minerId := 1
  jobId := []
  nonce := []
  extranonce1 := []
  extranonce2 := []
  shareHash := []
  difficulty := 5
  blockFound := false
  accepted := true

/-- The way to the first wait. -/
theorem run_waiting (ok : Worker → Ledger Record → Input → Prop)
    (hok : ∀ w, ok w {} .start ∧ (inFlight w = {} → ok w {} (.turn true))) :
    Run {} easyServer ok { running := true, connected := true, phase := .waiting } {} [] :=
  (((Run.init.step (hok _).1).step ((hok _).2 rfl)).step ((hok _).2 rfl)).step ((hok _).2 rfl)

theorem records_written_once_stop :
    ∃ w o owed, Run {} easyServer (fun w _ i => Granted easyServer w i ∧ Spared w i) w o owed ∧
      owed = [.share sampleShare] ∧ w.phase = .off ∧ Lossless {} easyServer w o owed := by
  have hwait := run_waiting (fun w _ i => Granted easyServer w i ∧ Spared w i) fun w =>
    ⟨⟨trivial, trivial⟩, fun hf => ⟨fun _ => rfl, fun _ _ => by rw [hf]; decide⟩⟩
  have hrun := ((((hwait.step (i := .enqueue (.share sampleShare)) ⟨rfl, trivial⟩).step
    (i := .stop) ⟨(fun _ h => by cases h), fun _ => .inr (.inl rfl)⟩).step
    (i := .turn true) ⟨fun _ => rfl, fun _ _ => by decide⟩).step
    (i := .turn true) ⟨fun _ => rfl, fun _ _ => by decide⟩).step
    (i := .turn true) ⟨fun _ => rfl, fun _ _ => by decide⟩
  exact ⟨_, _, _, hrun, rfl, rfl, records_written_once hrun⟩

theorem shares_split_replicate (n : Nat) (s : ShareRecord) :
    (split (List.replicate n (.share s))).shares = List.replicate n s := by
  induction n with
  | zero => rfl
  | succ n ih =>
    rw [List.replicate_succ, ← List.singleton_append, split_append, shares_append, ih]
    rfl

/-- A flush, and the way back to the wait. -/
theorem run_flush {ok : Worker → Ledger Record → Input → Prop} (h : Run cfg server ok w o owed)
    (hp : w.phase = .waiting) (hr : w.running = true) (hc : w.connected = true)
    (hfly : o.inFlight = []) (hsome : w.queues.isEmpty = false)
    (hsent : Fits w.queues ∧ allOf server.acceptable w.queues = true)
    (hok : ∀ w o, o.inFlight = [] → ok w o (.turn true))
    (hflush : ok { w with queues := {}, phase := .flushing w.queues } (o.move .take) (.turn true)) :
    Run cfg server ok { w with queues := {}, db := committed cfg server w.db w.queues }
      ((o.move .take).move .settle) owed := by
  have hdrained := h.step (hok w o hfly)
  simp only [react, turn, movesOf, owedAfter, hp, hsome, Bool.false_eq_true, if_false, hc,
    Bool.and_true, Ledger.moves_one] at hdrained
  rw [hc] at hflush
  have hsettled := hdrained.step hflush
  simp only [react, turn, movesOf, owedAfter, flushed, Bool.and_true, if_true, flush_eq,
    if_pos hsent, Ledger.moves_one] at hsettled
  have htop := hsettled.step (hok _ _ rfl)
  simp only [react, turn, movesOf, owedAfter, hr, if_true, Ledger.moves_nil] at htop
  have hwait := htop.step (hok _ _ rfl)
  simp only [react, turn, movesOf, owedAfter, Bool.true_or, if_true, Ledger.moves_nil] at hwait
  rw [hp, hr, hc]
  exact hwait

/-- A backlog of shares while the worker waits. -/
theorem run_backlog {ok : Worker → Ledger Record → Input → Prop} {s : ShareRecord}
    (h : Run cfg server ok w o owed) (hok : ∀ w o, ok w o (.enqueue (.share s))) (n : Nat)
    (hroom : w.queues.shares.length + n ≤ cfg.maxQueue) :
    ∃ o', Run cfg server ok { w with queues := w.queues ++ { shares := List.replicate n s } } o'
        owed ∧
      o'.accepted = o.accepted ++ List.replicate n (.share s) := by
  induction n with
  | zero => exact ⟨o, by simpa using h, by simp⟩
  | succ n ih =>
    obtain ⟨o', hrun, ho'⟩ := ih (by omega)
    have hstep := hrun.step (hok _ _)
    have hfree : ¬ cfg.maxQueue ≤ (w.queues ++ { shares := List.replicate n s }).count (.share s) := by
      simp only [Records.count, shares_append, List.length_append, List.length_replicate]
      omega
    have hpush : (w.queues ++ { shares := List.replicate n s }).push (.share s) =
        w.queues ++ { shares := List.replicate (n + 1) s } := by
      rw [push_eq, append_assoc]
      congr 1
      ext1 <;> simp [split, shareOf, presenceOf, bestShareOf, hashrateOf, blockOf,
        List.replicate_succ']
    simp only [react, movesOf, owedAfter, enqueue, if_neg hfree, if_true, hpush] at hstep
    exact ⟨_, hstep, by simp [Ledger.move, ho', List.replicate_succ']⟩

theorem accepted_turn (reachable : Bool) :
    (o.moves (movesOf cfg server w (.turn reachable))).accepted = o.accepted := by
  simp only [movesOf]
  cases w.phase with
  | flushing batch =>
    rcases hf : flushed cfg server w reachable batch with e | db
    · cases e <;> simp only [hf] <;> rfl
    · simp only [hf]
      rfl
  | _ => rfl

/-- **A backlog too large for one statement is lost** once the database is back. -/
theorem backlog_lost (n : Nat) (hlarge : maxParams < 9 * n) (hroom : n ≤ 2 ^ 16) :
    ∃ w o, Run {} easyServer (fun w _ i => Granted easyServer w i) w o [] ∧
      o.accepted = List.replicate n (.share sampleShare) ∧ inFlight w = {} ∧ w.queues = {} ∧
      w.db.written = {} := by
  have hwait := run_waiting (fun w _ i => Granted easyServer w i) fun _ =>
    ⟨trivial, fun _ _ => rfl⟩
  obtain ⟨o, hrun, ho⟩ := run_backlog (s := sampleShare) hwait (fun _ _ => rfl) n (by simpa using hroom)
  have hsome : ({ shares := List.replicate n sampleShare } : Records).isEmpty = false := by
    cases n with
    | zero => exact absurd hlarge (by decide)
    | succ n => rfl
  have hdrained := hrun.step (i := .turn true) (fun _ => rfl)
  have hlost := hdrained.step (i := .turn true) (fun _ => rfl)
  have hbig : ¬ (Fits { shares := List.replicate n sampleShare } ∧
      allOf easyServer.acceptable { shares := List.replicate n sampleShare } = true) := by
    unfold Fits
    simp only [List.length_replicate]
    omega
  refine ⟨_, _, hlost, ?_, ?_⟩
  · rw [accepted_turn, accepted_turn, ho]
    rfl
  · simp only [react, turn, empty_append, hsome, Bool.false_eq_true, if_false, flushed,
      Bool.and_self, if_true, flush_eq, if_neg hbig]
    exact ⟨rfl, trivial, trivial⟩

/-- A share that came while the last flush was over is left behind by a stop. -/
theorem late_share_lost :
    ∃ w o owed, Run {} easyServer (fun w _ i => Granted easyServer w i) w o owed ∧
      owed = [.share sampleShare] ∧ w.phase = .off ∧ w.db.written = {} := by
  have htop : Run {} easyServer (fun w _ i => Granted easyServer w i) _ _ _ :=
    (Run.init.step (i := .start) trivial).step (i := .turn true) fun _ => rfl
  have hgone := ((htop.step (i := .enqueue (.share sampleShare)) rfl).step (i := .stop)
    (fun _ h => by cases h)).step (i := .turn true) fun _ => rfl
  exact ⟨_, _, _, hgone, rfl, rfl, rfl⟩

/-- An outage's backlog of 7282 shares is lost, as is a share that comes just
before a stop. -/
theorem backlog_and_late_share_lost :
    (∃ w o owed, Run {} easyServer (fun w _ i => Granted easyServer w i) w o owed ∧
      o.accepted.length = 7282 ∧ ¬ Lossless {} easyServer w o owed) ∧
    ∃ w o owed, Run {} easyServer (fun w _ i => Granted easyServer w i) w o owed ∧
      owed.length = 1 ∧ ¬ Lossless {} easyServer w o owed := by
  constructor
  · obtain ⟨w, o, hrun, ho, hfly, hqueues, hwritten⟩ := backlog_lost 7282 (by decide) (by decide)
    refine ⟨w, o, [], hrun, by rw [ho, List.length_replicate], fun h => ?_⟩
    have hkept := h.kept
    rw [hfly, hqueues, hwritten, ho] at hkept
    have hshares : [] = (split (List.replicate 7282 (.share sampleShare))).shares :=
      congrArg Records.shares hkept
    rw [shares_split_replicate] at hshares
    have hlen := congrArg List.length hshares
    rw [List.length_nil, List.length_replicate] at hlen
    omega
  · obtain ⟨w, o, owed, hrun, howed, hoff, hwritten⟩ := late_share_lost
    refine ⟨w, o, owed, hrun, by rw [howed]; rfl, fun h => ?_⟩
    obtain ⟨later, hlater⟩ := h.stopped hoff
    rw [hwritten, howed] at hlater
    cases congrArg (fun r => r.shares) hlater

end Results

end MkPool.Persistence
