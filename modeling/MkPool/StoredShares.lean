import MkPool.ShareLedger
import MkPool.Persistence

/-! # From the session to the database

The sessions give their rows to the database worker, whose thread takes them
out whenever it comes to it, connected or not. What is stored in the end is what
the sessions were credited for, but for the rows the full queue turned away. -/
namespace MkPool.StoredShares
open MkPool.Lib.Interaction MkPool.Lib.Outbox MkPool.Utils MkPool.Calls MkPool.Job
open MkPool.Config MkPool.Coinbase MkPool.ShareWatch MkPool.ShareLedger MkPool.DbWorker MkPool.Flushes
open MkPool.WorkerRun MkPool.Persistence

/-! ## Both together -/

/-- The record of a row: every session sets the flag. -/
def recordOf (row : Calls.ShareRecord) : DbWorker.ShareRecord := { row with accepted := true }

/-- The row an entry of the log hands over. -/
def rowIn : Pool.Entry → Option Calls.ShareRecord
  | .did _ e => rowOf e
  | _ => none

/-- The rows of a log, the earliest first. -/
def rowsOf (log : List Pool.Entry) : List Calls.ShareRecord := (log.filterMap rowIn).reverse

/-- The pool and its worker, with the records that `shares_dropped_` counts. -/
structure State where
  pool : Pool.PoolState
  worker : Worker := {}
  ledger : Ledger Record := {}
  owed : List Record := []
  dropped : List DbWorker.ShareRecord := []

/-- An input of the worker. -/
def State.input (cfg : DbWorker.Config) (server : Server) (s : State) (i : Input) : State :=
  { s with
    worker := react cfg server s.worker i
    ledger := s.ledger.moves (movesOf cfg server s.worker i)
    owed := owedAfter s.worker s.ledger s.owed i }

/-- `enqueue_share`. -/
def State.enqueueShare (cfg : DbWorker.Config) (server : Server) (s : State)
    (r : DbWorker.ShareRecord) : State :=
  { s.input cfg server (.enqueue (.share r)) with
    dropped := if (enqueue cfg s.worker (.share r)).2 then s.dropped else s.dropped ++ [r] }

/-- Inputs of the worker that do not come from a session's share. -/
def Aside : Input → Prop
  | .enqueue (.share _) => False
  | _ => True

/-- The runs whose worker meets a condition. -/
inductive Run (env : Env) (cfg : DbWorker.Config) (server : Server)
    (ok : Worker → Ledger Record → Input → Prop) : State → Prop where
  | init : Run env cfg server ok { pool := Pool.fresh env }
  | quiet {s : State} {p : Pool.PoolState} (h : Run env cfg server ok s)
      (hs : Pool.Step env s.pool none p) : Run env cfg server ok { s with pool := p }
  | other {s : State} {p : Pool.PoolState} {e : Pool.Entry} (h : Run env cfg server ok s)
      (hs : Pool.Step env s.pool (some e) p) (hrow : rowIn e = none) :
      Run env cfg server ok { s with pool := p }
  | share {s : State} {p : Pool.PoolState} {e : Pool.Entry} {row : Calls.ShareRecord}
      (h : Run env cfg server ok s) (hs : Pool.Step env s.pool (some e) p)
      (hrow : rowIn e = some row)
      (hok : ok s.worker s.ledger (.enqueue (.share (recordOf row)))) :
      Run env cfg server ok { s.enqueueShare cfg server (recordOf row) with pool := p }
  | worker {s : State} {i : Input} (h : Run env cfg server ok s) (haside : Aside i)
      (hok : ok s.worker s.ledger i) : Run env cfg server ok (s.input cfg server i)

/-- A run in which no batch is lost. -/
abbrev Calm (env : Env) (cfg : DbWorker.Config) (server : Server) : State → Prop :=
  Run env cfg server fun w _ i => Granted server w i ∧ Spared w i

section Parts

variable {env : Env} {cfg : DbWorker.Config} {server : Server}
  {ok : Worker → Ledger Record → Input → Prop} {s : State}

/-- The pool's part of a run. -/
theorem Run.pool (h : Run env cfg server ok s) : Pool.Reach env (fun _ _ => True) s.pool := by
  induction h with
  | init => exact .fresh
  | quiet _ hs ih => exact .quiet ih hs
  | other _ hs _ ih => exact .step ih trivial hs
  | share _ hs _ _ ih => exact .step ih trivial hs
  | worker _ _ _ ih => exact ih

/-- The worker's part of a run. -/
theorem Run.ofWorker (h : Run env cfg server ok s) :
    WorkerRun.Run cfg server ok s.worker s.ledger s.owed := by
  induction h with
  | init => exact .init
  | quiet _ _ ih => exact ih
  | other _ _ _ ih => exact ih
  | share _ _ _ hok ih => exact ih.step hok
  | worker _ _ hok ih => exact ih.step hok

/-! ## Rows and records -/

theorem log_quiet {p p' : Pool.PoolState} (hs : Pool.Step env p none p') : p'.log = p.log := by
  cases hs <;> rfl

theorem log_entry {p p' : Pool.PoolState} {e : Pool.Entry} (hs : Pool.Step env p (some e) p') :
    p'.log = e :: p.log := by
  cases hs <;> rfl

theorem rowsOf_none {e : Pool.Entry} (he : rowIn e = none) (log : List Pool.Entry) :
    rowsOf (e :: log) = rowsOf log := by
  unfold rowsOf
  rw [List.filterMap_cons_none he]

theorem rowsOf_some {e : Pool.Entry} {row : Calls.ShareRecord} (he : rowIn e = some row)
    (log : List Pool.Entry) : rowsOf (e :: log) = rowsOf log ++ [row] := by
  unfold rowsOf
  rw [List.filterMap_cons_some he, List.reverse_cons]

/-- The records of shares that were accepted. -/
def sharesIn (o : Ledger Record) : List DbWorker.ShareRecord := o.accepted.filterMap shareOf

theorem sharesIn_move (o : Ledger Record) {m : Move Record}
    (hm : ∀ r, m = .accept r → shareOf r = none) : sharesIn (o.move m) = sharesIn o := by
  unfold sharesIn
  cases m with
  | accept r =>
    show (o.accepted ++ [r]).filterMap shareOf = _
    rw [List.filterMap_append, List.filterMap_cons_none (hm r rfl)]
    simp
  | take | settle | giveBack | lose => rfl

/-- Only a share that is queued adds to them. -/
theorem sharesIn_aside (o : Ledger Record) (w : Worker) {i : Input} (hi : Aside i) :
    sharesIn (o.moves (movesOf cfg server w i)) = sharesIn o := by
  cases i with
  | start | stop => rfl
  | enqueue r =>
    simp only [movesOf]
    split
    · rw [Ledger.moves_one]
      refine sharesIn_move o fun r' hr' => ?_
      cases hr'
      cases r <;> first | exact hi.elim | rfl
    · rfl
  | turn reachable =>
    have hone : ∀ m : Move Record, (∀ r, m ≠ .accept r) → sharesIn (o.moves [m]) = sharesIn o :=
      fun m hm => sharesIn_move o fun r hr => (hm r hr).elim
    simp only [movesOf]
    split
    · exact hone _ (by intro r h; cases h)
    · split
      · exact hone _ (by intro r h; cases h)
      · exact hone _ (by intro r h; cases h)
      · exact hone _ (by intro r h; cases h)
    · rfl

/-- The rows that were handed over are those that were accepted, in order, and
those that were dropped. -/
structure Sorted (rows accepted dropped : List DbWorker.ShareRecord) : Prop where
  perm : rows.Perm (accepted ++ dropped)
  order : accepted.Sublist rows

theorem Sorted.accept {rows accepted dropped : List DbWorker.ShareRecord}
    (h : Sorted rows accepted dropped) (r : DbWorker.ShareRecord) :
    Sorted (rows ++ [r]) (accepted ++ [r]) dropped where
  perm := by
    rw [List.append_assoc]
    refine (h.perm.append_right [r]).trans ?_
    rw [List.append_assoc]
    exact List.perm_append_comm.append_left accepted
  order := h.order.append (List.Sublist.refl _)

theorem Sorted.drop {rows accepted dropped : List DbWorker.ShareRecord}
    (h : Sorted rows accepted dropped) (r : DbWorker.ShareRecord) :
    Sorted (rows ++ [r]) accepted (dropped ++ [r]) where
  perm := by
    rw [← List.append_assoc]
    exact h.perm.append_right [r]
  order := h.order.trans (List.sublist_append_left _ _)

theorem Run.sorted (h : Run env cfg server ok s) :
    Sorted ((rowsOf s.pool.log).map recordOf) (sharesIn s.ledger) s.dropped := by
  induction h with
  | init => exact ⟨.nil, .slnil⟩
  | quiet _ hs ih =>
    rw [log_quiet hs]
    exact ih
  | other _ hs hrow ih =>
    rw [log_entry hs, rowsOf_none hrow]
    exact ih
  | @share s p e row _ hs hrow _ ih =>
    rw [log_entry hs, rowsOf_some hrow, List.map_append]
    show Sorted _ (sharesIn (s.ledger.moves (movesOf cfg server s.worker _))) (ite _ _ _)
    simp only [movesOf]
    split
    · rw [Ledger.moves_one]
      show Sorted _ ((s.ledger.accepted ++ [Record.share (recordOf row)]).filterMap shareOf) _
      rw [List.filterMap_append]
      exact ih.accept (recordOf row)
    · exact ih.drop (recordOf row)
  | @worker s i _ haside _ ih =>
    show Sorted _ (sharesIn (s.ledger.moves (movesOf cfg server s.worker i))) _
    rw [sharesIn_aside _ _ haside]
    exact ih

/-- What a session stored is among the rows, in order. -/
theorem rows_of_session (n : Nat) (log : List Pool.Entry) :
    ((log.filterMap (didOf n)).filterMap rowOf).reverse.Sublist (rowsOf log) := by
  refine List.Sublist.reverse ?_
  rw [List.filterMap_filterMap]
  induction log with
  | nil => exact .slnil
  | cons e log ih =>
    rw [List.filterMap_cons]
    cases hd : (didOf n e).bind rowOf with
    | none =>
      refine ih.trans ?_
      rw [List.filterMap_cons]
      split
      · exact .refl _
      · exact List.sublist_cons_self _ _
    | some row =>
      have hrow : rowIn e = some row := by
        obtain ⟨ev, hev, hr⟩ := Option.bind_eq_some_iff.mp hd
        unfold didOf at hev
        split at hev
        · split at hev
          · cases hev
            exact hr
          · cases hev
        · cases hev
      rw [List.filterMap_cons_some hrow]
      exact ih.cons_cons row

/-! ## What becomes of credited shares -/

/-- What is written, under way or queued. -/
def everything (w : Worker) : Records := w.db.written ++ (inFlight w ++ w.queues)

/-- Every row is written, under way or queued, once and in its place, or was
dropped; and a running worker that reaches the database writes them all. -/
structure Accounted (cfg : DbWorker.Config) (server : Server) (s : State) : Prop where
  sorted : Sorted ((rowsOf s.pool.log).map recordOf) (everything s.worker).shares s.dropped
  soon : s.worker.running = true → Fits (inFlight s.worker ++ s.worker.queues) →
    (turns cfg server 5 s.worker).db.written.shares = (everything s.worker).shares

theorem accounted_of_run (h : Calm env cfg server s) : Accounted cfg server s := by
  have hkept := kept_of_run h.ofWorker
  have hall : (everything s.worker).shares = sharesIn s.ledger := by
    unfold everything
    rw [hkept.all_there]
    rfl
  refine ⟨hall ▸ h.sorted, fun hr hfits => ?_⟩
  rw [hkept.written_soon hr hfits, hall]
  rfl

/-- A pool run with a worker that is not started. -/
theorem run_of_reach (hacc : ∀ r, server.acceptable r = true) {p : Pool.PoolState}
    (h : Pool.Reach env (fun _ _ => True) p) : ∃ s, Calm env cfg server s ∧ s.pool = p := by
  induction h with
  | fresh => exact ⟨_, .init, rfl⟩
  | quiet _ hs ih =>
    obtain ⟨s, hrun, rfl⟩ := ih
    exact ⟨_, hrun.quiet hs, rfl⟩
  | @step _ _ e _ _ hs ih =>
    obtain ⟨s, hrun, rfl⟩ := ih
    cases hrow : rowIn e with
    | none => exact ⟨_, hrun.other hs hrow, rfl⟩
    | some row => exact ⟨_, hrun.share hs hrow ⟨hacc _, trivial⟩, rfl⟩

end Parts

end MkPool.StoredShares
