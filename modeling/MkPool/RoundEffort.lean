import MkPool.Persistence
import Mathlib.Tactic.Linarith
import Mathlib.Algebra.Order.BigOperators.Group.List
import Mathlib.Algebra.Order.Ring.Rat

/-! # Round effort in batches

A round is the work accepted between two parent blocks. The worker applies the
shares of a batch before its blocks, so that it agrees with the order of arrival
only when no work follows the first parent block of a batch. -/
namespace MkPool.RoundEffort
open MkPool.Lib.Outbox MkPool.Utils MkPool.DbWorker MkPool.Flushes MkPool.WorkerRun
open MkPool.Persistence

/-! ## Rounds in the order of arrival -/

/-- The work of the open round, the stored block hashes, and the closed rounds. -/
@[ext] structure Rounds where
  work : ℚ := 0
  stored : List Str := []
  efforts : List (Str × ℚ) := []

/-- A parent block of a new hash closes the round. -/
def Rounds.next (cfg : Config) (r : Rounds) : Record → Rounds
  | .share s => if s.accepted then { r with work := r.work + s.difficulty } else r
  | .block b =>
    if b.blockHash ∈ r.stored then r
    else if isAux cfg b then { r with stored := r.stored ++ [b.blockHash] }
    else { work := 0, stored := r.stored ++ [b.blockHash],
           efforts := r.efforts ++ [(b.blockHash, r.work)] }
  | _ => r

def rounds (cfg : Config) (rs : List Record) : Rounds := rs.foldl (Rounds.next cfg) {}

/-- The accepted work among records. -/
def workOf (rs : List Record) : ℚ := (rs.filterMap fun
  | .share s => if s.accepted then some s.difficulty else none
  | _ => none).sum

/-- The work after the last new parent block is the open round. -/
theorem work_of_quiet {cfg : Config} {r : Rounds} {rs : List Record}
    (h : ∀ b, .block b ∈ rs → isAux cfg b = true ∨ b.blockHash ∈ r.stored) :
    (rs.foldl (Rounds.next cfg) r).work = r.work + workOf rs ∧
      (rs.foldl (Rounds.next cfg) r).efforts = r.efforts := by
  induction rs generalizing r with
  | nil => simp [workOf]
  | cons e rest ih =>
    have hrest : ∀ b, .block b ∈ rest → isAux cfg b = true ∨ b.blockHash ∈ r.stored :=
      fun b hb => h b (List.mem_cons_of_mem _ hb)
    rw [List.foldl_cons]
    cases e with
    | share s =>
      by_cases ha : s.accepted = true
      · have := ih (r := { r with work := r.work + s.difficulty }) hrest
        simpa [Rounds.next, ha, workOf, add_assoc] using this
      · simpa [Rounds.next, ha, workOf] using ih hrest
    | block b =>
      by_cases hs : b.blockHash ∈ r.stored
      · simpa [Rounds.next, hs, workOf] using ih hrest
      · have ha : isAux cfg b = true := (h b List.mem_cons_self).resolve_right hs
        have := ih (r := { r with stored := r.stored ++ [b.blockHash] }) fun b' hb' =>
          (hrest b' hb').imp_right (List.mem_append_left _)
        simpa [Rounds.next, hs, ha, workOf] using this
    | presence p => simpa [Rounds.next, workOf] using ih hrest
    | bestShare p => simpa [Rounds.next, workOf] using ih hrest
    | hashrate p => simpa [Rounds.next, workOf] using ih hrest

/-- A new parent block gets the open round's work. -/
theorem rounds_new_block {cfg : Config} {rs : List Record} {b : BlockRecord}
    (hnew : b.blockHash ∉ (rounds cfg rs).stored) (hparent : isAux cfg b = false) :
    (rounds cfg (rs ++ [.block b])).work = 0 ∧
      (rounds cfg (rs ++ [.block b])).efforts =
        (rounds cfg rs).efforts ++ [(b.blockHash, (rounds cfg rs).work)] := by
  unfold rounds at hnew ⊢
  rw [List.foldl_append]
  simp [Rounds.next, hnew, hparent]

/-! ## A batch, shares first -/

section Batches

variable {cfg : Config} {server : Server} {db : Database} {r : Rounds} {rs : List Record}

/-- What the tables say of the rounds. -/
def roundsOf (cfg : Config) (db : Database) : Rounds where
  work := db.accumDiff
  stored := db.blocks.map (·.blockHash)
  efforts := (db.blocks.filter (·.coin = cfg.coin)).map fun row => (row.blockHash, row.roundEffort)

def Rounds.add (r : Rounds) (q : ℚ) : Rounds := { r with work := r.work + q }

/-- What the worker does with a block: its row if the hash is new, and the
reset of a parent's. -/
def Rounds.write (cfg : Config) (r : Rounds) (b : BlockRecord) : Rounds :=
  let r' : Rounds :=
    if b.blockHash ∈ r.stored then r
    else { r with stored := r.stored ++ [b.blockHash],
                  efforts := if isAux cfg b then r.efforts
                    else r.efforts ++ [(b.blockHash, r.work)] }
  if isAux cfg b then r' else { r' with work := 0 }

/-- The worker's batch: all of its work, then its blocks. -/
def Rounds.batch (cfg : Config) (r : Rounds) (rs : List Record) : Rounds :=
  (rs.filterMap blockOf).foldl (Rounds.write cfg) (r.add (workOf rs))

/-- No accepted share counts less than nothing. -/
def Nonneg (rs : List Record) : Prop :=
  ∀ s, .share s ∈ rs → s.accepted = true → 0 ≤ s.difficulty

theorem roundsOf_writeBlock (netDiffSnapshot : ℚ) (b : BlockRecord) :
    roundsOf cfg (writeBlock cfg server netDiffSnapshot db b) = (roundsOf cfg db).write cfg b := by
  have hstored : (db.blocks.any fun row => row.blockHash = b.blockHash) = true ↔
      b.blockHash ∈ (roundsOf cfg db).stored := by
    simp [roundsOf]
  unfold writeBlock Rounds.write
  by_cases hs : b.blockHash ∈ (roundsOf cfg db).stored
  · have hkeep : insertBlock (wrote db (.block b)) (blockRow cfg server netDiffSnapshot db b) =
        wrote db (.block b) := if_pos (hstored.mpr hs)
    rw [hkeep, if_pos hs]
    unfold resetEffort
    by_cases ha : isAux cfg b = true
    · rw [if_pos ha, if_pos ha]
      rfl
    · rw [if_neg ha, if_neg ha]
      rfl
  · have hnew : insertBlock (wrote db (.block b)) (blockRow cfg server netDiffSnapshot db b) =
        { wrote db (.block b) with
            blocks := db.blocks ++ [blockRow cfg server netDiffSnapshot db b] } :=
      if_neg fun h => hs (hstored.mp h)
    rw [hnew, if_neg hs]
    unfold resetEffort
    by_cases ha : isAux cfg b = true
    · have hcoin : blockCoin cfg b ≠ cfg.coin := by simpa [isAux] using ha
      rw [if_pos ha, if_pos ha, if_pos ha]
      ext1
      · rfl
      · simp [roundsOf, blockRow]
      · simp [roundsOf, blockRow, wrote, hcoin]
    · have hcoin : blockCoin cfg b = cfg.coin := by simpa [isAux] using ha
      rw [if_neg ha, if_neg ha, if_neg ha]
      ext1
      · rfl
      · simp [roundsOf, blockRow]
      · simp [roundsOf, blockRow, hcoin, ha]

theorem batchDiff_eq (shares : List ShareRecord) (q : ℚ) :
    shares.foldl (fun d s => if s.accepted then d + s.difficulty else d) q =
      q + (shares.filterMap fun s => if s.accepted then some s.difficulty else none).sum := by
  induction shares generalizing q with
  | nil => simp
  | cons s rest ih =>
    rw [List.foldl_cons, ih]
    by_cases ha : s.accepted = true
    · simp [ha, add_assoc]
    · simp [ha]

theorem batchDiff_split : batchDiff (split rs).shares = workOf rs := by
  rw [batchDiff, batchDiff_eq, zero_add, workOf, split, List.filterMap_filterMap]
  congr 2
  funext e
  cases e <;> rfl

theorem workOf_nonneg (h : Nonneg rs) : 0 ≤ workOf rs := by
  refine List.sum_nonneg fun q hq => ?_
  obtain ⟨e, he, hq⟩ := List.mem_filterMap.mp hq
  cases e with
  | share s =>
    by_cases ha : s.accepted = true
    · obtain rfl : s.difficulty = q := by simpa [ha] using hq
      exact h s he ha
    · simp [ha] at hq
  | _ => cases hq

theorem roundsOf_foldl_wrote {β : Type} (k : β → Record) (xs : List β) (db : Database) :
    roundsOf cfg (xs.foldl (fun db x => wrote db (k x)) db) = roundsOf cfg db := by
  induction xs generalizing db with
  | nil => rfl
  | cons x rest ih => exact ih _

/-- **A commit takes the tables through its batch**, shares first. -/
theorem roundsOf_committed (hn : Nonneg rs) :
    roundsOf cfg (committed cfg server db (split rs)) = (roundsOf cfg db).batch cfg rs := by
  have hblocks (q : ℚ) (bs : List BlockRecord) (db : Database) :
      roundsOf cfg (bs.foldl (writeBlock cfg server q) db) =
        bs.foldl (Rounds.write cfg) (roundsOf cfg db) := by
    induction bs generalizing db with
    | nil => rfl
    | cons b rest ih => rw [List.foldl_cons, ih, roundsOf_writeBlock, List.foldl_cons]
  have heffort (db : Database) :
      roundsOf cfg (writeShares db (split rs).shares) = (roundsOf cfg db).add (workOf rs) := by
    unfold writeShares addEffort
    rw [batchDiff_split]
    by_cases hw : 0 < workOf rs
    · rw [if_pos hw]
      rfl
    · have hz : workOf rs = 0 := le_antisymm (not_lt.mp hw) (workOf_nonneg hn)
      rw [if_neg hw, hz]
      simp [Rounds.add, roundsOf]
  rw [committed, hblocks, beforeBlocks, roundsOf_foldl_wrote .hashrate,
    roundsOf_foldl_wrote .bestShare, heffort, roundsOf_foldl_wrote .presence]
  rfl

/-- No work follows the first parent block of a batch, and if its hash is
stored there is no open work either. -/
def Ordered (cfg : Config) : Rounds → List Record → Prop
  | _, [] => True
  | r, .block b :: rest =>
    if isAux cfg b then Ordered cfg (r.next cfg (.block b)) rest
    else workOf rest = 0 ∧ (b.blockHash ∈ r.stored → r.work = 0)
  | r, e :: rest => Ordered cfg (r.next cfg e) rest

theorem Nonneg.tail {e : Record} (h : Nonneg (e :: rs)) : Nonneg rs :=
  fun s hs => h s (List.mem_cons_of_mem _ hs)

theorem workOf_share (s : ShareRecord) :
    workOf (.share s :: rs) = (if s.accepted then s.difficulty else 0) + workOf rs := by
  by_cases ha : s.accepted = true <;> simp [workOf, ha]

theorem next_share (s : ShareRecord) :
    r.next cfg (.share s) = r.add (if s.accepted then s.difficulty else 0) := by
  by_cases ha : s.accepted = true <;> simp [Rounds.next, Rounds.add, ha]

theorem add_add (q q' : ℚ) : (r.add q).add q' = r.add (q + q') := by
  simp [Rounds.add, add_assoc]

theorem write_aux {b : BlockRecord} (ha : isAux cfg b = true) (q : ℚ) :
    (r.add q).write cfg b = (r.next cfg (.block b)).add q := by
  by_cases hs : b.blockHash ∈ r.stored <;> simp [Rounds.write, Rounds.next, Rounds.add, ha, hs]

theorem write_parent {b : BlockRecord} (ha : isAux cfg b = false)
    (hw : b.blockHash ∈ r.stored → r.work = 0) : r.write cfg b = r.next cfg (.block b) := by
  by_cases hs : b.blockHash ∈ r.stored
  · simp only [Rounds.write, Rounds.next, ha, hs, if_true, Bool.false_eq_true, if_false]
    ext1
    · exact (hw hs).symm
    · rfl
    · rfl
  · simp [Rounds.write, Rounds.next, ha, hs]

theorem work_write {b : BlockRecord} (h : r.work = 0) : (r.write cfg b).work = 0 := by
  unfold Rounds.write
  dsimp only
  split
  · split <;> exact h
  · rfl

/-- Blocks without work are applied in order. -/
theorem writes_of_no_work (hn : Nonneg rs) (hw : workOf rs = 0) (hr : r.work = 0) :
    (rs.filterMap blockOf).foldl (Rounds.write cfg) r = rs.foldl (Rounds.next cfg) r := by
  induction rs generalizing r with
  | nil => rfl
  | cons e rest ih =>
    have hrest := workOf_nonneg hn.tail
    cases e with
    | share s =>
      have hs : 0 ≤ if s.accepted then s.difficulty else 0 := by
        split
        · exact hn s List.mem_cons_self ‹_›
        · exact le_refl _
      rw [workOf_share] at hw
      have hzero : (if s.accepted then s.difficulty else 0) = 0 := by linarith
      rw [List.foldl_cons, next_share, hzero, show r.add 0 = r by simp [Rounds.add]]
      exact ih hn.tail (by linarith) hr
    | block b =>
      show (rest.filterMap blockOf).foldl (Rounds.write cfg) (r.write cfg b) = _
      rw [List.foldl_cons, ← show r.write cfg b = r.next cfg (.block b) from ?_]
      · exact ih hn.tail hw (work_write hr)
      · by_cases ha : isAux cfg b = true
        · have hz := write_aux (r := r) ha 0
          simpa [Rounds.add] using hz
        · exact write_parent (by simpa using ha) fun _ => hr
    | presence p => exact ih hn.tail hw hr
    | bestShare p => exact ih hn.tail hw hr
    | hashrate p => exact ih hn.tail hw hr

/-- **An ordered batch is applied as it arrived.** -/
theorem batch_of_ordered (hn : Nonneg rs) (h : Ordered cfg r rs) :
    r.batch cfg rs = rs.foldl (Rounds.next cfg) r := by
  unfold Rounds.batch
  induction rs generalizing r with
  | nil => simp [workOf, Rounds.add]
  | cons e rest ih =>
    cases e with
    | share s =>
      rw [workOf_share, ← add_add, ← next_share]
      exact ih hn.tail h
    | block b =>
      show (rest.filterMap blockOf).foldl (Rounds.write cfg)
        ((r.add (workOf rest)).write cfg b) = _
      unfold Ordered at h
      by_cases ha : isAux cfg b = true
      · rw [if_pos ha] at h
        rw [write_aux ha]
        exact ih hn.tail h
      · rw [if_neg ha] at h
        have hparent : isAux cfg b = false := by simpa using ha
        rw [h.1, show r.add 0 = r by simp [Rounds.add], write_parent hparent h.2, List.foldl_cons]
        refine writes_of_no_work hn.tail h.1 ?_
        by_cases hs : b.blockHash ∈ r.stored
        · simp [Rounds.next, hs, h.2 hs]
        · simp [Rounds.next, hs, hparent]
    | presence p => exact ih hn.tail h
    | bestShare p => exact ih hn.tail h
    | hashrate p => exact ih hn.tail h

/-- All work, of the open round and the closed ones. -/
def Rounds.total (r : Rounds) : ℚ := (r.efforts.map Prod.snd).sum + r.work

theorem total_foldl_next : (rs.foldl (Rounds.next cfg) r).total = r.total + workOf rs := by
  induction rs generalizing r with
  | nil => simp [workOf]
  | cons e rest ih =>
    rw [List.foldl_cons, ih]
    cases e with
    | share s =>
      rw [next_share, workOf_share]
      simp only [Rounds.total, Rounds.add]
      ring
    | block b =>
      have hb : (r.next cfg (.block b)).total = r.total := by
        simp only [Rounds.next]
        split
        · rfl
        · split
          · rfl
          · simp [Rounds.total]
      rw [hb]
      rfl
    | presence p => rfl
    | bestShare p => rfl
    | hashrate p => rfl

theorem efforts_foldl_next : r.efforts <+: (rs.foldl (Rounds.next cfg) r).efforts := by
  induction rs generalizing r with
  | nil => exact List.prefix_refl _
  | cons e rest ih =>
    refine List.IsPrefix.trans ?_ ih
    cases e with
    | share s =>
      rw [next_share]
      exact List.prefix_refl _
    | block b =>
      simp only [Rounds.next]
      split
      · exact List.prefix_refl _
      · split
        · exact List.prefix_refl _
        · exact List.prefix_append _ _
    | presence p => exact List.prefix_refl _
    | bestShare p => exact List.prefix_refl _
    | hashrate p => exact List.prefix_refl _

theorem efforts_write (b : BlockRecord) : r.efforts <+: (r.write cfg b).efforts := by
  unfold Rounds.write
  dsimp only
  by_cases hs : b.blockHash ∈ r.stored <;> by_cases ha : isAux cfg b = true <;> simp [hs, ha]

theorem total_write {b : BlockRecord} (h : r.work = 0) : (r.write cfg b).total = r.total := by
  unfold Rounds.write Rounds.total
  dsimp only
  by_cases hs : b.blockHash ∈ r.stored <;> by_cases ha : isAux cfg b = true <;> simp [hs, ha, h]

theorem foldl_write (cfg : Config) (bs : List BlockRecord) (h : r.work = 0) :
    (bs.foldl (Rounds.write cfg) r).total = r.total ∧
      r.efforts <+: (bs.foldl (Rounds.write cfg) r).efforts := by
  induction bs generalizing r with
  | nil => exact ⟨rfl, List.prefix_refl _⟩
  | cons b rest ih =>
    obtain ⟨htotal, hefforts⟩ := ih (r := r.write cfg b) (work_write h)
    exact ⟨htotal.trans (total_write h), (efforts_write b).trans hefforts⟩

/-- The same open round and the same closed rounds. -/
def Rounds.Agrees (r r' : Rounds) : Prop := r.work = r'.work ∧ r.efforts = r'.efforts

/-- **A batch applied as it arrived is ordered.** -/
theorem ordered_of_batch (hn : Nonneg rs) (hr : 0 ≤ r.work)
    (h : (r.batch cfg rs).Agrees (rs.foldl (Rounds.next cfg) r)) : Ordered cfg r rs := by
  unfold Rounds.batch at h
  induction rs generalizing r with
  | nil => trivial
  | cons e rest ih =>
    cases e with
    | share s =>
      rw [workOf_share, ← add_add, ← next_share] at h
      refine ih hn.tail ?_ h
      rw [next_share]
      refine add_nonneg hr ?_
      split
      · exact hn s List.mem_cons_self ‹_›
      · exact le_refl _
    | block b =>
      have hrest := workOf_nonneg hn.tail
      replace h : Rounds.Agrees ((rest.filterMap blockOf).foldl (Rounds.write cfg)
        ((r.add (workOf rest)).write cfg b)) ((.block b :: rest).foldl (Rounds.next cfg) r) := h
      unfold Ordered
      by_cases ha : isAux cfg b = true
      · rw [if_pos ha]
        rw [write_aux ha] at h
        refine ih hn.tail ?_ h
        simp only [Rounds.next, ha, if_true]
        split <;> exact hr
      · rw [if_neg ha]
        have hzero : ((r.add (workOf rest)).write cfg b).work = 0 := by simp [Rounds.write, ha]
        obtain ⟨htotal, hefforts⟩ := foldl_write cfg (rest.filterMap blockOf) hzero
        rw [Rounds.total, h.1, h.2, ← Rounds.total] at htotal
        rw [h.2] at hefforts
        by_cases hs : b.blockHash ∈ r.stored
        · -- the reset throws away the open round
          rw [total_foldl_next] at htotal
          have hall : r.work + workOf rest = 0 := by
            have hw : workOf (.block b :: rest) = workOf rest := rfl
            simp only [Rounds.total, Rounds.write, Rounds.add, hs, ha, hw, if_true,
              Bool.false_eq_true, if_false] at htotal
            linarith
          exact ⟨by linarith, fun _ => by linarith⟩
        · -- the row has the work that came later
          have hrow : r.efforts ++ [(b.blockHash, r.work)] <+:
              ((.block b :: rest).foldl (Rounds.next cfg) r).efforts := by
            have hnext : (r.next cfg (.block b)).efforts = r.efforts ++ [(b.blockHash, r.work)] := by
              simp [Rounds.next, hs, ha]
            rw [List.foldl_cons, ← hnext]
            exact efforts_foldl_next
          have hcode : ((r.add (workOf rest)).write cfg b).efforts =
              r.efforts ++ [(b.blockHash, r.work + workOf rest)] := by
            simp [Rounds.write, Rounds.add, hs, ha]
          rw [hcode] at hefforts
          have heq := (List.prefix_of_prefix_length_le hrow hefforts (by simp)).eq_of_length (by simp)
          have hwork : r.work = r.work + workOf rest := by simpa using heq
          exact ⟨by linarith, fun h' => absurd h' hs⟩
    | presence p => exact ih hn.tail hr h
    | bestShare p => exact ih hn.tail hr h
    | hashrate p => exact ih hn.tail hr h

/-- **A committed batch changes the rounds as its records in their order would,
exactly when it is ordered.** -/
theorem committed_rounds_iff (server : Server) (hn : Nonneg rs) (hacc : 0 ≤ db.accumDiff) :
    (roundsOf cfg (committed cfg server db (split rs))).Agrees
      (rs.foldl (Rounds.next cfg) (roundsOf cfg db)) ↔ Ordered cfg (roundsOf cfg db) rs := by
  rw [roundsOf_committed hn]
  refine ⟨ordered_of_batch hn hacc, fun h => ?_⟩
  rw [batch_of_ordered hn h]
  exact ⟨rfl, rfl⟩

end Batches

/-! ## Whole runs -/

/-- The batch that goes out now is ordered. -/
def InOrder (cfg : Config) (w : Worker) (o : Ledger Record) : Input → Prop
  | .turn reachable => w.connected = true → reachable = true →
      Nonneg o.inFlight ∧ Ordered cfg (roundsOf cfg w.db) o.inFlight
  | _ => True

section Runs

variable {cfg : Config} {server : Server} {w : Worker} {o : Ledger Record} {owed : List Record}

theorem rounds_step {i : Input} (hm : Mirrors w o) (h : roundsOf cfg w.db = rounds cfg o.done)
    (hok : InOrder cfg w o i) :
    roundsOf cfg (react cfg server w i).db =
      rounds cfg (o.moves (movesOf cfg server w i)).done := by
  cases i with
  | start =>
    show roundsOf cfg (start w).db = rounds cfg o.done
    unfold start
    split
    · exact h
    · split <;> exact h
  | stop => exact h
  | enqueue r =>
    by_cases hfull : cfg.maxQueue ≤ w.queues.count r
    · simp only [react, movesOf, enqueue_false hfull, Bool.false_eq_true, if_false]
      exact h
    · simp only [react, movesOf, enqueue_true hfull, if_true]
      exact h
  | turn reachable =>
    show roundsOf cfg (turn cfg server w reachable).db = _
    have hfly := hm.flying
    unfold inFlight at hfly
    unfold turn movesOf
    cases hp : w.phase with
    | flushing batch =>
      rw [hp] at hfly
      dsimp only at hfly ⊢
      rcases flushed_cases cfg server w reachable batch with
        ⟨_, hf⟩ | ⟨hc, _, hf⟩ | ⟨_, _, hf⟩
      · rw [hf]
        exact h
      · rw [hf]
        rw [Bool.and_eq_true] at hc
        obtain ⟨hn, hordered⟩ := hok hc.1 hc.2
        show roundsOf cfg (committed cfg server w.db batch) = rounds cfg (o.done ++ o.inFlight)
        rw [hfly, roundsOf_committed hn, batch_of_ordered hn hordered, h, rounds, rounds,
          List.foldl_append]
      · rw [hf]
        exact h
    | connecting =>
      dsimp only
      split <;> exact h
    | _ => exact h

theorem rounds_of_run (h : Run cfg server (InOrder cfg) w o owed) :
    o.held.Sublist o.accepted ∧ roundsOf cfg w.db = rounds cfg o.done := by
  induction h with
  | init => exact ⟨List.Sublist.refl _, rfl⟩
  | step hrun hok ih =>
    exact ⟨held_sublist_moves ih.1 _, rounds_step (mirrors_of_run hrun) ih.2 hok⟩

/-- The number of records of all kinds. -/
def size (a : Records) : Nat :=
  a.shares.length + a.presences.length + a.bestShares.length + a.hashrates.length + a.blocks.length

theorem size_split (rs : List Record) : size (split rs) = rs.length := by
  induction rs with
  | nil => rfl
  | cons r rest ih =>
    rw [List.length_cons, ← ih]
    cases r <;> simp only [size, split, List.filterMap_cons, shareOf, presenceOf, bestShareOf,
      hashrateOf, blockOf, List.length_cons] <;> omega

/-- When everything accepted is written, the open round is the work since the
last new parent block, and each such block has the work since the one before. -/
def EffortRight (cfg : Config) (w : Worker) (o : Ledger Record) : Prop :=
  w.db.written = split o.accepted → (roundsOf cfg w.db).Agrees (rounds cfg o.accepted)

/-- **A batch that is not ordered breaks the rounds.** -/
theorem effort_of_unordered (hm : Mirrors w o) (hc : o.Conserved) (hfly : o.inFlight = [])
    (hr : roundsOf cfg w.db = rounds cfg o.done) (hn : Nonneg o.waiting) (hacc : 0 ≤ w.db.accumDiff)
    (hbad : ¬ Ordered cfg (roundsOf cfg w.db) o.waiting) :
    ¬ EffortRight cfg { w with queues := {}, db := committed cfg server w.db w.queues }
      ((o.move .take).move .settle) := by
  intro h
  have hall : o.done ++ (o.inFlight ++ o.waiting) = o.accepted := hc
  rw [hfly, List.nil_append] at hall
  refine hbad ((committed_rounds_iff server hn hacc).mp ?_)
  rw [hr, ← hm.waiting, rounds, ← List.foldl_append, hall]
  refine h ?_
  show (committed cfg server w.db w.queues).written = split o.accepted
  rw [written_committed, hm.written, hm.waiting, ← split_append, hall]

/-! ### Examples of batches -/

def sampleBlock : BlockRecord where
  height := 1
  blockHash := ['a']
  minerId := 1
  difficulty := 0
  rewardValue := 0

theorem sample_nonneg {rs : List Record} (h : ∀ s, .share s ∈ rs → s = sampleShare) :
    Nonneg rs := by
  intro s hs _
  rw [h s hs]
  show (0 : ℚ) ≤ 5
  norm_num

theorem nonneg_block_share : Nonneg [.block sampleBlock, .share sampleShare] :=
  sample_nonneg (by simp)

theorem nonneg_share_block : Nonneg [.share sampleShare, .block sampleBlock] :=
  sample_nonneg (by simp)

/-- The sample block alone is a batch in order. -/
theorem rounds_sample : roundsOf {} (committed {} easyServer {} (split [.block sampleBlock])) =
    rounds {} [.block sampleBlock] := by
  have hn : Nonneg [.block sampleBlock] := sample_nonneg (by simp)
  rw [roundsOf_committed hn, batch_of_ordered hn]
  · rfl
  · simp [Ordered, isAux, blockCoin, sampleBlock, workOf, roundsOf]

end Runs

end MkPool.RoundEffort
