import MkPool.DbWorker
import Mathlib.Tactic.Tauto

/-! # A flush of the database worker

Records are in queues of their kinds, and a flush writes all of a batch or
nothing. -/
namespace MkPool.Flushes
open MkPool.Utils MkPool.DbWorker

/-! ## Records kind by kind -/

def shareOf : Record → Option ShareRecord
  | .share r => some r
  | _ => none

def presenceOf : Record → Option PresenceRecord
  | .presence r => some r
  | _ => none

def bestShareOf : Record → Option BestShareRecord
  | .bestShare r => some r
  | _ => none

def hashrateOf : Record → Option HashrateRecord
  | .hashrate r => some r
  | _ => none

def blockOf : Record → Option BlockRecord
  | .block r => some r
  | _ => none

/-- Records in their order, put into the queues of their kinds. -/
def split (rs : List Record) : Records where
  shares := rs.filterMap shareOf
  presences := rs.filterMap presenceOf
  bestShares := rs.filterMap bestShareOf
  hashrates := rs.filterMap hashrateOf
  blocks := rs.filterMap blockOf

section Kinds

variable {a b c : Records} {rs : List Record}

@[simp] theorem shares_append : (a ++ b).shares = a.shares ++ b.shares := rfl
@[simp] theorem presences_append : (a ++ b).presences = a.presences ++ b.presences := rfl
@[simp] theorem bestShares_append : (a ++ b).bestShares = a.bestShares ++ b.bestShares := rfl
@[simp] theorem hashrates_append : (a ++ b).hashrates = a.hashrates ++ b.hashrates := rfl
@[simp] theorem blocks_append : (a ++ b).blocks = a.blocks ++ b.blocks := rfl

@[simp] theorem append_empty : a ++ ({} : Records) = a := by
  ext1 <;> simp

@[simp] theorem empty_append : ({} : Records) ++ a = a := by
  ext1 <;> simp

theorem append_assoc : a ++ b ++ c = a ++ (b ++ c) := by
  ext1 <;> simp

@[simp] theorem split_nil : split [] = {} := rfl

theorem split_append (rs ts : List Record) : split (rs ++ ts) = split rs ++ split ts := by
  ext1 <;> simp [split]

theorem push_eq (r : Record) : a.push r = a ++ split [r] := by
  cases r <;> ext1 <;> simp [Records.push, split, shareOf, presenceOf, bestShareOf, hashrateOf,
    blockOf]

theorem isEmpty_iff : a.isEmpty = true ↔ a = {} := by
  constructor
  · intro h
    simp only [Records.isEmpty, Bool.and_eq_true, List.isEmpty_iff] at h
    ext1
    · exact h.1.1.1.1
    · exact h.1.1.1.2
    · exact h.1.1.2
    · exact h.1.2
    · exact h.2
  · rintro rfl
    rfl

theorem nil_of_split (h : split rs = {}) : rs = [] := by
  cases rs with
  | nil => rfl
  | cons r rest =>
    have hone : split [r] ++ split rest = {} := by rw [← split_append]; exact h
    cases r with
    | share r => cases congrArg Records.shares hone
    | presence r => cases congrArg Records.presences hone
    | bestShare r => cases congrArg Records.bestShares hone
    | hashrate r => cases congrArg Records.hashrates hone
    | block r => cases congrArg Records.blocks hone

/-- A condition on every record. -/
def allOf (p : Record → Bool) (a : Records) : Bool :=
  a.presences.all (fun r => p (.presence r)) && (a.shares.all (fun r => p (.share r)) &&
    (a.bestShares.all (fun r => p (.bestShare r)) &&
    (a.hashrates.all (fun r => p (.hashrate r)) && a.blocks.all fun r => p (.block r))))

theorem allOf_append (p : Record → Bool) : allOf p (a ++ b) = (allOf p a && allOf p b) := by
  simp only [allOf, shares_append, presences_append, bestShares_append, hashrates_append,
    blocks_append, List.all_append]
  ac_rfl

theorem allOf_split {p : Record → Bool} (h : ∀ r ∈ rs, p r = true) : allOf p (split rs) = true := by
  induction rs with
  | nil => rfl
  | cons r rest ih =>
    rw [← List.singleton_append, split_append, allOf_append,
      ih fun t ht => h t (List.mem_cons_of_mem _ ht), Bool.and_true]
    have hr := h r List.mem_cons_self
    cases r <;> simp [allOf, split, shareOf, presenceOf, bestShareOf, hashrateOf, blockOf, hr]

end Kinds

/-! ## A flush -/

section Flushes

variable {cfg : Config} {server : Server} {db : Database} {batch : Records}

/-- A loop that stops at the first bad item fails when there is one. -/
theorem foldlM_guard {ε σ β : Type*} {f : σ → β → Except ε σ} {p : β → Bool} {g : σ → β → σ}
    {e : ε} (hf : ∀ s x, f s x = if p x then .ok (g s x) else .error e) (xs : List β) (s : σ) :
    xs.foldlM f s = if xs.all p then .ok (xs.foldl g s) else .error e := by
  induction xs generalizing s with
  | nil => rfl
  | cons x rest ih =>
    rw [List.foldlM_cons, hf]
    by_cases hx : p x = true
    · rw [if_pos hx]
      show rest.foldlM f (g s x) = _
      rw [ih, List.all_cons, hx, Bool.true_and, List.foldl_cons]
    · rw [if_neg hx, List.all_cons, Bool.eq_false_iff.mpr hx, Bool.false_and, if_neg (by simp)]
      rfl

def wrote (db : Database) (r : Record) : Database := { db with written := db.written.push r }

/-- The block's statements, when none fails. -/
def writeBlock (cfg : Config) (server : Server) (netDiffSnapshot : ℚ) (db : Database)
    (b : BlockRecord) : Database :=
  resetEffort cfg (insertBlock (wrote db (.block b)) (blockRow cfg server netDiffSnapshot db b)) b

/-- The transaction's shares and their effort. -/
def writeShares (db : Database) (shares : List ShareRecord) : Database :=
  addEffort { db with written := { db.written with shares := db.written.shares ++ shares } } shares

/-- The database before the blocks of a batch. -/
def beforeBlocks (db : Database) (batch : Records) : Database :=
  let db := batch.presences.foldl (fun db p => wrote db (.presence p)) db
  let db := writeShares db batch.shares
  let db := batch.bestShares.foldl (fun db b => wrote db (.bestShare b)) db
  batch.hashrates.foldl (fun db h => wrote db (.hashrate h)) db

def snapshot (cfg : Config) (server : Server) (batch : Records) : ℚ :=
  if batch.blocks.isEmpty then 0 else server.netDifficulty cfg.coin

/-- The transaction's result. -/
def committed (cfg : Config) (server : Server) (db : Database) (batch : Records) : Database :=
  batch.blocks.foldl (writeBlock cfg server (snapshot cfg server batch)) (beforeBlocks db batch)

/-- The shares fit into one statement. -/
def Fits (batch : Records) : Prop := 9 * batch.shares.length ≤ maxParams

instance : Decidable (Fits batch) := inferInstanceAs (Decidable (_ ≤ _))

theorem execShares_eq (shares : List ShareRecord) :
    execShares server db shares =
      if 9 * shares.length ≤ maxParams ∧ shares.all (fun r => server.acceptable (.share r)) = true then
        .ok { db with written := { db.written with shares := db.written.shares ++ shares } }
      else .error .other := by
  unfold execShares
  cases shares with
  | nil => simp
  | cons s rest =>
    simp only [List.isEmpty_cons, Bool.false_eq_true, if_false]
    by_cases hfit : 9 * (s :: rest).length ≤ maxParams
    · rw [if_neg (by omega)]
      by_cases hall : (s :: rest).all (fun r => server.acceptable (.share r)) = true
      · rw [if_pos hall, if_pos ⟨hfit, hall⟩]
      · rw [if_neg hall, if_neg fun h => hall h.2]
    · rw [if_pos (by omega), if_neg fun h => hfit h.1]

theorem execBlock_eq (netDiffSnapshot : ℚ) (db : Database) (b : BlockRecord) :
    execBlock cfg server netDiffSnapshot db b =
      if server.acceptable (.block b) then .ok (writeBlock cfg server netDiffSnapshot db b)
      else .error .other := by
  unfold execBlock execOne
  dsimp only
  by_cases hb : server.acceptable (.block b) = true
  · rw [if_pos hb, if_pos hb]
    rfl
  · rw [if_neg hb, if_neg hb]
    rfl

theorem foldlM_execOne {β : Type} (k : β → Record) (xs : List β) (db : Database) :
    xs.foldlM (fun db r => execOne server db (k r)) db =
      if xs.all (fun r => server.acceptable (k r)) then
        .ok (xs.foldl (fun db r => wrote db (k r)) db)
      else .error .other :=
  foldlM_guard (fun _ _ => rfl) xs db

theorem guard_bind {ε α β : Type} {c : Prop} [Decidable c] {x : α} {e : ε} {k : α → Except ε β} :
    ((if c then .ok x else .error e) >>= k) = if c then k x else .error e := by
  split <;> rfl

theorem foldlM_execBlock (netDiffSnapshot : ℚ) (bs : List BlockRecord) (db : Database) :
    bs.foldlM (execBlock cfg server netDiffSnapshot) db =
      if bs.all (fun b => server.acceptable (.block b)) then
        .ok (bs.foldl (writeBlock cfg server netDiffSnapshot) db)
      else .error .other :=
  foldlM_guard (execBlock_eq netDiffSnapshot) bs db

/-- **A flush fails when the shares do not fit or a record is not acceptable.** -/
theorem flush_eq : flush cfg server db batch =
    if Fits batch ∧ allOf server.acceptable batch = true then .ok (committed cfg server db batch)
    else .error .other := by
  unfold flush
  dsimp only
  simp only [foldlM_execOne, execShares_eq, foldlM_execBlock, guard_bind, ← ite_and]
  refine if_congr ?_ rfl rfl
  simp only [allOf, Fits, Bool.and_eq_true]
  tauto

/-! ### What a commit writes -/

@[simp] theorem written_wrote (r : Record) : (wrote db r).written = db.written ++ split [r] :=
  push_eq r

@[simp] theorem written_addEffort (shares : List ShareRecord) :
    (addEffort db shares).written = db.written := by
  unfold addEffort
  split <;> rfl

theorem written_writeShares (shares : List ShareRecord) :
    (writeShares db shares).written = db.written ++ { shares } := by
  rw [writeShares, written_addEffort]
  ext1 <;> simp

@[simp] theorem written_insertBlock (row : BlockRow) :
    (insertBlock db row).written = db.written := by
  unfold insertBlock
  split <;> rfl

@[simp] theorem written_resetEffort (b : BlockRecord) :
    (resetEffort cfg db b).written = db.written := by
  unfold resetEffort
  split <;> rfl

theorem written_writeBlock (netDiffSnapshot : ℚ) (b : BlockRecord) :
    (writeBlock cfg server netDiffSnapshot db b).written = db.written ++ split [.block b] := by
  simp [writeBlock]

/-- A loop that writes one record each time. -/
theorem written_foldl {β : Type} {f : Database → β → Database} (k : β → Record)
    (hf : ∀ db x, (f db x).written = db.written ++ split [k x]) (xs : List β) (db : Database) :
    (xs.foldl f db).written = db.written ++ split (xs.map k) := by
  induction xs generalizing db with
  | nil => simp
  | cons x rest ih =>
    rw [List.foldl_cons, ih, hf, append_assoc, ← split_append]
    rfl

theorem written_beforeBlocks :
    (beforeBlocks db batch).written = db.written ++ { batch with blocks := [] } := by
  unfold beforeBlocks
  dsimp only
  rw [written_foldl .hashrate fun _ _ => written_wrote _,
    written_foldl .bestShare fun _ _ => written_wrote _, written_writeShares,
    written_foldl .presence fun _ _ => written_wrote _]
  ext1 <;> simp [split, List.filterMap_map, Function.comp_def, shareOf, presenceOf, bestShareOf,
    hashrateOf, blockOf]

/-- **A commit writes the batch.** -/
theorem written_committed : (committed cfg server db batch).written = db.written ++ batch := by
  rw [committed, written_foldl .block fun _ _ => written_writeBlock _ _, written_beforeBlocks]
  ext1 <;> simp [split, List.filterMap_map, Function.comp_def, shareOf, presenceOf, bestShareOf,
    hashrateOf, blockOf]

end Flushes

end MkPool.Flushes
