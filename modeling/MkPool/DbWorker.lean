import MkPool.Calls

/-! # The database worker

One thread takes what the others have queued and writes it in one transaction a
turn. Records of five kinds wait in queues of their own. -/
namespace MkPool.DbWorker
open MkPool.Utils

/-! ## Records -/

/-- `ShareRecord`, with the flag every caller sets. -/
structure ShareRecord extends Calls.ShareRecord where
  accepted : Bool

structure PresenceRecord where
  btcAddress : Str
  workerName : Str
  status : Str
  ip : Str

structure BestShareRecord where
  minerId : Int
  difficulty : ℚ
  hash : Str

/-- The time is the one `strftime` prints, in seconds. -/
structure HashrateRecord where
  minerId : Int
  hashrateHps : ℚ
  ts : Int

structure BlockRecord where
  height : Int
  blockHash : Str
  minerId : Int
  difficulty : ℚ
  rewardValue : Int
  coin : Str := []

/-- A record for the worker. -/
inductive Record where
  | share (r : ShareRecord)
  | presence (r : PresenceRecord)
  | bestShare (r : BestShareRecord)
  | hashrate (r : HashrateRecord)
  | block (r : BlockRecord)

/-- Records in the queues of their kinds. -/
@[ext] structure Records where
  shares : List ShareRecord := []
  presences : List PresenceRecord := []
  bestShares : List BestShareRecord := []
  hashrates : List HashrateRecord := []
  blocks : List BlockRecord := []

namespace Records

def isEmpty (r : Records) : Bool :=
  r.shares.isEmpty && r.presences.isEmpty && r.bestShares.isEmpty && r.hashrates.isEmpty
    && r.blocks.isEmpty

/-- Kind by kind. -/
def append (a b : Records) : Records where
  shares := a.shares ++ b.shares
  presences := a.presences ++ b.presences
  bestShares := a.bestShares ++ b.bestShares
  hashrates := a.hashrates ++ b.hashrates
  blocks := a.blocks ++ b.blocks

instance : Append Records := ⟨append⟩

def push (q : Records) : Record → Records
  | .share r => { q with shares := q.shares ++ [r] }
  | .presence r => { q with presences := q.presences ++ [r] }
  | .bestShare r => { q with bestShares := q.bestShares ++ [r] }
  | .hashrate r => { q with hashrates := q.hashrates ++ [r] }
  | .block r => { q with blocks := q.blocks ++ [r] }

/-- How many records of this one's kind there are. -/
def count (q : Records) : Record → Nat
  | .share _ => q.shares.length
  | .presence _ => q.presences.length
  | .bestShare _ => q.bestShares.length
  | .hashrate _ => q.hashrates.length
  | .block _ => q.blocks.length

end Records

/-! ## The database -/

structure Config where
  maxQueue : Nat := 2 ^ 16
  coin : Str := "BTC".toList

/-- A row of `blocks`. -/
structure BlockRow where
  height : Int
  blockHash : Str
  foundBy : Option Int
  difficulty : ℚ
  rewardValue : Int
  roundEffort : ℚ
  netDifficulty : ℚ
  finderEffort : ℚ
  coin : Str

/-- What the worker has written: the records whose statements are committed, in
order, the rows of `blocks`, and the one row of `effort_state`. -/
structure Database where
  written : Records := {}
  blocks : List BlockRow := []
  accumDiff : ℚ := 0
  lastBlockHeight : Int := 0

/-- What PostgreSQL answers besides: whether a record on its own violates no
constraint, the difficulty in `network_stats`, and the finder's own work, which
depends on its clock. -/
structure Server where
  acceptable : Record → Bool
  netDifficulty : Str → ℚ
  finderEffort : Database → Int → Str → ℚ

/-- Why a flush ends without a commit. -/
inductive FlushError where
  | brokenConnection
  | other
deriving DecidableEq

/-- Bind parameters a statement can carry. -/
def maxParams : Nat := 65535

section Statements

variable (cfg : Config) (server : Server)

/-- A statement for one record. -/
def execOne (db : Database) (r : Record) : Except FlushError Database :=
  if server.acceptable r then .ok { db with written := db.written.push r } else .error .other

/-- The `INSERT` into `raw_shares`, with nine parameters for each row. -/
def execShares (db : Database) (shares : List ShareRecord) : Except FlushError Database :=
  if shares.isEmpty then .ok db
  else if maxParams < 9 * shares.length then .error .other
  else if shares.all fun s => server.acceptable (.share s) then
    .ok { db with written := { db.written with shares := db.written.shares ++ shares } }
  else .error .other

def batchDiff (shares : List ShareRecord) : ℚ :=
  shares.foldl (fun d s => if s.accepted then d + s.difficulty else d) 0

def addEffort (db : Database) (shares : List ShareRecord) : Database :=
  if 0 < batchDiff shares then { db with accumDiff := db.accumDiff + batchDiff shares } else db

def blockCoin (b : BlockRecord) : Str := if b.coin.isEmpty then cfg.coin else b.coin

def isAux (b : BlockRecord) : Bool := blockCoin cfg b ≠ cfg.coin

/-- The row of a block found now. -/
def blockRow (netDiffSnapshot : ℚ) (db : Database) (b : BlockRecord) : BlockRow where
  height := b.height
  blockHash := b.blockHash
  foundBy := if 0 < b.minerId then some b.minerId else none
  difficulty := b.difficulty
  rewardValue := b.rewardValue
  roundEffort := if isAux cfg b then 0 else db.accumDiff
  netDifficulty := if isAux cfg b then 0 else netDiffSnapshot
  finderEffort :=
    if isAux cfg b then 0
    else if 0 < b.minerId then server.finderEffort db b.minerId cfg.coin else 0
  coin := blockCoin cfg b

/-- `ON CONFLICT (block_hash) DO NOTHING`. -/
def insertBlock (db : Database) (row : BlockRow) : Database :=
  if db.blocks.any fun r => r.blockHash = row.blockHash then db
  else { db with blocks := db.blocks ++ [row] }

/-- A parent block starts the effort anew, whether or not its row was new. -/
def resetEffort (db : Database) (b : BlockRecord) : Database :=
  if isAux cfg b then db else { db with accumDiff := 0, lastBlockHeight := b.height }

def execBlock (netDiffSnapshot : ℚ) (db : Database) (b : BlockRecord) :
    Except FlushError Database := do
  let row := blockRow cfg server netDiffSnapshot db b
  let db ← execOne server db (.block b)
  return resetEffort cfg (insertBlock db row) b

/-- The transaction of a batch. -/
def flush (db : Database) (batch : Records) : Except FlushError Database := do
  let db ← batch.presences.foldlM (fun db p => execOne server db (.presence p)) db
  let db ← execShares server db batch.shares
  let db := addEffort db batch.shares
  let db ← batch.bestShares.foldlM (fun db b => execOne server db (.bestShare b)) db
  let db ← batch.hashrates.foldlM (fun db h => execOne server db (.hashrate h)) db
  let netDiffSnapshot := if batch.blocks.isEmpty then 0 else server.netDifficulty cfg.coin
  batch.blocks.foldlM (execBlock cfg server netDiffSnapshot) db

end Statements

/-! ## The worker -/

/-- Where the thread is: not there, before its first connect, at the loop's
test, past it, in the wait, or with a batch in its hands. -/
inductive Phase where
  | off
  | starting
  | top
  | connecting
  | waiting
  | flushing (batch : Records)

structure Worker where
  queues : Records := {}
  running : Bool := false
  /-- `conn && conn->is_open()` -/
  connected : Bool := false
  phase : Phase := .off
  db : Database := {}

/-- `enqueue_share` and its four siblings, and what they return. -/
def enqueue (cfg : Config) (w : Worker) (r : Record) : Worker × Bool :=
  if cfg.maxQueue ≤ w.queues.count r then (w, false)
  else ({ w with queues := w.queues.push r }, true)

/-- `stop` has its caller wait for the thread, so that a new one starts only
after its end. -/
def start (w : Worker) : Worker :=
  if w.running then w
  else match w.phase with
    | .off => { w with running := true, phase := .starting }
    | _ => w

def stop (w : Worker) : Worker := { w with running := false }

/-- The end of a flush: of the transaction, unless the connection breaks. -/
def flushed (cfg : Config) (server : Server) (w : Worker) (reachable : Bool) (batch : Records) :
    Except FlushError Database :=
  if w.connected && reachable then flush cfg server w.db batch else .error .brokenConnection

/-- The thread's next stretch, with the database reachable throughout or not. A
wait can end at any time, and a batch that could not be sent goes back to the
front of the queues. -/
def turn (cfg : Config) (server : Server) (w : Worker) (reachable : Bool) : Worker :=
  match w.phase with
  | .off => w
  | .starting => { w with connected := reachable, phase := .top }
  | .top => { w with phase := if w.running then .connecting else .off }
  | .connecting =>
    if w.connected || reachable then { w with connected := true, phase := .waiting }
    else { w with phase := .top }
  | .waiting =>
    { w with queues := {}, connected := w.connected && reachable,
             phase := if w.queues.isEmpty then .top else .flushing w.queues }
  | .flushing batch =>
    match flushed cfg server w reachable batch with
    | .ok db => { w with db, phase := .top }
    | .error .brokenConnection =>
      { w with queues := batch ++ w.queues, connected := false, phase := .top }
    | .error .other => { w with phase := .top }

inductive Input where
  | start
  | stop
  | enqueue (r : Record)
  | turn (reachable : Bool)

def react (cfg : Config) (server : Server) (w : Worker) : Input → Worker
  | .start => start w
  | .stop => stop w
  | .enqueue r => (enqueue cfg w r).1
  | .turn reachable => turn cfg server w reachable

end MkPool.DbWorker
