import MkPool.Coinbase
import MkPool.JsonValue
import MkPool.Sv2Messages
import MkPool.Lib.Interaction

/-! # What the handlers ask for and send

A handler is a program over `Call`: the locked accesses to the stratifier, the
clocks, the database and the node, and everything that leaves the session. The
session's own fields are not here: a handler threads them by hand. -/
namespace MkPool.Calls
open MkPool.Lib.Interaction MkPool.Utils MkPool.Job MkPool.Sv2Messages

/-! ## Lines to a V1 miner -/

/-- A finished `mining.notify` of a Bitcoin-family chain. -/
structure Notify where
  front : NotifyPrefix
  coinbase2 : Str
  back : NotifySuffix
deriving DecidableEq

/-- A line sent to a V1 miner. Request ids are JSON literals. -/
inductive Line where
  | jsonParseError
  | missingMethod
  | malformedRequest (id : Str)
  | unknownMethod (id method : Str)
  | result (id : Str)
  | reject (id : Str) (code : Nat) (reason : Str)
  | authError (id reason : Str)
  | subscribed (id sessionId extranonce1 : Str) (extranonce2Size : Nat)
  | configured (id : Str) (body : List Str)
  | setDifficulty (d : Int)
  | setTarget (target : Str)
  | setVersionMask (mask : UInt32)
  | notify (n : Notify)
  | notifyZcash (n : NotifyZcash)
deriving DecidableEq

def trueFalse (b : Bool) : Str := if b then "true".toList else "false".toList

def quoted (s : Str) : Str := '"' :: s ++ ['"']

/-- `branch_json`. -/
def branchJson (branch : List Str) : Str :=
  '[' :: (List.intercalate [','] (branch.map quoted)) ++ [']']

/-- The text of `mining.notify`: the prefix, coinbase2 and the suffix. -/
def Notify.text (n : Notify) : Str :=
  "\x7b\"id\":null,\"method\":\"mining.notify\",\"params\":[".toList
    ++ quoted n.front.jobId ++ [','] ++ quoted n.front.prevhash ++ [',']
    ++ quoted n.front.coinbase1 ++ [','] ++ quoted n.coinbase2 ++ [',']
    ++ branchJson n.back.merkleBranch ++ [','] ++ quoted n.back.version ++ [',']
    ++ quoted n.back.bits ++ [','] ++ quoted n.back.curtime ++ [',']
    ++ trueFalse n.back.clean ++ "]\x7d\n".toList

/-! ## Node and database requests -/

/-- The data a V1 authorization carries through the node's validation. -/
structure AuthRequest where
  idJson : Str
  addr : Str
  worker : Str
  decoded : Address.Decoded
  customDiff : Option ℚ
  auxDogeAddress : Str

/-- A pending `asyncValidateAddress`, with what its callback captured. -/
inductive Validation where
  | payout (req : AuthRequest)
  | doge (req : AuthRequest)
  | payoutV2 (addr : Str)

/-- `ShareRecord`. -/
structure ShareRecord where
  minerId : Int
  jobId : Str
  nonce : Str
  extranonce1 : Str
  extranonce2 : Str
  shareHash : Str
  difficulty : ℚ
  blockFound : Bool

/-- The rows of the in-memory blacklist an authorization looks at. -/
structure BlacklistView where
  addressBlocked : Bool
  workerIsFree : Bool
  freeGranted : Bool
  workerBlocked : Bool
  deriving DecidableEq

/-- A block handed to the node, with the hash of its header. -/
structure BlockSubmission where
  block : Str
  hash : Hash256
  minerId : Int
deriving DecidableEq

/-- A Dogecoin block handed to the aux node. -/
structure AuxSubmission where
  block : Str
  dogeBlockHash : Str
deriving DecidableEq

/-! ## Calls -/

/-- The branch that scores a share: the three of `handle_submit`, and the two
Stratum V2 handlers. -/
inductive SharePath where
  | v1Fresh | v1Stale | v1LowDiff | v2Standard | v2Extended
deriving DecidableEq, Repr

def SharePath.isV2 (p : SharePath) : Bool := p = .v2Standard || p = .v2Extended

/-- `scored` and `countAccepted` mark two places of the source in a run's
history: the target comparison of a share, with the branch that follows it,
and the increment of `shares_accepted_`. -/
inductive Call where
  | latestJob
  | findJob (id : Str)
  | findJobU32 (id : UInt32)
  | currentPrevhash
  | registerShare (fingerprint : Str)
  | noteShareDiff (d : ℚ)
  | nowUnix
  | steadyNow
  | rand
  | ensureMiner (addr worker : Str)
  | blacklist (addr worker : Str)
  | recordInvalidShare
  | clearInvalid
  | validateAddress (v : Validation)
  | send (line : Line)
  | sendV2 (msg : Reply)
  | scored (path : SharePath) (hash : Hash256) (job : Option MiningJob) (meetsNetwork : Bool)
  | countAccepted (path : SharePath) (hash : Hash256) (job : Option MiningJob) (ntime : UInt32)
  | enqueueShare (rec : ShareRecord)
  | submitBlock (b : BlockSubmission)
  | withholdBlock (hash : Hash256)
  | submitAuxBlock (b : AuxSubmission)
  | newJobId (width32 : Bool)
  | swapPrevhash (prevhash : Str)
  | clearShares
  | resetBestShare
  | pushJob (job : MiningJob)
  | callbacks (job : MiningJob)

/-- The type of a call's answer. -/
abbrev Answer : Call → Type
  | .latestJob | .findJob _ | .findJobU32 _ => Option MiningJob
  | .currentPrevhash => Str
  | .registerShare _ => Bool
  | .nowUnix => UInt32
  | .steadyNow => ℚ
  | .rand => Nat
  | .ensureMiner _ _ => Int
  | .blacklist _ _ => BlacklistView
  | .recordInvalidShare => Bool
  | .newJobId _ => Str
  | .swapPrevhash _ => Bool
  | _ => Unit

/-- A program of the pool. -/
abbrev Act := Prog Call Answer

/-- Make a call. -/
abbrev ask (c : Call) : Act (Answer c) := Prog.perform c

end MkPool.Calls
