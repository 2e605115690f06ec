import MkPool.Config

/-! # Mining jobs and the window of the recent ones

`MiningJob` and `BlockTemplate` of `stratifier.hpp`, and `job_window.hpp`. The
notify text of a job is kept as its fields: a session puts its own coinbase2
between the prefix and the suffix. -/
namespace MkPool.Job
open MkPool.Lib MkPool.Utils

/-- A `mining.notify` up to coinbase2. -/
structure NotifyPrefix where
  jobId : Str := []
  prevhash : Str := []
  coinbase1 : Str := []
deriving DecidableEq

/-- A `mining.notify` after coinbase2. -/
structure NotifySuffix where
  merkleBranch : List Str := []
  version : Str := []
  bits : Str := []
  curtime : Str := []
  clean : Bool := false
deriving DecidableEq

/-- The eight parameters of a Zcash `mining.notify`. -/
structure NotifyZcash where
  jobId : Str := []
  version : Str := []
  prevhash : Str := []
  merkleRoot : Str := []
  reserved : Str := []
  time : Str := []
  bits : Str := []
  clean : Bool := false
deriving DecidableEq

structure BlockTemplateTx where
  data : Str
  txidLe : Str
  fee : Int := 0

structure BlockTemplate where
  version : Int := 0
  previousblockhash : Str := []
  coinbasevalue : Int := 0
  mintime : UInt32 := 0
  curtime : UInt32 := 0
  bits : Str := []
  height : Int := 0
  defaultWitnessCommitment : Str := []
  reserved : Str := []
  zcashMerkleRoot : Str := []
  zcashCoinbaseData : Str := []
  segwitActive : Bool := true
  transactions : List BlockTemplateTx := []
  minerFundAddress : Str := []
  minerFundValue : Int := 0
  stakingRewardsScript : Str := []
  stakingRewardsValue : Int := 0
  rttPresent : Bool := false
  rttPrevheadertime : List UInt32 := []
  rttPrevbits : UInt32 := 0
  auxEnabled : Bool := false
  auxVersion : UInt32 := 0
  auxPrevhash : Str := []
  auxBits : Str := []
  auxCurtime : UInt32 := 0
  auxHeight : Int := 0
  auxCoinbasevalue : Int := 0
  auxTarget : Str := []
  mweb : Str := []

structure MiningJob where
  jobId : Str := []
  previousblockhash : Str := []
  coinbase1 : Str := []
  merkleBranchLe : List Str := []
  version : UInt32 := 0
  bits : Str := []
  curtime : UInt32 := 0
  mintime : UInt32 := 0
  cleanJobs : Bool := false
  coinbaseValue : Int := 0
  totalFees : Int := 0
  height : Int := 0
  witnessCommitment : Str := []
  reserved : Str := []
  zcashMerkleRootLe : Str := []
  zcashFullCoinbaseHex : Str := []
  segwitActive : Bool := true
  donationPercent : ℚ := 0
  donationAddress : Str := []
  minerFundAddress : Str := []
  minerFundValue : Int := 0
  stakingRewardsScript : Str := []
  stakingRewardsValue : Int := 0
  rttPresent : Bool := false
  rttPrevheadertime : List UInt32 := []
  rttPrevbits : UInt32 := 0
  txHexes : List Str := []
  auxEnabled : Bool := false
  auxVersion : UInt32 := 0
  auxPrevhash : Str := []
  auxBits : Str := []
  auxCurtime : UInt32 := 0
  auxHeight : Int := 0
  auxCoinbasevalue : Int := 0
  auxTarget : Str := []
  mweb : Str := []
  notifyPrefix : NotifyPrefix := {}
  notifySuffix : NotifySuffix := {}
  notifyZcash : NotifyZcash := {}
deriving DecidableEq

/-! ## The window -/

/-- `JobWindow<JobPtr>`: the jobs in order of arrival, oldest first. -/
structure JobWindow where
  capacity : Nat
  items : List (Str × MiningJob) := []

/-- `std::from_chars(p, p + 8, cur, 16)` on the first eight characters: the
longest run of digits, if there is one. -/
def fromChars32 (jid : Str) : Option UInt32 :=
  let ds := (jid.take 8).takeWhile isHexDigit
  if ds.isEmpty then none
  else some (UInt32.ofNat (ds.foldl (fun acc c => 16 * acc + (Hex.nibble c).getD 0) 0))

/-- The wire id of a job in Stratum V2. -/
def idU32 (jid : Str) : Option UInt32 := if jid.length < 8 then none else fromChars32 jid

namespace JobWindow

def push (w : JobWindow) (jobId : Str) (job : MiningJob) : JobWindow :=
  let items := if w.items.length = w.capacity then w.items.tail else w.items
  { w with items := items ++ [(jobId, job)] }

def find (w : JobWindow) (jobId : Str) : Option MiningJob :=
  (w.items.reverse.find? fun e => e.1 = jobId).map Prod.snd

def findU32 (w : JobWindow) (id32 : UInt32) : Option MiningJob :=
  (w.items.reverse.find? fun e => idU32 e.1 = some id32).map Prod.snd

def latest (w : JobWindow) : Option MiningJob := w.items.getLast?.map Prod.snd

/-- The jobs of the window. -/
def jobs (w : JobWindow) : List MiningJob := w.items.map Prod.snd

theorem mem_jobs_of_find {w : JobWindow} {jobId : Str} {job : MiningJob}
    (h : w.find jobId = some job) : (jobId, job) ∈ w.items := by
  obtain ⟨e, he, rfl⟩ := Option.map_eq_some_iff.mp h
  have hid : e.1 = jobId := by simpa using List.find?_some he
  have hmem := List.mem_reverse.mp (List.mem_of_find?_eq_some he)
  rwa [← hid]

theorem mem_jobs_of_findU32 {w : JobWindow} {id32 : UInt32} {job : MiningJob}
    (h : w.findU32 id32 = some job) :
    ∃ jobId, (jobId, job) ∈ w.items ∧ idU32 jobId = some id32 := by
  obtain ⟨e, he, rfl⟩ := Option.map_eq_some_iff.mp h
  have hid : idU32 e.1 = some id32 := by simpa using List.find?_some he
  exact ⟨e.1, List.mem_reverse.mp (List.mem_of_find?_eq_some he), hid⟩

theorem mem_jobs_of_latest {w : JobWindow} {job : MiningJob} (h : w.latest = some job) :
    ∃ jobId, (jobId, job) ∈ w.items := by
  obtain ⟨e, he, rfl⟩ := Option.map_eq_some_iff.mp h
  exact ⟨e.1, List.mem_of_getLast? he⟩

theorem mem_push {w : JobWindow} {jobId : Str} {job : MiningJob} {e : Str × MiningJob}
    (h : e ∈ (w.push jobId job).items) : e ∈ w.items ∨ e = (jobId, job) := by
  simp only [push, List.mem_append, List.mem_singleton] at h
  refine h.imp_left fun h => ?_
  split at h
  · exact List.mem_of_mem_tail h
  · exact h

end JobWindow

end MkPool.Job
