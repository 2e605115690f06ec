import MkPool.SessionV2
import MkPool.Play

/-! # One active channel on a V2 connection

A session has the fields of one channel, those of the open request that
succeeded last. A share is scored, credited and paid by them, whatever channel
it names. -/
namespace MkPool.Channels
open MkPool.Lib.Interaction MkPool.Utils MkPool.Config MkPool.Job MkPool.Coinbase
open MkPool.Stratifier MkPool.Sv2Messages MkPool.Calls MkPool.ClientSession MkPool.JsonValue
open MkPool.Tasks MkPool.Submit MkPool.StratumV2 MkPool.Desk MkPool.ShareWatch MkPool.DeskWatch
open MkPool.SessionV2 MkPool.Play

/-! ## The opening a run has come to -/

/-- A run of a V2 session, with the open request that succeeded last. -/
inductive Trail (env : Env) : DeskState → Option Opening → Prop where
  | init {d : DeskState} (h : Initial env true d) : Trail env d none
  | step {d d' : DeskState} {i : Input} {op : Option Opening} (h : Trail env d op)
      (hs : Step env d i d') : Trail env d' ((openedBy env i).or op)

/-- The coinbase of the share pays the opening. -/
def Pays (env : Env) (op : Opening) (job : MiningJob) (sh : ShareV2) : Prop :=
  ∃ job' extra, (job' = job ∨ job' = emptyBlockJob job) ∧
    sh.cbHex = rebuildCoinbase job.coinbase1
      (buildSessionCoinbase2 env job' (Address.scriptPubkeyHex op.decoded)) extra

/-- What is done with a share of a pool job is done for the opening: it is
scored on a coinbase that pays it, its block has such a coinbase, and the row
is that of its miner. -/
def DoneFor (env : Env) (s : Session) (op : Opening) : Call → Prop
  | .scored _ hash job _ => ∀ j, job = some j → ∃ sh : ShareV2, hash = sh.hash ∧ Pays env op j sh
  | .submitBlock b => b.minerId = s.minerId ∧ ∃ sh emptyBlock, b.block = sv2Block sh emptyBlock ∧
      ∀ j, sh.job = some j → Pays env op j sh
  | .enqueueShare rec => rec.minerId = s.minerId
  | _ => True

section Shares

variable {env : Env} {s : Session} {task : Task} {op : Opening} {sh : ShareV2}
  {names : UInt32 → MiningJob → Prop}

theorem fields_of_hashShare {job : Option MiningJob} {headerHex cbHex bitsHex : Str}
    (h : hashShare env job headerHex cbHex bitsHex = some sh) :
    sh.cbHex = cbHex ∧ sh.job = job := by
  obtain ⟨headerBytes, _, h⟩ := Option.bind_eq_some_iff.mp h
  obtain ⟨netTarget, _, h⟩ := Option.bind_eq_some_iff.mp h
  cases h
  exact ⟨rfl, rfl⟩

theorem pays_of_standard {j : MiningJob}
    (hscript : s.workerScriptHex = Address.scriptPubkeyHex op.decoded)
    (h : RebuiltStandard env s task names sh) (hj : sh.job = some j) : Pays env op j sh := by
  obtain ⟨msg, _, ⟨_, job, _, h⟩ | ⟨cj, _, h⟩⟩ := h
  · have hjob := job_of_rebuildStandard h
    obtain rfl : job = j := Option.some.inj (hjob.symm.trans hj)
    have hcb : sh.cbHex = standardCoinbase env s job := by
      obtain ⟨txid, _, h⟩ := Option.bind_eq_some_iff.mp h
      split at h <;>
      · obtain ⟨root, _, h⟩ := Option.bind_eq_some_iff.mp h
        exact (fields_of_hashShare h).1
    rw [Pays, hcb, standardCoinbase, hscript]
    split
    · exact ⟨_, _, .inr rfl, rfl⟩
    · exact ⟨_, _, .inl rfl, rfl⟩
  · rw [job_of_rebuildCustom h] at hj
    cases hj

theorem pays_of_extended {j : MiningJob}
    (hscript : s.workerScriptHex = Address.scriptPubkeyHex op.decoded)
    (h : RebuiltExtended env s task names sh) (hj : sh.job = some j) : Pays env op j sh := by
  obtain ⟨msg, _, job, _, h⟩ := h
  have hjob := job_of_rebuildExtended h
  obtain rfl : job = j := Option.some.inj (hjob.symm.trans hj)
  obtain ⟨txid, _, h⟩ := Option.bind_eq_some_iff.mp h
  obtain ⟨root, _, h⟩ := Option.bind_eq_some_iff.mp h
  have hcb := (fields_of_hashShare h).1
  rw [hscript] at hcb
  exact ⟨job, _, .inl rfl, hcb⟩

/-- A V1 share is rebuilt from a line only. -/
theorem RebuiltShare.line {sh : Share} (h : RebuiltShare env s task sh) :
    ∃ msg, task = .line (some msg) := by
  obtain ⟨msg, _, ht, _⟩ := h
  exact ⟨msg, ht⟩

theorem doneFor_of_explains {w : World} {c : Call}
    (hscript : s.workerScriptHex = Address.scriptPubkeyHex op.decoded)
    (hline : ∀ msg, task ≠ .line (some msg)) (h : Explains env s task w c) :
    DoneFor env s op c := by
  cases c with
  | scored path hash job meets =>
    intro j hj
    subst hj
    cases path with
    | v2Standard =>
      obtain ⟨sh, hr, hhash, hjob, _⟩ := h
      exact ⟨sh, hhash, pays_of_standard hscript hr hjob.symm⟩
    | v2Extended =>
      obtain ⟨sh, hr, hhash, hjob, _⟩ := h
      exact ⟨sh, hhash, pays_of_extended hscript hr hjob.symm⟩
    | v1Fresh | v1Stale | v1LowDiff =>
      obtain ⟨sh, judged⟩ := h
      obtain ⟨msg, ht⟩ := RebuiltShare.line judged.rebuilt
      exact absurd ht (hline msg)
  | submitBlock b =>
    refine ⟨h.2, ?_⟩
    rcases h.1 with ⟨sh, hr, _⟩ | ⟨sh, hr, hb, _⟩ | ⟨sh, hr, hb, _⟩
    · obtain ⟨msg, ht⟩ := RebuiltShare.line hr
      exact absurd ht (hline msg)
    · exact ⟨sh, _, hb, fun j hj => pays_of_standard hscript hr hj⟩
    · exact ⟨sh, _, hb, fun j hj => pays_of_extended hscript hr hj⟩
  | enqueueShare rec => exact h
  | _ => exact trivial

theorem doneFor_of_publishes {c : Call} (h : Publishes c) : DoneFor env s op c := by
  cases c <;> first | exact h.elim | trivial

end Shares

/-! ## Runs -/

theorem isV2_of_trail {env : Env} {d : DeskState} {op : Option Opening} (h : Trail env d op) :
    IsV2 d := by
  induction h with
  | init h => exact isV2_initial h
  | step _ hs ih => exact (ih.step hs).1

/-- The session serves the opening a run has come to. -/
theorem serves_of_trail {env : Env} {d : DeskState} {op : Option Opening} (h : Trail env d op)
    (hx : hexToBytes d.session.extranonce1 ≠ none) :
    ∀ op', op = some op' → Serves d.session d.world op' := by
  induction h with
  | init h =>
    intro op' hop
    cases hop
  | @step d d' i op h hs ih =>
    intro op' hop
    obtain ⟨_, hextra, hsame⟩ := (isV2_of_trail h).step hs
    rw [hextra] at hx
    cases ho : openedBy env i with
    | none =>
      rw [ho, Option.none_or] at hop
      exact (ih hx op' hop).same (hsame ho) fun e he => step_mem hs he
    | some new =>
      rw [ho, Option.some_or] at hop
      obtain rfl := Option.some.inj hop
      cases hs with
      | @task s w w' t readings o offered run =>
        cases t with
        | message msg => exact serves_of_opening ho hx run
        | _ => cases ho
      | _ => cases ho

def sampleId : Str := "0100000000000000".toList

/-- A channel is opened for a miner, and a job published. The pool's random
numbers are 0, so the channel is 1000. -/
def openedChannel : List (Replies × Move) :=
  [(usual, .message (.setupConnection 0)),
    (usual, .message (.openStandardMiningChannel
      { requestId := 1, userIdentity := "miner.1".toList })),
    (usual, .work (sampleTemplate 'a' 'b') sampleId)]

/-- A share of the job on a channel. -/
def shareOn (channelId : UInt32) : SubmitSharesStandard :=
  { channelId, sequenceNumber := 1, jobId := 0x01000000, nonce := 0, ntime := 0, version := 1 }

/-- The pool with a difficulty its shares meet. -/
def easyEnv : Env :=
  { sampleEnv with
    coin := { sampleEnv.coin with activeTier := { startingDifficulty := 1 } }
    hashes :=
      { sha256d := fun _ => sampleHash
        scrypt := fun _ => lowHash } }

def sampleOpening : Opening where
  address := "miner".toList
  worker := "1".toList
  decoded :=
    { type := .p2pkh, network := .bitcoinMainnet, program := List.replicate 20 7,
      size := fits_sample }

/-- The event credits a share. -/
def creditedIn : Event → Bool
  | ⟨.countAccepted .., _⟩ => true
  | _ => false

/-- The event opens a channel under the id. -/
def opensIn (channelId : UInt32) : Event → Bool
  | ⟨.sendV2 (.openStandardSuccess msg), _⟩ => msg.channelId = channelId
  | ⟨.sendV2 (.openExtendedSuccess msg), _⟩ => msg.channelId = channelId
  | _ => false

theorem not_openedAs {w : World} {channelId : UInt32}
    (h : w.log.any (opensIn channelId) = false) : ¬ OpenedAs w channelId := by
  have hall := List.any_eq_false.mp h
  rintro (⟨msg, hm, hc⟩ | ⟨msg, hm, hc⟩) <;>
  · refine hall _ hm ?_
    simpa [opensIn] using hc

end MkPool.Channels
