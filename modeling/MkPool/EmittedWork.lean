import MkPool.JobIds
import MkPool.Published

/-! # The header that the messages of a job define

A Stratum V2 miner puts its header together from the last work message and the
last `SetNewPrevHash` of a job. The submit handlers rebuild theirs from the job
and the session, through hex text. Where the session still has the script and
the extranonce the work was sent with, both are the same eighty bytes. -/
namespace MkPool.EmittedWork
open MkPool.Lib MkPool.Lib.Interaction MkPool.Utils MkPool.Job MkPool.Coinbase MkPool.Merkle
open MkPool.Stratifier MkPool.Sv2Messages MkPool.Calls MkPool.ClientSession MkPool.StratumV2
open MkPool.Desk MkPool.Published

/-! ## What the messages define -/

def messageHeader (version : UInt32) (prevHash root : Hash256) (ntime nbits nonce : UInt32) :
    Bytes :=
  Wire.leBytes 4 version.toNat ++ prevHash.bytes ++ root.bytes ++ Wire.leBytes 4 ntime.toNat
    ++ Wire.leBytes 4 nbits.toNat ++ Wire.leBytes 4 nonce.toNat

/-- The header a miner hashes on a standard channel. -/
def standardHeader (m : NewMiningJob) (p : SetNewPrevHash) (msg : SubmitSharesStandard) : Bytes :=
  messageHeader msg.version p.prevHash m.merkleRoot msg.ntime p.nbits msg.nonce

/-- The root of an extended job: its coinbase folded over its path. -/
def extendedRoot (env : Env) (m : NewExtendedMiningJob) (extranoncePrefix extranonce : Bytes) :
    Hash256 :=
  m.merklePath.foldl (combine env.hashes)
    (env.hashes.sha256d
      (m.coinbaseTxPrefix ++ extranoncePrefix ++ extranonce ++ m.coinbaseTxSuffix))

/-- The header a miner hashes on an extended channel. -/
def extendedHeader (env : Env) (m : NewExtendedMiningJob) (p : SetNewPrevHash)
    (extranoncePrefix : Bytes) (msg : SubmitSharesExtended) : Bytes :=
  messageHeader msg.version p.prevHash (extendedRoot env m extranoncePrefix msg.extranonce)
    msg.ntime p.nbits msg.nonce

/-! ## Jobs that can be sent -/

/-- The previous hash and the bits are hex of their size. -/
structure Readable (job : MiningJob) : Prop where
  prevhash : (hexToBytes job.previousblockhash).map List.length = some 32
  bits : (hexToBytes job.bits).map List.length = some 4

/-- Moreover the branch is made of hashes. -/
structure WellFormed (job : MiningJob) : Prop extends Readable job where
  branch : ∃ path : List Hash256, job.merkleBranchLe = path.map fun h => bytesToHex h.bytes

/-- The `SetNewPrevHash` of a job. -/
structure PrevHashOf (job : MiningJob) (p : SetNewPrevHash) : Prop where
  jobId : p.jobId = emitIdU32 job.jobId
  prevHash : hexToBytes (byteReverseHex job.previousblockhash) = some p.prevHash.bytes
  nbits : p.nbits = nbitsOf job.bits

theorem branch_of_made {env : Env} {job : MiningJob} (h : Made env job) :
    ∃ path : List Hash256, job.merkleBranchLe = path.map fun h => bytesToHex h.bytes := by
  obtain ⟨gbt, draft, hd, hj⟩ := h
  obtain ⟨bt, _, hd⟩ := Option.bind_eq_some_iff.mp hd
  unfold draftJob at hd
  split at hd
  · cases hd
  · obtain ⟨coinbase1, _, hd⟩ := Option.bind_eq_some_iff.mp hd
    obtain ⟨branch, hbranch, hd⟩ := Option.bind_eq_some_iff.mp hd
    obtain ⟨txids, _, hb⟩ := Option.bind_eq_some_iff.mp hbranch
    cases hd
    cases hb
    rw [hj]
    exact ⟨_, rfl⟩

section Jobs

variable {env : Env} {s t : Session} {job : MiningJob}

theorem hash_of_hex {s : Str} (h : (hexToBytes s).map List.length = some 32) :
    ∃ hash : Hash256, hexToBytes s = some hash.bytes := by
  obtain ⟨bs, hbs, hlen⟩ := Option.map_eq_some_iff.mp h
  exact ⟨⟨bs, hlen⟩, hbs⟩

theorem hashOrZero_bytes (h : Hash256) : hashOrZero h.bytes = h := by
  unfold hashOrZero
  rw [dif_pos h.size]

theorem WellFormed.prevHash (wf : WellFormed job) : ∃ ph : Hash256,
    hexToBytes (byteReverseHex job.previousblockhash) = some ph.bytes := by
  obtain ⟨h, hh⟩ := hash_of_hex wf.prevhash
  exact ⟨h.reverse, hexToBytes_byteReverseHex hh⟩

/-- `SetNewPrevHash.nbits` is the number whose little-endian bytes the header
has. -/
theorem WellFormed.nbits (wf : WellFormed job) :
    hexToBytes (byteReverseHex job.bits) = some (Wire.leBytes 4 (nbitsOf job.bits).toNat) := by
  obtain ⟨bs, hbs, hlen⟩ := Option.map_eq_some_iff.mp wf.bits
  rw [hexToBytes_byteReverseHex hbs]
  unfold nbitsOf
  rw [hbs]
  have hlt := beValue_lt bs
  rw [hlen] at hlt
  obtain _ | ⟨b0, _ | ⟨b1, _ | ⟨b2, _ | ⟨b3, _ | ⟨_, _⟩⟩⟩⟩⟩ := bs <;> try cases hlen
  show _ = some (Wire.leBytes 4 (UInt32.ofNat _).toNat)
  rw [UInt32.toNat_ofNat', Nat.mod_eq_of_lt (by simpa using hlt),
    leBytes_beValue (n := 4) rfl]

theorem WellFormed.target (wf : WellFormed job) : ∃ target, targetFromBitsHex job.bits = some target := by
  obtain ⟨bs, hbs, _⟩ := Option.map_eq_some_iff.mp wf.bits
  unfold targetFromBitsHex
  split
  · exact ⟨_, rfl⟩
  · rw [hbs, Option.bind_eq_bind, Option.bind_some]
    refine Option.isSome_iff_exists.mp ?_
    dsimp only
    split <;> [rfl; split] <;> [rfl; split] <;> rfl

/-- A header of the right parts is read back, and a share made of it. -/
theorem hashShare_header {prevHash : Hash256} {prevhashHex : Str} (wf : WellFormed job)
    (hp : hexToBytes prevhashHex = some prevHash.bytes) (env : Env)
    (version ntime nonce : UInt32) (root : Hash256) (cbHex : Str) :
    ∃ sh, hashShare env (some job)
        (buildBlockHeader (leHexU32 version) prevhashHex (bytesToHex root.bytes) (leHexU32 ntime)
          (byteReverseHex job.bits) (leHexU32 nonce)) cbHex (byteReverseHex job.bits) = some sh ∧
      hexToBytes sh.headerHex =
        some (messageHeader version prevHash root ntime (nbitsOf job.bits) nonce) := by
  have hread : hexToBytes (buildBlockHeader (leHexU32 version) prevhashHex (bytesToHex root.bytes)
      (leHexU32 ntime) (byteReverseHex job.bits) (leHexU32 nonce)) =
        some (messageHeader version prevHash root ntime (nbitsOf job.bits) nonce) := by
    have h₁ := hexToBytes_append (hexToBytes_leHexU32 version) hp
    have h₂ := hexToBytes_append h₁ (hexToBytes_bytesToHex root.bytes)
    have h₃ := hexToBytes_append h₂ (hexToBytes_leHexU32 ntime)
    have h₄ := hexToBytes_append h₃ wf.nbits
    exact hexToBytes_append h₄ (hexToBytes_leHexU32 nonce)
  obtain ⟨target, ht⟩ := wf.target
  unfold hashShare
  rw [hread]
  dsimp only [Option.bind_eq_bind, Option.bind_some]
  rw [ht]
  exact ⟨_, rfl, hread⟩

/-! ## Standard work -/

/-- The root a submit rebuilds on a standard channel, and the root that is
sent: one text, as both are made of the same coinbase. -/
theorem emittedRoot_eq : emittedRoot env s job =
    (computeCoinbaseTxidLe env.hashes (standardCoinbase env s job)).bind fun cbTxidLe =>
      if env.coin.stratumV2EmptyBlocks then some cbTxidLe
      else computeRootLeHex env.hashes cbTxidLe job.merkleBranchLe := by
  unfold emittedRoot standardCoinbase
  split
  · exact (Option.bind_fun_some _).symm
  · rfl

theorem standardCoinbase_congr (hscript : t.workerScriptHex = s.workerScriptHex)
    (hextra : t.extranonce1 = s.extranonce1) :
    standardCoinbase env t job = standardCoinbase env s job := by
  unfold standardCoinbase
  rw [hscript, hextra]

/-- A root is the text of a hash. -/
theorem hash_of_emittedRoot {root : Str} (h : emittedRoot env s job = some root) :
    ∃ hash : Hash256, root = bytesToHex hash.bytes := by
  rw [emittedRoot_eq] at h
  obtain ⟨txid, htxid, h⟩ := Option.bind_eq_some_iff.mp h
  split at h
  · obtain ⟨_, _, he⟩ := Option.map_eq_some_iff.mp htxid
    exact ⟨_, (Option.some.inj h).symm.trans he.symm⟩
  · obtain ⟨_, _, h⟩ := Option.bind_eq_some_iff.mp h
    obtain ⟨_, _, h⟩ := Option.bind_eq_some_iff.mp h
    exact ⟨_, (Option.some.inj h).symm⟩

/-- **Standard shares are checked against the work that was sent.** -/
theorem rebuildStandard_header {m : NewMiningJob} {p : SetNewPrevHash} (wf : WellFormed job)
    (hscript : t.workerScriptHex = s.workerScriptHex) (hextra : t.extranonce1 = s.extranonce1)
    (hm : newMiningJob env t job = some m) (hp : PrevHashOf job p) (msg : SubmitSharesStandard) :
    ∃ sh, rebuildStandard env s job msg = some sh ∧
      hexToBytes sh.headerHex = some (standardHeader m p msg) := by
  obtain ⟨root, hroot, hm⟩ := Option.bind_eq_some_iff.mp hm
  obtain ⟨hash, rfl⟩ := hash_of_emittedRoot hroot
  rw [hexToBytes_bytesToHex] at hm
  obtain rfl := Option.some.inj hm
  rw [emittedRoot_eq, standardCoinbase_congr hscript hextra] at hroot
  obtain ⟨txid, htxid, hroot⟩ := Option.bind_eq_some_iff.mp hroot
  obtain ⟨sh, hsh, hread⟩ := hashShare_header wf hp.prevHash env msg.version msg.ntime msg.nonce
    hash (standardCoinbase env s job)
  refine ⟨sh, ?_, ?_⟩
  · unfold rebuildStandard
    dsimp only [Option.bind_eq_bind]
    rw [htxid, Option.bind_some]
    split at hroot
    · rename_i hempty
      rw [if_pos hempty, hroot]
      exact hsh
    · rename_i hempty
      rw [if_neg hempty, hroot]
      exact hsh
  · rw [hread, standardHeader, hp.nbits]
    show _ = some (messageHeader _ _ (hashOrZero hash.bytes) _ _ _)
    rw [hashOrZero_bytes]

/-! ## Extended work -/

theorem merklePathOf_hex (path : List Hash256) :
    merklePathOf (path.map fun h => bytesToHex h.bytes) = some path := by
  have hread : (path.map fun h => bytesToHex h.bytes).mapM hexToBytes =
      some (path.map Hash256.bytes) := by
    induction path with
    | nil => rfl
    | cons h path ih => simp [ih]
  have hall : (path.map Hash256.bytes).filterMap
      (fun b => if h : b.length = 32 then some (⟨b, h⟩ : Hash256) else none) = path := by
    clear hread
    induction path with
    | nil => rfl
    | cons h path ih =>
      rw [List.map_cons, List.filterMap_cons, dif_pos h.size]
      exact congrArg (h :: ·) ih
  unfold merklePathOf
  rw [hread]
  exact congrArg some hall

/-- **Extended shares are checked against the work that was sent.** -/
theorem rebuildExtended_header {m : NewExtendedMiningJob} {p : SetNewPrevHash}
    {extranoncePrefix : Bytes} (wf : WellFormed job)
    (hscript : t.workerScriptHex = s.workerScriptHex)
    (hextra : hexToBytes s.extranonce1 = some extranoncePrefix)
    (hm : newExtendedMiningJob env t job = some m) (hp : PrevHashOf job p)
    (msg : SubmitSharesExtended) :
    ∃ sh, rebuildExtended env s job msg = some sh ∧
      hexToBytes sh.headerHex = some (extendedHeader env m p extranoncePrefix msg) := by
  obtain ⟨path, hpath⟩ := wf.branch
  unfold newExtendedMiningJob at hm
  rw [hpath, merklePathOf_hex, hscript] at hm
  dsimp only [Option.bind_eq_bind, Option.bind_some] at hm
  obtain ⟨front, hfront, hm⟩ := Option.bind_eq_some_iff.mp hm
  obtain ⟨back, hback, hm⟩ := Option.bind_eq_some_iff.mp hm
  obtain rfl := Option.some.inj hm
  have hcb : hexToBytes (rebuildCoinbase job.coinbase1
      (buildSessionCoinbase2 env job s.workerScriptHex)
      (s.extranonce1 ++ bytesToHex msg.extranonce)) =
        some (front ++ (extranoncePrefix ++ msg.extranonce) ++ back) :=
    hexToBytes_append (hexToBytes_append hfront
      (hexToBytes_append hextra (hexToBytes_bytesToHex msg.extranonce))) hback
  obtain ⟨sh, hsh, hread⟩ := hashShare_header wf hp.prevHash env msg.version msg.ntime msg.nonce
    (path.foldl (combine env.hashes)
      (env.hashes.sha256d (front ++ (extranoncePrefix ++ msg.extranonce) ++ back)))
    (rebuildCoinbase job.coinbase1 (buildSessionCoinbase2 env job s.workerScriptHex)
      (s.extranonce1 ++ bytesToHex msg.extranonce))
  refine ⟨sh, ?_, ?_⟩
  · unfold rebuildExtended computeCoinbaseTxidLe
    dsimp only
    rw [hcb, hpath]
    dsimp only [Option.bind_eq_bind, Option.bind_some, Option.map_some]
    unfold computeRootLeHex
    rw [hashOfHex_bytesToHex, mapM_hashOfHex_bytesToHex]
    exact hsh
  · rw [hread, extendedHeader, extendedRoot, hp.nbits]
    simp only [List.append_assoc]

/-! ## Sending -/

/-- The work message of a job: extended when the channel is. -/
def workFor (env : Env) (s : Session) (job : MiningJob) : Option Reply :=
  if s.isExtendedChannel then (newExtendedMiningJob env s job).map .newExtendedMiningJob
  else (newMiningJob env s job).map .newMiningJob

theorem workFor_eq_none (hscript : t.workerScriptHex = s.workerScriptHex)
    (hextra : t.extranonce1 = s.extranonce1) (hext : t.isExtendedChannel = s.isExtendedChannel)
    (h : workFor env t job = none) : workFor env s job = none := by
  unfold workFor at h ⊢
  rw [hext] at h
  split at h
  · rename_i he
    rw [if_pos he]
    unfold newExtendedMiningJob at h ⊢
    rw [hscript] at h
    simp_all
  · rename_i he
    rw [if_neg he]
    have hroot : emittedRoot env t job = emittedRoot env s job := by
      rw [emittedRoot_eq, emittedRoot_eq, standardCoinbase_congr hscript hextra]
    unfold newMiningJob at h ⊢
    rw [hroot] at h
    simp_all

/-- **What an emission sends.** Nothing on a closed session or where the work
cannot be built, else the work and the previous hash. -/
theorem emitJobV2_run {w w' : World} {o : Outcome} (wf : WellFormed job)
    (run : desk.Exec (emitJobV2 env s job) w o w') :
    o.session = s ∧ (w' = w ∧ (s.closed = true ∨ workFor env s job = none) ∨
      ∃ r p, s.closed = false ∧ workFor env s job = some r ∧ PrevHashOf job p ∧
        w' = { w with log := ⟨.sendV2 (.setNewPrevHash p), ()⟩ :: ⟨.sendV2 r, ()⟩ :: w.log }) := by
  obtain ⟨ph, hph⟩ := wf.prevHash
  unfold emitJobV2 at run
  dsimp only at run
  cases hwork : workFor env s job with
  | none =>
    have hnone := hwork
    unfold workFor at hnone
    rw [hnone] at run
    obtain ⟨rfl, rfl⟩ := run.ret_inv
    exact ⟨rfl, .inl ⟨rfl, .inr rfl⟩⟩
  | some r =>
    have hsome := hwork
    unfold workFor at hsome
    rw [hsome] at run
    dsimp only at run
    rw [hph] at run
    cases hc : s.closed with
    | true =>
      simp only [sendV2, hc, if_true] at run
      obtain ⟨rfl, rfl⟩ := run.ret_inv
      exact ⟨rfl, .inl ⟨rfl, .inl rfl⟩⟩
    | false =>
      simp only [sendV2, hc] at run
      obtain ⟨_, w₁, hs₁, run⟩ := run.call_inv
      obtain ⟨_, w₂, hs₂, run⟩ := run.call_inv
      obtain ⟨rfl, rfl⟩ := run.ret_inv
      have h₁ := hs₁.world
      have h₂ := hs₂.world
      rw [show _ = _ from hs₁.strat] at h₁
      rw [show _ = _ from hs₂.strat] at h₂
      subst h₁ h₂
      exact ⟨rfl, .inr ⟨r, _, rfl, rfl, ⟨rfl, by rw [hashOrZero_bytes]; exact hph, rfl⟩, rfl⟩⟩

end Jobs

end MkPool.EmittedWork
