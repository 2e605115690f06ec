import MkPool.Validated
import MkPool.DbWorker

/-! # The hash a found block is recorded under

When the node takes a block, the callback of `asyncSubmitBlock` asks it to
prefer the block and stores a record. Both name the block by the hash the share
was scored by. The node knows it by the double SHA-256 of its header, which on
a scrypt chain is another hash. -/
namespace MkPool.BlockIdentity
open MkPool.Lib MkPool.Lib.Interaction MkPool.Utils MkPool.Config MkPool.Job MkPool.Coinbase
open MkPool.Sv2Messages MkPool.Calls MkPool.ClientSession MkPool.JsonValue MkPool.Tasks
open MkPool.Submit MkPool.StratumV2 MkPool.Desk MkPool.ShareWatch MkPool.WorkAgreement
open MkPool.Validated MkPool.DbWorker MkPool.Play

/-! ## The callback -/

/-- How `submitblock` ends: a transport error, an error of the node, or a result,
with the reason of a soft one. -/
inductive SubmitReply where
  | rpcError
  | rejected
  | taken (softResult : Option Str)
deriving DecidableEq

/-- What the callback does: `mark_block_precious` and `enqueue_block`. -/
inductive Notice where
  | preciousBlock (blockHash : Str)
  | enqueueBlock (rec : BlockRecord)

/-- The hash a notice names the block by. -/
def Notice.blockHash : Notice → Str
  | .preciousBlock h => h
  | .enqueueBlock rec => rec.blockHash

/-- The callback of `asyncSubmitBlock`, one in each submit function. -/
def onSubmitReply (env : Env) (rec : BlockRecord) : SubmitReply → List Notice
  | .rpcError | .rejected => []
  | .taken _ =>
    (if env.coin.chain ≠ .zcash then [.preciousBlock rec.blockHash] else [])
      ++ [.enqueueBlock rec]

/-- The record `submit_block_candidate` captures. -/
def candidateRecord (env : Env) (minerId : Int) (sh : Share) : BlockRecord where
  height := sh.job.height
  blockHash := sh.hashHex
  minerId := minerId
  difficulty := sh.diff env
  rewardValue := sh.job.coinbaseValue

/-- The record `submit_block_sv2` captures. -/
def sv2Record (env : Env) (minerId : Int) (sh : ShareV2) : BlockRecord where
  height := (sh.job.map (·.height)).getD 0
  blockHash := sh.hashHex
  minerId := minerId
  difficulty := sh.diff env
  rewardValue := 0

/-- `full_header_hex`: on Zcash the solution follows the header. -/
def fullHeader (env : Env) (sh : Share) : Str :=
  if env.coin.chain = .zcash then sh.headerHex ++ "fd4005".toList ++ sh.sub.solutionS
  else sh.headerHex

/-- A block that a task hands to the node, with the record that is captured and
the header the block starts with. -/
inductive Handed (env : Env) (d : DeskState) :
    Task → BlockSubmission → BlockRecord → Str → Prop where
  | line {msg : Json} {sh : Share} {b : BlockSubmission}
      (share : checkedLine env d msg = some sh) (block : b.block = candidateBlock env sh)
      (hash : b.hash = sh.hash) :
      Handed env d (.line (some msg)) b (candidateRecord env b.minerId sh) (fullHeader env sh)
  | standard {msg : SubmitSharesStandard} {sh : ShareV2} {b : BlockSubmission}
      (share : rebuiltStandard env d msg = some sh)
      (block : b.block = sv2Block sh env.coin.stratumV2EmptyBlocks) (hash : b.hash = sh.hash) :
      Handed env d (.message (.submitSharesStandard msg)) b (sv2Record env b.minerId sh)
        sh.headerHex
  | extended {msg : SubmitSharesExtended} {job : MiningJob} {sh : ShareV2} {b : BlockSubmission}
      (named : namedJob d.world.strat.jobs msg.jobId = some job)
      (share : rebuildExtended env d.session job msg = some sh)
      (block : b.block = sv2Block sh false) (hash : b.hash = sh.hash) :
      Handed env d (.message (.submitSharesExtended msg)) b (sv2Record env b.minerId sh)
        sh.headerHex

/-- The task hands the block to the node. -/
def HandsOver (d d' : DeskState) (b : BlockSubmission) : Prop :=
  ∃ evs, d'.world.log = evs ++ d.world.log ∧ (⟨.submitBlock b, ()⟩ : Event) ∈ evs

/-! ## The identifier -/

/-- The identifier of a block, from the text of its header: the double SHA-256
as it is displayed. -/
def blockId (env : Env) (header : Str) : Option Str :=
  (hexToBytes header).map fun bs => bytesToHex (env.hashes.sha256d bs).reverse.bytes

/-- **Where the two hashes are one.** The chain is not a scrypt chain, or the
hashes agree on the header. -/
def SameHash (env : Env) (header : Str) : Prop :=
  env.coin.chain.isScrypt = true → ∀ bs, hexToBytes header = some bs →
    env.hashes.scrypt bs = env.hashes.sha256d bs

/-- Whatever the node replies, the callback names the block by its identifier. -/
def NamesBlock (env : Env) (rec : BlockRecord) (header : Str) : Prop :=
  ∀ reply, ∀ n ∈ onSubmitReply env rec reply, blockId env header = some n.blockHash

section Names

variable {env : Env} {rec : BlockRecord} {header : Str}

/-- All notices name the block by the record's hash, and there is one. -/
theorem namesBlock_iff : NamesBlock env rec header ↔ blockId env header = some rec.blockHash := by
  constructor
  · intro h
    exact h (.taken none) (.enqueueBlock rec) (List.mem_append_right _ List.mem_cons_self)
  · intro h reply n hn
    cases reply with
    | rpcError | rejected => cases hn
    | taken softResult =>
      rcases List.mem_append.mp hn with hn | hn
      · split at hn
        · rw [List.mem_singleton.mp hn]
          exact h
        · cases hn
      · rw [List.mem_singleton.mp hn]
        exact h

theorem reverse_injective {a b : Hash256} (h : a.reverse = b.reverse) : a = b := by
  refine Hash256.ext_bytes (List.reverse_injective ?_)
  have hb := congrArg Hash256.bytes h
  exact hb

/-- The record of a hash that was scored. -/
theorem blockId_iff {bs : Bytes} (hread : hexToBytes header = some bs)
    (hrec : rec.blockHash = bytesToHex (headerHash env bs).bytes) :
    blockId env header = some rec.blockHash ↔ SameHash env header := by
  unfold blockId
  rw [hread, Option.map_some, Option.some.injEq, hrec]
  unfold headerHash SameHash
  constructor
  · intro he hscrypt bs' hbs'
    obtain rfl := Option.some.inj (hread.symm.trans hbs')
    rw [if_pos hscrypt] at he
    exact (reverse_injective (Hash256.ext_bytes (Hex.encode_injective he))).symm
  · intro h
    split
    · rename_i hscrypt
      rw [h hscrypt bs hread]
    · rfl

end Names

section Blocks

variable {env : Env} {d : DeskState} {t : Task} {b : BlockSubmission} {rec : BlockRecord}
  {header : Str}

/-- A block starts with its header. -/
theorem header_prefix (headerHex cbHex : Str) (txs : List Str) (rest : Str) :
    headerHex <+: assembleFullBlock headerHex cbHex txs ++ rest := by
  unfold assembleFullBlock
  exact (((List.prefix_append _ _).trans (List.prefix_append _ _)).trans
    (List.prefix_append _ _)).trans (List.prefix_append _ _)

theorem header_prefix_sv2 {sh : ShareV2} {emptyBlock : Bool} :
    sh.headerHex <+: sv2Block sh emptyBlock := by
  unfold sv2Block
  split
  · have h := header_prefix sh.headerHex sh.cbHex [] []
    rwa [List.append_nil] at h
  · split <;> exact header_prefix _ _ _ _

theorem Handed.starts (h : Handed env d t b rec header) : header <+: b.block := by
  cases h with
  | line _ block _ =>
    rw [block]
    exact header_prefix _ _ _ _
  | standard _ block _ | extended _ _ block _ =>
    rw [block]
    exact header_prefix_sv2

/-- The header that was hashed is that of the block. -/
theorem fullHeader_bytes {sh : Share} {headerBytes solution : Bytes}
    (hheader : hexToBytes sh.headerHex = some headerBytes)
    (hsolution : hexToBytes sh.sub.solutionS = some solution) :
    hexToBytes (fullHeader env sh) = some (hashedBytes env headerBytes solution) := by
  unfold fullHeader hashedBytes
  split
  · have hmark : hexToBytes "fd4005".toList = some [0xfd, 0x40, 0x05] := by decide
    exact hexToBytes_append (hexToBytes_append hheader hmark) hsolution
  · exact hheader

theorem rebuiltStandard_hash {msg : SubmitSharesStandard} {sh : ShareV2}
    (h : rebuiltStandard env d msg = some sh) :
    ∃ bs, hexToBytes sh.headerHex = some bs ∧ sh.hash = headerHash env bs := by
  unfold rebuiltStandard at h
  split at h
  · obtain ⟨_, _, hfrom⟩ := custom_hashed h
    rw [hfrom.header]
    exact hfrom.hash
  · obtain ⟨job, _, h⟩ := Option.bind_eq_some_iff.mp h
    obtain ⟨_, hfrom⟩ := standard_hashed h
    rw [hfrom.header]
    exact hfrom.hash

/-- The record has the hash the header was scored by. -/
theorem Handed.scored (h : Handed env d t b rec header) :
    ∃ bs, hexToBytes header = some bs ∧ rec.blockHash = bytesToHex (headerHash env bs).bytes := by
  cases h with
  | @line msg sh b share _ _ =>
    obtain ⟨sub, _, _, _, _, hfrom⟩ := line_rebuilt share
    obtain ⟨headerBytes, solution, hheader, hsolution, hhash⟩ := hfrom.hash
    rw [← hfrom.ofSub] at hsolution
    exact ⟨_, fullHeader_bytes hheader hsolution, by rw [← hhash]; rfl⟩
  | standard share _ _ =>
    obtain ⟨bs, hread, hhash⟩ := rebuiltStandard_hash share
    exact ⟨bs, hread, by rw [← hhash]; rfl⟩
  | extended _ share _ _ =>
    obtain ⟨_, hfrom⟩ := extended_hashed share
    obtain ⟨bs, hread, hhash⟩ := hfrom.hash
    exact ⟨bs, hfrom.header ▸ hread, by rw [← hhash]; rfl⟩

/-- A block handed over is the one of the share the task is checked as. -/
theorem handed_of_step {d' : DeskState} {readings : Set ℚ} (hs : Step env d (.task t readings) d')
    (h : HandsOver d d' b) : ∃ rec header, Handed env d t b rec header := by
  obtain ⟨evs, hlog, he⟩ := h
  cases hs with
  | @task s w w' _ _ o offered run =>
    obtain ⟨evs', hlog', hevs⟩ := task_about run
    obtain rfl : evs = evs' := List.append_cancel_right (hlog.symm.trans hlog')
    obtain ⟨c, hc, hblock, hhash⟩ := hevs _ he
    have hc : checked env ⟨s, w⟩ t = some c := hc
    cases t with
    | line l =>
      cases l with
      | none => cases hc
      | some msg =>
        obtain ⟨sh, hsh, rfl⟩ := Option.map_eq_some_iff.mp hc
        exact ⟨_, _, .line hsh hblock hhash⟩
    | message msg =>
      cases msg with
      | submitSharesStandard msg =>
        obtain ⟨_, _, hc⟩ := Option.bind_eq_some_iff.mp hc
        obtain ⟨sh, hsh, hc⟩ := Option.bind_eq_some_iff.mp hc
        cases hc
        exact ⟨_, _, .standard hsh hblock hhash⟩
      | submitSharesExtended msg =>
        obtain ⟨job, hjob, hc⟩ := Option.bind_eq_some_iff.mp hc
        obtain ⟨sh, hsh, hc⟩ := Option.bind_eq_some_iff.mp hc
        cases hc
        exact ⟨_, _, .extended hjob hsh hblock hhash⟩
      | _ => cases hc
    | _ => cases hc

theorem Handed.names_iff (h : Handed env d t b rec header) :
    NamesBlock env rec header ↔ SameHash env header := by
  obtain ⟨bs, hread, hrec⟩ := h.scored
  rw [namesBlock_iff, blockId_iff hread hrec]

end Blocks

/-- **Which blocks are recorded under their own hash.** A block that a session
hands to the node is one of a share it checked. Its callback names it by the
identifier of its header exactly when scoring and identifying hash that header
alike. -/
theorem recorded_hash_iff (env : Env) (d d' : DeskState) (t : Task) (readings : Set ℚ)
    (b : BlockSubmission) (hs : Step env d (.task t readings) d') (hb : HandsOver d d' b) :
    (∃ rec header, Handed env d t b rec header) ∧
      ∀ rec header, Handed env d t b rec header →
        header <+: b.block ∧ (NamesBlock env rec header ↔ SameHash env header) :=
  ⟨handed_of_step hs hb, fun _ _ h => ⟨h.starts, h.names_iff⟩⟩

/-! ## Two blocks -/

/-- The event hands a block to the node. -/
def submitsIn : Event → Bool
  | ⟨.submitBlock _, _⟩ => true
  | _ => false

theorem handsOver_of_step {env : Env} {d d' : DeskState} {i : Desk.Input} (hs : Step env d i d')
    (hbefore : d.world.log.any submitsIn = false) (hafter : d'.world.log.any submitsIn = true) :
    ∃ b, HandsOver d d' b := by
  obtain ⟨evs, hlog⟩ := log_of_step hs
  rw [hlog] at hafter
  obtain ⟨⟨c, x⟩, he, hsub⟩ := List.any_eq_true.mp hafter
  rcases List.mem_append.mp he with he | he
  · cases c with
    | submitBlock b => exact ⟨b, evs, hlog, he⟩
    | _ => cases hsub
  · exact absurd hsub (List.any_eq_false.mp hbefore _ he)

/-- A pool where every header has the hash zero, on some chain. -/
def luckyPool (chain : ChainKind) : Env :=
  { easyPool with
    coin := { easyPool.coin with chain := chain }
    hashes :=
      { sha256d := fun _ => if chain.isScrypt then sampleHash else .zero
        scrypt := fun _ => .zero } }

/-- The first share of a V1 miner is a block. -/
theorem first_share_handed (chain : ChainKind)
    (h : (play (luckyPool chain) anyMove (start (luckyPool chain) false)
      (minerJoins ++ firstJob)).any (fun d => !d.world.log.any submitsIn &&
        (((Move.line firstShare).input usual d).bind (perform (luckyPool chain) usual d)).any
          fun d' => d'.world.log.any submitsIn) = true) :
    ∃ (d d' : DeskState) (t : Task) (readings : Set ℚ) (b : BlockSubmission),
      Reach (luckyPool chain) false (fun _ _ => True) d ∧
        Step (luckyPool chain) d (.task t readings) d' ∧ HandsOver d d' b := by
  obtain ⟨d, hd, hx⟩ := (Option.any_eq_true _ _).mp h
  simp only [Bool.and_eq_true, Option.any_eq_true, Bool.not_eq_true'] at hx
  obtain ⟨hbefore, d', hd', hafter⟩ := hx
  obtain ⟨i, hi, hd'⟩ := Option.bind_eq_some_iff.mp hd'
  have hs := step_of_perform hi hd'
  obtain ⟨t, readings, rfl⟩ := Move.task_of_line hi
  obtain ⟨b, hb⟩ := handsOver_of_step hs hbefore hafter
  exact ⟨d, d', t, readings, b, reach_of_play _ (fun _ _ _ _ _ _ => trivial) reach_start hd, hs, hb⟩

/-- On a chain that is not a scrypt chain the block is recorded as itself. -/
theorem recorded_hash_on_bitcoin :
    ∃ (d : DeskState) (t : Task) (b : BlockSubmission) (rec : BlockRecord) (header : Str),
      Handed (luckyPool .bitcoin) d t b rec header ∧ header <+: b.block ∧
        NamesBlock (luckyPool .bitcoin) rec header := by
  obtain ⟨d, d', t, readings, b, _, hs, hb⟩ := first_share_handed .bitcoin (by decide +kernel)
  obtain ⟨⟨rec, header, hh⟩, hall⟩ := recorded_hash_iff _ d d' t readings b hs hb
  obtain ⟨hstarts, hiff⟩ := hall rec header hh
  exact ⟨d, t, b, rec, header, hh, hstarts, hiff.mpr fun hscrypt => absurd hscrypt (by decide)⟩

/-- **A Litecoin block under another hash.** The node does not know the block by
the hash that `preciousblock` and the record name. -/
theorem scrypt_block_misnamed :
    ∃ (env : Env) (d d' : DeskState) (t : Task) (readings : Set ℚ) (b : BlockSubmission)
      (rec : BlockRecord) (header : Str),
      Reach env false (fun _ _ => True) d ∧ Step env d (.task t readings) d' ∧ HandsOver d d' b ∧
        Handed env d t b rec header ∧ ¬ NamesBlock env rec header := by
  obtain ⟨d, d', t, readings, b, hreach, hs, hb⟩ :=
    first_share_handed .litecoin (by decide +kernel)
  obtain ⟨rec, header, hh⟩ := handed_of_step hs hb
  refine ⟨_, d, d', t, readings, b, rec, header, hreach, hs, hb, hh, fun hnames => ?_⟩
  obtain ⟨bs, hread, _⟩ := hh.scored
  have hsame : Hash256.zero = sampleHash := hh.names_iff.mp hnames (by decide) bs hread
  exact absurd hsame (by decide)

end MkPool.BlockIdentity
