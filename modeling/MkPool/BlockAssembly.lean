import MkPool.BlockText
import MkPool.ValidCoinbase
import MkPool.BlockIdentity

/-! # The block of a share

A solved share becomes a block: the header that was hashed, the coinbase with a
witness put in, the transactions of the template, and on Litecoin the MWEB body.
The root was computed from the branch of the job, before any coinbase existed. -/
namespace MkPool.BlockAssembly
open MkPool.Lib MkPool.Lib.Interaction MkPool.Lib.Transaction MkPool.Lib.Blocks MkPool.Utils
open MkPool.Config MkPool.Job MkPool.Coinbase MkPool.Stratifier MkPool.Sv2Messages MkPool.Calls
open MkPool.ClientSession MkPool.JsonValue MkPool.Tasks MkPool.Submit MkPool.StratumV2 MkPool.Desk
open MkPool.ShareWatch MkPool.WorkAgreement MkPool.Validated MkPool.CoinbaseLayout MkPool.Payouts
open MkPool.PaidSessions MkPool.ValidCoinbase MkPool.BlockIdentity MkPool.BlockText MkPool.Play

/-! ## What the node lists -/

/-- The identifier of a transaction: the hash of its text without witnesses. -/
def txid (H : Hashes) (t : WitnessTx) : Hash256 := H.sha256d (tx.write t.tx)

/-- The entry of a template is this transaction, under its identifier. -/
def ListedAs (H : Hashes) (l : BlockTemplateTx) (t : WitnessTx) : Prop :=
  (∃ bs, hexToBytes l.data = some bs ∧ witnessTx.whole bs = some t) ∧
    Merkle.hashOfHex l.txidLe = some (txid H t)

/-- **What the node is trusted with.** It lists transactions under their
identifiers, and its hashes, its bits and its MWEB body are hex of their size. -/
structure Honest (H : Hashes) (bt : BlockTemplate) : Prop where
  listed : ∀ l ∈ bt.transactions, ∃ t, ListedAs H l t
  few : bt.transactions.length + 1 < 2 ^ 64
  prevhash : bt.previousblockhash.length = 64
  bits : bt.bits.length = 8
  mweb : hexToBytes bt.mweb ≠ none

/-- The templates of a run come from such a node. -/
def FromNode (env : Env) (_ : DeskState) : Desk.Input → Prop
  | .work gbt _ => ∀ bt, parseTemplate gbt = some bt → Honest env.hashes bt
  | _ => True

/-- What a job has of its template, as far as its blocks go: the transactions,
their branch, and the texts of a header. -/
structure Carries (env : Env) (job : MiningJob) (txs : List WitnessTx) : Prop where
  texts : job.txHexes.mapM hexToBytes = some (txs.map witnessTx.write)
  fits : ∀ t ∈ txs, witnessTx.Fits t
  few : job.txHexes.length + 1 < 2 ^ 64
  branch : job.merkleBranchLe = (MerkleTree.branch (Merkle.combine env.hashes)
    (txs.map (txid env.hashes))).map fun h => bytesToHex h.bytes
  prevhash : job.previousblockhash.length = 64
  bits : job.bits.length = 8
  mweb : ∃ bs, hexToBytes job.mweb = some bs

/-- The entries of a template as transactions. -/
theorem listed_read {H : Hashes} {ls : List BlockTemplateTx} (h : ∀ l ∈ ls, ∃ t, ListedAs H l t) :
    ∃ txs : List WitnessTx, (ls.map (·.data)).mapM hexToBytes = some (txs.map witnessTx.write) ∧
      (∀ t ∈ txs, witnessTx.Fits t) ∧
        (ls.map (·.txidLe)).mapM Merkle.hashOfHex = some (txs.map (txid H)) := by
  induction ls with
  | nil => exact ⟨[], rfl, fun t ht => (by cases ht), rfl⟩
  | cons l ls ih =>
    obtain ⟨t, ⟨bs, hbs, hwhole⟩, hid⟩ := h l List.mem_cons_self
    obtain ⟨txs, htexts, hfits, hids⟩ := ih fun l' hl' => h l' (List.mem_cons_of_mem _ hl')
    obtain ⟨hfit, rfl⟩ := witnessTx.whole_eq_some.mp hwhole
    refine ⟨t :: txs, ?_, fun t' ht' => ?_, ?_⟩
    · simp only [List.map_cons, List.mapM_cons, hbs, htexts]
      rfl
    · rcases List.mem_cons.mp ht' with rfl | ht'
      · exact hfit
      · exact hfits t' ht'
    · simp only [List.map_cons, List.mapM_cons, hid, hids]
      rfl

theorem carries_of_draft {env : Env} {bt : BlockTemplate} {draft : MiningJob}
    (hbt : Honest env.hashes bt) (h : draftJob env.coin env.hashes bt = some draft) :
    ∃ txs, Carries env draft txs := by
  obtain ⟨txs, htexts, hfits, hids⟩ := listed_read hbt.listed
  unfold draftJob at h
  split at h
  · cases h
  · obtain ⟨coinbase1, _, h⟩ := Option.bind_eq_some_iff.mp h
    obtain ⟨branch, hbranch, h⟩ := Option.bind_eq_some_iff.mp h
    cases h
    have he := hbranch.symm.trans (Merkle.buildBranchLeHex_eq hids)
    refine ⟨txs, htexts, hfits, ?_, Option.some.inj he, hbt.prevhash, hbt.bits,
      Option.ne_none_iff_exists'.mp hbt.mweb⟩
    show (bt.transactions.map (·.data)).length + 1 < 2 ^ 64
    rw [List.length_map]
    exact hbt.few

/-- The jobs of the window carry the transactions of their templates. -/
theorem carries_of_window {env : Env} {isV2 : Bool} {d : DeskState}
    (h : Reach env isV2 (FromNode env) d) {job : MiningJob} (hj : job ∈ d.world.strat.jobs.jobs) :
    ∃ txs, Carries env job txs := by
  obtain ⟨_, gbt, _, w, hnode, hof⟩ := made_of_window h job hj
  obtain ⟨draft, hd, rfl⟩ := Option.map_eq_some_iff.mp hof
  obtain ⟨bt, hbt, hd⟩ := Option.bind_eq_some_iff.mp hd
  obtain ⟨txs, hc⟩ := carries_of_draft (hnode bt hbt) hd
  exact ⟨txs, hc.texts, hc.fits, hc.few, hc.branch, hc.prevhash, hc.bits, hc.mweb⟩

/-! ## Blocks of shares -/

/-- What is listed for the block: all of it, or nothing when the block is empty. -/
def listed {α : Type} (full : Bool) (xs : List α) : List α := if full then xs else []

/-- The MWEB body that follows a block: where the job has one, and the block its
transactions. -/
def mwebText (job : MiningJob) (full : Bool) : Str :=
  if full ∧ ¬ job.mweb.isEmpty = true then "01".toList ++ job.mweb else []

/-- **The block as it should be.** It is read as the header that was hashed, the
coinbase that was hashed, and the transactions of the template; the root is that
of all of them, and what follows is the MWEB body. -/
structure BlockOf (env : Env) (job : MiningJob) (full : Bool) (c : Checked) (blk : Block)
    (more : Bytes) : Prop where
  read : ∃ bs, hexToBytes c.block = some bs ∧ block.read bs = some (blk, more)
  header : hexToBytes c.headerHex = some (header.write blk.header) ∧
    c.hash = headerHash env (header.write blk.header)
  txs : ∃ first others, blk.txs = first :: others ∧
    hexToBytes c.cbHex = some (tx.write first.tx) ∧
      (listed full job.txHexes).mapM hexToBytes = some (others.map witnessTx.write)
  root : (MerkleTree.levelRoot (Merkle.combine env.hashes)
    (blk.txs.map (txid env.hashes))).map (·.bytes) = some blk.header.root
  mweb : hexToBytes (mwebText job full) = some more

def WellAssembled (env : Env) (job : MiningJob) (full : Bool) (c : Checked) : Prop :=
  ∃ blk more, BlockOf env job full c blk more

/-- A share whose coinbase is the bytes `cb`, as its handler rebuilt it: the
header, the root in it, and the text of the block. -/
structure RebuiltBlock (env : Env) (job : MiningJob) (full : Bool) (txs : List WitnessTx)
    (c : Checked) (cb : Bytes) : Prop where
  coinbase : hexToBytes c.cbHex = some cb
  oneInput : ∀ t, tx.whole cb = some t → t.inputs.length = 1
  header : ∃ hd, header.Fits hd ∧ hexToBytes c.headerHex = some (header.write hd) ∧
    c.hash = headerHash env (header.write hd) ∧
      hd.root = (MerkleTree.root (Merkle.combine env.hashes) (env.hashes.sha256d cb)
        (listed full (txs.map (txid env.hashes)))).bytes
  block : c.block = assembleFullBlock c.headerHex
      (if full && job.segwitActive then segwitifyCoinbase c.cbHex else c.cbHex)
      (listed full job.txHexes)
    ++ (if job.mweb.isEmpty then [] else "01".toList ++ job.mweb)

section Blocks

variable {env : Env} {job : MiningJob} {full : Bool} {txs : List WitnessTx} {c : Checked} {cb : Bytes}

/-- The coinbase with its witness, as a block has it. -/
theorem first_read (h : RebuiltBlock env job full txs c cb) {t : Tx} (ht : tx.whole cb = some t) :
    ∃ first : WitnessTx, first.tx = t ∧ witnessTx.Fits first ∧
      hexToBytes (if full && job.segwitActive then segwitifyCoinbase c.cbHex else c.cbHex) =
        some (witnessTx.write first) := by
  have hone := h.oneInput t ht
  obtain ⟨hfits, hcb⟩ := tx.whole_eq_some.mp ht
  have hread := h.coinbase
  rw [hcb] at hread
  split
  · exact ⟨⟨t, some reservedValue⟩, rfl, fits_reservedValue hfits hone, segwitify_read hread⟩
  · refine ⟨⟨t, none⟩, rfl, fits_bare hfits (List.ne_nil_of_length_pos (by omega)), ?_⟩
    rw [write_bare]
    exact hread

theorem listed_texts (hc : Carries env job txs) :
    (listed full job.txHexes).mapM hexToBytes = some ((listed full txs).map witnessTx.write) ∧
      (∀ t ∈ listed full txs, witnessTx.Fits t) ∧
        (listed full job.txHexes).length + 1 < 2 ^ 64 := by
  cases full with
  | true => exact ⟨hc.texts, hc.fits, hc.few⟩
  | false => exact ⟨rfl, fun t ht => (by cases ht), Nat.one_lt_two_pow (by decide)⟩

/-- A block whose coinbase is a transaction is read up to the MWEB text. -/
theorem block_read (hc : Carries env job txs) (h : RebuiltBlock env job full txs c cb) {t : Tx}
    (ht : tx.whole cb = some t) :
    ∃ blk bs more, hexToBytes c.block = some bs ∧ block.read bs = some (blk, more) ∧
      hexToBytes (if job.mweb.isEmpty then [] else "01".toList ++ job.mweb) = some more ∧
        (hexToBytes (mwebText job full) = some more → BlockOf env job full c blk more) := by
  obtain ⟨first, hfirst, hfitsFirst, hreadFirst⟩ := first_read h ht
  obtain ⟨hd, hfitsHd, hheader, hhash, hroot⟩ := h.header
  obtain ⟨htexts, hfitsTxs, hfew⟩ := @listed_texts _ _ full _ hc
  have hlen := (flatten_read htexts).1
  rw [List.length_map] at hlen
  let blk : Block := ⟨hd, first :: listed full txs⟩
  have hfits : block.Fits blk := by
    refine fits_block.mpr ⟨hfitsHd, ?_, fun t ht => ?_⟩
    · show (first :: listed full txs).length < 2 ^ 64
      rw [List.length_cons]
      omega
    · rcases List.mem_cons.mp ht with rfl | ht
      · exact hfitsFirst
      · exact hfitsTxs t ht
  obtain ⟨more, hmore⟩ : ∃ more,
      hexToBytes (if job.mweb.isEmpty then [] else "01".toList ++ job.mweb) = some more := by
    split
    · exact ⟨[], rfl⟩
    · obtain ⟨bs, hbs⟩ := hc.mweb
      have hone : hexToBytes "01".toList = some [1] := by decide
      exact ⟨_, hexToBytes_append hone hbs⟩
  have hread : hexToBytes c.block = some (block.write blk ++ more) := by
    rw [h.block]
    exact hexToBytes_append (assembled_read hheader hreadFirst htexts hfew) hmore
  refine ⟨blk, _, more, hread, block.read_write hfits more, hmore, fun hmweb => ?_⟩
  have hcoinbase : hexToBytes c.cbHex = some (tx.write first.tx) := by
    rw [hfirst, ← (tx.whole_eq_some.mp ht).2]
    exact h.coinbase
  refine ⟨⟨_, hread, block.read_write hfits more⟩, ⟨hheader, hhash⟩,
    ⟨first, listed full txs, rfl, hcoinbase, htexts⟩, ?_, hmweb⟩
  have hid : txid env.hashes first = env.hashes.sha256d cb := by
    rw [txid, hfirst, ← (tx.whole_eq_some.mp ht).2]
  show (MerkleTree.levelRoot _ (txid env.hashes first :: (listed full txs).map _)).map _ = some hd.root
  rw [MerkleTree.levelRoot_cons, Option.map_some, hroot, hid]
  cases full <;> rfl

/-- The MWEB text that is appended is the one that should be, unless it follows
an empty block. -/
theorem mweb_iff (hc : Carries env job txs) {more : Bytes}
    (h : hexToBytes (if job.mweb.isEmpty then [] else "01".toList ++ job.mweb) = some more) :
    hexToBytes (mwebText job full) = some more ↔ full = true ∨ job.mweb = [] := by
  unfold mwebText
  by_cases hempty : job.mweb = []
  · simp only [hempty, List.isEmpty_nil, if_true] at h ⊢
    simp [h]
  · have hfalse : job.mweb.isEmpty = false := by
      cases hm : job.mweb with
      | nil => exact absurd hm hempty
      | cons _ _ => rfl
    rw [hfalse] at h ⊢
    cases full with
    | true => simpa using h
    | false =>
      obtain ⟨bs, hbs⟩ := hc.mweb
      have hone : hexToBytes "01".toList = some [1] := by decide
      obtain rfl := Option.some.inj (h.symm.trans (hexToBytes_append hone hbs))
      simp [hempty, hexToBytes]

/-- The first transaction of a block can be written without its witness. -/
theorem fits_tx_of_witness {t : WitnessTx} (h : witnessTx.Fits t) : tx.Fits t.tx := by
  obtain ⟨t, w⟩ := t
  cases w with
  | none =>
    obtain ⟨_, hversion, ⟨hin, _⟩, hout, hlock⟩ := h
    exact fits_tx.mpr ⟨Codec.fits_le.mp hversion, Codec.fits_counted.mp hin,
      Codec.fits_counted.mp hout, Codec.fits_le.mp hlock⟩
  | some w =>
    obtain ⟨_, hversion, _, ⟨⟨hin, hout⟩, _⟩, hlock⟩ := h
    exact fits_tx.mpr ⟨Codec.fits_le.mp hversion, Codec.fits_counted.mp hin,
      Codec.fits_counted.mp hout, Codec.fits_le.mp hlock⟩

/-- **Which blocks are well assembled.** Those whose coinbase is a transaction,
and that leave the MWEB body of the template to full blocks. -/
theorem wellAssembled_iff (hc : Carries env job txs) (h : RebuiltBlock env job full txs c cb) :
    WellAssembled env job full c ↔
      (∃ t, tx.whole cb = some t) ∧ (full = true ∨ job.mweb = []) := by
  constructor
  · rintro ⟨blk, more, hb⟩
    obtain ⟨bs, hbs, hread⟩ := hb.read
    obtain ⟨first, others, htxs, hcoinbase, _⟩ := hb.txs
    obtain ⟨hfits, _⟩ := (block.read_iff _ _ _).mp hread
    have hfirst : witnessTx.Fits first :=
      (fits_block.mp hfits).2.2 first (by rw [htxs]; exact List.mem_cons_self)
    have ht : tx.whole cb = some first.tx :=
      tx.whole_eq_some.mpr ⟨fits_tx_of_witness hfirst,
        Option.some.inj (h.coinbase.symm.trans hcoinbase)⟩
    obtain ⟨_, bs', more', hbs', hread', hmore', _⟩ := block_read hc h ht
    obtain rfl := Option.some.inj (hbs.symm.trans hbs')
    obtain ⟨rfl, rfl⟩ := Prod.mk.inj (Option.some.inj (hread.symm.trans hread'))
    exact ⟨⟨_, ht⟩, (mweb_iff hc hmore').mp hb.mweb⟩
  · rintro ⟨⟨t, ht⟩, hfull⟩
    obtain ⟨blk, _, more, _, _, hmore, hblock⟩ := block_read hc h ht
    exact ⟨blk, more, hblock ((mweb_iff hc hmore).mpr hfull)⟩

end Blocks

/-! ## Coinbases that are transactions -/

/-- A coinbase by its halves is a transaction when what follows the twelve bytes
of its script ends one. -/
theorem whole_halves_iff {cb1 cb2 en cbHex : Str} {front extra tail : Bytes}
    (h : Halves cb1 cb2 en cbHex front extra tail) :
    (∃ t, tx.whole (upToExtranonce 12 front ++ (extra ++ tail)) = some t) ↔
      IsRest ((extra ++ tail).drop 12) := by
  have hdrop : (front ++ (extra ++ tail)).drop (front.length + 12) = (extra ++ tail).drop 12 :=
    List.drop_length_add_append 12
  rw [Halves.text, List.append_assoc front, whole_iff (by decide) h.small, hdrop]
  refine ⟨fun hrest => hrest.2, fun hrest => ⟨?_, hrest⟩⟩
  rw [List.length_append]
  by_contra hshort
  rw [List.drop_eq_nil_of_le (by omega)] at hrest
  exact not_isRest_nil hrest

theorem oneInput_halves {front extra tail : Bytes} {t : Tx}
    (h : tx.whole (upToExtranonce 12 front ++ (extra ++ tail)) = some t) : t.inputs.length = 1 := by
  rw [Halves.text] at h
  obtain ⟨i, hi⟩ := one_input_of_whole h
  rw [hi, List.length_singleton]

/-! ## The sources of shares -/

/-- The pool job of a share. -/
def poolJob : Source → Option MiningJob
  | .line job _ | .standard job | .extended job _ => some job
  | .custom _ => none

/-- The block of the share has the transactions of the template. -/
def isFull (env : Env) : Source → Bool
  | .standard _ => !env.coin.stratumV2EmptyBlocks
  | _ => true

/-- **The coinbase ends as a transaction.** A V2 session has a script to pay, and
no output goes unannounced. Where the miner sends another number of bytes than
eight, what follows the eighth must be the end of a transaction. -/
def Ends (env : Env) (s : Session) : Source → Prop
  | .line job _ => AllAnnounced env job
  | .standard job => s.workerScriptHex ≠ [] ∧ AllAnnounced env (payingJob env job)
  | .custom _ => False
  | .extended job extranonce =>
    if extranonce.length = 8 then s.workerScriptHex ≠ [] ∧ AllAnnounced env job
    else ∃ tail, hexToBytes (buildSessionCoinbase2 env job s.workerScriptHex) = some tail ∧
      IsRest ((extranonce ++ tail).drop 8)

/-! ## The headers of shares -/

section Headers

variable {env : Env} {job : MiningJob} {txs : List WitnessTx}

theorem txid_read {H : Hashes} {cbHex txid : Str} {cb : Bytes} (hcb : hexToBytes cbHex = some cb)
    (h : computeCoinbaseTxidLe H cbHex = some txid) : txid = bytesToHex (H.sha256d cb).bytes := by
  obtain ⟨cb', hcb', rfl⟩ := Option.map_eq_some_iff.mp h
  obtain rfl := Option.some.inj (hcb.symm.trans hcb')
  rfl

/-- The root a share computes from the branch is that of its block. -/
theorem root_of_job (hc : Carries env job txs) {cbHex txid root : Str} {cb : Bytes}
    (hcb : hexToBytes cbHex = some cb) (htxid : computeCoinbaseTxidLe env.hashes cbHex = some txid)
    (hroot : Merkle.computeRootLeHex env.hashes txid job.merkleBranchLe = some root) :
    root = bytesToHex (MerkleTree.root (Merkle.combine env.hashes) (env.hashes.sha256d cb)
      (txs.map (BlockAssembly.txid env.hashes))).bytes := by
  rw [txid_read hcb htxid, hc.branch, Merkle.computeRootLeHex_branch] at hroot
  exact (Option.some.inj hroot).symm

/-- The header of a share, read with its root. -/
theorem header_of_share (hc : Carries env job txs) {headerHex version ntime nonce : Str}
    {root hash : Hash256} {bs : Bytes} (hread : hexToBytes headerHex = some bs)
    (hhash : hash = headerHash env bs)
    (hheader : headerHex = buildBlockHeader version (byteReverseHex job.previousblockhash)
      (bytesToHex root.bytes) ntime (byteReverseHex job.bits) nonce)
    (hversion : version.length = 8) (hntime : ntime.length = 8) (hnonce : nonce.length = 8) :
    ∃ hd, header.Fits hd ∧ hexToBytes headerHex = some (header.write hd) ∧
      hash = headerHash env (header.write hd) ∧ hd.root = root.bytes := by
  have hlen : (bytesToHex root.bytes).length = 64 := by
    rw [bytesToHex, Hex.length_encode, root.size]
  subst hheader
  obtain ⟨hd, hfits, rfl, hroot⟩ := header_read hread hversion
    (by rw [length_byteReverseHex, hc.prevhash]) hlen hntime
    (by rw [length_byteReverseHex, hc.bits]) hnonce
  exact ⟨hd, hfits, hread, hhash, Option.some.inj (hroot.symm.trans (hexToBytes_bytesToHex _))⟩

end Headers

/-! ## The shares of the three paths -/

section Shares

variable {env : Env} {isV2 : Bool} {d : DeskState}

/-- The block of a V1 share, from its halves. -/
theorem line_block (h : Reach env isV2 (FromNode env) d)
    (hen : ∃ v : UInt32, d.session.extranonce1 = intToHex v 8) (hv1 : d.session.isV2 = false)
    (hauth : d.session.authorized = true) {msg : Json} {sh : Share}
    (hsh : checkedLine env d msg = some sh)
    (hfits : (Source.line sh.job sh.sub).Fits env d.session) :
    Decodes d.session.workerScriptHex ∧ ∃ front extra tail txs, extra.length = 12 ∧
      Halves (activeCoinbase1 d.session sh.job sh.sub.jobId)
        (buildSessionCoinbase2 env sh.job d.session.workerScriptHex)
        (d.session.extranonce1 ++ sh.sub.nonce2) sh.cbHex front extra tail ∧
      Carries env sh.job txs ∧ RebuiltBlock env sh.job true txs (ofShare env sh)
        (upToExtranonce 12 front ++ (extra ++ tail)) := by
  have hchain := hfits.1
  obtain ⟨hdecodes, front, extra, tail, hlen, hhalves⟩ := line_halves h hen hv1 hauth hsh hfits
  obtain ⟨sub, version, hparse, hfind, _, hfrom⟩ := line_rebuilt hsh
  obtain rfl := hfrom.ofSub
  obtain ⟨txs, hc⟩ := carries_of_window h
    (List.mem_map.mpr ⟨_, JobWindow.mem_jobs_of_find hfind, rfl⟩)
  obtain ⟨_, _, hntime, hnonce⟩ := parsed_sizes hchain hparse
  obtain ⟨root, hroot, hheader⟩ := hfrom.header
  obtain ⟨bs, solution, hbs, _, hhash⟩ := hfrom.hash
  unfold coinbaseAndRoot at hroot
  rw [if_neg hchain] at hroot
  obtain ⟨txid, htxid, hroot⟩ := Option.bind_eq_some_iff.mp hroot
  obtain ⟨root', hroot', hroot⟩ := Option.bind_eq_some_iff.mp hroot
  obtain ⟨hcbHex, rfl⟩ := Prod.mk.inj (Option.some.inj hroot)
  rw [hcbHex] at htxid
  obtain rfl := root_of_job hc hhalves.read htxid hroot'
  rw [submitHeader, if_neg hchain] at hheader
  rw [hashedBytes, if_neg hchain] at hhash
  refine ⟨hdecodes, front, extra, tail, txs, hlen, hhalves, hc, {
    coinbase := hhalves.read
    oneInput := fun t ht => oneInput_halves ht
    header := header_of_share hc hbs hhash hheader (length_leHexU32 _)
      (by rw [length_byteReverseHex, ntimeText, if_neg hchain, hntime])
      (by rw [length_byteReverseHex, hnonce])
    block := ?_ }⟩
  show candidateBlock env sh = _
  rw [candidateBlock, if_neg hchain]
  rfl

/-- The coinbase of a V1 share is a transaction when no output goes unannounced. -/
theorem whole_line_iff {s : Session} {job : MiningJob} {cb1 en cbHex : Str}
    {front extra tail : Bytes} (hdecodes : Decodes s.workerScriptHex) (hlen : extra.length = 12)
    (houts : OutputsFit env job)
    (h : Halves cb1 (buildSessionCoinbase2 env job s.workerScriptHex) en cbHex front extra tail) :
    (∃ t, tx.whole (upToExtranonce 12 front ++ (extra ++ tail)) = some t) ↔
      AllAnnounced env job := by
  rw [whole_halves_iff h, List.drop_left' hlen, rest_coinbase2 h.second,
    tail_coinbase2 (.inr (smallScript_of_decodes hdecodes)) houts h.second]
  exact ⟨fun hs => hs.2, fun hs => ⟨decodes_ne hdecodes, hs⟩⟩

/-- A V1 share. -/
theorem line_assembled (h : Reach env isV2 (FromNode env) d)
    (hen : ∃ v : UInt32, d.session.extranonce1 = intToHex v 8) (hv1 : d.session.isV2 = false)
    (hauth : d.session.authorized = true) {msg : Json} {sh : Share}
    (hsh : checkedLine env d msg = some sh)
    (hfits : (Source.line sh.job sh.sub).Fits env d.session) :
    WellAssembled env sh.job true (ofShare env sh) ↔ AllAnnounced env sh.job := by
  obtain ⟨hdecodes, front, extra, tail, txs, hlen, hhalves, hc, hrebuilt⟩ :=
    line_block h hen hv1 hauth hsh hfits
  rw [wellAssembled_iff hc hrebuilt, whole_line_iff hdecodes hlen hfits.2.1 hhalves]
  exact ⟨fun hs => hs.1, fun hs => ⟨hs, .inl rfl⟩⟩

/-- What a standard share of a pool job is rebuilt from. -/
theorem standard_fields {env : Env} {s : Session} {job : MiningJob} {msg : SubmitSharesStandard}
    {sh : ShareV2} (h : rebuildStandard env s job msg = some sh) :
    ∃ txid root, computeCoinbaseTxidLe env.hashes (standardCoinbase env s job) = some txid ∧
      (if env.coin.stratumV2EmptyBlocks then some txid
        else Merkle.computeRootLeHex env.hashes txid job.merkleBranchLe) = some root ∧
      HashedFrom env (some job)
        (headerV2 msg.version msg.ntime msg.nonce (byteReverseHex job.previousblockhash) root
          (byteReverseHex job.bits)) (standardCoinbase env s job) sh := by
  obtain ⟨txid, htxid, h⟩ := Option.bind_eq_some_iff.mp h
  refine ⟨txid, ?_⟩
  by_cases hempty : env.coin.stratumV2EmptyBlocks = true
  · rw [if_pos hempty] at h ⊢
    obtain ⟨root, hroot, h⟩ := Option.bind_eq_some_iff.mp h
    exact ⟨root, htxid, hroot, hashedFrom h⟩
  · rw [if_neg hempty] at h ⊢
    obtain ⟨root, hroot, h⟩ := Option.bind_eq_some_iff.mp h
    exact ⟨root, htxid, hroot, hashedFrom h⟩

/-- The block of a V2 share, from the header and the coinbase it was hashed from. -/
theorem rebuilt_of_v2 {job : MiningJob} {txs : List WitnessTx} {full : Bool} {v n t : UInt32}
    (version : UInt32) {root : Hash256} {cbHex : Str} {front extra tail : Bytes} {sh : ShareV2} {cb1 cb2 en : Str}
    (hc : Carries env job txs) (hhalves : Halves cb1 cb2 en cbHex front extra tail)
    (hfrom : HashedFrom env (some job) (headerV2 v t n (byteReverseHex job.previousblockhash)
      (bytesToHex root.bytes) (byteReverseHex job.bits)) cbHex sh)
    (hroot : root = MerkleTree.root (Merkle.combine env.hashes)
      (env.hashes.sha256d (upToExtranonce 12 front ++ (extra ++ tail)))
        (listed full (txs.map (txid env.hashes)))) :
    RebuiltBlock env job full txs (ofShareV2 version (!full) sh)
      (upToExtranonce 12 front ++ (extra ++ tail)) := by
  obtain ⟨bs, hbs, hhash⟩ := hfrom.hash
  rw [← hfrom.header] at hbs
  refine ⟨?_, fun t ht => oneInput_halves ht, ?_, ?_⟩
  · show hexToBytes sh.cbHex = _
    rw [hfrom.coinbase]
    exact hhalves.read
  · rw [← hroot]
    exact header_of_share hc hbs hhash hfrom.header (length_leHexU32 _) (length_leHexU32 _)
      (length_leHexU32 _)
  · show sv2Block sh (!full) = _
    unfold sv2Block
    rw [hfrom.ofJob]
    cases full <;> rfl

/-- A standard share of a pool job. -/
theorem standard_assembled (h : Reach env isV2 (FromNode env) d) (hv2 : d.session.isV2 = true)
    (hen : ∃ v : UInt32, d.session.extranonce1 = intToHex v 8) {msg : SubmitSharesStandard}
    {job : MiningJob} {sh : ShareV2} {version : UInt32}
    (hj : namedJob d.world.strat.jobs msg.jobId = some job)
    (hsh : rebuildStandard env d.session job msg = some sh)
    (hfits : (Source.standard job).Fits env d.session) :
    WellAssembled env job (!env.coin.stratumV2EmptyBlocks)
        (ofShareV2 version env.coin.stratumV2EmptyBlocks sh) ↔
      (d.session.workerScriptHex ≠ [] ∧ AllAnnounced env (payingJob env job)) ∧
        ((!env.coin.stratumV2EmptyBlocks) = true ∨ job.mweb = []) := by
  obtain ⟨txid, root, htxid, hroot, hfrom⟩ := standard_fields hsh
  have hmem := mem_of_namedJob hj
  obtain ⟨txs, hc⟩ := carries_of_window h hmem
  have hcb : standardCoinbase env d.session job = rebuildCoinbase job.coinbase1
      (buildSessionCoinbase2 env (payingJob env job) d.session.workerScriptHex)
      (d.session.extranonce1 ++ zeroExtranonce2) := by
    unfold standardCoinbase payingJob
    split <;> rfl
  have hzero : hexToBytes zeroExtranonce2 = some (List.replicate 8 0) := by decide
  obtain ⟨hscript, front, en, tail, hen4, hhalves⟩ :=
    pool_halves h hv2 hen hfits.1 hmem hzero hcb htxid
  have hextra : (en ++ List.replicate 8 0).length = 12 := by
    rw [List.length_append, hen4, List.length_replicate]
  have hrootOf : ∃ r : Hash256, root = bytesToHex r.bytes ∧
      r = MerkleTree.root (Merkle.combine env.hashes)
        (env.hashes.sha256d (upToExtranonce 12 front ++ (en ++ List.replicate 8 0 ++ tail)))
          (listed (!env.coin.stratumV2EmptyBlocks) (txs.map (BlockAssembly.txid env.hashes))) := by
    cases hempty : env.coin.stratumV2EmptyBlocks with
    | true =>
      rw [hempty, if_pos rfl] at hroot
      obtain rfl := Option.some.inj hroot
      exact ⟨_, txid_read hhalves.read htxid, (MerkleTree.root_nil _ _).symm⟩
    | false =>
      rw [hempty, if_neg Bool.false_ne_true] at hroot
      exact ⟨_, root_of_job hc hhalves.read htxid hroot, rfl⟩
  obtain ⟨r, rfl, hr⟩ := hrootOf
  have hrebuilt := rebuilt_of_v2 version hc hhalves hfrom hr
  rw [Bool.not_not] at hrebuilt
  rw [wellAssembled_iff hc hrebuilt, whole_halves_iff hhalves, List.drop_left' hextra,
    rest_coinbase2 hhalves.second,
    tail_coinbase2 (hscript.imp_right smallScript_of_decodes) hfits.2 hhalves.second]
  exact Iff.rfl

/-- A share on an extended channel. -/
theorem extended_assembled (h : Reach env isV2 (FromNode env) d) (hv2 : d.session.isV2 = true)
    (hen : ∃ v : UInt32, d.session.extranonce1 = intToHex v 8) {msg : SubmitSharesExtended}
    {job : MiningJob} {sh : ShareV2} {version : UInt32}
    (hj : namedJob d.world.strat.jobs msg.jobId = some job)
    (hsh : rebuildExtended env d.session job msg = some sh)
    (hfits : (Source.extended job msg.extranonce).Fits env d.session) :
    WellAssembled env job true (ofShareV2 version false sh) ↔
      Ends env d.session (.extended job msg.extranonce) := by
  obtain ⟨txid, htxid, hsh⟩ := Option.bind_eq_some_iff.mp hsh
  obtain ⟨root, hroot, hsh⟩ := Option.bind_eq_some_iff.mp hsh
  have hfrom := hashedFrom hsh
  have hmem := mem_of_namedJob hj
  obtain ⟨txs, hc⟩ := carries_of_window h hmem
  obtain ⟨hscript, front, en, tail, hen4, hhalves⟩ :=
    pool_halves h hv2 hen hfits.1 hmem (hexToBytes_bytesToHex msg.extranonce) rfl htxid
  obtain rfl := root_of_job hc hhalves.read htxid hroot
  have hrebuilt : RebuiltBlock env job true txs (ofShareV2 version false sh) _ :=
    rebuilt_of_v2 version hc hhalves hfrom rfl
  have hdrop : (en ++ msg.extranonce ++ tail).drop 12 = (msg.extranonce ++ tail).drop 8 := by
    rw [List.append_assoc, show 12 = en.length + 8 by omega]
    exact List.drop_length_add_append 8
  rw [wellAssembled_iff hc hrebuilt, whole_halves_iff hhalves, hdrop]
  show IsRest _ ∧ _ ↔ (if msg.extranonce.length = 8 then _ else _)
  split
  · rename_i height
    rw [List.drop_left' height, rest_coinbase2 hhalves.second,
      tail_coinbase2 (hscript.imp_right smallScript_of_decodes) hfits.2 hhalves.second]
    exact ⟨fun hs => hs.1, fun hs => ⟨hs, .inl rfl⟩⟩
  · constructor
    · exact fun hs => ⟨tail, hhalves.second, hs.1⟩
    · rintro ⟨tail', htail', hrest⟩
      obtain rfl := Option.some.inj (hhalves.second.symm.trans htail')
      exact ⟨hrest, .inl rfl⟩

end Shares

/-- The template of the move, if it has one, lists nothing and is of the right
sizes. -/
def plainWork (_ : DeskState) : Move → Bool
  | .work gbt _ => (parseTemplate gbt).all fun bt =>
    bt.transactions.isEmpty && decide (bt.previousblockhash.length = 64 ∧ bt.bits.length = 8 ∧
      hexToBytes bt.mweb ≠ none)
  | _ => true

theorem fromNode_of_plainWork {env : Env} (r : Replies) (d : DeskState) (m : Move)
    (i : Desk.Input) (h : plainWork d m = true) (hi : m.input r d = some i) :
    FromNode env d i := by
  cases i with
  | work gbt jobId =>
    obtain rfl := Move.eq_work hi
    intro bt hbt
    rw [plainWork, hbt, Option.all_some, Bool.and_eq_true, List.isEmpty_iff, decide_eq_true_eq] at h
    obtain ⟨hnone, hprev, hbits, hmweb⟩ := h
    refine ⟨fun l hl => ?_, ?_, hprev, hbits, hmweb⟩
    · rw [hnone] at hl
      cases hl
    · rw [hnone]
      exact Nat.one_lt_two_pow (by decide)
  | _ => trivial

/-- The source of the share is a line's that fits, and the share is handed over. -/
def handedAfter (d : DeskState) : Bool :=
  decide (d.session.extranonce1 = intToHex 0x0a0b0c0d 8) && !d.world.log.any submitsIn &&
    (source (luckyPool .litecoin) d (.line (some firstShare))).any (lineFits (luckyPool .litecoin)) &&
      (((Move.line firstShare).input usual d).bind (perform (luckyPool .litecoin) usual d)).any
        fun d' => d'.world.log.any submitsIn

end MkPool.BlockAssembly
