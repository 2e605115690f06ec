import MkPool.CompactTarget
import MkPool.JobReference
import MkPool.ValidCoinbase

/-! # Shares of custom jobs

What the header, the target and the block of a custom job have to be, and when
they are. The header has the job's compact target in the order of its text,
which is the order of the number. -/
namespace MkPool.CustomJobs
open MkPool.Lib MkPool.Lib.Transaction MkPool.Utils MkPool.Config MkPool.Coinbase
open MkPool.Sv2Messages MkPool.ClientSession MkPool.StratumV2 MkPool.Tasks MkPool.Desk
open MkPool.WorkAgreement MkPool.Validated MkPool.CoinbaseLayout MkPool.JobReference
open MkPool.ValidCoinbase MkPool.Play

/-! ## What a share of a custom job is -/

/-- A header and its transactions. -/
def blockCodec : Codec (Bytes × List Tx) := (Codec.fixed 80).seq tx.counted

/-- The coinbase a request asks for, with a text for the size of its script. -/
def sizedCoinbase (msg : SetCustomMiningJob) (size : Bytes) : Bytes :=
  Wire.leBytes 4 msg.coinbaseTxVersion.toNat ++ (outpoint ++ (size ++ (msg.coinbasePrefix ++
    (Wire.leBytes 4 msg.coinbaseTxInputNSequence.toNat ++ (msg.coinbaseTxOutputs ++
      Wire.leBytes 4 msg.coinbaseTxLocktime.toNat)))))

def coinbaseBytes (msg : SetCustomMiningJob) : Bytes :=
  sizedCoinbase msg (Codec.compact.write msg.coinbasePrefix.length)

/-- The coinbase a request asks for, with its outputs. -/
def coinbaseTx (msg : SetCustomMiningJob) (outputs : List TxOut) : Tx :=
  ⟨msg.coinbaseTxVersion.toNat, [⟨List.replicate 32 0, 2 ^ 32 - 1, msg.coinbasePrefix,
    msg.coinbaseTxInputNSequence.toNat⟩], outputs, msg.coinbaseTxLocktime.toNat⟩

/-- A header over the coinbase, with a text for the compact target. -/
def headerOver (env : Env) (msg : SetCustomMiningJob) (share : SubmitSharesStandard)
    (coinbase bits : Bytes) : Bytes :=
  Wire.leBytes 4 share.version.toNat ++ (msg.prevHash.bytes ++
    ((env.hashes.sha256d coinbase).bytes ++ (Wire.leBytes 4 share.ntime.toNat ++
      (bits ++ Wire.leBytes 4 share.nonce.toNat))))

/-- The header of a share of the job. -/
def headerBytes (env : Env) (msg : SetCustomMiningJob) (share : SubmitSharesStandard) : Bytes :=
  headerOver env msg share (coinbaseBytes msg) (Wire.leBytes 4 msg.nbits.toNat)

/-- The size and the digits of a compact target. -/
def exponent (nbits : UInt32) : Nat := nbits.toNat / 2 ^ 24

def mantissa (nbits : UInt32) : Nat := nbits.toNat % 2 ^ 24

/-- The target of a compact text: with the sign set it is none. -/
def Denotes (nbits : UInt32) (target : Nat) : Prop :=
  mantissa nbits < 2 ^ 23 ∧ target = mantissa nbits * 256 ^ exponent nbits / 256 ^ 3

/-- The share is one of the job. -/
structure Faithful (env : Env) (msg : SetCustomMiningJob) (share : SubmitSharesStandard)
    (sh : ShareV2) : Prop where
  header : hexToBytes sh.headerHex = some (headerBytes env msg share)
  hash : sh.hash = headerHash env (headerBytes env msg share)
  target : Denotes msg.nbits (beValue sh.netTarget.bytes)
  block : ∃ bs outputs, hexToBytes (sv2Block sh env.coin.stratumV2EmptyBlocks) = some bs ∧
    txOut.counted.whole msg.coinbaseTxOutputs = some outputs ∧
      blockCodec.whole bs = some (headerBytes env msg share, [coinbaseTx msg outputs])

/-- A script whose size is one byte, outputs that can be read, and a compact
target that is the same in both orders and is not negative or too wide. -/
structure Sound (msg : SetCustomMiningJob) : Prop where
  size : msg.coinbasePrefix.length < 0xfd
  outputs : ∃ outputs, txOut.counted.whole msg.coinbaseTxOutputs = some outputs
  palindrome : (Wire.leBytes 4 msg.nbits.toNat).reverse = Wire.leBytes 4 msg.nbits.toNat
  positive : mantissa msg.nbits < 2 ^ 23
  narrow : exponent msg.nbits ≤ 32 ∨ mantissa msg.nbits = 0

/-! ## Compact targets -/

/-- The target of a compact text, unless it is too wide. -/
theorem netTarget_value (v : UInt32) :
    ∃ t, targetFromBitsHex (intToHex v 8) = some t ∧
      beValue t.bytes = if 32 < exponent v then 0
        else mantissa v * 256 ^ exponent v / 256 ^ 3 := by
  obtain ⟨t, ht, hvalue⟩ := CompactTarget.unchecked_of_word (CompactTarget.hexToBytes_intToHex v)
  refine ⟨t, ht, hvalue.trans ?_⟩
  by_cases hwide : 32 < exponent v
  · exact (if_neg (not_le.mpr hwide)).trans (if_pos hwide).symm
  · exact (if_pos (not_lt.mp hwide)).trans (if_neg hwide).symm

theorem denotes_iff {v : UInt32} {t : Hash256} (h : targetFromBitsHex (intToHex v 8) = some t) :
    Denotes v (beValue t.bytes) ↔ mantissa v < 2 ^ 23 ∧ (exponent v ≤ 32 ∨ mantissa v = 0) := by
  obtain ⟨t', ht', hvalue⟩ := netTarget_value v
  obtain rfl := Option.some.inj (h.symm.trans ht')
  unfold Denotes
  rw [hvalue]
  refine and_congr_right fun _ => ?_
  by_cases hwide : 32 < exponent v
  · have hsplit : 256 ^ exponent v = 256 ^ (exponent v - 3) * 256 ^ 3 := by
      rw [← pow_add]
      congr 1
      omega
    have hpos : 0 < 256 ^ (exponent v - 3) := by positivity
    rw [if_pos hwide, hsplit, ← mul_assoc, Nat.mul_div_cancel _ (by decide), eq_comm, mul_eq_zero]
    omega
  · rw [if_neg hwide]
    exact ⟨fun _ => .inl (by omega), fun _ => rfl⟩

/-! ## What is rebuilt -/

theorem hex2_read (n : Nat) : ∃ b, hexToBytes (hex2 n) = some [b] := by
  have hlen : (hex2 n).length = 2 := by
    have h := (Nat.length_toDigits_pos : 0 < (Nat.toDigits 16 n).length)
    simp only [hex2, hexPadded, List.length_take, List.length_append, List.length_replicate]
    omega
  have hdigits : ∀ c ∈ hex2 n, (Hex.nibble c).isSome = true :=
    fun c hc => digit_of_mem_hexPadded (List.mem_of_mem_take hc)
  obtain ⟨bs, hbs⟩ := Hex.decode_of_digits hdigits (by rw [hlen])
  have hsize := Hex.length_of_decode hbs
  have hone : bs.length = 1 := by omega
  obtain ⟨b, rfl⟩ := List.length_eq_one_iff.mp hone
  exact ⟨b, hbs⟩

/-- A share of a custom job as the session rebuilds it: one byte for the size of
the script, and the compact target most significant byte first. -/
structure Rebuilt (env : Env) (msg : SetCustomMiningJob) (share : SubmitSharesStandard)
    (size : UInt8) (sh : ShareV2) : Prop where
  read : hexToBytes (hex2 msg.coinbasePrefix.length) = some [size]
  job : sh.job = none
  coinbase : hexToBytes sh.cbHex = some (sizedCoinbase msg [size])
  header : hexToBytes sh.headerHex = some (headerOver env msg share (sizedCoinbase msg [size])
    (Wire.leBytes 4 msg.nbits.toNat).reverse)
  hash : sh.hash = headerHash env (headerOver env msg share (sizedCoinbase msg [size])
    (Wire.leBytes 4 msg.nbits.toNat).reverse)
  target : targetFromBitsHex (intToHex msg.nbits 8) = some sh.netTarget

section Shares

variable {env : Env} {msg : SetCustomMiningJob} {share : SubmitSharesStandard}

/-- A custom job has the fields of its request. -/
theorem customJob_eq {cj : CustomJob} (h : customJobOf env msg = some cj) :
    cj = { version := msg.version, prevHash := msg.prevHash, coinbasePrefix := msg.coinbasePrefix,
           coinbaseOutputs := msg.coinbaseTxOutputs, coinbaseTxVersion := msg.coinbaseTxVersion,
           coinbaseTxInputNSequence := msg.coinbaseTxInputNSequence,
           coinbaseTxLocktime := msg.coinbaseTxLocktime, nbits := msg.nbits } := by
  unfold customJobOf at h
  dsimp only at h
  generalize (if 0 < env.coin.donationPercent ∧ ¬ env.coin.donationAddress.isEmpty = true then
    (Address.decodeToScriptHex env.decode env.coin.donationAddress).getD [] else []) = script at h
  split at h
  · cases h
  · split at h
    · cases h
    · exact (Option.some.inj h).symm

theorem rebuilt {cj : CustomJob} (h : customJobOf env msg = some cj) :
    ∃ size sh, rebuildCustom env cj share = some sh ∧ Rebuilt env msg share size sh := by
  obtain ⟨size, hsize⟩ := hex2_read msg.coinbasePrefix.length
  obtain ⟨t, ht, _⟩ := netTarget_value msg.nbits
  have hcb : hexToBytes (leHexU32 msg.coinbaseTxVersion ++ "01".toList ++ List.replicate 64 '0'
      ++ "ffffffff".toList ++ hex2 msg.coinbasePrefix.length ++ bytesToHex msg.coinbasePrefix
      ++ leHexU32 msg.coinbaseTxInputNSequence ++ bytesToHex msg.coinbaseTxOutputs
      ++ leHexU32 msg.coinbaseTxLocktime) = some (sizedCoinbase msg [size]) := by
    have houtpoint : "01".toList ++ List.replicate 64 '0' ++ "ffffffff".toList =
        bytesToHex outpoint := by decide
    have hread := hexToBytes_append (hexToBytes_leHexU32 msg.coinbaseTxVersion)
      (hexToBytes_append (hexToBytes_bytesToHex outpoint) (hexToBytes_append hsize
        (hexToBytes_append (hexToBytes_bytesToHex msg.coinbasePrefix)
          (hexToBytes_append (hexToBytes_leHexU32 msg.coinbaseTxInputNSequence)
            (hexToBytes_append (hexToBytes_bytesToHex msg.coinbaseTxOutputs)
              (hexToBytes_leHexU32 msg.coinbaseTxLocktime))))))
    rw [← houtpoint] at hread
    simp only [sizedCoinbase, List.append_assoc] at hread ⊢
    exact hread
  have hheader (root : Bytes) : hexToBytes (buildBlockHeader (leHexU32 share.version)
      (bytesToHex msg.prevHash.bytes) (bytesToHex root) (leHexU32 share.ntime)
      (intToHex msg.nbits 8) (leHexU32 share.nonce)) =
        some (Wire.leBytes 4 share.version.toNat ++ (msg.prevHash.bytes ++ (root ++
          (Wire.leBytes 4 share.ntime.toNat ++ ((Wire.leBytes 4 msg.nbits.toNat).reverse ++
            Wire.leBytes 4 share.nonce.toNat))))) := by
    have hread := hexToBytes_append (hexToBytes_leHexU32 share.version)
      (hexToBytes_append (hexToBytes_bytesToHex msg.prevHash.bytes)
        (hexToBytes_append (hexToBytes_bytesToHex root)
          (hexToBytes_append (hexToBytes_leHexU32 share.ntime)
            (hexToBytes_append (hexToBytes_bytesToHex (Wire.leBytes 4 msg.nbits.toNat).reverse)
              (hexToBytes_leHexU32 share.nonce)))))
    rw [← CompactTarget.intToHex_eq] at hread
    simpa only [buildBlockHeader, List.append_assoc] using hread
  obtain rfl := customJob_eq h
  unfold rebuildCustom hashShare computeCoinbaseTxidLe
  simp only [hcb, Option.map_some, Option.bind_eq_bind, Option.bind_some, hheader, ht]
  exact ⟨size, _, rfl, hsize, rfl, hcb, hheader _, rfl, ht⟩

/-- A size whose text is one byte is below the first marker. -/
theorem small_of_compact {n : Nat} (h : (Codec.compact.write n).length = 1) : n < 0xfd := by
  have hwrite : (Codec.writeCompact n).length = 1 := h
  unfold Codec.writeCompact at hwrite
  split at hwrite
  · assumption
  · split at hwrite <;> [skip; split at hwrite] <;>
      simp only [List.length_cons, Wire.length_leBytes] at hwrite <;> omega

theorem length_sizedCoinbase (size : Bytes) : (sizedCoinbase msg size).length =
    size.length + msg.coinbasePrefix.length + msg.coinbaseTxOutputs.length + 49 := by
  simp only [sizedCoinbase, List.length_append, Wire.length_leBytes, length_outpoint]
  omega

/-- Headers over 32-byte hashes have the compact target at one place. -/
theorem bits_of_headerOver {coinbase coinbase' bits bits' : Bytes}
    (hlen : bits.length = bits'.length)
    (h : headerOver env msg share coinbase bits = headerOver env msg share coinbase' bits') :
    bits = bits' := by
  unfold headerOver at h
  have h := List.append_cancel_left (List.append_cancel_left h)
  have h := List.append_inj_right h (by rw [Hash256.size, Hash256.size])
  have h := List.append_cancel_left h
  exact List.append_inj_left h hlen

theorem block_read {size : UInt8} {sh : ShareV2} (h : Rebuilt env msg share size sh)
    (emptyBlock : Bool) : hexToBytes (sv2Block sh emptyBlock) =
      some (headerOver env msg share (sizedCoinbase msg [size])
        (Wire.leBytes 4 msg.nbits.toNat).reverse ++ ([1] ++ sizedCoinbase msg [size])) := by
  have hcount : hexToBytes (encodeVarint (UInt64.ofNat (1 + ([] : List Str).length))) = some [1] := by
    decide
  have hread := hexToBytes_append h.header (hexToBytes_append hcount h.coinbase)
  unfold sv2Block assembleFullBlock
  rw [h.job]
  simpa only [List.append_assoc, List.flatten_nil, List.append_nil] using hread

theorem write_coinbaseTx {outputs : List TxOut}
    (h : txOut.counted.whole msg.coinbaseTxOutputs = some outputs) :
    tx.write (coinbaseTx msg outputs) = coinbaseBytes msg := by
  obtain ⟨_, hwrite⟩ := (Codec.whole_eq_some _).mp h
  unfold coinbaseTx coinbaseBytes sizedCoinbase
  rw [write_coinbase, hwrite]
  rfl

theorem faithful_iff {size : UInt8} {sh : ShareV2} (h : Rebuilt env msg share size sh) :
    Faithful env msg share sh ↔ Sound msg := by
  constructor
  · intro hf
    have hheader := Option.some.inj (h.header.symm.trans hf.header)
    have hbits := bits_of_headerOver (by simp) hheader
    obtain ⟨bs, outputs, hread, houts, hwhole⟩ := hf.block
    obtain ⟨_, hbs⟩ := (Codec.whole_eq_some _).mp hwhole
    rw [block_read h] at hread
    have hblock : headerBytes env msg share ++ ([1] ++ sizedCoinbase msg [size]) =
        headerBytes env msg share ++ ([1] ++ (coinbaseBytes msg ++ [])) := by
      rw [← write_coinbaseTx houts, ← hheader, Option.some.inj hread, hbs, hheader]
      rfl
    have hcoinbase := List.append_cancel_left (List.append_cancel_left hblock)
    have hlen := congrArg List.length hcoinbase
    rw [List.append_nil, coinbaseBytes, length_sizedCoinbase, length_sizedCoinbase] at hlen
    obtain ⟨hpositive, hnarrow⟩ := (denotes_iff h.target).mp hf.target
    exact ⟨small_of_compact (by simpa using hlen.symm), ⟨outputs, houts⟩, hbits, hpositive, hnarrow⟩
  · intro hs
    obtain ⟨outputs, houts⟩ := hs.outputs
    have hsize : [size] = Codec.compact.write msg.coinbasePrefix.length := by
      have hread := h.read
      rw [hex2_compact hs.size, hexToBytes_bytesToHex] at hread
      exact (Option.some.inj hread).symm
    have hcoinbase : sizedCoinbase msg [size] = coinbaseBytes msg := by rw [hsize, coinbaseBytes]
    have hheader : headerOver env msg share (sizedCoinbase msg [size])
        (Wire.leBytes 4 msg.nbits.toNat).reverse = headerBytes env msg share := by
      rw [hcoinbase, hs.palindrome, headerBytes]
    have hread := block_read h env.coin.stratumV2EmptyBlocks
    rw [hheader, hcoinbase] at hread
    refine ⟨h.header.trans (congrArg some hheader), h.hash.trans (congrArg _ hheader),
      (denotes_iff h.target).mpr ⟨hs.positive, hs.narrow⟩, _, outputs, hread, houts,
      (Codec.whole_eq_some _).mpr ⟨⟨?_, Codec.fits_counted.mpr ⟨by simp, ?_⟩⟩, ?_⟩⟩
    · show (headerBytes env msg share).length = 80
      simp [headerBytes, headerOver, Hash256.size]
    · intro t ht
      rw [List.mem_singleton.mp ht]
      obtain ⟨hfits, _⟩ := (Codec.whole_eq_some _).mp houts
      refine fits_tx.mpr ⟨msg.coinbaseTxVersion.toNat_lt, ⟨by simp [coinbaseTx], fun i hi => ?_⟩,
        Codec.fits_counted.mp hfits, msg.coinbaseTxLocktime.toNat_lt⟩
      rw [List.mem_singleton.mp hi]
      have hsmall := hs.size
      have hlast : 2 ^ 32 - 1 < 256 ^ 4 := by decide
      exact fits_txIn.mpr ⟨List.length_replicate, hlast, by dsimp only; omega,
        msg.coinbaseTxInputNSequence.toNat_lt⟩
    · have hone : tx.counted.write [coinbaseTx msg outputs] = [1] ++ (coinbaseBytes msg ++ []) := by
        rw [← write_coinbaseTx houts]
        rfl
      show _ = headerBytes env msg share ++ tx.counted.write [coinbaseTx msg outputs]
      rw [hone, List.append_nil]

end Shares

/-! ## The request an id names -/

/-- In a run to the state, the request was taken under the id, and none was
under the same id after it. -/
inductive Named (env : Env) (ok : DeskState → Input → Prop) :
    DeskState → UInt32 → SetCustomMiningJob → Prop where
  | taken {d d' : DeskState} {msg : SetCustomMiningJob} {readings : Set ℚ} {cj : CustomJob}
      (reach : Reach env true ok d) (hok : ok d (.task (.message (.setCustomMiningJob msg)) readings))
      (hs : Step env d (.task (.message (.setCustomMiningJob msg)) readings) d')
      (accepted : customJobOf env msg = some cj) :
      Named env ok d' (d.session.sv2CustomJobIdCounter + 1) msg
  | later {d d' : DeskState} {i : Input} {id : UInt32} {msg : SetCustomMiningJob}
      (named : Named env ok d id msg) (hok : ok d i) (hs : Step env d i d')
      (kept : ∀ cj, ¬ Adds env d i (.wire id) (.custom cj)) : Named env ok d' id msg

section Runs

variable {env : Env} {ok : DeskState → Input → Prop} {d : DeskState} {id : UInt32}
  {msg : SetCustomMiningJob}

theorem Named.reach (h : Named env ok d id msg) : Reach env true ok d := by
  induction h with
  | taken reach hok hs _ => exact .step reach hok hs
  | later _ hok hs _ ih => exact .step ih hok hs

theorem custom_of_step {d' : DeskState} {readings : Set ℚ}
    (hs : Step env d (.task (.message (.setCustomMiningJob msg)) readings) d') :
    match customJobOf env msg with
    | none => customs d'.session = customs d.session
    | some cj => d'.session = withCustomJob d.session (d.session.sv2CustomJobIdCounter + 1) cj := by
  cases hs with
  | @task s w w' _ _ o offered run => exact run.yields _ (setCustom_spec env s msg).2

theorem Named.job (h : Named env ok d id msg) :
    ∃ cj, customJobOf env msg = some cj ∧ d.session.sv2CustomJobs.lookup id = some cj := by
  induction h with
  | @taken d d' msg readings cj reach hok hs accepted =>
    refine ⟨cj, accepted, ?_⟩
    have hspec := custom_of_step hs
    rw [accepted] at hspec
    rw [hspec, withCustomJob, AList.lookup_insert]
  | @later d d' i id msg named hok hs kept ih =>
    obtain ⟨cj, haccepted, hlookup⟩ := ih
    refine ⟨cj, haccepted, ?_⟩
    rcases (session_step named.reach hs).2 with hsame | ⟨added, hadds, hsession⟩
    · have hjobs := congrArg Prod.fst hsame
      replace hjobs : d'.session.sv2CustomJobs = d.session.sv2CustomJobs := hjobs
      rw [hjobs, hlookup]
    · have hne : id ≠ d.session.sv2CustomJobIdCounter + 1 := by
        rintro rfl
        exact kept added hadds
      rw [hsession, withCustomJob, AList.lookup_insert_ne hne, hlookup]

/-- What a share that names the request is checked as. -/
theorem Named.share {share : SubmitSharesStandard} (h : Named env ok d share.jobId msg) :
    ∃ size sh, rebuiltStandard env d share = some sh ∧ Rebuilt env msg share size sh ∧
      ∃ version, checked env d (.message (.submitSharesStandard share)) =
        some (ofShareV2 version env.coin.stratumV2EmptyBlocks sh) := by
  obtain ⟨cj, haccepted, hlookup⟩ := h.job
  obtain ⟨size, sh, hsh, hrebuilt⟩ := @rebuilt env msg share cj haccepted
  have hstandard : rebuiltStandard env d share = some sh := by
    simp only [rebuiltStandard, hlookup, hsh]
  refine ⟨size, sh, hstandard, hrebuilt, cj.version, ?_⟩
  simp only [checked, standardVersion, hlookup, hstandard]
  rfl

end Runs

/-- Between the two states, what is scored and what is submitted is the share. -/
def OneShare (env : Env) (d d' : DeskState) (sh : ShareV2) : Prop :=
  ∃ evs, d'.world.log = evs ++ d.world.log ∧ ∀ e ∈ evs, match e.1 with
    | .scored _ hash _ meets => hash = sh.hash ∧ meets = sh.meetsNetwork
    | .submitBlock b => b.block = sv2Block sh env.coin.stratumV2EmptyBlocks ∧ b.hash = sh.hash
    | _ => True

/-- **Headers and blocks of custom jobs.** A share that names a request is
rebuilt as one share, the step scores and submits that one, and it is a share of
the request exactly when the request is sound. -/
theorem custom_share_iff (env : Env) (ok : DeskState → Input → Prop) (d : DeskState)
    (msg : SetCustomMiningJob) (share : SubmitSharesStandard)
    (h : Named env ok d share.jobId msg) :
    ∃ sh, rebuiltStandard env d share = some sh ∧
      (∀ readings d', Step env d (.task (.message (.submitSharesStandard share)) readings) d' →
        OneShare env d d' sh) ∧
      (Faithful env msg share sh ↔ Sound msg) := by
  obtain ⟨size, sh, hsh, hrebuilt, version, hchecked⟩ := h.share
  refine ⟨sh, hsh, fun readings d' hs => ?_, faithful_iff hrebuilt⟩
  cases hs with
  | @task s w w' _ _ o offered run =>
    obtain ⟨evs, hlog, hevs⟩ := task_about run
    have hc : checked env ⟨s, { w with readings }⟩ (.message (.submitSharesStandard share)) =
        some (ofShareV2 version env.coin.stratumV2EmptyBlocks sh) := hchecked
    refine ⟨evs, hlog, fun e he => ?_⟩
    have habout := hevs e he
    rw [hc] at habout
    obtain ⟨c, x⟩ := e
    cases c with
    | scored path hash job meets =>
      obtain ⟨_, hsome, hhash, _, hmeets⟩ := habout
      cases hsome
      exact ⟨hhash, hmeets⟩
    | submitBlock b =>
      obtain ⟨_, hsome, hblock, hhash⟩ := habout
      cases hsome
      exact ⟨hblock, hhash⟩
    | _ => trivial

/-- A request whose coinbase pays the operator alone, by its compact target. -/
def paysOperator (nbits : UInt32) : SetCustomMiningJob :=
  { aCustomJob with
    nbits
    coinbaseTxOutputs := [1, 0, 0, 0, 0, 0, 0, 0, 0, 25] ++ aCustomJob.coinbaseTxOutputs }

/-- A run in which a channel opens and the request is taken under the first id. -/
theorem named_paysOperator (nbits : UInt32)
    (h : (play easyPool anyMove (start easyPool true) channelOpens).any (fun d =>
      (customJobOf easyPool (paysOperator nbits)).isSome &&
        d.session.sv2CustomJobIdCounter == 0 &&
          (((Move.message (.setCustomMiningJob (paysOperator nbits))).input usual d).bind
            (perform easyPool usual d)).isSome) = true) :
    ∃ d, Named easyPool (fun _ _ => True) d 1 (paysOperator nbits) := by
  obtain ⟨d, hd, hx⟩ := (Option.any_eq_true _ _).mp h
  simp only [Bool.and_eq_true, beq_iff_eq] at hx
  obtain ⟨⟨htaken, hcount⟩, hnext⟩ := hx
  obtain ⟨cj, hcj⟩ := Option.isSome_iff_exists.mp htaken
  obtain ⟨d', hd'⟩ := Option.isSome_iff_exists.mp hnext
  obtain ⟨i, hi, hd'⟩ := Option.bind_eq_some_iff.mp hd'
  have hs := step_of_perform hi hd'
  obtain ⟨readings, rfl⟩ := Move.task_of_message hi
  have hnamed := Named.taken 
    (reach_of_play _ (fun _ _ _ _ _ _ => trivial) reach_start hd) trivial hs hcj
  rw [hcount] at hnamed
  exact ⟨d', hnamed⟩

/-- A compact target that is the same in both orders. -/
theorem palindrome_share_faithful :
    ∃ (d : DeskState) (sh : ShareV2),
      Named easyPool (fun _ _ => True) d shareOfOne.jobId (paysOperator 0x1d00001d) ∧
        rebuiltStandard easyPool d shareOfOne = some sh ∧
          Faithful easyPool (paysOperator 0x1d00001d) shareOfOne sh := by
  obtain ⟨d, hd⟩ := named_paysOperator 0x1d00001d (by decide +kernel)
  obtain ⟨sh, hsh, _, hiff⟩ := custom_share_iff easyPool _ d _ shareOfOne hd
  refine ⟨d, sh, hd, hsh, hiff.mpr ⟨by decide, ?_, by decide, by decide, .inl (by decide)⟩⟩
  exact Option.isSome_iff_exists.mp (by decide +kernel)

/-- **The compact target in the wrong order.** The usual one of difficulty one. -/
theorem custom_header_reversed :
    ∃ (d : DeskState) (sh : ShareV2),
      Named easyPool (fun _ _ => True) d shareOfOne.jobId (paysOperator 0x1d00ffff) ∧
        rebuiltStandard easyPool d shareOfOne = some sh ∧
          ¬ Faithful easyPool (paysOperator 0x1d00ffff) shareOfOne sh := by
  obtain ⟨d, hd⟩ := named_paysOperator 0x1d00ffff (by decide +kernel)
  obtain ⟨size, sh, hsh, hrebuilt, _⟩ := @Named.share _ _ _ _ shareOfOne hd
  refine ⟨d, sh, hd, hsh, fun hf => ?_⟩
  have hpalindrome := ((faithful_iff hrebuilt).mp hf).palindrome
  exact absurd hpalindrome (by decide)

end MkPool.CustomJobs
