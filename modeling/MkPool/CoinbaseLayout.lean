import MkPool.Desk
import MkPool.Lib.Transaction

/-! # The coinbases as bytes

The texts of a coinbase are put together from hex. Here they are read as what
they spell: the script up to the extranonce, the outputs, and the rest. -/
namespace MkPool.CoinbaseLayout
open MkPool.Lib MkPool.Lib.Transaction MkPool.Utils MkPool.Config MkPool.Job MkPool.Coinbase
open MkPool.Stratifier MkPool.JsonValue

/-! ## Pushes -/

theorem hex2_eq {n : Nat} (h : n < 256) : hex2 n = bytesToHex [UInt8.ofNat n] := by
  revert n
  decide +kernel

theorem hex2_compact {n : Nat} (h : n < 0xfd) : hex2 n = bytesToHex (Codec.compact.write n) := by
  rw [Codec.write_compact_small h, hex2_eq (by omega)]

theorem length_minimalBytes {n k : Nat} (h : n < 256 ^ k) : (minimalBytes n).length ≤ k := by
  induction k generalizing n with
  | zero =>
    obtain rfl : n = 0 := by simpa using h
    simp [minimalBytes]
  | succ k ih =>
    unfold minimalBytes
    split
    · simp
    · have hq : n / 256 < 256 ^ k := by
        rw [Nat.div_lt_iff_lt_mul (by omega)]
        rwa [pow_succ] at h
      have := ih hq
      simp only [List.length_cons]
      omega

/-- The bytes a height is pushed as. -/
def heightBytes (height : Int) : Bytes :=
  if height = 0 then [0] else minimalBytes height.toNat

theorem length_heightBytes {height : Int} (h0 : 0 ≤ height) (h : height < 2 ^ 31) :
    1 ≤ (heightBytes height).length ∧ (heightBytes height).length ≤ 4 := by
  unfold heightBytes
  split
  · simp
  · have hpos : height.toNat ≠ 0 := by omega
    have hle := length_minimalBytes (n := height.toNat) (k := 4) (by omega)
    refine ⟨?_, hle⟩
    unfold minimalBytes
    rw [dif_neg hpos, List.length_cons]
    omega

/-- A one-byte size, and the bytes. -/
def push (bs : Bytes) : Bytes := UInt8.ofNat bs.length :: bs

@[simp] theorem length_push (bs : Bytes) : (push bs).length = bs.length + 1 := rfl

theorem hex_push {bs : Bytes} (h : bs.length < 256) :
    hex2 bs.length ++ bytesToHex bs = bytesToHex (push bs) := by
  rw [hex2_eq h]
  exact (Hex.encode_append _ _).symm

theorem encodeBip34Height_eq {height : Int} {push' : Str} (hmax : height < 2 ^ 31)
    (h : encodeBip34Height height = some push') :
    0 ≤ height ∧ push' = bytesToHex (push (heightBytes height)) := by
  unfold encodeBip34Height at h
  split at h
  · cases h
  · have h0 : 0 ≤ height := by omega
    obtain rfl := Option.some.inj h
    have hlen := length_heightBytes h0 hmax
    have hpush : (heightBytes height).length < 256 := by omega
    exact ⟨h0, hex_push hpush⟩

/-- The signature as it is pushed, or nothing. -/
def signaturePush (sig : Str) : Bytes :=
  if sig.isEmpty then [] else push (sig.map fun c => UInt8.ofNat c.toNat)

theorem length_signaturePush (sig : Str) :
    (signaturePush sig).length = if sig.isEmpty then 0 else sig.length + 1 := by
  unfold signaturePush
  split <;> simp

theorem encodeSignature_eq {sig push' : Str}
    (h : (if sig.isEmpty then some [] else encodePushAscii sig) = some push') :
    sig.length ≤ 0x4b ∧ push' = bytesToHex (signaturePush sig) := by
  unfold signaturePush
  split at h
  · rename_i hsig
    cases h
    obtain rfl := List.isEmpty_iff.mp hsig
    exact ⟨by simp, rfl⟩
  · rename_i hsig
    rw [if_neg hsig]
    unfold encodePushAscii encodePushBytes at h
    split at h
    · cases h
    · rename_i hlen
      obtain rfl := Option.some.inj h
      rw [List.length_map] at hlen
      exact ⟨by omega, hex_push (by rw [List.length_map]; omega)⟩

/-- A builder pushes the signature, where there is one, before it goes on. -/
theorem signature_bind {sig cb : Str} {f : Str → Option Str}
    (h : (if sig.isEmpty then some [] >>= f else encodePushAscii sig >>= f) = some cb) :
    ∃ bs, sig.length ≤ 0x4b ∧ bs = signaturePush sig ∧ f (bytesToHex bs) = some cb := by
  have hpush : ∃ push', (if sig.isEmpty then some [] else encodePushAscii sig) = some push' ∧
      f push' = some cb := by
    split at h
    · rename_i hempty
      exact ⟨[], if_pos hempty, h⟩
    · rename_i hempty
      rw [if_neg hempty]
      exact Option.bind_eq_some_iff.mp h
  obtain ⟨push', hp, hf⟩ := hpush
  obtain ⟨hlen, rfl⟩ := encodeSignature_eq hp
  exact ⟨_, hlen, rfl, hf⟩

/-! ## The shared half -/

/-- The bytes of the placeholder. -/
def placeholder (bt : BlockTemplate) : Bytes :=
  if bt.auxEnabled && !bt.auxPrevhash.isEmpty then
    [0xfa, 0xbe, 0x6d, 0x6d] ++ List.replicate 32 0 ++ [1, 0, 0, 0] ++ [0, 0, 0, 0]
  else []

theorem auxPlaceholder_eq (bt : BlockTemplate) :
    auxPlaceholder bt = bytesToHex (placeholder bt) := by
  unfold auxPlaceholder placeholder
  split
  · decide
  · rfl

theorem length_placeholder (bt : BlockTemplate) : (placeholder bt).length =
    if bt.auxEnabled && !bt.auxPrevhash.isEmpty then 44 else 0 := by
  unfold placeholder
  split <;> rfl

/-- The script of a coinbase up to the extranonce. -/
def scriptFront (cc : CoinConfig) (bt : BlockTemplate) : Bytes :=
  push (heightBytes bt.height) ++ signaturePush cc.coinbaseSignature ++ placeholder bt

/-- A coinbase up to the extranonce: its script is `front` and `more` bytes. -/
def upToExtranonce (more : Nat) (front : Bytes) : Bytes :=
  Wire.leBytes 4 1 ++ (outpoint ++ (Codec.compact.write (front.length + more) ++ front))

theorem hex_upToExtranonce {more : Nat} {front : Bytes} (h : front.length + more < 0xfd) :
    leHexU32 1 ++ "01".toList ++ List.replicate 64 '0' ++ "ffffffff".toList
      ++ hex2 (front.length + more) ++ bytesToHex front = bytesToHex (upToExtranonce more front) := by
  have hhead : leHexU32 1 ++ "01".toList ++ List.replicate 64 '0' ++ "ffffffff".toList =
      bytesToHex (Wire.leBytes 4 1 ++ outpoint) := by decide
  rw [hhead, hex2_compact h]
  simp only [bytesToHex, ← Hex.encode_append, upToExtranonce, List.append_assoc]

/-- The script of a coinbase, read up to its end. -/
def scriptOf (cbHex : Str) : Option Bytes := (hexToBytes cbHex).bind firstScript

/-- The script that is read, where as many bytes follow as were announced. -/
theorem firstScript_upToExtranonce {more : Nat} (front extra rest : Bytes)
    (hextra : extra.length = more) (hs : front.length + more < 2 ^ 64) :
    firstScript (upToExtranonce more front ++ (extra ++ rest)) = some (front ++ extra) := by
  have hlen : front.length + more = (front ++ extra).length := by
    rw [List.length_append, hextra]
  rw [upToExtranonce, hlen]
  simp only [List.append_assoc]
  rw [← List.append_assoc front extra rest]
  exact firstScript_coinbase (by decide) (hlen ▸ hs)

/-- **The shared half of a coinbase.** -/
theorem buildCoinbase1_eq {cc : CoinConfig} {bt : BlockTemplate} {cb1 : Str}
    (hchain : cc.chain ≠ .zcash) (hheight : bt.height < 2 ^ 31)
    (h : buildCoinbase1 cc bt = some cb1) :
    0 ≤ bt.height ∧ cc.coinbaseSignature.length ≤ 0x4b ∧
      (scriptFront cc bt).length + 12 < 0xfd ∧
        cb1 = bytesToHex (upToExtranonce 12 (scriptFront cc bt)) := by
  unfold buildCoinbase1 at h
  rw [if_neg hchain] at h
  obtain ⟨heightPush, hh, h⟩ := Option.bind_eq_some_iff.mp h
  simp only [if_neg hchain] at h
  obtain ⟨h0, rfl⟩ := encodeBip34Height_eq hheight hh
  obtain ⟨_, hsmall, rfl, h⟩ := signature_bind h
  rw [auxPlaceholder_eq] at h
  have hlen : (bytesToHex (push (heightBytes bt.height))).length / 2
      + (bytesToHex (signaturePush cc.coinbaseSignature)).length / 2 + 4 + 8
      + (bytesToHex (placeholder bt)).length / 2 = (scriptFront cc bt).length + 12 := by
    simp only [bytesToHex, Hex.length_encode, scriptFront, List.length_append]
    omega
  rw [hlen] at h
  split at h
  · cases h
  · rename_i hfits
    obtain rfl := Option.some.inj h
    refine ⟨h0, hsmall, by omega, ?_⟩
    rw [← hex_upToExtranonce (by omega)]
    simp only [bytesToHex, scriptFront, Hex.encode_append, List.append_assoc]

/-! ## Heights of templates -/

theorem int32_bounds {j : Json} {i : Int} (h : j.getInt32? = some i) :
    -2 ^ 31 ≤ i ∧ i < 2 ^ 31 := by
  have hmod {q : Int} : -2 ^ 31 ≤ q.bmod (2 ^ 32) ∧ q.bmod (2 ^ 32) < 2 ^ 31 := by
    have h₁ := Int.le_bmod (x := q) (m := 2 ^ 32) (by omega)
    have h₂ := Int.bmod_lt (x := q) (m := 2 ^ 32) (by omega)
    omega
  unfold Json.getInt32? at h
  split at h
  · obtain rfl := Option.some.inj h
    split <;> omega
  · obtain ⟨q, _, rfl⟩ := Option.map_eq_some_iff.mp h
    exact hmod

theorem valueInt32_bounds {j : Json} {key : String} {i : Int}
    (h : j.valueInt32 key = some i) : -2 ^ 31 ≤ i ∧ i < 2 ^ 31 := by
  unfold Json.valueInt32 Json.value at h
  split at h
  · split at h
    · exact int32_bounds h
    · obtain rfl := Option.some.inj h
      omega
  · cases h

/-- A template is read, and then its aux part. -/
theorem parseTemplate_height {gbt : Json} {bt : BlockTemplate} (h : parseTemplate gbt = some bt) :
    ∃ r draft, r.valueInt32 "height" = some draft.height ∧ draft.auxHeight = 0 ∧
      draft.auxCoinbasevalue = 0 ∧ parseAux r draft = some bt := by
  unfold parseTemplate at h
  obtain ⟨r, _, h⟩ := Option.bind_eq_some_iff.mp h
  dsimp only at h
  refine ⟨r, ?_⟩
  revert h
  -- Each optional part is there or not. The reads come in one order in all cases.
  cases r.objectAt? "defaultroots".toList <;> cases r.objectAt? "coinbasetxn".toList <;>
    cases r.objectAt? "rtt".toList
  all_goals
    intro h
    iterate 13 obtain ⟨_, _, h⟩ := Option.bind_eq_some_iff.mp h
    obtain ⟨_, hheight, h⟩ := Option.bind_eq_some_iff.mp h
    iterate 4 obtain ⟨_, _, h⟩ := Option.bind_eq_some_iff.mp h
    exact ⟨_, hheight, rfl, rfl, h⟩

/-- Both heights of a template fit in an `int`. -/
theorem heights_of_parseTemplate {gbt : Json} {bt : BlockTemplate}
    (h : parseTemplate gbt = some bt) : bt.height < 2 ^ 31 ∧ bt.auxHeight < 2 ^ 31 := by
  obtain ⟨r, draft, hheight, haux, _, h⟩ := parseTemplate_height h
  have hh := (valueInt32_bounds hheight).2
  unfold parseAux at h
  split at h
  · obtain ⟨_, _, h⟩ := Option.bind_eq_some_iff.mp h
    obtain ⟨_, _, h⟩ := Option.bind_eq_some_iff.mp h
    obtain ⟨_, _, h⟩ := Option.bind_eq_some_iff.mp h
    obtain ⟨_, _, h⟩ := Option.bind_eq_some_iff.mp h
    obtain ⟨_, hauxHeight, h⟩ := Option.bind_eq_some_iff.mp h
    obtain ⟨_, _, h⟩ := Option.bind_eq_some_iff.mp h
    obtain ⟨_, _, h⟩ := Option.bind_eq_some_iff.mp h
    cases h
    exact ⟨hh, (valueInt32_bounds hauxHeight).2⟩
  · cases h
    exact ⟨hh, by rw [haux]; omega⟩

/-! ## Jobs of a template -/

/-- What a job has of its template, as far as its coinbases go. -/
structure JobOf (env : Env) (bt : BlockTemplate) (job : MiningJob) : Prop where
  coinbase1 : buildCoinbase1 env.coin bt = some job.coinbase1
  auxEnabled : job.auxEnabled = bt.auxEnabled
  auxPrevhash : job.auxPrevhash = bt.auxPrevhash
  auxHeight : job.auxHeight = bt.auxHeight

theorem jobOf_draft {env : Env} {bt : BlockTemplate} {draft : MiningJob}
    (h : draftJob env.coin env.hashes bt = some draft) : JobOf env bt draft := by
  unfold draftJob at h
  split at h
  · cases h
  · obtain ⟨coinbase1, hcb, h⟩ := Option.bind_eq_some_iff.mp h
    obtain ⟨branch, _, h⟩ := Option.bind_eq_some_iff.mp h
    cases h
    exact ⟨hcb, rfl, rfl, rfl⟩

theorem JobOf.publish {env : Env} {bt : BlockTemplate} {draft : MiningJob}
    (h : JobOf env bt draft) (jobId : Str) (clean : Bool) :
    JobOf env bt (publishJob draft jobId clean) :=
  ⟨h.coinbase1, h.auxEnabled, h.auxPrevhash, h.auxHeight⟩

/-- The job of a world, by its template. -/
theorem template_of_jobOf {env : Env} {w : Desk.World} {gbt : Json} {job : MiningJob}
    (h : w.jobOf env gbt = some job) :
    ∃ bt, parseTemplate gbt = some bt ∧ JobOf env bt job := by
  obtain ⟨draft, hd, rfl⟩ := Option.map_eq_some_iff.mp h
  obtain ⟨bt, hbt, hd⟩ := Option.bind_eq_some_iff.mp hd
  exact ⟨bt, hbt, (jobOf_draft hd).publish _ _⟩

/-! ## Where a session writes its own commitment -/

theorem take_hex (bs : Bytes) (n : Nat) :
    (bytesToHex bs).take ((bytesToHex bs).length - 2 * n) = bytesToHex (bs.take (bs.length - n)) := by
  have hlen : (bytesToHex bs).length - 2 * n = 2 * (bs.length - n) := by
    rw [bytesToHex, Hex.length_encode]
    omega
  rw [hlen]
  exact Hex.take_encode _ _

/-- A script front whose last 44 bytes are replaced. -/
def withCommit (front commit : Bytes) : Bytes := front.take (front.length - 44) ++ commit

theorem length_withCommit {front commit : Bytes} (hc : commit.length = 44)
    (h : 44 ≤ front.length) : (withCommit front commit).length = front.length := by
  rw [withCommit, List.length_append, List.length_take, hc]
  omega

theorem spliceCommit_eq {more : Nat} {front commit : Bytes} (hc : commit.length = 44)
    (h : 44 ≤ front.length) :
    spliceCommit (bytesToHex (upToExtranonce more front)) (bytesToHex commit) =
      bytesToHex (upToExtranonce more (withCommit front commit)) := by
  have htake : (upToExtranonce more front).take ((upToExtranonce more front).length - 44) =
      Wire.leBytes 4 1 ++ (outpoint ++ (Codec.compact.write (front.length + more) ++
        front.take (front.length - 44))) := by
    have hsplit : upToExtranonce more front =
        (Wire.leBytes 4 1 ++ (outpoint ++ (Codec.compact.write (front.length + more) ++
          front.take (front.length - 44)))) ++ front.drop (front.length - 44) := by
      simp only [upToExtranonce, List.append_assoc, List.take_append_drop]
    have hdrop : (front.drop (front.length - 44)).length = 44 := by
      rw [List.length_drop]
      omega
    rw [hsplit, List.length_append, hdrop, Nat.add_sub_cancel]
    exact List.take_left' rfl
  have hlong : 44 ≤ (upToExtranonce more front).length := by
    simp only [upToExtranonce, List.length_append]
    omega
  unfold spliceCommit
  rw [if_pos (by rw [bytesToHex, Hex.length_encode]; omega)]
  rw [show 88 = 2 * 44 from rfl, take_hex, htake]
  rw [upToExtranonce, length_withCommit hc h]
  simp only [bytesToHex, ← Hex.encode_append, withCommit, List.append_assoc]

/-! ## Dogecoin work -/

/-- The script of a Dogecoin coinbase. -/
def dogeScript (height : Int) (sig : Str) : Bytes :=
  push (heightBytes height) ++ signaturePush sig

theorem buildDogeCoinbase_eq {height value : Int} {sig minerScript donationScript cb : Str}
    {donationPercent : ℚ} (hheight : height < 2 ^ 31)
    (h : buildDogeCoinbase height sig value minerScript donationScript donationPercent = some cb)
    (hne : cb ≠ []) : 0 ≤ height ∧ sig.length ≤ 0x4b ∧
      bytesToHex (upToExtranonce 0 (dogeScript height sig)) <+: cb := by
  unfold buildDogeCoinbase at h
  obtain ⟨heightPush, hh, h⟩ := Option.bind_eq_some_iff.mp h
  obtain ⟨h0, rfl⟩ := encodeBip34Height_eq hheight hh
  have hlen (sigPush : Bytes) : (bytesToHex (push (heightBytes height)) ++
      bytesToHex sigPush).length / 2 = (push (heightBytes height) ++ sigPush).length := by
    simp only [bytesToHex, ← Hex.encode_append, Hex.length_encode]
    omega
  have front (hfits : ¬ 0xfc < (dogeScript height sig).length) :
      bytesToHex (upToExtranonce 0 (dogeScript height sig)) =
        leHexU32 1 ++ "01".toList ++ List.replicate 64 '0' ++ "ffffffff".toList
          ++ hex2 (dogeScript height sig).length
          ++ (bytesToHex (push (heightBytes height)) ++ bytesToHex (signaturePush sig)) := by
    rw [← hex_upToExtranonce (by omega)]
    simp only [bytesToHex, dogeScript, Hex.encode_append, Nat.add_zero]
  dsimp only at h
  obtain ⟨_, hsmall, rfl, h⟩ := signature_bind h
  rw [hlen] at h
  refine ⟨h0, hsmall, ?_⟩
  by_cases hbig : 0xfc < (push (heightBytes height) ++ signaturePush sig).length
  · rw [if_pos hbig] at h
    exact absurd (Option.some.inj h).symm hne
  · rw [if_neg hbig] at h
    obtain rfl := Option.some.inj h
    rw [front hbig]
    exact ((((List.prefix_append _ _).trans (List.prefix_append _ _)).trans
      (List.prefix_append _ _)).trans (List.prefix_append _ _)).trans (List.prefix_append _ _)

/-- What a session's Dogecoin work is made of. -/
structure AuxMade (env : Env) (job : MiningJob) (saj : SessionAuxJob) : Prop where
  enabled : job.auxEnabled = true
  prevhash : job.auxPrevhash.length = 64
  commit : ∃ commit : Bytes, commit.length = 44 ∧ saj.auxCommit = bytesToHex commit
  coinbase : ∃ script donationScript,
    buildDogeCoinbase job.auxHeight env.coin.coinbaseSignature job.auxCoinbasevalue script
      donationScript env.coin.aux.donationPercent = some saj.dogeCoinbase
  built : saj.dogeCoinbase ≠ []
  readable : ∃ bs, hexToBytes saj.dogeCoinbase = some bs

theorem auxMade {env : Env} {script : Str} {job : MiningJob} {saj : SessionAuxJob}
    (h : buildSessionAux env script job = some (some saj)) : AuxMade env job saj := by
  unfold buildSessionAux at h
  split at h
  · cases h
  · rename_i hon
    split at h
    · cases h
    · rename_i hsize
      split at h
      · cases h
      · obtain ⟨cb, hcb, h⟩ := Option.bind_eq_some_iff.mp h
        split at h
        · cases h
        · rename_i hbuilt
          obtain ⟨root, hroot, h⟩ := Option.bind_eq_some_iff.mp h
          obtain ⟨hash, hhash, h⟩ := Option.bind_eq_some_iff.mp h
          obtain ⟨bs, hbs, _⟩ := Option.map_eq_some_iff.mp hroot
          obtain ⟨header, _, rfl⟩ := Option.map_eq_some_iff.mp hhash
          cases h
          refine ⟨by simp_all, by omega, ?_, ⟨_, _, hcb⟩, by simpa using hbuilt, bs, hbs⟩
          refine ⟨[0xfa, 0xbe, 0x6d, 0x6d] ++ (env.hashes.sha256d header).bytes.reverse
            ++ [1, 0, 0, 0] ++ [0, 0, 0, 0], by simp [Hash256.size], ?_⟩
          have heven : (bytesToHex (env.hashes.sha256d header).bytes).length % 2 = 0 := by
            rw [bytesToHex, Hex.length_encode]
            omega
          have hrev : byteReverseHex (bytesToHex (env.hashes.sha256d header).bytes) =
              bytesToHex (env.hashes.sha256d header).bytes.reverse := by
            rw [byteReverseHex, if_pos heven]
            exact Hex.reversePairs_encode _
          rw [hrev]
          simp only [bytesToHex, Hex.encode_append]
          rfl

end MkPool.CoinbaseLayout
