import MkPool.Sv2Codec
import MkPool.Sv2Messages

/-! # `sv2_messages.hpp`: the messages that are both written and read, as bytes

A serializer is the sequence of its writer's calls. `Sv2UpstreamClient` writes
two messages and reads the others without one: its calls stand here in the order
of `connect`, `submit` and `handle_frame`. -/
namespace MkPool.Sv2Wire
open MkPool.Lib MkPool.Utils MkPool.Sv2Codec MkPool.Sv2Messages
open MkPool.Lib.Cursor (Reads)

/-! ## Frames -/

/-- The largest payload a frame may declare. -/
def maxMsgLength : Nat := 65535 - 16

def frameLengthOk (msgLength : UInt32) : Bool := decide (msgLength.toNat ≤ maxMsgLength)

structure Header where
  extensionType : UInt16
  msgType : UInt8
  msgLength : UInt32
deriving DecidableEq, Repr

def Header.serialize (h : Header) : Bytes :=
  [writeU16 h.extensionType, writeU8 h.msgType, writeU24 h.msgLength].flatten

def Header.deserialize : Reader Header := do
  let extensionType ← readU16
  let msgType ← readU8
  let msgLength ← readU24
  return { extensionType, msgType, msgLength }

def channelMsgBit : UInt16 := 0x8000

/-- The types of message whose first field is a channel id. -/
def isChannelMsg (msgType : UInt8) : Bool :=
  [0x16, 0x17, 0x18, 0x19, 0x1a, 0x1b, 0x1c, 0x1d, 0x15, 0x1f, 0x20, 0x21].contains msgType

/-- The header `wrap_message` puts before a payload. -/
def wrapHeader (extType : UInt16) (msgType : UInt8) (payload : Bytes) : Header where
  extensionType := if isChannelMsg msgType then extType ||| channelMsgBit else extType
  msgType := msgType
  msgLength := UInt32.ofNat payload.length

def wrapMessage (extType : UInt16) (msgType : UInt8) (payload : Bytes) : Bytes :=
  (wrapHeader extType msgType payload).serialize ++ payload

@[simp] theorem length_serialize (h : Header) : h.serialize.length = 6 := by
  simp [Header.serialize, writeU16, writeU8, writeU24]

/-- Only the low three bytes of a length are on the wire. -/
theorem reads_header :
    Reads Header.deserialize fun h t => h.msgLength.toNat < 2 ^ 24 ∧ t = h.serialize := by
  refine (reads_u16.bind fun _ => reads_u8.bind fun _ => reads_u24.bind fun _ =>
    Reads.pure _).congr fun h t => ?_
  constructor
  · rintro ⟨_, _, _, rfl, rfl, _, _, _, rfl, rfl, _, _, _, rfl, ⟨hlen, rfl⟩, rfl, rfl⟩
    exact ⟨hlen, rfl⟩
  · rintro ⟨hlen, rfl⟩
    exact ⟨_, _, _, rfl, rfl, _, _, _, rfl, rfl, _, _, _, rfl, ⟨hlen, rfl⟩, rfl, rfl⟩

/-! ## Messages -/

/-- `OpenExtendedMiningChannel` with all its fields. -/
structure OpenExtendedMiningChannel where
  requestId : UInt32
  userIdentity : Str
  nominalHashRate : UInt32
  maxTarget : Hash256
  minExtranonceSize : UInt16
deriving DecidableEq

def OpenExtendedMiningChannel.write (m : OpenExtendedMiningChannel) : Bytes :=
  [writeU32 m.requestId, writeStr0_255 m.userIdentity, writeF32 m.nominalHashRate,
    writeU256 m.maxTarget, writeU16 m.minExtranonceSize].flatten

/-- What the upstream client asks for: a hash rate of `1.0e12f`, any target. -/
def openRequest (user : Str) (nonceBytes : UInt8) : OpenExtendedMiningChannel where
  requestId := 1
  userIdentity := user
  nominalHashRate := 0x5368d4a5
  maxTarget := ⟨List.replicate 32 0xff, List.length_replicate⟩
  minExtranonceSize := nonceBytes.toUInt16 + 4

def OpenExtendedMiningChannel.deserialize : Reader OpenExtendedMiningChannel := do
  let requestId ← readU32
  let userIdentity ← readStr0_255
  let nominalHashRate ← readF32
  let maxTarget ← readU256
  let minExtranonceSize ← readU16
  return { requestId, userIdentity, nominalHashRate, maxTarget, minExtranonceSize }

/-- `OpenExtendedMiningChannel.Success`. -/
structure OpenExtendedMiningChannelSuccess where
  requestId : UInt32
  channelId : UInt32
  target : Hash256
  extranonceSize : UInt16
  extranoncePrefix : Bytes
  groupChannelId : UInt32
deriving DecidableEq

def OpenExtendedMiningChannelSuccess.serialize (m : OpenExtendedMiningChannelSuccess) : Bytes :=
  [writeU32 m.requestId, writeU32 m.channelId, writeU256 m.target, writeU16 m.extranonceSize,
    writeB0_32 m.extranoncePrefix, writeU32 m.groupChannelId].flatten

def readOpenExtendedSuccess : Reader OpenExtendedMiningChannelSuccess := do
  let requestId ← readU32
  let channelId ← readU32
  let target ← readU256
  let extranonceSize ← readU16
  let extranoncePrefix ← readB0_32
  let groupChannelId ← readU32
  return { requestId, channelId, target, extranonceSize, extranoncePrefix, groupChannelId }

/-- The text of a job with given tags before the option and for the flag. -/
def spellJob (optionTag flagTag : UInt8) (m : NewExtendedMiningJob) : Bytes :=
  [writeU32 m.channelId, writeU32 m.jobId, spellOption optionTag m.minNtime, writeU32 m.version,
    writeU8 flagTag, writeSeq0_255U256 m.merklePath, writeB0_64k m.coinbaseTxPrefix,
    writeB0_64k m.coinbaseTxSuffix].flatten

def serializeJob (m : NewExtendedMiningJob) : Bytes :=
  [writeU32 m.channelId, writeU32 m.jobId, writeOptionU32 m.minNtime, writeU32 m.version,
    writeBool m.versionRollingAllowed, writeSeq0_255U256 m.merklePath,
    writeB0_64k m.coinbaseTxPrefix, writeB0_64k m.coinbaseTxSuffix].flatten

def readNewExtendedJob : Reader NewExtendedMiningJob := do
  let channelId ← readU32
  let jobId ← readU32
  let minNtime ← readOptionU32
  let version ← readU32
  let versionRollingAllowed ← readBool
  let merklePath ← readSeq0_255U256
  let coinbaseTxPrefix ← readB0_64k
  let coinbaseTxSuffix ← readB0_64k
  return ⟨channelId, jobId, minNtime, version, versionRollingAllowed, merklePath,
    coinbaseTxPrefix, coinbaseTxSuffix⟩

def serializePrevHash (m : SetNewPrevHash) : Bytes :=
  [writeU32 m.channelId, writeU32 m.jobId, writeU256 m.prevHash, writeU32 m.minNtime,
    writeU32 m.nbits].flatten

def readSetNewPrevHash : Reader SetNewPrevHash := do
  let channelId ← readU32
  let jobId ← readU32
  let prevHash ← readU256
  let minNtime ← readU32
  let nbits ← readU32
  return { channelId, jobId, prevHash, minNtime, nbits }

structure SetTarget where
  channelId : UInt32
  maximumTarget : Hash256
deriving DecidableEq

def SetTarget.serialize (m : SetTarget) : Bytes :=
  [writeU32 m.channelId, writeU256 m.maximumTarget].flatten

/-- The client keeps the target only. -/
def readSetTarget : Reader Hash256 := do
  let _ ← readU32
  readU256

/-- The share `Sv2UpstreamClient::submit` sends. -/
def writeSubmitExtended (m : SubmitSharesExtended) : Bytes :=
  [writeU32 m.channelId, writeU32 m.sequenceNumber, writeU32 m.jobId, writeU32 m.nonce,
    writeU32 m.ntime, writeU32 m.version, writeB0_32 m.extranonce].flatten

def readSubmitExtended : Reader SubmitSharesExtended := do
  let channelId ← readU32
  let sequenceNumber ← readU32
  let jobId ← readU32
  let nonce ← readU32
  let ntime ← readU32
  let version ← readU32
  let extranonce ← readB0_32
  return { channelId, sequenceNumber, jobId, nonce, ntime, version, extranonce }

/-- `SubmitShares.Success`. -/
structure SubmitSharesSuccess where
  channelId : UInt32
  lastSequenceNumber : UInt32
  newSubmitsAcceptedCount : UInt32
  newSharesSum : UInt64
deriving DecidableEq

def SubmitSharesSuccess.serialize (m : SubmitSharesSuccess) : Bytes :=
  [writeU32 m.channelId, writeU32 m.lastSequenceNumber, writeU32 m.newSubmitsAcceptedCount,
    writeU64 m.newSharesSum].flatten

/-- The client reads up to the sequence number, and keeps that. -/
def readSubmitSuccess : Reader UInt32 := do
  let _ ← readU32
  readU32

/-- `SubmitShares.Error`. -/
structure SubmitSharesError where
  channelId : UInt32
  sequenceNumber : UInt32
  errorCode : Str
deriving DecidableEq

def SubmitSharesError.serialize (m : SubmitSharesError) : Bytes :=
  [writeU32 m.channelId, writeU32 m.sequenceNumber, writeStr0_255 m.errorCode].flatten

/-- The client keeps the sequence number and the code. -/
def readSubmitError : Reader (UInt32 × Str) := do
  let _ ← readU32
  let seq ← readU32
  let code ← readStr0_255
  return (seq, code)

/-! ## What each reader takes -/

/-- A string field within its bound. -/
def FitsStr (s : Str) : Prop := s.length ≤ 255 ∧ ByteText s

instance (s : Str) : Decidable (FitsStr s) :=
  inferInstanceAs (Decidable (s.length ≤ 255 ∧ ByteText s))

/-- The arrays of a job within their bounds. -/
def FitsJob (m : NewExtendedMiningJob) : Prop :=
  m.merklePath.length ≤ 255 ∧ m.coinbaseTxPrefix.length ≤ 65535 ∧
    m.coinbaseTxSuffix.length ≤ 65535

theorem reads_openExtended : Reads OpenExtendedMiningChannel.deserialize fun m t =>
    FitsStr m.userIdentity ∧ t = m.write := by
  refine (reads_u32.bind fun _ => reads_str0_255.bind fun _ => reads_f32.bind fun _ =>
    reads_u256.bind fun _ => reads_u16.bind fun _ => Reads.pure _).congr fun m t => ?_
  constructor
  · rintro ⟨_, _, _, rfl, rfl, _, _, _, rfl, ⟨hfits, rfl⟩, _, _, _, rfl, rfl, _, _, _, rfl, rfl,
      _, _, _, rfl, rfl, rfl, rfl⟩
    exact ⟨hfits, rfl⟩
  · rintro ⟨hfits, rfl⟩
    exact ⟨_, _, _, rfl, rfl, _, _, _, rfl, ⟨hfits, rfl⟩, _, _, _, rfl, rfl, _, _, _, rfl, rfl,
      _, _, _, rfl, rfl, rfl, rfl⟩

theorem reads_openExtendedSuccess : Reads readOpenExtendedSuccess fun m t =>
    m.extranoncePrefix.length ≤ 32 ∧ t = m.serialize := by
  refine (reads_u32.bind fun _ => reads_u32.bind fun _ => reads_u256.bind fun _ =>
    reads_u16.bind fun _ => reads_b0_32.bind fun _ => reads_u32.bind fun _ =>
    Reads.pure _).congr fun m t => ?_
  constructor
  · rintro ⟨_, _, _, rfl, rfl, _, _, _, rfl, rfl, _, _, _, rfl, rfl, _, _, _, rfl, rfl,
      _, _, _, rfl, ⟨hfits, rfl⟩, _, _, _, rfl, rfl, rfl, rfl⟩
    exact ⟨hfits, rfl⟩
  · rintro ⟨hfits, rfl⟩
    exact ⟨_, _, _, rfl, rfl, _, _, _, rfl, rfl, _, _, _, rfl, rfl, _, _, _, rfl, rfl,
      _, _, _, rfl, ⟨hfits, rfl⟩, _, _, _, rfl, rfl, rfl, rfl⟩

theorem reads_newExtendedJob : Reads readNewExtendedJob fun m t => FitsJob m ∧
    ∃ optionTag flagTag : UInt8, m.minNtime.isSome = (optionTag != 0) ∧
      m.versionRollingAllowed = (flagTag != 0) ∧ t = spellJob optionTag flagTag m := by
  refine (reads_u32.bind fun _ => reads_u32.bind fun _ => reads_optionU32.bind fun _ =>
    reads_u32.bind fun _ => reads_bool.bind fun _ => reads_seq0_255U256.bind fun _ =>
    reads_b0_64k.bind fun _ => reads_b0_64k.bind fun _ => Reads.pure _).congr fun m t => ?_
  constructor
  · rintro ⟨_, _, _, rfl, rfl, _, _, _, rfl, rfl, _, _, _, rfl, ⟨optionTag, hoption, rfl⟩,
      _, _, _, rfl, rfl, _, _, _, rfl, ⟨flagTag, rfl, hflag⟩, _, _, _, rfl, ⟨hpath, rfl⟩,
      _, _, _, rfl, ⟨hbegin, rfl⟩, _, _, _, rfl, ⟨hsuffix, rfl⟩, rfl, rfl⟩
    exact ⟨⟨hpath, hbegin, hsuffix⟩, optionTag, flagTag, hoption, hflag, rfl⟩
  · rintro ⟨⟨hpath, hbegin, hsuffix⟩, optionTag, flagTag, hoption, hflag, rfl⟩
    exact ⟨_, _, _, rfl, rfl, _, _, _, rfl, rfl, _, _, _, rfl, ⟨optionTag, hoption, rfl⟩,
      _, _, _, rfl, rfl, _, _, _, rfl, ⟨flagTag, rfl, hflag⟩, _, _, _, rfl, ⟨hpath, rfl⟩,
      _, _, _, rfl, ⟨hbegin, rfl⟩, _, _, _, rfl, ⟨hsuffix, rfl⟩, rfl, rfl⟩

/-- The writer's tags are one where there is something to say. -/
theorem serializeJob_eq (m : NewExtendedMiningJob) : serializeJob m =
    spellJob (if m.minNtime.isSome then 1 else 0) (if m.versionRollingAllowed then 1 else 0) m := by
  unfold serializeJob spellJob
  cases m.minNtime <;> rfl

theorem reads_setNewPrevHash : Reads readSetNewPrevHash fun m t => t = serializePrevHash m := by
  refine (reads_u32.bind fun _ => reads_u32.bind fun _ => reads_u256.bind fun _ =>
    reads_u32.bind fun _ => reads_u32.bind fun _ => Reads.pure _).congr fun m t => ?_
  constructor
  · rintro ⟨_, _, _, rfl, rfl, _, _, _, rfl, rfl, _, _, _, rfl, rfl, _, _, _, rfl, rfl,
      _, _, _, rfl, rfl, rfl, rfl⟩
    rfl
  · rintro rfl
    exact ⟨_, _, _, rfl, rfl, _, _, _, rfl, rfl, _, _, _, rfl, rfl, _, _, _, rfl, rfl,
      _, _, _, rfl, rfl, rfl, rfl⟩

theorem reads_setTarget : Reads readSetTarget fun target t =>
    ∃ channelId, t = SetTarget.serialize ⟨channelId, target⟩ := by
  refine (reads_u32.bind fun _ => reads_u256).congr fun target t => ?_
  constructor
  · rintro ⟨channelId, _, _, rfl, rfl, rfl⟩
    exact ⟨channelId, by simp [SetTarget.serialize]⟩
  · rintro ⟨channelId, rfl⟩
    exact ⟨channelId, _, _, by simp [SetTarget.serialize], rfl, rfl⟩

theorem reads_submitExtended : Reads readSubmitExtended fun m t =>
    m.extranonce.length ≤ 32 ∧ t = writeSubmitExtended m := by
  refine (reads_u32.bind fun _ => reads_u32.bind fun _ => reads_u32.bind fun _ =>
    reads_u32.bind fun _ => reads_u32.bind fun _ => reads_u32.bind fun _ =>
    reads_b0_32.bind fun _ => Reads.pure _).congr fun m t => ?_
  constructor
  · rintro ⟨_, _, _, rfl, rfl, _, _, _, rfl, rfl, _, _, _, rfl, rfl, _, _, _, rfl, rfl,
      _, _, _, rfl, rfl, _, _, _, rfl, rfl, _, _, _, rfl, ⟨hfits, rfl⟩, rfl, rfl⟩
    exact ⟨hfits, rfl⟩
  · rintro ⟨hfits, rfl⟩
    exact ⟨_, _, _, rfl, rfl, _, _, _, rfl, rfl, _, _, _, rfl, rfl, _, _, _, rfl, rfl,
      _, _, _, rfl, rfl, _, _, _, rfl, rfl, _, _, _, rfl, ⟨hfits, rfl⟩, rfl, rfl⟩

/-- The first two fields of the message are all that is read of it. -/
theorem reads_submitSuccess : Reads readSubmitSuccess fun seq t =>
    ∃ channelId, t = writeU32 channelId ++ writeU32 seq := by
  refine (reads_u32.bind fun _ => reads_u32).congr fun seq t => ?_
  constructor
  · rintro ⟨channelId, _, _, rfl, rfl, rfl⟩
    exact ⟨channelId, rfl⟩
  · rintro ⟨channelId, rfl⟩
    exact ⟨channelId, _, _, rfl, rfl, rfl⟩

theorem reads_submitError : Reads readSubmitError fun p t =>
    FitsStr p.2 ∧ ∃ channelId, t = SubmitSharesError.serialize ⟨channelId, p.1, p.2⟩ := by
  refine (reads_u32.bind fun _ => reads_u32.bind fun _ => reads_str0_255.bind fun _ =>
    Reads.pure _).congr fun p t => ?_
  constructor
  · rintro ⟨channelId, _, _, rfl, rfl, _, _, _, rfl, rfl, _, _, _, rfl, ⟨hfits, rfl⟩, rfl, rfl⟩
    exact ⟨hfits, channelId, rfl⟩
  · rintro ⟨hfits, channelId, rfl⟩
    exact ⟨channelId, _, _, rfl, rfl, _, _, _, rfl, rfl, _, _, _, rfl, ⟨hfits, rfl⟩, rfl, rfl⟩

/-! ## Nothing is lost on the wire -/

/-- A reader gets back what it keeps of every value that was written, and has
then read everything; a text it takes in full is one spelling of such a value;
and it fetches no byte past the end. -/
structure Lossless {M K : Type} (write : M → Bytes) (Fits : M → Prop) (keep : M → K)
    (read : Reader K) (Spelling : M → Bytes → Prop) : Prop where
  returns : ∀ m, Fits m → read ⟨write m, 0⟩ = .ok (keep m, ⟨write m, (write m).length⟩)
  reencodes : ∀ bs k, read ⟨bs, 0⟩ = .ok (k, ⟨bs, bs.length⟩) →
    ∃ m, Fits m ∧ keep m = k ∧ Spelling m bs
  stays : ∀ r : Cursor, r.Inside → read r ≠ .error .pastEnd ∧
    ∀ k r', read r = .ok (k, r') → r'.Inside

theorem Lossless.of_reads {M K : Type} {write : M → Bytes} {Fits : M → Prop} {keep : M → K}
    {read : Reader K} {Spelling : M → Bytes → Prop} {S : K → Bytes → Prop} (h : Reads read S)
    (hwrite : ∀ m, Fits m → S (keep m) (write m))
    (hspell : ∀ k t, S k t → ∃ m, Fits m ∧ keep m = k ∧ Spelling m t) :
    Lossless write Fits keep read Spelling where
  returns m hm := h.whole.mpr (hwrite m hm)
  reencodes bs k hk := hspell k bs (h.whole.mp hk)
  stays _ hr := ⟨h.never_pastEnd hr, fun _ _ hk => h.inside hr hk⟩

/-- The plain case: the whole value is kept, and has one text. -/
theorem Lossless.exact {M : Type} {write : M → Bytes} {Fits : M → Prop} {read : Reader M}
    (h : Reads read fun m t => Fits m ∧ t = write m) :
    Lossless write Fits id read fun m bs => bs = write m :=
  .of_reads h (fun _ hm => ⟨hm, rfl⟩) fun m _ ⟨hm, ht⟩ => ⟨m, hm, rfl, ht⟩

theorem header_lossless : Lossless Header.serialize (fun h => h.msgLength.toNat < 2 ^ 24) id
    Header.deserialize fun h bs => bs = h.serialize :=
  .exact reads_header

/-- Up to the two tags, which need only say whether they are zero. -/
theorem job_lossless : Lossless serializeJob FitsJob id readNewExtendedJob fun m bs =>
    ∃ optionTag flagTag : UInt8, m.minNtime.isSome = (optionTag != 0) ∧
      m.versionRollingAllowed = (flagTag != 0) ∧ bs = spellJob optionTag flagTag m := by
  refine .of_reads reads_newExtendedJob ?_ fun m t ⟨hm, ht⟩ => ⟨m, hm, rfl, ht⟩
  intro m hm
  have htag (b : Bool) : b = ((if b then 1 else 0 : UInt8) != 0) := by cases b <;> rfl
  exact ⟨hm, _, _, htag _, htag _, serializeJob_eq m⟩

theorem setTarget_lossless : Lossless SetTarget.serialize (fun _ => True) SetTarget.maximumTarget
    readSetTarget fun m bs => bs = m.serialize :=
  .of_reads reads_setTarget (fun m _ => ⟨m.channelId, rfl⟩)
    fun target _ ⟨channelId, ht⟩ => ⟨⟨channelId, target⟩, trivial, rfl, ht⟩

theorem submitError_lossless : Lossless SubmitSharesError.serialize (fun m => FitsStr m.errorCode)
    (fun m => (m.sequenceNumber, m.errorCode)) readSubmitError fun m bs => bs = m.serialize :=
  .of_reads reads_submitError (fun m hm => ⟨hm, m.channelId, rfl⟩)
    fun p _ ⟨hp, channelId, ht⟩ => ⟨⟨channelId, p.1, p.2⟩, hp, rfl, ht⟩

/-- The reader stops after two of the four fields. -/
theorem submitSuccess_read (m : SubmitSharesSuccess) :
    readSubmitSuccess ⟨m.serialize, 0⟩ = .ok (m.lastSequenceNumber, ⟨m.serialize, 8⟩) := by
  refine ((reads_submitSuccess ⟨m.serialize, 0⟩ (Nat.zero_le _)).1 _ _).mpr
    ⟨writeU32 m.channelId ++ writeU32 m.lastSequenceNumber,
      writeU32 m.newSubmitsAcceptedCount ++ writeU64 m.newSharesSum, ⟨m.channelId, rfl⟩, ?_, ?_⟩
  · simp [Cursor.left, SubmitSharesSuccess.serialize]
  · simp [Cursor.advance, writeU32]

theorem length_submitSuccess (m : SubmitSharesSuccess) : m.serialize.length = 20 := by
  simp [SubmitSharesSuccess.serialize, writeU32, writeU64]

theorem wrapHeader_length {extType : UInt16} {msgType : UInt8} {payload : Bytes}
    (h : payload.length < 2 ^ 24) :
    (wrapHeader extType msgType payload).msgLength.toNat = payload.length := by
  rw [wrapHeader, UInt32.toNat_ofNat']
  omega

/-- A frame starts with its header, and the payload follows. -/
theorem wrapMessage_read {extType : UInt16} {msgType : UInt8} {payload : Bytes}
    (h : payload.length < 2 ^ 24) :
    Header.deserialize ⟨wrapMessage extType msgType payload, 0⟩ =
      .ok (wrapHeader extType msgType payload, ⟨wrapMessage extType msgType payload, 6⟩) := by
  refine ((reads_header ⟨wrapMessage extType msgType payload, 0⟩ (Nat.zero_le _)).1 _ _).mpr
    ⟨_, payload, ⟨?_, rfl⟩, rfl, ?_⟩
  · rw [wrapHeader_length h]
    exact h
  · rw [length_serialize]
    rfl

end MkPool.Sv2Wire
