import MkPool.Utils

/-! # `sv2_messages.hpp`: the Stratum V2 messages a session reads and writes

Only the fields: framing and serialization are elsewhere. -/
namespace MkPool.Sv2Messages
open MkPool.Utils

/-! ## Client to server -/

structure OpenStandardMiningChannel where
  requestId : UInt32
  userIdentity : Str

structure OpenExtendedMiningChannel where
  requestId : UInt32
  userIdentity : Str
  nominalHashRate : ℚ
  minExtranonceSize : UInt16

structure SubmitSharesStandard where
  channelId : UInt32
  sequenceNumber : UInt32
  jobId : UInt32
  nonce : UInt32
  ntime : UInt32
  version : UInt32

structure SubmitSharesExtended where
  channelId : UInt32
  sequenceNumber : UInt32
  jobId : UInt32
  nonce : UInt32
  ntime : UInt32
  version : UInt32
  extranonce : Bytes

structure SetCustomMiningJob where
  channelId : UInt32
  requestId : UInt32
  version : UInt32
  prevHash : Hash256
  nbits : UInt32
  coinbaseTxVersion : UInt32
  coinbasePrefix : Bytes
  coinbaseTxInputNSequence : UInt32
  coinbaseTxOutputs : Bytes
  coinbaseTxLocktime : UInt32
  merklePath : List Hash256

/-- A message from the client, by its type. -/
inductive Request where
  | setupConnection (protocol : UInt8)
  | openStandardMiningChannel (msg : OpenStandardMiningChannel)
  | openExtendedMiningChannel (msg : OpenExtendedMiningChannel)
  | updateChannel (channelId : UInt32)
  | submitSharesStandard (msg : SubmitSharesStandard)
  | submitSharesExtended (msg : SubmitSharesExtended)
  | setCustomMiningJob (msg : SetCustomMiningJob)
  | closeChannel (channelId : UInt32) (reasonCode : Str)
  | unknown (msgType : UInt8)

/-! ## Server to client -/

/-- `OpenStandardMiningChannel.Success`. -/
structure OpenStandardSuccess where
  requestId : UInt32
  channelId : UInt32
  target : Bytes
  extranoncePrefix : Bytes
  groupChannelId : UInt32
deriving DecidableEq

/-- `OpenExtendedMiningChannel.Success`. -/
structure OpenExtendedSuccess where
  requestId : UInt32
  channelId : UInt32
  target : Bytes
  extranonceSize : UInt16
  extranoncePrefix : Bytes
  groupChannelId : UInt32
deriving DecidableEq

structure NewMiningJob where
  channelId : UInt32
  jobId : UInt32
  minNtime : Option UInt32
  version : UInt32
  merkleRoot : Hash256
deriving DecidableEq

structure NewExtendedMiningJob where
  channelId : UInt32
  jobId : UInt32
  minNtime : Option UInt32
  version : UInt32
  versionRollingAllowed : Bool
  merklePath : List Hash256
  coinbaseTxPrefix : Bytes
  coinbaseTxSuffix : Bytes
deriving DecidableEq

structure SetNewPrevHash where
  channelId : UInt32
  jobId : UInt32
  prevHash : Hash256
  minNtime : UInt32
  nbits : UInt32
deriving DecidableEq

/-- A message from the pool, by its type. -/
inductive Reply where
  | setupConnectionSuccess (usedVersion : UInt16) (flags : UInt32)
  | setupConnectionError (errorCode : Str) (flags : UInt32)
  | openStandardSuccess (msg : OpenStandardSuccess)
  | openExtendedSuccess (msg : OpenExtendedSuccess)
  | openMiningChannelError (requestId : UInt32) (errorCode : Str)
  | newMiningJob (msg : NewMiningJob)
  | newExtendedMiningJob (msg : NewExtendedMiningJob)
  | setNewPrevHash (msg : SetNewPrevHash)
  | setTarget (channelId : UInt32) (maximumTarget : Bytes)
  | submitSharesSuccess (channelId lastSequenceNumber newSubmitsAcceptedCount : UInt32)
      (newSharesSum : UInt64)
  | submitSharesError (channelId sequenceNumber : UInt32) (errorCode : Str)
  | setCustomMiningJobSuccess (channelId requestId jobId : UInt32)
  | setCustomMiningJobError (channelId requestId : UInt32) (errorCode : Str)
deriving DecidableEq

end MkPool.Sv2Messages
