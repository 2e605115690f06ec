import MkPool.Utils

/-! # `config.hpp`: the settings a session and the stratifier read

A field that only other parts of the program read is left out. -/
namespace MkPool.Config
open MkPool.Utils

inductive ChainKind where
  | bitcoin | bitcoinCash | bitcoinII | digiByte | eCash | zcash | litecoin | dogecoin
  | bitcoinCashII
deriving DecidableEq, Repr

/-- Litecoin and Dogecoin hash their headers with scrypt. -/
def ChainKind.isScrypt (c : ChainKind) : Bool := c = .litecoin || c = .dogecoin

structure AuxConfig where
  payoutAddress : Str := []
  donationPercent : ℚ := 0
  donationAddress : Str := []

structure StratumTier where
  startingDifficulty : ℚ := 65536
  vardiffEnabled : Bool := false
  vardiffMin : ℚ := 1024
  vardiffMax : ℚ := 10000000
  allowNiceHash : Bool := false

structure CoinConfig where
  chain : ChainKind := .bitcoin
  aux : AuxConfig := {}
  stratumV2Difficulty : ℚ := 1024
  stratumV2EmptyBlocks : Bool := false
  activeTier : StratumTier := {}
  targetSharesPerMinute : ℚ := 12
  coinbaseSignature : Str := "/mkpool.com/".toList
  donationPercent : ℚ := 1
  donationAddress : Str := []
  enableVersionRolling : Bool := true
  versionRollingMask : UInt32 := 0x1fffe000
  jobWindowSize : Nat := 32

end MkPool.Config
