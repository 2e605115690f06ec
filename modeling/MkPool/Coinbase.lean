import MkPool.Address
import MkPool.Job

/-! # The coinbases a session builds

The payout half of the parent coinbase (`build_session_coinbase2`), the witness
form of a finished one (`segwitify_coinbase`), and the merge-mined Dogecoin work
(`build_doge_coinbase`, `build_session_aux`). -/
namespace MkPool.Coinbase
open MkPool.Utils MkPool.Config MkPool.Address MkPool.Job

/-- The functions of `zcash.hpp` a session calls. -/
structure ZcashOps where
  taddrToScript : Str → Bytes
  swapMinerOutput : Bytes → Bytes → Bytes → ℚ → Bytes
  zip244Txid : Bytes → Hash256

/-- What a session is constructed with, and the functions it calls that are
not about sessions. `hasAux` says whether there is an aux client. -/
structure Env where
  coin : CoinConfig
  hashes : Hashes
  decode : Decoder
  zcash : ZcashOps
  equihashVerify : Bytes → Bytes → Bool
  ecashRttOk : List UInt32 → UInt32 → Int → Hash256 → Bool
  exp : ℚ → ℚ
  fmtDouble : ℚ → Str
  hasAux : Bool

/-- The lambda `append_output`, one in each builder. -/
def appendOutput (value : Int) (spkHex : Str) : Str :=
  leHexI64 value ++ hex2 (spkHex.length / 2) ++ spkHex

/-! ## The parent coinbase -/

def segwitifyCoinbase (cbHex : Str) : Str :=
  if cbHex.length < 16 then cbHex
  else
    cbHex.take 8 ++ "0001".toList ++ (cbHex.drop 8).take (cbHex.length - 8 - 8)
      ++ "01".toList ++ "20".toList ++ List.replicate 64 '0' ++ cbHex.drop (cbHex.length - 8)

/-- The eCash miner fund and staking reward, with the standard shares where
the template gives none. -/
structure EcashShares where
  minerFundVal : Int := 0
  minerFundScript : Str := "a914d37c4c809fe9840e7bfa77b86bd47163f6fb6c6087".toList
  stakingRewardVal : Int := 0
  stakingRewardScript : Str := "76a9140e1ce96692cf15155985bf010264725428d3233e88ac".toList

def ecashShares (env : Env) (job : MiningJob) : EcashShares :=
  if env.coin.chain ≠ .eCash then {}
  else
    let std : EcashShares := {}
    { minerFundVal :=
        if 0 < job.minerFundValue then job.minerFundValue
        else llround (job.coinbaseValue * 32 / 100)
      minerFundScript :=
        if job.minerFundAddress.isEmpty then std.minerFundScript
        else (decodeToScriptHex env.decode job.minerFundAddress).getD std.minerFundScript
      stakingRewardVal :=
        if 0 < job.stakingRewardsValue then job.stakingRewardsValue
        else llround (job.coinbaseValue * 10 / 100)
      stakingRewardScript :=
        if job.stakingRewardsScript.isEmpty then std.stakingRewardScript
        else job.stakingRewardsScript }

/-- The operator donation out of what is left, with its script. -/
def donationOf (env : Env) (job : MiningJob) (remaining : Int) : Int × Str :=
  if 0 < job.donationPercent ∧ ¬ job.donationAddress.isEmpty then
    match decodeToScriptHex env.decode job.donationAddress with
    | some script =>
      let donation := llround (remaining * job.donationPercent / 100)
      if remaining < donation then (0, []) else (donation, script)
    | none => (0, [])
  else (0, [])

def buildSessionCoinbase2 (env : Env) (job : MiningJob) (minerScriptHex : Str) : Str :=
  if minerScriptHex.isEmpty then []
  else
    let ec := ecashShares env job
    let isEcash := env.coin.chain = .eCash
    let remainingPoolValue := job.coinbaseValue - ec.minerFundVal - ec.stakingRewardVal
    let (donation, donationScript) := donationOf env job remainingPoolValue
    let minerValue := remainingPoolValue - donation
    let addCommit := job.segwitActive ∧ ¬ job.witnessCommitment.isEmpty
    let outputs :=
      if isEcash then (if 0 < donation then 2 else 1) + 2
      else (if 0 < donation then 2 else 1) + (if addCommit then 1 else 0)
    "ffffffff".toList ++ hex2 outputs
      ++ appendOutput minerValue minerScriptHex
      ++ (if 0 < donation ∧ ¬ donationScript.isEmpty then appendOutput donation donationScript
          else [])
      ++ (if isEcash then
            appendOutput ec.minerFundVal ec.minerFundScript
              ++ appendOutput ec.stakingRewardVal ec.stakingRewardScript
          else [])
      ++ (if addCommit then appendOutput 0 job.witnessCommitment else [])
      ++ "00000000".toList

/-! ## Dogecoin work -/

def buildDogeCoinbase (height : Int) (sig : Str) (value : Int) (minerScript donationScript : Str)
    (donationPercent : ℚ) : Option Str := do
  let heightPush ← encodeBip34Height height
  let sigPush ← if sig.isEmpty then some [] else encodePushAscii sig
  let scriptSig := heightPush ++ sigPush
  let ssLen := scriptSig.length / 2
  if 0xfc < ssLen then return []
  let donation :=
    if 0 < donationPercent ∧ ¬ donationScript.isEmpty then
      let d := llround (value * donationPercent / 100)
      if d < 0 ∨ value < d then 0 else d
    else 0
  let minerValue := value - donation
  let two := 0 < donation ∧ ¬ donationScript.isEmpty
  return "01000000".toList ++ "01".toList ++ List.replicate 64 '0' ++ "ffffffff".toList
    ++ hex2 ssLen ++ scriptSig ++ "ffffffff".toList ++ hex2 (if two then 2 else 1)
    ++ appendOutput minerValue minerScript
    ++ (if two then appendOutput donation donationScript else [])
    ++ "00000000".toList

/-- The self-assembled Dogecoin work of one job. -/
structure SessionAuxJob where
  auxTarget : Str
  auxCommit : Str
  dogeCoinbase : Str
  dogeHeader : Str
  dogeBlockHash : Str
  auxHeight : Int
  auxValue : Int
deriving DecidableEq

/-- `build_session_aux`: the outer `none` is an exception, the inner one
`nullopt`. -/
def buildSessionAux (env : Env) (dogeScriptHex : Str) (job : MiningJob) :
    Option (Option SessionAuxJob) := do
  if !job.auxEnabled || dogeScriptHex.isEmpty then return none
  if job.auxPrevhash.length ≠ 64 ∨ job.auxBits.length ≠ 8 then return none
  if job.auxTarget.length ≠ 64 then return none
  let donationScript :=
    if 0 < env.coin.aux.donationPercent ∧ ¬ env.coin.aux.donationAddress.isEmpty then
      (decodeToScriptHex env.decode env.coin.aux.donationAddress).getD []
    else []
  let dogeCb ← buildDogeCoinbase job.auxHeight env.coin.coinbaseSignature job.auxCoinbasevalue
    dogeScriptHex donationScript env.coin.aux.donationPercent
  if dogeCb.isEmpty then return none
  let merkleroot ← computeCoinbaseTxidLe env.hashes dogeCb
  let dogeHeader := leHexU32 job.auxVersion ++ byteReverseHex job.auxPrevhash ++ merkleroot
    ++ leHexU32 job.auxCurtime ++ byteReverseHex job.auxBits ++ "00000000".toList
  let auxHash := byteReverseHex (← computeCoinbaseTxidLe env.hashes dogeHeader)
  return some {
    auxTarget := job.auxTarget
    auxCommit := "fabe6d6d".toList ++ auxHash ++ "01000000".toList ++ "00000000".toList
    dogeCoinbase := dogeCb
    dogeHeader := dogeHeader
    dogeBlockHash := auxHash
    auxHeight := job.auxHeight
    auxValue := job.auxCoinbasevalue }

/-- `cb1.replace(cb1.size() - 88, 88, commit)`, done when there is room. -/
def spliceCommit (cb1 commit : Str) : Str :=
  if 88 ≤ cb1.length then cb1.take (cb1.length - 88) ++ commit else cb1

end MkPool.Coinbase
