import MkPool.ClientSession

/-! # The Stratum V1 handlers of a session

`process_line` and what it calls, the authorization that goes on after the
node has validated the address, and the broadcast hook. -/
namespace MkPool.Stratum
open MkPool.Lib.Interaction MkPool.Utils MkPool.Config MkPool.Job MkPool.Coinbase
open MkPool.Calls MkPool.ClientSession MkPool.JsonValue MkPool.Vardiff

/-! ## Small requests -/

/-- `negotiate_configure`, with the features in the reply. -/
structure ConfigureResult where
  versionMask : UInt32 := 0
  versionRolling : Bool := false
  versionRollingRequested : Bool := false
  minimumDifficulty : Bool := false
  subscribeExtranonce : Bool := false

def hasFeature (features : List Json) (name : String) : Bool :=
  features.any fun f => f.getString? == some name.toList

def negotiateConfigure (params : List Json) (poolVersionMask : UInt32) : ConfigureResult :=
  match params with
  | .array features :: .object fields :: _ =>
    let minerMask : UInt32 :=
      match (Json.object fields).find? "version-rolling.mask".toList with
      | some (.string m) => ((stoul16 m).map UInt64.toUInt32).getD 0
      | _ => 0xffffffff
    let requested := hasFeature features "version-rolling"
    let intersection := if requested then minerMask &&& poolVersionMask else 0
    { versionMask := intersection
      versionRolling := intersection != 0
      versionRollingRequested := requested
      minimumDifficulty := hasFeature features "minimum-difficulty"
      subscribeExtranonce := hasFeature features "subscribe-extranonce" }
  | _ => {}

/-- The outcome of the negotiation, stored. -/
def configured (s : Session) (neg : ConfigureResult) : Session :=
  { s with
    versionRolling := neg.versionRolling && neg.versionMask != 0
    versionMask := neg.versionMask }

def handleConfigure (env : Env) (s : Session) (msg : Json) : Act Outcome := do
  let idJson := safeIdJson env.fmtDouble msg
  let params := (msg.arrayAt? "params".toList).getD []
  let neg := negotiateConfigure params
    (if env.coin.enableVersionRolling then poolVersionMask env else 0)
  let rolling : List Str :=
    if !neg.versionRollingRequested then []
    else if neg.versionRolling then
      ["\"version-rolling\":true,\"version-rolling.mask\":".toList
        ++ quoted (hexPadded 8 neg.versionMask.toNat)]
    else ["\"version-rolling\":false".toList]
  let body := rolling
    ++ (if neg.minimumDifficulty then ["\"minimum-difficulty\":true".toList] else [])
    ++ (if neg.subscribeExtranonce then ["\"subscribe-extranonce\":true".toList] else [])
  ask (.send (.configured idJson body))
  return .done (configured s neg)

/-- `std::tolower` on each character. -/
def lower (s : Str) : Str := s.map Char.toLower

/-- `s.find(needle)`, the first position. -/
def findSub (s needle : Str) : Option Nat :=
  (List.range (s.length + 1)).find? fun i => (s.drop i).take needle.length = needle

def looksLikeAggregator (ua : Str) : Bool := (findSub (lower ua) "nicehash".toList).isSome

/-- The user agent of a subscribe, cut to 256 characters. -/
def withUserAgent (s : Session) (msg : Json) : Session :=
  match msg.arrayAt? "params".toList with
  | some (.string ua :: _) => { s with userAgent := ua.take 256 }
  | _ => s

/-- `extranonce2_size_` as a subscribe advertises it, and `subscribed_`. -/
def subscribe (env : Env) (s : Session) : Session :=
  { s with
    extranonce2Size := if env.coin.chain = ChainKind.zcash then 4 else 8
    subscribed := true }

def handleSubscribe (env : Env) (s : Session) (msg : Json) : Act Outcome := do
  let idJson := safeIdJson env.fmtDouble msg
  let s := withUserAgent s msg
  if !env.coin.activeTier.allowNiceHash && looksLikeAggregator s.userAgent then
    ask (.send (.reject idJson 20
      "aggregator services must connect to a high-diff tier port".toList))
    return .done s.disconnect
  else
    let s := subscribe env s
    ask (.send (.subscribed idJson s.sessionId s.extranonce1 s.extranonce2Size))
    thenDo (sendSetDifficulty env s s.vardiff.current) fun s => do
      whenDo (s.versionRolling && s.versionMask != 0) (ask (.send (.setVersionMask s.versionMask)))
      return .done s

/-- The difficulty a suggestion asks for, where it is honoured. -/
def suggestedDiff (env : Env) (msg : Json) : Option ℚ :=
  let tier := env.coin.activeTier
  if !tier.vardiffEnabled then none
  else
    match msg.arrayAt? "params".toList with
    | some (p :: _) => p.number?.map fun d => clamp d tier.vardiffMin tier.vardiffMax
    | _ => none

def handleSuggestDifficulty (env : Env) (s : Session) (msg : Json) : Act Outcome :=
  let advertise := match suggestedDiff env msg with
    | some d => sendSetDifficulty env s d
    | none => return .done s
  thenDo advertise fun s => do
    ask (.send (.result (safeIdJson env.fmtDouble msg)))
    return .done s

def handleExtranonceSubscribe (env : Env) (s : Session) (msg : Json) : Act Outcome := do
  ask (.send (.result (safeIdJson env.fmtDouble msg)))
  emitLatest env { s with extranonceSubscribed := true } true

/-! ## Authorization -/

/-- `std::stod` on the characters the parser collects: digits, then a point
and digits. No digit at all, or a value past the range of a `double`, throws. -/
def stod (s : Str) : Option ℚ :=
  let whole := s.takeWhile Char.isDigit
  let rest := s.drop whole.length
  let frac := match rest with
    | '.' :: t => t.takeWhile Char.isDigit
    | _ => []
  if whole.isEmpty && frac.isEmpty then none
  else
    let digits : Nat := (whole ++ frac).foldl (fun acc c => 10 * acc + (c.toNat - 48)) 0
    let v : ℚ := digits / 10 ^ frac.length
    if 2 ^ 1024 ≤ v then none else some v

/-- The multiplier of the unit suffix, and the text without it. -/
def splitUnit (numStr : Str) : ℚ × Str :=
  match numStr.getLast? with
  | some 'k' => (1000, numStr.dropLast)
  | some 'm' => (1000000, numStr.dropLast)
  | some 'g' => (1000000000, numStr.dropLast)
  | some 't' => (1000000000000, numStr.dropLast)
  | _ => (1, numStr)

/-- The range a custom difficulty is brought into on each chain. -/
def clampCustomDiff (chain : ChainKind) (val : ℚ) : ℚ :=
  if chain = .zcash then clamp val 8192 524288 / 8192
  else if chain.isScrypt then clamp val 1024 10000000
  else clamp val 1024 1000000

/-- The difficulty in a password: `diff=` or `d=`, a number, a unit. -/
def parseCustomDiff (env : Env) (password : Str) : Option ℚ := do
  let pwd := lower password
  let pos ← match findSub pwd "diff=".toList with
    | some p => some (p + 5)
    | none => (findSub pwd "d=".toList).map (· + 2)
  let numStr := (pwd.drop pos).takeWhile fun c =>
    c.isDigit || c = '.' || c = 'k' || c = 'm' || c = 'g' || c = 't'
  if numStr.isEmpty then none
  else
    let (multiplier, numStr) := splitUnit numStr
    let val := (← stod numStr) * multiplier
    if 0 < val then some (clampCustomDiff env.coin.chain val) else none

/-- The address behind `doge=` in a password, up to a separator. -/
def parseDogeAddress (password : Str) : Str :=
  match findSub (lower password) "doge=".toList with
  | none => []
  | some p =>
    ((password.drop (p + 5)).dropWhile fun c => c = ' ' || c = '\t').takeWhile fun c =>
      !(c = ',' || c = ';' || c = '\t' || c = ' ')

/-- The name split at its first dot, with a default for the worker. -/
def splitWorker (full dflt : Str) : Str × Str :=
  match full.dropWhile (· ≠ '.') with
  | [] => (full, dflt)
  | _ :: worker => (full.takeWhile (· ≠ '.'), worker)

def handleAuthorize (env : Env) (s : Session) (msg : Json) : Act Outcome := do
  let idJson := safeIdJson env.fmtDouble msg
  let fail (reason : Str) : Act Outcome := do
    ask (.send (.authError idJson reason))
    return .done s
  match msg.arrayAt? "params".toList with
  | some (.string full :: rest) =>
    let (addr, worker) := splitWorker full ['0']
    if 128 < addr.length ∨ 64 < worker.length then fail "name too long".toList
    else
      match env.decode addr with
      | .error e =>
        fail ("invalid address: ".toList ++ escapeJson (Address.errorToString e))
      | .ok decoded =>
        let bl ← ask (.blacklist addr worker)
        if bl.addressBlocked then fail "address not allowed".toList
        else if bl.workerIsFree && !bl.freeGranted then fail "worker name is reserved".toList
        else if !bl.workerIsFree && bl.workerBlocked then
          fail "worker name not allowed".toList
        else
          let password : Option Str := match rest with
            | .string p :: _ => some p
            | _ => none
          let customDiff :=
            if env.coin.activeTier.vardiffEnabled then password.bind (parseCustomDiff env)
            else none
          let auxDogeAddress := (password.map parseDogeAddress).getD []
          ask (.validateAddress (.payout
            { idJson, addr, worker, decoded, customDiff, auxDogeAddress }))
          return .done s
  | _ => fail "missing worker name".toList

/-- The identity an authorization installs. -/
def withPayout (env : Env) (s : Session) (req : AuthRequest) : Session :=
  { s with
    workerAddress := req.addr
    workerName := req.worker
    workerScriptHex :=
      if env.coin.chain = .zcash then bytesToHex (env.zcash.taddrToScript req.addr)
      else Address.scriptPubkeyHex req.decoded }

/-- The custom difficulty of a password, installed in the controller. -/
def withCustomDiff (s : Session) (d : ℚ) : Session :=
  { s with
    customDifficulty := d
    hasCustomDifficulty := true
    vardiff := s.vardiff.setCurrent d }

/-- The Dogecoin address and its script. -/
def withDoge (s : Session) (addr script : Str) : Session :=
  { s with auxDogeAddress := addr, dogeScriptHex := script }

/-- The end of `proceed_auth`: the reply, the miner's row, and the job. -/
def finishAuth (env : Env) (s : Session) (idJson : Str) : Act Outcome := do
  ask (.send (.result idJson))
  let minerId ← ask (.ensureMiner s.workerAddress s.workerName)
  emitLatest env { s with minerId := minerId, authorized := true } false

/-- The lambda `proceed_auth`. -/
def proceedAuth (env : Env) (s : Session) (req : AuthRequest) : Act Outcome :=
  let s := withPayout env s req
  let advertise := match req.customDiff with
    | some d => sendSetDifficulty env (withCustomDiff s d) d
    | none => return .done s
  thenDo advertise fun s => finishAuth env s req.idJson

/-- The callback of the payout validation, on the strand. The node's error
text is a parameter. -/
def onPayoutValidated (env : Env) (s : Session) (req : AuthRequest) (error : Option Str)
    (valid : Bool) : Act Outcome := do
  if s.closed then return .done s
  else if error.isSome || !valid then
    let errMsg := error.getD "node rejected address as invalid or unsupported".toList
    ask (.send (.authError req.idJson ("invalid address: ".toList ++ escapeJson errMsg)))
    return .done s
  else if !req.auxDogeAddress.isEmpty && env.hasAux then
    ask (.validateAddress (.doge req))
    return .done s
  else if env.hasAux && !env.coin.aux.payoutAddress.isEmpty then
    match Address.decodeToScriptHex env.decode env.coin.aux.payoutAddress with
    | some script =>
      proceedAuth env (withDoge s env.coin.aux.payoutAddress script) req
    | none => proceedAuth env s req
  else proceedAuth env s req

/-- The callback of the Dogecoin address validation, on the strand. -/
def onDogeValidated (env : Env) (s : Session) (req : AuthRequest) (error : Option Str)
    (valid : Bool) : Act Outcome := do
  if s.closed then return .done s
  else if error.isSome || !valid then
    ask (.send (.authError req.idJson "invalid Dogecoin address".toList))
    return .done s
  else
    let script :=
      (Address.decodeToScriptHex env.decode req.auxDogeAddress).getD s.dogeScriptHex
    proceedAuth env (withDoge s req.auxDogeAddress script) req

end MkPool.Stratum
