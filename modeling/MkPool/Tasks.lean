import MkPool.StratumV2
import MkPool.Stratifier

/-! # What runs on a session's strand

A line or message from the client, the posted half of `notifyNewJob`, the
callbacks of the node's address checks, and the control plane's reset. Each is
one program; the strand runs one at a time. -/
namespace MkPool.Tasks
open MkPool.Lib.Interaction MkPool.Utils MkPool.Job MkPool.Coinbase
open MkPool.Sv2Messages MkPool.Calls MkPool.ClientSession MkPool.JsonValue

/-- The plain half of `notifyNewJob`. -/
def notifyPlain (env : Env) (s : Session) (job : MiningJob) : Act Outcome :=
  if s.isV2 then StratumV2.emitJobV2 env s job else emitJob env s job

/-- The prefix with the session's own commitment. -/
def customPrefix (job : MiningJob) (aux : SessionAuxJob) : NotifyPrefix where
  jobId := job.jobId
  prevhash := prevhashStratum job.previousblockhash
  coinbase1 := spliceCommit job.coinbase1 aux.auxCommit

/-- `session_aux_jobs_[job->job_id] = *aux`, after its bound. -/
def withAuxJob (s : Session) (jobId : Str) (aux : SessionAuxJob) : Session :=
  { s with sessionAuxJobs := insertBounded s.sessionAuxJobs jobId aux }

/-- The posted half of `notifyNewJob`. -/
def notifyNewJob (env : Env) (s : Session) (job : MiningJob) : Act Outcome := do
  if !s.subscribed || s.closed then return .done s
  else if job.auxEnabled && !s.auxDogeAddress.isEmpty && env.hasAux then
    match buildSessionAux env s.dogeScriptHex job with
    | none => return .threw s
    | some none => notifyPlain env s job
    | some (some aux) =>
      let s := withAuxJob s job.jobId aux
      ask (.send (.notify (notifyOf env s job (customPrefix job aux) false)))
      return .done s
  else notifyPlain env s job

/-- The handler of a method. -/
def dispatch (env : Env) (s : Session) (method : Str) (msg : Json) : Act Outcome :=
  if method = "mining.configure".toList then Stratum.handleConfigure env s msg
  else if method = "mining.subscribe".toList then Stratum.handleSubscribe env s msg
  else if method = "mining.authorize".toList then Stratum.handleAuthorize env s msg
  else if method = "mining.submit".toList then Submit.handleSubmit env s msg
  else if method = "mining.suggest_difficulty".toList then
    Stratum.handleSuggestDifficulty env s msg
  else if method = "mining.extranonce.subscribe".toList then
    Stratum.handleExtranonceSubscribe env s msg
  else do
    let safe := method.map fun c =>
      if c = '"' || c = '\\' || c.toNat < 0x20 then '?' else c
    ask (.send (.unknownMethod (safeIdJson env.fmtDouble msg) safe))
    return .done s

/-- `process_line` of a line that is not empty. `none` is a line the parser
refused. An exception of a handler is answered, and its session is kept. -/
def processLine (env : Env) (s : Session) (line : Option Json) : Act Outcome := do
  match line with
  | none =>
    ask (.send .jsonParseError)
    return .done s
  | some msg =>
    match (msg.find? "method".toList).bind Json.getString? with
    | none =>
      ask (.send .missingMethod)
      return .done s
    | some method =>
      match ← dispatch env s method msg with
      | .done s => return .done s
      | .threw s =>
        ask (.send (.malformedRequest (safeIdJson env.fmtDouble msg)))
        return .done s

/-- A task of the strand. -/
inductive Task where
  | line (line : Option Json)
  | message (msg : Request)
  | notify (job : MiningJob)
  | validated (v : Validation) (error : Option Str) (valid : Bool)
  | resetShareCounters
  | disconnect

def Task.prog (env : Env) (s : Session) : Task → Act Outcome
  | .line l => processLine env s l
  | .message msg => StratumV2.processMessageV2 env s msg
  | .notify job => notifyNewJob env s job
  | .validated (.payout req) error valid => Stratum.onPayoutValidated env s req error valid
  | .validated (.doge req) error valid => Stratum.onDogeValidated env s req error valid
  | .validated (.payoutV2 _) error valid =>
    StratumV2.onPayoutV2Validated s error.isSome valid
  | .resetShareCounters => return .done { s with sharesAccepted := 0, sharesRejected := 0 }
  | .disconnect => return .done s.disconnect

end MkPool.Tasks
