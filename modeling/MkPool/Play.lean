import MkPool.Desk

/-! # Runs that can be computed

With the surroundings' replies fixed, a step of the desk is a function, and a
list of moves is played to the state it ends in. What is played is a run
(`reach_of_play`). -/
namespace MkPool.Play
open MkPool.Lib MkPool.Lib.Interaction MkPool.Utils MkPool.Job MkPool.Coinbase
open MkPool.Stratifier MkPool.Sv2Messages MkPool.Calls MkPool.ClientSession MkPool.JsonValue
open MkPool.Tasks MkPool.Desk

/-- What the clocks, the database and the random numbers say. -/
structure Replies where
  now : ℚ := 1
  nowUnix : UInt32 := 0
  rand : Nat := 0
  minerId : Int := 1
  blacklist : BlacklistView := ⟨false, false, false, false⟩
  ban : Bool := false

/-- The number an id is the text of. -/
def idValue (id : Str) : Nat := Wire.leValue ((hexToBytes id).getD [])

/-- The answer of a call and the stratifier's state after it. An id that no
number has is not given, and the clock may be out of sight. -/
def reply (r : Replies) (clock : Option ℚ) (w : World) : (c : Call) → Option (Answer c × StratState)
  | .latestJob => some (w.strat.jobs.latest, w.strat)
  | .findJob id => some (w.strat.jobs.find id, w.strat)
  | .findJobU32 id => some (w.strat.jobs.findU32 id, w.strat)
  | .currentPrevhash => some (w.strat.lastPrevhash, w.strat)
  | .registerShare fp =>
    some (decide (fp ∉ shareRoom w.strat.seenShares),
      { w.strat with seenShares := insert fp (shareRoom w.strat.seenShares) })
  | .noteShareDiff d =>
    some ((), { w.strat with
      bestShareRound := if 0 < d then max d w.strat.bestShareRound else w.strat.bestShareRound })
  | .newJobId true =>
    if w.nextId = intToHex ((fromChars32 w.nextId).getD 0) 8 then some (w.nextId, w.strat)
    else none
  | .newJobId false =>
    if w.nextId = leHexU64 (UInt64.ofNat (idValue w.nextId)) then some (w.nextId, w.strat)
    else none
  | .swapPrevhash p =>
    some (decide (p ≠ w.strat.lastPrevhash), { w.strat with lastPrevhash := p })
  | .clearShares => some ((), { w.strat with seenShares := ∅ })
  | .resetBestShare => some ((), { w.strat with bestShareRound := 0 })
  | .pushJob job => some ((), { w.strat with jobs := w.strat.jobs.push job.jobId job })
  | .nowUnix => some (r.nowUnix, w.strat)
  | .steadyNow => clock.map fun now => (now, w.strat)
  | .rand => some (r.rand, w.strat)
  | .ensureMiner _ _ => some (r.minerId, w.strat)
  | .blacklist _ _ => some (r.blacklist, w.strat)
  | .recordInvalidShare => some (r.ban, w.strat)
  | .clearInvalid | .validateAddress _ | .send _ | .sendV2 _ | .scored .. | .countAccepted ..
  | .enqueueShare _ | .submitBlock _ | .withholdBlock _ | .submitAuxBlock _ | .callbacks _ =>
    some ((), w.strat)

/-- The answer of a call and the world after it. -/
def answer (r : Replies) (clock : Option ℚ) (c : Call) (w : World) : Option (Answer c × World) :=
  (reply r clock w c).map fun y =>
    (y.1, { w with strat := y.2, posted := w.post c, log := ⟨c, y.1⟩ :: w.log })

theorem reply_allowed {r : Replies} {clock : Option ℚ} {w : World} {c : Call} {x : Answer c}
    {st : StratState} (hclock : ∀ now, clock = some now → now ∈ w.readings)
    (h : reply r clock w c = some (x, st)) : StratStep c w.strat x st ∧ w.Gives c x := by
  unfold reply at h
  split at h
  case h_14 =>
    obtain ⟨now, hnow, he⟩ := Option.map_eq_some_iff.mp h
    obtain ⟨rfl, rfl⟩ := Prod.mk.inj he
    exact ⟨rfl, hclock now hnow⟩
  case h_7 | h_8 =>
    split at h
    · rename_i hv
      obtain ⟨rfl, rfl⟩ := Prod.mk.inj (Option.some.inj h)
      exact ⟨⟨⟨_, hv⟩, rfl⟩, rfl⟩
    · cases h
  all_goals
    obtain ⟨rfl, rfl⟩ := Prod.mk.inj (Option.some.inj h)
    first
    | exact ⟨⟨rfl, rfl⟩, trivial⟩
    | exact ⟨rfl, trivial⟩

theorem answer_allowed {r : Replies} {clock : Option ℚ} {c : Call} {w w' : World} {x : Answer c}
    (hclock : ∀ now, clock = some now → now ∈ w.readings)
    (h : answer r clock c w = some (x, w')) :
    DeskCall c w x w' ∧ ∀ now, clock = some now → now ∈ w'.readings := by
  obtain ⟨⟨y, st⟩, hy, he⟩ := Option.map_eq_some_iff.mp h
  obtain ⟨rfl, rfl⟩ := Prod.mk.inj he
  obtain ⟨hst, hgives⟩ := reply_allowed hclock hy
  exact ⟨⟨hst, hgives, rfl, rfl, rfl, rfl⟩, hclock⟩

theorem exec_of_answers {α : Type} {r : Replies} {clock : Option ℚ} {p : Act α} {w w' : World}
    {a : α} (hclock : ∀ now, clock = some now → now ∈ w.readings)
    (h : p.eval (answer r clock) w = some (a, w')) : desk.Exec p w a w' :=
  desk.exec_of_eval (I := fun w => ∀ now, clock = some now → now ∈ w.readings)
    (fun _ _ _ _ hI h => answer_allowed hI h) hclock h

/-- What happens next, at a desk. The check that is answered is the last one
asked for. -/
inductive Move where
  | line (msg : Json)
  | message (msg : Request)
  | validated (error : Option Str) (valid : Bool)
  | notify
  | work (gbt : Json) (jobId : Str)

/-- The check an event asks for. -/
def askedIn : Event → Option Validation
  | ⟨.validateAddress v, _⟩ => some v
  | _ => none

theorem mem_of_askedIn {log : List Event} {v : Validation} (h : log.findSome? askedIn = some v) :
    (⟨.validateAddress v, ()⟩ : Event) ∈ log := by
  obtain ⟨e, he, hv⟩ := List.exists_of_findSome?_eq_some h
  unfold askedIn at hv
  split at hv
  · cases hv
    exact he
  · cases hv

/-- The input a move is, where it can be made. -/
def Move.input (r : Replies) (d : DeskState) : Move → Option Input
  | .line msg => if d.session.isV2 then none else some (.task (.line (some msg)) {r.now})
  | .message msg => if d.session.isV2 then some (.task (.message msg) {r.now}) else none
  | .validated error valid =>
    (d.world.log.findSome? askedIn).map fun v => .task (.validated v error valid) {r.now}
  | .notify => some .notify
  | .work gbt jobId => some (.work gbt jobId)

theorem Move.eq_work {r : Replies} {d : DeskState} {m : Move} {gbt : Json} {jobId : Str}
    (h : m.input r d = some (.work gbt jobId)) : m = .work gbt jobId := by
  cases m with
  | line | message =>
    simp only [Move.input] at h
    split at h <;> cases h
  | validated error valid =>
    obtain ⟨_, _, he⟩ := Option.map_eq_some_iff.mp h
    cases he
  | notify => cases h
  | work =>
    cases h
    rfl

theorem Move.task_of_line {r : Replies} {d : DeskState} {msg : Json} {i : Input}
    (h : (Move.line msg).input r d = some i) : ∃ t readings, i = .task t readings := by
  simp only [Move.input] at h
  split at h
  · cases h
  · cases h
    exact ⟨_, _, rfl⟩

theorem Move.task_of_message {r : Replies} {d : DeskState} {msg : Request} {i : Input}
    (h : (Move.message msg).input r d = some i) : ∃ readings, i = .task (.message msg) readings := by
  simp only [Move.input] at h
  split at h
  · cases h
    exact ⟨_, rfl⟩
  · cases h

/-- The state after an input. -/
def perform (env : Env) (r : Replies) (d : DeskState) : Input → Option DeskState
  | .task t readings =>
    ((t.prog env d.session).eval (answer r (some r.now)) { d.world with readings }).map
      fun y => ⟨y.1.session, y.2⟩
  | .notify =>
    match d.world.posted with
    | [] => none
    | job :: rest =>
      ((Task.prog env d.session (.notify job)).eval (answer r none)
        { d.world with posted := rest }).map fun y => ⟨y.1.session, y.2⟩
  | .work gbt jobId =>
    ((updateWork env.coin env.hashes gbt).eval (answer r none)
      { d.world with nextId := jobId }).map fun y => ⟨d.session, y.2⟩
  | .others .. => none

/-- The state after a list of moves, each made where the check allows it. -/
def play (env : Env) (check : DeskState → Move → Bool) : DeskState → List (Replies × Move) →
    Option DeskState
  | d, [] => some d
  | d, (r, m) :: moves =>
    if check d m then
      ((m.input r d).bind (perform env r d)).bind fun d' => play env check d' moves
    else none

section Played

variable {env : Env} {isV2 : Bool}

theorem step_of_perform {r : Replies} {d d' : DeskState} {m : Move} {i : Input}
    (hi : m.input r d = some i) (h : perform env r d i = some d') : Step env d i d' := by
  obtain ⟨s, w⟩ := d
  have clock : ∀ now, some r.now = some now → now ∈ ({r.now} : Set ℚ) :=
    fun now hnow => (Option.some.inj hnow).symm
  have task {t : Task} (offered : Task.Offered ⟨s, w⟩ t)
      (h : perform env r ⟨s, w⟩ (.task t {r.now}) = some d') :
      Step env ⟨s, w⟩ (.task t {r.now}) d' := by
    obtain ⟨⟨o, w'⟩, he, rfl⟩ := Option.map_eq_some_iff.mp h
    exact .task offered (exec_of_answers clock he)
  cases m with
  | line msg =>
    simp only [Move.input] at hi
    split at hi
    · cases hi
    · rename_i hv
      cases hi
      exact task (by simpa [Task.Offered] using hv) h
  | message msg =>
    simp only [Move.input] at hi
    split at hi
    · rename_i hv
      cases hi
      exact task hv h
    · cases hi
  | validated error valid =>
    obtain ⟨v, hv, rfl⟩ := Option.map_eq_some_iff.mp hi
    exact task (mem_of_askedIn hv) h
  | notify =>
    cases hi
    unfold perform at h
    dsimp only at h
    split at h
    · cases h
    · rename_i job rest hp
      obtain ⟨⟨o, w'⟩, he, rfl⟩ := Option.map_eq_some_iff.mp h
      exact .notify hp (exec_of_answers (by simp) he)
  | work gbt jobId =>
    cases hi
    obtain ⟨⟨_, w'⟩, he, rfl⟩ := Option.map_eq_some_iff.mp h
    exact .work (exec_of_answers (by simp) he)

/-- **What is played is a run.** -/
theorem reach_of_play (ok : DeskState → Input → Prop) {check : DeskState → Move → Bool}
    (hcheck : ∀ r d m i, check d m = true → m.input r d = some i → ok d i)
    {moves : List (Replies × Move)} {d d' : DeskState} (hd : Reach env isV2 ok d)
    (h : play env check d moves = some d') : Reach env isV2 ok d' := by
  induction moves generalizing d with
  | nil =>
    cases h
    exact hd
  | cons rm moves ih =>
    obtain ⟨r, m⟩ := rm
    unfold play at h
    split at h
    · rename_i hc
      obtain ⟨d₁, h₁, h⟩ := Option.bind_eq_some_iff.mp h
      obtain ⟨i, hi, h₁⟩ := Option.bind_eq_some_iff.mp h₁
      exact ih (.step hd (hcheck r d m i hc hi) (step_of_perform hi h₁)) h
    · cases h

theorem log_of_step {d d' : DeskState} {i : Input} (hs : Step env d i d') :
    ∃ evs, d'.world.log = evs ++ d.world.log := by
  cases hs with
  | task offered run | notify head run | work run =>
    obtain ⟨evs, hlog, _⟩ := exec_log (S := fun _ => True) run (Prog.all_true _)
    exact ⟨evs, hlog⟩
  | others => exact ⟨[], rfl⟩

theorem log_of_play {check : DeskState → Move → Bool} {moves : List (Replies × Move)}
    {d d' : DeskState} (h : play env check d moves = some d') :
    ∃ evs, d'.world.log = evs ++ d.world.log := by
  induction moves generalizing d with
  | nil =>
    cases h
    exact ⟨[], rfl⟩
  | cons rm moves ih =>
    obtain ⟨r, m⟩ := rm
    unfold play at h
    split at h
    · obtain ⟨d₁, h₁, h⟩ := Option.bind_eq_some_iff.mp h
      obtain ⟨i, hi, h₁⟩ := Option.bind_eq_some_iff.mp h₁
      obtain ⟨evs₁, hlog₁⟩ := log_of_step (step_of_perform hi h₁)
      obtain ⟨evs₂, hlog₂⟩ := ih h
      exact ⟨evs₂ ++ evs₁, by rw [hlog₂, hlog₁, List.append_assoc]⟩
    · cases h

end Played

/-! ## A pool to play at -/

/-- A hash function with one value, which is not zero. -/
def sampleHash : Hash256 := ⟨List.replicate 32 1, List.length_replicate⟩

theorem fits_sample :
    Address.AddressType.p2pkh.fits (List.replicate 20 (7 : UInt8)).length = true := rfl

/-- A Litecoin pool with merge mining. Every address decodes to one script. -/
def sampleEnv : Env where
  coin :=
    { chain := .litecoin
      aux := { payoutAddress := "pool".toList }
      coinbaseSignature := []
      donationAddress := "operator".toList }
  hashes := { sha256d := fun _ => sampleHash, scrypt := fun _ => sampleHash }
  decode _ := .ok
    { type := .p2pkh, network := .bitcoinMainnet, program := List.replicate 20 7,
      size := fits_sample }
  zcash :=
    { taddrToScript := fun _ => []
      swapMinerOutput := fun _ _ _ _ => []
      zip244Txid := fun _ => sampleHash }
  equihashVerify _ _ := false
  ecashRttOk _ _ _ _ := true
  exp _ := 2
  fmtDouble _ := []
  hasAux := true

def field (name : String) (v : Json) : Str × Json := (name.toList, v)

/-- The usual replies. -/
def usual : Replies := {}

/-- A request with string parameters. -/
def request (method : String) (params : List String) : Json :=
  .object [field "method" (.string method.toList),
    field "params" (.array (params.map fun p => .string p.toList))]

def hex64 (c : Char) : Json := .string (List.replicate 64 c)

/-- A template without transactions, with Dogecoin work. -/
def sampleTemplate (prevhash auxPrevhash : Char) : Json :=
  .object [field "result" (.object [
    field "previousblockhash" (hex64 prevhash), field "bits" (.string "1d00ffff".toList),
    field "coinbasevalue" (.unsigned 1000), field "height" (.unsigned 0),
    field "aux" (.object [
      field "previousblockhash" (hex64 auxPrevhash), field "bits" (.string "1d00ffff".toList),
      field "coinbasevalue" (.unsigned 500), field "target" (hex64 'f')])])]

/-- A session that just connected. -/
def start (env : Env) (isV2 : Bool) : DeskState where
  session := Session.new env "0a0b0c0d".toList "1".toList 0 isV2
  world := { strat := { jobs := { capacity := env.coin.jobWindowSize } } }

theorem reach_start {env : Env} {isV2 : Bool} {ok : DeskState → Input → Prop} :
    Reach env isV2 ok (start env isV2) :=
  .init ⟨_, _, _, rfl⟩

/-- A header hash of difficulty 2047 and a bit, as scrypt gives it. -/
def lowHash : Hash256 := ⟨List.replicate 28 0 ++ [32, 0, 0, 0], rfl⟩

/-- The pool where every share has that hash, and the difficulty is 1. -/
def easyPool : Env :=
  { sampleEnv with
    coin := { sampleEnv.coin with activeTier := { startingDifficulty := 1 } }
    hashes := { sha256d := fun _ => sampleHash, scrypt := fun _ => lowHash } }

def firstId : Str := "0100000000000000".toList

/-- A V1 miner connects and is authorized. -/
def minerJoins : List (Replies × Move) :=
  [(usual, .line (request "mining.subscribe" [])),
    (usual, .line (request "mining.authorize" ["miner.1", "x"])), (usual, .validated none true)]

/-- A V2 miner connects and opens a standard channel. -/
def channelOpens : List (Replies × Move) :=
  [(usual, .message (.setupConnection 0)),
    (usual, .message (.openStandardMiningChannel
      { requestId := 1, userIdentity := "miner.1".toList }))]

/-- A job is published, and the session told. -/
def firstJob : List (Replies × Move) :=
  [(usual, .work (sampleTemplate 'a' 'b') firstId), (usual, .notify)]

/-- Shares of the first job, on either protocol. -/
def firstShare : Json :=
  request "mining.submit" ["miner.1", "0100000000000000", "0000000000000000", "00000000",
    "00000000"]

def firstShareV2 : SubmitSharesStandard :=
  { channelId := 1000, sequenceNumber := 1, jobId := 0x01000000, nonce := 0, ntime := 0,
    version := 1 }

/-- Any move may be made. -/
def anyMove (_ : DeskState) (_ : Move) : Bool := true

end MkPool.Play
