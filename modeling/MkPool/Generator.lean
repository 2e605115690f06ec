import MkPool.JsonValue
import Mathlib.Data.List.Pairwise

/-! # `generator.cpp`: fetching block templates

A fetch is one `getblocktemplate` request, with a second one for the aux chain
after the reply where there is an aux client. Every request has a connection of
its own, so replies come in any order. The poll timer, the keepalive timer and
the watchdog go off when the clock says so; here they are inputs. -/
namespace MkPool.Generator
open MkPool.Utils MkPool.JsonValue

/-- A fetch under way. `parent` is the first reply, once the aux template was
asked for. -/
structure Fetch where
  number : Nat
  fromPoll : Bool
  aux : Bool
  parent : Option Json := none

/-- The state of the `Generator`. Fetches are numbered as they start. `source`
is the number of the one that produced `currentTemplate_`, and `delivered` what
`templateCallback_` was called with, the latest first. -/
structure GeneratorState where
  running : Bool := false
  stopped : Bool := false
  useZMQ : Bool := false
  zmqConnected : Bool := false
  hasAux : Bool := false
  currentTemplate : Json := .null
  source : Option Nat := none
  started : Nat := 0
  inFlight : List Fetch := []
  delivered : List (Nat × Json) := []

/-! ## Starting fetches -/

/-- `asyncGetBlockTemplate`, with the aux client of the moment. -/
def launch (g : GeneratorState) (fromPoll : Bool) : GeneratorState :=
  { g with
    started := g.started + 1
    inFlight := { number := g.started, fromPoll, aux := g.hasAux } :: g.inFlight }

def pollBlockTemplate (g : GeneratorState) : GeneratorState :=
  if g.running then launch g true else g

/-- The handler of the timer that `armJobUpdate` sets. -/
def jobUpdate (g : GeneratorState) : GeneratorState :=
  if g.running then launch g false else g

def startRPCPolling (g : GeneratorState) : GeneratorState :=
  pollBlockTemplate { g with useZMQ := false }

/-- `startZMQ`; `up` is whether `startZmqClients` could start one. -/
def startZMQ (g : GeneratorState) (up : Bool) : GeneratorState :=
  if up then pollBlockTemplate { g with zmqConnected := true } else startRPCPolling g

def start (g : GeneratorState) (up : Bool) : GeneratorState :=
  let g := { g with running := true }
  if g.useZMQ then startZMQ g up else startRPCPolling g

def stop (g : GeneratorState) : GeneratorState :=
  if g.stopped then g else { g with stopped := true, running := false, zmqConnected := false }

def handleZMQMessage (g : GeneratorState) (topic : Str) : GeneratorState :=
  if topic = "hashblock".toList then pollBlockTemplate g else g

def reconnectZmq (g : GeneratorState) (up : Bool) : GeneratorState :=
  if up then pollBlockTemplate { g with zmqConnected := true } else { g with zmqConnected := false }

/-- The handler of the watchdog timer. `due` is what the clocks say: that the
feed went stale and the last attempt is long enough ago. -/
def watchdog (g : GeneratorState) (due up : Bool) : GeneratorState :=
  if !g.running || !due then g
  else if g.useZMQ then reconnectZmq g up
  else { reconnectZmq g up with useZMQ := up }

/-! ## Replies -/

/-- The tip a template builds on. -/
def prevhashOf (tj : Json) : Option Str :=
  match tj.find? "result".toList with
  | none | some .null => some []
  | some r => r.valueString "previousblockhash" []

/-- `aux_prevhash_of`. -/
def auxPrevhashOf (tj : Json) : Option Str :=
  match (tj.objectAt? "result".toList).bind (·.objectAt? "aux".toList) with
  | some a => a.valueString "previousblockhash" []
  | none => some []

/-- `currentTemplate_ = templateJson`, and the callback. -/
def install (g : GeneratorState) (number : Nat) (tj : Json) : GeneratorState :=
  { g with currentTemplate := tj, source := some number, delivered := (number, tj) :: g.delivered }

/-- `handleBlockTemplate` up to the next poll, for the reply of fetch `number`.
`connected` is whether a feed is up. Nothing is returned where reading the
template throws. -/
def handleBlockTemplate (g : GeneratorState) (number : Nat) (ec : Bool) (templateJson : Json)
    (fromPoll connected : Bool) : Option GeneratorState :=
  if fromPoll && g.useZMQ && !connected then some (startRPCPolling { g with zmqConnected := false })
  else if ec then some g
  else do
    let newPrevhash ← prevhashOf templateJson
    let oldPrevhash ← prevhashOf g.currentTemplate
    let newAuxPrevhash ← auxPrevhashOf templateJson
    let oldAuxPrevhash ← auxPrevhashOf g.currentTemplate
    if newPrevhash ≠ oldPrevhash || newAuxPrevhash ≠ oldAuxPrevhash then
      return install g number templateJson
    else if !fromPoll then return install g number templateJson
    else return g

/-- `j[key] = v` on an object. -/
def setField (fields : List (Str × Json)) (key : Str) (v : Json) : List (Str × Json) :=
  (key, v) :: fields.filter fun f => f.1 ≠ key

/-- The aux template under `result.aux`, where both replies have a result. -/
def mergeAux (parent aux : Json) : Json :=
  match parent, parent.find? "result".toList, aux.objectAt? "result".toList with
  | .object fields, some (.object result), some auxResult =>
    .object (setField fields "result".toList (.object (setField result "aux".toList auxResult)))
  | _, _, _ => parent

/-- What a reply gives `handleBlockTemplate`: an error or a template. The first
reply of a fetch with an aux client gives nothing yet. -/
def outcome (f : Fetch) (ec : Bool) (response : Json) : Option (Bool × Json) :=
  match f.parent with
  | some parent => some (false, if ec then parent else mergeAux parent response)
  | none => if ec || !f.aux then some (ec, response) else none

/-- A reply. `connected` is whether a feed is up, and `threw` what the template
callback does if it is called: after an exception the same fetch is answered
again, with an error or by another node. -/
structure Reply where
  ec : Bool
  response : Json
  connected : Bool
  threw : Bool

def finish (g : GeneratorState) (number : Nat) : GeneratorState :=
  { g with inFlight := g.inFlight.filter fun f => f.number ≠ number }

/-- The aux template is asked for. -/
def chainAux (g : GeneratorState) (number : Nat) (response : Json) : GeneratorState :=
  { g with
    inFlight := g.inFlight.map fun f =>
      if f.number = number then { f with parent := some response } else f }

def handleReply (g : GeneratorState) (f : Fetch) (r : Reply) : GeneratorState :=
  match outcome f r.ec r.response with
  | none => chainAux g f.number r.response
  | some (ec, tj) =>
    match handleBlockTemplate g f.number ec tj f.fromPoll r.connected with
    | none => g
    | some g' =>
      if r.threw && g.delivered.length < g'.delivered.length then g' else finish g' f.number

/-! ## Steps -/

inductive Input where
  | start (up : Bool)
  | stop
  | setAuxClient (hasAux : Bool)
  | pollTimer
  | updateTimer
  | watchdogTimer (due up : Bool)
  | zmq (topic : Str)
  | reply (number : Nat) (r : Reply)

/-- The state after an input. A reply needs its fetch. -/
def react (g : GeneratorState) : Input → Option GeneratorState
  | .start up => some (start g up)
  | .stop => some (stop g)
  | .setAuxClient hasAux => some { g with hasAux }
  | .pollTimer => some (pollBlockTemplate g)
  | .updateTimer => some (jobUpdate g)
  | .watchdogTimer due up => some (watchdog g due up)
  | .zmq topic => some (handleZMQMessage g topic)
  | .reply number r =>
    (g.inFlight.find? fun f => f.number = number).map fun f => handleReply g f r

/-! ## What a step does to the template -/

/-- The template, and all that was delivered. -/
structure SameTemplate (g g' : GeneratorState) : Prop where
  template : g'.currentTemplate = g.currentTemplate
  source : g'.source = g.source
  delivered : g'.delivered = g.delivered

theorem SameTemplate.refl (g : GeneratorState) : SameTemplate g g := ⟨rfl, rfl, rfl⟩

theorem same_poll (g : GeneratorState) : SameTemplate g (pollBlockTemplate g) := by
  unfold pollBlockTemplate
  split <;> exact ⟨rfl, rfl, rfl⟩

theorem same_polling (g : GeneratorState) : SameTemplate g (startRPCPolling g) := by
  obtain ⟨ht, hs, hd⟩ := same_poll { g with useZMQ := false }
  exact ⟨ht, hs, hd⟩

theorem same_reconnect (g : GeneratorState) (up : Bool) : SameTemplate g (reconnectZmq g up) := by
  unfold reconnectZmq
  split
  · obtain ⟨ht, hs, hd⟩ := same_poll { g with zmqConnected := true }
    exact ⟨ht, hs, hd⟩
  · exact ⟨rfl, rfl, rfl⟩

theorem same_start (g : GeneratorState) (up : Bool) : SameTemplate g (start g up) := by
  unfold start
  dsimp only
  split
  · unfold startZMQ
    split
    · obtain ⟨ht, hs, hd⟩ := same_poll { g with running := true, zmqConnected := true }
      exact ⟨ht, hs, hd⟩
    · obtain ⟨ht, hs, hd⟩ := same_polling { g with running := true }
      exact ⟨ht, hs, hd⟩
  · obtain ⟨ht, hs, hd⟩ := same_polling { g with running := true }
    exact ⟨ht, hs, hd⟩

theorem same_watchdog (g : GeneratorState) (due up : Bool) : SameTemplate g (watchdog g due up) := by
  unfold watchdog
  split
  · exact .refl g
  · split
    · exact same_reconnect g up
    · obtain ⟨ht, hs, hd⟩ := same_reconnect g up
      exact ⟨ht, hs, hd⟩

/-- A reply is set aside: no feed is up in ZMQ mode, it is an error, it cannot
be read, or a poll names the tips of the current template. -/
def SetAside (g : GeneratorState) (fromPoll : Bool) (r : Reply) (ec : Bool) (tj : Json) : Prop :=
  (fromPoll = true ∧ g.useZMQ = true ∧ r.connected = false) ∨ ec = true ∨
    prevhashOf tj = none ∨ auxPrevhashOf tj = none ∨
    (fromPoll = true ∧ prevhashOf tj = prevhashOf g.currentTemplate ∧
      auxPrevhashOf tj = auxPrevhashOf g.currentTemplate)

/-- The current template can be read. -/
def Readable (g : GeneratorState) : Prop :=
  prevhashOf g.currentTemplate ≠ none ∧ auxPrevhashOf g.currentTemplate ≠ none

section Handled

variable {g g' : GeneratorState} {number : Nat} {ec : Bool} {tj : Json} {fromPoll : Bool} {r : Reply}

/-- What is read, where nothing throws. -/
theorem handleBlockTemplate_read {new auxNew old auxOld : Str} (hec : ec = false)
    (hup : (fromPoll && g.useZMQ && !r.connected) = false) (hnew : prevhashOf tj = some new)
    (hold : prevhashOf g.currentTemplate = some old) (haux : auxPrevhashOf tj = some auxNew)
    (hauxOld : auxPrevhashOf g.currentTemplate = some auxOld) :
    handleBlockTemplate g number ec tj fromPoll r.connected =
      some (if new = old ∧ auxNew = auxOld ∧ fromPoll = true then g
        else install g number tj) := by
  unfold handleBlockTemplate
  rw [hup, hec, hnew, hold, haux, hauxOld]
  by_cases h : new = old ∧ auxNew = auxOld
  · obtain ⟨rfl, rfl⟩ := h
    cases fromPoll <;> simp
  · have hne : (new ≠ old || auxNew ≠ auxOld) = true := by
      simp only [Bool.or_eq_true, decide_eq_true_eq]
      tauto
    have hnot : ¬ (new = old ∧ auxNew = auxOld ∧ fromPoll = true) := fun hs => h ⟨hs.1, hs.2.1⟩
    simp only [Option.bind_eq_bind, Option.bind_some, hne, if_true, if_neg hnot]
    rfl

/-- A reply that is set aside leaves the template. -/
theorem same_of_setAside (hg : Readable g) (h : SetAside g fromPoll r ec tj)
    (hh : handleBlockTemplate g number ec tj fromPoll r.connected = some g') :
    SameTemplate g g' := by
  by_cases hup : (fromPoll && g.useZMQ && !r.connected) = true
  · unfold handleBlockTemplate at hh
    rw [if_pos hup] at hh
    cases hh
    obtain ⟨ht, hs, hd⟩ := same_polling { g with zmqConnected := false }
    exact ⟨ht, hs, hd⟩
  · rw [Bool.not_eq_true] at hup
    by_cases hec : ec = true
    · unfold handleBlockTemplate at hh
      rw [hup, hec] at hh
      cases hh
      exact .refl g
    · rw [Bool.not_eq_true] at hec
      obtain ⟨old, hold⟩ := Option.ne_none_iff_exists'.mp hg.1
      obtain ⟨auxOld, hauxOld⟩ := Option.ne_none_iff_exists'.mp hg.2
      rcases h with ⟨hpoll, hzmq, hdown⟩ | herr | hnone | hnone | ⟨hpoll, hnew, haux⟩
      · rw [hpoll, hzmq, hdown] at hup
        cases hup
      · rw [hec] at herr
        cases herr
      · unfold handleBlockTemplate at hh
        rw [hup, hec, hnone] at hh
        cases hh
      · unfold handleBlockTemplate at hh
        rw [hup, hec, hold, hnone] at hh
        cases hnew : prevhashOf tj <;> rw [hnew] at hh <;> cases hh
      · rw [handleBlockTemplate_read hec hup (hnew.trans hold) hold (haux.trans hauxOld) hauxOld,
          if_pos ⟨rfl, rfl, hpoll⟩] at hh
        cases hh
        exact .refl g

/-- Any other becomes the template. -/
theorem install_of_not_setAside (number : Nat) (hg : Readable g) (h : ¬ SetAside g fromPoll r ec tj) :
    handleBlockTemplate g number ec tj fromPoll r.connected = some (install g number tj) ∧
      Readable (install g number tj) := by
  unfold SetAside at h
  push Not at h
  obtain ⟨hfeed, hec, hnew, haux, hsame⟩ := h
  replace hec := Bool.eq_false_of_not_eq_true hec
  obtain ⟨new, hnew⟩ := Option.ne_none_iff_exists'.mp hnew
  obtain ⟨auxNew, haux⟩ := Option.ne_none_iff_exists'.mp haux
  obtain ⟨old, hold⟩ := Option.ne_none_iff_exists'.mp hg.1
  obtain ⟨auxOld, hauxOld⟩ := Option.ne_none_iff_exists'.mp hg.2
  have hup : (fromPoll && g.useZMQ && !r.connected) = false := by
    cases fromPoll <;> cases hz : g.useZMQ <;> simp_all
  have hnot : ¬ (new = old ∧ auxNew = auxOld ∧ fromPoll = true) := by
    rintro ⟨rfl, rfl, hpoll⟩
    exact hsame hpoll (hnew.trans hold.symm) (haux.trans hauxOld.symm)
  rw [handleBlockTemplate_read hec hup hnew hold haux hauxOld, if_neg hnot]
  refine ⟨rfl, ?_, ?_⟩
  · show prevhashOf tj ≠ none
    rw [hnew]
    exact Option.some_ne_none _
  · show auxPrevhashOf tj ≠ none
    rw [haux]
    exact Option.some_ne_none _

end Handled

/-- A reply makes a template current. -/
structure Installs (g : GeneratorState) (number : Nat) (r : Reply) (g' : GeneratorState) : Prop where
  reply : ∃ f ec, (g.inFlight.find? fun f => f.number = number) = some f ∧
    outcome f r.ec r.response = some (ec, g'.currentTemplate) ∧
    ¬ SetAside g f.fromPoll r ec g'.currentTemplate
  source : g'.source = some number
  delivered : g'.delivered = (number, g'.currentTemplate) :: g.delivered
  readable : Readable g'

theorem handleReply_cases {g : GeneratorState} {f : Fetch} {r : Reply} {number : Nat}
    (hg : Readable g) (hf : (g.inFlight.find? fun f => f.number = number) = some f) :
    SameTemplate g (handleReply g f r) ∨ Installs g number r (handleReply g f r) := by
  have hnumber : f.number = number := by simpa using List.find?_some hf
  unfold handleReply
  cases ho : outcome f r.ec r.response with
  | none => exact .inl ⟨rfl, rfl, rfl⟩
  | some y =>
    obtain ⟨ec, tj⟩ := y
    by_cases h : SetAside g f.fromPoll r ec tj
    · left
      dsimp only
      split
      · exact .refl g
      · rename_i g' hh
        obtain ⟨ht, hs, hd⟩ := same_of_setAside hg h hh
        split
        · exact ⟨ht, hs, hd⟩
        · exact ⟨ht, hs, hd⟩
    · right
      obtain ⟨hh, hread⟩ := install_of_not_setAside f.number hg h
      subst hnumber
      dsimp only
      rw [hh]
      dsimp only
      split
      · exact ⟨⟨f, ec, hf, ho, h⟩, rfl, rfl, hread⟩
      · exact ⟨⟨f, ec, hf, ho, h⟩, rfl, rfl, hread⟩

/-- **What a step does to the template.** -/
theorem react_cases {g g' : GeneratorState} {i : Input} (hg : Readable g)
    (h : react g i = some g') :
    SameTemplate g g' ∨ ∃ number r, i = .reply number r ∧ Installs g number r g' := by
  cases i with
  | reply number r =>
    obtain ⟨f, hf, rfl⟩ := Option.map_eq_some_iff.mp h
    exact (handleReply_cases hg hf).imp_right fun h => ⟨number, r, rfl, h⟩
  | start up =>
    cases h
    exact .inl (same_start g up)
  | stop =>
    cases h
    left
    unfold stop
    split <;> exact ⟨rfl, rfl, rfl⟩
  | setAuxClient hasAux =>
    cases h
    exact .inl ⟨rfl, rfl, rfl⟩
  | pollTimer =>
    cases h
    exact .inl (same_poll g)
  | updateTimer =>
    cases h
    left
    unfold jobUpdate
    split <;> exact ⟨rfl, rfl, rfl⟩
  | watchdogTimer due up =>
    cases h
    exact .inl (same_watchdog g due up)
  | zmq topic =>
    cases h
    left
    unfold handleZMQMessage
    split
    · exact same_poll g
    · exact .refl g

theorem Readable.step {g g' : GeneratorState} {i : Input} (hg : Readable g)
    (h : react g i = some g') : Readable g' := by
  rcases react_cases hg h with ⟨ht, _, _⟩ | ⟨_, _, _, hi⟩
  · unfold Readable
    rw [ht]
    exact hg
  · exact hi.readable

/-! ## Replies that come late -/

/-- The reply of a fetch that started before the one that produced the current
template is set aside. -/
def InOrder (g : GeneratorState) : Input → Prop
  | .reply number r => ∀ f ec tj n, (g.inFlight.find? fun f => f.number = number) = some f →
    outcome f r.ec r.response = some (ec, tj) → g.source = some n → number < n →
    SetAside g f.fromPoll r ec tj
  | _ => True

/-- The template was not replaced by that of an earlier fetch. -/
def Fresh (g g' : GeneratorState) : Prop :=
  ∀ n, g.source = some n → ∃ n', g'.source = some n' ∧ n ≤ n'

/-- **A step keeps the template fresh exactly when no late reply gets through.** -/
theorem fresh_iff {g g' : GeneratorState} {i : Input} (hg : Readable g)
    (h : react g i = some g') : Fresh g g' ↔ InOrder g i := by
  constructor
  · intro hfresh
    cases i with
    | reply number r =>
      intro f ec tj n hf ho hn hlate
      by_contra hnot
      obtain ⟨f', hf', rfl⟩ := Option.map_eq_some_iff.mp h
      obtain rfl : f' = f := Option.some.inj (hf'.symm.trans hf)
      obtain ⟨n', hn', hle⟩ := hfresh n hn
      have hnumber : f'.number = number := by simpa using List.find?_some hf
      have hsource : (handleReply g f' r).source = some number := by
        obtain ⟨hh, _⟩ := install_of_not_setAside f'.number hg hnot
        unfold handleReply
        rw [ho]
        dsimp only
        rw [hh, hnumber]
        dsimp only
        split <;> rfl
      obtain rfl : n' = number := Option.some.inj (hn'.symm.trans hsource)
      omega
    | _ => trivial
  · intro hok n hn
    rcases react_cases hg h with ⟨_, hs, _⟩ | ⟨number, r, rfl, hi⟩
    · exact ⟨n, hs.trans hn, Nat.le_refl n⟩
    · obtain ⟨f, ec, hf, ho, hnot⟩ := hi.reply
      refine ⟨number, hi.source, ?_⟩
      by_contra hlt
      exact hnot (hok f ec _ n hf ho hn (by omega))

end MkPool.Generator
