import MkPool.Lib.RoundRobin
import MkPool.Utils
import Mathlib.Data.Rat.Defs
import Mathlib.Algebra.Order.Field.Rat
import Mathlib.Data.List.Perm.Basic

/-! # `upstream_client.cpp`: links and extranonce slots

A proxy serves its miners from upstream links. On each link a miner reserves a
slot, the first bytes of the upstream extranonce 2. Every function runs under
one lock, so a step is one of them. -/
namespace MkPool.UpstreamClient
open MkPool.Lib MkPool.Utils

/-- `Subscriber`. `given` is the extranonce 2 size its session was last told. -/
structure Subscriber where
  sink : Nat
  slotHex : Str
  given : Nat

/-- `Link`, with the state that slots depend on. -/
structure Link where
  weight : Nat
  connected : Bool := false
  authorized : Bool := false
  subscribed : Bool := false
  upEn1 : Str := []
  upEn2Size : Nat := 0
  slotSpan : Nat := 0
  nonceBytesEff : Nat := 0
  nextSlot : Nat := 0
  subscribers : List (Nat × Subscriber) := []

/-- `UpstreamClient`. The sinks in `gone` no longer lock. -/
structure Client where
  nonceBytes : Nat
  activeActive : Bool
  links : List Link
  primary : Option Nat := none
  gone : List Nat := []

/-- `ProxySlot`, where it is ok. -/
structure ProxySlot where
  linkId : Nat
  slotId : Nat
  slotHex : Str
  en1Hex : Str
  en2Size : Nat

/-- `nonceBytes` as the configuration keeps it. -/
def configNonceBytes (n : UInt8) : Nat :=
  if n.toNat < 1 then 1 else if 4 < n.toNat then 4 else n.toNat

/-! ## Extranonces -/

/-- `nonce_bytes_eff` for an upstream extranonce 2. -/
def effectiveBytes (nonceBytes en2Size : Nat) : Nat :=
  let want := if nonceBytes = 0 then 2 else nonceBytes
  if en2Size ≤ 1 then 0 else if en2Size ≤ want then en2Size - 1 else want

/-- `1u << n`, undefined from the width on. -/
def shiftOne (n : Nat) : Option Nat := if n < 32 then some (2 ^ n) else none

/-- `slot_span` for a width. -/
def spanOf (eff : Nat) : Option Nat := if eff = 0 then some 1 else shiftOne (8 * eff)

/-- `a > b ? a - b : 0`. -/
def rest (a b : Nat) : Nat := if b < a then a - b else 0

/-- The sessions whose sinks lock are told. -/
def reissue (gone : List Nat) (size : Nat) (e : Nat × Subscriber) : Nat × Subscriber :=
  if e.2.sink ∈ gone then e else (e.1, { e.2 with given := size })

/-- `set_upstream_extranonce`. Nothing is returned where the shift is undefined. -/
def setUpstreamExtranonce (nonceBytes : Nat) (gone : List Nat) (l : Link) (en1 : Str)
    (en2Size : Nat) (reconnect : Bool) : Option Link := do
  let eff := effectiveBytes nonceBytes en2Size
  let slotSpan ← spanOf eff
  let subscribers :=
    if reconnect then l.subscribers.map (reissue gone (rest en2Size eff)) else l.subscribers
  return { l with upEn1 := en1, upEn2Size := en2Size, nonceBytesEff := eff, slotSpan, subscribers }

/-! ## Assignment -/

def linkReady (l : Link) : Bool :=
  l.connected && l.authorized && l.subscribed && !l.upEn1.isEmpty && decide (0 < l.slotSpan)
    && decide (0 < l.nonceBytesEff) && decide (l.subscribers.length < l.slotSpan)

def load (l : Link) : ℚ := l.subscribers.length / max 1 l.weight

def loadAt (c : Client) (i : Nat) : ℚ := ((c.links[i]?).map load).getD 0

def readyAt (c : Client) (i : Nat) : Bool := (c.links[i]?).any linkReady

/-- The link with the least load, the first of several. -/
def leastLoaded (c : Client) (candidates : List Nat) : Option Nat :=
  candidates.foldl (fun best i =>
    match best with
    | none => some i
    | some b => if loadAt c i < loadAt c b then some i else some b) none

def pickLink (c : Client) : Option Nat :=
  let ready := (List.range c.links.length).filter (readyAt c)
  if c.activeActive then leastLoaded c ready
  else match c.primary.filter (readyAt c) with
    | some i => some i
    | none => ready.head?

/-- `allocate_on_locked`. -/
def allocateOn (l : Link) (linkId sink : Nat) : Link × Option ProxySlot :=
  if !linkReady l then (l, none)
  else
    let nb := l.nonceBytesEff
    match RoundRobin.search (· ∈ l.subscribers.map Prod.fst) l.slotSpan l.slotSpan l.nextSlot with
    | (none, nextSlot) => ({ l with nextSlot }, none)
    | (some cand, nextSlot) =>
      let slotHex := hexPadded (nb * 2) cand
      let en2Size := rest l.upEn2Size nb
      ({ l with
          nextSlot
          subscribers := (cand, { sink, slotHex, given := en2Size }) :: l.subscribers },
        some { linkId, slotId := cand, slotHex, en1Hex := l.upEn1 ++ slotHex, en2Size })

/-- The allocation on link `i`, written back. -/
def allocateAt (c : Client) (i sink : Nat) : Client × Option ProxySlot :=
  match c.links[i]? with
  | none => (c, none)
  | some l => ({ c with links := c.links.set i (allocateOn l i sink).1 }, (allocateOn l i sink).2)

def attach (c : Client) (sink : Nat) : Client × Option ProxySlot :=
  match pickLink c with
  | none => (c, none)
  | some i => allocateAt { c with primary := if c.activeActive then c.primary else some i } i sink

def modifyLink (c : Client) (i : Nat) (f : Link → Link) : Client :=
  match c.links[i]? with
  | none => c
  | some l => { c with links := c.links.set i (f l) }

def eraseSlots (ids : List Nat) (l : Link) : Link :=
  { l with subscribers := l.subscribers.filter fun e => e.1 ∉ ids }

def detach (c : Client) (linkId slotId : Nat) : Client := modifyLink c linkId (eraseSlots [slotId])

/-! ## Migration -/

/-- One subscriber of link `i` is moved, if some other link has room. The ids
to erase are collected. -/
def migrateOne (i : Nat) (target : Option Nat) (st : Client × List Nat)
    (e : Nat × Subscriber) : Client × List Nat :=
  if e.2.sink ∈ st.1.gone then (st.1, e.1 :: st.2)
  else
    let others := (List.range st.1.links.length).filter fun j => j ≠ i ∧ readyAt st.1 j
    match if st.1.activeActive then leastLoaded st.1 others else target with
    | none => st
    | some t =>
      match allocateAt st.1 t e.2.sink with
      | (c, none) => (c, st.2)
      | (c, some _) => (c, e.1 :: st.2)

/-- `migrate_link`, which meets the subscribers in the order of the table. -/
def migrateLink (c : Client) (i : Nat) (order : List (Nat × Subscriber)) : Client :=
  let target :=
    if c.activeActive then none
    else (List.range c.links.length).find? fun j => j ≠ i ∧ readyAt c j
  let primary := target.or (if c.primary = some i then none else c.primary)
  let (c, ids) := order.foldl (migrateOne i target) ({ c with primary }, [])
  modifyLink c i (eraseSlots ids)

/-! ## Steps -/

/-- What comes from the upstream pools, the sessions and the clock. The order
of a closed link's subscribers is its table's. -/
inductive Input where
  | connectLink (i : Nat)
  | connOpen (i : Nat)
  | connClose (i : Nat) (order : List (Nat × Subscriber))
  | subscribeResult (i : Nat) (en1 : Str) (en2Size : Nat)
  | authorizeResult (i : Nat)
  | setExtranonce (i : Nat) (en1 : Str) (en2Size : Nat)
  | attach (sink : Nat)
  | detach (linkId slotId : Nat)
  | sinkGone (sink : Nat)

def down (l : Link) : Link := { l with connected := false, authorized := false, subscribed := false }

/-- An extranonce of link `i`. -/
def extranonceAt (c : Client) (i : Nat) (en1 : Str) (en2Size : Nat) (reconnect : Bool)
    (f : Link → Link) : Option Client :=
  match c.links[i]? with
  | none => some c
  | some l => do
    let l ← setUpstreamExtranonce c.nonceBytes c.gone l en1 en2Size reconnect
    return { c with links := c.links.set i (f l) }

/-- The state after an input, unless it is undefined. -/
def react (c : Client) : Input → Option Client
  | .connectLink i => some (modifyLink c i down)
  | .connOpen i => some (modifyLink c i fun l => { l with connected := true })
  | .connClose i order => some (migrateLink (modifyLink c i down) i order)
  | .subscribeResult i en1 en2Size =>
    extranonceAt c i en1 en2Size false fun l => { l with subscribed := true }
  | .authorizeResult i => some (modifyLink c i fun l => { l with authorized := true })
  | .setExtranonce i en1 en2Size => extranonceAt c i en1 en2Size true id
  | .attach sink => some (attach c sink).1
  | .detach linkId slotId => some (detach c linkId slotId)
  | .sinkGone sink => some { c with gone := sink :: c.gone }

/-- The order in which a link's subscribers are met is one of the table. -/
def Offered (c : Client) : Input → Prop
  | .connClose i order => ∀ l, c.links[i]? = some l → order.Perm l.subscribers
  | _ => True

/-- The runs of a client whose steps meet a condition. -/
inductive Run (ok : Client → Input → Prop) : Client → Prop where
  | init (n : UInt8) (activeActive : Bool) (weights : List Nat) :
    Run ok
      { nonceBytes := configNonceBytes n, activeActive,
        links := weights.map fun weight => { weight } }
  | step {c c' : Client} {i : Input} (h : Run ok c) (hoffer : Offered c i) (hok : ok c i)
    (hs : react c i = some c') : Run ok c'

end MkPool.UpstreamClient
