import Mathlib.Data.List.AList
import MkPool.Utils

/-! # `rate_limiter.cpp`: connections and invalid shares by address

A time is the seconds of the steady clock since its epoch, where a bucket that
was never used stands. The count of open connections is below the maximum when
it grows, so its 32 bits are enough. -/
namespace MkPool.RateLimits
open MkPool.Utils

structure RateLimitConfig where
  maxConnectionsPerIp : Nat := 50000
  acceptBurst : Nat := 10000
  acceptRefillPerSec : ℚ := 1000
  invalidShareBanThreshold : Nat := 10000
  invalidShareWindow : ℚ := 300
  banDuration : ℚ := 3600

structure Bucket where
  tokens : ℚ := 0
  last : ℚ := 0
  openConnections : Nat := 0
  invalidShares : Nat := 0
  invalidWindowStart : ℚ := 0

structure RateLimiter where
  cfg : RateLimitConfig := {}
  buckets : AList fun _ : Str => Bucket := ∅
  bans : AList fun _ : Str => ℚ := ∅

/-- `buckets_[ip]`. -/
def RateLimiter.bucket (rl : RateLimiter) (ip : Str) : Bucket := (rl.buckets.lookup ip).getD {}

def RateLimiter.put (rl : RateLimiter) (ip : Str) (b : Bucket) : RateLimiter :=
  { rl with buckets := rl.buckets.insert ip b }

/-- `open_connections` of an address. -/
def RateLimiter.openConnections (rl : RateLimiter) (ip : Str) : Nat := (rl.bucket ip).openConnections

def refillLocked (cfg : RateLimitConfig) (b : Bucket) (now : ℚ) : Bucket :=
  if 0 < now - b.last then
    { b with
      tokens := min cfg.acceptBurst (b.tokens + (now - b.last) * cfg.acceptRefillPerSec)
      last := now }
  else b

def RateLimiter.isBanned (rl : RateLimiter) (now : ℚ) (ip : Str) : Bool :=
  match rl.bans.lookup ip with
  | none => false
  | some until_ => decide (now < until_)

/-- The bucket an accept looks at. -/
def RateLimiter.filled (rl : RateLimiter) (now : ℚ) (ip : Str) : Bucket :=
  let b := rl.bucket ip
  let b := if b.last = 0 then { b with tokens := rl.cfg.acceptBurst, last := now } else b
  refillLocked rl.cfg b now

def RateLimiter.allowConnection (rl : RateLimiter) (now : ℚ) (ip : Str) : Bool × RateLimiter :=
  if rl.isBanned now ip then (false, rl)
  else
    -- a ban that is over is forgotten
    let rl := { rl with bans := rl.bans.erase ip }
    let b := rl.filled now ip
    if b.tokens < 1 then (false, rl.put ip b)
    else if rl.cfg.maxConnectionsPerIp ≤ b.openConnections then (false, rl.put ip b)
    else
      (true, rl.put ip { b with tokens := b.tokens - 1, openConnections := b.openConnections + 1 })

def RateLimiter.onDisconnect (rl : RateLimiter) (ip : Str) : RateLimiter :=
  match rl.buckets.lookup ip with
  | none => rl
  | some b =>
    if 0 < b.openConnections then rl.put ip { b with openConnections := b.openConnections - 1 }
    else rl

def RateLimiter.ban (rl : RateLimiter) (now : ℚ) (ip : Str) (duration : ℚ) : RateLimiter :=
  { rl with bans := rl.bans.insert ip (now + duration) }

/-- The bucket an invalid share is counted in: a window that is over starts anew. -/
def RateLimiter.windowed (rl : RateLimiter) (now : ℚ) (ip : Str) : Bucket :=
  let b := rl.bucket ip
  if b.invalidWindowStart = 0 ∨ rl.cfg.invalidShareWindow < now - b.invalidWindowStart then
    { b with invalidWindowStart := now, invalidShares := 0 }
  else b

/-- `record_invalid_share`: whether the address is banned for it. -/
def RateLimiter.recordInvalidShare (rl : RateLimiter) (now : ℚ) (ip : Str) : Bool × RateLimiter :=
  let b := rl.windowed now ip
  let b := { b with invalidShares := b.invalidShares + 1 }
  if rl.cfg.invalidShareBanThreshold ≤ b.invalidShares then
    (true, (rl.put ip { b with invalidShares := 0 }).ban now ip rl.cfg.banDuration)
  else (false, rl.put ip b)

def RateLimiter.clearInvalid (rl : RateLimiter) (ip : Str) : RateLimiter :=
  match rl.buckets.lookup ip with
  | none => rl
  | some b => rl.put ip { b with invalidShares := 0 }

/-! ## What each operation does to the counts -/

variable {rl : RateLimiter} {now : ℚ} {ip : Str}

@[simp] theorem cfg_put (b : Bucket) : (rl.put ip b).cfg = rl.cfg := rfl

@[simp] theorem open_put (b : Bucket) (other : Str) : (rl.put ip b).openConnections other =
    if other = ip then b.openConnections else rl.openConnections other := by
  unfold RateLimiter.openConnections RateLimiter.bucket RateLimiter.put
  by_cases h : other = ip
  · subst h
    simp
  · rw [if_neg h, AList.lookup_insert_ne h]

@[simp] theorem open_ban (at_ duration : ℚ) (other : Str) :
    (rl.ban at_ ip duration).openConnections other = rl.openConnections other := rfl

@[simp] theorem open_filled : (rl.filled now ip).openConnections = rl.openConnections ip := by
  unfold RateLimiter.filled refillLocked RateLimiter.openConnections
  dsimp only
  split <;> split <;> rfl

/-- An accept adds one connection to an address that has room, or none. -/
theorem open_allowConnection (other : Str) :
    (rl.allowConnection now ip).2.openConnections other =
        (if (rl.allowConnection now ip).1 ∧ other = ip then rl.openConnections other + 1
         else rl.openConnections other) ∧
      ((rl.allowConnection now ip).1 = true →
        rl.openConnections ip < rl.cfg.maxConnectionsPerIp) := by
  have hfilled (rl : RateLimiter) (b : Bucket) (hb : b.openConnections = rl.openConnections ip) :
      (rl.put ip b).openConnections other = rl.openConnections other := by
    rw [open_put]
    split
    · rename_i h
      rw [hb, h]
    · rfl
  have herase : ({ rl with bans := rl.bans.erase ip } : RateLimiter).openConnections =
      rl.openConnections := rfl
  unfold RateLimiter.allowConnection
  split
  · simp
  · dsimp only
    split
    · exact ⟨by rw [hfilled _ _ open_filled, herase, if_neg (by simp)], fun h => by cases h⟩
    · split
      · exact ⟨by rw [hfilled _ _ open_filled, herase, if_neg (by simp)], fun h => by cases h⟩
      · rename_i hroom
        rw [open_filled, herase] at hroom
        refine ⟨?_, fun _ => by omega⟩
        rw [open_put]
        dsimp only
        rw [open_filled, herase]
        by_cases h : other = ip
        · rw [if_pos h, if_pos ⟨rfl, h⟩, h]
        · rw [if_neg h, if_neg (by simp [h])]

@[simp] theorem cfg_allowConnection : (rl.allowConnection now ip).2.cfg = rl.cfg := by
  unfold RateLimiter.allowConnection
  split
  · rfl
  · dsimp only
    split
    · rfl
    · split <;> rfl

@[simp] theorem open_onDisconnect (other : Str) : (rl.onDisconnect ip).openConnections other =
    if other = ip then rl.openConnections ip - 1 else rl.openConnections other := by
  unfold RateLimiter.onDisconnect
  have hopen : rl.openConnections ip = ((rl.buckets.lookup ip).getD {}).openConnections := rfl
  split
  · rename_i hnone
    rw [hnone] at hopen
    split
    · rename_i h
      rw [h, hopen]
      rfl
    · rfl
  · rename_i b hsome
    rw [hsome] at hopen
    replace hopen : rl.openConnections ip = b.openConnections := hopen
    split
    · rw [open_put, hopen]
    · rename_i hzero
      split
      · rename_i h
        rw [h]
        omega
      · rfl

@[simp] theorem cfg_onDisconnect : (rl.onDisconnect ip).cfg = rl.cfg := by
  unfold RateLimiter.onDisconnect
  split
  · rfl
  · split <;> rfl

/-- Shares leave the counts of connections alone. -/
@[simp] theorem open_recordInvalidShare (other : Str) :
    (rl.recordInvalidShare now ip).2.openConnections other = rl.openConnections other := by
  have hsame (b : Bucket) (hb : b.openConnections = rl.openConnections ip) :
      (rl.put ip b).openConnections other = rl.openConnections other := by
    rw [open_put]
    split
    · rename_i h
      rw [hb, h]
    · rfl
  have hwindow : (rl.windowed now ip).openConnections = rl.openConnections ip := by
    unfold RateLimiter.windowed
    dsimp only
    split <;> rfl
  unfold RateLimiter.recordInvalidShare
  dsimp only
  split
  · rw [open_ban]
    exact hsame _ hwindow
  · exact hsame _ hwindow

@[simp] theorem cfg_recordInvalidShare : (rl.recordInvalidShare now ip).2.cfg = rl.cfg := by
  unfold RateLimiter.recordInvalidShare
  dsimp only
  split <;> rfl

@[simp] theorem open_clearInvalid (other : Str) :
    (rl.clearInvalid ip).openConnections other = rl.openConnections other := by
  unfold RateLimiter.clearInvalid
  split
  · rfl
  · rename_i b hsome
    rw [open_put]
    split
    · rename_i h
      rw [h]
      show b.openConnections = ((rl.buckets.lookup ip).getD {}).openConnections
      rw [hsome]
      rfl
    · rfl

@[simp] theorem cfg_clearInvalid : (rl.clearInvalid ip).cfg = rl.cfg := by
  unfold RateLimiter.clearInvalid
  split <;> rfl

end MkPool.RateLimits
