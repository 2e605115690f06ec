import Mathlib.Tactic.Linarith
import MkPool.RateLimits

/-! # What the rate limiter lets in

The calls of a limiter in the order of their times: the connections of an address
in any interval, those open at once, and those that come before a ban is over. -/
namespace MkPool.ConnectionBudget
open MkPool.Utils MkPool.RateLimits

/-! ## Runs -/

inductive Call where
  | allowConnection (now : ℚ) (ip : Str)
  | onDisconnect (now : ℚ) (ip : Str)
  | ban (now : ℚ) (ip : Str) (duration : ℚ)
  | recordInvalidShare (now : ℚ) (ip : Str)
  | clearInvalid (now : ℚ) (ip : Str)
deriving DecidableEq

def Call.now : Call → ℚ
  | .allowConnection now _ | .onDisconnect now _ | .ban now .. | .recordInvalidShare now _ |
    .clearInvalid now _ => now

/-- What a call returns; those that return nothing are false. -/
def react (rl : RateLimiter) : Call → Bool × RateLimiter
  | .allowConnection now ip => rl.allowConnection now ip
  | .onDisconnect _ ip => (false, rl.onDisconnect ip)
  | .ban now ip duration => (false, rl.ban now ip duration)
  | .recordInvalidShare now ip => rl.recordInvalidShare now ip
  | .clearInvalid _ ip => (false, rl.clearInvalid ip)

/-- The calls and their results, the latest first. -/
abbrev Log := List (Call × Bool)

/-- The runs of a limiter whose calls are as given. -/
inductive Run (cfg : RateLimitConfig) (fits : RateLimiter → Call → Prop) :
    Log → RateLimiter → Prop where
  | new : Run cfg fits [] { cfg }
  | step {log : Log} {rl : RateLimiter} {call : Call} (h : Run cfg fits log rl)
    (htime : ∀ e ∈ log.head?, e.1.now ≤ call.now) (hfits : fits rl call) :
    Run cfg fits ((call, (react rl call).1) :: log) (react rl call).2

/-! ## The property -/

/-- When a call accepted a connection of the address. -/
def acceptedAt (ip : Str) : Call × Bool → Option ℚ
  | (.allowConnection now ip', true) => if ip' = ip then some now else none
  | _ => none

/-- The times of the connections of an address, the latest first. -/
def accepts (ip : Str) (log : Log) : List ℚ := log.filterMap (acceptedAt ip)

/-- The end of a ban of the address that a call starts. -/
def banUntil (cfg : RateLimitConfig) (ip : Str) : Call × Bool → Option ℚ
  | (.ban now ip' duration, _) => if ip' = ip then some (now + duration) else none
  | (.recordInvalidShare now ip', true) => if ip' = ip then some (now + cfg.banDuration) else none
  | _ => none

def countIn (a b : ℚ) (ts : List ℚ) : Nat := ts.countP fun t => a ≤ t ∧ t ≤ b

/-- What a limiter is to keep to. -/
structure Limits (cfg : RateLimitConfig) (log : Log) (rl : RateLimiter) : Prop where
  budget : ∀ ip a b, a ≤ b →
    (countIn a b (accepts ip log) : ℚ) ≤ cfg.acceptBurst + (b - a) * cfg.acceptRefillPerSec
  open_le : ∀ ip, rl.openConnections ip ≤ cfg.maxConnectionsPerIp
  /-- Nothing is accepted between the start of a ban and its end. -/
  banned : ∀ ip later e earlier until_, log = later ++ e :: earlier →
    banUntil cfg ip e = some until_ → ∀ t ∈ accepts ip later, until_ ≤ t

/-- A ban that starts now and lasts so long ends no sooner than the one there is. -/
def Prolongs (rl : RateLimiter) (now : ℚ) (ip : Str) (duration : ℚ) : Prop :=
  ∀ until_ ∈ rl.bans.lookup ip, now < until_ → until_ ≤ now + duration

/-- The calls that keep to it: no connection comes at the epoch of the clock,
and no ban cuts short the one there is. -/
def Fits (rl : RateLimiter) : Call → Prop
  | .allowConnection now _ => now ≠ 0
  | .ban now ip duration => Prolongs rl now ip duration
  | .recordInvalidShare now ip =>
    rl.cfg.invalidShareBanThreshold ≤ (rl.windowed now ip).invalidShares + 1 →
      Prolongs rl now ip rl.cfg.banDuration
  | _ => True

/-! ## A bucket against the connections it paid for -/

/-- The connections since any time, and the tokens left, are within the budget. -/
structure Paid (cfg : RateLimitConfig) (ts : List ℚ) (tokens last : ℚ) : Prop where
  nonneg : 0 ≤ tokens
  before : ∀ t ∈ ts, t ≤ last
  paid : ∀ a ≤ last, (ts.countP (a ≤ ·) : ℚ) + tokens ≤
    cfg.acceptBurst + (last - a) * cfg.acceptRefillPerSec

/-- A bucket is filled with the first connection. -/
def Funded (cfg : RateLimitConfig) (ts : List ℚ) (b : Bucket) : Prop :=
  b.last = 0 ∧ ts = [] ∨ b.last ≠ 0 ∧ Paid cfg ts b.tokens b.last

section Buckets
variable {cfg : RateLimitConfig} {ts : List ℚ} {tokens last now : ℚ}

theorem countP_eq_zero_of_lt {a : ℚ} (h : ∀ t ∈ ts, t < a) : ts.countP (a ≤ ·) = 0 := by
  refine List.countP_eq_zero.mpr fun t ht => ?_
  simpa using h t ht

/-- The first tokens. -/
theorem Paid.new (hrefill : 0 ≤ cfg.acceptRefillPerSec) :
    Paid cfg [] (cfg.acceptBurst : ℚ) now where
  nonneg := Nat.cast_nonneg _
  before := by simp
  paid a ha := by
    have := mul_nonneg (sub_nonneg.mpr ha) hrefill
    rw [List.countP_nil, Nat.cast_zero]
    linarith

/-- Time passes, and the bucket takes no more than it holds. -/
theorem Paid.refill (h : Paid cfg ts tokens last) (hrefill : 0 ≤ cfg.acceptRefillPerSec)
    (hnow : last < now) :
    Paid cfg ts (min cfg.acceptBurst (tokens + (now - last) * cfg.acceptRefillPerSec)) now where
  nonneg := by
    have := mul_nonneg (sub_nonneg.mpr hnow.le) hrefill
    exact le_min (Nat.cast_nonneg _) (by linarith [h.nonneg])
  before t ht := (h.before t ht).trans hnow.le
  paid a ha := by
    rcases le_or_gt a last with hle | hgt
    · have hpaid := h.paid a hle
      have hmin := min_le_right (cfg.acceptBurst : ℚ)
        (tokens + (now - last) * cfg.acceptRefillPerSec)
      have hsplit : (now - a) * cfg.acceptRefillPerSec =
          (last - a) * cfg.acceptRefillPerSec + (now - last) * cfg.acceptRefillPerSec := by ring
      linarith
    · have hmin := min_le_left (cfg.acceptBurst : ℚ)
        (tokens + (now - last) * cfg.acceptRefillPerSec)
      have := mul_nonneg (sub_nonneg.mpr ha) hrefill
      rw [countP_eq_zero_of_lt fun t ht => (h.before t ht).trans_lt hgt, Nat.cast_zero]
      linarith

/-- A connection is paid for. -/
theorem Paid.spend (h : Paid cfg ts tokens now) (hone : 1 ≤ tokens) :
    Paid cfg (now :: ts) (tokens - 1) now where
  nonneg := by linarith
  before t ht := by
    rcases List.mem_cons.mp ht with rfl | ht
    · exact le_rfl
    · exact h.before t ht
  paid a ha := by
    have hpaid := h.paid a ha
    rw [List.countP_cons_of_pos (by simpa using ha)]
    push_cast
    linarith

/-- The budget of an interval. -/
theorem Paid.budget (h : Paid cfg ts tokens now) (hrefill : 0 ≤ cfg.acceptRefillPerSec) {a b : ℚ}
    (ha : a ≤ now) (hb : now ≤ b) :
    (countIn a b ts : ℚ) ≤ cfg.acceptBurst + (b - a) * cfg.acceptRefillPerSec := by
  have hcount : countIn a b ts ≤ ts.countP (a ≤ ·) := by
    refine List.countP_mono_left fun t _ ht => ?_
    simp only [decide_eq_true_eq] at ht ⊢
    exact ht.1
  have hcast : (countIn a b ts : ℚ) ≤ (ts.countP (a ≤ ·) : ℕ) := by exact_mod_cast hcount
  have hpaid := h.paid a ha
  have hlonger := mul_le_mul_of_nonneg_right (sub_le_sub_right hb a) hrefill
  linarith [h.nonneg]

/-- The bucket an accept looks at. -/
theorem Funded.filled {rl : RateLimiter} {ip : Str} (h : Funded rl.cfg ts (rl.bucket ip))
    (hrefill : 0 ≤ rl.cfg.acceptRefillPerSec) (hlast : (rl.bucket ip).last ≠ 0 →
      (rl.bucket ip).last ≤ now) :
    (rl.filled now ip).last = now ∧ Paid rl.cfg ts (rl.filled now ip).tokens now := by
  unfold RateLimiter.filled
  dsimp only
  rcases h with ⟨hzero, rfl⟩ | ⟨hne, hpaid⟩
  · rw [if_pos hzero, refillLocked, if_neg (by simp)]
    exact ⟨rfl, .new hrefill⟩
  · rw [if_neg hne, refillLocked]
    split
    · rename_i hlater
      exact ⟨rfl, hpaid.refill hrefill (sub_pos.mp hlater)⟩
    · rename_i hsame
      have heq : (rl.bucket ip).last = now :=
        le_antisymm (hlast hne) (sub_nonpos.mp (not_lt.mp hsame))
      exact ⟨heq, heq ▸ hpaid⟩

end Buckets

/-! ## What every call keeps -/

/-- A time after all that was called. -/
def Timely (log : Log) (now : ℚ) : Prop := ∀ e ∈ log.head?, e.1.now ≤ now

structure Kept (cfg : RateLimitConfig) (log : Log) (rl : RateLimiter) : Prop
    extends Limits cfg log rl where
  cfg_eq : rl.cfg = cfg
  funded : ∀ ip, Funded cfg (accepts ip log) (rl.bucket ip)
  last_le : ∀ ip, (rl.bucket ip).last ≠ 0 → ∀ now, Timely log now → (rl.bucket ip).last ≤ now
  /-- A ban there was is in the entry of the address, or over. -/
  until_le : ∀ ip, ∀ e ∈ log, ∀ until_ ∈ banUntil cfg ip e,
    (∃ u ∈ rl.bans.lookup ip, until_ ≤ u) ∨ ∀ now, Timely log now → until_ ≤ now

section Steps
variable {cfg : RateLimitConfig} {log : Log} {rl rl' : RateLimiter} {e : Call × Bool}

theorem now_of_acceptedAt {ip : Str} {t : ℚ} (h : acceptedAt ip e = some t) : e.1.now = t := by
  unfold acceptedAt at h
  split at h
  · split at h
    · exact Option.some.inj h
    · cases h
  · cases h

theorem accepts_cons (ip : Str) (log : Log) :
    accepts ip (e :: log) = (acceptedAt ip e).toList ++ accepts ip log := by
  unfold accepts
  rw [List.filterMap_cons]
  cases acceptedAt ip e <;> rfl

/-- The budget with one more call, of the tokens that are left. -/
theorem budget_cons (h : Kept cfg log rl) (hrefill : 0 ≤ cfg.acceptRefillPerSec) {ip : Str}
    {b' : Bucket} (hfunded : Funded cfg (accepts ip (e :: log)) b')
    (hlast : b'.last ≠ 0 → b'.last ≤ e.1.now) {a b : ℚ} (hab : a ≤ b) :
    (countIn a b (accepts ip (e :: log)) : ℚ) ≤
      cfg.acceptBurst + (b - a) * cfg.acceptRefillPerSec := by
  rw [accepts_cons] at hfunded ⊢
  cases haccepted : acceptedAt ip e with
  | none => exact h.budget ip a b hab
  | some t =>
    obtain rfl := now_of_acceptedAt haccepted
    rw [haccepted] at hfunded
    obtain ⟨hne, hpaid⟩ := hfunded.resolve_left fun hnone => by cases hnone.2
    have hnow : b'.last = e.1.now :=
      le_antisymm (hlast hne) (hpaid.before _ List.mem_cons_self)
    rw [hnow] at hpaid
    have hspan := mul_nonneg (sub_nonneg.mpr hab) hrefill
    rcases lt_or_ge b e.1.now with hearly | hlate
    · have hskip : countIn a b (e.1.now :: accepts ip log) = countIn a b (accepts ip log) :=
        List.countP_cons_of_neg (by simp [hearly])
      exact hskip ▸ h.budget ip a b hab
    · rcases le_or_gt a e.1.now with hin | hafter
      · exact hpaid.budget hrefill hin hlate
      · have hnone : countIn a b (e.1.now :: accepts ip log) = 0 := by
          refine List.countP_eq_zero.mpr fun t ht => ?_
          have := (hpaid.before t ht).trans_lt hafter
          simp [not_le.mpr this]
        show (countIn a b (e.1.now :: accepts ip log) : ℚ) ≤ _
        rw [hnone, Nat.cast_zero]
        linarith [(Nat.cast_nonneg cfg.acceptBurst : (0 : ℚ) ≤ _)]

/-- One call keeps the limits if it keeps the buckets and the entries. -/
theorem Kept.cons (h : Kept cfg log rl) (hrefill : 0 ≤ cfg.acceptRefillPerSec)
    (hcfg : rl'.cfg = cfg) (hopen : ∀ ip, rl'.openConnections ip ≤ cfg.maxConnectionsPerIp)
    (hfunded : ∀ ip, Funded cfg (accepts ip (e :: log)) (rl'.bucket ip))
    (hlast : ∀ ip, (rl'.bucket ip).last ≠ 0 → (rl'.bucket ip).last ≤ e.1.now)
    (huntil : ∀ ip, ∀ e' ∈ e :: log, ∀ until_ ∈ banUntil cfg ip e',
      (∃ u ∈ rl'.bans.lookup ip, until_ ≤ u) ∨ until_ ≤ e.1.now)
    (hbanned : ∀ ip, ∀ t ∈ acceptedAt ip e, ∀ e' ∈ log, ∀ until_ ∈ banUntil cfg ip e',
      until_ ≤ t) : Kept cfg (e :: log) rl' where
  budget ip a b hab := budget_cons h hrefill (hfunded ip) (hlast ip) hab
  open_le := hopen
  banned ip later e' earlier until_ hsplit huntil' := by
    cases later with
    | nil =>
      intro t ht
      cases ht
    | cons e'' later =>
      obtain ⟨rfl, hrest⟩ := List.cons.inj hsplit
      intro t ht
      rw [accepts_cons] at ht
      rcases List.mem_append.mp ht with ht | ht
      · refine hbanned ip t (Option.mem_toList.mp ht) e' ?_ until_ huntil'
        rw [hrest]
        exact List.mem_append_right later List.mem_cons_self
      · exact h.banned ip later e' earlier until_ hrest huntil' t ht
  cfg_eq := hcfg
  funded := hfunded
  last_le ip hne now hnow := (hlast ip hne).trans (hnow e rfl)
  until_le ip e' he' until_ hu :=
    (huntil ip e' he' until_ hu).imp_right fun hle now hnow => hle.trans (hnow e rfl)

/-- A call that accepts nothing, and leaves every bucket its tokens. -/
theorem Kept.quiet (h : Kept cfg log rl) (hrefill : 0 ≤ cfg.acceptRefillPerSec)
    (htime : Timely log e.1.now) (hcfg : rl'.cfg = cfg)
    (hopen : ∀ ip, rl'.openConnections ip ≤ cfg.maxConnectionsPerIp)
    (hnone : ∀ ip, acceptedAt ip e = none)
    (hsame : ∀ ip, (rl'.bucket ip).tokens = (rl.bucket ip).tokens ∧
      (rl'.bucket ip).last = (rl.bucket ip).last)
    (huntil : ∀ ip, ∀ e' ∈ e :: log, ∀ until_ ∈ banUntil cfg ip e',
      (∃ u ∈ rl'.bans.lookup ip, until_ ≤ u) ∨ until_ ≤ e.1.now) : Kept cfg (e :: log) rl' := by
  refine h.cons hrefill hcfg hopen (fun ip => ?_) (fun ip => ?_) huntil (fun ip t ht => ?_)
  · rw [accepts_cons, hnone ip]
    obtain ⟨htokens, hlast⟩ := hsame ip
    rw [Funded, htokens, hlast]
    exact h.funded ip
  · rw [(hsame ip).2]
    exact fun hne => h.last_le ip hne _ htime
  · rw [hnone ip] at ht
    cases ht

/-- The bans of before are in the entries, or over by a call. -/
theorem Kept.until_now (h : Kept cfg log rl) {now : ℚ} (htime : Timely log now) (ip : Str)
    {e' : Call × Bool} (he' : e' ∈ log) {until_ : ℚ} (hu : until_ ∈ banUntil cfg ip e') :
    (∃ u ∈ rl.bans.lookup ip, until_ ≤ u) ∨ until_ ≤ now :=
  (h.until_le ip e' he' until_ hu).imp_right fun hle => hle now htime

/-- A ban that prolongs the one there is takes its entry. -/
theorem Kept.until_ban (h : Kept cfg log rl) {now duration : ℚ} (htime : Timely log now)
    {banned : Str} (hprolongs : Prolongs rl now banned duration) (ip : Str) {e' : Call × Bool}
    (he' : e' ∈ log) {until_ : ℚ} (hu : until_ ∈ banUntil cfg ip e') :
    (∃ u ∈ (rl.bans.insert banned (now + duration)).lookup ip, until_ ≤ u) ∨ until_ ≤ now := by
  by_cases hip : ip = banned
  · subst hip
    rw [AList.lookup_insert]
    rcases h.until_now htime ip he' hu with ⟨u, hlookup, hle⟩ | hover
    · rcases le_or_gt u now with hpast | hrunning
      · exact .inr (hle.trans hpast)
      · exact .inl ⟨_, rfl, hle.trans (hprolongs u hlookup hrunning)⟩
    · exact .inr hover
  · rw [AList.lookup_insert_ne hip]
    exact h.until_now htime ip he' hu

theorem bucket_put (rl : RateLimiter) (ip : Str) (b : Bucket) (other : Str) :
    (rl.put ip b).bucket other = if other = ip then b else rl.bucket other := by
  unfold RateLimiter.bucket RateLimiter.put
  by_cases h : other = ip
  · subst h
    simp
  · rw [if_neg h, AList.lookup_insert_ne h]

/-- A bucket that is put back with its tokens. -/
theorem same_put (rl : RateLimiter) (ip : Str) {b : Bucket}
    (htokens : b.tokens = (rl.bucket ip).tokens) (hlast : b.last = (rl.bucket ip).last)
    (other : Str) : ((rl.put ip b).bucket other).tokens = (rl.bucket other).tokens ∧
      ((rl.put ip b).bucket other).last = (rl.bucket other).last := by
  rw [bucket_put]
  split
  · rename_i h
    rw [h]
    exact ⟨htokens, hlast⟩
  · exact ⟨rfl, rfl⟩

theorem bucket_of_lookup {ip : Str} {b : Bucket} (h : rl.buckets.lookup ip = some b) :
    rl.bucket ip = b := by
  rw [RateLimiter.bucket, h]
  rfl

theorem Kept.onDisconnect (h : Kept cfg log rl) (hrefill : 0 ≤ cfg.acceptRefillPerSec) {now : ℚ}
    {ip : Str} (htime : Timely log now) :
    Kept cfg ((.onDisconnect now ip, false) :: log) (rl.onDisconnect ip) := by
  have hbans : (rl.onDisconnect ip).bans = rl.bans := by
    unfold RateLimiter.onDisconnect
    split
    · rfl
    · split <;> rfl
  refine h.quiet hrefill htime ?_ (fun other => ?_) (fun _ => rfl) (fun other => ?_) ?_
  · rw [cfg_onDisconnect, h.cfg_eq]
  · rw [open_onDisconnect]
    split
    · exact (Nat.sub_le _ _).trans (h.open_le ip)
    · exact h.open_le other
  · unfold RateLimiter.onDisconnect
    split
    · exact ⟨rfl, rfl⟩
    · rename_i b hlookup
      split
      · have hb := bucket_of_lookup hlookup
        refine same_put rl ip ?_ ?_ other
        · rw [hb]
        · rw [hb]
      · exact ⟨rfl, rfl⟩
  · rw [hbans]
    intro other e' he' until_ hu
    rcases List.mem_cons.mp he' with rfl | he'
    · cases hu
    · exact h.until_now htime other he' hu

theorem Kept.clearInvalid (h : Kept cfg log rl) (hrefill : 0 ≤ cfg.acceptRefillPerSec) {now : ℚ}
    {ip : Str} (htime : Timely log now) :
    Kept cfg ((.clearInvalid now ip, false) :: log) (rl.clearInvalid ip) := by
  have hbans : (rl.clearInvalid ip).bans = rl.bans := by
    unfold RateLimiter.clearInvalid
    split <;> rfl
  refine h.quiet hrefill htime ?_ (fun other => ?_) (fun _ => rfl) (fun other => ?_) ?_
  · rw [cfg_clearInvalid, h.cfg_eq]
  · rw [open_clearInvalid]
    exact h.open_le other
  · unfold RateLimiter.clearInvalid
    split
    · exact ⟨rfl, rfl⟩
    · rename_i b hlookup
      have hb := bucket_of_lookup hlookup
      refine same_put rl ip ?_ ?_ other
      · rw [hb]
      · rw [hb]
  · rw [hbans]
    intro other e' he' until_ hu
    rcases List.mem_cons.mp he' with rfl | he'
    · cases hu
    · exact h.until_now htime other he' hu

theorem Kept.ban (h : Kept cfg log rl) (hrefill : 0 ≤ cfg.acceptRefillPerSec) {now duration : ℚ}
    {ip : Str} (htime : Timely log now) (hfits : Prolongs rl now ip duration) :
    Kept cfg ((.ban now ip duration, false) :: log) (rl.ban now ip duration) := by
  refine h.quiet hrefill htime h.cfg_eq h.open_le (fun _ => rfl) (fun _ => ⟨rfl, rfl⟩) ?_
  intro other e' he' until_ hu
  rcases List.mem_cons.mp he' with rfl | he'
  · unfold banUntil at hu
    dsimp only at hu
    split at hu
    · rename_i hip
      obtain rfl := Option.some.inj hu
      refine .inl ⟨now + duration, ?_, le_rfl⟩
      rw [← hip]
      exact AList.lookup_insert _
    · cases hu
  · exact h.until_ban htime hfits other he' hu

theorem Kept.recordInvalidShare (h : Kept cfg log rl) (hrefill : 0 ≤ cfg.acceptRefillPerSec)
    {now : ℚ} {ip : Str} (htime : Timely log now)
    (hfits : Fits rl (.recordInvalidShare now ip)) :
    Kept cfg ((.recordInvalidShare now ip, (rl.recordInvalidShare now ip).1) :: log)
      (rl.recordInvalidShare now ip).2 := by
  have hwindow : (rl.windowed now ip).tokens = (rl.bucket ip).tokens ∧
      (rl.windowed now ip).last = (rl.bucket ip).last := by
    unfold RateLimiter.windowed
    dsimp only
    split <;> exact ⟨rfl, rfl⟩
  refine h.quiet hrefill htime ?_ (fun other => ?_) (fun other => ?_) (fun other => ?_) ?_
  · rw [cfg_recordInvalidShare, h.cfg_eq]
  · rw [open_recordInvalidShare]
    exact h.open_le other
  · unfold acceptedAt
    rfl
  · unfold RateLimiter.recordInvalidShare
    dsimp only
    split
    · refine same_put rl ip ?_ ?_ other
      · exact hwindow.1
      · exact hwindow.2
    · refine same_put rl ip ?_ ?_ other
      · exact hwindow.1
      · exact hwindow.2
  · intro other e' he' until_ hu
    unfold RateLimiter.recordInvalidShare at he' ⊢
    dsimp only at he' ⊢
    split at he'
    · rename_i hmany
      rw [if_pos hmany]
      rcases List.mem_cons.mp he' with rfl | he'
      · unfold banUntil at hu
        dsimp only at hu
        split at hu
        · rename_i hip
          obtain rfl := Option.some.inj hu
          refine .inl ⟨now + cfg.banDuration, ?_, le_rfl⟩
          rw [← hip, ← h.cfg_eq]
          exact AList.lookup_insert _
        · cases hu
      · exact h.until_ban htime (hfits hmany) other he' hu
    · rename_i hfew
      rw [if_neg hfew]
      rcases List.mem_cons.mp he' with rfl | he'
      · cases hu
      · exact h.until_now htime other he' hu

/-- A ban of the address is over when a connection comes that it lets through. -/
theorem Kept.until_allowed (h : Kept cfg log rl) {now : ℚ} {ip : Str} (htime : Timely log now)
    (hfree : rl.isBanned now ip = false) {e' : Call × Bool} (he' : e' ∈ log) {until_ : ℚ}
    (hu : until_ ∈ banUntil cfg ip e') : until_ ≤ now := by
  rcases h.until_now htime ip he' hu with ⟨u, hlookup, hle⟩ | hover
  · rw [RateLimiter.isBanned, Option.mem_def.mp hlookup] at hfree
    exact hle.trans (not_lt.mp (of_decide_eq_false hfree))
  · exact hover

/-- A connection that no ban refuses: the filled bucket of the address is put
back, with the connection taken off if it is accepted. -/
theorem Kept.allowed (h : Kept cfg log rl) (hrefill : 0 ≤ cfg.acceptRefillPerSec) {now : ℚ}
    {ip : Str} (htime : Timely log now) (hnow : now ≠ 0) (hfree : rl.isBanned now ip = false)
    {ok : Bool} {b : Bucket} {rl' : RateLimiter}
    (hput : rl' = { rl with bans := rl.bans.erase ip }.put ip b)
    (hopen : ∀ other, rl'.openConnections other ≤ cfg.maxConnectionsPerIp)
    (hlast : b.last = now)
    (hpaid : Paid cfg (if ok then now :: accepts ip log else accepts ip log) b.tokens now) :
    Kept cfg ((.allowConnection now ip, ok) :: log) rl' := by
  subst hput
  have hnone (other : Str) : banUntil cfg other (.allowConnection now ip, ok) = none := rfl
  have hbucket := bucket_put { rl with bans := rl.bans.erase ip } ip b
  refine h.cons hrefill h.cfg_eq hopen (fun other => ?_) (fun other => ?_) ?_ ?_
  · rw [hbucket other, accepts_cons]
    split
    · rename_i hip
      subst hip
      rw [← hlast] at hpaid hnow ⊢
      refine .inr ⟨hnow, ?_⟩
      cases ok with
      | true => simpa [acceptedAt] using hpaid
      | false => simpa [acceptedAt] using hpaid
    · rename_i hip
      have hskip : acceptedAt other (.allowConnection now ip, ok) = none := by
        cases ok with
        | true => exact if_neg (Ne.symm hip)
        | false => rfl
      rw [hskip]
      exact h.funded other
  · rw [hbucket other]
    split
    · exact fun _ => hlast.le
    · exact fun hne => h.last_le other hne now htime
  · intro other e' he' until_ hu
    rcases List.mem_cons.mp he' with rfl | hmem
    · rw [hnone other] at hu
      cases hu
    · by_cases hip : other = ip
      · subst hip
        exact .inr (h.until_allowed htime hfree hmem hu)
      · refine (h.until_now htime other hmem hu).imp_left fun ⟨u, hlookup, hle⟩ => ⟨u, ?_, hle⟩
        exact (AList.lookup_erase_ne hip).trans hlookup
  · intro other t ht e' he' until_ hu
    obtain rfl : now = t := now_of_acceptedAt ht
    obtain rfl : ip = other := by
      unfold acceptedAt at ht
      split at ht
      · rename_i heq
        split at ht
        · rename_i hip
          cases heq
          exact hip
        · cases ht
      · cases ht
    exact h.until_allowed htime hfree he' hu

theorem Kept.allowConnection (h : Kept cfg log rl) (hrefill : 0 ≤ cfg.acceptRefillPerSec)
    {now : ℚ} {ip : Str} (htime : Timely log now) (hnow : now ≠ 0) :
    Kept cfg ((.allowConnection now ip, (rl.allowConnection now ip).1) :: log)
      (rl.allowConnection now ip).2 := by
  have hopen (other : Str) :
      (rl.allowConnection now ip).2.openConnections other ≤ cfg.maxConnectionsPerIp := by
    obtain ⟨hcount, hroom⟩ := @open_allowConnection rl now ip other
    rw [hcount]
    split
    · rename_i hboth
      have := hroom hboth.1
      rw [h.cfg_eq, ← hboth.2] at this
      exact this
    · exact h.open_le other
  have hfunded : Funded rl.cfg (accepts ip log) (rl.bucket ip) := h.cfg_eq.symm ▸ h.funded ip
  obtain ⟨hlast, hpaid⟩ := hfunded.filled (h.cfg_eq.symm ▸ hrefill) fun hne =>
    h.last_le ip hne now htime
  rw [h.cfg_eq] at hpaid
  cases hfree : rl.isBanned now ip with
  | true =>
    have hrefused : rl.allowConnection now ip = (false, rl) := if_pos hfree
    rw [hrefused]
    refine h.quiet hrefill htime h.cfg_eq h.open_le (fun _ => rfl) (fun _ => ⟨rfl, rfl⟩) ?_
    intro other e' he' until_ hu
    rcases List.mem_cons.mp he' with rfl | he'
    · cases hu
    · exact h.until_now htime other he' hu
  | false =>
    unfold RateLimiter.allowConnection at hopen ⊢
    rw [if_neg (ne_true_of_eq_false hfree)] at hopen ⊢
    dsimp only at hopen ⊢
    split
    · rename_i hfew
      rw [if_pos hfew] at hopen
      exact h.allowed hrefill htime hnow hfree rfl hopen hlast hpaid
    · rename_i hmany
      rw [if_neg hmany] at hopen
      split
      · rename_i hfull
        rw [if_pos hfull] at hopen
        exact h.allowed hrefill htime hnow hfree rfl hopen hlast hpaid
      · rename_i hroom
        rw [if_neg hroom] at hopen
        exact h.allowed hrefill htime hnow hfree rfl hopen hlast (hpaid.spend (not_lt.mp hmany))

/-- **One call keeps the limits.** -/
theorem Kept.after (h : Kept cfg log rl) (hrefill : 0 ≤ cfg.acceptRefillPerSec) {call : Call}
    (htime : Timely log call.now) (hfits : Fits rl call) :
    Kept cfg ((call, (react rl call).1) :: log) (react rl call).2 := by
  cases call with
  | allowConnection now ip => exact h.allowConnection hrefill htime hfits
  | onDisconnect now ip => exact h.onDisconnect hrefill htime
  | ban now ip duration => exact h.ban hrefill htime hfits
  | recordInvalidShare now ip => exact h.recordInvalidShare hrefill htime hfits
  | clearInvalid now ip => exact h.clearInvalid hrefill htime

theorem Kept.new (hrefill : 0 ≤ cfg.acceptRefillPerSec) : Kept cfg [] { cfg } where
  budget ip a b hab := by
    have := mul_nonneg (sub_nonneg.mpr hab) hrefill
    show ((0 : Nat) : ℚ) ≤ _
    rw [Nat.cast_zero]
    linarith [(Nat.cast_nonneg cfg.acceptBurst : (0 : ℚ) ≤ _)]
  open_le _ := Nat.zero_le _
  banned ip later e earlier until_ hsplit := by
    cases later <;> cases hsplit
  cfg_eq := rfl
  funded _ := .inl ⟨rfl, rfl⟩
  last_le _ hne := absurd rfl hne
  until_le ip e he := by cases he

theorem Run.kept (hrefill : 0 ≤ cfg.acceptRefillPerSec) (h : Run cfg Fits log rl) :
    Kept cfg log rl := by
  induction h with
  | new => exact .new hrefill
  | step _ htime hfits ih => exact ih.after hrefill htime hfits

end Steps

/-- **Bans and budgets hold** in every run of calls that fit. -/
theorem limits_of_fits (cfg : RateLimitConfig) (hrefill : 0 ≤ cfg.acceptRefillPerSec) {log : Log}
    {rl : RateLimiter} (h : Run cfg Fits log rl) : Limits cfg log rl :=
  (h.kept hrefill).toLimits

def banned : RateLimiter := (react { cfg := {} } (.ban 1 ['a'] 100)).2

theorem banned_run {fits : RateLimiter → Call → Prop}
    (hfits : fits { cfg := {} } (.ban 1 ['a'] 100)) :
    Run {} fits [(.ban 1 ['a'] 100, false)] banned :=
  .step .new (fun e he => by cases he) hfits

/-- One ban. -/
theorem limits_of_fits_banned : Limits {} [(.ban 1 ['a'] 100, false)] banned :=
  limits_of_fits {} (by decide +kernel) (banned_run fun u hu => by cases hu)

def bannedAgain : RateLimiter := (react banned (.ban 2 ['a'] 1)).2

theorem bannedAgain_allows : (react bannedAgain (.allowConnection 4 ['a'])).1 = true := by
  decide +kernel

/-- **A later ban ends an earlier one.** An address is banned for a hundred
seconds at 1 and for one second at 2; it is let in at 4. -/
theorem shorter_ban : ¬ ∀ (cfg : RateLimitConfig) (log : Log) (rl : RateLimiter),
    Run cfg (fun _ _ => True) log rl → Limits cfg log rl := by
  intro h
  have hagain : Run {} (fun _ _ => True)
      [(.ban 2 ['a'] 1, false), (.ban 1 ['a'] 100, false)] bannedAgain := by
    refine .step (banned_run trivial) ?_ trivial
    rintro e ⟨⟩
    decide +kernel
  have hlast : Run {} (fun _ _ => True)
      [(.allowConnection 4 ['a'], (react bannedAgain (.allowConnection 4 ['a'])).1),
        (.ban 2 ['a'] 1, false), (.ban 1 ['a'] 100, false)]
      (react bannedAgain (.allowConnection 4 ['a'])).2 := by
    refine .step hagain ?_ trivial
    rintro e ⟨⟩
    decide +kernel
  rw [bannedAgain_allows] at hlast
  have hlate := (h _ _ _ hlast).banned ['a']
    [(.allowConnection 4 ['a'], true), (.ban 2 ['a'] 1, false)] (.ban 1 ['a'] 100, false) [] 101 rfl
    (by decide +kernel) 4 (by decide +kernel)
  exact absurd hlate (by decide +kernel)

end MkPool.ConnectionBudget
