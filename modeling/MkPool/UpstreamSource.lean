import MkPool.UpstreamClient

/-! # `upstream_client.hpp`: what upstream clients and sessions hand each other -/
namespace MkPool.UpstreamSource
open MkPool.Lib MkPool.Utils MkPool.UpstreamClient

/-- `ProxyNotify`: one job of an upstream, with the line its miners get. -/
structure ProxyNotify where
  notifyLine : Str
  jobId : Str
  prevhashStratum : Str
  coinbase1 : Str
  coinbase2 : Str
  merkleBranch : List Str
  version : UInt32
  bits : Str
  ntime : Str
  mintime : UInt32
  clean : Bool
  netTargetBe : Hash256
  seq : Nat
deriving DecidableEq

/-- `UpstreamSubmit`: a share for the upstream. -/
structure UpstreamSubmit where
  jobId : Str
  en2FullHex : Str
  ntimeHex : Str
  nonceHex : Str
  versionBits : Option UInt32
deriving DecidableEq

/-- `ProxySlot` as a session holds it. Its link is -1, here none, where it is
not ok. -/
structure HeldSlot where
  linkId : Option Nat := none
  slotId : Nat := 0
  slotHex : Str := []
  en1Hex : Str := []
  en2Size : Nat := 0
deriving DecidableEq

def HeldSlot.of (slot : ProxySlot) : HeldSlot where
  linkId := some slot.linkId
  slotId := slot.slotId
  slotHex := slot.slotHex
  en1Hex := slot.en1Hex
  en2Size := slot.en2Size

/-- What an extranonce does to a slot. -/
def HeldSlot.withExtranonce (slot : HeldSlot) (en1Hex : Str) (en2Size : Nat) : HeldSlot :=
  { slot with en1Hex, en2Size }

/-- The calls of `ProxyWorkSink`, each of which posts to a session's strand. -/
inductive SinkEvent where
  | job (job : ProxyNotify)
  | diff (diff : ℚ)
  | extranonce (en1Hex : Str) (en2Size : Nat)
  | state (up : Bool)
  | rebind (slot : ProxySlot) (job : Option ProxyNotify) (diff : ℚ)

/-! ## The previous hash -/

/-- `swap_words_hex`: the four bytes of each of the eight words reversed. -/
def swapWordsHex (p : Str) : Str :=
  if p.length ≠ 64 then p
  else (List.range 8).flatMap fun w => Hex.reversePairs ((p.drop (8 * w)).take 8)

section Pieces
variable {n : Nat} {g : Str → Str}

/-- Each of `k` pieces of `n` characters is replaced. -/
def onPieces (n : Nat) (g : Str → Str) (k : Nat) (p : Str) : Str :=
  (List.range k).flatMap fun w => g ((p.drop (n * w)).take n)

theorem onPieces_succ (k : Nat) (p : Str) :
    onPieces n g (k + 1) p = g (p.take n) ++ onPieces n g k (p.drop n) := by
  unfold onPieces
  rw [List.range_succ_eq_map, List.flatMap_cons, List.flatMap_map]
  congr 1
  refine List.flatMap_congr fun w _ => ?_
  rw [List.drop_drop, Nat.mul_succ, Nat.add_comm n]

theorem length_onPieces (hlen : ∀ x, (g x).length = x.length) (k : Nat) {p : Str}
    (hp : p.length = n * k) : (onPieces n g k p).length = p.length := by
  induction k generalizing p with
  | zero => simp [onPieces, hp]
  | succ k ih =>
    rw [Nat.mul_succ] at hp
    have hrest : (p.drop n).length = n * k := by simp [hp]
    rw [onPieces_succ, List.length_append, hlen, ih hrest, ← List.length_append,
      List.take_append_drop]

/-- Pieces that are replaced back. -/
theorem onPieces_onPieces (hlen : ∀ x, (g x).length = x.length)
    (hg : ∀ x, x.length = n → g (g x) = x) (k : Nat) {p : Str} (hp : p.length = n * k) :
    onPieces n g k (onPieces n g k p) = p := by
  induction k generalizing p with
  | zero =>
    obtain rfl := List.length_eq_zero_iff.mp hp
    rfl
  | succ k ih =>
    rw [Nat.mul_succ] at hp
    have hfirst : (p.take n).length = n := by simp [hp]
    have hrest : (p.drop n).length = n * k := by simp [hp]
    have hg₁ : (g (p.take n)).length = n := (hlen _).trans hfirst
    rw [onPieces_succ k p, onPieces_succ, List.take_left' hg₁, List.drop_left' hg₁, hg _ hfirst,
      ih hrest, List.take_append_drop]

end Pieces

theorem swapWordsHex_swapWordsHex {p : Str} (h : p.length = 64) :
    swapWordsHex (swapWordsHex p) = p := by
  have hswap {q : Str} (hq : q.length = 64) : swapWordsHex q = onPieces 8 Hex.reversePairs 8 q :=
    if_neg (by omega)
  have hlen := length_onPieces (n := 8) Hex.length_reversePairs 8 (p := p) h
  rw [hswap h, hswap (hlen.trans h)]
  exact onPieces_onPieces Hex.length_reversePairs
    (fun x hx => Hex.reversePairs_reversePairs (by rw [hx]; decide)) 8 h

/-- A job that is looked up is one of the session's. -/
theorem mem_of_lookup {κ α : Type} [BEq κ] [LawfulBEq κ] {id : κ} {job : α}
    {jobs : List (κ × α)} (h : jobs.lookup id = some job) : (id, job) ∈ jobs := by
  obtain ⟨l₁, l₂, rfl, -⟩ := List.lookup_eq_some_iff.mp h
  exact List.mem_append_right _ (List.mem_cons_self ..)

end MkPool.UpstreamSource
