import MkPool.Stratum
import Mathlib.Data.List.Infix

/-! # `blacklist.cpp`: blocked addresses, banned worker words and grants -/
namespace MkPool.Blacklist
open MkPool.Utils MkPool.Calls MkPool.Stratum

/-- `normalize`: lower case, and only letters and digits. -/
def normalize (s : Str) : Str := (s.filter Char.isAlphanum).map Char.toLower

/-- `kFreeToken`. -/
def freeToken : Str := "freehashrate".toList

/-- The state of the `Blacklist`. -/
structure Content where
  addresses : Finset Str := ∅
  bannedWords : List Str := []
  freeGrants : Finset Str := ∅

/-- The rows of `address_blacklist`, `workers_blacklist` and of
`free_hashrate_grants` that have not expired. -/
structure Tables where
  addressBlacklist : List Str
  workersBlacklist : List Str
  freeHashrateGrants : List Str

/-- `reload`. On a database error the content stays. -/
def reload (tables : Option Tables) (bl : Content) : Content :=
  match tables with
  | none => bl
  | some t =>
    { addresses := (t.addressBlacklist.filter fun r => !r.isEmpty).toFinset
      bannedWords := (t.workersBlacklist.map normalize).filter fun n => !n.isEmpty
      freeGrants := (t.freeHashrateGrants.filter fun r => !r.isEmpty).toFinset }

def addressBlocked (bl : Content) (addr : Str) : Bool := addr ∈ bl.addresses

def workerBlocked (bl : Content) (worker : Str) : Bool :=
  let n := normalize worker
  if n.isEmpty then false else bl.bannedWords.any fun w => (findSub n w).isSome

def workerIsFree (worker : Str) : Bool := (findSub (normalize worker) freeToken).isSome

def freeGranted (bl : Content) (addr : Str) : Bool := addr ∈ bl.freeGrants

/-- What an authorization asks of the blacklist. -/
def view (bl : Content) (addr worker : Str) : BlacklistView where
  addressBlocked := addressBlocked bl addr
  workerIsFree := workerIsFree worker
  freeGranted := freeGranted bl addr
  workerBlocked := workerBlocked bl worker

/-! ## What is blocked -/

/-- `find` finds a text where it stands. -/
theorem findSub_isSome_iff (s needle : Str) : (findSub s needle).isSome ↔ needle <:+: s := by
  unfold findSub
  rw [List.find?_isSome]
  constructor
  · rintro ⟨i, _, hi⟩
    have htake : (s.drop i).take needle.length = needle := of_decide_eq_true hi
    have hprefix : needle <+: s.drop i := htake ▸ List.take_prefix _ _
    exact hprefix.isInfix.trans (List.drop_suffix i s).isInfix
  · rintro ⟨before, after, rfl⟩
    refine ⟨before.length, ?_, ?_⟩
    · simp only [List.mem_range, List.length_append]
      omega
    · simp

/-- The reserved name stands in the worker's, and needs a grant for the
address; any other name is free of the banned words. The address is not blocked. -/
structure Allowed (bl : Content) (addr worker : Str) : Prop where
  address : addr ∉ bl.addresses
  reserved : freeToken <:+: normalize worker → addr ∈ bl.freeGrants
  worker : ¬ freeToken <:+: normalize worker → normalize worker ≠ [] →
    ∀ w ∈ bl.bannedWords, ¬ w <:+: normalize worker

/-- An authorization goes on after this answer. -/
def Passes (v : BlacklistView) : Prop :=
  v.addressBlocked = false ∧ (v.workerIsFree = true → v.freeGranted = true) ∧
    (v.workerIsFree = false → v.workerBlocked = false)

/-- **What the checks of an authorization let pass.** -/
theorem allowed_iff (bl : Content) (addr worker : Str) :
    Allowed bl addr worker ↔ Passes (view bl addr worker) := by
  have haddr : (view bl addr worker).addressBlocked = false ↔ addr ∉ bl.addresses := by
    simp [view, addressBlocked]
  have hfree : (view bl addr worker).workerIsFree = true ↔ freeToken <:+: normalize worker :=
    findSub_isSome_iff _ _
  have hgrant : (view bl addr worker).freeGranted = true ↔ addr ∈ bl.freeGrants := by
    simp [view, freeGranted]
  have hword : (view bl addr worker).workerBlocked = false ↔
      (normalize worker ≠ [] → ∀ w ∈ bl.bannedWords, ¬ w <:+: normalize worker) := by
    show workerBlocked bl worker = false ↔ _
    unfold workerBlocked
    by_cases hn : normalize worker = []
    · simp [hn]
    · simp only [List.isEmpty_iff, hn, if_false, List.any_eq_false, findSub_isSome_iff, ne_eq,
        not_false_eq_true, true_implies]
  have hnot : (view bl addr worker).workerIsFree = false ↔ ¬ freeToken <:+: normalize worker := by
    rw [← hfree, Bool.not_eq_true]
  rw [Passes, haddr, hfree, hnot, hgrant, hword]
  exact ⟨fun h => ⟨h.address, h.reserved, h.worker⟩, fun h => ⟨h.1, h.2.1, h.2.2⟩⟩

end MkPool.Blacklist
