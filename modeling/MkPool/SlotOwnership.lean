import MkPool.Placement

/-! # Who owns the slots of the proxy

A session releases the slot it knows of when it closes, and the client may have
moved it. -/
namespace MkPool.SlotOwnership
open MkPool.Lib MkPool.Lib.Mailbox MkPool.Utils MkPool.Coinbase
open MkPool.UpstreamClient hiding Input react Offered Run
open MkPool.UpstreamSource MkPool.Proxy MkPool.Bindings MkPool.Placement

/-! ## The property -/

/-- An open session holds slot `k` of link `i`. -/
structure Holds (p : Party) (i k : Nat) : Prop where
  opened : p.miner.closed = false
  attached : p.miner.attached = true
  link : p.miner.slot.linkId = some i
  slot : p.miner.slot.slotId = k

/-- The slots that are entered are those that the open sessions hold, each once
and at most one a session. -/
structure OwnedSlots (c : State) : Prop where
  once : SlotsApart c.client
  owned : ∀ i k n, Taken c.client i k n ↔ ∃ p, c.parties[n]? = some p ∧ Holds p i k
  one : ∀ i k i' k' n, Taken c.client i k n → Taken c.client i' k' n → i = i' ∧ k = k'

/-- No call waits on a strand. -/
def Delivered (c : State) : Prop := ∀ p ∈ c.parties, p.mailbox = []

/-- Whoever detached removed its own entry; and the entries are those of the
sessions, once all calls are delivered. -/
structure Sound (c : State) : Prop where
  removed : ∀ r ∈ c.removed, r.1 = r.2
  slots : Delivered c → OwnedSlots c

/-! ## The books and the sessions -/

theorem sound_of_books {c : State} (h : Books c) : Sound c where
  removed := h.removed
  slots hdel := by
    have hholds (i k n : Nat) : placeAt c.parties n = some (i, k) ↔
        ∃ p, c.parties[n]? = some p ∧ Holds p i k := by
      unfold placeAt
      cases hp : c.parties[n]? with
      | none => simp
      | some p =>
        have hbox := hdel p (List.mem_of_getElem? hp)
        rw [Option.bind_some]
        unfold place bound view
        rw [hbox, settled_nil]
        constructor
        · intro hplace
          split at hplace
          · rename_i hbound
            obtain ⟨hatt, hopen⟩ := (Bool.and_eq_true _ _).mp hbound
            obtain ⟨j, hj, hjk⟩ := Option.map_eq_some_iff.mp hplace
            obtain ⟨rfl, rfl⟩ := Prod.mk.inj hjk
            exact ⟨p, rfl, by simpa using hopen, hatt, hj, rfl⟩
          · cases hplace
        · rintro ⟨_, hp', hh⟩
          obtain rfl := Option.some.inj hp'
          rw [if_pos (by simp [hh.opened, hh.attached]), hh.link, hh.slot]
          rfl
    refine ⟨h.apart, fun i k n => (h.owned i k n).trans (hholds i k n), ?_⟩
    intro i k i' k' n hk hk'
    have heq := ((h.owned i k n).mp hk).symm.trans ((h.owned i' k' n).mp hk')
    exact ⟨congrArg Prod.fst (Option.some.inj heq), congrArg Prod.snd (Option.some.inj heq)⟩

/-- The slots of each link, and their sinks. -/
def table (c : Client) : List (List (Nat × Nat)) :=
  c.links.map fun l => l.subscribers.map fun e => (e.1, e.2.sink)

theorem taken_of_table {c : Client} {i k n : Nat} {es : List (Nat × Nat)}
    (h : (table c)[i]? = some es) (hmem : (k, n) ∈ es) : Taken c i k n := by
  unfold table at h
  rw [List.getElem?_map] at h
  obtain ⟨l, hl, rfl⟩ := Option.map_eq_some_iff.mp h
  obtain ⟨e, he, heq⟩ := List.mem_map.mp hmem
  obtain ⟨rfl, rfl⟩ := Prod.mk.inj heq
  exact ⟨seatOf e, ⟨l, hl, List.mem_map_of_mem he⟩, rfl, rfl⟩

end MkPool.SlotOwnership
