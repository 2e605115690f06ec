import MkPool.Job

/-! # The job window over a history of pushes

`push` again, with a pop of an empty deque leaving no result, and what the window
of a configured size holds after any pushes. -/
namespace MkPool.JobRecency
open MkPool.Lib MkPool.Utils MkPool.Job

/-- `pop_front`. -/
def popFront (items : List (Str × MiningJob)) : Option (List (Str × MiningJob)) :=
  match items with
  | [] => none
  | _ :: rest => some rest

/-- `JobWindow::push`. -/
def push (w : JobWindow) (jobId : Str) (job : MiningJob) : Option JobWindow :=
  if w.items.length = w.capacity then
    (popFront w.items).map fun items => { w with items := items ++ [(jobId, job)] }
  else some { w with items := w.items ++ [(jobId, job)] }

/-- The pushes of a history, the first first, into a window of the size. -/
def pushAll (capacity : Nat) (history : List (Str × MiningJob)) : Option JobWindow :=
  history.foldlM (fun w e => push w e.1 e.2) { capacity }

/-! ## The property -/

/-- The newest of the items that are matched, if any is. -/
def IsNewest (matched : Str → Prop) (items : List (Str × MiningJob)) :
    Option MiningJob → Prop
  | none => ∀ e ∈ items, ¬ matched e.1
  | some job => ∃ older jobId newer, items = older ++ (jobId, job) :: newer ∧ matched jobId ∧
      ∀ e ∈ newer, ¬ matched e.1

/-- What the window is after a history of pushes. -/
structure Recent (capacity : Nat) (history : List (Str × MiningJob)) (w : JobWindow) : Prop where
  length_eq : w.items.length = min capacity history.length
  suffix : w.items <:+ history
  find : ∀ jobId, IsNewest (· = jobId) w.items (w.find jobId)
  findU32 : ∀ id32, IsNewest (idU32 · = some id32) w.items (w.findU32 id32)
  latest : 0 < capacity → w.latest = history.getLast?.map Prod.snd

/-! ## Lookups -/

theorem find?_newest {matched : Str → Prop} [DecidablePred matched]
    (items : List (Str × MiningJob)) :
    IsNewest matched items ((items.reverse.find? fun e => matched e.1).map Prod.snd) := by
  cases h : items.reverse.find? fun e => matched e.1 with
  | none =>
    intro e he
    have := List.find?_eq_none.mp h e (List.mem_reverse.mpr he)
    simpa using this
  | some e =>
    obtain ⟨hmatched, before, after, hsplit, hbefore⟩ := List.find?_eq_some_iff_append.mp h
    refine ⟨after.reverse, e.1, before.reverse, ?_, by simpa using hmatched, ?_⟩
    · have := congrArg List.reverse hsplit
      simpa using this
    · intro e' he'
      have := hbefore e' (List.mem_reverse.mp he')
      simpa using this

/-! ## One push -/

theorem push_eq {w : JobWindow} {jobId : Str} {job : MiningJob} (h : w.capacity ≠ 0) :
    push w jobId job = some (w.push jobId job) := by
  unfold push JobWindow.push popFront
  split
  · rename_i hfull
    cases hitems : w.items with
    | nil =>
      rw [hitems] at hfull
      exact absurd hfull.symm h
    | cons e rest => rfl
  · rfl

/-- What the window holds of a history. -/
structure Holds (capacity : Nat) (history : List (Str × MiningJob)) (w : JobWindow) : Prop where
  capacity_eq : w.capacity = capacity
  items_eq : w.items = history.drop (history.length - capacity)

theorem Holds.push {capacity : Nat} {history : List (Str × MiningJob)} {w : JobWindow}
    (h : Holds capacity history w) (hpos : capacity ≠ 0) (jobId : Str) (job : MiningJob) :
    Holds capacity (history ++ [(jobId, job)]) (w.push jobId job) := by
  refine ⟨h.capacity_eq, ?_⟩
  have hlen : w.items.length = min capacity history.length := by
    rw [h.items_eq, List.length_drop]
    omega
  unfold JobWindow.push
  dsimp only
  rw [hlen, h.capacity_eq, List.length_append, List.length_singleton]
  split
  · rename_i hfull
    have hmore : capacity ≤ history.length := by omega
    have hdrop : history.length + 1 - capacity = (history.length - capacity) + 1 := by omega
    rw [h.items_eq, hdrop, List.tail_drop, List.drop_append_of_le_length (by omega)]
  · rename_i hroom
    have hless : history.length < capacity := by omega
    have hnone : history.length - capacity = 0 := by omega
    have hnone' : history.length + 1 - capacity = 0 := by omega
    rw [h.items_eq, hnone, hnone', List.drop_zero, List.drop_zero]

/-! ## A history -/

theorem pushAll_holds {capacity : Nat} (hpos : capacity ≠ 0) (history : List (Str × MiningJob)) :
    ∃ w, pushAll capacity history = some w ∧ Holds capacity history w := by
  induction history using List.reverseRecOn with
  | nil => exact ⟨{ capacity }, rfl, rfl, List.drop_nil.symm⟩
  | append_singleton history e ih =>
    obtain ⟨w, hw, hholds⟩ := ih
    refine ⟨w.push e.1 e.2, ?_, hholds.push hpos e.1 e.2⟩
    unfold pushAll at hw ⊢
    rw [List.foldlM_append, hw]
    show ([e].foldlM (fun w e => push w e.1 e.2) w : Option JobWindow) = _
    rw [List.foldlM_cons, push_eq (hholds.capacity_eq ▸ hpos)]
    rfl

theorem Holds.recent {capacity : Nat} {history : List (Str × MiningJob)} {w : JobWindow}
    (h : Holds capacity history w) : Recent capacity history w where
  length_eq := by
    rw [h.items_eq, List.length_drop]
    omega
  suffix := h.items_eq ▸ List.drop_suffix _ _
  find _ := find?_newest w.items
  findU32 _ := find?_newest w.items
  latest hpos := by
    rw [JobWindow.latest, h.items_eq, List.getLast?_drop]
    split
    · rename_i hall
      have : history.length = 0 := by omega
      rw [List.length_eq_zero_iff.mp this]
      rfl
    · rfl

/-- A window of no size pops an empty deque at the first push. -/
theorem pushAll_none (e : Str × MiningJob) (history : List (Str × MiningJob)) :
    pushAll 0 (e :: history) = none := rfl

/-- **The window is a map of the recent jobs** after every push, if and only if
its size is not 0. -/
theorem recent_iff (capacity : Nat) (history : List (Str × MiningJob)) (e : Str × MiningJob) :
    (∃ w, pushAll capacity (history ++ [e]) = some w ∧ Recent capacity (history ++ [e]) w) ↔
      capacity ≠ 0 := by
  constructor
  · rintro ⟨w, hw, -⟩ rfl
    cases history with
    | nil => cases hw
    | cons e' history =>
      rw [List.cons_append, pushAll_none] at hw
      cases hw
  · intro hpos
    obtain ⟨w, hw, hholds⟩ := pushAll_holds hpos (history ++ [e])
    exact ⟨w, hw, hholds.recent⟩

/-- **A configured size of 0.** -/
theorem no_window : ¬ ∀ (capacity : Nat) (history : List (Str × MiningJob)) (e : Str × MiningJob),
    ∃ w, pushAll capacity (history ++ [e]) = some w ∧ Recent capacity (history ++ [e]) w := by
  intro h
  obtain ⟨w, hw, -⟩ := h 0 [] (['a'], {})
  cases hw

end MkPool.JobRecency
