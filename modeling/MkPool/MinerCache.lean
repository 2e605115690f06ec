import MkPool.Utils

/-! # The miner-id cache and the transactions that fill it

Sessions resolve a miner with `ensure_miner`, which commits what it inserts. The
database worker upserts presences in a transaction of its own, and puts each id
in the same cache before it knows whether the transaction commits. A row that a
transaction has inserted keeps others from inserting the same miner. -/
namespace MkPool.MinerCache
open MkPool.Utils

/-! ## The cache -/

/-- The unit separator, which keeps the parts of a key apart. -/
def separator : Char := '\x1f'

/-- An address that was validated: its alphabet has no control characters. -/
structure Address where
  text : Str
  plain : separator ∉ text
deriving DecidableEq

def minerCacheKey (address worker : Str) : Str := address ++ separator :: worker

/-- `miner_cache_`, newest entry first. -/
abbrev Cache := List (Str × Int)

def minerCacheGet (cache : Cache) (address worker : Str) : Int :=
  ((cache.find? fun e => e.1 = minerCacheKey address worker).map Prod.snd).getD (-1)

def minerCachePut (cache : Cache) (address worker : Str) (id : Int) : Cache :=
  if id ≤ 0 then cache
  else
    let kept := if cache.length > 1000000 then [] else cache
    (minerCacheKey address worker, id) ::
      kept.filter fun e => e.1 ≠ minerCacheKey address worker

/-! ## The database -/

/-- A row of `miners`. -/
structure MinerRow where
  id : Int
  btcAddress : Str
  workerName : Str
deriving DecidableEq

def MinerRow.isFor (r : MinerRow) (address worker : Str) : Bool :=
  r.btcAddress = address && r.workerName = worker

/-- The committed rows, the rows the worker's open transaction has inserted, the
sequence of ids and the cache. -/
structure State where
  miners : List MinerRow := []
  opened : Option (List MinerRow) := none
  nextId : Nat := 1
  cache : Cache := []
deriving DecidableEq

/-- The rows the worker's transaction sees. -/
def State.inserted (s : State) : List MinerRow := s.opened.getD []

/-- `INSERT … ON CONFLICT … DO UPDATE … RETURNING id` on the rows a transaction
sees: the id, and the row that is new. -/
def upsert (rows : List MinerRow) (nextId : Nat) (address worker : Str) :
    Int × Option MinerRow :=
  match rows.find? fun r => r.isFor address worker with
  | some r => (r.id, none)
  | none => (nextId, some ⟨nextId, address, worker⟩)

/-- How the query of `ensure_miner` ends: with its row, or with an exception after
the last attempt, which the server may yet have committed. -/
inductive Answer where
  | row
  | thrown (committed : Bool)
deriving DecidableEq

/-- `ensure_miner`. It waits while another transaction has inserted the miner. -/
def ensureMiner (s : State) (address worker : Str) (answer : Answer) : Option (State × Int) :=
  let cached := minerCacheGet s.cache address worker
  if 0 < cached then some (s, cached)
  else if s.inserted.any fun r => r.isFor address worker then none
  else
    let (id, new) := upsert s.miners s.nextId address worker
    let written := { s with miners := s.miners ++ new.toList, nextId := s.nextId + 1 }
    match answer with
    | .row => some ({ written with cache := minerCachePut s.cache address worker id }, id)
    | .thrown true => some (written, -1)
    | .thrown false => some ({ s with nextId := s.nextId + 1 }, -1)

/-- One step of the sessions or of the worker's flush. -/
inductive Event where
  | ensureMiner (address : Address) (worker : Str) (answer : Answer)
  | begin
  /-- The upsert of a presence record. -/
  | presence (address : Address) (worker : Str)
  /-- Any other statement of the flush. -/
  | statement
  | commit
  /-- The connection breaks while the server commits. -/
  | commitUnseen
  /-- A statement fails, or the commit, or the connection breaks. -/
  | abort
deriving DecidableEq

def step (s : State) : Event → Option State
  | .ensureMiner address worker answer =>
    (ensureMiner s address.text worker answer).map Prod.fst
  | .begin => if s.opened.isNone then some { s with opened := some [] } else none
  | .presence address worker =>
    s.opened.map fun rows =>
      let (id, new) := upsert (s.miners ++ rows) s.nextId address.text worker
      { s with
        opened := some (rows ++ new.toList)
        nextId := s.nextId + 1
        cache := minerCachePut s.cache address.text worker id }
  | .statement => if s.opened.isSome then some s else none
  | .commit | .commitUnseen =>
    s.opened.map fun rows => { s with miners := s.miners ++ rows, opened := none }
  | .abort => s.opened.map fun _ => { s with opened := none }

/-- What a run of the pool's process reaches, each step under a condition on the
state before it. -/
inductive Run (ok : State → Event → Prop) : State → Prop where
  | start : Run ok {}
  | step {s s' : State} {e : Event} : Run ok s → ok s e → step s e = some s' → Run ok s'

/-! ## What the cache refers to -/

/-- A flush that ends without a commit has inserted no miner. -/
def AbortsNothingNew (s : State) : Event → Prop
  | .abort => s.inserted = []
  | _ => True

/-- Every entry names a row that is there, or that the open transaction has
inserted. -/
def Refers (rows : List MinerRow) (cache : Cache) : Prop :=
  ∀ e ∈ cache, ∃ r ∈ rows, e.1 = minerCacheKey r.btcAddress r.workerName ∧ e.2 = r.id ∧
    separator ∉ r.btcAddress

theorem Refers.mono {rows rows' : List MinerRow} {cache : Cache} (h : Refers rows cache)
    (hsub : ∀ r ∈ rows, r ∈ rows') : Refers rows' cache := by
  intro e he
  obtain ⟨r, hr, hkey, hid, hplain⟩ := h e he
  exact ⟨r, hsub r hr, hkey, hid, hplain⟩

theorem mem_minerCachePut {cache : Cache} {address worker : Str} {id : Int} {e : Str × Int}
    (h : e ∈ minerCachePut cache address worker id) :
    e = (minerCacheKey address worker, id) ∨ e ∈ cache := by
  unfold minerCachePut at h
  split at h
  · exact Or.inr h
  · rcases List.mem_cons.mp h with h | h
    · exact Or.inl h
    · have hkept := (List.mem_filter.mp h).1
      split at hkept
      · cases hkept
      · exact Or.inr hkept

theorem Refers.put {rows : List MinerRow} {cache : Cache} (h : Refers rows cache)
    {r : MinerRow} (hr : r ∈ rows) (hplain : separator ∉ r.btcAddress) :
    Refers rows (minerCachePut cache r.btcAddress r.workerName r.id) := by
  intro e he
  rcases mem_minerCachePut he with rfl | he
  · exact ⟨r, hr, rfl, rfl, hplain⟩
  · exact h e he

/-- The id an upsert returns is that of a row for the miner. -/
theorem upsert_row (rows : List MinerRow) (nextId : Nat) (address worker : Str) :
    ∃ r ∈ rows ++ (upsert rows nextId address worker).2.toList,
      r.btcAddress = address ∧ r.workerName = worker ∧
        (upsert rows nextId address worker).1 = r.id := by
  unfold upsert
  cases hfind : rows.find? fun r => r.isFor address worker with
  | none => exact ⟨⟨nextId, address, worker⟩, by simp, rfl, rfl, rfl⟩
  | some r =>
    have hfor := List.find?_some hfind
    simp only [MinerRow.isFor, Bool.and_eq_true, decide_eq_true_eq] at hfor
    exact ⟨r, by simpa using List.mem_of_find?_eq_some hfind, hfor.1, hfor.2, rfl⟩

/-- The id an upsert returns may go into the cache. -/
theorem Refers.put_upsert {rows seen : List MinerRow} {cache : Cache} {nextId : Nat}
    {address : Address} {worker : Str} (h : Refers seen cache)
    (hsub : ∀ r ∈ rows ++ (upsert rows nextId address.text worker).2.toList, r ∈ seen) :
    Refers seen (minerCachePut cache address.text worker
      (upsert rows nextId address.text worker).1) := by
  obtain ⟨r, hr, haddress, rfl, hid⟩ := upsert_row rows nextId address.text worker
  rw [hid, ← haddress]
  exact h.put (hsub r hr) (by rw [haddress]; exact address.plain)

def Inv (s : State) : Prop := Refers (s.miners ++ s.inserted) s.cache

theorem inv_ensureMiner {s s' : State} {address : Address} {worker : Str} {answer : Answer}
    {id : Int} (hinv : Inv s)
    (h : ensureMiner s address.text worker answer = some (s', id)) : Inv s' := by
  unfold ensureMiner at h
  dsimp only at h
  split at h
  · cases h
    exact hinv
  · split at h
    · cases h
    · have hsub (new : Option MinerRow) (r : MinerRow) (hr : r ∈ s.miners ++ s.inserted) :
          r ∈ (s.miners ++ new.toList) ++ s.inserted := by
        simp only [List.mem_append] at hr ⊢
        tauto
      split at h
      · cases h
        refine (hinv.mono (hsub _)).put_upsert fun r hr => ?_
        exact List.mem_append_left _ hr
      · cases h
        exact hinv.mono (hsub _)
      · cases h
        exact hinv

theorem inv_step {s s' : State} {e : Event} (hinv : Inv s) (hok : AbortsNothingNew s e)
    (h : step s e = some s') : Inv s' := by
  cases e with
  | ensureMiner address worker answer =>
    obtain ⟨⟨s₁, id⟩, hensure, rfl⟩ := Option.map_eq_some_iff.mp h
    exact inv_ensureMiner hinv hensure
  | begin =>
    rw [step] at h
    split at h
    · rename_i hnone
      cases h
      have hopened := Option.isNone_iff_eq_none.mp hnone
      simpa [Inv, State.inserted, hopened] using hinv
    · cases h
  | presence address worker =>
    obtain ⟨rows, hopened, rfl⟩ := Option.map_eq_some_iff.mp h
    have hrows : s.inserted = rows := by rw [State.inserted, hopened]; rfl
    have hinv' : Refers (s.miners ++ rows) s.cache := by rw [← hrows]; exact hinv
    refine @Refers.put_upsert (s.miners ++ rows) _ _ _ _ _ (hinv'.mono ?_) ?_
    all_goals
      intro r hr
      simp only [State.inserted, Option.getD_some, List.mem_append] at hr ⊢
      tauto
  | statement =>
    rw [step] at h
    split at h
    · cases h
      exact hinv
    · cases h
  | commit | commitUnseen =>
    obtain ⟨rows, hopened, rfl⟩ := Option.map_eq_some_iff.mp h
    simpa [Inv, State.inserted, hopened] using hinv
  | abort =>
    obtain ⟨rows, hopened, rfl⟩ := Option.map_eq_some_iff.mp h
    have hempty : s.inserted = [] := hok
    unfold Inv at hinv ⊢
    rw [hempty] at hinv
    exact hinv

theorem inv_run {s : State} (h : Run AbortsNothingNew s) : Inv s := by
  induction h with
  | start => exact fun e he => absurd he List.not_mem_nil
  | step _ hok hstep ih => exact inv_step ih hok hstep

/-- The first separator ends the address. -/
theorem minerCacheKey_inj {a a' w w' : Str} (ha : separator ∉ a) (ha' : separator ∉ a')
    (h : minerCacheKey a w = minerCacheKey a' w') : a = a' ∧ w = w' := by
  unfold minerCacheKey at h
  induction a generalizing a' with
  | nil =>
    cases a' with
    | nil => exact ⟨rfl, (List.cons.inj h).2⟩
    | cons c cs => exact absurd ((List.cons.inj h).1 ▸ List.mem_cons_self) ha'
  | cons c cs ih =>
    cases a' with
    | nil => exact absurd ((List.cons.inj h).1 ▸ List.mem_cons_self) ha
    | cons c' cs' =>
      obtain ⟨rfl, htail⟩ := List.cons.inj h
      obtain ⟨rfl, rfl⟩ := ih (fun hm => ha (List.mem_cons_of_mem c hm))
        (fun hm => ha' (List.mem_cons_of_mem c hm)) htail
      exact ⟨rfl, rfl⟩

/-- A row for a miner. -/
def HasRow (rows : List MinerRow) (address : Address) (worker : Str) (id : Int) : Prop :=
  ⟨id, address.text, worker⟩ ∈ rows

/-- The ids the cache answers with are those of rows for the miners asked for. -/
def AnswersRows (rows : List MinerRow) (cache : Cache) : Prop :=
  ∀ (address : Address) worker, 0 < minerCacheGet cache address.text worker →
    HasRow rows address worker (minerCacheGet cache address.text worker)

theorem answersRows_of_refers {rows : List MinerRow} {cache : Cache} (h : Refers rows cache) :
    AnswersRows rows cache := by
  intro address worker hpos
  unfold minerCacheGet at hpos ⊢
  cases hfind : cache.find? fun e => e.1 = minerCacheKey address.text worker with
  | none =>
    rw [hfind] at hpos
    exact absurd hpos (by decide)
  | some e =>
    obtain ⟨r, hr, hkey, hid, hplain⟩ := h e (List.mem_of_find?_eq_some hfind)
    have hsame : e.1 = minerCacheKey address.text worker := by
      simpa using List.find?_some hfind
    obtain ⟨haddress, hworker⟩ := minerCacheKey_inj address.plain hplain (hsame.symm.trans hkey)
    have hrow : (⟨e.2, address.text, worker⟩ : MinerRow) = r := by
      rw [hid, haddress, hworker]
    show (⟨e.2, address.text, worker⟩ : MinerRow) ∈ rows
    rw [hrow]
    exact hr

/-- The id a session obtains is that of a committed row. -/
def ObtainsCommitted (s : State) : Prop :=
  ∀ (address : Address) worker answer s' id,
    ensureMiner s address.text worker answer = some (s', id) → 0 < id →
      HasRow s'.miners address worker id

theorem obtainsCommitted_of_answers {s : State} (h : AnswersRows s.miners s.cache) :
    ObtainsCommitted s := by
  intro address worker answer s' id hensure hid
  unfold ensureMiner at hensure
  dsimp only at hensure
  split at hensure
  · rename_i hcached
    cases hensure
    exact h address worker hcached
  · split at hensure
    · cases hensure
    · split at hensure
      · cases hensure
        obtain ⟨r, hr, haddress, hworker, hrid⟩ := upsert_row s.miners s.nextId address.text worker
        have hrow : (⟨(upsert s.miners s.nextId address.text worker).1, address.text, worker⟩ :
            MinerRow) = r := by
          rw [hrid, ← haddress, ← hworker]
        show (⟨_, address.text, worker⟩ : MinerRow) ∈ _
        rw [hrow]
        exact hr
      · cases hensure
        exact absurd hid (by decide)
      · cases hensure
        exact absurd hid (by decide)

/-- While every flush that ends without a commit has inserted no miner, the cache
answers with rows that are committed or that the open transaction commits, and
between transactions no session obtains any other id. -/
theorem cache_committed {s : State} (h : Run AbortsNothingNew s) :
    AnswersRows (s.miners ++ s.inserted) s.cache ∧
      (s.opened = none → AnswersRows s.miners s.cache ∧ ObtainsCommitted s) := by
  have hinv := inv_run h
  refine ⟨answersRows_of_refers hinv, fun hopened => ?_⟩
  have hrows : s.miners ++ s.inserted = s.miners := by simp [State.inserted, hopened]
  unfold Inv at hinv
  rw [hrows] at hinv
  have hanswers := answersRows_of_refers hinv
  exact ⟨hanswers, obtainsCommitted_of_answers hanswers⟩

def aMiner : Address := ⟨"bc1q".toList, by decide⟩

/-- A presence that is committed. -/
theorem cache_committed_commit :
    HasRow [⟨1, aMiner.text, []⟩] aMiner []
      (minerCacheGet [(minerCacheKey aMiner.text [], 1)] aMiner.text []) := by
  have hrun : Run AbortsNothingNew
      { miners := [⟨1, aMiner.text, []⟩], nextId := 2, cache := [(minerCacheKey aMiner.text [], 1)] } :=
    .step (e := .commit) (.step (e := .presence aMiner []) (.step (e := .begin) .start trivial rfl)
      trivial rfl) trivial rfl
  exact ((cache_committed hrun).2 rfl).1 aMiner [] (by decide)

/-- An abort after the insertion of a miner leaves its id in the cache. -/
theorem aborted_id_kept : ∃ s, Run (fun _ _ => True) s ∧ s.opened = none ∧
    ¬ AnswersRows s.miners s.cache ∧
      ensureMiner s aMiner.text [] .row = some (s, 1) ∧ s.miners = [] := by
  refine ⟨{ nextId := 2, cache := [(minerCacheKey aMiner.text [], 1)] },
    .step (e := .abort) (.step (e := .presence aMiner []) (.step (e := .begin) .start trivial rfl)
      trivial rfl) trivial rfl, rfl, ?_, by decide, rfl⟩
  intro hanswers
  exact List.not_mem_nil (hanswers aMiner [] (by decide))

end MkPool.MinerCache
