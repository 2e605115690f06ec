import MkPool.Utils
import Mathlib.Data.Rat.Defs
import Mathlib.Algebra.Order.Field.Rat
import Mathlib.Data.List.Nodup

/-! # `dashboard/server.js`: the scanner of found blocks

A pass of the scanner asks the node for one block after the other, and waits for
every answer. Between two answers another pass may begin, a page may be served,
which merges what the pool and the bridge have written, and the process may
stop: it begins again with the state that was saved last. What was read of the
files is what they hold at that moment. -/
namespace MkPool.FoundBlocks
open MkPool.Utils (Str)

/-! ## The state -/

/-- An entry of `blockState.blocks`. -/
structure Block where
  height : Nat
  hash : Option Str
  time : Nat
  best : ℚ := 0
  solveDiff : Option ℚ := none
  netdiff : Option ℚ := none
  worker : Option Str := none
  state : Option Str := none
  external : Bool := false
  healed : Bool := true
  bridge : Bool := false
  recheck : Bool := false

/-- A block the scanner has looked at: what the node answered, and the keys of
our addresses at that time. -/
structure Exam where
  height : Nat
  hash : Str
  outputs : List (List Str)
  mine : List Str

/-- `blockState`, with the blocks that were looked at from the first one on, the
latest first. -/
structure Book where
  lastScanned : Nat := 0
  blocks : List Block := []
  exams : List Exam := []

/-- A file `<height>.<state>` of the pool. -/
structure PoolFile where
  height : Nat
  state : Str
  hash : Str
  time : Nat
  solutionDifficulty : ℚ
  networkDifficulty : ℚ
  solvedby : Str

/-- A line of `sv2_blocks.jsonl`. -/
structure Sv2Record where
  height : Nat
  hash : Str
  time : Nat
  result : Str

/-- What the files hold, the clock, and whether `blocks.json` can be written. -/
structure Files where
  address : Str := []
  sv2Address : Str := []
  poolFiles : List PoolFile := []
  sv2Blocks : List Sv2Record := []
  solveDiffFromBlocks : Nat → ℚ := fun _ => 0
  solveDiffFromLog : Nat → ℚ := fun _ => 0
  sv2SolveDiffFromLog : Str → ℚ := fun _ => 0
  solveWorkerFromBlocks : Nat → Option Str := fun _ => none
  solveWorkerFromLog : Nat → Option Str := fun _ => none
  shortName : Str → Str := id
  sv1Decls : List Nat := []
  now : Nat := 0
  writable : Bool := true

/-- `a || b` for numbers. -/
def orElse (a b : ℚ) : ℚ := if a = 0 then b else a

/-- `a || null` for numbers. -/
def orNull (a : ℚ) : Option ℚ := if a = 0 then none else some a

/-- `a || null` for texts. -/
def textOrNull (a : Str) : Option Str := if a.isEmpty then none else some a

/-- Neither null nor zero. -/
def truthy (a : Option ℚ) : Bool := a.any (· ≠ 0)

/-! ## Addresses -/

def dropPrefix (pre s : Str) : Option Str :=
  if pre.isPrefixOf s then some (s.drop pre.length) else none

def addrKey (a : Str) : Str :=
  let a := a.map Char.toLower
  (["bitcoincash:".toList, "bchtest:".toList, "bchreg:".toList].findSome?
    fun pre => dropPrefix pre a).getD a

/-- A key with the others, where it is not empty. -/
def addKey (a : Str) (keys : List Str) : List Str :=
  if (addrKey a).isEmpty then keys else addrKey a :: keys

/-- `coinbasePaysUs`, of the outputs the node has shown. -/
def Exam.pays (e : Exam) : Bool := e.outputs.any fun addrs => addrs.any fun a => addrKey a ∈ e.mine

/-! ## Merging -/

/-- The first entry that satisfies `p` is changed. Nothing, where there is
none. -/
def updateFirst (p : Block → Bool) (f : Block → Block) : List Block → Option (List Block)
  | [] => none
  | b :: bs => if p b then some (f b :: bs) else (updateFirst p f bs).map (b :: ·)

/-- One file of `healFromBlockFiles`. -/
def healFile (files : Files) (blocks : List Block) (j : PoolFile) : List Block :=
  let sd := orNull j.solutionDifficulty
  let worker := (textOrNull j.solvedby).map files.shortName
  let update (b : Block) : Block :=
    { b with
      worker := b.worker.or worker
      solveDiff := if truthy b.solveDiff then b.solveDiff else sd.or b.solveDiff
      best := (sd.filter (b.best < ·)).getD b.best
      hash := b.hash.or (textOrNull j.hash)
      state := some j.state }
  let time := if 10 ^ 12 < j.time then j.time / 1000 else j.time
  (updateFirst (·.height = j.height) update blocks).getD <| blocks ++
    [{ height := j.height
       hash := textOrNull j.hash
       time := if time = 0 then files.now else time
       best := sd.getD 0
       solveDiff := sd
       netdiff := orNull j.networkDifficulty
       worker
       state := some j.state }]

def healFromBlockFiles (files : Files) (blocks : List Block) : List Block :=
  files.poolFiles.foldl (healFile files) blocks

/-- One record of `mergeSv2FoundBlocks`, and whether it is new. -/
def mergeRecord (files : Files) (st : List Block × Bool) (rec : Sv2Record) : List Block × Bool :=
  if rec.height = 0 then st
  else
    let known (b : Block) : Bool :=
      (!rec.hash.isEmpty && b.hash = some rec.hash) || b.height = rec.height
    let update (b : Block) : Block :=
      { b with
        worker := b.worker.or (some "SV2".toList)
        hash := b.hash.or (textOrNull rec.hash) }
    match updateFirst known update st.1 with
    | some blocks => (blocks, st.2)
    | none =>
      let sd := orElse (files.sv2SolveDiffFromLog rec.hash) (files.solveDiffFromBlocks rec.height)
      (st.1 ++
        [{ height := rec.height
           hash := textOrNull rec.hash
           time := if rec.time = 0 then files.now else rec.time
           best := sd
           solveDiff := orNull sd
           worker := some "SV2".toList
           state :=
             if rec.result = "accepted".toList ∨ rec.result = "duplicate".toList then
               some "confirmed".toList
             else some (if rec.result.isEmpty then "submitted".toList else rec.result)
           bridge := true }], true)

/-- `mergeSv2FoundBlocks`, and whether it added a block. -/
def mergeSv2FoundBlocks (files : Files) (blocks : List Block) : List Block × Bool :=
  files.sv2Blocks.foldl (mergeRecord files) (blocks, false)

/-! ## Healing -/

/-- What a heal makes of an entry, from the difficulty of its solve and from
another to compare its best with. -/
def healBlock (sd val : ℚ) (b : Block) : Block :=
  { b with
    best := if val ≠ 0 ∧ b.best < val then val else b.best
    solveDiff := if sd = 0 then b.solveDiff else some sd
    recheck := true }

/-- Entries are healed from index `i` on, up to one the node has to be asked
about. There are no more than `fuel` of them. -/
def healFrom (files : Files) : Nat → Nat → List Block → List Block × Option Nat
  | 0, _, blocks => (blocks, none)
  | fuel + 1, i, blocks =>
    match blocks[i]? with
    | none => (blocks, none)
    | some b =>
      if truthy b.solveDiff || b.recheck then healFrom files fuel (i + 1) blocks
      else
        let sd := orElse (files.solveDiffFromBlocks b.height) (files.solveDiffFromLog b.height)
        if sd = 0 ∧ b.hash.isSome then (blocks, some i)
        else healFrom files fuel (i + 1) (blocks.set i (healBlock sd sd b))

def healWorker (files : Files) (b : Block) : Block :=
  { b with
    worker := b.worker.or ((files.solveWorkerFromBlocks b.height).or
      (files.solveWorkerFromLog b.height)) }

/-! ## Passes -/

/-- What a pass waits for. The number after the heights is how many more blocks
it may look at. -/
inductive Phase where
  | validate (mine : List Str) (second : Bool)
  | count (mine : List Str)
  | hash (mine : List Str) (tip h budget : Nat)
  | block (mine : List Str) (tip h budget : Nat) (hash : Str)
  | coinbase (mine : List Str) (tip h budget : Nat) (hash : Str) (time : Nat) (difficulty : ℚ)
  | heal (i : Nat)

/-- An answer of the node. An address may be given in another spelling; of a
block the first transaction is asked for, if it has one. -/
inductive Reply where
  | failed
  | validated (isvalid : Bool) (address : Str)
  | count (n : Nat)
  | hash (hash : Str)
  | block (coinbase : Bool) (time : Nat) (difficulty : ℚ)
  | outputs (addresses : List (List Str))

/-- The process, and the state as it was saved last, if that can be read. -/
structure State where
  book : Book := {}
  file : Option Book := none
  scanning : Bool := false
  passes : List Phase := []

def State.save (s : State) (files : Files) : State :=
  if files.writable then { s with file := some s.book } else s

def State.withBlocks (s : State) (blocks : List Block) : State :=
  { s with book := { s.book with blocks } }

/-- The end of a pass, however it comes to it. -/
def finish (s : State) : State × Option Phase := ({ s with scanning := false }, none)

/-- The end of a pass that was not broken off. -/
def finishHealed (files : Files) (s : State) : State × Option Phase :=
  let blocks := s.book.blocks.map (healWorker files)
  let blocks := (mergeSv2FoundBlocks files blocks).1
  finish ((s.withBlocks (healFromBlockFiles files blocks)).save files)

def toHeal (files : Files) (s : State) (i : Nat) : State × Option Phase :=
  match healFrom files s.book.blocks.length i s.book.blocks with
  | (blocks, some i) => (s.withBlocks blocks, some (.heal i))
  | (blocks, none) => finishHealed files (s.withBlocks blocks)

/-- `while (h <= tip && budget-- > 0)`. -/
def toLoop (files : Files) (s : State) (mine : List Str) (tip h budget : Nat) :
    State × Option Phase :=
  if h ≤ tip ∧ 0 < budget then (s, some (.hash mine tip h (budget - 1))) else toHeal files s 0

def toCount (s : State) (mine : List Str) : State × Option Phase :=
  if mine.isEmpty then finish s else (s, some (.count mine))

def toSecond (files : Files) (s : State) (mine : List Str) : State × Option Phase :=
  let mine := addKey files.sv2Address mine
  if files.sv2Address.isEmpty then toCount s mine else (s, some (.validate mine true))

/-- `scanBlocks`, up to its first question. -/
def begin (files : Files) (s : State) : State × Option Phase :=
  let mine := addKey files.address []
  if files.address.isEmpty then toSecond files s mine else (s, some (.validate mine false))

/-- The entry of a block that pays us. -/
def foundBlock (files : Files) (h : Nat) (hash : Str) (time : Nat) (difficulty : ℚ) : Block :=
  let solveDiff := orElse (orElse (files.solveDiffFromBlocks h) (files.sv2SolveDiffFromLog hash))
    (files.solveDiffFromLog h)
  let localEvidence := solveDiff ≠ 0 ∨
    files.sv1Decls.any fun ts => ts - time + (time - ts) < 900
  { height := h
    hash := some hash
    time
    best := solveDiff
    solveDiff := orNull solveDiff
    netdiff := orNull difficulty
    worker := ((files.solveWorkerFromBlocks h).or (files.solveWorkerFromLog h)).or
      (if localEvidence then none else some "external".toList)
    external := !decide localEvidence }

/-- A block was looked at: it is listed, where it pays us and is not listed yet,
and the scan goes on. -/
def examined (files : Files) (s : State) (mine : List Str) (tip h budget : Nat) (hash : Str)
    (time : Nat) (difficulty : ℚ) (outputs : List (List Str)) : State × Option Phase :=
  let e : Exam := { height := h, hash, outputs, mine }
  let blocks :=
    if e.pays && !s.book.blocks.any (·.hash = some hash) then
      s.book.blocks ++ [foundBlock files h hash time difficulty]
    else s.book.blocks
  toLoop files { s with book := { lastScanned := h, blocks, exams := e :: s.book.exams } }
    mine tip (h + 1) budget

/-- A pass goes on with an answer to what it asked, up to its next question. -/
def resume (files : Files) (s : State) : Phase → Reply → Option (State × Option Phase)
  | .validate mine second, r =>
    let go (mine : List Str) : Option (State × Option Phase) :=
      some (if second then toCount s mine else toSecond files s mine)
    match r with
    | .failed => go mine
    | .validated isvalid address =>
      go (if isvalid && !address.isEmpty then addrKey address :: mine else mine)
    | _ => none
  | .heal i, r =>
    let go (val : ℚ) : Option (State × Option Phase) :=
      some (toHeal files (s.withBlocks (s.book.blocks.modify i (healBlock 0 val))) (i + 1))
    match r with
    | .failed => go 0
    | .block _ _ difficulty => go difficulty
    | _ => none
  | _, .failed => some (finish s)
  | .count mine, .count tip =>
    let lastScanned := if s.book.lastScanned = 0 then tip - 200 else s.book.lastScanned
    some (toLoop files { s with book := { s.book with lastScanned } } mine tip (lastScanned + 1) 50)
  | .hash mine tip h budget, .hash hash => some (s, some (.block mine tip h budget hash))
  | .block mine tip h budget hash, .block coinbase time difficulty =>
    if coinbase then some (s, some (.coinbase mine tip h budget hash time difficulty))
    else some (examined files s mine tip h budget hash time difficulty [])
  | .coinbase mine tip h budget hash time difficulty, .outputs addresses =>
    some (examined files s mine tip h budget hash time difficulty addresses)
  | _, _ => none

/-! ## Runs -/

/-- A timer calls `scanBlocks`, the node answers pass `i`, a page is served, or
the process ends and begins again. -/
inductive Input where
  | tick (files : Files)
  | reply (i : Nat) (files : Files) (r : Reply)
  | status (files : Files)
  | restart

/-- What `/api/status` does to the state. -/
def serve (files : Files) (s : State) : State :=
  let (blocks, added) := mergeSv2FoundBlocks files s.book.blocks
  let s := s.withBlocks blocks
  let s := if added then s.save files else s
  s.withBlocks (healFromBlockFiles files s.book.blocks)

def step (s : State) : Input → Option State
  | .tick files =>
    if s.scanning then some s
    else
      match begin files { s with scanning := true } with
      | (s, none) => some s
      | (s, some ph) => some { s with passes := ph :: s.passes }
  | .reply i files r =>
    match s.passes[i]? with
    | none => none
    | some ph =>
      (resume files s ph r).map fun
        | (s, none) => { s with passes := s.passes.eraseIdx i }
        | (s, some ph) => { s with passes := s.passes.set i ph }
  | .status files => some (serve files s)
  | .restart => some { book := s.file.getD {}, file := s.file }

/-- The states of the runs whose inputs meet a condition. -/
inductive Run (ok : State → Input → Prop) : State → Prop where
  | init : Run ok {}
  | step {s s' : State} {i : Input} (h : Run ok s) (hok : ok s i) (hs : step s i = some s') :
    Run ok s'

/-! ## Updates of one entry -/

theorem updateFirst_eq_some {p : Block → Bool} {f : Block → Block} :
    ∀ {bs bs' : List Block}, updateFirst p f bs = some bs' →
      ∃ l b r, bs = l ++ b :: r ∧ p b = true ∧ bs' = l ++ f b :: r
  | [], _, h => nomatch h
  | b :: bs, bs', h => by
    unfold updateFirst at h
    split at h
    · next hp => exact ⟨[], b, bs, rfl, hp, (Option.some.inj h).symm⟩
    · obtain ⟨cs, hcs, rfl⟩ := Option.map_eq_some_iff.mp h
      obtain ⟨l, c, r, rfl, hp, rfl⟩ := updateFirst_eq_some hcs
      exact ⟨b :: l, c, r, rfl, hp, rfl⟩

theorem updateFirst_eq_none {p : Block → Bool} {f : Block → Block} :
    ∀ {bs : List Block}, updateFirst p f bs = none → ∀ b ∈ bs, p b = false
  | [], _, _, hb => nomatch hb
  | c :: bs, h, b, hb => by
    unfold updateFirst at h
    split at h
    · cases h
    · next hp =>
      cases hb with
      | head => simpa using hp
      | tail _ hb => exact updateFirst_eq_none (Option.map_eq_none_iff.mp h) b hb

/-- A record of a block is entered: an entry is changed, and keeps a hash it
has, or one is added, of a height that no other has. -/
inductive Entered (height : Nat) (hash : Option Str) (blocks : List Block) : List Block → Prop
  | left : Entered height hash blocks blocks
  | changed {l r : List Block} {b b' : Block} (h : blocks = l ++ b :: r)
      (hheight : b'.height = b.height) (hhash : b'.hash = b.hash.or hash) :
      Entered height hash blocks (l ++ b' :: r)
  | added {b : Block} (hnew : ∀ x ∈ blocks, x.height ≠ height) (hheight : b.height = height)
      (hhash : b.hash = hash) : Entered height hash blocks (blocks ++ [b])

theorem healFile_entered (files : Files) (blocks : List Block) (j : PoolFile) :
    Entered j.height (textOrNull j.hash) blocks (healFile files blocks j) := by
  unfold healFile
  dsimp only
  rcases hu : updateFirst _ _ blocks with _ | blocks'
  · exact .added (fun b hb => by simpa using updateFirst_eq_none hu b hb) rfl rfl
  · obtain ⟨l, b, r, rfl, -, rfl⟩ := updateFirst_eq_some hu
    exact .changed rfl rfl rfl

theorem mergeRecord_entered (files : Files) (st : List Block × Bool) (rec : Sv2Record) :
    (rec.height = 0 ∧ mergeRecord files st rec = st) ∨ rec.height ≠ 0 ∧
      Entered rec.height (textOrNull rec.hash) st.1 (mergeRecord files st rec).1 := by
  unfold mergeRecord
  dsimp only
  split
  · next h => exact .inl ⟨h, rfl⟩
  · next h =>
    refine .inr ⟨h, ?_⟩
    split
    · next hu =>
      obtain ⟨l, b, r, hl, -, rfl⟩ := updateFirst_eq_some hu
      exact .changed hl rfl rfl
    · next hu =>
      refine .added (fun b hb => ?_) rfl rfl
      have hk := updateFirst_eq_none hu b hb
      simp only [Bool.or_eq_false_iff, decide_eq_false_iff_not] at hk
      exact hk.2

theorem Run.mono {ok ok' : State → Input → Prop} (hok : ∀ s i, ok s i → ok' s i) {s : State}
    (h : Run ok s) : Run ok' s := by
  induction h with
  | init => exact .init
  | step _ hi hs ih => exact .step ih (hok _ _ hi) hs

/-! ## What every change of the book keeps -/

/-- What a block is told from the others by. -/
def Block.key (b : Block) : Nat × Option Str := (b.height, b.hash)

/-- A property of the book which the changes the scanner makes keep, where a
hash is only named for a height as `N` says. -/
structure Rules (P : Book → Prop) (N : Nat → Str → Prop) : Prop where
  init : P {}
  begins {b : Book} (hb : P b) (h0 : b.lastScanned = 0) (n : Nat) : P { b with lastScanned := n }
  same {b : Book} (hb : P b) {blocks : List Block}
    (hkeys : blocks.map Block.key = b.blocks.map Block.key) : P { b with blocks }
  entered {b : Book} (hb : P b) {height : Nat} {hash : Str} (hn : N height hash)
    {blocks : List Block} (he : Entered height (textOrNull hash) b.blocks blocks) :
    P { b with blocks }
  looked {b : Book} (hb : P b) {e : Exam} (he : e.height = b.lastScanned + 1)
    (hn : N e.height e.hash) (files : Files) (time : Nat) (difficulty : ℚ) :
    P { lastScanned := e.height
        blocks :=
          if e.pays && !b.blocks.any (·.hash = some e.hash) then
            b.blocks ++ [foundBlock files e.height e.hash time difficulty]
          else b.blocks
        exams := e :: b.exams }

/-- What the pool and the bridge have written names hashes as `N` says. -/
structure Files.Names (files : Files) (N : Nat → Str → Prop) : Prop where
  poolFiles {j : PoolFile} (hj : j ∈ files.poolFiles) : N j.height j.hash
  sv2Blocks {rec : Sv2Record} (hr : rec ∈ files.sv2Blocks) (h0 : rec.height ≠ 0) :
    N rec.height rec.hash

section Keys

@[simp] theorem healBlock_key (sd val : ℚ) (b : Block) : (healBlock sd val b).key = b.key := rfl

@[simp] theorem healWorker_key (files : Files) (b : Block) :
    (healWorker files b).key = b.key := rfl

theorem map_key_set {blocks : List Block} {i : Nat} {b b' : Block} (hi : blocks[i]? = some b)
    (hb : b'.key = b.key) : (blocks.set i b').map Block.key = blocks.map Block.key := by
  rw [List.map_set, hb]
  apply List.ext_getElem? fun k => ?_
  rw [List.getElem?_set]
  split
  · next hk =>
    subst hk
    obtain ⟨hlt, heq⟩ := List.getElem?_eq_some_iff.mp hi
    simp [hlt, heq]
  · rfl

theorem map_key_modify (blocks : List Block) (i : Nat) (sd val : ℚ) :
    (blocks.modify i (healBlock sd val)).map Block.key = blocks.map Block.key := by
  apply List.ext_getElem? fun k => ?_
  simp only [List.getElem?_map, List.getElem?_modify]
  cases blocks[k]? with
  | none => rfl
  | some b => simp only [Option.map_some]; split <;> simp

/-- Healing changes no height and no hash. -/
theorem map_key_healFrom (files : Files) : ∀ (fuel i : Nat) (blocks : List Block),
    (healFrom files fuel i blocks).1.map Block.key = blocks.map Block.key
  | 0, _, _ => rfl
  | fuel + 1, i, blocks => by
    unfold healFrom
    split
    · rfl
    · next b hi =>
      dsimp only
      split
      · exact map_key_healFrom files fuel (i + 1) blocks
      · split
        · rfl
        · rw [map_key_healFrom files fuel (i + 1)]
          exact map_key_set hi (healBlock_key _ _ b)

end Keys

section Steps
variable {P : Book → Prop} {N : Nat → Str → Prop}

theorem Rules.healedAll (R : Rules P N) {files : Files} (hf : files.Names N) {b : Book} (hb : P b) :
    P { b with blocks := healFromBlockFiles files b.blocks } := by
  have go : ∀ (js : List PoolFile), js ⊆ files.poolFiles → ∀ blocks, P { b with blocks } →
      P { b with blocks := js.foldl (healFile files) blocks } := by
    intro js
    induction js with
    | nil => intro _ blocks hp; exact hp
    | cons j js ih =>
      intro hjs blocks hp
      obtain ⟨hj, hjs⟩ := List.cons_subset.mp hjs
      exact ih hjs _ (R.entered hp (hf.poolFiles hj) (healFile_entered files blocks j))
  exact go _ (List.Subset.refl _) _ hb

theorem Rules.mergedAll (R : Rules P N) {files : Files} (hf : files.Names N) {b : Book} (hb : P b) :
    P { b with blocks := (mergeSv2FoundBlocks files b.blocks).1 } := by
  have go : ∀ (rs : List Sv2Record), rs ⊆ files.sv2Blocks → ∀ st : List Block × Bool,
      P { b with blocks := st.1 } →
      P { b with blocks := (rs.foldl (mergeRecord files) st).1 } := by
    intro rs
    induction rs with
    | nil => intro _ st hp; exact hp
    | cons r rs ih =>
      intro hrs st hp
      obtain ⟨hr, hrs⟩ := List.cons_subset.mp hrs
      refine ih hrs _ ?_
      obtain ⟨-, heq⟩ | ⟨h0, he⟩ := mergeRecord_entered files st r
      · rw [heq]
        exact hp
      · exact R.entered hp (hf.sv2Blocks hr h0) he
  exact go _ (List.Subset.refl _) _ hb

/-- The state holds it, and so does what was saved. -/
structure State.Holds (P : Book → Prop) (s : State) : Prop where
  book : P s.book
  file {b : Book} (hb : s.file = some b) : P b

theorem State.Holds.save {s : State} (h : s.Holds P) (files : Files) : (s.save files).Holds P := by
  unfold State.save
  split
  · refine ⟨h.book, fun hb => ?_⟩
    cases hb
    exact h.book
  · exact h

theorem State.Holds.withBlocks {s : State} (h : s.Holds P) {blocks : List Block}
    (hb : P { s.book with blocks }) : (s.withBlocks blocks).Holds P := ⟨hb, h.file⟩

/-- A pass that looks at a block looks at the next one. -/
def Phase.At (N : Nat → Str → Prop) (last : Nat) : Phase → Prop
  | .hash _ _ h _ => h = last + 1
  | .block _ _ h _ x => h = last + 1 ∧ N h x
  | .coinbase _ _ h _ x _ _ => h = last + 1 ∧ N h x
  | _ => True

/-- What is left of a pass when it has got an answer: it waits again, or it has
ended and another may begin. -/
structure Went (P : Book → Prop) (N : Nat → Str → Prop) (s : State) (r : State × Option Phase) :
    Prop where
  holds : r.1.Holds P
  passes : r.1.passes = s.passes
  scanning : r.1.scanning = r.2.isSome
  at' {ph : Phase} (hph : r.2 = some ph) : ph.At N r.1.book.lastScanned

variable {s : State} {files : Files}

theorem went_on (h : s.Holds P) (hs : s.scanning = true) {ph : Phase}
    (hat : ph.At N s.book.lastScanned) : Went P N s (s, some ph) where
  holds := h
  passes := rfl
  scanning := hs
  at' hph := by cases hph; exact hat

theorem went_finish (h : s.Holds P) : Went P N s (finish s) where
  holds := ⟨h.book, h.file⟩
  passes := rfl
  scanning := rfl
  at' hph := nomatch hph

theorem Went.of_passes {s' : State} {r : State × Option Phase} (h : Went P N s' r)
    (hp : s'.passes = s.passes) : Went P N s r :=
  { h with passes := h.passes.trans hp }

theorem Rules.finishHealed (R : Rules P N) (hf : files.Names N) (h : s.Holds P) :
    Went P N s (finishHealed files s) := by
  have hw : P { s.book with blocks := s.book.blocks.map (healWorker files) } :=
    R.same h.book (by simp [Function.comp_def])
  have hm := R.mergedAll hf hw
  have hh := R.healedAll hf hm
  refine (went_finish ((h.withBlocks hh).save files)).of_passes ?_
  unfold State.save
  split <;> rfl

theorem Rules.toHeal (R : Rules P N) (hf : files.Names N) (h : s.Holds P) (hs : s.scanning = true)
    (i : Nat) : Went P N s (toHeal files s i) := by
  unfold FoundBlocks.toHeal
  have hkeys := map_key_healFrom files s.book.blocks.length i s.book.blocks
  split
  · next blocks k heq =>
    rw [heq] at hkeys
    have hat : (Phase.heal k).At N (s.withBlocks blocks).book.lastScanned := trivial
    exact (went_on (h.withBlocks (R.same h.book hkeys)) hs hat).of_passes rfl
  · next blocks heq =>
    rw [heq] at hkeys
    exact (R.finishHealed hf (h.withBlocks (R.same h.book hkeys))).of_passes rfl

theorem Rules.toLoop (R : Rules P N) (hf : files.Names N) (h : s.Holds P) (hs : s.scanning = true)
    (mine : List Str) (tip : Nat) {k : Nat} (hk : k = s.book.lastScanned + 1) (budget : Nat) :
    Went P N s (toLoop files s mine tip k budget) := by
  unfold FoundBlocks.toLoop
  split
  · exact went_on h hs hk
  · exact R.toHeal hf h hs 0

theorem toCount_went (h : s.Holds P) (hs : s.scanning = true) (mine : List Str) :
    Went P N s (toCount s mine) := by
  unfold toCount
  split
  · exact went_finish h
  · exact went_on h hs trivial

theorem toSecond_went (h : s.Holds P) (hs : s.scanning = true) (mine : List Str) :
    Went P N s (toSecond files s mine) := by
  unfold toSecond
  dsimp only
  split
  · exact toCount_went h hs _
  · exact went_on h hs trivial

theorem begin_went (h : s.Holds P) (hs : s.scanning = true) : Went P N s (begin files s) := by
  unfold begin
  dsimp only
  split
  · exact toSecond_went h hs _
  · exact went_on h hs trivial

theorem Rules.examined (R : Rules P N) (hf : files.Names N) (h : s.Holds P) (hs : s.scanning = true)
    (mine : List Str) (tip : Nat) {k : Nat} (budget : Nat) {hash : Str}
    (hk : k = s.book.lastScanned + 1 ∧ N k hash) (time : Nat) (difficulty : ℚ)
    (outputs : List (List Str)) :
    Went P N s (examined files s mine tip k budget hash time difficulty outputs) := by
  have hbook := R.looked h.book (e := ⟨k, hash, outputs, mine⟩) hk.1 hk.2 files time difficulty
  exact (R.toLoop hf (s := { s with book := _ }) ⟨hbook, h.file⟩ hs mine tip rfl budget).of_passes
    rfl

/-- What an answer has to be like: a hash that is named is one `N` allows. -/
def Fair (N : Nat → Str → Prop) : Phase → Reply → Prop
  | .hash _ _ h _, .hash x => N h x
  | _, _ => True

theorem Rules.resume (R : Rules P N) (hf : files.Names N) (h : s.Holds P) (hs : s.scanning = true)
    {ph : Phase} (hat : ph.At N s.book.lastScanned) {r : Reply} (hfair : Fair N ph r)
    {out : State × Option Phase} (ho : resume files s ph r = some out) : Went P N s out := by
  have hcount (mine : List Str) (second : Bool) :
      Went P N s (if second then toCount s mine else toSecond files s mine) := by
    split
    · exact toCount_went h hs mine
    · exact toSecond_went h hs mine
  have hheal (i : Nat) (val : ℚ) : Went P N s
      (FoundBlocks.toHeal files (s.withBlocks (s.book.blocks.modify i (healBlock 0 val)))
        (i + 1)) :=
    (R.toHeal hf (h.withBlocks (R.same h.book (map_key_modify _ i 0 val))) hs (i + 1)).of_passes rfl
  cases ph with
  | validate mine second =>
    cases r <;> cases ho <;> exact hcount _ second
  | heal i =>
    cases r <;> cases ho <;> exact hheal i _
  | count mine =>
    cases r <;> cases ho
    · exact went_finish h
    · next tip =>
      have hb : P { s.book with
          lastScanned := if s.book.lastScanned = 0 then tip - 200 else s.book.lastScanned } := by
        split
        · next h0 => exact R.begins h.book h0 _
        · exact h.book
      exact (R.toLoop hf (s := { s with book := _ }) ⟨hb, h.file⟩ hs mine tip rfl 50).of_passes rfl
  | hash mine tip k budget =>
    cases r <;> cases ho
    · exact went_finish h
    · next x => exact went_on h hs ⟨hat, hfair⟩
  | block mine tip k budget x =>
    cases r with
    | failed =>
      cases ho
      exact went_finish h
    | block coinbase time difficulty =>
      cases coinbase <;> cases ho
      · exact R.examined hf h hs mine tip budget hat time difficulty []
      · exact went_on h hs hat
    | _ => cases ho
  | coinbase mine tip k budget x time difficulty =>
    cases r <;> cases ho
    · exact went_finish h
    · next addresses => exact R.examined hf h hs mine tip budget hat time difficulty addresses

theorem Rules.serve (R : Rules P N) (hf : files.Names N) (h : s.Holds P) :
    (serve files s).Holds P ∧ (serve files s).passes = s.passes ∧
      (serve files s).scanning = s.scanning ∧
      (serve files s).book.lastScanned = s.book.lastScanned := by
  have hm := h.withBlocks (R.mergedAll hf h.book)
  have hs : (if (mergeSv2FoundBlocks files s.book.blocks).2 then
      (s.withBlocks (mergeSv2FoundBlocks files s.book.blocks).1).save files
      else s.withBlocks (mergeSv2FoundBlocks files s.book.blocks).1).Holds P := by
    split
    · exact hm.save files
    · exact hm
  refine ⟨hs.withBlocks (R.healedAll hf hs.book), ?_⟩
  unfold FoundBlocks.serve State.save
  dsimp only [State.withBlocks]
  split
  · split <;> exact ⟨rfl, rfl, rfl⟩
  · exact ⟨rfl, rfl, rfl⟩

end Steps

/-! ## The scanner over its runs -/

/-- At most one pass is under way, and the flag tells. -/
def Single (N : Nat → Str → Prop) (s : State) : Prop :=
  (s.passes = [] ∧ s.scanning = false) ∨
    ∃ ph, s.passes = [ph] ∧ s.scanning = true ∧ ph.At N s.book.lastScanned

/-- What is read and what the node answers names hashes as `N` says. -/
def Obeys (N : Nat → Str → Prop) (s : State) : Input → Prop
  | .tick files => files.Names N
  | .reply i files r => files.Names N ∧ ∀ ph, s.passes[i]? = some ph → Fair N ph r
  | .status files => files.Names N
  | .restart => True

section Runs
variable {P : Book → Prop} {N : Nat → Str → Prop} {s s' : State}

theorem Went.single {r : State × Option Phase} (h : Went P N s r) :
    Single N { r.1 with passes := r.2.toList } := by
  have hs := h.scanning
  have hat := @h.at'
  obtain ⟨t, _ | ph⟩ := r
  · exact .inl ⟨rfl, hs⟩
  · exact .inr ⟨ph, rfl, hs, hat rfl⟩

theorem Rules.step (R : Rules P N) (h : s.Holds P) (h1 : Single N s) {i : Input}
    (hi : Obeys N s i) (hs : step s i = some s') : s'.Holds P ∧ Single N s' := by
  cases i with
  | tick files =>
    simp only [FoundBlocks.step] at hs
    split at hs
    · cases hs
      exact ⟨h, h1⟩
    · next hoff =>
      obtain ⟨hnil, -⟩ : s.passes = [] ∧ s.scanning = false :=
        h1.resolve_right fun ⟨_, _, hon, _⟩ => hoff hon
      have hw : Went P N { s with scanning := true } (begin files { s with scanning := true }) :=
        begin_went ⟨h.book, h.file⟩ rfl
      have hsingle := hw.single
      have hholds := hw.holds
      have hp := hw.passes.trans hnil
      rcases hbegin : begin files { s with scanning := true } with ⟨t, _ | ph⟩
      · rw [hbegin] at hs hsingle hholds hp
        cases hs
        have hp : s'.passes = [] := hp
        have heq : { s' with passes := [] } = s' := by rw [← hp]
        exact ⟨hholds, heq ▸ hsingle⟩
      · rw [hbegin] at hs hsingle hholds hp
        cases hs
        have hp : t.passes = [] := hp
        exact ⟨⟨hholds.book, hholds.file⟩, by rw [hp]; exact hsingle⟩
  | reply i files r =>
    simp only [FoundBlocks.step] at hs
    split at hs
    · cases hs
    · next ph hph =>
      obtain ⟨out, hout, rfl⟩ := Option.map_eq_some_iff.mp hs
      obtain ⟨hnil, -⟩ | ⟨ph', hone, hon, hat⟩ := h1
      · rw [hnil] at hph
        exact nomatch hph
      · rw [hone] at hph
        obtain ⟨rfl, rfl⟩ : i = 0 ∧ ph' = ph := by
          cases i with
          | zero => exact ⟨rfl, Option.some.inj hph⟩
          | succ i => exact nomatch hph
        have hw := R.resume hi.1 h hon hat (hi.2 ph' (by rw [hone]; rfl)) hout
        have hsingle := hw.single
        have hholds := hw.holds
        have hp := hw.passes.trans hone
        obtain ⟨t, _ | ph⟩ := out
        · exact ⟨⟨hholds.book, hholds.file⟩, by
            dsimp only at hp ⊢
            rw [hp]
            exact hsingle⟩
        · exact ⟨⟨hholds.book, hholds.file⟩, by
            dsimp only at hp ⊢
            rw [hp]
            exact hsingle⟩
  | status files =>
    cases hs
    obtain ⟨hholds, hp, hon, hlast⟩ := R.serve hi h
    refine ⟨hholds, ?_⟩
    unfold Single
    rw [hp, hon, hlast]
    exact h1
  | restart =>
    cases hs
    refine ⟨⟨?_, h.file⟩, .inl ⟨rfl, rfl⟩⟩
    show P (s.file.getD {})
    cases hfile : s.file with
    | none => exact R.init
    | some b => exact h.file hfile

/-- What the rules keep holds in every state of a run, of what was saved too. -/
theorem Rules.run (R : Rules P N) (h : Run (Obeys N) s) : s.Holds P ∧ Single N s := by
  induction h with
  | init => exact ⟨⟨R.init, fun hb => nomatch hb⟩, .inl ⟨rfl, rfl⟩⟩
  | step _ hok hs ih => exact R.step ih.1 ih.2 hok hs

end Runs

/-! ## No block is missed -/

/-- A block with the hash is listed. -/
def Listed (blocks : List Block) (hash : Str) : Prop := ∃ b ∈ blocks, b.hash = some hash

/-- The blocks were looked at one height after the other, up to the last one,
and those that pay us are listed. -/
structure Book.Complete (b : Book) : Prop where
  looked {i : Nat} {e : Exam} (he : b.exams[i]? = some e) :
    0 < e.height ∧ e.height + i = b.lastScanned
  listed {e : Exam} (he : e ∈ b.exams) (hpays : e.pays = true) : Listed b.blocks e.hash

theorem Listed.same {xs ys : List Block} {hash : Str} (h : Listed xs hash)
    (hkeys : ys.map Block.key = xs.map Block.key) : Listed ys hash := by
  obtain ⟨b, hb, hh⟩ := h
  have hmem := List.mem_map_of_mem (f := Block.key) hb
  rw [← hkeys] at hmem
  obtain ⟨c, hc, hck⟩ := List.mem_map.mp hmem
  exact ⟨c, hc, (congrArg Prod.snd hck).trans hh⟩

theorem Listed.entered {xs ys : List Block} {x : Str} {height : Nat} {hash : Option Str}
    (h : Listed xs x) (he : Entered height hash xs ys) : Listed ys x := by
  obtain ⟨b, hb, hh⟩ := h
  cases he with
  | left => exact ⟨b, hb, hh⟩
  | @changed l r c c' hl hheight hhash =>
    rw [hl] at hb
    obtain hb | hb := List.mem_append.mp hb
    · exact ⟨b, List.mem_append_left _ hb, hh⟩
    · cases hb with
      | head => exact ⟨c', by simp, by rw [hhash, hh]; rfl⟩
      | tail _ hb => exact ⟨b, List.mem_append_right _ (List.mem_cons_of_mem _ hb), hh⟩
  | added => exact ⟨b, List.mem_append_left _ hb, hh⟩

theorem complete_rules : Rules Book.Complete fun _ _ => True where
  init := ⟨fun he => (nomatch he), fun he => (nomatch he)⟩
  begins {b} hb h0 n := by
    have hnil : b.exams = [] := by
      cases hex : b.exams with
      | nil => rfl
      | cons e es =>
        obtain ⟨hpos, hlast⟩ := hb.looked (i := 0) (by rw [hex]; rfl)
        omega
    refine ⟨fun he => ?_, fun he => hb.listed he⟩
    simp [hnil] at he
  same hb _ hkeys := ⟨hb.looked, fun he hp => (hb.listed he hp).same hkeys⟩
  entered hb _ _ _ _ hent := ⟨hb.looked, fun he hp => (hb.listed he hp).entered hent⟩
  looked {b} hb e he _ files time difficulty := by
    refine ⟨fun {i e'} hi => ?_, fun {e'} he' hp => ?_⟩
    · cases i with
      | zero =>
        cases hi
        exact ⟨by omega, rfl⟩
      | succ i =>
        obtain ⟨hpos, hlast⟩ := hb.looked hi
        exact ⟨hpos, by dsimp only; omega⟩
    · cases he' with
      | head =>
        dsimp only
        split
        · exact ⟨_, List.mem_append_right _ (List.mem_singleton_self _), rfl⟩
        · next hold =>
          obtain ⟨c, hc, hch⟩ : ∃ c ∈ b.blocks, c.hash = some e.hash := by
            simpa [hp] using hold
          exact ⟨c, hc, hch⟩
      | tail _ he' =>
        obtain ⟨c, hc, hch⟩ := hb.listed he' hp
        dsimp only
        split
        · exact ⟨c, List.mem_append_left _ hc, hch⟩
        · exact ⟨c, hc, hch⟩

/-- Every entry has the hash of a block of its height, and no other has it. -/
structure Book.Tidy (heightOf : Str → Nat) (b : Book) : Prop where
  labelled {x : Block} (hx : x ∈ b.blocks) : ∃ hash, x.hash = some hash ∧ heightOf hash = x.height
  nodup : (b.blocks.map (·.hash)).Nodup

/-- A hash that is named is one of a block of that height. -/
def NameOf (heightOf : Str → Nat) (height : Nat) (hash : Str) : Prop :=
  hash ≠ [] ∧ heightOf hash = height

theorem Book.Tidy.same {heightOf : Str → Nat} {b : Book} (h : b.Tidy heightOf)
    {blocks : List Block} (hkeys : blocks.map Block.key = b.blocks.map Block.key) :
    Book.Tidy heightOf { b with blocks } := by
  refine ⟨fun {x} hx => ?_, ?_⟩
  · have hmem := List.mem_map_of_mem (f := Block.key) hx
    rw [hkeys] at hmem
    obtain ⟨y, hy, hyx⟩ := List.mem_map.mp hmem
    obtain ⟨hash, hh, hheight⟩ := h.labelled hy
    exact ⟨hash, (congrArg Prod.snd hyx).symm.trans hh,
      hheight.trans (congrArg Prod.fst hyx)⟩
  · have hhash (bs : List Block) : bs.map (·.hash) = (bs.map Block.key).map Prod.snd := by
      rw [List.map_map]; rfl
    show (blocks.map (·.hash)).Nodup
    rw [hhash, hkeys, ← hhash]
    exact h.nodup

/-- A block is added, whose hash no entry has. -/
theorem Book.Tidy.added {heightOf : Str → Nat} {b : Book} (h : b.Tidy heightOf) {x : Block}
    {hash : Str} (hx : x.hash = some hash) (hheight : heightOf hash = x.height)
    (hnew : ∀ y ∈ b.blocks, y.hash ≠ some hash) (lastScanned : Nat) (exams : List Exam) :
    Book.Tidy heightOf { lastScanned, blocks := b.blocks ++ [x], exams } := by
  refine ⟨fun {y} hy => ?_, ?_⟩
  · obtain hy | hy := List.mem_append.mp hy
    · exact h.labelled hy
    · cases List.mem_singleton.mp hy
      exact ⟨hash, hx, hheight⟩
  · show ((b.blocks ++ [x]).map (·.hash)).Nodup
    rw [List.map_append, List.nodup_append]
    refine ⟨h.nodup, List.nodup_singleton _, fun y hy z hz => ?_⟩
    obtain ⟨c, hc, rfl⟩ := List.mem_map.mp hy
    rw [List.map_singleton, List.mem_singleton, hx] at hz
    rw [hz]
    exact hnew c hc

theorem textOrNull_of_ne {x : Str} (h : x ≠ []) : textOrNull x = some x := by
  unfold textOrNull
  rw [if_neg (by simpa using h)]

theorem tidy_rules (heightOf : Str → Nat) : Rules (Book.Tidy heightOf) (NameOf heightOf) where
  init := ⟨fun hx => (nomatch hx), List.nodup_nil⟩
  begins hb _ _ := ⟨hb.labelled, hb.nodup⟩
  same hb _ hkeys := hb.same hkeys
  entered {b} hb height hash hn blocks he := by
    rw [textOrNull_of_ne hn.1] at he
    cases he with
    | left => exact hb
    | @changed l r c c' hl hheight hhash =>
      -- The entry has a hash already.
      obtain ⟨x, hx, -⟩ := hb.labelled (x := c) (by rw [hl]; simp)
      refine hb.same ?_
      have hkey : c'.key = c.key := Prod.ext hheight (by
        show c'.hash = c.hash
        rw [hhash, hx]
        rfl)
      rw [hl, List.map_append, List.map_append, List.map_cons, List.map_cons, hkey]
    | @added c hnew hheight hhash =>
      refine hb.added hhash (hn.2.trans hheight.symm) (fun y hy hyh => ?_) _ _
      obtain ⟨x, hx, hxy⟩ := hb.labelled hy
      cases hyh.symm.trans hx
      exact hnew y hy (hxy.symm.trans hn.2)
  looked {b} hb e he hn files time difficulty := by
    split
    · next hnew =>
      refine hb.added rfl hn.2 (fun y hy hyh => ?_) _ _
      simp only [Bool.and_eq_true, Bool.not_eq_true', List.any_eq_false] at hnew
      exact hnew.2 y hy (decide_eq_true hyh)
    · exact ⟨hb.labelled, hb.nodup⟩

/-- Where the node, the pool and the bridge name the hash of a block for its
height, each entry has the hash of a block of its height, and no block is listed
twice, though the three of them add blocks. -/
theorem listed_once {heightOf : Str → Nat} {s : State}
    (h : Run (Obeys (NameOf heightOf)) s) :
    s.book.Tidy heightOf ∧ ∀ b, s.file = some b → b.Tidy heightOf := by
  obtain ⟨hholds, -⟩ := (tidy_rules heightOf).run h
  exact ⟨hholds.book, fun b hb => hholds.file hb⟩

/-! ## A first pass

The chain has one block, which pays us, and its hash is as many characters long
as its height says. The node does not validate the address. -/

def sampleFiles : Files := { address := "q".toList }

theorem sample_run : ∃ s : State, Run (Obeys (NameOf List.length)) s ∧
    s.book.blocks.map (·.hash) = [some "a".toList] ∧ s.book.exams.map (·.pays) = [true] := by
  have hf : sampleFiles.Names (NameOf List.length) :=
    ⟨fun hj => (nomatch hj), fun hr => (nomatch hr)⟩
  have h0 : Run (Obeys (NameOf List.length)) {} := .init
  have h1 := h0.step (i := .tick sampleFiles) hf rfl
  have h2 := h1.step (i := .reply 0 sampleFiles .failed) ⟨hf, fun _ h => by cases h; trivial⟩ rfl
  have h3 := h2.step (i := .reply 0 sampleFiles (.count 1)) ⟨hf, fun _ h => by cases h; trivial⟩ rfl
  have h4 := h3.step (i := .reply 0 sampleFiles (.hash "a".toList))
    ⟨hf, fun _ h => by cases h; exact ⟨by decide, rfl⟩⟩ rfl
  have h5 := h4.step (i := .reply 0 sampleFiles (.block true 5 1))
    ⟨hf, fun _ h => by cases h; trivial⟩ rfl
  have h6 := h5.step (i := .reply 0 sampleFiles (.outputs [["BitcoinCash:Q".toList]]))
    ⟨hf, fun _ h => by cases h; trivial⟩ rfl
  exact ⟨_, h6, by decide +kernel⟩

/-- It is listed once. -/
theorem first_block_listed_once : ∃ s : State,
    s.book.blocks.map (·.hash) = [some "a".toList] ∧ s.book.Tidy List.length := by
  obtain ⟨s, h, hblocks, -⟩ := sample_run
  exact ⟨s, hblocks, (listed_once h).1⟩

end MkPool.FoundBlocks
