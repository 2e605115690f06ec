import Mathlib.Data.List.Basic

/-! # Paths

A path is walked from a directory, component by component. An empty component
and a dot stay, two dots go up, and a name goes down. Above the root there is
the root. -/
namespace MkPool.Lib.Paths

/-- A component, and a directory by the names that lead to it. -/
abbrev Name := List Char

/-- What stands between the slashes. -/
def components : List Char → List Name
  | [] => [[]]
  | c :: p =>
    match components p with
    | [] => []
    | d :: ds => if c = '/' then [] :: d :: ds else (c :: d) :: ds

theorem components_ne_nil (p : List Char) : components p ≠ [] := by
  induction p with
  | nil => simp [components]
  | cons c p ih =>
    unfold components
    split
    · contradiction
    · split <;> simp

@[simp] theorem components_slash (p : List Char) : components ('/' :: p) = [] :: components p := by
  obtain ⟨d, ds, hp⟩ := List.exists_cons_of_ne_nil (components_ne_nil p)
  simp [components, hp]

theorem components_append_slash (p q : List Char) :
    components (p ++ '/' :: q) = components p ++ components q := by
  induction p with
  | nil => exact components_slash q
  | cons c p ih =>
    obtain ⟨d, ds, hp⟩ := List.exists_cons_of_ne_nil (components_ne_nil p)
    rw [List.cons_append, components, components, ih, hp]
    simp only [List.cons_append]
    split <;> simp

/-! ## Walking -/

/-- The directory a component leads to. -/
def move (dir : List Name) (c : Name) : List Name :=
  if c = [] ∨ c = ['.'] then dir else if c = ['.', '.'] then dir.dropLast else dir ++ [c]

def walk (dir : List Name) (cs : List Name) : List Name := cs.foldl move dir

theorem walk_append (dir : List Name) (cs ds : List Name) :
    walk dir (cs ++ ds) = walk (walk dir cs) ds := List.foldl_append

@[simp] theorem walk_nil (dir : List Name) : walk dir [] = dir := rfl

@[simp] theorem walk_empty (dir : List Name) : walk dir [[]] = dir := by
  simp [walk, move]

@[simp] theorem walk_cons_empty (dir : List Name) (cs : List Name) :
    walk dir ([] :: cs) = walk dir cs := congrArg (cs.foldl move) (if_pos (.inl rfl))

/-- The directory a text names, absolute or from the working directory. -/
def resolve (cwd : List Name) (p : List Char) : List Name :=
  walk (if p.head? = some '/' then [] else cwd) (components p)

theorem resolve_nil (cwd : List Name) : resolve cwd [] = cwd := walk_empty cwd

/-- A text after a text is walked from where the first leads. -/
theorem resolve_append_slash {cwd : List Name} {p : List Char} (hp : p ≠ []) (q : List Char) :
    resolve cwd (p ++ '/' :: q) = walk (resolve cwd p) (components q) := by
  obtain ⟨c, p', rfl⟩ := List.exists_cons_of_ne_nil hp
  unfold resolve
  rw [components_append_slash, walk_append]
  rfl

/-- A text that ends in a slash leads where it does without. -/
theorem resolve_append {cwd : List Name} {p : List Char} (hp : p.getLast? = some '/')
    (q : List Char) : resolve cwd (p ++ q) = walk (resolve cwd p) (components q) := by
  obtain ⟨p', rfl⟩ := List.getLast?_eq_some_iff.mp hp
  rw [List.append_assoc, List.singleton_append]
  by_cases hp' : p' = []
  · subst hp'
    simp [resolve, components]
  · rw [resolve_append_slash hp', resolve_append_slash hp' []]
    exact congrArg (walk · (components q)) (walk_empty _).symm

/-! ## How far a path climbs -/

/-- How many directories are left on the way up, and the names from there. -/
structure Way where
  ups : Nat := 0
  downs : List Name := []
deriving DecidableEq

def Way.move (w : Way) (c : Name) : Way :=
  if c = [] ∨ c = ['.'] then w
  else if c = ['.', '.'] then
    if w.downs = [] then { w with ups := w.ups + 1 } else { w with downs := w.downs.dropLast }
  else { w with downs := w.downs ++ [c] }

/-- The way of a path, whatever the directory it starts from. -/
def wayOf (cs : List Name) : Way := cs.foldl Way.move {}

/-- Where a way ends. -/
def Way.from (w : Way) (dir : List Name) : List Name :=
  dir.take (dir.length - w.ups) ++ w.downs

@[simp] theorem wayOf_cons_empty (cs : List Name) : wayOf ([] :: cs) = wayOf cs :=
  congrArg (cs.foldl Way.move) (if_pos (.inl rfl))

theorem Way.from_move (w : Way) (dir : List Name) (c : Name) :
    (w.move c).from dir = Paths.move (w.from dir) c := by
  unfold Way.move Paths.move
  by_cases hstay : c = [] ∨ c = ['.']
  · rw [if_pos hstay, if_pos hstay]
  · rw [if_neg hstay, if_neg hstay]
    by_cases hup : c = ['.', '.']
    · rw [if_pos hup, if_pos hup]
      by_cases hdowns : w.downs = []
      · rw [if_pos hdowns]
        unfold Way.from
        rw [hdowns, List.append_nil, List.append_nil, List.dropLast_eq_take, List.take_take,
          List.length_take]
        congr 1
        simp only
        omega
      · rw [if_neg hdowns]
        exact (List.dropLast_append_of_ne_nil hdowns).symm
    · rw [if_neg hup, if_neg hup]
      exact (List.append_assoc ..).symm

/-- A walk ends where its way does. -/
theorem walk_eq_from (dir : List Name) (cs : List Name) : walk dir cs = (wayOf cs).from dir := by
  suffices h : ∀ w : Way, walk (w.from dir) cs = (cs.foldl Way.move w).from dir by
    have hstart : ({} : Way).from dir = dir := by simp [Way.from]
    have hrun := h {}
    rw [hstart] at hrun
    exact hrun
  induction cs with
  | nil => exact fun w => rfl
  | cons c cs ih =>
    intro w
    rw [List.foldl_cons, ← ih, Way.from_move]
    rfl

/-- A walk stays below its directory exactly where it names again the
directories it has climbed out of. -/
theorem prefix_walk_iff (dir : List Name) (cs : List Name) :
    dir <+: walk dir cs ↔ dir.drop (dir.length - (wayOf cs).ups) <+: (wayOf cs).downs := by
  rw [walk_eq_from, Way.from]
  conv_lhs => lhs; rw [← List.take_append_drop (dir.length - (wayOf cs).ups) dir]
  exact List.prefix_append_right_inj _

end MkPool.Lib.Paths
