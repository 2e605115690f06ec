import Mathlib.Data.List.Basic

/-! # A line reader with a bounded buffer

What was read is cut at each newline; a carriage return at the end of a line and
empty lines are dropped. A buffer that grows over its limit closes the reader. -/
namespace MkPool.Lib.Lines

/-- The pieces that a newline ends, and what is behind the last. -/
def split : List Char → List (List Char) × List Char
  | [] => ([], [])
  | c :: s =>
    let (ls, rest) := split s
    if c = '\n' then ([] :: ls, rest)
    else
      match ls with
      | [] => ([], c :: rest)
      | l :: ls => ((c :: l) :: ls, rest)

/-- The line without the carriage return at its end. -/
def trim (l : List Char) : List Char := if l.getLast? = some '\r' then l.dropLast else l

structure Reader where
  buffer : List Char := []
  closed : Bool := false
  /-- The lines that were given out. -/
  lines : List (List Char) := []
deriving DecidableEq

/-- One read of the connection. -/
def Reader.read (limit : Nat) (r : Reader) (chunk : List Char) : Reader :=
  if r.closed then r
  else
    let buffer := r.buffer ++ chunk
    if limit < buffer.length then { r with buffer, closed := true }
    else
      let (ls, rest) := split buffer
      { r with buffer := rest, lines := r.lines ++ (ls.map trim).filter (· ≠ []) }

def Reader.feed (limit : Nat) (r : Reader) (chunks : List (List Char)) : Reader :=
  chunks.foldl (Reader.read limit) r

theorem split_open {s : List Char} (h : '\n' ∉ s) : split s = ([], s) := by
  induction s with
  | nil => rfl
  | cons c s ih =>
    rw [List.mem_cons, not_or] at h
    rw [split, ih h.2]
    exact if_neg (Ne.symm h.1)

theorem split_line {s : List Char} (h : '\n' ∉ s) : split (s ++ ['\n']) = ([s], []) := by
  induction s with
  | nil => rfl
  | cons c s ih =>
    rw [List.mem_cons, not_or] at h
    rw [List.cons_append, split, ih h.2]
    exact if_neg (Ne.symm h.1)

/-- What comes later ends the line that was left unfinished. -/
theorem split_append (s t : List Char) :
    split (s ++ t) =
      ((split s).1 ++ (split ((split s).2 ++ t)).1, (split ((split s).2 ++ t)).2) := by
  induction s with
  | nil => rfl
  | cons c s ih =>
    rw [List.cons_append, split, split, ih]
    by_cases hc : c = '\n'
    · simp only [hc, if_true, List.cons_append]
    · simp only [hc, if_false]
      cases h : split s with
      | mk ls rest =>
        cases ls with
        | nil =>
          dsimp only
          rw [List.nil_append, List.nil_append, List.cons_append, split]
          dsimp only
          rw [if_neg hc]
        | cons l ls => rfl

/-- The lines of a text, and what is behind the last newline as one more. -/
def pieces (s : List Char) : List (List Char) := (split s).1 ++ [(split s).2]

theorem pieces_newline (s : List Char) : pieces ('\n' :: s) = [] :: pieces s := rfl

theorem pieces_cons {c : Char} (hc : c ≠ '\n') (s : List Char) :
    pieces (c :: s) = (pieces s).modifyHead (c :: ·) := by
  unfold pieces
  rw [split]
  cases h : split s with
  | mk ls rest => cases ls <;> simp [hc]

/-- A text goes on with the line it left unfinished. -/
theorem pieces_append (s t : List Char) :
    pieces (s ++ t) = (split s).1 ++ (pieces t).modifyHead ((split s).2 ++ ·) := by
  induction s with
  | nil =>
    change pieces t = (pieces t).modifyHead fun l => l
    cases h : pieces t <;> rfl
  | cons c s ih =>
    rw [List.cons_append, split]
    by_cases hc : c = '\n'
    · rw [hc, pieces_newline, ih]
      rfl
    · rw [pieces_cons hc, ih]
      cases h : split s with
      | mk ls rest => cases ls <;> cases pieces t <;> simp [hc]

theorem pieces_open {s : List Char} (h : '\n' ∉ s) : pieces s = [s] := by
  rw [pieces, split_open h]
  rfl

theorem pieces_append_newline (s t : List Char) :
    pieces (s ++ '\n' :: t) = pieces s ++ pieces t := by
  rw [pieces_append, pieces_newline, List.modifyHead_cons, List.append_nil]
  exact List.append_cons ..

theorem pieces_line {s : List Char} (h : '\n' ∉ s) (t : List Char) :
    pieces (s ++ '\n' :: t) = s :: pieces t := by
  rw [pieces_append_newline, pieces_open h, List.singleton_append]

theorem Reader.read_open {limit : Nat} {r : Reader} {chunk : List Char} (hr : r.closed = false)
    (h : '\n' ∉ r.buffer ++ chunk) (hlen : (r.buffer ++ chunk).length ≤ limit) :
    r.read limit chunk = { r with buffer := r.buffer ++ chunk } := by
  rw [read, if_neg (by simp [hr]), if_neg (by omega), split_open h]
  simp

theorem Reader.read_line {limit : Nat} {r : Reader} {chunk body : List Char}
    (hr : r.closed = false) (h : r.buffer ++ chunk = body ++ ['\n']) (hbody : '\n' ∉ body)
    (hne : trim body ≠ []) (hlen : body.length < limit) :
    r.read limit chunk = { r with buffer := [], lines := r.lines ++ [trim body] } := by
  have hfits : ¬ limit < (body ++ ['\n']).length := by
    rw [List.length_append, List.length_singleton]
    omega
  rw [read, if_neg (by simp [hr]), h, if_neg hfits, split_line hbody]
  simp [hne]

/-- However a line is cut into reads, the reader gives it out once and stays open. -/
theorem Reader.feed_line {limit : Nat} {chunks : List (List Char)} {r : Reader}
    {body : List Char} (hr : r.closed = false) (h : r.buffer ++ chunks.flatten = body ++ ['\n'])
    (hchunks : ∀ c ∈ chunks, c ≠ []) (hopen : '\n' ∉ r.buffer) (hbody : '\n' ∉ body)
    (hne : trim body ≠ []) (hlen : body.length < limit) :
    r.feed limit chunks = { r with buffer := [], lines := r.lines ++ [trim body] } := by
  induction chunks generalizing r with
  | nil =>
    rw [List.flatten_nil, List.append_nil] at h
    exact absurd (h ▸ List.mem_append_right _ (List.mem_singleton_self _)) hopen
  | cons c cs ih =>
    rw [List.forall_mem_cons] at hchunks
    rw [List.flatten_cons, ← List.append_assoc] at h
    rw [feed, List.foldl_cons]
    by_cases hcs : cs.flatten = []
    · -- The read that ends the line is the last: no read is empty.
      have hlast : cs = [] := by
        cases cs with
        | nil => rfl
        | cons d ds =>
          rw [List.flatten_cons, List.append_eq_nil_iff] at hcs
          exact absurd hcs.1 (hchunks.2 d List.mem_cons_self)
      subst hlast
      rw [List.flatten_nil, List.append_nil] at h
      rw [read_line hr h hbody hne hlen]
      rfl
    · obtain ⟨more, hmore⟩ : ∃ more, body = r.buffer ++ c ++ more := by
        obtain ⟨init, last, hsplit⟩ := List.eq_nil_or_concat cs.flatten |>.resolve_left hcs
        rw [hsplit, List.concat_eq_append, ← List.append_assoc] at h
        exact ⟨init, (List.append_inj_left' h rfl).symm⟩
      have hnewline : '\n' ∉ r.buffer ++ c := fun hmem =>
        hbody (hmore ▸ List.mem_append_left _ hmem)
      have hshort : (r.buffer ++ c).length ≤ limit := by
        have := congrArg List.length hmore
        rw [List.length_append] at this
        omega
      rw [read_open hr hnewline hshort]
      exact ih hr h hchunks.2 hnewline

end MkPool.Lib.Lines
