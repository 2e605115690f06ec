import MkPool.FleetRows
import MkPool.Lib.Lines
import Mathlib.Data.List.Count
import Mathlib.Data.List.TakeWhile
import Mathlib.Logic.Function.Basic
import Mathlib.Tactic.MkIffOfInductiveProp

/-! # `dashboard/server.js`: shares counted from the log of the pool

The reader remembers how far into the file it has read. Characters are bytes here:
what the patterns look for is plain text, and white space in its encoding. -/
namespace MkPool.LogTail
open MkPool.Utils (Str isHexDigit)
open MkPool.FleetRows (number)
open MkPool.Lib.Lines

/-! ## Patterns -/

def literal (lit s : Str) : Option Str :=
  if lit.isPrefixOf s then some (s.drop lit.length) else none

/-- One character or more that satisfy `p`, and what follows them. -/
def many (p : Char → Bool) (s : Str) : Option (Str × Str) :=
  if s.takeWhile p = [] then none else some (s.takeWhile p, s.dropWhile p)

def hexDigits (n : ℕ) (s : Str) : Option Str :=
  if (s.take n).length = n ∧ (s.take n).all isHexDigit then some (s.drop n) else none

/-- The first place of `s` where `m` matches. -/
def search {β : Type} (m : Str → Option β) : Str → Option β
  | [] => m []
  | c :: s => (m (c :: s)).orElse fun _ => search m s

def isWork (c : Char) : Bool := c.isDigit || ['.', 'e', 'E', '+', '-'].contains c

/-- The key of a channel, `downstream:channel`. -/
def cid (downstream channel : Str) : Str := downstream ++ ':' :: channel

/-- `SV2_RE_SHARE` at one place, as the channel and the sequence number. -/
def matchShare (s : Str) : Option (Str × ℕ) := do
  let s ← literal "valid share | downstream_id: ".toList s
  let (downstream, s) ← many Char.isDigit s
  let s ← literal ", channel_id: ".toList s
  let (channel, s) ← many Char.isDigit s
  let s ← literal ", sequence_number: ".toList s
  let (seq, s) ← many Char.isDigit s
  let s ← literal ", share_hash: ".toList s
  let s ← hexDigits 64 s
  let s ← literal ", share_work: ".toList s
  let _ ← many isWork s
  some (cid downstream channel, number seq)

def share (line : Str) : Option (Str × ℕ) := search matchShare line

/-- What `[=:\s]` matches. -/
def separators : List Str :=
  [['='], [':'], ['\t'], ['\n'], ['\x0b'], ['\x0c'], ['\r'], [' '], ['\u00c2', '\u00a0'],
    ['\u00e1', '\u009a', '\u0080'], ['\u00e2', '\u0080', '\u00a8'], ['\u00e2', '\u0080', '\u00a9'],
    ['\u00e2', '\u0080', '\u00af'], ['\u00e2', '\u0081', '\u009f'], ['\u00e3', '\u0080', '\u0080'],
    ['\u00ef', '\u00bb', '\u00bf']] ++
    (List.range 11).map fun i => ['\u00e2', '\u0080', Char.ofNat (0x80 + i)]

def separator (s : Str) : Option Str := separators.findSome? fun w => literal w s

/-- Past all separators, of which there are no more than `fuel`. -/
def skip : ℕ → Str → Str
  | 0, s => s
  | fuel + 1, s =>
    match separator s with
    | some t => skip fuel t
    | none => s

/-- The pattern of a field with a number, at one place. -/
def matchField (name s : Str) : Option Str := do
  let s ← literal name s
  let s ← separator s
  let (ds, _) ← many Char.isDigit (skip s.length s)
  some ds

/-- The channel of a line that reports an invalid share. -/
def reject (line : Str) : Option Str :=
  if (search (literal "invalid share".toList) line).isSome ||
      (search (literal "SubmitSharesError".toList) line).isSome then do
    let downstream ← search (matchField "downstream_id".toList) line
    let channel ← search (matchField "channel_id".toList) line
    some (cid downstream channel)
  else none

/-! ## The reader -/

/-- What `sv2Chan` makes, as far as counting goes. -/
structure Channel where
  accepted : ℕ := 0
  rejected : ℕ := 0
  maxSeq : ℤ := -1
deriving DecidableEq

abbrev Channels := Str → Channel

def addReject (chs : Channels) (k : Str) : Channels :=
  Function.update chs k { chs k with rejected := (chs k).rejected + 1 }

/-- A share whose number is not above the last one has been counted. -/
def addShare (chs : Channels) (e : Str × ℕ) : Channels :=
  if e.2 ≤ (chs e.1).maxSeq then chs
  else Function.update chs e.1
    { chs e.1 with maxSeq := e.2, accepted := (chs e.1).accepted + 1 }

def ingestLine (chs : Channels) (line : Str) : Channels :=
  let chs := (reject line).elim chs (addReject chs)
  (share line).elim chs (addShare chs)

structure State where
  file : Str := []
  offset : ℕ := 0
  channels : Channels := fun _ => {}

/-- `buf.slice(buf.indexOf(10) + 1)`. -/
def afterNewline (s : Str) : Str :=
  match s.dropWhile (· ≠ '\n') with
  | [] => s
  | _ :: t => t

/-- A file that is too long is cut to its end, and is to be read again. -/
def rotate (s : State) : State :=
  if 12 * 1024 * 1024 < s.file.length then
    { s with
      file := afterNewline (s.file.drop (s.file.length - 6 * 1024 * 1024))
      offset := 0 }
  else s

/-- The state that a read starts from. -/
def opened (s : State) : State :=
  let s := rotate s
  if s.file.length < s.offset then { s with offset := 0 } else s

/-- Where the read starts. -/
def start (s : State) : ℕ :=
  if 4 * 1024 * 1024 < s.file.length - s.offset then s.file.length - 4 * 1024 * 1024
  else s.offset

/-- What is read. -/
def chunk (s : State) : Str := (opened s).file.drop (start (opened s))

def sv2Ingest (s : State) : State :=
  let t := opened s
  if t.file.length = t.offset then t
  else
    { t with
      offset := t.file.length
      channels := (pieces (chunk s)).foldl ingestLine t.channels }

/-! ## The log and its reader -/

structure System where
  written : Str := []
  state : State := {}

/-- The pool writes. It need not stop at the end of a line. -/
def System.append (s : System) (t : Str) : System where
  written := s.written ++ t
  state := { s.state with file := s.state.file ++ t }

def System.ingest (s : System) : System := { s with state := sv2Ingest s.state }

/-- Runs whose reads all start from a state that satisfies `P`. -/
inductive Run (P : System → Prop) : System → Prop
  | start : Run P {}
  | append {s : System} (t : Str) : Run P s → Run P (s.append t)
  | ingest {s : System} : Run P s → P s → Run P s.ingest

namespace System
variable (s : System)

def unread : Str := s.state.file.drop s.state.offset

def read : Str := s.written.take (s.written.length - s.unread.length)

def lines : List Str := (split s.written).1

/-- The log consists of whole lines. -/
def Whole : Prop := (split s.written).2 = []

/-- No more than four mebibytes have come since the last read. -/
def Few : Prop := s.unread.length ≤ 4 * 1024 * 1024

/-- Share numbers go up in each channel. -/
def Increasing : Prop :=
  (s.lines.filterMap share).Pairwise fun d e => d.1 = e.1 → d.2 < e.2

/-- Each line is counted once. -/
def Counted : Prop := ∀ k,
  (s.state.channels k).accepted = (s.lines.filterMap share).countP (fun e => e.1 = k) ∧
    (s.state.channels k).rejected = (s.lines.filterMap reject).count k

/-- What has been read of a line that goes on. -/
def unfinished : Str := (split s.read).2

/-- How that line goes on. -/
def continued : Str := s.unread.takeWhile (· ≠ '\n')

/-- What the next read sees up to the end of that line. -/
def again : List Str :=
  pieces ((chunk s.state).take ((chunk s.state).length - (s.unread.length - s.continued.length)))

/-- What a read sees up to the end of the line it goes on with adds to what has been
counted of this line what it counts as a whole, and nothing else. -/
@[mk_iff] structure Harmless : Prop where
  rejects : (reject s.unfinished).toList ++ s.again.filterMap reject =
    (reject (s.unfinished ++ s.continued)).toList
  shares : (share s.unfinished).toList ++ (s.again.filterMap share).filter
      (fun e => (s.state.channels e.1).maxSeq < e.2) =
    (share (s.unfinished ++ s.continued)).toList

instance : Decidable s.Whole := inferInstanceAs (Decidable (_ = _))

instance : Decidable s.Few := inferInstanceAs (Decidable (_ ≤ _))

instance : Decidable s.Increasing := inferInstanceAs (Decidable (List.Pairwise _ _))

instance : Decidable s.Harmless := decidable_of_iff' _ (harmless_iff s)

end System

/-! ## What lines add -/

section Lines
variable (chs : Channels)

theorem rejected_addShare (e : Str × ℕ) (k : Str) :
    (addShare chs e k).rejected = (chs k).rejected := by
  unfold addShare
  split
  · rfl
  · by_cases hk : k = e.1
    · subst hk
      rw [Function.update_self]
    · rw [Function.update_of_ne hk]

theorem rejected_ingestLine (line k : Str) : (ingestLine chs line k).rejected =
    (chs k).rejected + (reject line).toList.count k := by
  have hshare : ∀ chs : Channels, ((share line).elim chs (addShare chs) k).rejected =
      (chs k).rejected := by
    intro chs
    cases share line with
    | none => rfl
    | some e => exact rejected_addShare chs e k
  unfold ingestLine
  rw [hshare]
  cases reject line with
  | none => rfl
  | some j =>
    change (addReject chs j k).rejected = (chs k).rejected + [j].count k
    unfold addReject
    by_cases hk : k = j
    · subst hk
      rw [Function.update_self, List.count_singleton_self]
    · rw [Function.update_of_ne hk, List.count_singleton, if_neg (by simpa using Ne.symm hk)]
      rfl

theorem rejected_foldl (ls : List Str) (k : Str) : (ls.foldl ingestLine chs k).rejected =
    (chs k).rejected + (ls.filterMap reject).count k := by
  induction ls generalizing chs with
  | nil => rfl
  | cons l ls ih =>
    rw [List.foldl_cons, ih, rejected_ingestLine, List.filterMap_cons]
    cases reject l with
    | none => rfl
    | some j =>
      change (chs k).rejected + [j].count k + _ = (chs k).rejected + ([j] ++ _).count k
      rw [List.count_append, add_assoc]

/-- Channels without what has been rejected. -/
def accepts : Channels := fun k => { chs k with rejected := 0 }

theorem accepts_addShare (e : Str × ℕ) :
    accepts (addShare chs e) = addShare (accepts chs) e := by
  funext k
  unfold addShare
  have hif : (e.2 : ℤ) ≤ (accepts chs e.1).maxSeq ↔ (e.2 : ℤ) ≤ (chs e.1).maxSeq := Iff.rfl
  by_cases h : (e.2 : ℤ) ≤ (chs e.1).maxSeq
  · rw [if_pos h, if_pos (hif.mpr h)]
  · rw [if_neg h, if_neg fun h' => h (hif.mp h')]
    by_cases hk : k = e.1
    · subst hk
      simp [accepts]
    · simp [accepts, Function.update_of_ne hk]

theorem accepts_ingestLine (line : Str) : accepts (ingestLine chs line) =
    (share line).toList.foldl addShare (accepts chs) := by
  have hreject : accepts ((reject line).elim chs (addReject chs)) = accepts chs := by
    cases reject line with
    | none => rfl
    | some j =>
      funext k
      by_cases hk : k = j
      · subst hk
        simp [accepts, addReject]
      · simp [accepts, addReject, Function.update_of_ne hk]
  unfold ingestLine
  cases share line with
  | none => exact hreject
  | some e =>
    change accepts (addShare _ e) = addShare _ e
    rw [accepts_addShare, hreject]

theorem accepts_foldl (ls : List Str) : accepts (ls.foldl ingestLine chs) =
    (ls.filterMap share).foldl addShare (accepts chs) := by
  induction ls generalizing chs with
  | nil => rfl
  | cons l ls ih =>
    rw [List.foldl_cons, ih, accepts_ingestLine, List.filterMap_cons]
    cases share l <;> rfl

/-- Channels are equal if they count alike. -/
theorem channels_ext {chs chs' : Channels} (hr : ∀ k, (chs k).rejected = (chs' k).rejected)
    (ha : accepts chs = accepts chs') : chs = chs' := by
  funext k
  have hk := congrFun ha k
  simp only [accepts, Channel.mk.injEq] at hk
  cases h : chs k
  cases h' : chs' k
  have hrk := hr k
  rw [h, h'] at hk hrk
  simp only [Channel.mk.injEq]
  exact ⟨hk.1, hrk, hk.2.2⟩

/-! ## Shares that have been counted before -/

theorem maxSeq_le_addShare (e : Str × ℕ) (k : Str) :
    (chs k).maxSeq ≤ (addShare chs e k).maxSeq := by
  unfold addShare
  split
  · rfl
  · rename_i h
    by_cases hk : k = e.1
    · subst hk
      rw [Function.update_self]
      exact (not_le.mp h).le
    · rw [Function.update_of_ne hk]

theorem foldl_stale {es : List (Str × ℕ)} (h : ∀ e ∈ es, (e.2 : ℤ) ≤ (chs e.1).maxSeq) :
    es.foldl addShare chs = chs := by
  induction es with
  | nil => rfl
  | cons e es ih =>
    have he : addShare chs e = chs := if_pos (h e List.mem_cons_self)
    rw [List.foldl_cons, he]
    exact ih fun d hd => h d (List.mem_cons_of_mem e hd)

/-- One new share among old ones is what they come to. -/
theorem foldl_fresh {es : List (Str × ℕ)} {o : Option (Str × ℕ)}
    (h : es.filter (fun e => (chs e.1).maxSeq < e.2) = o.toList) :
    es.foldl addShare chs = o.elim chs (addShare chs) := by
  induction es with
  | nil =>
    cases o with
    | none => rfl
    | some e => cases h
  | cons d es ih =>
    rw [List.filter_cons] at h
    split at h
    · rename_i hd
      cases o with
      | none => cases h
      | some e =>
        obtain ⟨rfl, hes⟩ := List.cons.inj h
        rw [List.foldl_cons]
        refine foldl_stale _ fun e he => ?_
        have hstale := List.filter_eq_nil_iff.mp hes e he
        simp only [decide_eq_true_eq, not_lt] at hstale
        exact hstale.trans (maxSeq_le_addShare ..)
    · rename_i hd
      have hstale : addShare chs d = chs := if_pos (by simpa using hd)
      rw [List.foldl_cons, hstale]
      exact ih h

end Lines

/-- What is read of a line, and of lines before it, comes to what the line is once. -/
theorem foldl_seam {chs : Channels} {p q : Str} {ls : List Str}
    (hr : (reject p).toList ++ ls.filterMap reject = (reject q).toList)
    (hs : (share p).toList ++ (ls.filterMap share).filter
      (fun e => (ingestLine chs p e.1).maxSeq < e.2) = (share q).toList) :
    ls.foldl ingestLine (ingestLine chs p) = ingestLine chs q := by
  refine channels_ext (fun k => ?_) ?_
  · rw [rejected_foldl, rejected_ingestLine, rejected_ingestLine, ← hr, List.count_append,
      add_assoc]
  · have hmax : ∀ k, (accepts (ingestLine chs p) k).maxSeq = (ingestLine chs p k).maxSeq :=
      fun _ => rfl
    simp only [← hmax] at hs
    rw [accepts_foldl, accepts_ingestLine chs q]
    cases hp : share p with
    | none =>
      rw [hp] at hs
      rw [foldl_fresh _ hs, accepts_ingestLine, hp]
      cases share q <;> rfl
    | some e =>
      -- the line has been counted, and what is read again is old
      rw [hp] at hs
      have hq : share q = some e ∧ (ls.filterMap share).filter
          (fun e => (accepts (ingestLine chs p) e.1).maxSeq < e.2) = (none : Option _).toList := by
        cases hq : share q with
        | none => simp [hq] at hs
        | some d =>
          rw [hq] at hs
          obtain ⟨rfl, hnil⟩ := List.cons.inj hs
          exact ⟨rfl, hnil⟩
      rw [foldl_fresh _ hq.2, hq.1, accepts_ingestLine, hp]
      rfl

/-! ## Where a read starts -/

theorem afterNewline_open {s : Str} (h : '\n' ∉ s) : afterNewline s = s := by
  have hd : s.dropWhile (· ≠ '\n') = [] := by
    refine List.dropWhile_eq_nil_iff.mpr fun c hc => ?_
    simpa using fun heq : c = '\n' => h (heq ▸ hc)
  unfold afterNewline
  rw [hd]

theorem afterNewline_line {u : Str} (h : '\n' ∉ u) (v : Str) :
    afterNewline (u ++ '\n' :: v) = v := by
  have hd : (u ++ '\n' :: v).dropWhile (· ≠ '\n') = '\n' :: v := by
    rw [List.dropWhile_append_of_pos]
    · simp
    · intro c hc
      simpa using fun heq : c = '\n' => h (heq ▸ hc)
  unfold afterNewline
  rw [hd]

/-- The end of a text after its first newline: the newline is behind what is not read
yet, or in it. -/
theorem afterNewline_append (s t : Str) : (∃ s', afterNewline (s ++ t) = s' ++ t) ∨
    ∃ u v, t = u ++ '\n' :: v ∧ '\n' ∉ u ∧ afterNewline (s ++ t) = v := by
  by_cases hs : '\n' ∈ s
  · obtain ⟨a, b, rfl, ha⟩ := List.eq_append_cons_of_mem hs
    refine .inl ⟨b, ?_⟩
    rw [List.append_assoc, List.cons_append, afterNewline_line ha]
  · by_cases ht : '\n' ∈ t
    · obtain ⟨u, v, rfl, hu⟩ := List.eq_append_cons_of_mem ht
      refine .inr ⟨u, v, rfl, hu, ?_⟩
      rw [← List.append_assoc, afterNewline_line (by simp [hs, hu])]
    · exact .inl ⟨s, afterNewline_open (by simp [hs, ht])⟩

theorem exists_drop_append (l : Str) {m n : ℕ} (h : m ≤ n) : ∃ o, l.drop m = o ++ l.drop n := by
  refine ⟨(l.drop m).take (n - m), ?_⟩
  have hn : (l.drop m).drop (n - m) = l.drop n := by
    rw [List.drop_drop, Nat.add_sub_cancel' h]
  rw [← hn, List.take_append_drop]

/-- The last `n` of a text hold its end, if that is no longer. -/
theorem exists_last {o t : Str} {n : ℕ} (h : t.length ≤ n) :
    ∃ old, (o ++ t).drop ((o ++ t).length - n) = old ++ t := by
  have hle : (o ++ t).length - n ≤ o.length := by
    rw [List.length_append]
    omega
  exact ⟨o.drop ((o ++ t).length - n), List.drop_append_of_le_length hle⟩

theorem start_of_offset {s : State} (h : s.offset = 0) :
    start s = s.file.length - 4 * 1024 * 1024 := by
  unfold start
  rw [h]
  split <;> omega

/-- Where the file is not cut, a read sees what is new. -/
theorem chunk_of_short {s : State} (ho : s.offset ≤ s.file.length)
    (hf : (s.file.drop s.offset).length ≤ 4 * 1024 * 1024)
    (hs : s.file.length ≤ 12 * 1024 * 1024) : chunk s = s.file.drop s.offset := by
  rw [List.length_drop] at hf
  have hopen : opened s = s := by
    unfold opened rotate
    rw [if_neg (not_lt.mpr hs), if_neg (not_lt.mpr ho)]
  have hstart : start s = s.offset := if_neg (not_lt.mpr hf)
  rw [chunk, hopen, hstart]

/-- A read sees all that is new, or at least what comes after the line it goes on with. -/
theorem chunk_eq {s : State} (ho : s.offset ≤ s.file.length)
    (hf : (s.file.drop s.offset).length ≤ 4 * 1024 * 1024) :
    (∃ old, chunk s = old ++ s.file.drop s.offset) ∨
      ∃ u v, s.file.drop s.offset = u ++ '\n' :: v ∧ '\n' ∉ u ∧ chunk s = v := by
  have hlen := hf
  rw [List.length_drop] at hlen
  by_cases hlong : 12 * 1024 * 1024 < s.file.length
  · -- the file is cut, and `o` is what is kept of what has been read
    obtain ⟨o, hdrop⟩ := exists_drop_append s.file
      (by omega : s.file.length - 6 * 1024 * 1024 ≤ s.offset)
    have hopen : opened s = { s with
        file := afterNewline (o ++ s.file.drop s.offset)
        offset := 0 } := by
      unfold opened rotate
      rw [if_pos hlong, hdrop]
      exact if_neg (Nat.not_lt_zero _)
    have hchunk : chunk s = (afterNewline (o ++ s.file.drop s.offset)).drop
        ((afterNewline (o ++ s.file.drop s.offset)).length - 4 * 1024 * 1024) := by
      unfold chunk
      rw [start_of_offset (by rw [hopen]), hopen]
    rw [hchunk]
    obtain ⟨o', ho'⟩ | ⟨u, v, huv, hu, hv⟩ := afterNewline_append o (s.file.drop s.offset)
    · rw [ho']
      exact .inl (exists_last hf)
    · refine .inr ⟨u, v, huv, hu, ?_⟩
      have hshort : v.length - 4 * 1024 * 1024 = 0 := by
        rw [huv, List.length_append, List.length_cons] at hf
        omega
      rw [hv, hshort, List.drop_zero]
  · exact .inl ⟨[], chunk_of_short ho hf (not_lt.mp hlong)⟩

theorem suffix_afterNewline (s : Str) : afterNewline s <:+ s := by
  unfold afterNewline
  split
  · exact List.suffix_refl s
  · rename_i c t h
    exact ((List.suffix_cons c t).trans (h ▸ List.dropWhile_suffix _))

theorem suffix_opened (s : State) : (opened s).file <:+ s.file := by
  have hrotate : (rotate s).file <:+ s.file := by
    unfold rotate
    generalize s.file.length - 6 * 1024 * 1024 = n
    split
    · exact (suffix_afterNewline _).trans (List.drop_suffix n s.file)
    · exact List.suffix_refl _
  unfold opened
  dsimp only
  split <;> exact hrotate

theorem channels_opened (s : State) : (opened s).channels = s.channels := by
  unfold opened rotate
  dsimp only
  split <;> split <;> rfl

theorem reject_nil : reject [] = none := rfl

theorem share_nil : share [] = none := rfl

theorem filterMap_singleton {β : Type} (f : Str → Option β) (l : Str) :
    [l].filterMap f = (f l).toList := by
  cases h : f l <;> simp [h]

theorem foldl_pieces_nil (chs : Channels) : (pieces []).foldl ingestLine chs = chs := rfl

/-- What a read leaves, in one case. -/
theorem sv2Ingest_eq (s : State) : sv2Ingest s = { opened s with
    offset := (opened s).file.length
    channels := (pieces (chunk s)).foldl ingestLine s.channels } := by
  unfold sv2Ingest
  dsimp only
  split
  · rename_i h
    have hstart : start (opened s) = (opened s).file.length := by
      rw [h]
      exact if_neg (by omega)
    have hchunk : chunk s = [] := by
      unfold chunk
      rw [hstart, List.drop_length]
    rw [hchunk, foldl_pieces_nil, ← channels_opened s, h]
  · rw [channels_opened]

/-! ## A reader that follows the log -/

/-- The file is an end of what was written, and what has been read of it has been
counted as if it had been read at once. -/
structure Follows (s : System) : Prop where
  suffix : s.state.file <:+ s.written
  offset : s.state.offset ≤ s.state.file.length
  counted : s.state.channels = (pieces s.read).foldl ingestLine fun _ => {}

theorem Follows.read_append {s : System} (h : Follows s) : s.read ++ s.unread = s.written := by
  obtain ⟨old, hold⟩ := h.suffix
  have hw : s.written = (old ++ s.state.file.take s.state.offset) ++ s.unread := by
    rw [← hold, List.append_assoc]
    exact congrArg (old ++ ·) (List.take_append_drop ..).symm
  unfold System.read
  rw [hw, List.length_append, Nat.add_sub_cancel, List.take_left]

theorem Follows.append {s : System} (h : Follows s) (t : Str) : Follows (s.append t) := by
  have hunread : (s.append t).unread = s.unread ++ t := List.drop_append_of_le_length h.offset
  have hread : (s.append t).read = s.read := by
    unfold System.read
    rw [hunread]
    change (s.written ++ t).take ((s.written ++ t).length - _) = _
    have hle : s.unread.length ≤ s.written.length := by
      rw [← h.read_append, List.length_append]
      omega
    rw [List.length_append, List.length_append, Nat.add_sub_add_right,
      List.take_append_of_le_length (Nat.sub_le ..)]
  refine ⟨?_, ?_, ?_⟩
  · obtain ⟨old, hold⟩ := h.suffix
    refine ⟨old, ?_⟩
    change old ++ (s.state.file ++ t) = s.written ++ t
    rw [← List.append_assoc, hold]
  · change s.state.offset ≤ (s.state.file ++ t).length
    rw [List.length_append]
    exact h.offset.trans (Nat.le_add_right ..)
  · rw [hread]
    exact h.counted

/-- The pieces of what is new: the rest of the line, and the lines behind it. -/
theorem pieces_unread (t : Str) : ∃ ls, pieces t = t.takeWhile (· ≠ '\n') :: ls ∧
    ((t.takeWhile (· ≠ '\n') = t ∧ ls = []) ∨
      ∃ v, t = t.takeWhile (· ≠ '\n') ++ '\n' :: v ∧ ls = pieces v) := by
  by_cases ht : '\n' ∈ t
  · obtain ⟨u, v, rfl, hu⟩ := List.eq_append_cons_of_mem ht
    have htake : (u ++ '\n' :: v).takeWhile (· ≠ '\n') = u := by
      rw [List.takeWhile_append_of_pos]
      · simp
      · intro c hc
        simpa using fun heq : c = '\n' => hu (heq ▸ hc)
    rw [htake]
    exact ⟨pieces v, pieces_line hu v, .inr ⟨v, rfl, rfl⟩⟩
  · have htake : t.takeWhile (· ≠ '\n') = t := by
      refine List.takeWhile_eq_self_iff.mpr fun c hc => ?_
      simpa using fun heq : c = '\n' => ht (heq ▸ hc)
    rw [htake]
    exact ⟨[], pieces_open ht, .inl ⟨rfl, rfl⟩⟩

/-- A read goes through the rest of the line, then through the lines behind it. -/
theorem foldl_chunk {s : System} (h : Follows s) (hf : s.Few) {ls : List Str}
    (hls : pieces s.unread = s.continued :: ls) (chs : Channels) :
    (pieces (chunk s.state)).foldl ingestLine chs =
      ls.foldl ingestLine (s.again.foldl ingestLine chs) := by
  obtain ⟨ls', hpieces, hrest⟩ := pieces_unread s.unread
  obtain rfl : ls' = ls := (List.cons.inj (hpieces.symm.trans hls)).2
  unfold System.again
  obtain ⟨old, hold⟩ | ⟨u, v, huv, hu, hv⟩ := chunk_eq h.offset hf
  · have hold : chunk s.state = old ++ s.unread := hold
    rw [hold]
    obtain ⟨hall, rfl⟩ | ⟨v, hv, rfl⟩ := hrest
    · have hall : s.continued = s.unread := hall
      rw [hall, Nat.sub_self, Nat.sub_zero, List.take_length]
      rfl
    · have hv : s.unread = s.continued ++ '\n' :: v := hv
      have hcut : old ++ s.unread = (old ++ s.continued) ++ '\n' :: v := by
        rw [List.append_assoc, ← hv]
      have hlen : s.unread.length - s.continued.length = ('\n' :: v).length := by
        rw [hv, List.length_append, Nat.add_sub_cancel_left]
      rw [hlen, hcut, List.length_append, Nat.add_sub_cancel, List.take_left,
        pieces_append_newline, List.foldl_append]
  · -- the end of the line has been cut off the file, and is not seen
    have huv : s.unread = u ++ '\n' :: v := huv
    have hline : s.continued = u ∧ ls' = pieces v := by
      rw [huv, pieces_line hu] at hls
      obtain ⟨hcont, rfl⟩ := List.cons.inj hls
      exact ⟨hcont.symm, rfl⟩
    have hlen : v.length - (s.unread.length - s.continued.length) = 0 := by
      rw [huv, hline.1, List.length_append, List.length_cons]
      omega
    rw [hv, hlen, List.take_zero, foldl_pieces_nil, hline.2]

theorem Follows.ingest {s : System} (h : Follows s) (hf : s.Few) (hh : s.Harmless) :
    Follows s.ingest := by
  have hstate : s.ingest.state = sv2Ingest s.state := rfl
  have hunread : s.ingest.unread = [] := by
    unfold System.unread
    rw [hstate, sv2Ingest_eq]
    exact List.drop_length
  have hread : s.ingest.read = s.written := by
    unfold System.read
    rw [hunread]
    exact List.take_length
  refine ⟨?suffix, ?offset, ?counted⟩
  case suffix =>
    rw [hstate, sv2Ingest_eq]
    exact (suffix_opened s.state).trans h.suffix
  case offset =>
    rw [hstate, sv2Ingest_eq]
  case counted =>
    obtain ⟨ls, hls, -⟩ := pieces_unread s.unread
    have hls : pieces s.unread = s.continued :: ls := hls
    rw [hread, ← h.read_append, pieces_append, hls, List.modifyHead_cons, List.foldl_append,
      List.foldl_cons, hstate, sv2Ingest_eq]
    change (pieces (chunk s.state)).foldl ingestLine s.state.channels = _
    rw [foldl_chunk h hf hls, h.counted, pieces, List.foldl_append]
    exact congrArg (ls.foldl ingestLine) (foldl_seam hh.rejects (by
      have hshares := hh.shares
      rw [h.counted, pieces, List.foldl_append] at hshares
      exact hshares))

theorem follows_of_run {s : System} (h : Run (fun s => s.Few ∧ s.Harmless) s) : Follows s := by
  induction h with
  | start => exact ⟨List.suffix_refl _, le_rfl, rfl⟩
  | append t _ ih => exact ih.append t
  | ingest _ hs ih => exact ih.ingest hs.1 hs.2

/-- A read that goes on where a line begins does no harm, if the file is not cut and the
first new share is one. -/
theorem Follows.harmless {s : System} (h : Follows s) (hf : s.Few) (hb : s.unfinished = [])
    (hs : s.state.file.length ≤ 12 * 1024 * 1024)
    (hnew : ∀ e ∈ share s.continued, (s.state.channels e.1).maxSeq < e.2) : s.Harmless := by
  have hagain : s.again = [s.continued] := by
    have hchunk : chunk s.state = s.unread := chunk_of_short h.offset hf hs
    have hle : s.continued.length ≤ s.unread.length := (List.takeWhile_prefix _).length_le
    have htake : s.unread.take s.continued.length = s.continued :=
      (List.prefix_iff_eq_take.mp (List.takeWhile_prefix _)).symm
    have hopen : '\n' ∉ s.continued := by
      intro hc
      simpa using List.mem_takeWhile_imp hc
    unfold System.again
    rw [hchunk, Nat.sub_sub_self hle, htake, pieces_open hopen]
  constructor
  · rw [hb, hagain, reject_nil, filterMap_singleton]
    rfl
  · rw [hb, hagain, share_nil, filterMap_singleton]
    change List.filter _ (share s.continued).toList = _
    exact List.filter_eq_self.mpr fun e he => decide_eq_true (hnew e (Option.mem_toList.mp he))

/-! ## What has been counted -/

/-- Shares whose numbers go up are counted one by one. -/
theorem accepted_foldl {chs : Channels} {es : List (Str × ℕ)}
    (hnew : ∀ e ∈ es, (chs e.1).maxSeq < e.2)
    (hup : es.Pairwise fun d e => d.1 = e.1 → d.2 < e.2) (k : Str) :
    (es.foldl addShare chs k).accepted = (chs k).accepted + es.countP fun e => e.1 = k := by
  induction es generalizing chs with
  | nil => rfl
  | cons e es ih =>
    obtain ⟨he, hup⟩ := List.pairwise_cons.mp hup
    have hadd : addShare chs e = Function.update chs e.1
        { chs e.1 with maxSeq := e.2, accepted := (chs e.1).accepted + 1 } :=
      if_neg (not_le.mpr (hnew e List.mem_cons_self))
    have hnew' : ∀ d ∈ es, (addShare chs e d.1).maxSeq < d.2 := by
      intro d hd
      rw [hadd]
      by_cases hk : d.1 = e.1
      · rw [hk, Function.update_self]
        change (e.2 : ℤ) < d.2
        exact_mod_cast he d hd hk.symm
      · rw [Function.update_of_ne hk]
        exact hnew d (List.mem_cons_of_mem e hd)
    rw [List.foldl_cons, ih hnew' hup, hadd, List.countP_cons]
    by_cases hk : k = e.1
    · subst hk
      rw [Function.update_self, if_pos (by simp)]
      change (chs e.1).accepted + 1 + _ = _
      omega
    · rw [Function.update_of_ne hk, if_neg (by simpa using Ne.symm hk), add_zero]

/-- A line of a share, in two parts. -/
def head : Str := "valid share | downstream_id: 1, channel_id: 2, sequence_n".toList

def rest : Str := "umber: 7, share_hash: ".toList ++ List.replicate 64 'a' ++
  ", share_work: 8\n".toList

/-- The share has been written and read, and is not counted. -/
def missed : System := (((System.append {} head).ingest).append rest).ingest

end MkPool.LogTail
