import MkPool.JsonText
import MkPool.Lib.Lines
import MkPool.Play
import MkPool.Requests

/-! # The read loop of a V1 connection

`on_read` cuts what was read into lines and hands them to the session one after
the other. A line can close the session, and the lines behind it are handled
all the same. -/
namespace MkPool.ReadLoop
open MkPool.Lib.Interaction MkPool.Lib.Lines MkPool.Utils MkPool.Coinbase MkPool.Calls
open MkPool.ClientSession MkPool.JsonValue MkPool.Tasks MkPool.Desk MkPool.Play MkPool.Requests

/-- A connection on its strand: the lines of the read at hand, whether a read is
outstanding, and what was done by tasks that found the session closed. -/
structure Connection where
  desk : DeskState
  buffer : Str := []
  pending : List Str := []
  reading : Bool := true
  late : List Event := []

namespace Connection

/-- `on_disconnect_local`. -/
def disconnect (x : Connection) : Connection :=
  { x with desk := { x.desk with session := x.desk.session.disconnect } }

/-- `if (!closed_.load()) do_read()`, behind the loop. -/
def doRead (x : Connection) : Connection :=
  { x with reading := x.pending.isEmpty && !x.desk.session.closed }

/-- `on_read` up to the first line. -/
def onRead (x : Connection) (chunk : Str) : Connection :=
  let buffer := x.buffer ++ chunk
  if 2 ^ 20 < buffer.length then { x.disconnect with buffer, reading := false }
  else
    let (lines, rest) := split buffer
    { x with buffer := rest, pending := lines.map trim }.doRead

/-- The desk after a task, and what the task did. -/
def did (x : Connection) (d : DeskState) (evs : List Event) : Connection :=
  { x with desk := d, late := if x.desk.session.closed then evs ++ x.late else x.late }

/-- Go on behind the first line. -/
def next (x : Connection) : Connection := { x with pending := x.pending.tail }.doRead

end Connection

/-- What can happen next. -/
inductive Input where
  | read (chunk : Str)
  | readFails
  | line (readings : Set ℚ)
  | other (i : Desk.Input)

/-- A task that no read brings. -/
def Posted : Task → Prop
  | .line _ | .message _ => False
  | _ => True

/-- What the strand turns to between two reads. -/
def OnStrand : Desk.Input → Prop
  | .task t _ => Posted t
  | .notify => True
  | .work .. | .others .. => False

/-- What other threads do. -/
def Elsewhere : Desk.Input → Prop
  | .work .. | .others .. => True
  | _ => False

/-- A read is handled to its last line before the strand turns to another task. -/
inductive Step (env : Env) (parse : Str → Option Json) :
    Connection → Input → Connection → Prop where
  | read {x : Connection} {chunk : Str} (idle : x.pending = []) (reading : x.reading = true) :
      Step env parse x (.read chunk) (x.onRead chunk)
  | readFails {x : Connection} (idle : x.pending = []) (reading : x.reading = true) :
      Step env parse x .readFails { x.disconnect with reading := false }
  | empty {x : Connection} {readings : Set ℚ} (head : x.pending.head? = some []) :
      Step env parse x (.line readings) x.next
  | line {x : Connection} {l : Str} {readings : Set ℚ} {d : DeskState} {evs : List Event}
      (head : x.pending.head? = some l) (nonempty : l ≠ [])
      (run : Desk.Step env x.desk (.task (.line (parse l)) readings) d)
      (log : d.world.log = evs ++ x.desk.world.log) :
      Step env parse x (.line readings) (x.did d evs).next
  | strand {x : Connection} {i : Desk.Input} {d : DeskState} {evs : List Event}
      (idle : x.pending = []) (own : OnStrand i) (run : Desk.Step env x.desk i d)
      (log : d.world.log = evs ++ x.desk.world.log) : Step env parse x (.other i) (x.did d evs)
  | elsewhere {x : Connection} {i : Desk.Input} {d : DeskState} (foreign : Elsewhere i)
      (run : Desk.Step env x.desk i d) : Step env parse x (.other i) { x with desk := d }

/-- The states of a run all of whose steps meet a condition. -/
inductive Reach (env : Env) (parse : Str → Option Json) (ok : Connection → Input → Prop) :
    Connection → Prop where
  | init {d : DeskState} (h : Initial env false d) : Reach env parse ok { desk := d }
  | step {x x' : Connection} {i : Input} (h : Reach env parse ok x) (hok : ok x i)
      (hs : Step env parse x i x') : Reach env parse ok x'

/-- A call that changes what sessions share: shares, blocks, the count of
invalid shares, or a miner's rows. -/
def Changes : Call → Prop
  | .registerShare _ | .noteShareDiff _ | .countAccepted .. | .enqueueShare _ => True
  | .submitBlock _ | .submitAuxBlock _ => True
  | .recordInvalidShare | .clearInvalid => True
  | .ensureMiner .. => True
  | _ => False

theorem not_changes_of_small {c : Call} (h : Small c) : ¬ Changes c := by
  cases c <;> first | exact h.elim | exact id

/-- No submit is read off a closed session's buffer. -/
def Clear (parse : Str → Option Json) (x : Connection) : Input → Prop
  | .line _ => x.desk.session.closed = true →
      ∀ l, x.pending.head? = some l → l ≠ [] → ¬ Submits (parse l)
  | _ => True

/-! ## Tasks of a closed session -/

section Closed

variable {env : Env} {parse : Str → Option Json} {d d' : DeskState} {evs : List Event}
  {readings : Set ℚ}

/-- Every callback and the broadcast hook look at `closed_` first. -/
theorem silent_of_closed {s : Session} {t : Task} (hc : s.closed = true)
    (posted : Posted t) : (t.prog env s).All fun _ => False := by
  cases t with
  | line | message => exact posted.elim
  | notify job =>
    unfold Task.prog notifyNewJob
    simp [hc]
  | validated v error valid =>
    cases v with
    | payout req =>
      unfold Task.prog Stratum.onPayoutValidated
      simp [hc]
    | doge req =>
      unfold Task.prog Stratum.onDogeValidated
      simp [hc]
    | payoutV2 addr =>
      unfold Task.prog StratumV2.onPayoutV2Validated
      simp [hc]
  | resetShareCounters | disconnect => exact trivial

theorem silent_strand {i : Desk.Input} (hc : d.session.closed = true) (own : OnStrand i)
    (run : Desk.Step env d i d') (hlog : d'.world.log = evs ++ d.world.log) : evs = [] := by
  have nothing {t : Task} {s : Session} {w w' : World} {o : Outcome} (hs : s.closed = true)
      (ht : Posted t) (run : desk.Exec (t.prog env s) w o w')
      (h : w'.log = evs ++ w.log) : evs = [] := by
    obtain ⟨evs', hevs, hall⟩ := exec_log run (silent_of_closed hs ht)
    obtain rfl : evs' = evs := List.append_cancel_right (hevs.symm.trans h)
    exact List.eq_nil_iff_forall_not_mem.mpr fun e he => hall e he
  cases run with
  | task offered run => exact nothing hc own run hlog
  | @notify s w w' job rest o head run => exact nothing (t := .notify job) hc trivial run hlog
  | work | others => exact own.elim

theorem changes_of_line {l : Option Json} (hl : ¬ Submits l)
    (run : Desk.Step env d (.task (.line l) readings) d')
    (hlog : d'.world.log = evs ++ d.world.log) : ∀ e ∈ evs, ¬ Changes e.1 := by
  cases run with
  | task offered run =>
    obtain ⟨evs', hevs, hall⟩ := exec_log run (small_processLine hl)
    obtain rfl : evs' = evs := List.append_cancel_right (hevs.symm.trans hlog)
    exact fun e he => not_changes_of_small (hall e he)

end Closed

/-! ## Runs -/

section Runs

variable {env : Env} {parse : Str → Option Json} {x x' : Connection} {i : Input}

theorem Connection.late_did {d : DeskState} {evs : List Event} (P : Event → Prop)
    (h : ∀ e ∈ x.late, P e) (hevs : x.desk.session.closed = true → ∀ e ∈ evs, P e) :
    ∀ e ∈ (x.did d evs).late, P e := by
  unfold did
  dsimp only
  split
  · rename_i hc
    exact List.forall_mem_append.mpr ⟨hevs hc, h⟩
  · exact h

theorem Connection.late_onRead {chunk : Str} : (x.onRead chunk).late = x.late := by
  unfold onRead
  dsimp only
  split
  · rfl
  · rfl

theorem step_late (hok : Clear parse x i) (hs : Step env parse x i x')
    (h : ∀ e ∈ x.late, ¬ Changes e.1) : ∀ e ∈ x'.late, ¬ Changes e.1 := by
  cases hs with
  | read idle reading =>
    rw [Connection.late_onRead]
    exact h
  | readFails | empty | elsewhere => exact h
  | @line l readings d evs head nonempty run log =>
    have hdid : ∀ e ∈ (x.did d evs).late, ¬ Changes e.1 :=
      Connection.late_did _ h fun hc => changes_of_line (hok hc l head nonempty) run log
    exact hdid
  | strand idle own run log =>
    refine Connection.late_did _ h fun hc => ?_
    rw [silent_strand hc own run log]
    exact List.forall_mem_nil _

/-- **A closed session.** Where no submit is left in its buffer, it changes
nothing that is shared: no line, callback or broadcast does. -/
theorem closed_session_harmless (h : Reach env parse (Clear parse) x) :
    ∀ e ∈ x.late, ¬ Changes e.1 := by
  induction h with
  | init => exact List.forall_mem_nil _
  | step _ hok hs ih => exact step_late hok hs ih

end Runs

/-! ## Samples -/

/-- The line at hand, handled with the surroundings' replies. -/
def Connection.handle (env : Env) (parse : Str → Option Json) (r : Replies) (x : Connection) :
    Option Connection :=
  match x.pending with
  | [] => none
  | l :: _ =>
    if l = [] then some x.next
    else if x.desk.session.isV2 then none
    else
      (perform env r x.desk (.task (.line (parse l)) {r.now})).map fun d =>
        (x.did d (d.world.log.take (d.world.log.length - x.desk.world.log.length))).next

theorem step_of_handle {env : Env} {parse : Str → Option Json} {r : Replies} {x x' : Connection}
    (h : x.handle env parse r = some x') : Step env parse x (.line {r.now}) x' := by
  unfold Connection.handle at h
  split at h
  · cases h
  · rename_i l rest hp
    have head : x.pending.head? = some l := by rw [hp, List.head?_cons]
    split at h
    · rename_i hl
      cases h
      exact .empty (hl ▸ head)
    · rename_i hl
      split at h
      · cases h
      · rename_i hv
        obtain ⟨d, hd, rfl⟩ := Option.map_eq_some_iff.mp h
        obtain ⟨⟨o, w⟩, he, rfl⟩ := Option.map_eq_some_iff.mp hd
        have run : Desk.Step env x.desk (.task (.line (parse l)) {r.now}) ⟨o.session, w⟩ :=
          .task (by simpa [Task.Offered] using hv)
            (exec_of_answers (fun now hnow => (Option.some.inj hnow).symm) he)
        obtain ⟨evs, hlog⟩ := log_of_step run
        refine .line head hl run ?_
        rw [hlog, List.length_append, Nat.add_sub_cancel, List.take_left']
        rfl

/-- A line that calls the method and nothing else. -/
def bare (method : String) : Str :=
  "\x7b\"method\":\"".toList ++ method.toList ++ "\"\x7d\n".toList

/-- The parser, where no number is read. -/
def sampleParse : Str → Option Json := JsonText.parse fun _ => none

/-- An invalid share that gets the miner banned. -/
def banned : Replies := { ban := true }

/-- Handle a line for each of the replies, where the check allows it. -/
def drain (check : Connection → Bool) (rs : List Replies) (x : Connection) : Option Connection :=
  rs.foldlM (fun x r => if check x then x.handle sampleEnv sampleParse r else none) x

/-- A submit that gets the session closed, and one more line in the same read. -/
def twoLines (method : String) : Connection :=
  ({ desk := start sampleEnv false } : Connection).onRead (bare "mining.submit" ++ bare method)

/-- `Clear`, computed. -/
def clearNow (x : Connection) : Bool :=
  !x.desk.session.closed || x.pending.head?.all fun l =>
    (sampleParse l).bind (fun msg => (msg.find? "method".toList).bind Json.getString?)
      != some "mining.submit".toList

theorem clear_of_clearNow {x : Connection} {i : Input} (h : clearNow x = true) :
    Clear sampleParse x i := by
  cases i with
  | line readings =>
    intro hc l hl _ hsubmits
    unfold clearNow at h
    rw [hc, hl, Bool.not_true, Bool.false_or, Option.all_some, bne_iff_ne] at h
    exact h hsubmits
  | read | readFails | other => exact trivial

theorem reach_of_drain {ok : Connection → Input → Prop} {check : Connection → Bool}
    (hcheck : ∀ x i, check x = true → ok x i) {rs : List Replies} {x x' : Connection}
    (hx : Reach sampleEnv sampleParse ok x) (h : drain check rs x = some x') :
    Reach sampleEnv sampleParse ok x' := by
  induction rs generalizing x with
  | nil =>
    cases h
    exact hx
  | cons r rs ih =>
    unfold drain at h
    rw [List.foldlM_cons] at h
    obtain ⟨x₁, h₁, h⟩ := Option.bind_eq_some_iff.mp h
    split at h₁
    · rename_i hc
      exact ih (.step hx (hcheck x _ hc) (step_of_handle h₁)) h
    · cases h₁

theorem reach_twoLines {ok : Connection → Input → Prop} (hok : ∀ x chunk, ok x (.read chunk))
    (method : String) : Reach sampleEnv sampleParse ok (twoLines method) :=
  .step (.init ⟨_, _, _, rfl⟩) (hok _ _) (.read rfl rfl)

/-- The line behind the one that closed the session is no submit. -/
theorem subscribe_after_close_harmless :
    ∃ x : Connection, x.desk.session.closed = true ∧ x.late ≠ [] ∧
      ∀ e ∈ x.late, ¬ Changes e.1 := by
  have h : (drain clearNow [banned, banned] (twoLines "mining.subscribe")).any (fun x =>
      x.desk.session.closed && !x.late.isEmpty) = true := by
    decide +kernel
  obtain ⟨x, hx, hlate⟩ := (Option.any_eq_true _ _).mp h
  rw [Bool.and_eq_true, Bool.not_eq_true'] at hlate
  have hreach : Reach sampleEnv sampleParse (Clear sampleParse) x :=
    reach_of_drain (fun _ _ => clear_of_clearNow) (reach_twoLines (fun _ _ => trivial) _) hx
  exact ⟨x, hlate.1, fun hnil => by simp [hnil] at hlate, closed_session_harmless hreach⟩

/-- **A submit behind the one that closed the session.** Both are in one read,
and the second is recorded against the miner after the session was closed. -/
theorem submit_after_close_recorded :
    ∃ (env : Env) (parse : Str → Option Json) (x : Connection),
      Reach env parse (fun _ _ => True) x ∧ ∃ e ∈ x.late, Changes e.1 := by
  have h : (drain (fun _ => true) [banned, banned] (twoLines "mining.submit")).any (fun x =>
      x.late.any fun e => match e.1 with
        | .recordInvalidShare => true
        | _ => false) = true := by
    decide +kernel
  obtain ⟨x, hx, hlate⟩ := (Option.any_eq_true _ _).mp h
  obtain ⟨⟨c, y⟩, he, hc⟩ := List.any_eq_true.mp hlate
  have hreach : Reach sampleEnv sampleParse (fun _ _ => True) x :=
    reach_of_drain (fun _ _ _ => trivial) (reach_twoLines (fun _ _ => trivial) _) hx
  refine ⟨_, _, x, hreach, ⟨c, y⟩, he, ?_⟩
  cases c <;> first | exact trivial | cases hc

end MkPool.ReadLoop
