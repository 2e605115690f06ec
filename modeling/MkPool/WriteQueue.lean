import MkPool.Utils

/-! # `write_queue.hpp`: the chained writes of a session

Every call of the class and every completion of a write, with what was accepted
of the pushes and handed to `async_write`. The owner lives for as long as it is
not released, or a handler holds it. -/
namespace MkPool.WriteQueue
open MkPool.Utils

structure Env where
  /-- `high_water_`, of a `size_t`. -/
  highWater : Nat
  highWater_lt : highWater < 2 ^ 64
  /-- `set_owner` was called. -/
  hasOwner : Bool
  /-- The drop handler closes a session, which stops the queue. -/
  dropStops : Bool

structure Queue where
  queue : List Str := []
  queuedBytes : Nat := 0
  writing : Bool := false
  stopped : Bool := false
  released : Bool := false
  /-- The buffers of the writes that have not completed. -/
  outstanding : List Str := []
  /-- What was accepted, the first first. -/
  accepted : List Str := []
  /-- What was handed to `async_write`, the first first. -/
  handed : List Str := []
  /-- The writes that completed without an error. -/
  completed : Nat := 0
  /-- What had been handed when the first write failed. -/
  failedAt : Option (List Str) := none
deriving DecidableEq

namespace Queue
variable (env : Env) (q : Queue)

def queued : Nat := q.queuedBytes

/-- A session without its last owner, in no handler. -/
def OwnerGone : Prop := env.hasOwner = true ∧ q.released = true ∧ q.outstanding = []

instance : Decidable (q.OwnerGone env) := inferInstanceAs (Decidable (_ ∧ _ ∧ _))

/-- `do_write`; `alive` is whether the owner can be locked. The front of an empty
queue leaves no result. -/
def doWrite (alive : Bool) : Option Queue :=
  if q.stopped then some { q with writing := false }
  else
    match q.queue with
    | [] => none
    | front :: _ =>
      if !alive then some { q with writing := false }
      else some { q with outstanding := q.outstanding ++ [front], handed := q.handed ++ [front] }

def drop : Queue := { q with stopped := q.stopped || env.dropStops }

def push (msg : Str) : Option (Queue × Bool) :=
  if q.stopped then some (q, false)
  else
    let q := { q with queuedBytes := (q.queuedBytes + msg.length) % 2 ^ 64 }
    if env.highWater < q.queuedBytes then some (q.drop env, false)
    else
      let q := { q with queue := q.queue ++ [msg], accepted := q.accepted ++ [msg] }
      if q.writing then some (q, true)
      else (({ q with writing := true }).doWrite (!decide (q.OwnerGone env))).map fun q => (q, true)

/-- The completion handler. It holds the owner while it runs. -/
def onWritten (error : Bool) : Option Queue :=
  let q := { q with outstanding := q.outstanding.tail }
  if error then
    some (({ q with writing := false, failedAt := some (q.failedAt.getD q.handed) }).drop env)
  else
    let q := { q with completed := q.completed + 1 }
    if q.stopped then some { q with writing := false }
    else
      match q.queue with
      | [] => some { q with writing := false }
      | front :: rest =>
        let q := { q with
          queuedBytes := (q.queuedBytes + 2 ^ 64 - front.length) % 2 ^ 64
          queue := rest }
        if rest.isEmpty then some { q with writing := false } else q.doWrite true

end Queue

inductive Input where
  | push (msg : Str)
  | stop
  | release
  | completes (error : Bool)
deriving DecidableEq

/-- A write that completes is one that is outstanding. -/
def Enabled (q : Queue) : Input → Prop
  | .completes _ => q.outstanding ≠ []
  | _ => True

def step (env : Env) (q : Queue) : Input → Option Queue
  | .push msg => (q.push env msg).map Prod.fst
  | .stop => some { q with stopped := true }
  | .release => some { q with released := true }
  | .completes error => q.onWritten env error

/-! ## The property -/

def total (msgs : List Str) : Nat := (msgs.map List.length).sum

/-- What a queue is to keep to. -/
structure Sound (env : Env) (q : Queue) : Prop where
  one_write : q.outstanding.length ≤ 1
  in_order : q.handed <+: q.accepted
  /-- Nothing was handed after a failed write. -/
  none_after_failure : ∀ handed ∈ q.failedAt, q.handed = handed
  queued_eq : q.queued = total (q.accepted.drop q.completed)
  queued_le : q.queued ≤ env.highWater
  front : ∀ input, Enabled q input → (step env q input).isSome

/-- A rejected push changes nothing. -/
def Rejects (env : Env) (q : Queue) (msg : Str) : Prop :=
  ∀ q', q.push env msg = some (q', false) → q'.queue = q.queue ∧ q'.queued = q.queued

/-- The steps that keep to it: a push finds the queue stopped, or has room and
comes before any failed write or after the owner; and no write of a byte
succeeds after the queue was stopped. -/
def Fits (env : Env) (q : Queue) : Input → Prop
  | .push msg => q.stopped = true ∨
      q.queuedBytes + msg.length ≤ env.highWater ∧ (q.failedAt = none ∨ q.OwnerGone env)
  | .completes false => q.stopped = true → total q.outstanding = 0
  | _ => True

/-- The runs of a queue whose steps are as given. -/
inductive Run (env : Env) (fits : Queue → Input → Prop) : Queue → Prop where
  | new : Run env fits {}
  | step {q q' : Queue} (h : Run env fits q) (input : Input) (henabled : Enabled q input)
    (hfits : fits q input) (hstep : step env q input = some q') : Run env fits q'

/-! ## What every step keeps -/

/-- The bytes, whatever is being written. -/
structure Counted (env : Env) (q : Queue) : Prop where
  completed_le : q.completed ≤ q.accepted.length
  bytes : q.queuedBytes = total q.queue
  left : total q.queue = total (q.accepted.drop q.completed)
  running : q.stopped = false → q.queue = q.accepted.drop q.completed
  bytes_le : q.queuedBytes ≤ env.highWater

/-- What is being written. -/
inductive Phase (q : Queue) : Prop where
  | idle (houtstanding : q.outstanding = []) (hwriting : q.writing = false)
    (hhanded : q.handed = q.accepted.take q.completed) (hfailed : q.failedAt = none)
  | busy (m : Str) (rest : List Str) (houtstanding : q.outstanding = [m])
    (hwriting : q.writing = true) (hhanded : q.handed = q.accepted.take q.completed ++ [m])
    (hrest : q.accepted.drop q.completed = m :: rest) (hfailed : q.failedAt = none)
  | failed (houtstanding : q.outstanding = []) (hwriting : q.writing = false)
    (hhanded : q.handed <+: q.accepted) (hfailed : q.failedAt = some q.handed)

structure Kept (env : Env) (q : Queue) : Prop where
  counted : Counted env q
  phase : Phase q

@[simp] theorem total_nil : total [] = 0 := rfl

@[simp] theorem total_cons (m : Str) (msgs : List Str) :
    total (m :: msgs) = m.length + total msgs := by
  simp [total]

@[simp] theorem total_append (a b : List Str) : total (a ++ b) = total a + total b := by
  simp [total]

section Steps
variable {env : Env} {q : Queue}

theorem take_accept {msgs : List Str} {n : Nat} (h : n ≤ msgs.length) (m : Str) :
    (msgs ++ [m]).take n = msgs.take n := List.take_append_of_le_length h

theorem drop_accept {msgs : List Str} {n : Nat} (h : n ≤ msgs.length) (m : Str) :
    (msgs ++ [m]).drop n = msgs.drop n ++ [m] := List.drop_append_of_le_length h

/-- A message is accepted. -/
def Queue.accept (q : Queue) (msg : Str) : Queue :=
  { q with queuedBytes := q.queuedBytes + msg.length, queue := q.queue ++ [msg],
           accepted := q.accepted ++ [msg] }

theorem Counted.accept (h : Counted env q) {msg : Str}
    (hroom : q.queuedBytes + msg.length ≤ env.highWater) : Counted env (q.accept msg) where
  completed_le := by
    rw [Queue.accept, List.length_append]
    exact h.completed_le.trans (Nat.le_add_right ..)
  bytes := by simp [Queue.accept, h.bytes]
  left := by simp [Queue.accept, drop_accept h.completed_le, h.left]
  running hrunning := by simp [Queue.accept, drop_accept h.completed_le, h.running hrunning]
  bytes_le := hroom

/-- Nothing is being written, and the front is handed over. -/
theorem Counted.doWrite (h : Counted env q) (hrunning : q.stopped = false)
    (houtstanding : q.outstanding = []) (hhanded : q.handed = q.accepted.take q.completed)
    (hfailed : q.failedAt = none) (hwriting : q.writing = true) (hqueue : q.queue ≠ [])
    (alive : Bool) : ∃ q', q.doWrite alive = some q' ∧ Kept env q' := by
  unfold Queue.doWrite
  rw [if_neg (ne_true_of_eq_false hrunning)]
  split
  · rename_i hempty
    exact absurd hempty hqueue
  · rename_i front rest hfront
    split
    · refine ⟨_, rfl, ⟨h.completed_le, h.bytes, h.left, h.running, h.bytes_le⟩, ?_⟩
      exact .idle houtstanding rfl hhanded hfailed
    · refine ⟨_, rfl, ⟨h.completed_le, h.bytes, h.left, h.running, h.bytes_le⟩, ?_⟩
      refine .busy front rest ?_ hwriting ?_ ?_ hfailed
      · rw [houtstanding]
        rfl
      · rw [hhanded]
      · exact (h.running hrunning).symm.trans hfront

theorem doWrite_dead (hrunning : q.stopped = false) (hqueue : q.queue ≠ []) :
    q.doWrite false = some { q with writing := false } := by
  unfold Queue.doWrite
  rw [if_neg (ne_true_of_eq_false hrunning)]
  split
  · rename_i hempty
    exact absurd hempty hqueue
  · rfl

/-- What a push that has room does. -/
theorem push_eq (hrunning : q.stopped = false) {msg : Str}
    (hroom : q.queuedBytes + msg.length ≤ env.highWater) : q.push env msg =
      if q.writing then some (q.accept msg, true)
      else (({ q.accept msg with writing := true }).doWrite (!decide (q.OwnerGone env))).map
        fun q => (q, true) := by
  have hlt : (q.queuedBytes + msg.length) % 2 ^ 64 = q.queuedBytes + msg.length :=
    Nat.mod_eq_of_lt (hroom.trans_lt env.highWater_lt)
  unfold Queue.push
  rw [if_neg (ne_true_of_eq_false hrunning)]
  dsimp only
  rw [hlt, if_neg (not_lt.mpr hroom)]
  rfl

theorem push_stopped (hstopped : q.stopped = true) (msg : Str) :
    q.push env msg = some (q, false) := if_pos hstopped

theorem Kept.push (h : Kept env q) {msg : Str} (hfits : Fits env q (.push msg)) :
    ∃ q' ok, q.push env msg = some (q', ok) ∧ Kept env q' := by
  cases hstopped : q.stopped with
  | true => exact ⟨q, false, push_stopped hstopped msg, h⟩
  | false =>
    obtain ⟨hroom, halive⟩ := hfits.resolve_left (ne_true_of_eq_false hstopped)
    have hcounted := h.counted.accept hroom
    have htake := take_accept h.counted.completed_le msg
    rw [push_eq hstopped hroom]
    rcases h.phase with ⟨hout, hwriting, hhanded, hfailed⟩ |
      ⟨m, rest, hout, hwriting, hhanded, hrest, hfailed⟩ | ⟨hout, hwriting, hhanded, hfailed⟩
    · rw [if_neg (ne_true_of_eq_false hwriting)]
      obtain ⟨q', hq', hkept⟩ := Counted.doWrite (q := { q.accept msg with writing := true })
        ⟨hcounted.completed_le, hcounted.bytes, hcounted.left, hcounted.running, hcounted.bytes_le⟩
        hstopped hout (hhanded.trans htake.symm) hfailed rfl
        (List.append_ne_nil_of_right_ne_nil _ (List.cons_ne_nil _ _))
        (!decide (q.OwnerGone env))
      rw [hq']
      exact ⟨q', true, rfl, hkept⟩
    · rw [if_pos hwriting]
      refine ⟨_, true, rfl, hcounted, .busy m (rest ++ [msg]) hout hwriting ?_ ?_ hfailed⟩
      · exact hhanded.trans (congrArg (· ++ [m]) htake.symm)
      · exact (drop_accept h.counted.completed_le msg).trans (congrArg (· ++ [msg]) hrest)
    · -- a write failed, so the owner is gone
      rw [if_neg (ne_true_of_eq_false hwriting)]
      have hgone : q.OwnerGone env := halive.resolve_left (by rw [hfailed]; nofun)
      have hprefix : q.handed <+: (q.accept msg).accepted :=
        hhanded.trans (List.prefix_append _ _)
      rw [decide_eq_true hgone, Bool.not_true, doWrite_dead (q := { q.accept msg with
        writing := true }) hstopped (List.append_ne_nil_of_right_ne_nil _ (List.cons_ne_nil _ _))]
      refine ⟨_, true, rfl, ?_, .failed hout rfl hprefix hfailed⟩
      exact ⟨hcounted.completed_le, hcounted.bytes, hcounted.left, hcounted.running,
        hcounted.bytes_le⟩

theorem Kept.onWritten (h : Kept env q) {error : Bool}
    (henabled : q.outstanding ≠ []) (hfits : Fits env q (.completes error)) :
    ∃ q', q.onWritten env error = some q' ∧ Kept env q' := by
  obtain ⟨hcounted, hphase⟩ := h
  rcases hphase with ⟨hout, _, _, _⟩ | ⟨m, rest, hout, hwriting, hhanded, hrest, hfailed⟩ |
    ⟨hout, _, _, _⟩
  · exact absurd hout henabled
  · have hlt : q.completed < q.accepted.length := by
      by_contra hnot
      rw [List.drop_eq_nil_of_le (not_lt.mp hnot)] at hrest
      cases hrest
    have htail : q.outstanding.tail = [] := by rw [hout]; rfl
    have hdrop : q.accepted.drop (q.completed + 1) = rest := by
      rw [← List.tail_drop, hrest]
      rfl
    have htake : q.accepted.take (q.completed + 1) = q.accepted.take q.completed ++ [m] := by
      rw [List.take_add, hrest]
      rfl
    cases error with
    | true =>
      refine ⟨_, rfl, ⟨hcounted.completed_le, hcounted.bytes, hcounted.left, ?_,
        hcounted.bytes_le⟩, .failed htail rfl ?_ ?_⟩
      · intro hrunning
        exact hcounted.running (Bool.or_eq_false_iff.mp hrunning).1
      · show q.handed <+: q.accepted
        rw [hhanded, ← htake]
        exact List.take_prefix _ _
      · show some (q.failedAt.getD q.handed) = some q.handed
        rw [hfailed]
        rfl
    | false =>
      have hhanded' := hhanded.trans htake.symm
      unfold Queue.onWritten
      rw [if_neg Bool.false_ne_true]
      dsimp only
      by_cases hnot : q.stopped = true
      · rw [if_pos hnot]
        have hnone : total [m] = 0 := hout ▸ hfits hnot
        refine ⟨_, rfl, ⟨hlt, hcounted.bytes, ?_, fun hrunning =>
          absurd hnot (ne_true_of_eq_false hrunning), hcounted.bytes_le⟩,
          .idle htail rfl hhanded' hfailed⟩
        rw [hcounted.left, hrest, hdrop]
        simpa using hnone
      · rw [if_neg hnot]
        have hstopped : q.stopped = false := Bool.eq_false_of_not_eq_true hnot
        have hqueue : q.queue = m :: rest := (hcounted.running hstopped).trans hrest
        have hbytes : q.queuedBytes = m.length + total rest := by
          rw [hcounted.bytes, hqueue, total_cons]
        have hpopped : (q.queuedBytes + 2 ^ 64 - m.length) % 2 ^ 64 = total rest := by
          have := hcounted.bytes_le
          have := env.highWater_lt
          omega
        have hcounted' : Counted env { q with
            queuedBytes := total rest, queue := rest, outstanding := [],
            completed := q.completed + 1 } :=
          ⟨hlt, rfl, congrArg total hdrop.symm, fun _ => hdrop.symm, by
            have := hcounted.bytes_le
            show total rest ≤ _
            omega⟩
        rw [hqueue]
        dsimp only
        rw [hpopped, htail]
        cases hrest' : rest with
        | nil =>
          rw [hrest'] at hcounted'
          exact ⟨_, rfl, ⟨hcounted'.completed_le, hcounted'.bytes, hcounted'.left,
            hcounted'.running, hcounted'.bytes_le⟩, .idle rfl rfl hhanded' hfailed⟩
        | cons front rest' =>
          rw [hrest'] at hcounted'
          rw [List.isEmpty_cons, if_neg Bool.false_ne_true]
          exact hcounted'.doWrite hstopped rfl hhanded' hfailed hwriting (List.cons_ne_nil _ _) true
  · exact absurd hout henabled

theorem Phase.of_eq {q' : Queue} (h : Phase q) (houtstanding : q'.outstanding = q.outstanding)
    (hwriting : q'.writing = q.writing) (haccepted : q'.accepted = q.accepted)
    (hhanded : q'.handed = q.handed) (hcompleted : q'.completed = q.completed)
    (hfailed : q'.failedAt = q.failedAt) : Phase q' := by
  cases q
  cases q'
  dsimp only at houtstanding hwriting haccepted hhanded hcompleted hfailed
  subst houtstanding hwriting haccepted hhanded hcompleted hfailed
  cases h with
  | idle h₁ h₂ h₃ h₄ => exact .idle h₁ h₂ h₃ h₄
  | busy m rest h₁ h₂ h₃ h₄ h₅ => exact .busy m rest h₁ h₂ h₃ h₄ h₅
  | failed h₁ h₂ h₃ h₄ => exact .failed h₁ h₂ h₃ h₄

theorem Kept.after (h : Kept env q) {input : Input} (henabled : Enabled q input)
    (hfits : Fits env q input) : ∃ q', step env q input = some q' ∧ Kept env q' := by
  obtain ⟨hcounted, hphase⟩ := h
  cases input with
  | push msg =>
    obtain ⟨q', ok, hpush, hkept⟩ := Kept.push ⟨hcounted, hphase⟩ hfits
    exact ⟨q', congrArg (Option.map Prod.fst) hpush, hkept⟩
  | stop =>
    refine ⟨_, rfl, ⟨hcounted.completed_le, hcounted.bytes, hcounted.left, nofun,
      hcounted.bytes_le⟩, hphase.of_eq rfl rfl rfl rfl rfl rfl⟩
  | release =>
    refine ⟨_, rfl, ⟨hcounted.completed_le, hcounted.bytes, hcounted.left, hcounted.running,
      hcounted.bytes_le⟩, hphase.of_eq rfl rfl rfl rfl rfl rfl⟩
  | completes error => exact Kept.onWritten ⟨hcounted, hphase⟩ henabled hfits

theorem Run.kept (h : Run env (Fits env) q) : Kept env q := by
  induction h with
  | new =>
    exact ⟨⟨Nat.le_refl 0, rfl, rfl, fun _ => rfl, Nat.zero_le _⟩, .idle rfl rfl rfl rfl⟩
  | step _ _ henabled hfits hstep ih =>
    obtain ⟨q', hq', hkept⟩ := ih.after henabled hfits
    obtain rfl := Option.some.inj (hq'.symm.trans hstep)
    exact hkept

end Steps

/-! Even where a step does not fit, the front of an empty queue is not accessed. -/

theorem doWrite_isSome {q : Queue} (hqueue : q.queue ≠ []) (alive : Bool) :
    (q.doWrite alive).isSome := by
  unfold Queue.doWrite
  split
  · rfl
  · split
    · rename_i hempty
      exact absurd hempty hqueue
    · split <;> rfl

theorem step_isSome (env : Env) (q : Queue) (input : Input) : (step env q input).isSome := by
  cases input with
  | push msg =>
    unfold step Queue.push
    dsimp only
    split
    · rfl
    · split
      · rfl
      · split
        · rfl
        · rw [Option.map_map, Option.isSome_map]
          exact doWrite_isSome (List.append_ne_nil_of_right_ne_nil _ (List.cons_ne_nil _ _)) _
  | stop => rfl
  | release => rfl
  | completes error =>
    unfold step Queue.onWritten
    dsimp only
    split
    · rfl
    · split
      · rfl
      · split
        · rfl
        · split
          · rfl
          · rename_i hrest
            exact doWrite_isSome (fun hnil => hrest (List.isEmpty_iff.mpr hnil)) true

theorem Kept.sound {env : Env} {q : Queue} (h : Kept env q) : Sound env q := by
  obtain ⟨hcounted, hphase⟩ := h
  have hqueued : q.queued = total (q.accepted.drop q.completed) :=
    hcounted.bytes.trans hcounted.left
  cases hphase with
  | idle hout hwriting hhanded hfailed =>
    exact {
      one_write := by rw [hout]; exact Nat.zero_le 1
      in_order := by rw [hhanded]; exact List.take_prefix _ _
      none_after_failure := by rw [hfailed]; nofun
      queued_eq := hqueued
      queued_le := hcounted.bytes_le
      front := fun input _ => step_isSome env q input }
  | busy m rest hout hwriting hhanded hrest hfailed =>
    exact {
      one_write := by rw [hout]; exact Nat.le_refl 1
      in_order := by
        rw [hhanded]
        conv_rhs => rw [← List.take_append_drop q.completed q.accepted, hrest]
        exact (List.prefix_append_right_inj _).mpr ⟨rest, rfl⟩
      none_after_failure := by rw [hfailed]; nofun
      queued_eq := hqueued
      queued_le := hcounted.bytes_le
      front := fun input _ => step_isSome env q input }
  | failed hout hwriting hhanded hfailed =>
    exact {
      one_write := by rw [hout]; exact Nat.zero_le 1
      in_order := hhanded
      none_after_failure := by
        rw [hfailed]
        intro handed hmem
        exact Option.some.inj hmem
      queued_eq := hqueued
      queued_le := hcounted.bytes_le
      front := fun input _ => step_isSome env q input }

/-- A push that fits is rejected by a stopped queue only. -/
theorem rejects_of_fits {env : Env} {q : Queue} {msg : Str} (hfits : Fits env q (.push msg)) :
    Rejects env q msg := by
  intro q' hrejected
  cases hstopped : q.stopped with
  | true =>
    rw [push_stopped hstopped] at hrejected
    cases hrejected
    exact ⟨rfl, rfl⟩
  | false =>
    obtain ⟨hroom, -⟩ := hfits.resolve_left (ne_true_of_eq_false hstopped)
    rw [push_eq hstopped hroom] at hrejected
    split at hrejected
    · cases hrejected
    · obtain ⟨_, -, heq⟩ := Option.map_eq_some_iff.mp hrejected
      cases heq

/-- **The write queue preserves the stream** in every run of steps that fit. -/
theorem sound_of_fits (env : Env) {q : Queue} (h : Run env (Fits env) q) :
    Sound env q ∧ ∀ msg, Fits env q (.push msg) → Rejects env q msg :=
  ⟨h.kept.sound, fun _ => rejects_of_fits⟩

/-- A queue of a session, of four bytes. -/
def narrow : Env where
  highWater := 4
  highWater_lt := by decide
  hasOwner := true
  dropStops := true

/-- Two messages, of which so many are written. -/
def twoPushed (completed : Nat) : Queue where
  queue := [['a'], ['b']].drop completed
  queuedBytes := 2 - completed
  writing := true
  outstanding := [if completed = 0 then ['a'] else ['b']]
  accepted := [['a'], ['b']]
  handed := [['a'], ['b']].take (completed + 1)
  completed := completed

def onePushed : Queue where
  queue := [['a']]
  queuedBytes := 1
  writing := true
  outstanding := [['a']]
  accepted := [['a']]
  handed := [['a']]

theorem twoPushed_run : Run narrow (Fits narrow) (twoPushed 1) := by
  have hone : Run narrow (Fits narrow) onePushed :=
    .step .new (.push ['a']) trivial (.inr ⟨by decide, .inl rfl⟩) rfl
  have htwo : Run narrow (Fits narrow) (twoPushed 0) :=
    .step hone (.push ['b']) trivial (.inr ⟨by decide, .inl rfl⟩) rfl
  exact .step htwo (.completes false) (List.cons_ne_nil _ _) nofun rfl

theorem sound_of_fits_two : Sound narrow (twoPushed 1) ∧
    ∀ msg, Fits narrow (twoPushed 1) (.push msg) → Rejects narrow (twoPushed 1) msg :=
  sound_of_fits narrow twoPushed_run

/-- **A rejected push stays counted**, past the high watermark. -/
theorem rejected_push_counted : ¬ ∀ (env : Env) (q : Queue), Run env (fun _ _ => True) q →
    Sound env q ∧ ∀ msg, Rejects env q msg := by
  intro h
  have hrejected := (h narrow {} .new).2 ['a', 'b', 'c', 'd', 'e'] _ rfl
  exact absurd hrejected.2 (by decide)

end MkPool.WriteQueue
