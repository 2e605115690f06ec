import MkPool.Sv2UpstreamClient

/-! # Jobs and previous hashes of an SV2 upstream

A pool defines work by a `SetNewPrevHash` that names a job it sent before, or by
a job that is active at once, on the previous hash of the connection. The client
keeps the latest of each, and does not forget them with the connection. -/
namespace MkPool.Sv2Pairing
open MkPool.Utils MkPool.Sv2Messages MkPool.UpstreamSource MkPool.Sv2UpstreamClient

/-! ## What the pool defined -/

/-- The messages of the latest connection, the latest first. -/
def received : Log → List Reply
  | [] => []
  | (.received msg, _) :: log => msg :: received log
  | (.established, _) :: _ => []
  | _ :: log => received log

/-- The latest job. -/
def newestJob : List Reply → Option NewExtendedMiningJob
  | [] => none
  | .newExtendedMiningJob j :: _ => some j
  | _ :: msgs => newestJob msgs

/-- The latest job with an id. -/
def jobNamed (jobId : UInt32) : List Reply → Option NewExtendedMiningJob
  | [] => none
  | .newExtendedMiningJob j :: msgs => if j.jobId = jobId then some j else jobNamed jobId msgs
  | _ :: msgs => jobNamed jobId msgs

/-- The current previous hash. -/
def newestPrev : List Reply → Option SetNewPrevHash
  | [] => none
  | .setNewPrevHash ph :: _ => some ph
  | _ :: msgs => newestPrev msgs

/-- The work that the latest message defines. -/
def definedWork : List Reply → Option (NewExtendedMiningJob × SetNewPrevHash)
  | .setNewPrevHash ph :: msgs => (jobNamed ph.jobId msgs).map fun j => (j, ph)
  | .newExtendedMiningJob j :: msgs =>
    if j.minNtime.isSome then (newestPrev msgs).map fun ph => (j, ph) else none
  | _ => none

/-- The job is the work that the latest message defines. -/
def Defined (msgs : List Reply) (n : ProxyNotify) : Prop :=
  ∃ w, definedWork msgs = some w ∧
    ∃ clean seq, n = buildNotify (extJobOf w.1) (prevHashOf w.2) clean seq

/-! ## What the client makes of it -/

/-- The jobs that are broadcast in a step. -/
def jobsTold (outs : List Output) : List ProxyNotify :=
  outs.filterMap fun
    | .tell _ (.job n) => some n
    | _ => none

/-- The jobs broadcast on the latest connection, the latest first. -/
def broadcasts : Log → List ProxyNotify
  | [] => []
  | (.established, _) :: _ => []
  | (_, outs) :: log => jobsTold outs ++ broadcasts log

/-- A job that is broadcast is work that the pool defines at that moment, and a
job handed to a session was broadcast on the same connection. -/
def Shows (log : Log) (i : Input) (outs : List Output) : Prop :=
  (∀ n ∈ jobsTold outs, Defined (received ((i, outs) :: log)) n) ∧
    ∀ n, .currentJob (some n) ∈ outs → n ∈ broadcasts log

/-- Every step of a run shows it. -/
def WellPaired : Log → Prop
  | [] => True
  | (i, outs) :: log =>
    WellPaired log ∧ Shows log i outs

/-- A previous hash names the latest job of its connection; an immediate job
follows a previous hash on its connection; and a session asks for a job when one
was broadcast on the connection. Each where the client has something stored. -/
def Pairs (log : Log) (c : Client) : Input → Prop
  | .received (.setNewPrevHash ph) =>
    c.job.isSome = true → (newestJob (received log)).any (fun j => j.jobId = ph.jobId) = true
  | .received (.newExtendedMiningJob j) =>
    j.minNtime.isSome = true → c.prev.isSome = true → (newestPrev (received log)).isSome = true
  | .currentJob => c.curNotify.isSome = true → broadcasts log ≠ []
  | _ => True

/-! ## What is stored is the latest -/

structure Tracks (log : Log) (c : Client) : Prop where
  job : ∀ j, newestJob (received log) = some j → c.job = some (extJobOf j)
  prev : ∀ ph, newestPrev (received log) = some ph → c.prev = some (prevHashOf ph)
  notify : ∀ n, (broadcasts log).head? = some n → c.curNotify = some n

section
variable {log : Log} {c : Client} {i : Input} {outs : List Output}

theorem jobNamed_newest {msgs : List Reply} {j : NewExtendedMiningJob}
    (h : newestJob msgs = some j) : jobNamed j.jobId msgs = some j := by
  induction msgs with
  | nil => cases h
  | cons msg msgs ih =>
    cases msg with
    | newExtendedMiningJob j' =>
      obtain rfl : j' = j := Option.some.inj h
      exact if_pos rfl
    | _ => exact ih h

/-- Nothing that leaves the client is work, nor moves a session. -/
def workless : Output → Bool
  | .tell _ (.diff _) | .tell _ (.state _) => true
  | .tell .. | .currentJob (some _) => false
  | _ => true

/-- The steps that neither store work nor broadcast any. -/
structure Quiet (c : Client) (i : Input) (r : Client × List Output) : Prop where
  job : r.1.job = c.job
  prev : r.1.prev = c.prev
  notify : r.1.curNotify = c.curNotify
  map : r.1.jobidMap = c.jobidMap
  outs : ∀ out ∈ r.2, workless out = true

theorem jobsTold_workless (h : ∀ out ∈ outs, workless out = true) : jobsTold outs = [] := by
  refine List.filterMap_eq_nil_iff.mpr fun out hout => ?_
  split
  · exact Bool.noConfusion (h _ hout)
  · rfl

theorem Quiet.told {r : Client × List Output} (h : Quiet c i r) : jobsTold r.2 = [] :=
  jobsTold_workless h.outs

theorem Quiet.handed {r : Client × List Output} (h : Quiet c i r) (n : ProxyNotify) :
    .currentJob (some n) ∉ r.2 := fun hn => Bool.noConfusion (h.outs _ hn)

theorem quiet_teardown : Quiet c i (teardown c) := by
  unfold teardown
  split <;> exact ⟨rfl, rfl, rfl, rfl, by simp [workless]⟩

theorem workless_answered (cb : Option Nat) (accepted : Bool) (err : Str) :
    ∀ out ∈ answered cb accepted err, workless out = true := by
  cases cb <;> simp [workless]

theorem quiet_submit (s : UpstreamSubmit) (cb : Option Nat) : Quiet c i (submit c s cb) := by
  unfold submit
  split
  · split
    · exact ⟨rfl, rfl, rfl, rfl, by simp [workless]⟩
    · split
      · exact ⟨rfl, rfl, rfl, rfl, by simp [workless]⟩
      · exact ⟨rfl, rfl, rfl, rfl, workless_answered _ _ _⟩
  · exact ⟨rfl, rfl, rfl, rfl, workless_answered _ _ _⟩

theorem quiet_runPosted (p : Posted) : Quiet c i (runPosted c p) := by
  unfold runPosted
  split
  · exact ⟨rfl, rfl, rfl, rfl, workless_answered _ _ _⟩
  · exact ⟨rfl, rfl, rfl, rfl, by simp [workless]⟩

theorem quiet_onSubmitResult (seq : UInt32) (accepted : Bool) (err : Str) :
    Quiet c i (onSubmitResult c seq accepted err) := by
  have hverdicts (cbs : List (UInt32 × Nat)) (accepted : Bool) :
      ∀ out ∈ cbs.map fun e => Output.verdict e.2 accepted err, workless out = true := by
    intro out hout
    obtain ⟨_, -, rfl⟩ := List.mem_map.mp hout
    rfl
  unfold onSubmitResult
  split <;> exact ⟨rfl, rfl, rfl, rfl, hverdicts _ _⟩

/-- A quiet step leaves what is stored as the latest. -/
theorem Tracks.quiet (h : Tracks log c) {r : Client × List Output} (hq : Quiet c i r)
    (hreceived : newestJob (received ((i, r.2) :: log)) = newestJob (received log))
    (hprev : newestPrev (received ((i, r.2) :: log)) = newestPrev (received log))
    (htold : broadcasts ((i, r.2) :: log) = broadcasts log) : Tracks ((i, r.2) :: log) r.1 := by
  refine ⟨?_, ?_, ?_⟩
  · rw [hreceived, hq.job]
    exact h.job
  · rw [hprev, hq.prev]
    exact h.prev
  · rw [htold, hq.notify]
    exact h.notify

theorem broadcasts_cons (hi : i ≠ .established) :
    broadcasts ((i, outs) :: log) = jobsTold outs ++ broadcasts log := by
  cases i <;> first | rfl | exact absurd rfl hi

/-- What a rebuild does, both pieces being there. -/
theorem rebuild_both {job : ExtJob} {prev : PrevHash} (clean : Bool) (hjob : c.job = some job)
    (hprev : c.prev = some prev) :
    ∃ c', rebuildAndBroadcast c clean =
        (c', [.tell c.liveSinks (.job (buildNotify job prev clean (c.notifySeq + 1)))]) ∧
      c'.job = c.job ∧ c'.prev = c.prev ∧
      c'.curNotify = some (buildNotify job prev clean (c.notifySeq + 1)) := by
  unfold rebuildAndBroadcast
  rw [hjob, hprev]
  exact ⟨_, rfl, rfl, rfl, rfl⟩

/-- A previous hash: it is stored, and work is broadcast if there is a job. -/
theorem onSetPrevHash_cases (c : Client) (ph : SetNewPrevHash) :
    (c.job = none ∧ onSetPrevHash c ph = ({ c with prev := some (prevHashOf ph) }, [])) ∨
      ∃ job c', c.job = some job ∧ c'.job = some job ∧ c'.prev = some (prevHashOf ph) ∧
        c'.curNotify = some (buildNotify job (prevHashOf ph) true (c.notifySeq + 1)) ∧
        onSetPrevHash c ph =
          (c', [.tell c.liveSinks (.job (buildNotify job (prevHashOf ph) true
            (c.notifySeq + 1)))]) := by
  unfold onSetPrevHash
  dsimp only
  rcases Option.eq_none_or_eq_some c.job with hjob | ⟨job, hjob⟩
  · rw [if_neg (by simp [hjob])]
    exact .inl ⟨hjob, rfl⟩
  · obtain ⟨c', hc', hj, hp, hn⟩ :=
      rebuild_both (c := { c with prev := some (prevHashOf ph) }) true hjob rfl
    rw [if_pos (by simp [hjob]), hc']
    exact .inr ⟨job, c', hjob, hj.trans hjob, hp, hn, rfl⟩

/-- A job: it is stored, and work is broadcast if it is active at once and there
is a previous hash. -/
theorem onExtendedJob_cases (c : Client) (j : NewExtendedMiningJob) :
    (¬ (j.minNtime.isSome = true ∧ c.prev.isSome = true) ∧ onExtendedJob c j =
        ({ c with job := some (extJobOf j), statJobs := c.statJobs + 1 }, [])) ∨
      ∃ prev c', j.minNtime.isSome = true ∧ c.prev = some prev ∧
        c'.job = some (extJobOf j) ∧ c'.prev = some prev ∧
        c'.curNotify = some (buildNotify (extJobOf j) prev false (c.notifySeq + 1)) ∧
        onExtendedJob c j =
          (c', [.tell c.liveSinks (.job (buildNotify (extJobOf j) prev false
            (c.notifySeq + 1)))]) := by
  unfold onExtendedJob
  dsimp only
  by_cases hboth : j.minNtime.isSome = true ∧ c.prev.isSome = true
  · obtain ⟨hnow, hprev⟩ := hboth
    obtain ⟨prev, hp⟩ := Option.isSome_iff_exists.mp hprev
    obtain ⟨c', hc', hj, hp', hn⟩ := rebuild_both
      (c := { c with job := some (extJobOf j), statJobs := c.statJobs + 1 }) false rfl hp
    rw [if_pos (by rw [hnow, hprev]; rfl), hc']
    exact .inr ⟨prev, c', hnow, hp, hj, hp'.trans hp, hn, rfl⟩
  · rw [if_neg (by simpa using hboth)]
    exact .inl ⟨hboth, rfl⟩

/-- The message carries work. -/
def Carries : Reply → Prop
  | .newExtendedMiningJob _ | .setNewPrevHash _ => True
  | _ => False

theorem quiet_handleFrame {msg : Reply} (h : ¬ Carries msg) : Quiet c i (handleFrame c msg) := by
  cases msg with
  | newExtendedMiningJob => exact absurd trivial h
  | setNewPrevHash => exact absurd trivial h
  | setupConnectionError => exact quiet_teardown
  | openMiningChannelError => exact quiet_teardown
  | openExtendedSuccess ok =>
    unfold handleFrame
    dsimp only
    split <;> exact ⟨rfl, rfl, rfl, rfl, by simp [onChannelOpen, notifyWaiters, workless]⟩
  | submitSharesSuccess => exact quiet_onSubmitResult ..
  | submitSharesError => exact quiet_onSubmitResult ..
  | _ => exact ⟨rfl, rfl, rfl, rfl, by simp [handleFrame, onSetTarget, workless]⟩

/-- A message without work defines none. -/
theorem newest_of_not_carries {msg : Reply} (h : ¬ Carries msg) (msgs : List Reply) :
    newestJob (msg :: msgs) = newestJob msgs ∧ newestPrev (msg :: msgs) = newestPrev msgs := by
  cases msg <;> first | exact absurd trivial h | exact ⟨rfl, rfl⟩

/-- The inputs that store no work and hand none out. -/
def Plain : Input → Prop
  | .received msg => ¬ Carries msg
  | .established | .currentJob => False
  | _ => True

theorem quiet_of_plain {r : Client × List Output} (h : Plain i) (hr : react c i = some r) :
    Quiet c i r := by
  cases i with
  | received msg =>
    obtain rfl := Option.some.inj hr
    exact quiet_handleFrame h
  | established => exact h.elim
  | currentJob => exact h.elim
  | teardown =>
    obtain rfl := Option.some.inj hr
    exact quiet_teardown
  | connect =>
    obtain rfl := Option.some.inj hr
    unfold connect
    split <;> exact ⟨rfl, rfl, rfl, rfl, by simp [workless]⟩
  | submit s cb =>
    obtain rfl := Option.some.inj hr
    unfold submitNumbered
    split
    · have hq := quiet_submit (c := { c with callbacks := c.callbacks + 1 }) (i := .submit s cb)
        s (some c.callbacks)
      exact ⟨hq.job, hq.prev, hq.notify, hq.map, hq.outs⟩
    · exact quiet_submit s none
  | runPosted =>
    unfold react at hr
    dsimp only at hr
    cases hp : c.posted with
    | nil =>
      rw [hp] at hr
      obtain rfl := Option.some.inj hr
      exact ⟨rfl, rfl, rfl, rfl, by simp [workless]⟩
    | cons p posted =>
      rw [hp] at hr
      obtain rfl := Option.some.inj hr
      have hq := quiet_runPosted (c := { c with posted }) (i := .runPosted) p
      exact ⟨hq.job, hq.prev, hq.notify, hq.map, hq.outs⟩
  | attach sink =>
    obtain ⟨r', hr', rfl⟩ := Option.map_eq_some_iff.mp hr
    unfold attach at hr'
    split at hr'
    · obtain rfl := Option.some.inj hr'
      exact ⟨rfl, rfl, rfl, rfl, by simp [workless]⟩
    · obtain ⟨slotHex, _, rfl⟩ := Option.map_eq_some_iff.mp hr'
      exact ⟨rfl, rfl, rfl, rfl, by simp [workless]⟩
  | _ =>
    obtain rfl := Option.some.inj hr
    exact ⟨rfl, rfl, rfl, rfl, by simp [workless]⟩

theorem log_of_plain (h : Plain i) (outs : List Output) (htold : jobsTold outs = []) :
    newestJob (received ((i, outs) :: log)) = newestJob (received log) ∧
      newestPrev (received ((i, outs) :: log)) = newestPrev (received log) ∧
      broadcasts ((i, outs) :: log) = broadcasts log := by
  have hb (hi : i ≠ .established) : broadcasts ((i, outs) :: log) = broadcasts log := by
    rw [broadcasts_cons hi, htold, List.nil_append]
  cases i with
  | received msg =>
    obtain ⟨hj, hp⟩ := newest_of_not_carries h (received log)
    exact ⟨hj, hp, hb (by simp)⟩
  | established => exact h.elim
  | _ => exact ⟨rfl, rfl, hb (by simp)⟩

/-! ## The step -/

theorem hexPadded_inj {a b : UInt32} (h : hexPadded 8 a.toNat = hexPadded 8 b.toNat) : a = b :=
  UInt32.toNat_inj.mp (hexPadded_injective h)

/-- A job that is named has the id, and there is a latest job. -/
theorem newest_of_named {jobId : UInt32} {msgs : List Reply} {j : NewExtendedMiningJob}
    (h : jobNamed jobId msgs = some j) : j.jobId = jobId ∧ ∃ j', newestJob msgs = some j' := by
  induction msgs with
  | nil => cases h
  | cons msg msgs ih =>
    cases msg with
    | newExtendedMiningJob j' =>
      refine ⟨?_, j', rfl⟩
      by_cases hj' : j'.jobId = jobId
      · rw [jobNamed, if_pos hj'] at h
        obtain rfl := Option.some.inj h
        exact hj'
      · rw [jobNamed, if_neg hj'] at h
        exact (ih h).1
    | _ => exact ih h

/-- The stored job under a previous hash is work exactly where it is the latest
of the connection and the one that is named. -/
theorem defined_prevHash (h : Tracks log c) {ph : SetNewPrevHash} {job : ExtJob} (seq : Nat)
    (hjob : c.job = some job) :
    Defined (.setNewPrevHash ph :: received log) (buildNotify job (prevHashOf ph) true seq) ↔
      (newestJob (received log)).any (fun j => j.jobId = ph.jobId) = true := by
  constructor
  · rintro ⟨w, hw, clean, seq', hn⟩
    obtain ⟨j, hnamed, rfl⟩ := Option.map_eq_some_iff.mp hw
    have hid : job.sv2JobId = j.jobId := hexPadded_inj (congrArg ProxyNotify.jobId hn)
    obtain ⟨hname, j', hj'⟩ := newest_of_named hnamed
    have hstored := h.job j' hj'
    rw [hjob] at hstored
    obtain rfl := Option.some.inj hstored
    rw [hj']
    exact decide_eq_true (hid.trans hname)
  · intro hok
    obtain ⟨j, hj, hname⟩ := (Option.any_eq_true _ _).mp hok
    have hname : j.jobId = ph.jobId := of_decide_eq_true hname
    have hstored := h.job j hj
    rw [hjob] at hstored
    obtain rfl := Option.some.inj hstored
    refine ⟨(j, ph), ?_, true, seq, rfl⟩
    show (jobNamed ph.jobId (received log)).map _ = _
    rw [← hname, jobNamed_newest hj]
    rfl

/-- An immediate job on the stored previous hash is work exactly where the
connection has one. -/
theorem defined_job (h : Tracks log c) {j : NewExtendedMiningJob} {prev : PrevHash} (seq : Nat)
    (hnow : j.minNtime.isSome = true) (hprev : c.prev = some prev) :
    Defined (.newExtendedMiningJob j :: received log) (buildNotify (extJobOf j) prev false seq) ↔
      (newestPrev (received log)).isSome = true := by
  have hwork : definedWork (.newExtendedMiningJob j :: received log) =
      (newestPrev (received log)).map fun ph => (j, ph) := if_pos hnow
  constructor
  · rintro ⟨w, hw, -⟩
    rw [hwork] at hw
    obtain ⟨ph, hph, -⟩ := Option.map_eq_some_iff.mp hw
    rw [hph]
    rfl
  · intro hok
    obtain ⟨ph, hph⟩ := Option.isSome_iff_exists.mp hok
    have hstored := h.prev ph hph
    rw [hprev] at hstored
    obtain rfl := Option.some.inj hstored
    exact ⟨(j, ph), by rw [hwork, hph]; rfl, false, seq, rfl⟩

/-- The latest notify is the one that is kept, where any was broadcast. -/
theorem Tracks.mem_broadcasts (h : Tracks log c) {n : ProxyNotify} (hn : c.curNotify = some n)
    (hsome : broadcasts log ≠ []) : n ∈ broadcasts log := by
  cases hb : broadcasts log with
  | nil => exact absurd hb hsome
  | cons m rest =>
    have hcur := h.notify m (by rw [hb]; rfl)
    rw [hn] at hcur
    obtain rfl := Option.some.inj hcur
    exact List.mem_cons_self

theorem shows_one {sinks : List Nat} {n : ProxyNotify} :
    Shows log i [.tell sinks (.job n)] ↔ Defined (received ((i, [.tell sinks (.job n)]) :: log)) n := by
  constructor
  · exact fun h => h.1 n (List.mem_singleton_self n)
  · refine fun h => ⟨fun m hm => ?_, by simp⟩
    obtain rfl := List.mem_singleton.mp hm
    exact h

theorem shows_nothing : Shows log i [] := ⟨by simp [jobsTold], by simp⟩

/-- A previous hash. -/
theorem setNewPrevHash_pairs (h : Tracks log c) (ph : SetNewPrevHash)
    (hi : i = .received (.setNewPrevHash ph)) :
    Tracks ((i, (onSetPrevHash c ph).2) :: log) (onSetPrevHash c ph).1 ∧
      (Pairs log c i ↔ Shows log i (onSetPrevHash c ph).2) := by
  subst hi
  rcases onSetPrevHash_cases c ph with ⟨hjob, hstep⟩ | ⟨job, c', hjob, hj', hp', hn', hstep⟩
  · rw [hstep]
    refine ⟨⟨h.job, fun ph' hph => ?_, h.notify⟩, fun _ => shows_nothing, fun _ hsome => ?_⟩
    · obtain rfl : ph = ph' := Option.some.inj hph
      rfl
    · rw [hjob] at hsome
      cases hsome
  · rw [hstep]
    refine ⟨⟨fun j hj => ?_, fun ph' hph => ?_, fun n hn => ?_⟩, ?_⟩
    · rw [hj', ← hjob]
      exact h.job j hj
    · obtain rfl : ph = ph' := Option.some.inj hph
      exact hp'
    · obtain rfl : _ = n := Option.some.inj hn
      exact hn'
    · rw [shows_one]
      refine Iff.trans ?_ (defined_prevHash h _ hjob).symm
      exact ⟨fun hok => hok (by rw [hjob]; rfl), fun hok _ => hok⟩

/-- A job. -/
theorem newExtendedMiningJob_pairs (h : Tracks log c) (j : NewExtendedMiningJob)
    (hi : i = .received (.newExtendedMiningJob j)) :
    Tracks ((i, (onExtendedJob c j).2) :: log) (onExtendedJob c j).1 ∧
      (Pairs log c i ↔ Shows log i (onExtendedJob c j).2) := by
  subst hi
  rcases onExtendedJob_cases c j with
    ⟨hnot, hstep⟩ | ⟨prev, c', hnow, hprev, hj', hp', hn', hstep⟩
  · rw [hstep]
    refine ⟨⟨fun j' hj => ?_, h.prev, h.notify⟩, fun _ => shows_nothing,
      fun _ hnow hsome => absurd ⟨hnow, hsome⟩ hnot⟩
    obtain rfl : j = j' := Option.some.inj hj
    rfl
  · rw [hstep]
    refine ⟨⟨fun j' hj => ?_, fun ph hph => ?_, fun n hn => ?_⟩, ?_⟩
    · obtain rfl : j = j' := Option.some.inj hj
      exact hj'
    · rw [hp', ← hprev]
      exact h.prev ph hph
    · obtain rfl : _ = n := Option.some.inj hn
      exact hn'
    · rw [shows_one]
      refine Iff.trans ?_ (defined_job h _ hnow hprev).symm
      exact ⟨fun hok => hok hnow (by rw [hprev]; rfl), fun hok _ _ => hok⟩

/-- A job is asked for. -/
theorem currentJob_pairs (h : Tracks log c) :
    Pairs log c .currentJob ↔ Shows log .currentJob [.currentJob c.curNotify] := by
  constructor
  · refine fun hok => ⟨by simp [jobsTold], fun n hn => ?_⟩
    rw [List.mem_singleton, Output.currentJob.injEq] at hn
    exact h.mem_broadcasts hn.symm (hok (by rw [← hn]; rfl))
  · rintro ⟨-, hhanded⟩ hsome hnil
    obtain ⟨n, hn⟩ := Option.isSome_iff_exists.mp hsome
    have hmem := hhanded n (by rw [hn]; exact List.mem_singleton_self _)
    rw [hnil] at hmem
    cases hmem

/-- **One step.** What is stored stays the latest, and the step is well paired
exactly where it meets the condition. -/
theorem step_pairs {r : Client × List Output} (h : Tracks log c) (hr : react c i = some r) :
    Tracks ((i, r.2) :: log) r.1 ∧ (Pairs log c i ↔ Shows log i r.2) := by
  by_cases hplain : Plain i
  · have hq := quiet_of_plain hplain hr
    obtain ⟨hj, hp, hb⟩ := @log_of_plain log i hplain r.2 hq.told
    refine ⟨h.quiet hq hj hp hb, fun _ => ⟨by simp [hq.told], fun n hn => ?_⟩, fun _ => ?_⟩
    · exact absurd hn (hq.handed n)
    · cases i with
      | received msg =>
        cases msg <;> first | exact trivial | exact absurd trivial hplain
      | currentJob => exact hplain.elim
      | _ => exact trivial
  · cases i with
    | established =>
      obtain rfl := Option.some.inj hr
      refine ⟨⟨?_, ?_, ?_⟩, fun _ => ⟨?_, ?_⟩, fun _ => trivial⟩
      · simp [received, newestJob]
      · simp [received, newestPrev]
      · simp [broadcasts]
      · simp [established, jobsTold]
      · simp [established]
    | currentJob =>
      obtain rfl := Option.some.inj hr
      exact ⟨⟨h.job, h.prev, h.notify⟩, currentJob_pairs h⟩
    | received msg =>
      obtain rfl := Option.some.inj hr
      cases msg with
      | setNewPrevHash ph => exact setNewPrevHash_pairs h ph rfl
      | newExtendedMiningJob j => exact newExtendedMiningJob_pairs h j rfl
      | _ => exact absurd (fun hc => hc) hplain
    | _ => exact absurd trivial hplain

end

/-! ## Runs -/

theorem tracks_of_run {ok : Log → Client → Input → Prop} {log : Log} {c : Client}
    (run : Run ok log c) : Tracks log c := by
  induction run with
  | init user n =>
    exact ⟨by simp [received, newestJob], by simp [received, newestPrev], by simp [broadcasts]⟩
  | step run hoffer hok hs ih => exact (step_pairs ih hs).1

theorem wellPaired_of_run {log : Log} {c : Client} (run : Run Pairs log c) : WellPaired log := by
  induction run with
  | init user n => trivial
  | step run hoffer hok hs ih => exact ⟨ih, (step_pairs (tracks_of_run run) hs).2.mp hok⟩

/-- **Work is what the pool defined, exactly in the runs whose steps meet the
condition.** -/
theorem wellPaired_iff (log : Log) (c : Client) (run : Run (fun _ _ _ => True) log c) :
    WellPaired log ↔ Run Pairs log c := by
  refine ⟨fun hpaired => ?_, wellPaired_of_run⟩
  induction run with
  | init user n => exact .init user n
  | step run hoffer _ hs ih =>
    obtain ⟨hlog, hnow⟩ := hpaired
    exact .step (ih hlog) hoffer ((step_pairs (tracks_of_run run) hs).2.mpr hnow) hs

/-! ## Two wrong pairs and a right one -/

def sampleJob (jobId : UInt32) (minNtime : Option UInt32) : Input :=
  .received (.newExtendedMiningJob
    { channelId := 1, jobId, minNtime, version := 0x20000000, versionRollingAllowed := true
      merklePath := [], coinbaseTxPrefix := [1], coinbaseTxSuffix := [2] })

def samplePrev (jobId : UInt32) : Input :=
  .received (.setNewPrevHash
    { channelId := 1, jobId, prevHash := .zero, minNtime := 7, nbits := 0x207fffff })

/-- The latest step broadcasts a job with another id than the pool's work has,
or where the pool defined none. -/
def mispaired : Log → Bool
  | [] => false
  | (i, outs) :: log =>
    (jobsTold outs).any fun n =>
      (definedWork (received ((i, outs) :: log))).all fun w =>
        n.jobId != hexPadded 8 w.1.jobId.toNat

theorem not_wellPaired {log : Log} (h : mispaired log = true) : ¬ WellPaired log := by
  cases log with
  | nil => cases h
  | cons step log =>
    rintro ⟨-, hshows, -⟩
    obtain ⟨n, hn, hbad⟩ := List.any_eq_true.mp h
    obtain ⟨w, hw, clean, seq, rfl⟩ := hshows n hn
    rw [hw] at hbad
    exact bne_iff_ne.mp hbad rfl

/-- **The latest job is paired with whatever comes.** Of two future jobs the
second is broadcast under a previous hash that names the first; and a job of a
new connection is put on the previous hash of the old one. -/
theorem wrong_pairs :
    (∃ log c, Run (fun _ _ _ => True) log c ∧ c.conn = 1 ∧ ¬ WellPaired log) ∧
      ∃ log c, Run (fun _ _ _ => True) log c ∧ c.conn = 2 ∧ ¬ WellPaired log := by
  constructor
  · obtain ⟨log, c, hrun, hbad⟩ := exists_run 2
      (channelOpens 8 ++ [sampleJob 1 none, sampleJob 2 none, samplePrev 1])
      (fun log c => decide (c.conn = 1) && mispaired log) (by decide +kernel)
    simp only [Bool.and_eq_true, decide_eq_true_eq] at hbad
    exact ⟨log, c, hrun, hbad.1, not_wellPaired hbad.2⟩
  · obtain ⟨log, c, hrun, hbad⟩ := exists_run 2
      (channelOpens 8 ++ [sampleJob 1 none, samplePrev 1, .teardown] ++ channelOpens 8
        ++ [sampleJob 1 (some 9)])
      (fun log c => decide (c.conn = 2) && mispaired log) (by decide +kernel)
    simp only [Bool.and_eq_true, decide_eq_true_eq] at hbad
    exact ⟨log, c, hrun, hbad.1, not_wellPaired hbad.2⟩

/-- A previous hash names the job before it, a job is active at once, and a
session asks for it. -/
def pairing (log : Log) (c : Client) : Input → Bool
  | .received (.setNewPrevHash ph) =>
    !c.job.isSome || (newestJob (received log)).any fun j => j.jobId = ph.jobId
  | .received (.newExtendedMiningJob j) =>
    !j.minNtime.isSome || !c.prev.isSome || (newestPrev (received log)).isSome
  | .currentJob => !c.curNotify.isSome || !(broadcasts log).isEmpty
  | _ => true

theorem pairs_of_pairing (log : Log) (c : Client) (i : Input) (h : pairing log c i = true) :
    Pairs log c i := by
  cases i with
  | received msg =>
    cases msg with
    | setNewPrevHash ph =>
      intro hjob
      simpa [pairing, hjob] using h
    | newExtendedMiningJob j =>
      intro hnow hprev
      simpa [pairing, hnow, hprev] using h
    | _ => exact trivial
  | currentJob =>
    intro hcur
    simpa [pairing, hcur] using h
  | _ => exact trivial

theorem wellPaired_once :
    ∃ log c, (broadcasts log).length = 2 ∧ Run (fun _ _ _ => True) log c ∧ WellPaired log := by
  have h : (reactAll pairing ([], initial [] 2)
      (channelOpens 8 ++ [sampleJob 1 none, samplePrev 1, sampleJob 2 (some 9), .currentJob])).any
      (fun st => decide ((broadcasts st.1).length = 2)) = true := by
    decide +kernel
  obtain ⟨st, hst, htwo⟩ := (Option.any_eq_true _ _).mp h
  have hpairs : Run Pairs st.1 st.2 := run_of_reactAll pairs_of_pairing (.init [] 2) hst
  have hrun : Run (fun _ _ _ => True) st.1 st.2 := hpairs.mono fun _ _ _ _ => trivial
  exact ⟨st.1, st.2, of_decide_eq_true htwo, hrun, (wellPaired_iff st.1 st.2 hrun).mpr hpairs⟩

end MkPool.Sv2Pairing
