import MkPool.Lib.EvictingMap
import MkPool.Sv2Pairing

/-! # The job ids an SV2 client keeps

A share names a job that was announced, and the client looks its SV2 id up in a
map of the last 32 announcements. A job that is announced again stands in the
eviction order twice, and in the map once. -/
namespace MkPool.Sv2JobIds
open MkPool.Lib MkPool.Utils MkPool.Sv2Messages MkPool.UpstreamSource
open MkPool.Sv2UpstreamClient MkPool.Sv2Pairing

/-! ## Announcements -/

/-- The messages of all connections, the latest first. -/
def messages : Log → List Reply
  | [] => []
  | (.received msg, _) :: log => msg :: messages log
  | _ :: log => messages log

/-- The jobs that the messages have announced, the latest announcement first. A
previous hash announces the latest job, and a job that is active at once itself. -/
def announced : List Reply → List UInt32
  | [] => []
  | .newExtendedMiningJob j :: msgs =>
    if j.minNtime.isSome ∧ (newestPrev msgs).isSome then j.jobId :: announced msgs
    else announced msgs
  | .setNewPrevHash _ :: msgs =>
    match newestJob msgs with
    | some j => j.jobId :: announced msgs
    | none => announced msgs
  | _ :: msgs => announced msgs

/-- The ids of the jobs that were broadcast, the latest first. -/
def toldIds (log : Log) : List Str := (log.flatMap fun e => jobsTold e.2).map ProxyNotify.jobId

/-- A share of a job that is among the last 32 to be announced finds its SV2 job,
and the map stays small. -/
structure Submittable (log : Log) (c : Client) : Prop where
  known : ∀ jobId ∈ (toldIds log).take 32, ∃ sv2JobId : UInt32,
    jobId = hexPadded 8 sv2JobId.toNat ∧ c.jobidMap.lookup jobId = some sv2JobId
  small : c.jobidMap.length ≤ 32

/-! ## The map of a client -/

def entry (id : UInt32) : Str × UInt32 := (hexPadded 8 id.toNat, id)

def jobs (c : Client) : EvictingMap Str UInt32 := ⟨c.jobidMap, c.jobidOrder⟩

theorem jobs_withJobId (c : Client) (id : UInt32) :
    jobs (c.withJobId (hexPadded 8 id.toNat) id) = (jobs c).insert 32 (entry id) := by
  unfold jobs Client.withJobId EvictingMap.insert entry
  dsimp only

/-- The jobs of a step, the latest first, go into the map, and are broadcast. -/
structure Announces (c : Client) (ids : List UInt32) (r : Client × List Output) : Prop where
  jobs : jobs r.1 = ids.foldr (fun id m => m.insert 32 (entry id)) (jobs c)
  told : (jobsTold r.2).map ProxyNotify.jobId = ids.map fun id => (entry id).1

section
variable {log : Log} {c : Client} {i : Input}

theorem announces_rebuild {job : ExtJob} {prev : PrevHash} (clean : Bool)
    (hjob : c.job = some job) (hprev : c.prev = some prev) :
    Announces c [job.sv2JobId] (rebuildAndBroadcast c clean) := by
  unfold rebuildAndBroadcast
  rw [hjob, hprev]
  exact ⟨jobs_withJobId _ _, rfl⟩

/-- What a rebuild does not store. -/
theorem rebuild_rest (c : Client) (clean : Bool) :
    (rebuildAndBroadcast c clean).1.job = c.job ∧ (rebuildAndBroadcast c clean).1.prev = c.prev := by
  unfold rebuildAndBroadcast
  split <;> exact ⟨rfl, rfl⟩

theorem announces_none {r : Client × List Output} (hjobs : jobs r.1 = jobs c)
    (houts : jobsTold r.2 = []) : Announces c [] r :=
  ⟨hjobs, congrArg (List.map ProxyNotify.jobId) houts⟩

/-! ## Steps that announce nothing -/

theorem jobs_teardown (c : Client) : jobs (teardown c).1 = jobs c := by
  unfold teardown
  split <;> rfl

theorem jobs_submit (c : Client) (s : UpstreamSubmit) (cb : Option Nat) :
    jobs (submit c s cb).1 = jobs c := by
  unfold submit
  split
  · split
    · rfl
    · split <;> rfl
  · rfl

theorem jobs_runPosted (c : Client) (p : Posted) : jobs (runPosted c p).1 = jobs c := by
  unfold runPosted
  split <;> rfl

theorem jobs_handleFrame {msg : Reply} (h : ¬ Carries msg) :
    jobs (handleFrame c msg).1 = jobs c := by
  cases msg with
  | newExtendedMiningJob => exact absurd trivial h
  | setNewPrevHash => exact absurd trivial h
  | setupConnectionError => exact jobs_teardown c
  | openMiningChannelError => exact jobs_teardown c
  | openExtendedSuccess ok =>
    unfold handleFrame
    dsimp only
    split <;> rfl
  | submitSharesSuccess =>
    unfold handleFrame onSubmitResult
    dsimp only
    split <;> rfl
  | submitSharesError =>
    unfold handleFrame onSubmitResult
    dsimp only
    split <;> rfl
  | _ => rfl

theorem jobs_plain {r : Client × List Output} (h : Plain i) (hr : react c i = some r) :
    jobs r.1 = jobs c := by
  cases i with
  | received msg =>
    obtain rfl := Option.some.inj hr
    exact jobs_handleFrame h
  | established => exact h.elim
  | currentJob => exact h.elim
  | teardown =>
    obtain rfl := Option.some.inj hr
    exact jobs_teardown c
  | connect =>
    obtain rfl := Option.some.inj hr
    unfold connect
    split <;> rfl
  | submit s cb =>
    obtain rfl := Option.some.inj hr
    unfold submitNumbered
    split
    · exact jobs_submit { c with callbacks := c.callbacks + 1 } s _
    · exact jobs_submit c s none
  | runPosted =>
    unfold react at hr
    dsimp only at hr
    split at hr
    · obtain rfl := Option.some.inj hr
      rfl
    · obtain rfl := Option.some.inj hr
      exact jobs_runPosted _ _
  | attach sink =>
    obtain ⟨r', hr', rfl⟩ := Option.map_eq_some_iff.mp hr
    unfold attach at hr'
    split at hr'
    · obtain rfl := Option.some.inj hr'
      rfl
    · obtain ⟨slotHex, -, rfl⟩ := Option.map_eq_some_iff.mp hr'
      rfl
  | _ =>
    obtain rfl := Option.some.inj hr
    rfl

/-! ## Runs -/

/-- What a client has made of the messages. -/
structure Follows (log : Log) (c : Client) : Prop where
  job : c.job = (newestJob (messages log)).map extJobOf
  prev : c.prev = (newestPrev (messages log)).map prevHashOf
  jobs : jobs c = EvictingMap.ofHistory 32 ((announced (messages log)).map entry)
  told : toldIds log = (announced (messages log)).map fun id => (entry id).1

theorem toldIds_cons (i : Input) (outs : List Output) (log : Log) :
    toldIds ((i, outs) :: log) = (jobsTold outs).map ProxyNotify.jobId ++ toldIds log := by
  unfold toldIds
  rw [List.flatMap_cons, List.map_append]

theorem ofHistory_append (ids old : List UInt32) :
    EvictingMap.ofHistory 32 ((ids ++ old).map entry) =
      ids.foldr (fun id m => m.insert 32 (entry id))
        (EvictingMap.ofHistory 32 (old.map entry)) := by
  induction ids with
  | nil => rfl
  | cons id ids ih => exact congrArg (EvictingMap.insert 32 · (entry id)) ih

/-- A step, the jobs of which are known. -/
theorem Follows.of_announces (h : Follows log c) {ids : List UInt32}
    {r : Client × List Output} (hids : Announces c ids r)
    (hmsgs : announced (messages ((i, r.2) :: log)) = ids ++ announced (messages log))
    (hjob : r.1.job = (newestJob (messages ((i, r.2) :: log))).map extJobOf)
    (hprev : r.1.prev = (newestPrev (messages ((i, r.2) :: log))).map prevHashOf) :
    Follows ((i, r.2) :: log) r.1 := by
  refine ⟨hjob, hprev, ?_, ?_⟩
  · rw [hids.jobs, h.jobs, hmsgs, ofHistory_append]
  · rw [toldIds_cons, hids.told, h.told, hmsgs, List.map_append]

theorem Follows.extendedJob (h : Follows log c) (j : NewExtendedMiningJob) :
    Follows ((.received (.newExtendedMiningJob j), (onExtendedJob c j).2) :: log)
      (onExtendedJob c j).1 := by
  let c' := { c with job := some (extJobOf j), statJobs := c.statJobs + 1 }
  have hprev : c.prev.isSome = (newestPrev (messages log)).isSome := by
    rw [h.prev, Option.isSome_map]
  by_cases hnow : j.minNtime.isSome ∧ (newestPrev (messages log)).isSome
  · have heq : onExtendedJob c j = rebuildAndBroadcast c' false :=
      if_pos (by rw [hprev, hnow.1, hnow.2]; rfl)
    obtain ⟨prev, hp⟩ := Option.isSome_iff_exists.mp (hprev.trans hnow.2)
    obtain ⟨hjob', hprev'⟩ := rebuild_rest c' false
    have hids : Announces c [j.jobId] (rebuildAndBroadcast c' false) :=
      let hr := announces_rebuild (c := c') false rfl hp
      ⟨hr.jobs, hr.told⟩
    rw [heq]
    exact h.of_announces hids (if_pos hnow) hjob' (hprev'.trans h.prev)
  · have heq : onExtendedJob c j = (c', []) := if_neg (by rw [hprev]; simpa using hnow)
    rw [heq]
    exact h.of_announces (r := (c', [])) (announces_none rfl rfl) (if_neg hnow) rfl h.prev

theorem Follows.prevHash (h : Follows log c) (ph : SetNewPrevHash) :
    Follows ((.received (.setNewPrevHash ph), (onSetPrevHash c ph).2) :: log)
      (onSetPrevHash c ph).1 := by
  let c' := { c with prev := some (prevHashOf ph) }
  cases hnewest : newestJob (messages log) with
  | none =>
    have hnone : c.job = none := by rw [h.job, hnewest]; rfl
    have heq : onSetPrevHash c ph = (c', []) := if_neg (by simp [hnone])
    have hmsgs : announced (.setNewPrevHash ph :: messages log) =
        [] ++ announced (messages log) := by
      rw [announced, hnewest]
      rfl
    rw [heq]
    exact h.of_announces (r := (c', [])) (announces_none rfl rfl) hmsgs h.job rfl
  | some j =>
    have hjob : c.job = some (extJobOf j) := by rw [h.job, hnewest]; rfl
    have heq : onSetPrevHash c ph = rebuildAndBroadcast c' true := if_pos (by simp [hjob])
    obtain ⟨hjob', hprev'⟩ := rebuild_rest c' true
    have hids : Announces c [j.jobId] (rebuildAndBroadcast c' true) :=
      let hr := announces_rebuild (c := c') true hjob rfl
      ⟨hr.jobs, hr.told⟩
    have hmsgs : announced (.setNewPrevHash ph :: messages log) =
        [j.jobId] ++ announced (messages log) := by
      rw [announced, hnewest]
      rfl
    rw [heq]
    exact h.of_announces hids hmsgs (hjob'.trans h.job) hprev'

theorem Follows.quiet (h : Follows log c) {r : Client × List Output} (hq : Quiet c i r)
    (hjobs : Sv2JobIds.jobs r.1 = Sv2JobIds.jobs c)
    (hmsgs : announced (messages ((i, r.2) :: log)) = announced (messages log))
    (hjob : newestJob (messages ((i, r.2) :: log)) = newestJob (messages log))
    (hprev : newestPrev (messages ((i, r.2) :: log)) = newestPrev (messages log)) :
    Follows ((i, r.2) :: log) r.1 := by
  refine h.of_announces (announces_none hjobs hq.told) hmsgs ?_ ?_
  · rw [hq.job, h.job, hjob]
  · rw [hq.prev, h.prev, hprev]

theorem Follows.after (h : Follows log c) {r : Client × List Output} (hr : react c i = some r) :
    Follows ((i, r.2) :: log) r.1 := by
  cases i with
  | received msg =>
    obtain rfl := Option.some.inj hr
    by_cases hmsg : Carries msg
    · cases msg with
      | newExtendedMiningJob j => exact h.extendedJob j
      | setNewPrevHash ph => exact h.prevHash ph
      | _ => exact hmsg.elim
    · obtain ⟨hjob, hprev⟩ := newest_of_not_carries hmsg (messages log)
      refine h.quiet (quiet_handleFrame hmsg) (jobs_handleFrame hmsg) ?_ hjob hprev
      cases msg <;> first | exact absurd trivial hmsg | rfl
  | established =>
    obtain rfl := Option.some.inj hr
    exact h.of_announces (r := established c) (announces_none rfl rfl) rfl h.job h.prev
  | currentJob =>
    obtain rfl := Option.some.inj hr
    exact h.of_announces (r := (c, [.currentJob c.curNotify])) (announces_none rfl rfl) rfl
      h.job h.prev
  | _ =>
    refine h.quiet (quiet_of_plain trivial hr) (jobs_plain ?_ hr) rfl rfl rfl
    trivial

theorem follows_of_run {ok : Log → Client → Input → Prop} (run : Run ok log c) :
    Follows log c := by
  induction run with
  | init user n => exact ⟨rfl, rfl, rfl, rfl⟩
  | step run _ _ hs ih => exact ih.after hs

/-! ## What a share finds -/

theorem entry_injective : Function.Injective fun id : UInt32 => (entry id).1 :=
  fun _ _ h => hexPadded_inj h

theorem lookup_entries {id : UInt32} {ids : List UInt32} (h : id ∈ ids) :
    (ids.map entry).lookup (entry id).1 = some id := by
  induction ids with
  | nil => cases h
  | cons other ids ih =>
    by_cases hid : id = other
    · subst hid
      exact List.lookup_cons_self
    · have hne : ((entry id).1 == (entry other).1) = false :=
        beq_false_of_ne (entry_injective.ne hid)
      rw [List.map_cons]
      show List.lookup (entry id).1 (((entry other).1, other) :: ids.map entry) = some id
      rw [List.lookup_cons, hne]
      exact ih ((List.mem_cons.mp h).resolve_left hid)

/-- A job that was announced finds its SV2 job exactly where no announcement of it
was dropped since its latest. -/
theorem Follows.lookup_iff (h : Follows log c) {id : UInt32}
    (hid : id ∈ announced (messages log)) :
    c.jobidMap.lookup (entry id).1 = some id ↔
      id ∉ EvictingMap.removedSince 32 (announced (messages log)) id := by
  have hkeys : ((announced (messages log)).map entry).map Prod.fst =
      (announced (messages log)).map fun id => (entry id).1 := List.map_map
  have hmem : (entry id).1 ∈ ((announced (messages log)).map entry).map Prod.fst := by
    rw [hkeys]
    exact List.mem_map_of_mem hid
  have hmap : c.jobidMap =
      (EvictingMap.ofHistory 32 ((announced (messages log)).map entry)).map :=
    congrArg EvictingMap.map h.jobs
  rw [hmap, ← lookup_entries hid, EvictingMap.lookup_eq_iff hmem, hkeys,
    EvictingMap.mem_removedSince_map entry_injective]

theorem Follows.small (h : Follows log c) : c.jobidMap.length ≤ 32 := by
  have hle : (Sv2JobIds.jobs c).map.length ≤ 32 := h.jobs ▸ EvictingMap.length_map_le _
  exact hle

theorem Follows.kept_iff (h : Follows log c) :
    Submittable log c ↔ ∀ id ∈ (announced (messages log)).take 32,
      id ∉ EvictingMap.removedSince 32 (announced (messages log)) id := by
  have htold : (toldIds log).take 32 =
      ((announced (messages log)).take 32).map fun id => (entry id).1 := by
    rw [h.told, List.map_take]
  constructor
  · intro hs id hid
    obtain ⟨sv2JobId, htext, hlookup⟩ :=
      hs.known (entry id).1 (htold ▸ List.mem_map_of_mem hid)
    obtain rfl : id = sv2JobId := hexPadded_inj htext
    exact (h.lookup_iff (List.mem_of_mem_take hid)).mp hlookup
  · refine fun hkept => ⟨fun jobId hjobId => ?_, h.small⟩
    rw [htold] at hjobId
    obtain ⟨id, hid, rfl⟩ := List.mem_map.mp hjobId
    exact ⟨id, rfl, (h.lookup_iff (List.mem_of_mem_take hid)).mpr (hkept id hid)⟩

/-- **Exactly when the recent jobs can be submitted.** No job of the last 32
announcements was also announced where the announcements since its latest one
dropped it: from the 33rd announcement back to as many more as have followed. -/
theorem submittable_iff {log : Log} {c : Client} (run : Run (fun _ _ _ => True) log c) :
    Submittable log c ↔ ∀ id ∈ (announced (messages log)).take 32,
      id ∉ EvictingMap.removedSince 32 (announced (messages log)) id :=
  (follows_of_run run).kept_iff

end

/-! ## Announcing a job again -/

theorem submittable_iff_two :
    ∃ log c, announced (messages log) = [2, 1] ∧ Run (fun _ _ _ => True) log c ∧
      Submittable log c := by
  obtain ⟨log, c, hrun, htwo⟩ := exists_run 2
    (channelOpens 8 ++ [sampleJob 1 none, samplePrev 1, sampleJob 2 (some 9)])
    (fun log _ => decide (announced (messages log) = [2, 1])) (by decide +kernel)
  have htwo : announced (messages log) = [2, 1] := of_decide_eq_true htwo
  refine ⟨log, c, htwo, hrun, (submittable_iff hrun).mpr ?_⟩
  rw [htwo]
  exact fun _ _ => List.not_mem_nil

/-- **The job that is mined on is thrown out.** It is announced with 33 previous
hashes: the last announcement drops the first. -/
theorem current_job_dropped :
    ∃ log c, announced (messages log) = List.replicate 33 1 ∧ Run (fun _ _ _ => True) log c ∧
      ¬ Submittable log c := by
  obtain ⟨log, c, hrun, hall⟩ := exists_run 2
    (channelOpens 8 ++ sampleJob 1 none :: List.replicate 33 (samplePrev 1))
    (fun log _ => decide (announced (messages log) = List.replicate 33 1)) (by decide +kernel)
  have hall : announced (messages log) = List.replicate 33 1 := of_decide_eq_true hall
  refine ⟨log, c, hall, hrun, fun hsub => ?_⟩
  have hkept := (follows_of_run hrun).kept_iff.mp hsub 1
  rw [hall] at hkept
  exact hkept (by decide +kernel) (by decide +kernel)

end MkPool.Sv2JobIds
