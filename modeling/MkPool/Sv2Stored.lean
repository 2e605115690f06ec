import MkPool.Sv2Pairing

/-! # What an SV2 client keeps for its sessions

The jobs that the client stores and tells are made of the pool's messages, and
the text of a job's id stands for its number. The slots of the open channel fit
into its extranonce. -/
namespace MkPool.Sv2Stored
open MkPool.Utils MkPool.Sv2Messages
open MkPool.UpstreamSource MkPool.Sv2UpstreamClient MkPool.Sv2Pairing

/-! ## Jobs of the pool -/

def Got (log : Log) (msg : Reply) : Prop := ∃ outs, (.received msg, outs) ∈ log

/-- A notify is made of two messages of the pool. -/
structure MadeOf (log : Log) (n : ProxyNotify) (m : NewExtendedMiningJob) (ph : SetNewPrevHash) :
    Prop where
  job : Got log (.newExtendedMiningJob m)
  prev : Got log (.setNewPrevHash ph)
  notify : ∃ clean seq, n = buildNotify (extJobOf m) (prevHashOf ph) clean seq

section Jobs
variable {log log' : Log} {c : Client} {i : Sv2UpstreamClient.Input}

def Made (log : Log) (n : ProxyNotify) : Prop := ∃ m ph, MadeOf log n m ph

theorem Got.mono {msg : Reply} (h : Got log msg) (hlog : log ⊆ log') : Got log' msg := by
  obtain ⟨outs, h⟩ := h
  exact ⟨outs, hlog h⟩

theorem MadeOf.mono {n : ProxyNotify} {m : NewExtendedMiningJob} {ph : SetNewPrevHash}
    (h : MadeOf log n m ph) (hlog : log ⊆ log') : MadeOf log' n m ph :=
  ⟨h.job.mono hlog, h.prev.mono hlog, h.notify⟩

theorem Made.mono {n : ProxyNotify} (h : Made log n) (hlog : log ⊆ log') : Made log' n := by
  obtain ⟨m, ph, h⟩ := h
  exact ⟨m, ph, h.mono hlog⟩

theorem Got.cons {msg : Reply} (h : Got log msg) (e : Sv2UpstreamClient.Input × List Output) :
    Got (e :: log) msg :=
  h.mono (List.subset_cons_self e log)

theorem Made.cons {n : ProxyNotify} (h : Made log n)
    (e : Sv2UpstreamClient.Input × List Output) : Made (e :: log) n :=
  h.mono (List.subset_cons_self e log)

/-- What the client stores comes from the pool, and a job id is the text of the
number it stands for. -/
structure Works (log : Log) (c : Client) : Prop where
  job : ∀ j, c.job = some j → ∃ m, Got log (.newExtendedMiningJob m) ∧ j = extJobOf m
  prev : ∀ p, c.prev = some p → ∃ ph, Got log (.setNewPrevHash ph) ∧ p = prevHashOf ph
  notify : ∀ n, c.curNotify = some n → Made log n
  ids : ∀ e ∈ c.jobidMap, e.1 = hexPadded 8 e.2.toNat

/-- The call is of a job that was made, or moves nothing. -/
def CallMade (log : Log) : SinkEvent → Prop
  | .job n => Made log n
  | .diff _ | .state _ => True
  | .extranonce .. | .rebind .. => False

theorem CallMade.mono {ev : SinkEvent} (h : CallMade log ev) (hlog : log ⊆ log') :
    CallMade log' ev := by
  cases ev with
  | job n => exact Made.mono h hlog
  | _ => exact h

theorem Works.quiet (h : Works log c) {r : Client × List Output} (hq : Quiet c i r) :
    Works ((i, r.2) :: log) r.1 ∧
      ∀ sinks ev, .tell sinks ev ∈ r.2 → CallMade ((i, r.2) :: log) ev := by
  refine ⟨⟨fun j hj => ?_, fun p hp => ?_, fun n hn => ?_, ?_⟩, fun sinks ev hev => ?_⟩
  · obtain ⟨m, hm, heq⟩ := h.job j (hq.job ▸ hj)
    exact ⟨m, hm.cons _, heq⟩
  · obtain ⟨ph, hph, heq⟩ := h.prev p (hq.prev ▸ hp)
    exact ⟨ph, hph.cons _, heq⟩
  · exact (h.notify n (hq.notify ▸ hn)).cons _
  · rw [hq.map]
    exact h.ids
  · have hout := hq.outs _ hev
    cases ev with
    | diff | state => trivial
    | _ => cases hout

theorem ids_withJobId (h : ∀ e ∈ c.jobidMap, e.1 = hexPadded 8 e.2.toNat) (id : UInt32) :
    ∀ e ∈ (c.withJobId (hexPadded 8 id.toNat) id).jobidMap, e.1 = hexPadded 8 e.2.toNat := by
  intro e he
  rcases List.mem_cons.mp (List.mem_filter.mp he).1 with rfl | he
  · rfl
  · exact h e (List.mem_filter.mp he).1

theorem ids_rebuild (h : ∀ e ∈ c.jobidMap, e.1 = hexPadded 8 e.2.toNat) (clean : Bool) :
    ∀ e ∈ (rebuildAndBroadcast c clean).1.jobidMap, e.1 = hexPadded 8 e.2.toNat := by
  unfold rebuildAndBroadcast
  split
  · exact ids_withJobId h _
  · exact h

theorem ids_handleFrame (h : ∀ e ∈ c.jobidMap, e.1 = hexPadded 8 e.2.toNat) {msg : Reply}
    (hmsg : Carries msg) :
    ∀ e ∈ (handleFrame c msg).1.jobidMap, e.1 = hexPadded 8 e.2.toNat := by
  cases msg with
  | newExtendedMiningJob j =>
    unfold handleFrame onExtendedJob
    dsimp only
    split
    · refine ids_rebuild ?_ false
      exact h
    · exact h
  | setNewPrevHash ph =>
    unfold handleFrame onSetPrevHash
    dsimp only
    split
    · refine ids_rebuild ?_ true
      exact h
    · exact h
  | _ => exact hmsg.elim

/-- A job or a previous hash comes. -/
theorem Works.received (h : Works log c) {msg : Reply} (hmsg : Carries msg) :
    Works ((.received msg, (handleFrame c msg).2) :: log) (handleFrame c msg).1 ∧
      ∀ sinks ev, .tell sinks ev ∈ (handleFrame c msg).2 →
        CallMade ((.received msg, (handleFrame c msg).2) :: log) ev := by
  have hgot (outs : List Output) : Got ((.received msg, outs) :: log) msg :=
    ⟨outs, List.mem_cons_self ..⟩
  have hids := ids_handleFrame h.ids hmsg
  cases msg with
  | newExtendedMiningJob j =>
    have hframe : handleFrame c (.newExtendedMiningJob j) = onExtendedJob c j := rfl
    rw [hframe] at hids ⊢
    rcases onExtendedJob_cases c j with ⟨-, heq⟩ | ⟨prev, c', -, hprev, hj', hp', hn', heq⟩
    · rw [heq] at hids ⊢
      refine ⟨⟨fun x hx => ?_, fun p hp => ?_, fun n hn => (h.notify n hn).cons _, hids⟩,
        fun sinks ev hev => by cases hev⟩
      · exact ⟨j, hgot _, (Option.some.inj hx).symm⟩
      · obtain ⟨ph, hph, rfl⟩ := h.prev p hp
        exact ⟨ph, hph.cons _, rfl⟩
    · obtain ⟨ph, hph, rfl⟩ := h.prev prev hprev
      rw [heq] at hids ⊢
      have hmade (outs : List Output) : Made ((.received (.newExtendedMiningJob j), outs) :: log)
          (buildNotify (extJobOf j) (prevHashOf ph) false (c.notifySeq + 1)) :=
        ⟨j, ph, hgot _, hph.cons _, _, _, rfl⟩
      refine ⟨⟨fun x hx => ?_, fun x hx => ?_, fun n hn => ?_, hids⟩, fun sinks ev hev => ?_⟩
      · exact ⟨j, hgot _, Option.some.inj (hx.symm.trans hj')⟩
      · exact ⟨ph, hph.cons _, Option.some.inj (hx.symm.trans hp')⟩
      · obtain rfl := Option.some.inj (hn.symm.trans hn')
        exact hmade _
      · obtain ⟨-, rfl⟩ := Output.tell.inj (List.mem_singleton.mp hev)
        exact hmade _
  | setNewPrevHash ph =>
    have hframe : handleFrame c (.setNewPrevHash ph) = onSetPrevHash c ph := rfl
    rw [hframe] at hids ⊢
    rcases onSetPrevHash_cases c ph with ⟨hnone, heq⟩ | ⟨job, c', hjob, hj', hp', hn', heq⟩
    · rw [heq] at hids ⊢
      refine ⟨⟨fun j hj => ?_, fun x hx => ?_, fun n hn => (h.notify n hn).cons _, hids⟩,
        fun sinks ev hev => by cases hev⟩
      · have hj : c.job = some j := hj
        rw [hnone] at hj
        cases hj
      · exact ⟨ph, hgot _, (Option.some.inj hx).symm⟩
    · obtain ⟨m, hm, rfl⟩ := h.job job hjob
      rw [heq] at hids ⊢
      have hmade (outs : List Output) : Made ((.received (.setNewPrevHash ph), outs) :: log)
          (buildNotify (extJobOf m) (prevHashOf ph) true (c.notifySeq + 1)) :=
        ⟨m, ph, hm.cons _, hgot _, _, _, rfl⟩
      refine ⟨⟨fun x hx => ?_, fun x hx => ?_, fun n hn => ?_, hids⟩, fun sinks ev hev => ?_⟩
      · exact ⟨m, hm.cons _, Option.some.inj (hx.symm.trans hj')⟩
      · exact ⟨ph, hgot _, Option.some.inj (hx.symm.trans hp')⟩
      · obtain rfl := Option.some.inj (hn.symm.trans hn')
        exact hmade _
      · obtain ⟨-, rfl⟩ := Output.tell.inj (List.mem_singleton.mp hev)
        exact hmade _
  | _ => exact hmsg.elim

/-- **A step of the client.** What it stores and tells comes from the pool. -/
theorem Works.step (h : Works log c) {r : Client × List Output} (hr : react c i = some r) :
    Works ((i, r.2) :: log) r.1 ∧
      ∀ sinks ev, .tell sinks ev ∈ r.2 → CallMade ((i, r.2) :: log) ev := by
  cases i with
  | received msg =>
    obtain rfl := Option.some.inj hr
    by_cases hmsg : Carries msg
    · exact h.received hmsg
    · exact h.quiet (quiet_handleFrame hmsg)
  | established =>
    obtain rfl := Option.some.inj hr
    exact h.quiet ⟨rfl, rfl, rfl, rfl, by simp [established, workless]⟩
  | currentJob =>
    obtain rfl := Option.some.inj hr
    refine ⟨⟨fun j hj => ?_, fun p hp => ?_, fun n hn => (h.notify n hn).cons _, h.ids⟩, ?_⟩
    · obtain ⟨m, hm, heq⟩ := h.job j hj
      exact ⟨m, hm.cons _, heq⟩
    · obtain ⟨ph, hph, heq⟩ := h.prev p hp
      exact ⟨ph, hph.cons _, heq⟩
    · intro sinks ev hev
      cases List.mem_singleton.mp hev
  | _ => exact h.quiet (quiet_of_plain trivial hr)

end Jobs

/-! ## The channel and the shares -/

section Channel
variable {c c' : Client} {i : Sv2UpstreamClient.Input}

/-- The shares on the strand stay, and the channel does, or is closed. -/
structure Rests (c c' : Client) : Prop where
  posted : c'.posted = c.posted
  channel : c'.channelOk = true → c.channelOk = true ∧ c'.nonceBytes = c.nonceBytes ∧
    c'.extranonceSize = c.extranonceSize

/-- A slot of up to four bytes fits into the extranonce of the open channel. -/
def Sized (c : Client) : Prop :=
  c.channelOk = true → c.nonceBytes.toNat ≤ 4 → c.nonceBytes.toNat ≤ c.extranonceSize.toNat

theorem Sized.rests (h : Sized c) (hr : Rests c c') : Sized c' := by
  intro hok
  obtain ⟨hold, hnonce, hsize⟩ := hr.channel hok
  rw [hnonce, hsize]
  exact h hold

theorem Rests.refl (c : Client) : Rests c c := ⟨rfl, fun h => ⟨h, rfl, rfl⟩⟩

theorem rests_rebuild (c : Client) (clean : Bool) : Rests c (rebuildAndBroadcast c clean).1 := by
  unfold rebuildAndBroadcast
  split <;> exact ⟨rfl, fun h => ⟨h, rfl, rfl⟩⟩

theorem rests_teardown (c : Client) : Rests c (teardown c).1 := by
  unfold teardown
  split <;> exact ⟨rfl, fun h => by cases h⟩

theorem rests_onSubmitResult (c : Client) (seq : UInt32) (accepted : Bool) (err : Str) :
    Rests c (onSubmitResult c seq accepted err).1 := by
  unfold onSubmitResult
  split <;> exact ⟨rfl, fun h => ⟨h, rfl, rfl⟩⟩

/-- The message opens a channel. -/
def opensChannel : Reply → Bool
  | .openExtendedSuccess _ => true
  | _ => false

theorem rests_handleFrame {msg : Reply} (hmsg : opensChannel msg = false) :
    Rests c (handleFrame c msg).1 := by
  cases msg with
  | openExtendedSuccess ok => cases hmsg
  | setupConnectionError => exact rests_teardown c
  | openMiningChannelError => exact rests_teardown c
  | newExtendedMiningJob j =>
    have hr := rests_rebuild { c with job := some (extJobOf j), statJobs := c.statJobs + 1 } false
    unfold handleFrame onExtendedJob
    dsimp only
    split
    · exact ⟨hr.posted, hr.channel⟩
    · exact ⟨rfl, fun h => ⟨h, rfl, rfl⟩⟩
  | setNewPrevHash ph =>
    have hr := rests_rebuild { c with prev := some (prevHashOf ph) } true
    unfold handleFrame onSetPrevHash
    dsimp only
    split
    · exact ⟨hr.posted, hr.channel⟩
    · exact ⟨rfl, fun h => ⟨h, rfl, rfl⟩⟩
  | submitSharesSuccess => exact rests_onSubmitResult ..
  | submitSharesError => exact rests_onSubmitResult ..
  | _ => exact ⟨rfl, fun h => ⟨h, rfl, rfl⟩⟩

theorem narrowed_le {size : UInt16} (hsize : size.toNat ≤ 255) (h : (narrowed size).toNat ≤ 4) :
    (narrowed size).toNat ≤ size.toNat := by
  have hmax : (narrowed size).toNat = max 1 (size - 1).toUInt8.toNat := by
    unfold narrowed
    rw [UInt8.toNat_max]
    rfl
  have hsub : (size - 1).toUInt8.toNat = (size.toNat + 65535) % 65536 % 256 := by
    rw [UInt16.toNat_toUInt8, UInt16.toNat_sub]
    simp [Nat.add_comm]
  omega

/-- A channel is opened. -/
theorem opened_handleFrame (c : Client) (ok : OpenExtendedSuccess) (h : Sized c) :
    Sized (handleFrame c (.openExtendedSuccess ok)).1 ∧
      (handleFrame c (.openExtendedSuccess ok)).1.posted = c.posted := by
  unfold handleFrame
  dsimp only
  split
  · exact ⟨h, rfl⟩
  · refine ⟨fun _ hfour => ?_, rfl⟩
    show (if ok.extranonceSize.toNat ≤ c.nonceBytes.toNat then narrowed ok.extranonceSize
      else c.nonceBytes).toNat ≤ ok.extranonceSize.toNat
    have hfour : (if ok.extranonceSize.toNat ≤ c.nonceBytes.toNat then narrowed ok.extranonceSize
      else c.nonceBytes).toNat ≤ 4 := hfour
    have hbyte := c.nonceBytes.toNat_lt
    split at hfour
    · rename_i hle
      rw [if_pos hle]
      exact narrowed_le (by omega) hfour
    · rename_i hlt
      rw [if_neg hlt]
      omega

/-- The inputs that put no share on the strand and take none. -/
def carriesNone : Sv2UpstreamClient.Input → Bool
  | .submit .. | .runPosted => false
  | _ => true

/-- A step of the client that carries no share. -/
theorem Sized.step (h : Sized c) {r : Client × List Output} (hr : react c i = some r) :
    Sized r.1 ∧ (carriesNone i = true → r.1.posted = c.posted) := by
  have rests {c' : Client} (hrests : Rests c c') :
      Sized c' ∧ (carriesNone i = true → c'.posted = c.posted) :=
    ⟨h.rests hrests, fun _ => hrests.posted⟩
  cases i with
  | received msg =>
    obtain rfl := Option.some.inj hr
    cases hmsg : opensChannel msg with
    | false => exact rests (rests_handleFrame hmsg)
    | true =>
      cases msg with
      | openExtendedSuccess ok =>
        obtain ⟨hsized, hposted⟩ := opened_handleFrame c ok h
        exact ⟨hsized, fun _ => hposted⟩
      | _ => cases hmsg
  | teardown =>
    obtain rfl := Option.some.inj hr
    exact rests (rests_teardown c)
  | connect =>
    obtain rfl := Option.some.inj hr
    unfold connect
    split
    · exact rests ⟨rfl, fun h => by cases h⟩
    · exact rests (.refl c)
  | attach sink =>
    obtain ⟨r', hr', rfl⟩ := Option.map_eq_some_iff.mp hr
    unfold attach at hr'
    split at hr'
    · obtain rfl := Option.some.inj hr'
      exact rests (.refl c)
    · obtain ⟨slotHex, _, rfl⟩ := Option.map_eq_some_iff.mp hr'
      exact rests ⟨rfl, fun h => ⟨h, rfl, rfl⟩⟩
  | submit s cb =>
    obtain rfl := Option.some.inj hr
    refine ⟨?_, fun hnone => by cases hnone⟩
    have hsubmit (c : Client) (h : Sized c) (cb : Option Nat) : Sized (submit c s cb).1 := by
      unfold submit
      split
      · split
        · exact h
        · split <;> exact h
      · exact h
    unfold submitNumbered
    split
    · exact hsubmit { c with callbacks := c.callbacks + 1 } h _
    · exact hsubmit c h none
  | runPosted =>
    refine ⟨?_, fun hnone => by cases hnone⟩
    unfold react at hr
    dsimp only at hr
    split at hr
    · obtain rfl := Option.some.inj hr
      exact h
    · obtain rfl := Option.some.inj hr
      unfold runPosted
      split <;> exact h
  | _ =>
    obtain rfl := Option.some.inj hr
    exact rests ⟨rfl, fun h => ⟨h, rfl, rfl⟩⟩

end Channel

end MkPool.Sv2Stored
