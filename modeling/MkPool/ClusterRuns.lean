import MkPool.EdgeMoves

/-! # The runs of an edge and its origin -/
namespace MkPool.ClusterRuns
open MkPool.Utils MkPool.ClusterProtocol MkPool.ClusterNet MkPool.ClusterMiner
open MkPool.OriginMoves MkPool.EdgeMoves

/-! ## A step of the net -/

section

variable {R : Rules} {cid : Nat} {st : State} {l : Link}

/-- What a step does keeps to the rules. -/
structure Obeys (R : Rules) (st : State) (e : Event) : Prop where
  discards : ∀ f rest cid, e = .runTrunk → st.tasks = .send f :: rest →
    (st.trunk.welcomed && st.trunk.conn) = false → 100000 ≤ st.trunk.pendingOut.length →
    about cid f = true → R.discards (st.trunk.pendingOut.filter (about cid)) f
  strands : ∀ rest, e = .runTrunk → st.tasks = .closed :: rest →
    R.strands ∨ ∀ cid, st.trunk.sessions cid = true → (st.sessions cid).posting = none ∧
      ∀ ip, .send (.openMiner cid ip) ∉ rest
  overflows : ∀ l cid line rest c, e = .originReads → st.link = some l →
    l.toOrigin = .data cid line :: rest → l.ingest.helloOk = true → l.ingest.clients cid = some c →
    c.connected = false → 64 ≤ c.pending.length → R.overflows

/-- What the trunk's strand runs. -/
theorem move_runTrunk {cfg : ClusterTrunk.Config} {t : TrunkTask} {rest : List TrunkTask}
    (hwf : Wf st) (hobeys : Obeys R st .runTrunk) (htasks : st.tasks = t :: rest) :
    Move R cid (miner st cid) (miner (State.run cfg { st with tasks := rest } t) cid) := by
  cases t with
  | opened => exact move_opened htasks
  | frame f => exact move_frame hwf htasks
  | closed => exact move_closed htasks ((hobeys.strands rest rfl htasks).imp_right fun h => h cid)
  | send f =>
    exact move_send hwf htasks fun hidle hfull => hobeys.discards f rest cid rfl htasks hidle hfull

theorem clientLine_eq {c : Nat} {line : Str} {fs : List Frame} (hc : c ≠ 0)
    (h : ClusterTrunk.clientLine c line = some fs) : fs = [.data c line] := by
  rw [ClusterTrunk.clientLine, if_neg hc] at h
  obtain ⟨_, _, rfl⟩ := Option.map_eq_some_iff.mp h
  rfl

/-- A step of the net is a move of each session. -/
theorem miner_step {cfg : Config} {e : Event} {st' : State} (hwf : Wf st) (hobeys : Obeys R st e)
    (h : step cfg st e = some st') (cid : Nat) : Move R cid (miner st cid) (miner st' cid) := by
  cases e with
  | accept ip =>
    obtain ⟨_, _, rfl⟩ := Option.map_eq_some_iff.mp h
    exact move_accept hwf ip
  | post c =>
    obtain ⟨f, hposting, rfl⟩ := Option.map_eq_some_iff.mp h
    rw [miner_post hwf hposting]
    exact .stay _
  | readLine c l =>
    obtain ⟨hready, h⟩ := Option.ite_none_right_eq_some.mp h
    obtain ⟨fs, hline, rfl⟩ := Option.map_eq_some_iff.mp h
    have hready := (Bool.and_eq_true_iff.mp hready).1
    have hc : c ≠ 0 := by
      rintro rfl
      simp [State.ready, State.born] at hready
    rw [clientLine_eq hc hline]
    exact move_readLine hready
  | hangUp c =>
    obtain ⟨hready, h⟩ := Option.ite_none_right_eq_some.mp h
    obtain rfl := Option.some.inj h
    exact move_hangUp hready
  | writeLine c =>
    simp only [step] at h
    split at h
    · cases h
    · next m rest hout =>
      obtain ⟨-, h⟩ := Option.ite_none_left_eq_some.mp h
      obtain rfl := Option.some.inj h
      exact move_writeLine hout
  | connect =>
    obtain ⟨hconn, h⟩ := Option.ite_none_left_eq_some.mp h
    obtain rfl := Option.some.inj h
    rw [miner_connect hwf (by simpa using hconn)]
    exact .stay _
  | linkUp =>
    obtain ⟨l, hlink, h⟩ := Option.bind_eq_some_iff.mp h
    obtain ⟨hup, h⟩ := Option.ite_none_left_eq_some.mp h
    obtain rfl := Option.some.inj h
    have hopen : l.closed = false := (by simpa using hup : l.up = false ∧ l.closed = false).2
    rw [miner_linkUp hlink hopen]
    exact .stay _
  | linkDown =>
    obtain ⟨l, hlink, h⟩ := Option.bind_eq_some_iff.mp h
    obtain ⟨hopen, h⟩ := Option.ite_none_left_eq_some.mp h
    obtain rfl := Option.some.inj h
    exact move_closeLink_any st
  | runTrunk =>
    simp only [step] at h
    split at h
    · cases h
    · next t rest htasks =>
      obtain rfl := Option.some.inj h
      exact move_runTrunk hwf hobeys htasks
  | originReads =>
    obtain ⟨l, hlink, h⟩ := Option.bind_eq_some_iff.mp h
    obtain ⟨hup, h⟩ := Option.ite_none_left_eq_some.mp h
    have hingest : l.ingest.closed = false :=
      (by simpa using hup : l.up = true ∧ l.ingest.closed = false).2
    split at h
    · cases h
    · next f rest hout =>
      obtain rfl := Option.some.inj h
      refine move_originReads hwf hlink hingest hout ?_
      rintro line c rfl hhello hclient hconn hroom
      exact hobeys.overflows l cid line rest c rfl hlink hout hhello hclient hconn hroom
  | runOrigin =>
    obtain ⟨l, hlink, h⟩ := Option.bind_eq_some_iff.mp h
    split at h
    · cases h
    · next t rest htasks =>
      obtain rfl := Option.some.inj h
      have hkept := run_kept { l with tasks := rest } t
      exact move_link hlink hkept.1 hkept.2 (remote_run htasks)
  | originDown =>
    obtain ⟨l, hlink, rfl⟩ := Option.map_eq_some_iff.mp h
    exact move_originDown hlink
  | edgeReads =>
    obtain ⟨l, hlink, h⟩ := Option.bind_eq_some_iff.mp h
    obtain ⟨hup, h⟩ := Option.ite_none_left_eq_some.mp h
    have hopen : l.closed = false := (by simpa using hup : l.up = true ∧ l.closed = false).2
    split at h
    · cases h
    · next f rest hin =>
      obtain rfl := Option.some.inj h
      rw [miner_edgeReads hlink hopen hin]
      exact .stay _
  | loopUp c =>
    obtain ⟨l, hlink, h⟩ := Option.bind_eq_some_iff.mp h
    obtain ⟨lp, -, h⟩ := Option.bind_eq_some_iff.mp h
    obtain ⟨-, h⟩ := Option.ite_none_left_eq_some.mp h
    obtain rfl := Option.some.inj h
    exact move_link hlink rfl rfl (remote_loopUp l c cid _)
  | loopDown c =>
    obtain ⟨l, hlink, h⟩ := Option.bind_eq_some_iff.mp h
    obtain ⟨lp, -, h⟩ := Option.bind_eq_some_iff.mp h
    obtain ⟨-, h⟩ := Option.ite_none_left_eq_some.mp h
    obtain rfl := Option.some.inj h
    have hkept := act_kept l (.closeConn c)
    exact move_link hlink hkept.1 hkept.2 (remote_loopDown l c cid _)
  | loopReads c line =>
    obtain ⟨l, hlink, h⟩ := Option.bind_eq_some_iff.mp h
    obtain ⟨lp, hloop, h⟩ := Option.bind_eq_some_iff.mp h
    obtain ⟨_, -, h⟩ := Option.bind_eq_some_iff.mp h
    obtain ⟨-, h⟩ := Option.ite_none_left_eq_some.mp h
    obtain rfl := Option.some.inj h
    obtain ⟨hlp, hopen⟩ := Option.filter_eq_some_iff.mp hloop
    have hingest : l.ingest.closed = false := by
      by_contra hclosed
      have hended := (hwf.linked l hlink).ended (by simpa using hclosed) c lp hlp
      simp [hended] at hopen
    exact move_link hlink rfl rfl (remote_loopReads hloop hingest)
  | loopWrites c =>
    obtain ⟨l, hlink, h⟩ := Option.bind_eq_some_iff.mp h
    obtain ⟨lp, hloop, h⟩ := Option.bind_eq_some_iff.mp h
    split at h
    · cases h
    · next m rest hout =>
      obtain rfl := Option.some.inj h
      exact move_link hlink rfl rfl (remote_loopWrites hloop hout)

end

/-! ## Runs -/

/-- Nothing is held for a session that is not there. -/
theorem move_unborn {R : Rules} {cid : Nat} {v : Miner} (h : Move R cid {} v) (hborn : v.born = false) :
    v = {} := by
  cases h with
  | stay => rfl
  | attach ip => cases hborn
  | line l hborn' => cases hborn'
  | hangUp hborn' => cases hborn'
  | write hout => cases hout
  | lose hup hback =>
    rw [List.suffix_nil.mp hup, List.prefix_nil.mp hback]
  | forget hup hback =>
    rw [List.suffix_nil.mp hup, List.prefix_nil.mp hback]
  | skip hup => rw [List.suffix_nil.mp hup]
  | discard hup => simp at hup
  | delivered hback => cases hback
  | dismissed hback => cases hback
  | ignored hback => cases hback
  | consume hup => cases hup
  | refuse hup hback =>
    rw [List.suffix_nil.mp hup, List.prefix_nil.mp hback]
    rfl
  | remote hmove =>
    cases hmove with
    | stay => rfl
    | shut hback =>
      rw [List.prefix_nil.mp hback]
      rfl
    | connected hclient => cases hclient
    | gone hclient => cases hclient
    | loopUp hloop => cases hloop
    | loopDown hloop => cases hloop
    | loopReads hloop => cases hloop
    | loopWrites hloop => cases hloop

variable {w : Bool}

/-- What the edge does to a connection leaves its other end alone. -/
structure SameOrigin (l l' : Link) : Prop where
  ingest : l'.ingest = l.ingest
  loops : l'.loops = l.loops
  tasks : l'.tasks = l.tasks
  up : l.up = true → l'.up = true
  sent : l'.toOrigin ⊆ l.toOrigin

theorem SameOrigin.sound {l l' : Link} (h : SameOrigin l l') (hl : LinkSound w l) : LinkSound w l' := by
  refine ⟨?_, fun hup => ?_, fun hw => ⟨fun f hf => (hl.fresh hw).quiet f (h.sent hf), ?_⟩⟩
  · rw [h.ingest, h.loops]
    exact hl.ended
  · rw [h.loops, h.tasks]
    refine hl.idle ?_
    by_contra hne
    rw [h.up (by simpa using hne)] at hup
    cases hup
  · rw [h.ingest]
    exact (hl.fresh hw).clients

theorem linkSound_new : LinkSound w {} where
  ended := Bool.noConfusion
  idle _ := ⟨fun _ => rfl, rfl⟩
  fresh _ := ⟨fun _ h => absurd h List.not_mem_nil, fun _ => rfl⟩

/-- What an action of the trunk keeps. -/
structure ActKept (w : Bool) (st st' : State) : Prop where
  trunk : st'.trunk = st.trunk
  posting : ∀ c, (st'.sessions c).posting = (st.sessions c).posting
  linked : (∀ l, st.link = some l → LinkSound w l) → ∀ l, st'.link = some l → LinkSound w l

/-- A trunk that is not welcomed sends no frame of a session. -/
def Silent (w : Bool) (a : ClusterTrunk.Action) : Prop :=
  w = false → ∀ f, a = .send f → ∀ c, about c f = false

theorem act_kept_trunk (st : State) {a : ClusterTrunk.Action} (hsilent : Silent w a) :
    ActKept w st (st.act a) := by
  cases a with
  | closeConn =>
    rw [State.act, State.closeLink]
    cases hlink : st.link with
    | none => exact ⟨rfl, fun _ => rfl, fun _ _ h => by rw [hlink] at h; cases h⟩
    | some l =>
      dsimp only
      split
      · exact ⟨rfl, fun _ => rfl, fun hl l' h => hl l' h⟩
      · refine ⟨rfl, fun _ => rfl, fun hl l' h => ?_⟩
        obtain rfl := Option.some.inj h
        exact SameOrigin.sound (l := l) ⟨rfl, rfl, rfl, id, List.Subset.refl _⟩ (hl l hlink)
  | send f =>
    refine ⟨rfl, fun _ => rfl, fun hl l' h => ?_⟩
    obtain ⟨l, hlink, rfl⟩ := Option.map_eq_some_iff.mp h
    split
    · exact hl l hlink
    · have hsound := hl l hlink
      refine ⟨hsound.ended, hsound.idle, fun hw => ⟨fun g hg => ?_, (hsound.fresh hw).clients⟩⟩
      rcases List.mem_append.mp hg with hg | hg
      · exact (hsound.fresh hw).quiet g hg
      · obtain rfl := List.mem_singleton.mp hg
        exact hsilent hw g rfl
  | start =>
    refine ⟨rfl, fun _ => rfl, fun _ l' h => ?_⟩
    obtain rfl := Option.some.inj h
    exact linkSound_new
  | deliver c line =>
    refine ⟨rfl, fun c' => ?_, fun hl => hl⟩
    by_cases hc : c' = c
    · subst hc
      simp [State.act, State.setSession]
    · simp [State.act, State.setSession, hc]
  | _ => exact ⟨rfl, fun _ => rfl, fun hl => hl⟩

theorem act_linked (st : State) {a : ClusterTrunk.Action} (h : a ≠ .start) :
    (st.act a).link.isSome = st.link.isSome := by
  cases a with
  | closeConn =>
    rw [State.act, State.closeLink]
    cases hlink : st.link with
    | none => rw [hlink]
    | some l =>
      dsimp only
      split
      · rw [hlink]
      · rfl
  | send f => simp [State.act]
  | start => exact absurd rfl h
  | _ => rfl

theorem handle_kept_trunk (st : State) {r : ClusterTrunk.Result} (hsilent : ∀ a ∈ r.2, Silent w a) :
    ActKept w { st with trunk := r.1 } (st.handle r) := by
  have hfold (actions : List ClusterTrunk.Action) (st : State) (hsilent : ∀ a ∈ actions, Silent w a) :
      ActKept w st (actions.foldl State.act st) := by
    induction actions generalizing st with
    | nil => exact ⟨rfl, fun _ => rfl, fun hl => hl⟩
    | cons a actions ih =>
      have hact := act_kept_trunk st (hsilent a List.mem_cons_self)
      have hrest := ih (st.act a) fun a ha => hsilent a (List.mem_cons_of_mem _ ha)
      exact ⟨hrest.trunk.trans hact.trunk, fun c => (hrest.posting c).trans (hact.posting c),
        fun hl => hrest.linked (hact.linked hl)⟩
  exact hfold r.2 _ hsilent

theorem handle_linked (st : State) {r : ClusterTrunk.Result} (h : .start ∉ r.2) :
    (st.handle r).link.isSome = st.link.isSome := by
  have hfold (actions : List ClusterTrunk.Action) (st : State) (h : .start ∉ actions) :
      (actions.foldl State.act st).link.isSome = st.link.isSome := by
    induction actions generalizing st with
    | nil => rfl
    | cons a actions ih =>
      obtain ⟨ha, hrest⟩ := not_or.mp (mt List.mem_cons.mpr h)
      exact (ih _ hrest).trans (act_linked st (Ne.symm ha))
  exact hfold r.2 _ h

/-- What the strand's functions do to the trunk itself. -/
structure TrunkStep (t : ClusterTrunk.State) (r : ClusterTrunk.Result) : Prop where
  flushed : (t.welcomed = true → t.conn = true → t.pendingOut = []) →
    r.1.welcomed = true → r.1.conn = true → r.1.pendingOut = []
  conn : r.1.conn = t.conn
  nextCid : r.1.nextCid = t.nextCid
  started : .start ∉ r.2
  welcomed : r.1.welcomed = false → t.welcomed = false
  silent : ∀ a ∈ r.2, Silent r.1.welcomed a

theorem silent_of (w : Bool) {actions : List ClusterTrunk.Action} (h : ∀ f, .send f ∉ actions) :
    ∀ a ∈ actions, Silent w a :=
  fun _ ha _ f hf => absurd (hf ▸ ha) (h f)

theorem trunkStep_frame (t : ClusterTrunk.State) (f : Frame) :
    TrunkStep t (ClusterTrunk.onFrame t f) := by
  have hkeep {actions : List ClusterTrunk.Action} (h : .start ∉ actions)
      (hsilent : ∀ a ∈ actions, Silent t.welcomed a) : TrunkStep t (t, actions) :=
    ⟨fun hflushed => hflushed, rfl, rfl, h, id, hsilent⟩
  cases f with
  | welcome =>
    refine ⟨fun _ _ _ => rfl, rfl, rfl, ?_, fun h => Bool.noConfusion h,
      fun _ _ h => Bool.noConfusion h⟩
    simp only [ClusterTrunk.onFrame, ClusterTrunk.onWelcome]
    split <;> simp
  | bye msg => exact hkeep (by split <;> simp) (silent_of _ (by split <;> simp))
  | data c line => exact hkeep (by split <;> simp) (silent_of _ (by split <;> simp))
  | close c =>
    refine ⟨fun hflushed => hflushed, rfl, rfl, ?_, id, silent_of _ ?_⟩
    all_goals
      simp only [ClusterTrunk.onFrame, ClusterTrunk.onCloseFrame]
      split <;> simp
  | ping =>
    refine hkeep (by split <;> simp) fun a ha _ f hf c => ?_
    subst hf
    split at ha
    · obtain rfl : f = .pong := by simpa using ha
      rfl
    · cases ha
  | _ => exact hkeep (by simp) (silent_of _ (by simp))

theorem trunkStep_send (t : ClusterTrunk.State) (f : Frame) :
    TrunkStep t (ClusterTrunk.sendFrame t f) := by
  unfold ClusterTrunk.sendFrame
  split_ifs with hsend
  · have hwelcomed := (Bool.and_eq_true_iff.mp hsend).1
    refine ⟨fun hflushed => hflushed, rfl, rfl, by simp, id, fun _ _ hw => ?_⟩
    rw [show t.welcomed = false from hw] at hwelcomed
    cases hwelcomed
  · refine ⟨fun _ hwelcomed hconn => absurd ?_ hsend, rfl, rfl, by simp, id, silent_of _ (by simp)⟩
    rw [Bool.and_eq_true]
    exact ⟨hwelcomed, hconn⟩
  · exact ⟨fun hflushed => hflushed, rfl, rfl, by simp, id, silent_of _ (by simp)⟩

theorem sound_same {st st' : State} (h : Sound st) (htrunk : st'.trunk = st.trunk)
    (hlink : st'.link.isSome = st.link.isSome)
    (hposting : ∀ c, (st'.sessions c).posting = (st.sessions c).posting)
    (hlinked : ∀ l, st'.link = some l → LinkSound st.trunk.welcomed l) :
    Sound st' ∧ st.trunk.nextCid ≤ st'.trunk.nextCid := by
  refine ⟨⟨?_, ?_, ?_, ?_, by rwa [htrunk]⟩, by rw [htrunk]⟩
  · rw [htrunk]
    exact h.flushed
  · rw [htrunk, hlink]
    exact h.conn
  · intro c f hf
    exact h.posting c f ((hposting c).symm.trans hf)
  · rw [htrunk]
    exact h.counted

theorem posting_setSession (st : State) (c : Nat) {f : Session → Session}
    (hf : ∀ s, (f s).posting = s.posting) (c' : Nat) :
    ((st.setSession c f).sessions c').posting = (st.sessions c').posting := by
  by_cases hc : c' = c
  · subst hc
    simp [State.setSession, hf]
  · simp [State.setSession, hc]

/-- A session's posting is about itself alone. -/
theorem sound_setPosting {st st' : State} {c : Nat} (h : Sound st)
    (hflushed : st'.trunk.welcomed = st.trunk.welcomed ∧ st'.trunk.conn = st.trunk.conn ∧
      st'.trunk.pendingOut = st.trunk.pendingOut)
    (hlink : st'.link = st.link) (hcount : st.trunk.nextCid ≤ st'.trunk.nextCid)
    (hothers : ∀ c', c' ≠ c → st'.sessions c' = st.sessions c')
    (hself : ∀ f, (st'.sessions c).posting = some f →
      f = .close c ∨ ∃ ip, f = .openMiner c ip) :
    Sound st' ∧ st.trunk.nextCid ≤ st'.trunk.nextCid := by
  obtain ⟨hwelcomed, hconn, hpending⟩ := hflushed
  refine ⟨⟨?_, ?_, ?_, lt_of_lt_of_le h.counted hcount, ?_⟩, hcount⟩
  · rw [hwelcomed, hconn, hpending]
    exact h.flushed
  · rw [hconn, hlink]
    exact h.conn
  · intro c' f hf
    by_cases hc : c' = c
    · subst hc
      rcases hself f hf with rfl | ⟨ip, rfl⟩
      all_goals
        refine ⟨by simp [about], fun c'' hne => ?_⟩
        simp [about, Ne.symm hne]
    · rw [hothers c' hc] at hf
      exact h.posting c' f hf
  · rw [hlink, hwelcomed]
    exact h.linked

/-- A connection that is welcomed need not be fresh. -/
theorem linkSound_weaken {l : Link} {w' : Bool} (h : LinkSound w l) (hw : w' = false → w = false) :
    LinkSound w' l :=
  ⟨h.ended, h.idle, fun h' => h.fresh (hw h')⟩

theorem TrunkStep.sound {st : State} {r : ClusterTrunk.Result} {rest : List TrunkTask}
    (hr : TrunkStep st.trunk r) (h : Sound st) :
    Sound (State.handle { st with tasks := rest } r) ∧
      st.trunk.nextCid ≤ (State.handle { st with tasks := rest } r).trunk.nextCid := by
  obtain ⟨htrunk, hposting, hlinked⟩ := handle_kept_trunk { st with tasks := rest } hr.silent
  refine ⟨⟨?_, ?_, ?_, ?_, ?_⟩, ?_⟩
  · rw [htrunk]
    exact hr.flushed h.flushed
  · rw [htrunk, handle_linked _ hr.started]
    exact hr.conn.trans h.conn
  · intro c f hf
    exact h.posting c f ((hposting c).symm.trans hf)
  · rw [htrunk]
    exact lt_of_lt_of_eq h.counted hr.nextCid.symm
  · rw [htrunk]
    exact hlinked fun l hl => linkSound_weaken (h.linked l hl) hr.welcomed
  · rw [htrunk]
    exact le_of_eq hr.nextCid.symm

theorem sound_runTrunk {cfg : ClusterTrunk.Config} {st : State} {t : TrunkTask}
    {rest : List TrunkTask} (h : Sound st) :
    Sound (State.run cfg { st with tasks := rest } t) ∧
      st.trunk.nextCid ≤ (State.run cfg { st with tasks := rest } t).trunk.nextCid := by
  cases t with
  | opened =>
    refine TrunkStep.sound ⟨fun hflushed => hflushed, rfl, rfl, ?_, id, fun a ha _ f hf c => ?_⟩ h
    · simp only [ClusterTrunk.onOpen]
      split <;> simp
    · subst hf
      simp only [ClusterTrunk.onOpen] at ha
      split at ha
      · rw [ClusterTrunk.Action.send.inj (List.mem_singleton.mp ha)]
        rfl
      · cases ha
  | frame f => exact (trunkStep_frame st.trunk f).sound h
  | closed =>
    refine ⟨⟨fun _ _ => rfl, rfl, ?_, h.counted, fun l hl => ?_⟩, le_refl _⟩
    · intro c f hf
      exact h.posting c f hf
    · cases hl
  | send f => exact (trunkStep_send st.trunk f).sound h

/-! What the origin does to its end of the connection. -/

theorem linkSound_setLoop {l : Link} (h : LinkSound w l) {c : Nat} {f : Loopback → Loopback}
    (hf : ∀ lp, lp.closed = true → (f lp).closed = true) : LinkSound w (l.setLoop c f) := by
  refine ⟨fun hclosed c' lp hlp => ?_, fun hup => ⟨fun c' => ?_, (h.idle hup).2⟩,
    fun hw => ⟨(h.fresh hw).quiet, (h.fresh hw).clients⟩⟩
  · by_cases hc : c' = c
    · subst hc
      simp only [Link.setLoop, Function.update_self] at hlp
      obtain ⟨lp₀, hlp₀, rfl⟩ := Option.map_eq_some_iff.mp hlp
      exact hf lp₀ (h.ended hclosed c' lp₀ hlp₀)
    · simp only [Link.setLoop, Function.update_of_ne hc] at hlp
      exact h.ended hclosed c' lp hlp
  · have hnone := (h.idle hup).1
    by_cases hc : c' = c
    · subst hc
      simp [Link.setLoop, hnone]
    · simp [Link.setLoop, hc, hnone]

/-- What is posted to the session comes over a connection that was up. -/
theorem linkSound_post {l : Link} (h : LinkSound w l) {tasks : List IngestTask} (hup : l.up = true) :
    LinkSound w { l with tasks } :=
  ⟨h.ended, fun hdown => (by rw [hup] at hdown; cases hdown),
    fun hw => ⟨(h.fresh hw).quiet, (h.fresh hw).clients⟩⟩

theorem act_up (l : Link) (a : ClusterIngest.Action) :
    (l.act a).up = l.up ∧ (l.act a).ingest = l.ingest := by
  cases a with
  | closeConn c =>
    rw [Link.act, Link.closeLoop]
    split
    · exact ⟨rfl, rfl⟩
    · split <;> exact ⟨rfl, rfl⟩
  | _ => exact ⟨rfl, rfl⟩

theorem handle_up (l : Link) (r : ClusterIngest.Result) : (l.handle r).up = l.up := by
  have hfold (actions : List ClusterIngest.Action) (l : Link) : (actions.foldl Link.act l).up = l.up := by
    induction actions generalizing l with
    | nil => rfl
    | cons a actions ih => exact (ih _).trans (act_up l a).1
  exact hfold r.2 _

theorem run_up (l : Link) (t : IngestTask) : (l.run t).up = l.up := by
  cases t with
  | write f =>
    rw [Link.run]
    split <;> rfl
  | connected c => exact handle_up l _
  | loopClosed c => exact handle_up l _

/-- An action on an open connection, or one that starts nothing. -/
theorem linkSound_act {l : Link} (h : LinkSound w l) (hup : l.up = true) {a : ClusterIngest.Action}
    (hstart : ∀ c, a = .start c → l.ingest.closed = false) : LinkSound w (l.act a) := by
  cases a with
  | sendLine f => exact linkSound_post h hup
  | registerNode => exact h
  | start c =>
    refine ⟨fun hclosed => ?_, fun hdown => ?_, fun hw => ⟨(h.fresh hw).quiet, (h.fresh hw).clients⟩⟩
    · rw [show (l.act (.start c)).ingest = l.ingest from rfl, hstart c rfl] at hclosed
      cases hclosed
    · rw [show (l.act (.start c)).up = l.up from rfl, hup] at hdown
      cases hdown
  | send c line =>
    refine linkSound_setLoop h fun lp hlp => ?_
    rw [Loopback.send, if_pos hlp]
    exact hlp
  | closeConn c =>
    rw [Link.act, Link.closeLoop]
    split
    · exact h
    · split
      · exact h
      · have hloop : LinkSound w (l.setLoop c Loopback.close) := linkSound_setLoop h fun _ _ => rfl
        exact linkSound_post hloop hup
  | closeAll =>
    refine ⟨fun _ c lp hlp => ?_, fun hdown => ?_,
      fun hw => ⟨(h.fresh hw).quiet, (h.fresh hw).clients⟩⟩
    · obtain ⟨lp₀, -, rfl⟩ := Option.map_eq_some_iff.mp hlp
      rfl
    · rw [show (l.act .closeAll).up = l.up from rfl, hup] at hdown
      cases hdown

theorem linkSound_acts {l : Link} (h : LinkSound w l) (hup : l.up = true)
    {actions : List ClusterIngest.Action}
    (hstart : ∀ c, .start c ∈ actions → l.ingest.closed = false) :
    LinkSound w (actions.foldl Link.act l) := by
  induction actions generalizing l with
  | nil => exact h
  | cons a actions ih =>
    obtain ⟨hup', hingest⟩ := act_up l a
    refine ih (linkSound_act h hup fun c ha => hstart c (ha ▸ List.mem_cons_self)) (hup'.trans hup)
      fun c hc => ?_
    rw [hingest]
    exact hstart c (List.mem_cons_of_mem _ hc)

theorem linkSound_close {l : Link} (h : LinkSound w l) : LinkSound w (l.handle l.ingest.close) := by
  unfold ClusterIngest.State.close
  split
  · exact h
  · refine ⟨fun _ c lp hlp => ?_, fun hdown => ⟨fun c => ?_, (h.idle hdown).2⟩,
      fun hw => ⟨(h.fresh hw).quiet, fun _ => rfl⟩⟩
    · obtain ⟨lp₀, -, rfl⟩ := Option.map_eq_some_iff.mp hlp
      rfl
    · exact Option.map_eq_none_iff.mpr ((h.idle hdown).1 c)

/-- What does not close the session. -/
theorem linkSound_handle {l : Link} (h : LinkSound w l) (hup : l.up = true)
    {r : ClusterIngest.Result} (hclosed : r.1.closed = l.ingest.closed)
    (hclients : w = false → Fresh l → ∀ c, r.1.clients c = none)
    (hstart : ∀ c, .start c ∈ r.2 → l.ingest.closed = false) : LinkSound w (l.handle r) := by
  have hnew : LinkSound w { l with ingest := r.1 } :=
    ⟨fun hc => h.ended (hclosed.symm.trans hc), h.idle,
      fun hw => ⟨(h.fresh hw).quiet, hclients hw (h.fresh hw)⟩⟩
  refine linkSound_acts hnew hup fun c hc => ?_
  exact hclosed.trans (hstart c hc)

theorem up_of_task {l : Link} (h : LinkSound w l) {t : IngestTask} {rest : List IngestTask}
    (htasks : l.tasks = t :: rest) : l.up = true := by
  by_contra hup
  rw [(h.idle (by simpa using hup)).2] at htasks
  cases htasks

theorem up_of_loop {l : Link} (h : LinkSound w l) {c : Nat} {lp : Loopback}
    (hloop : l.loops c = some lp) : l.up = true := by
  by_contra hup
  rw [(h.idle (by simpa using hup)).1 c] at hloop
  cases hloop

theorem linkSound_run {l : Link} (h : LinkSound w l) (hup : l.up = true) {t : IngestTask} :
    LinkSound w (l.run t) := by
  cases t with
  | write f =>
    rw [Link.run]
    split
    · exact h
    · exact SameOrigin.sound (l := l) ⟨rfl, rfl, rfl, id, List.Subset.refl _⟩ h
  | connected c =>
    refine linkSound_handle h hup ?_ (fun _ hfresh c' => ?_) ?_
    · unfold ClusterIngest.loopbackConnected
      split <;> rfl
    · rw [ClusterIngest.loopbackConnected, hfresh.clients c]
      exact hfresh.clients c'
    · unfold ClusterIngest.loopbackConnected
      split <;> simp
  | loopClosed c =>
    refine linkSound_handle h hup ?_ (fun _ hfresh c' => ?_) ?_
    · unfold ClusterIngest.closeClient
      split <;> rfl
    · rw [ClusterIngest.closeClient, hfresh.clients c]
      exact hfresh.clients c'
    · unfold ClusterIngest.closeClient
      split
      · simp
      · split <;> simp

/-- The session reads a frame. -/
theorem linkSound_read {cfg : ClusterIngest.Config} {l : Link} (h : LinkSound w l) (hup : l.up = true)
    (hopen : l.ingest.closed = false) {f : Frame} (hquiet : w = false → ∀ c, about c f = false) :
    LinkSound w (l.handle (ClusterIngest.handleFrame cfg l.ingest f)) := by
  have hkept {r : ClusterIngest.Result} (hr : r.1.closed = l.ingest.closed)
      (hclients : w = false → Fresh l → ∀ c, r.1.clients c = none) : LinkSound w (l.handle r) :=
    linkSound_handle h hup hr hclients fun _ _ => hopen
  by_cases hhello : l.ingest.helloOk = true
  · have hframe : ClusterIngest.handleFrame cfg l.ingest f = ClusterIngest.onFrame l.ingest f := by
      unfold ClusterIngest.handleFrame
      exact if_neg (by simp [hhello])
    rw [hframe]
    cases f with
    | openMiner c ip =>
      refine hkept ?_ fun hw => absurd (hquiet hw c) (by simp [about])
      rw [ClusterIngest.onFrame, ClusterIngest.openClient]
      split
      · rfl
      · split <;> rfl
    | data c line =>
      refine hkept ?_ fun hw => absurd (hquiet hw c) (by simp [about])
      rw [ClusterIngest.onFrame, ClusterIngest.clientData]
      split
      · rfl
      · split
        · rfl
        · split_ifs <;> rfl
    | close c =>
      refine hkept ?_ fun hw => absurd (hquiet hw c) (by simp [about])
      rw [ClusterIngest.onFrame, ClusterIngest.closeClient]
      split
      · rfl
      · split <;> rfl
    | _ => exact hkept rfl fun _ hfresh => hfresh.clients
  · rcases greets_or_rejects cfg l.ingest f (by simpa using hhello) with ⟨msg, hmsg⟩ | ⟨-, hmsg⟩
    · rw [hmsg]
      have hclose := linkSound_close (l := { l with tasks := l.tasks ++ [.write (.bye msg)] })
        (linkSound_post h hup)
      rw [ClusterIngest.State.close, if_neg (by simp [hopen])] at hclose
      rw [ClusterIngest.State.reject, ClusterIngest.State.close, if_neg (by simp [hopen])]
      exact hclose
    · obtain ⟨ingest, actions, heq, hclients, hclosed, -⟩ := hmsg
      rw [heq]
      exact hkept (r := (ingest, actions)) hclosed fun _ hfresh c => by
        rw [hclients]
        exact hfresh.clients c

/-- What a step keeps of the trunk. -/
theorem sound_step {cfg : Config} {st st' : State} {e : Event} (hwf : Sound st)
    (h : step cfg st e = some st') : Sound st' ∧ st.trunk.nextCid ≤ st'.trunk.nextCid := by
  have hlinked {l l' : Link} (hlink : st.link = some l) {tasks : List TrunkTask}
      (hsound : LinkSound st.trunk.welcomed l → LinkSound st.trunk.welcomed l') :
      Sound { st with link := some l', tasks } ∧ st.trunk.nextCid ≤ st.trunk.nextCid := by
    refine sound_same hwf rfl (by rw [hlink]; rfl) (fun _ => rfl) fun l hl => ?_
    obtain rfl := Option.some.inj hl
    exact hsound (hwf.linked _ hlink)
  cases e with
  | accept ip =>
    obtain ⟨_, _, rfl⟩ := Option.map_eq_some_iff.mp h
    refine sound_setPosting hwf (c := st.trunk.nextCid) ⟨rfl, rfl, rfl⟩ rfl (Nat.le_succ _)
      (fun c hc => Function.update_of_ne hc _ _) fun f hf => ?_
    simp only [State.setSession, Function.update_self] at hf
    exact Or.inr ⟨ip, (Option.some.inj hf).symm⟩
  | post c =>
    obtain ⟨f, hposting, rfl⟩ := Option.map_eq_some_iff.mp h
    refine sound_setPosting hwf (c := c) ⟨rfl, rfl, rfl⟩ rfl (le_refl _)
      (fun c' hc => Function.update_of_ne hc _ _) fun f hf => ?_
    simp [State.setSession] at hf
  | readLine c l =>
    obtain ⟨-, h⟩ := Option.ite_none_right_eq_some.mp h
    obtain ⟨fs, -, rfl⟩ := Option.map_eq_some_iff.mp h
    have hposting := posting_setSession st c
      (f := fun s => { s with read := s.read ++ [l] }) fun _ => rfl
    exact sound_same hwf rfl rfl hposting hwf.linked
  | hangUp c =>
    obtain ⟨-, h⟩ := Option.ite_none_right_eq_some.mp h
    obtain rfl := Option.some.inj h
    refine sound_setPosting hwf (c := c) ⟨rfl, rfl, rfl⟩ rfl (le_refl _)
      (fun c' hc => Function.update_of_ne hc _ _) fun f hf => ?_
    simp only [State.setSession, Function.update_self] at hf
    obtain ⟨-, hf⟩ := Option.ite_none_right_eq_some.mp hf
    exact Or.inl (Option.some.inj hf).symm
  | writeLine c =>
    simp only [step] at h
    split at h
    · cases h
    · obtain ⟨-, h⟩ := Option.ite_none_left_eq_some.mp h
      obtain rfl := Option.some.inj h
      exact sound_same hwf rfl rfl (posting_setSession st c fun _ => rfl) hwf.linked
  | connect =>
    obtain ⟨-, h⟩ := Option.ite_none_left_eq_some.mp h
    obtain rfl := Option.some.inj h
    refine ⟨⟨fun hwelcomed => ?_, rfl, hwf.posting, hwf.counted, fun l hl => ?_⟩, le_refl _⟩
    · cases hwelcomed
    · obtain rfl := Option.some.inj hl
      exact linkSound_new
  | linkUp =>
    obtain ⟨l, hlink, h⟩ := Option.bind_eq_some_iff.mp h
    obtain ⟨-, h⟩ := Option.ite_none_left_eq_some.mp h
    obtain rfl := Option.some.inj h
    exact hlinked hlink (SameOrigin.sound ⟨rfl, rfl, rfl, fun _ => rfl, List.Subset.refl _⟩)
  | linkDown =>
    obtain ⟨l, hlink, h⟩ := Option.bind_eq_some_iff.mp h
    obtain ⟨-, h⟩ := Option.ite_none_left_eq_some.mp h
    obtain rfl := Option.some.inj h
    obtain ⟨htrunk, hposting, hkept⟩ := act_kept_trunk (w := st.trunk.welcomed) st (a := .closeConn)
      fun _ _ h => by cases h
    exact sound_same hwf htrunk (act_linked st (a := .closeConn) (by simp)) hposting (hkept hwf.linked)
  | runTrunk =>
    simp only [step] at h
    split at h
    · cases h
    · obtain rfl := Option.some.inj h
      exact sound_runTrunk hwf
  | originReads =>
    obtain ⟨l, hlink, h⟩ := Option.bind_eq_some_iff.mp h
    obtain ⟨hup, h⟩ := Option.ite_none_left_eq_some.mp h
    obtain ⟨hup, hopen⟩ : l.up = true ∧ l.ingest.closed = false := by simpa using hup
    split at h
    · cases h
    · next f rest hout =>
      obtain rfl := Option.some.inj h
      refine hlinked hlink fun hl => ?_
      have hrest : LinkSound st.trunk.welcomed { l with toOrigin := rest } := by
        refine SameOrigin.sound (l := l) ⟨rfl, rfl, rfl, id, ?_⟩ hl
        rw [hout]
        exact List.subset_cons_self f rest
      refine linkSound_read hrest hup hopen fun hw c => (hl.fresh hw).quiet f ?_ c
      rw [hout]
      exact List.mem_cons_self
  | runOrigin =>
    obtain ⟨l, hlink, h⟩ := Option.bind_eq_some_iff.mp h
    split at h
    · cases h
    · next t rest htasks =>
      obtain rfl := Option.some.inj h
      refine hlinked hlink fun hl => ?_
      have hup := up_of_task hl htasks
      have hrest : LinkSound st.trunk.welcomed { l with tasks := rest } := linkSound_post hl hup
      exact linkSound_run hrest hup
  | originDown =>
    obtain ⟨l, hlink, rfl⟩ := Option.map_eq_some_iff.mp h
    exact hlinked hlink linkSound_close
  | edgeReads =>
    obtain ⟨l, hlink, h⟩ := Option.bind_eq_some_iff.mp h
    obtain ⟨-, h⟩ := Option.ite_none_left_eq_some.mp h
    split at h
    · cases h
    · obtain rfl := Option.some.inj h
      exact hlinked hlink (SameOrigin.sound ⟨rfl, rfl, rfl, id, List.Subset.refl _⟩)
  | loopUp c =>
    obtain ⟨l, hlink, h⟩ := Option.bind_eq_some_iff.mp h
    obtain ⟨lp, hloop, h⟩ := Option.bind_eq_some_iff.mp h
    obtain ⟨-, h⟩ := Option.ite_none_left_eq_some.mp h
    obtain rfl := Option.some.inj h
    refine hlinked hlink fun hl => ?_
    have hloops : LinkSound st.trunk.welcomed (l.setLoop c fun lp => { lp with up := true }) :=
      linkSound_setLoop hl fun _ h => h
    have hup := up_of_loop hl hloop
    exact linkSound_post hloops hup
  | loopDown c =>
    obtain ⟨l, hlink, h⟩ := Option.bind_eq_some_iff.mp h
    obtain ⟨lp, hloop, h⟩ := Option.bind_eq_some_iff.mp h
    obtain ⟨-, h⟩ := Option.ite_none_left_eq_some.mp h
    obtain rfl := Option.some.inj h
    refine hlinked hlink fun hl => ?_
    exact linkSound_act hl (up_of_loop hl hloop) (a := .closeConn c) fun _ h => by cases h
  | loopReads c line =>
    obtain ⟨l, hlink, h⟩ := Option.bind_eq_some_iff.mp h
    obtain ⟨lp, hloop, h⟩ := Option.bind_eq_some_iff.mp h
    obtain ⟨_, -, h⟩ := Option.bind_eq_some_iff.mp h
    obtain ⟨-, h⟩ := Option.ite_none_left_eq_some.mp h
    obtain rfl := Option.some.inj h
    refine hlinked hlink fun hl => ?_
    have hup := up_of_loop hl (Option.filter_eq_some_iff.mp hloop).1
    have hloops : LinkSound st.trunk.welcomed (l.setLoop c fun lp => { lp with read := lp.read ++ [line] }) :=
      linkSound_setLoop hl fun _ h => h
    exact linkSound_post hloops hup
  | loopWrites c =>
    obtain ⟨l, hlink, h⟩ := Option.bind_eq_some_iff.mp h
    obtain ⟨lp, hloop, h⟩ := Option.bind_eq_some_iff.mp h
    split at h
    · cases h
    · obtain rfl := Option.some.inj h
      exact hlinked hlink fun hl => linkSound_setLoop hl fun lp h => h

/-- No rule at all. -/
def anything : Rules := ⟨fun _ _ => True, True, True⟩

theorem obeys_anything (st : State) (e : Event) : Obeys anything st e :=
  ⟨fun _ _ _ _ _ _ _ _ => trivial, fun _ _ _ => Or.inl trivial, fun _ _ _ _ _ _ _ _ _ _ _ _ => trivial⟩

theorem wf_step {cfg : Config} {st st' : State} {e : Event} (hwf : Wf st)
    (h : step cfg st e = some st') : Wf st' := by
  obtain ⟨hsound, hcount⟩ := sound_step hwf.toSound h
  refine ⟨hsound, fun cid hborn => ?_⟩
  have hborn₀ : st.born cid = false := by
    simp only [State.born, Bool.and_eq_false_iff, decide_eq_false_iff_not] at hborn ⊢
    exact hborn.imp_right fun h hlt => h (lt_of_lt_of_le hlt hcount)
  have hmove := miner_step hwf (obeys_anything st e) h cid
  rw [hwf.unborn cid hborn₀] at hmove
  exact move_unborn hmove hborn

theorem wf_start : Wf {} := by
  refine ⟨⟨fun _ _ => rfl, rfl, fun _ _ h => ?_, Nat.one_pos, fun _ h => ?_⟩, fun cid hborn => ?_⟩
  · cases h
  · cases h
  · rw [miner, hborn]
    rfl

theorem wf_run {cfg : Config} {ok : State → Event → Prop} {st : State} (h : Run cfg ok st) :
    Wf st := by
  induction h with
  | start => exact wf_start
  | step _ _ h ih => exact wf_step ih h

/-- What every move of a session keeps, a run keeps. -/
theorem invariant_run {cfg : Config} {ok : State → Event → Prop} {R : Rules} {I : Miner → Prop}
    {cid : Nat} (hstart : I {}) (hobeys : ∀ st e, Wf st → ok st e → Obeys R st e)
    (hmove : ∀ v v', Move R cid v v' → I v → I v') {st : State} (h : Run cfg ok st) :
    I (miner st cid) := by
  induction h with
  | start =>
    have hborn : State.born {} cid = false := by
      simp only [State.born, Bool.and_eq_false_iff, decide_eq_false_iff_not]
      omega
    rw [wf_start.unborn cid hborn]
    exact hstart
  | step hrun hok h ih =>
    have hwf := wf_run hrun
    exact hmove _ _ (miner_step hwf (hobeys _ _ hwf hok) h cid) ih

/-! ## Runs that can be computed -/

/-- The state that events lead to, each under a condition. -/
def play (cfg : Config) (ok : State → Event → Bool) (st : State) : List Event → Option State
  | [] => some st
  | e :: es => if ok st e then (step cfg st e).bind fun st => play cfg ok st es else none

theorem run_play {cfg : Config} {ok : State → Event → Bool} {P : State → Event → Prop}
    (hok : ∀ st e, ok st e = true → P st e) {st st' : State} {es : List Event} (h : Run cfg P st)
    (hplay : play cfg ok st es = some st') : Run cfg P st' := by
  induction es generalizing st with
  | nil =>
    obtain rfl := Option.some.inj hplay
    exact h
  | cons e es ih =>
    rw [play] at hplay
    obtain ⟨he, hplay⟩ := Option.ite_none_right_eq_some.mp hplay
    obtain ⟨st₁, hstep, hplay⟩ := Option.bind_eq_some_iff.mp hplay
    exact ih (.step h (hok st e he) hstep) hplay

/-- What can be seen of the state events lead to. -/
theorem seen_play {cfg : Config} {ok : State → Event → Bool} {P : State → Event → Prop}
    (hok : ∀ st e, ok st e = true → P st e) {es : List Event} {see : State → Bool}
    (h : (play cfg ok {} es).any see = true) : ∃ st, Run cfg P st ∧ see st = true := by
  obtain ⟨st, hplay, hsee⟩ := (Option.any_eq_true _ _).mp h
  exact ⟨st, run_play hok .start hplay, hsee⟩

end MkPool.ClusterRuns
