import MkPool.OriginMoves

/-! # What the edge does to one miner

What the trunk's strand runs, what the sessions call, and the connection between. -/
namespace MkPool.EdgeMoves
open MkPool.Utils MkPool.ClusterProtocol MkPool.ClusterNet MkPool.ClusterMiner MkPool.OriginMoves

/-- No session has sent over the connection. -/
structure Fresh (l : Link) : Prop where
  quiet : ∀ f ∈ l.toOrigin, ∀ c, about c f = false
  clients : ∀ c, l.ingest.clients c = none

structure LinkSound (welcomed : Bool) (l : Link) : Prop where
  /-- A session that has closed has closed its loopback connections. -/
  ended : l.ingest.closed = true → ∀ c lp, l.loops c = some lp → lp.closed = true
  /-- Nothing is at the other end of a connection that was never up. -/
  idle : l.up = false → (∀ c, l.loops c = none) ∧ l.tasks = []
  fresh : welcomed = false → Fresh l

/-- What holds of the trunk and of what is about to be posted. -/
structure Sound (st : State) : Prop where
  flushed : st.trunk.welcomed = true → st.trunk.conn = true → st.trunk.pendingOut = []
  conn : st.trunk.conn = st.link.isSome
  posting : ∀ cid f, (st.sessions cid).posting = some f → about cid f = true ∧
    ∀ c, c ≠ cid → about c f = false
  counted : 0 < st.trunk.nextCid
  linked : ∀ l, st.link = some l → LinkSound st.trunk.welcomed l

/-- What holds of the net between two steps. -/
structure Wf (st : State) : Prop extends Sound st where
  unborn : ∀ cid, st.born cid = false → miner st cid = {}

section

variable {R : Rules} {cid : Nat} {st : State} {l : Link}

theorem suffix_append_right {α : Type*} {a b : List α} (h : a <:+ b) (c : List α) :
    a ++ c <:+ b ++ c := by
  obtain ⟨t, rfl⟩ := h
  exact ⟨t, (List.append_assoc t a c).symm⟩

theorem live_open (h : st.link = some l) (ho : l.closed = false) : live st = some l := by
  rw [live, h, Option.filter_some, if_pos (by simp [ho])]

theorem live_closed (h : st.link = some l) (hc : l.closed = true) : live st = none := by
  rw [live, h, Option.filter_some, if_neg (by simp [hc])]

theorem live_none (h : st.link = none) : live st = none := by
  rw [live, h]
  rfl

/-- A step of the origin. -/
theorem move_link {l' : Link} (hlink : st.link = some l) (hclosed : l'.closed = l.closed)
    (hwire : l'.toOrigin = l.toOrigin)
    (hmove : RemoteMove cid (linkRemote l cid (arrived st.tasks))
      (linkRemote l' cid (arrived st.tasks))) :
    Move R cid (miner st cid) (miner { st with link := some l' } cid) := by
  cases ho : l.closed
  · have hlive := live_open hlink ho
    have hlive' : live { st with link := some l' } = some l' := live_open rfl (hclosed.trans ho)
    have hremote : remote st cid = linkRemote l cid (arrived st.tasks) := by rw [remote, hlive]
    have hafter : miner { st with link := some l' } cid =
        { miner st cid with remote := linkRemote l' cid (arrived st.tasks) } := by
      simp only [miner, remote, wire, hlive, hlive', hwire]
      rfl
    rw [hafter]
    exact .remote (by rw [show (miner st cid).remote = remote st cid from rfl, hremote]; exact hmove)
  · have hlive := live_closed hlink ho
    have hlive' : live { st with link := some l' } = none := live_closed rfl (hclosed.trans ho)
    have hafter : miner { st with link := some l' } cid = miner st cid := by
      simp only [miner, remote, wire, hlive, hlive']
      rfl
    rw [hafter]
    exact .stay _

/-- Frames for the connection, which is live or takes nothing. -/
def transmit (st : State) (fs : List Frame) : State :=
  { st with link := st.link.map fun l =>
      if l.closed then l else { l with toOrigin := l.toOrigin ++ fs } }

theorem transmit_foldl (st : State) (fs : List Frame) :
    (fs.map ClusterTrunk.Action.send).foldl State.act st = transmit st fs := by
  induction fs generalizing st with
  | nil =>
    obtain ⟨trunk, tasks, sessions, link⟩ := st
    cases link <;> simp [transmit]
  | cons f fs ih =>
    rw [List.map_cons, List.foldl_cons, ih]
    cases h : st.link with
    | none => simp [transmit, State.act, h]
    | some l => cases hc : l.closed <;> simp [transmit, State.act, h, hc]

theorem live_transmit (st : State) (fs : List Frame) :
    live (transmit st fs) = (live st).map fun l => { l with toOrigin := l.toOrigin ++ fs } := by
  cases h : st.link with
  | none => simp [live, transmit, h]
  | some l => cases hc : l.closed <;> simp [live, transmit, h, hc, Option.filter_some]

theorem wire_transmit (st : State) (fs : List Frame) :
    wire (transmit st fs) = wire st ++ if (live st).isSome then fs else [] := by
  rw [wire, wire, live_transmit]
  cases live st <;> simp

theorem remote_transmit (st : State) (fs : List Frame) (cid : Nat) :
    remote (transmit st fs) cid = remote st cid := by
  rw [remote, remote, live_transmit]
  cases live st <;> rfl

theorem remote_dead (h : live st = none) :
    remote st cid = ⟨none, none, (arrived st.tasks).filter (about cid)⟩ := by
  rw [remote, h]

theorem back_arrived (st : State) (cid : Nat) :
    (arrived st.tasks).filter (about cid) <+: (remote st cid).back := by
  rw [remote]
  split
  · rw [linkRemote, List.filter_append]
    exact List.prefix_append _ _
  · exact List.prefix_refl _

/-- The connection is closed by the edge. -/
theorem move_closeLink (hlink : st.link = some l) (hopen : l.closed = false) :
    Move R cid (miner st cid) (miner st.closeLink cid) := by
  have hshape : st.closeLink =
      { st with link := some { l with closed := true }, tasks := st.tasks ++ [.closed] } := by
    rw [State.closeLink, hlink]
    exact if_neg (by simp [hopen])
  have hlive : live st.closeLink = none := by
    rw [hshape]
    exact live_closed rfl rfl
  have harrived : arrived st.closeLink.tasks = arrived st.tasks := by
    rw [hshape]
    simp [arrived]
  have hposted : posted st.closeLink.tasks = posted st.tasks := by
    rw [hshape]
    simp [posted]
  have hafter : miner st.closeLink cid = { miner st cid with
      up := (st.trunk.pendingOut ++ posted st.tasks).filter (about cid) ++
        (st.sessions cid).posting.toList
      remote := ⟨none, none, (arrived st.tasks).filter (about cid)⟩ } := by
    simp only [miner, remote_dead hlive, wire, hlive, harrived, hposted, List.nil_append]
    rw [hshape]
    rfl
  rw [hafter]
  refine .lose ?_ (back_arrived st cid)
  refine suffix_append_right (List.IsSuffix.filter _ ?_) _
  rw [List.append_assoc]
  exact List.suffix_append _ _

theorem move_closeLink_any (st : State) : Move R cid (miner st cid) (miner st.closeLink cid) := by
  cases hlink : st.link with
  | none =>
    have hsame : st.closeLink = st := by rw [State.closeLink, hlink]
    rw [hsame]
    exact .stay _
  | some l =>
    cases hopen : l.closed
    · exact move_closeLink hlink hopen
    · have hsame : st.closeLink = st := by
        rw [State.closeLink, hlink]
        exact if_pos hopen
      rw [hsame]
      exact .stay _

/-- What a session is for, where two states agree on it. -/
theorem miner_congr {st' : State} (hborn : st'.born cid = st.born cid)
    (htable : st'.trunk.sessions cid = st.trunk.sessions cid)
    (hsession : st'.sessions cid = st.sessions cid)
    (hup : (wire st' ++ st'.trunk.pendingOut ++ posted st'.tasks).filter (about cid) =
      (wire st ++ st.trunk.pendingOut ++ posted st.tasks).filter (about cid))
    (hremote : remote st' cid = remote st cid) : miner st' cid = miner st cid := by
  simp only [miner, hborn, htable, hsession, hup, hremote]

/-- The same, where the frames to the origin differ. -/
theorem miner_up {st' : State} (hborn : st'.born cid = st.born cid)
    (htable : st'.trunk.sessions cid = st.trunk.sessions cid)
    (hsession : st'.sessions cid = st.sessions cid)
    (hremote : remote st' cid = remote st cid) :
    miner st' cid = { miner st cid with
      up := (wire st' ++ st'.trunk.pendingOut ++ posted st'.tasks).filter (about cid) ++
        (st.sessions cid).posting.toList } := by
  simp only [miner, hborn, htable, hsession, hremote]

theorem remote_tasks (st : State) {tasks : List TrunkTask}
    (h : (arrived tasks).filter (about cid) = (arrived st.tasks).filter (about cid)) :
    remote { st with tasks } cid = remote st cid := by
  have hlive : live { st with tasks } = live st := rfl
  rw [remote, remote, hlive]
  cases live st with
  | none => simp only [h]
  | some l => simp only [linkRemote, List.filter_append, h]

/-- A frame that does not concern the session goes to the connection. -/
theorem miner_transmit {f : Frame} (hf : about cid f = false) (st : State) :
    miner (transmit st [f]) cid = miner st cid := by
  refine miner_congr rfl rfl rfl ?_ (remote_transmit st [f] cid)
  rw [wire_transmit]
  simp only [transmit, List.filter_append]
  split <;> simp [hf]

/-- A trunk that is not welcomed has sent nothing of a session. -/
theorem quiet_idle (hwf : Wf st) (hidle : (st.trunk.welcomed && st.trunk.conn) = false) (cid : Nat) :
    (wire st).filter (about cid) = [] ∧ (miner st cid).remote.client = none := by
  cases hlive : live st with
  | none =>
    rw [wire, hlive, show (miner st cid).remote = remote st cid from rfl, remote_dead hlive]
    exact ⟨rfl, rfl⟩
  | some l =>
    have hlink : st.link = some l := (Option.filter_eq_some_iff.mp hlive).1
    have hconn : st.trunk.conn = true := by
      rw [hwf.conn, hlink]
      rfl
    have hfresh := (hwf.linked l hlink).fresh (by simpa [hconn] using hidle)
    rw [wire, show (miner st cid).remote = remote st cid from rfl, remote, hlive]
    refine ⟨List.filter_eq_nil_iff.mpr fun f hf => ?_, hfresh.clients cid⟩
    rw [hfresh.quiet f hf cid]
    exact Bool.false_ne_true

/-- `send_frame` on the strand. -/
theorem move_send {cfg : ClusterTrunk.Config} {f : Frame} {rest : List TrunkTask} (hwf : Wf st)
    (htasks : st.tasks = .send f :: rest)
    (hfull : (st.trunk.welcomed && st.trunk.conn) = false → 100000 ≤ st.trunk.pendingOut.length →
      about cid f = true → R.discards (st.trunk.pendingOut.filter (about cid)) f) :
    Move R cid (miner st cid) (miner (State.run cfg { st with tasks := rest } (.send f)) cid) := by
  have harrived : remote { st with tasks := rest } cid = remote st cid :=
    remote_tasks st (by rw [htasks]; rfl)
  have hposted : posted st.tasks = f :: posted rest := by rw [htasks]; rfl
  rw [State.run, ClusterTrunk.sendFrame]
  split_ifs with hsend hroom
  · have hsend' : st.trunk.welcomed = true ∧ st.trunk.conn = true := Bool.and_eq_true_iff.mp hsend
    have hflushed := hwf.flushed hsend'.1 hsend'.2
    rw [show State.handle { st with tasks := rest } (st.trunk, [.send f]) =
      transmit { st with tasks := rest } [f] from rfl]
    have hremote : remote (transmit { st with tasks := rest } [f]) cid = remote st cid :=
      (remote_transmit _ _ _).trans harrived
    cases hlive : live st with
    | none =>
      have hafter := @miner_up cid st (transmit { st with tasks := rest } [f]) rfl rfl rfl hremote
      rw [hafter]
      have hwire : wire (transmit { st with tasks := rest } [f]) = [] := by
        rw [wire, live_transmit, show live { st with tasks := rest } = live st from rfl, hlive]
        rfl
      refine .skip ?_ ?_ ?_
      · rw [hwire, List.nil_append]
        simp only [miner]
        refine suffix_append_right (List.IsSuffix.filter _ ?_) _
        rw [hposted]
        simp only [transmit, hflushed, List.nil_append, List.append_nil]
        exact (List.suffix_cons _ _).trans (List.suffix_append _ _)
      · rw [show (miner st cid).remote = remote st cid from rfl, remote_dead hlive]
      · rw [show (miner st cid).remote = remote st cid from rfl, remote_dead hlive]
    | some l =>
      have hsame : miner (transmit { st with tasks := rest } [f]) cid = miner st cid := by
        refine miner_congr rfl rfl rfl ?_ hremote
        rw [wire_transmit, show live { st with tasks := rest } = live st from rfl, hlive, hposted,
          show wire { st with tasks := rest } = wire st from rfl]
        simp [transmit, hflushed]
      rw [hsame]
      exact .stay _
  · have hsame : miner (State.handle { st with tasks := rest }
        ({ st.trunk with pendingOut := st.trunk.pendingOut ++ [f] }, [])) cid = miner st cid := by
      refine miner_congr rfl rfl rfl ?_ harrived
      rw [hposted]
      simp [State.handle, wire, live]
    rw [hsame]
    exact .stay _
  · have hshape : State.handle { st with tasks := rest } (st.trunk, []) = { st with tasks := rest } := rfl
    rw [hshape]
    cases hf : about cid f
    · have hsame : miner { st with tasks := rest } cid = miner st cid := by
        refine miner_congr rfl rfl rfl ?_ harrived
        rw [hposted]
        simp [wire, live, hf]
      rw [hsame]
      exact .stay _
    · rw [@miner_up cid st { st with tasks := rest } rfl rfl rfl harrived]
      have hidle : (st.trunk.welcomed && st.trunk.conn) = false := by simpa using hsend
      obtain ⟨hwire, hclient⟩ := quiet_idle hwf hidle cid
      have hup : (miner st cid).up = st.trunk.pendingOut.filter (about cid) ++ f ::
          ((posted rest).filter (about cid) ++ (st.sessions cid).posting.toList) := by
        simp [miner, hposted, hf, hwire]
      have hmove : Move R cid (miner st cid) _ := .discard hup hclient hf
        (hfull hidle (Nat.le_of_not_lt hroom) hf)
      have hwire' : (wire { st with tasks := rest }).filter (about cid) = [] := hwire
      have hafter : (wire { st with tasks := rest } ++ st.trunk.pendingOut ++
          posted rest).filter (about cid) ++ (st.sessions cid).posting.toList =
          st.trunk.pendingOut.filter (about cid) ++
            ((posted rest).filter (about cid) ++ (st.sessions cid).posting.toList) := by
        simp [hwire']
      rw [← hafter] at hmove
      exact hmove

theorem miner_setSession_other {c : Nat} (hc : cid ≠ c) (st : State) (f : Session → Session) :
    miner (st.setSession c f) cid = miner st cid :=
  miner_congr rfl rfl (Function.update_of_ne hc _ _) rfl rfl

theorem miner_setSession (st : State) (cid : Nat) (f : Session → Session) :
    miner (st.setSession cid f) cid = { miner st cid with
      closed := (f (st.sessions cid)).closed
      read := (f (st.sessions cid)).read
      outbox := (f (st.sessions cid)).outbox
      written := (f (st.sessions cid)).written
      up := (wire st ++ st.trunk.pendingOut ++ posted st.tasks).filter (about cid) ++
        (f (st.sessions cid)).posting.toList } := by
  simp only [miner, State.setSession, Function.update_self]
  rfl

/-- The greeting is handled: what was kept goes to the connection. -/
theorem move_welcome {rest : List TrunkTask} (hwf : Wf st)
    (htasks : st.tasks = .frame .welcome :: rest) :
    Move R cid (miner st cid)
      (miner (State.handle { st with tasks := rest } (ClusterTrunk.onWelcome st.trunk)) cid) := by
  have harrived : remote { st with tasks := rest } cid = remote st cid :=
    remote_tasks st (by rw [htasks]; rfl)
  have hposted : posted st.tasks = posted rest := by rw [htasks]; rfl
  let st₁ : State :=
    { st with tasks := rest, trunk := { st.trunk with welcomed := true, pendingOut := [] } }
  have hshape : State.handle { st with tasks := rest } (ClusterTrunk.onWelcome st.trunk) =
      if st.trunk.conn then transmit st₁ st.trunk.pendingOut else st₁ := by
    unfold State.handle ClusterTrunk.onWelcome
    split
    · exact transmit_foldl st₁ st.trunk.pendingOut
    · rfl
  rw [hshape]
  cases hlive : live st with
  | none =>
    have hdead {st' : State} (hst' : st' = transmit st₁ st.trunk.pendingOut ∨ st' = st₁) :
        Move R cid (miner st cid) (miner st' cid) := by
      have hlive₁ : live st₁ = none := hlive
      have hwire : wire st' = [] ∧ remote st' cid = remote st cid ∧ st'.trunk = st₁.trunk ∧
          st'.tasks = rest ∧ st'.sessions = st.sessions := by
        rcases hst' with rfl | rfl
        · exact ⟨by rw [wire, live_transmit, hlive₁]; rfl,
            (remote_transmit st₁ _ cid).trans harrived, rfl, rfl, rfl⟩
        · exact ⟨by rw [wire, hlive₁], harrived, rfl, rfl, rfl⟩
      obtain ⟨hwire, hremote, htrunk, htasks', hsessions⟩ := hwire
      have hborn : st'.born cid = st.born cid := by rw [State.born, htrunk]; rfl
      rw [miner_up hborn (by rw [htrunk]) (by rw [hsessions]) hremote]
      refine .skip ?_ ?_ ?_
      · rw [hwire, htrunk, htasks', List.nil_append, List.nil_append]
        simp only [miner, hposted]
        refine suffix_append_right (List.IsSuffix.filter _ ?_) _
        exact List.suffix_append _ _
      · rw [show (miner st cid).remote = remote st cid from rfl, remote_dead hlive]
      · rw [show (miner st cid).remote = remote st cid from rfl, remote_dead hlive]
    split
    · exact hdead (Or.inl rfl)
    · exact hdead (Or.inr rfl)
  | some l =>
    have hconn : st.trunk.conn = true := by
      have hlink : st.link = some l := (Option.filter_eq_some_iff.mp hlive).1
      rw [hwf.conn, hlink]
      rfl
    rw [if_pos hconn]
    have hsame : miner (transmit st₁ st.trunk.pendingOut) cid = miner st cid := by
      refine miner_congr rfl rfl rfl ?_ ((remote_transmit st₁ _ cid).trans harrived)
      rw [wire_transmit, show live st₁ = live st from rfl, hlive, hposted,
        show wire st₁ = wire st from rfl]
      simp [transmit, st₁]
    rw [hsame]
    exact .stay _

/-- A frame that concerns the session has come back. -/
theorem back_cons {f : Frame} {rest : List TrunkTask} (htasks : st.tasks = .frame f :: rest)
    (hf : about cid f = true) :
    remote st cid = { remote { st with tasks := rest } cid with
      back := f :: (remote { st with tasks := rest } cid).back } := by
  have harrived : arrived st.tasks = f :: arrived rest := by rw [htasks]; rfl
  have hlive : live { st with tasks := rest } = live st := rfl
  rw [remote, remote, hlive, harrived]
  cases live st with
  | none => simp [hf]
  | some l => simp [linkRemote, hf]

/-- The trunk's strand handles a frame of the origin. -/
theorem move_frame {cfg : ClusterTrunk.Config} {f : Frame} {rest : List TrunkTask} (hwf : Wf st)
    (htasks : st.tasks = .frame f :: rest) :
    Move R cid (miner st cid) (miner (State.run cfg { st with tasks := rest } (.frame f)) cid) := by
  have hposted : posted st.tasks = posted rest := by rw [htasks]; rfl
  have hother (hf : about cid f = false) : miner { st with tasks := rest } cid = miner st cid := by
    refine miner_congr rfl rfl rfl ?_ (remote_tasks st ?_)
    · rw [hposted]
      rfl
    · rw [htasks]
      simp [arrived, hf]
  have hself (hf : about cid f = true) : miner st cid = { miner { st with tasks := rest } cid with
      remote := { remote { st with tasks := rest } cid with
        back := f :: (remote { st with tasks := rest } cid).back } } := by
    simp only [miner, back_cons htasks hf, hposted]
    rfl
  rw [State.run]
  cases f with
  | welcome => exact move_welcome hwf htasks
  | bye msg =>
    have hshape : State.handle { st with tasks := rest } (ClusterTrunk.onFrame st.trunk (.bye msg)) =
        if st.trunk.conn then State.closeLink { st with tasks := rest }
        else { st with tasks := rest } := by
      rw [ClusterTrunk.onFrame, State.handle]
      cases st.trunk.conn <;> rfl
    rw [hshape, ← hother rfl]
    split
    · exact move_closeLink_any { st with tasks := rest }
    · exact .stay _
  | data c line =>
    have hshape : State.handle { st with tasks := rest }
        (ClusterTrunk.onFrame st.trunk (.data c line)) =
        if c ≠ 0 ∧ st.trunk.sessions c then
          State.setSession { st with tasks := rest } c fun s =>
            { s with outbox := s.outbox ++ [line ++ ['\n']] }
        else { st with tasks := rest } := by
      rw [ClusterTrunk.onFrame, State.handle, ClusterTrunk.onData]
      split_ifs <;> rfl
    rw [hshape]
    by_cases hc : cid = c
    · subst hc
      have hf : about cid (.data cid line) = true := by simp [about]
      have hcid : cid ≠ 0 := by
        rintro rfl
        have hempty := (hself hf).symm.trans (hwf.unborn 0 rfl)
        cases congrArg (fun v => v.remote.back) hempty
      have hmove : Move R cid (miner st cid) { miner { st with tasks := rest } cid with
          outbox := if st.trunk.sessions cid then
            (st.sessions cid).outbox ++ [line ++ ['\n']] else (st.sessions cid).outbox } := by
        rw [hself hf]
        exact .delivered rfl
      cases htable : st.trunk.sessions cid
      · rw [if_neg (by simp)]
        rw [htable, if_neg (by simp)] at hmove
        exact hmove
      · rw [if_pos ⟨hcid, rfl⟩, miner_setSession]
        rw [htable, if_pos rfl] at hmove
        exact hmove
    · have hf : about cid (.data c line) = false := by simp [about, Ne.symm hc]
      rw [← hother hf]
      split
      · rw [miner_setSession_other hc]
        exact .stay _
      · exact .stay _
  | close c =>
    have hshape : State.handle { st with tasks := rest } (ClusterTrunk.onFrame st.trunk (.close c)) =
        { st with
          tasks := rest
          trunk := { st.trunk with sessions := Function.update st.trunk.sessions c false } } := by
      rw [ClusterTrunk.onFrame, State.handle, ClusterTrunk.onCloseFrame]
      dsimp only
      split <;> rfl
    rw [hshape]
    by_cases hc : cid = c
    · subst hc
      have hf : about cid (.close cid) = true := by simp [about]
      have hmove : Move R cid (miner st cid) _ :=
        .dismissed (congrArg (fun v => v.remote.back) (hself hf))
      rw [hself hf] at hmove ⊢
      have hafter : miner { st with
          tasks := rest
          trunk := { st.trunk with sessions := Function.update st.trunk.sessions cid false } } cid =
          { miner { st with tasks := rest } cid with inTable := false } := by
        simp only [miner, Function.update_self]
        rfl
      rw [hafter]
      exact hmove
    · have hf : about cid (.close c) = false := by simp [about, Ne.symm hc]
      rw [← hother hf]
      have hsame : miner { st with
          tasks := rest
          trunk := { st.trunk with sessions := Function.update st.trunk.sessions c false } } cid =
          miner { st with tasks := rest } cid :=
        miner_congr rfl (Function.update_of_ne hc _ _) rfl rfl rfl
      rw [hsame]
      exact .stay _
  | openMiner c ip =>
    have hshape : State.handle { st with tasks := rest }
        (ClusterTrunk.onFrame st.trunk (.openMiner c ip)) = { st with tasks := rest } := rfl
    rw [hshape]
    by_cases hc : cid = c
    · subst hc
      have hf : about cid (.openMiner cid ip) = true := by simp [about]
      have hmove : Move R cid (miner st cid) _ :=
        .ignored (congrArg (fun v => v.remote.back) (hself hf))
      rw [hself hf] at hmove ⊢
      exact hmove
    · rw [hother (by simp [about, Ne.symm hc])]
      exact .stay _
  | ping =>
    have hshape : State.handle { st with tasks := rest } (ClusterTrunk.onFrame st.trunk .ping) =
        if st.trunk.conn then transmit { st with tasks := rest } [.pong]
        else { st with tasks := rest } := by
      rw [ClusterTrunk.onFrame, State.handle]
      cases st.trunk.conn <;> rfl
    rw [hshape, ← hother rfl]
    split
    · rw [miner_transmit (by rfl)]
      exact .stay _
    · exact .stay _
  | block hex hash height =>
    rw [← hother rfl]
    exact .stay _
  | hello role coin token =>
    rw [← hother rfl]
    exact .stay _
  | pong =>
    rw [← hother rfl]
    exact .stay _

theorem miner_dropTask {t : TrunkTask} {rest : List TrunkTask} (htasks : st.tasks = t :: rest)
    (hsend : ∀ f, t ≠ .send f) (hframe : ∀ f, t ≠ .frame f) :
    miner { st with tasks := rest } cid = miner st cid := by
  have hsame : posted st.tasks = posted rest ∧ arrived st.tasks = arrived rest := by
    rw [htasks]
    cases t with
    | send f => exact absurd rfl (hsend f)
    | frame f => exact absurd rfl (hframe f)
    | _ => exact ⟨rfl, rfl⟩
  refine miner_congr rfl rfl rfl ?_ (remote_tasks st (by rw [hsame.2]))
  rw [hsame.1]
  rfl

theorem move_opened {cfg : ClusterTrunk.Config} {rest : List TrunkTask}
    (htasks : st.tasks = .opened :: rest) :
    Move R cid (miner st cid) (miner (State.run cfg { st with tasks := rest } .opened) cid) := by
  have hsame : miner { st with tasks := rest } cid = miner st cid :=
    miner_dropTask htasks (by simp) (by simp)
  have hshape : State.run cfg { st with tasks := rest } .opened =
      if st.trunk.conn then
        transmit { st with tasks := rest } [.hello (ClusterTrunk.role cfg) cfg.coin cfg.token]
      else { st with tasks := rest } := by
    rw [State.run, ClusterTrunk.onOpen, State.handle]
    cases st.trunk.conn <;> rfl
  rw [hshape, ← hsame]
  split
  · rw [miner_transmit (by rfl)]
    exact .stay _
  · exact .stay _

/-- The trunk handles the loss of its connection. -/
theorem move_closed {cfg : ClusterTrunk.Config} {rest : List TrunkTask}
    (htasks : st.tasks = .closed :: rest)
    (hstrands : R.strands ∨ (st.trunk.sessions cid = true → (st.sessions cid).posting = none ∧
      ∀ ip, .send (.openMiner cid ip) ∉ rest)) :
    Move R cid (miner st cid) (miner (State.run cfg { st with tasks := rest } .closed) cid) := by
  have hafter : miner (State.run cfg { st with tasks := rest } .closed) cid = { miner st cid with
      inTable := false
      up := (posted rest).filter (about cid) ++ (st.sessions cid).posting.toList
      remote := ⟨none, none, (arrived rest).filter (about cid)⟩ } := rfl
  have hposted : posted st.tasks = posted rest := by rw [htasks]; rfl
  have harrived : arrived st.tasks = arrived rest := by rw [htasks]; rfl
  rw [hafter]
  refine .forget ?_ ?_ ?_
  · simp only [miner, hposted]
    exact suffix_append_right (List.IsSuffix.filter _ (List.suffix_append _ _)) _
  · rw [← harrived]
    exact back_arrived st cid
  · refine hstrands.imp_right fun h htable ip hmem => ?_
    obtain ⟨hposting, hrest⟩ := h htable
    rw [hposting, Option.toList_none, List.append_nil] at hmem
    obtain ⟨t, ht, heq⟩ := List.mem_filterMap.mp (List.mem_of_mem_filter hmem)
    cases t with
    | send f =>
      cases heq
      exact hrest ip ht
    | _ => cases heq

theorem act_kept (l : Link) (a : ClusterIngest.Action) :
    (l.act a).closed = l.closed ∧ (l.act a).toOrigin = l.toOrigin := by
  cases a with
  | closeConn c =>
    rw [Link.act, Link.closeLoop]
    split
    · exact ⟨rfl, rfl⟩
    · split <;> exact ⟨rfl, rfl⟩
  | _ => exact ⟨rfl, rfl⟩

theorem handle_kept (l : Link) (r : ClusterIngest.Result) :
    (l.handle r).closed = l.closed ∧ (l.handle r).toOrigin = l.toOrigin := by
  have hfold (actions : List ClusterIngest.Action) (l : Link) :
      (actions.foldl Link.act l).closed = l.closed ∧
        (actions.foldl Link.act l).toOrigin = l.toOrigin := by
    induction actions generalizing l with
    | nil => exact ⟨rfl, rfl⟩
    | cons a actions ih =>
      have hact := act_kept l a
      exact ⟨(ih _).1.trans hact.1, (ih _).2.trans hact.2⟩
  exact hfold r.2 _

theorem run_kept (l : Link) (t : IngestTask) :
    (l.run t).closed = l.closed ∧ (l.run t).toOrigin = l.toOrigin := by
  cases t with
  | write f =>
    rw [Link.run]
    split <;> exact ⟨rfl, rfl⟩
  | connected c => exact handle_kept l _
  | loopClosed c => exact handle_kept l _

/-- What a session is for, behind another link. -/
theorem miner_link {l' : Link} (hopen : l'.closed = false) :
    miner { st with link := some l' } cid = { miner st cid with
      up := (l'.toOrigin ++ st.trunk.pendingOut ++ posted st.tasks).filter (about cid) ++
        (st.sessions cid).posting.toList
      remote := linkRemote l' cid (arrived st.tasks) } := by
  have hlive : live { st with link := some l' } = some l' := live_open rfl hopen
  simp only [miner, remote, wire, hlive]
  rfl

/-- A frame that the ingest session refuses. -/
theorem move_reject {f : Frame} {rest : List Frame} (hlink : st.link = some l)
    (hopen : l.closed = false) (hout : l.toOrigin = f :: rest) (hingest : l.ingest.closed = false)
    (msg : Str) :
    Move R cid (miner st cid) (miner { st with
      link := some (Link.handle { l with toOrigin := rest } (l.ingest.reject msg)) } cid) := by
  have hkept := handle_kept { l with toOrigin := rest } (l.ingest.reject msg)
  have hlive := live_open hlink hopen
  have hremote : (miner st cid).remote = linkRemote l cid (arrived st.tasks) := by
    rw [miner, remote, hlive]
  rw [miner_link (hkept.1.trans hopen), hkept.2,
    linkRemote_reject (l := { l with toOrigin := rest }) hingest]
  have hloop : (linkRemote { l with toOrigin := rest } cid (arrived st.tasks)).loop =
      (miner st cid).remote.loop := by
    rw [hremote]
    rfl
  rw [hloop]
  refine .refuse ?_ ?_
  · simp only [miner, wire, hlive, hout]
    refine suffix_append_right (List.IsSuffix.filter _ ?_) _
    exact List.suffix_cons _ _
  · rw [hremote]
    exact back_begins l cid (arrived st.tasks)

/-- The first frame of a trunk is greeted or refused. -/
theorem greets_or_rejects (cfg : ClusterIngest.Config) (st : ClusterIngest.State) (f : Frame)
    (h : st.helloOk = false) :
    (∃ msg, ClusterIngest.handleFrame cfg st f = st.reject msg) ∨
      (∀ cid, about cid f = false) ∧ ∃ st' actions,
        ClusterIngest.handleFrame cfg st f = (st', actions) ∧ st'.clients = st.clients ∧
        st'.closed = st.closed ∧
        (actions = [.sendLine .welcome] ∨ actions = [.sendLine .welcome, .registerNode]) := by
  unfold ClusterIngest.handleFrame
  rw [if_pos (by simp [h])]
  cases f with
  | hello role coin token =>
    simp only [ClusterIngest.greet]
    split_ifs
    · exact Or.inl ⟨_, rfl⟩
    · exact Or.inl ⟨_, rfl⟩
    · exact Or.inl ⟨_, rfl⟩
    · exact Or.inr ⟨fun _ => rfl, _, _, rfl, rfl, rfl, Or.inr rfl⟩
    · exact Or.inr ⟨fun _ => rfl, _, _, rfl, rfl, rfl, Or.inl rfl⟩
  | _ => exact Or.inl ⟨_, rfl⟩

/-- The origin reads a frame. -/
theorem move_originReads {cfg : ClusterIngest.Config} {f : Frame} {rest : List Frame} (hwf : Wf st)
    (hlink : st.link = some l) (hingest : l.ingest.closed = false) (hout : l.toOrigin = f :: rest)
    (hfull : ∀ line c, f = .data cid line → l.ingest.helloOk = true →
      l.ingest.clients cid = some c → c.connected = false → 64 ≤ c.pending.length → R.overflows) :
    Move R cid (miner st cid) (miner { st with
      link := some (Link.handle { l with toOrigin := rest }
        (ClusterIngest.handleFrame cfg l.ingest f)) } cid) := by
  have hkept := handle_kept { l with toOrigin := rest } (ClusterIngest.handleFrame cfg l.ingest f)
  by_cases hopen : l.closed = false
  · have hlive := live_open hlink hopen
    have hremote : (miner st cid).remote = linkRemote l cid (arrived st.tasks) := by
      rw [miner, remote, hlive]
    have hpop : linkRemote { l with toOrigin := rest } cid (arrived st.tasks) =
        linkRemote l cid (arrived st.tasks) := rfl
    have hup : (miner st cid).up = (f :: (rest ++ st.trunk.pendingOut ++ posted st.tasks)).filter
        (about cid) ++ (st.sessions cid).posting.toList := by
      simp only [miner, wire, hlive, hout, List.cons_append]
    -- A frame of others leaves the session as it is.
    have hquiet (hf : about cid f = false)
        (hsame : linkRemote (Link.handle { l with toOrigin := rest }
          (ClusterIngest.handleFrame cfg l.ingest f)) cid (arrived st.tasks) =
            linkRemote l cid (arrived st.tasks)) :
        Move R cid (miner st cid) (miner { st with
          link := some (Link.handle { l with toOrigin := rest }
            (ClusterIngest.handleFrame cfg l.ingest f)) } cid) := by
      rw [miner_link (hkept.1.trans hopen), hkept.2, hsame, ← hremote]
      rw [List.filter_cons_of_neg (by simp [hf])] at hup
      rw [← hup]
      exact .stay _
    by_cases hhello : l.ingest.helloOk = true
    · have hframe : ClusterIngest.handleFrame cfg l.ingest f = ClusterIngest.onFrame l.ingest f := by
        unfold ClusterIngest.handleFrame
        exact if_neg (by simp [hhello])
      by_cases hf : about cid f = true
      · have hcid : cid ≠ 0 := by
          rintro rfl
          have hempty := hwf.unborn 0 rfl
          rw [hempty, List.filter_cons_of_pos hf] at hup
          cases hup
        have hcons := consumes_onFrame (R := R) { l with toOrigin := rest } hf hcid (arrived st.tasks)
          fun line c hline => hfull line c hline hhello
        rw [List.filter_cons_of_pos hf] at hup
        rw [hpop, ← hremote] at hcons
        rw [miner_link (hkept.1.trans hopen), hkept.2, hframe]
        exact .consume hup hcons
      · have hf : about cid f = false := by simpa using hf
        refine hquiet hf ?_
        rw [hframe, remote_onFrame_other (l := { l with toOrigin := rest }) hf, hpop]
    · rcases greets_or_rejects cfg l.ingest f (by simpa using hhello) with ⟨msg, hmsg⟩ | ⟨hf, hmsg⟩
      · rw [hmsg]
        exact move_reject hlink hopen hout hingest msg
      · refine hquiet (hf cid) ?_
        obtain ⟨ingest, actions, heq, hclients, hclosed, hactions⟩ := hmsg
        rw [heq, ← hpop]
        rcases hactions with rfl | rfl
        all_goals
          refine linkRemote_congr (congrFun hclients cid) rfl ?_
          refine (returning_write cid { l with toOrigin := rest, ingest } .welcome).trans ?_
          simp [about, returning, hclosed]
  · have hopen : l.closed = true := by simpa using hopen
    have hlive := live_closed hlink hopen
    have hlive' : live { st with link := some (Link.handle { l with toOrigin := rest }
        (ClusterIngest.handleFrame cfg l.ingest f)) } = none := live_closed rfl (hkept.1.trans hopen)
    have hsame : miner { st with link := some (Link.handle { l with toOrigin := rest }
        (ClusterIngest.handleFrame cfg l.ingest f)) } cid = miner st cid := by
      simp only [miner, remote, wire, hlive, hlive']
      rfl
    rw [hsame]
    exact .stay _

theorem move_originDown (hlink : st.link = some l) :
    Move R cid (miner st cid) (miner { st with link := some (l.handle l.ingest.close) } cid) := by
  have hkept := handle_kept l l.ingest.close
  refine move_link hlink hkept.1 hkept.2 ?_
  cases hclosed : l.ingest.closed
  · rw [linkRemote_close hclosed]
    exact .shut (back_begins l cid (arrived st.tasks))
  · have hsame : l.handle l.ingest.close = l := by
      rw [ClusterIngest.State.close, if_pos hclosed]
      rfl
    rw [hsame]
    exact .stay _

/-- A frame that has come over the connection still comes back. -/
theorem miner_edgeReads {f : Frame} {rest : List Frame} (hlink : st.link = some l)
    (hopen : l.closed = false) (hin : l.toEdge = f :: rest) :
    miner { st with link := some { l with toEdge := rest }, tasks := st.tasks ++ [.frame f] } cid =
      miner st cid := by
  have hlive := live_open hlink hopen
  have hlive' : live { st with
      link := some { l with toEdge := rest }, tasks := st.tasks ++ [.frame f] } =
      some { l with toEdge := rest } := live_open rfl hopen
  refine miner_congr rfl rfl rfl ?_ ?_
  · rw [wire, wire, hlive, hlive']
    simp [posted]
  · rw [remote, remote, hlive, hlive']
    simp [linkRemote, arrived, returning, hin]

theorem miner_linkUp (hlink : st.link = some l) (hopen : l.closed = false) :
    miner { st with link := some { l with up := true }, tasks := st.tasks ++ [.opened] } cid =
      miner st cid := by
  have hlive := live_open hlink hopen
  have hlive' : live { st with link := some { l with up := true }, tasks := st.tasks ++ [.opened] } =
      some { l with up := true } := live_open rfl hopen
  refine miner_congr rfl rfl rfl ?_ ?_
  · rw [wire, wire, hlive, hlive']
    simp [posted]
  · rw [remote, remote, hlive, hlive']
    simp [linkRemote, arrived, returning, writes]

/-- A new connection holds nothing. -/
theorem miner_connect (hwf : Wf st) (hconn : st.trunk.conn = false) :
    miner (st.handle (ClusterTrunk.connect st.trunk)) cid = miner st cid := by
  have hlink : st.link = none := by simpa [hwf.conn] using hconn
  have hlive := live_none hlink
  have hlive' : live (st.handle (ClusterTrunk.connect st.trunk)) = some {} := live_open rfl rfl
  refine miner_congr rfl rfl rfl ?_ ?_
  · rw [wire, wire, hlive, hlive']
    rfl
  · rw [remote, remote, hlive, hlive']
    simp [linkRemote, returning, writes, State.handle, ClusterTrunk.connect, State.act]

theorem move_accept (hwf : Wf st) (ip : Str) :
    Move R cid (miner st cid)
      (miner { (st.setSession st.trunk.nextCid fun _ =>
          { posting := some (.openMiner st.trunk.nextCid ip) }) with
        trunk := (ClusterTrunk.attach st.trunk).1 } cid) := by
  by_cases hc : cid = st.trunk.nextCid
  · subst hc
    have hempty := hwf.unborn st.trunk.nextCid (by simp [State.born])
    have hup := congrArg Miner.up hempty
    have hremote := congrArg Miner.remote hempty
    simp only [miner, List.append_eq_nil_iff] at hup
    have hafter : miner { (st.setSession st.trunk.nextCid fun _ =>
          { posting := some (.openMiner st.trunk.nextCid ip) }) with
        trunk := (ClusterTrunk.attach st.trunk).1 } st.trunk.nextCid =
        { born := true, inTable := true, up := [.openMiner st.trunk.nextCid ip] } := by
      have hborn : State.born { (st.setSession st.trunk.nextCid fun _ =>
            { posting := some (.openMiner st.trunk.nextCid ip) }) with
          trunk := (ClusterTrunk.attach st.trunk).1 } st.trunk.nextCid = true := by
        have hcounted := hwf.counted
        simp [State.born, ClusterTrunk.attach, hcounted]
      rw [miner, hborn]
      simp only [ClusterTrunk.attach, State.setSession, Function.update_self, Option.toList_some]
      congr 1
      exact congrArg (· ++ _) hup.1
    rw [hempty, hafter]
    exact .attach ip
  · have hsame : miner { (st.setSession st.trunk.nextCid fun _ =>
          { posting := some (.openMiner st.trunk.nextCid ip) }) with
        trunk := (ClusterTrunk.attach st.trunk).1 } cid = miner st cid := by
      refine miner_congr ?_ ?_ (Function.update_of_ne hc _ _) rfl rfl
      · simp only [State.born, ClusterTrunk.attach]
        congr 2
        simp only [Nat.lt_succ_iff_lt_or_eq]
        simp [hc]
      · exact Function.update_of_ne hc _ _
    rw [hsame]
    exact .stay _

/-- What a session posts comes after all that was posted before. -/
theorem miner_post (hwf : Wf st) {c : Nat} {f : Frame} (hposting : (st.sessions c).posting = some f) :
    miner { (st.setSession c fun s => { s with posting := none }) with
      tasks := st.tasks ++ [.send f] } cid = miner st cid := by
  obtain ⟨hself, hothers⟩ := hwf.posting c f hposting
  have harrived : remote { (st.setSession c fun s => { s with posting := none }) with
      tasks := st.tasks ++ [.send f] } cid = remote st cid :=
    remote_tasks (st.setSession c fun s => { s with posting := none }) (by
      simp [arrived, State.setSession])
  by_cases hc : cid = c
  · subst hc
    simp only [miner, State.setSession, Function.update_self, hposting]
    congr 1
    simp [wire, live, posted, hself]
  · refine miner_congr rfl rfl (Function.update_of_ne hc _ _) ?_ harrived
    simp [wire, live, posted, State.setSession, hothers cid hc]

theorem move_readLine {c : Nat} {l : Str} (hready : st.ready c = true) :
    Move R cid (miner st cid)
      (miner { (st.setSession c fun s => { s with read := s.read ++ [l] }) with
        tasks := st.tasks ++ [.send (.data c l)] } cid) := by
  have harrived : remote { (st.setSession c fun s => { s with read := s.read ++ [l] }) with
      tasks := st.tasks ++ [.send (.data c l)] } cid = remote st cid :=
    remote_tasks (st.setSession c fun s => { s with read := s.read ++ [l] }) (by
      simp [arrived, State.setSession])
  simp only [State.ready, Bool.and_eq_true, Bool.not_eq_true', Option.isNone_iff_eq_none] at hready
  obtain ⟨⟨hborn, hopen⟩, hposting⟩ := hready
  by_cases hc : cid = c
  · subst hc
    have hafter : miner { (st.setSession cid fun s => { s with read := s.read ++ [l] }) with
        tasks := st.tasks ++ [.send (.data cid l)] } cid = { miner st cid with
          up := (miner st cid).up ++ [.data cid l]
          read := (miner st cid).read ++ [l] } := by
      simp only [miner, State.setSession, Function.update_self, hposting]
      simp [wire, live, posted, about, State.born]
      exact harrived
    rw [hafter]
    exact .line l hborn hopen
  · have hsame : miner { (st.setSession c fun s => { s with read := s.read ++ [l] }) with
        tasks := st.tasks ++ [.send (.data c l)] } cid = miner st cid := by
      refine miner_congr rfl rfl (Function.update_of_ne hc _ _) ?_ harrived
      simp [wire, live, posted, State.setSession, about, Ne.symm hc]
    rw [hsame]
    exact .stay _

theorem move_hangUp {c : Nat} (hready : st.ready c = true) :
    Move R cid (miner st cid)
      (miner { (st.setSession c fun s =>
          { s with
            closed := true
            posting := if st.trunk.sessions c then some (Frame.close c) else none }) with
        trunk := (ClusterTrunk.detach st.trunk c).1 } cid) := by
  simp only [State.ready, Bool.and_eq_true, Bool.not_eq_true', Option.isNone_iff_eq_none] at hready
  obtain ⟨⟨hborn, hopen⟩, hposting⟩ := hready
  by_cases hc : cid = c
  · subst hc
    have hafter : miner { (st.setSession cid fun s =>
          { s with
            closed := true
            posting := if st.trunk.sessions cid then some (Frame.close cid) else none }) with
        trunk := (ClusterTrunk.detach st.trunk cid).1 } cid = { miner st cid with
          closed := true
          inTable := false
          up := (miner st cid).up ++ if (miner st cid).inTable then [.close cid] else [] } := by
      simp only [miner, ClusterTrunk.detach, State.setSession, Function.update_self, hposting]
      cases st.trunk.sessions cid <;> simp [wire, live, remote, State.born]
    rw [hafter]
    exact .hangUp hborn hopen
  · have hsame : miner { (st.setSession c fun s =>
          { s with
            closed := true
            posting := if st.trunk.sessions c then some (Frame.close c) else none }) with
        trunk := (ClusterTrunk.detach st.trunk c).1 } cid = miner st cid :=
      miner_congr rfl (Function.update_of_ne hc _ _) (Function.update_of_ne hc _ _) rfl rfl
    rw [hsame]
    exact .stay _

theorem move_writeLine {c : Nat} {m : Str} {rest : List Str}
    (hout : (st.sessions c).outbox = m :: rest) :
    Move R cid (miner st cid)
      (miner (st.setSession c fun s => { s with outbox := rest, written := s.written ++ [m] }) cid) := by
  by_cases hc : cid = c
  · subst hc
    rw [miner_setSession]
    have hmove : Move R cid (miner st cid) { miner st cid with
        outbox := rest, written := (miner st cid).written ++ [m] } := .write hout
    exact hmove
  · rw [miner_setSession_other hc]
    exact .stay _

end

end MkPool.EdgeMoves
