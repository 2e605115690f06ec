import MkPool.ClusterMiner

/-! # What the origin does to one miner -/
namespace MkPool.OriginMoves
open MkPool.Utils MkPool.ClusterProtocol MkPool.ClusterNet MkPool.ClusterMiner

section

variable {cid c₀ : Nat} {l : Link} {before : List Frame}

theorem close_eq_self {lp : Loopback} (h : lp.closed = true) : lp.close = lp := by
  rw [Loopback.close, ← h]

theorem closeLoop_loops (l : Link) (c₀ cid : Nat) :
    (l.closeLoop c₀).loops cid =
      if cid = c₀ then (l.loops cid).map Loopback.close else l.loops cid := by
  unfold Link.closeLoop
  cases h : l.loops c₀ with
  | none =>
    by_cases hc : cid = c₀
    · simp [hc, h]
    · simp [hc]
  | some lp =>
    by_cases hclosed : lp.closed = true
    · by_cases hc : cid = c₀
      · simp [hc, h, hclosed, close_eq_self hclosed]
      · simp [hc, hclosed]
    · by_cases hc : cid = c₀
      · subst hc
        simp [Link.setLoop, hclosed]
      · simp [Link.setLoop, hclosed, hc]

theorem closeLoop_toEdge (l : Link) (c₀ : Nat) : (l.closeLoop c₀).toEdge = l.toEdge := by
  unfold Link.closeLoop
  split
  · rfl
  · split <;> rfl

theorem closeLoop_ingest (l : Link) (c₀ : Nat) : (l.closeLoop c₀).ingest = l.ingest := by
  unfold Link.closeLoop
  split
  · rfl
  · split <;> rfl

theorem closeLoop_writes (l : Link) (c₀ : Nat) : writes (l.closeLoop c₀).tasks = writes l.tasks := by
  unfold Link.closeLoop
  split
  · rfl
  · split
    · rfl
    · simp [writes]

/-- What concerns a session comes from four parts of the link. -/
theorem linkRemote_congr {l' : Link} (hclient : l'.ingest.clients cid = l.ingest.clients cid)
    (hloop : l'.loops cid = l.loops cid) (hreturning : (returning l').filter (about cid) =
      (returning l).filter (about cid)) :
    linkRemote l' cid before = linkRemote l cid before := by
  simp only [linkRemote, hclient, hloop, List.filter_append, hreturning]

theorem handle_shut (l : Link) {r : ClusterIngest.Result}
    (hr : r.1.closed = true ∧ r.1.clients cid = none)
    (hlink : (l.handle r).loops cid = (l.loops cid).map Loopback.close ∧
      (l.handle r).toEdge = l.toEdge ∧ (l.handle r).ingest = r.1) :
    linkRemote (l.handle r) cid before =
      ⟨none, (linkRemote l cid before).loop.map Loopback.close,
        (before ++ l.toEdge).filter (about cid)⟩ := by
  simp [linkRemote, returning, hlink.1, hlink.2.1, hlink.2.2, hr.1, hr.2]

theorem back_begins (l : Link) (cid : Nat) (before : List Frame) :
    (before ++ l.toEdge).filter (about cid) <+: (linkRemote l cid before).back := by
  refine List.IsPrefix.filter _ ?_
  rw [returning, ← List.append_assoc]
  exact List.prefix_append _ _

theorem linkRemote_close (hopen : l.ingest.closed = false) :
    linkRemote (l.handle l.ingest.close) cid before =
      ⟨none, (linkRemote l cid before).loop.map Loopback.close,
        (before ++ l.toEdge).filter (about cid)⟩ := by
  rw [ClusterIngest.State.close, if_neg (by simp [hopen])]
  exact handle_shut l ⟨rfl, rfl⟩ ⟨rfl, rfl, rfl⟩

theorem linkRemote_reject (hopen : l.ingest.closed = false) (msg : Str) :
    linkRemote (l.handle (l.ingest.reject msg)) cid before =
      ⟨none, (linkRemote l cid before).loop.map Loopback.close,
        (before ++ l.toEdge).filter (about cid)⟩ := by
  rw [ClusterIngest.State.reject, ClusterIngest.State.close, if_neg (by simp [hopen])]
  exact handle_shut l ⟨rfl, rfl⟩ ⟨rfl, rfl, rfl⟩

/-- A line posted to the session is written unless it is closed. -/
theorem returning_write (cid : Nat) (l : Link) (f : Frame) :
    (returning { l with tasks := l.tasks ++ [.write f] }).filter (about cid) =
      (returning l).filter (about cid) ++
        if l.ingest.closed then [] else [f].filter (about cid) := by
  cases h : l.ingest.closed <;> simp [returning, writes, h, List.filter_append]

theorem remote_setLoop (l : Link) (cid : Nat) (f : Loopback → Loopback) (before : List Frame) :
    linkRemote (l.setLoop cid f) cid before =
      { linkRemote l cid before with loop := (l.loops cid).map f } := by
  rw [linkRemote, linkRemote, Link.setLoop]
  simp only [Function.update_self]
  rfl

theorem remote_setLoop_other (l : Link) {cid c₀ : Nat} (hc : cid ≠ c₀) (f : Loopback → Loopback)
    (before : List Frame) :
    linkRemote (l.setLoop c₀ f) cid before = linkRemote l cid before :=
  linkRemote_congr rfl (Function.update_of_ne hc _ _) rfl

theorem sends_foldl (l : Link) (c₀ : Nat) (lines : List Str) :
    (lines.map (ClusterIngest.Action.send c₀)).foldl Link.act l =
      { l with loops := Function.update l.loops c₀ ((l.loops c₀).map (sendAll lines)) } := by
  induction lines generalizing l with
  | nil =>
    have hid : (l.loops c₀).map (sendAll []) = l.loops c₀ := by
      cases l.loops c₀ <;> rfl
    rw [hid, Function.update_eq_self]
    rfl
  | cons line lines ih =>
    rw [List.map_cons, List.foldl_cons, ih, Link.act, Link.setLoop]
    congr 1
    simp only [Function.update_idem, Function.update_self, Option.map_map]
    rfl

theorem remote_connected (l : Link) (c₀ cid : Nat) (before : List Frame) :
    RemoteMove cid (linkRemote l cid before)
      (linkRemote (l.handle (ClusterIngest.loopbackConnected l.ingest c₀)) cid before) := by
  unfold ClusterIngest.loopbackConnected
  cases hc : l.ingest.clients c₀ with
  | none => exact .stay _
  | some c =>
    simp only [Link.handle]
    rw [sends_foldl]
    by_cases hcid : cid = c₀
    · subst hcid
      have hmove : RemoteMove cid (linkRemote l cid before) _ := .connected hc
      simpa [linkRemote, returning] using hmove
    · have hsame : linkRemote
          { l with
            ingest := { l.ingest with
              clients := Function.update l.ingest.clients c₀ (some ⟨true, []⟩) }
            loops := Function.update l.loops c₀ ((l.loops c₀).map (sendAll c.pending)) } cid before =
          linkRemote l cid before :=
        linkRemote_congr (by simp [hcid]) (by simp [hcid]) rfl
      rw [hsame]
      exact .stay _

theorem returning_closeLoop (l : Link) (c₀ : Nat) : returning (l.closeLoop c₀) = returning l := by
  simp only [returning, closeLoop_toEdge, closeLoop_ingest, closeLoop_writes]

/-- The link once a client was dropped: its connection is closed, and the edge told
or not. -/
def dropped (l : Link) (c₀ : Nat) (told : Bool) : Link :=
  let l' := Link.closeLoop { l with ingest :=
    { l.ingest with clients := Function.update l.ingest.clients c₀ none } } c₀
  if told then { l' with tasks := l'.tasks ++ [.write (.close c₀)] } else l'

theorem handle_closeClient {c : ClusterIngest.Client} (h : l.ingest.clients c₀ = some c)
    (tell : Bool) :
    l.handle (ClusterIngest.closeClient l.ingest c₀ tell) =
      dropped l c₀ (tell && !l.ingest.closed) := by
  unfold ClusterIngest.closeClient
  rw [h]
  cases tell && !l.ingest.closed <;> rfl

theorem dropped_parts (l : Link) (c₀ : Nat) (told : Bool) :
    (dropped l c₀ told).ingest =
        { l.ingest with clients := Function.update l.ingest.clients c₀ none } ∧
      (dropped l c₀ told).loops = (Link.closeLoop l c₀).loops := by
  have hingest := closeLoop_ingest { l with ingest :=
    { l.ingest with clients := Function.update l.ingest.clients c₀ none } } c₀
  have hloops : (Link.closeLoop { l with ingest :=
      { l.ingest with clients := Function.update l.ingest.clients c₀ none } } c₀).loops =
      (Link.closeLoop l c₀).loops := by
    funext cid
    rw [closeLoop_loops, closeLoop_loops]
  cases told
  · exact ⟨hingest, hloops⟩
  · exact ⟨hingest, hloops⟩

theorem returning_dropped (cid : Nat) (l : Link) (c₀ : Nat) {told : Bool} (h : told = true → l.ingest.closed = false) :
    (returning (dropped l c₀ told)).filter (about cid) =
      (returning l).filter (about cid) ++
        if told then [Frame.close c₀].filter (about cid) else [] := by
  have hback := returning_closeLoop { l with ingest :=
    { l.ingest with clients := Function.update l.ingest.clients c₀ none } } c₀
  cases told
  · simp only [dropped, Bool.false_eq_true, if_false, hback, List.append_nil]
    rfl
  · simp only [dropped, if_true]
    rw [returning_write, hback, closeLoop_ingest, if_neg (by simp [h rfl])]
    rfl

/-- A client that is closed, and the edge told or not. -/
theorem remote_closeClient_self {c : ClusterIngest.Client} (h : l.ingest.clients cid = some c)
    (tell : Bool) (before : List Frame) :
    linkRemote (l.handle (ClusterIngest.closeClient l.ingest cid tell)) cid before =
      ⟨none, (l.loops cid).map Loopback.close, (linkRemote l cid before).back ++
        if tell && !l.ingest.closed then [.close cid] else []⟩ := by
  have htold : (tell && !l.ingest.closed) = true → l.ingest.closed = false := fun ht => by
    simpa using (Bool.and_eq_true_iff.mp ht).2
  have hback := returning_dropped cid l cid htold
  obtain ⟨hingest, hloops⟩ := dropped_parts l cid (tell && !l.ingest.closed)
  rw [handle_closeClient h, linkRemote, hingest, hloops, closeLoop_loops, if_pos rfl,
    List.filter_append, hback]
  simp [linkRemote, about, List.filter_append]

theorem remote_closeClient_other (h : cid ≠ c₀ ∨ l.ingest.clients cid = none) (tell : Bool)
    (before : List Frame) :
    linkRemote (l.handle (ClusterIngest.closeClient l.ingest c₀ tell)) cid before =
      linkRemote l cid before := by
  cases hclient : l.ingest.clients c₀ with
  | none =>
    rw [ClusterIngest.closeClient, hclient]
    rfl
  | some c =>
    have hc : cid ≠ c₀ := by
      rcases h with h | h
      · exact h
      · rintro rfl
        rw [hclient] at h
        cases h
    have htold : (tell && !l.ingest.closed) = true → l.ingest.closed = false := fun ht => by
      simpa using (Bool.and_eq_true_iff.mp ht).2
    have hback := returning_dropped cid l c₀ htold
    obtain ⟨hingest, hloops⟩ := dropped_parts l c₀ (tell && !l.ingest.closed)
    rw [handle_closeClient hclient]
    refine linkRemote_congr ?_ ?_ ?_
    · rw [hingest]
      exact Function.update_of_ne hc _ _
    · rw [hloops, closeLoop_loops, if_neg hc]
    · rw [hback]
      simp [about, Ne.symm hc]

theorem remote_openClient (l : Link) (c₀ cid : Nat) (before : List Frame) :
    linkRemote (l.handle (ClusterIngest.openClient l.ingest c₀)) cid before =
      if cid = c₀ ∧ (l.ingest.clients cid).isNone then
        ⟨some {}, some {}, (linkRemote l cid before).back⟩
      else linkRemote l cid before := by
  unfold ClusterIngest.openClient
  by_cases hc : cid = c₀
  · subst hc
    cases h : l.ingest.clients cid with
    | none => simp [Link.handle, Link.act, linkRemote, returning]
    | some c => simp [Link.handle]
  · split
    · simp [Link.handle, hc]
    · rw [if_neg (fun h => hc h.1)]
      exact linkRemote_congr (by simp [Link.handle, Link.act, hc])
        (by simp [Link.handle, Link.act, hc]) rfl

theorem remote_clientData (l : Link) (c₀ cid : Nat) (line : Str) (before : List Frame) (hc : cid ≠ c₀) :
    linkRemote (l.handle (ClusterIngest.clientData l.ingest c₀ line)) cid before =
      linkRemote l cid before := by
  unfold ClusterIngest.clientData
  split
  · rfl
  · split_ifs
    · exact linkRemote_congr rfl (by simp [Link.handle, Link.act, Link.setLoop, hc]) rfl
    · exact linkRemote_congr (by simp [Link.handle, hc]) rfl rfl
    · rfl

theorem consumes_data {R : Rules} (l : Link) (cid : Nat) (line : Str) (before : List Frame)
    (hfull : ∀ c, l.ingest.clients cid = some c → c.connected = false → 64 ≤ c.pending.length →
      R.overflows) :
    Consumes R cid (.data cid line) (linkRemote l cid before)
      (linkRemote (l.handle (ClusterIngest.clientData l.ingest cid line)) cid before) := by
  unfold ClusterIngest.clientData
  cases hclient : l.ingest.clients cid with
  | none => exact .unknown hclient (by simp)
  | some c =>
    dsimp only
    split_ifs with hconn hroom
    · rw [show l.handle (l.ingest, [.send cid (line ++ ['\n'])]) =
        l.setLoop cid (·.send (line ++ ['\n'])) from rfl, remote_setLoop]
      exact .sends hclient hconn
    · have hlink (c' : Option ClusterIngest.Client) :
          linkRemote { l with ingest :=
            { l.ingest with clients := Function.update l.ingest.clients cid c' } } cid before =
          { linkRemote l cid before with client := c' } := by
        rw [linkRemote, linkRemote]
        simp only [Function.update_self]
        rfl
      rw [Link.handle, List.foldl_nil, hlink]
      exact .keeps hclient (by simpa using hconn)
    · exact .overflows (hfull c hclient (by simpa using hconn) (by omega))

/-- Frames that are not about the session leave it alone. -/
theorem remote_onFrame_other (l : Link) {f : Frame} (hf : about cid f = false) (before : List Frame) :
    linkRemote (l.handle (ClusterIngest.onFrame l.ingest f)) cid before =
      linkRemote l cid before := by
  cases f with
  | openMiner c ip =>
    have hc : cid ≠ c := fun h => by simp [about, h] at hf
    rw [ClusterIngest.onFrame]
    split
    · rfl
    · rw [remote_openClient, if_neg (fun h => hc h.1)]
  | data c line =>
    have hc : cid ≠ c := fun h => by simp [about, h] at hf
    rw [ClusterIngest.onFrame]
    split
    · rfl
    · exact remote_clientData l c cid line before hc
  | close c =>
    have hc : cid ≠ c := fun h => by simp [about, h] at hf
    rw [ClusterIngest.onFrame]
    split
    · rfl
    · exact remote_closeClient_other (Or.inl hc) false before
  | ping =>
    refine linkRemote_congr rfl rfl ?_
    refine (returning_write cid l .pong).trans ?_
    split <;> simp [about]
  | _ => rfl

/-- A frame of the session, once the trunk has greeted. -/
theorem consumes_onFrame {R : Rules} (l : Link) {f : Frame} (hf : about cid f = true) (hcid : cid ≠ 0)
    (before : List Frame)
    (hfull : ∀ line c, f = .data cid line → l.ingest.clients cid = some c → c.connected = false →
      64 ≤ c.pending.length → R.overflows) :
    Consumes R cid f (linkRemote l cid before)
      (linkRemote (l.handle (ClusterIngest.onFrame l.ingest f)) cid before) := by
  cases f with
  | openMiner c ip =>
    obtain rfl : c = cid := by simpa [about] using hf
    rw [ClusterIngest.onFrame, if_neg hcid, remote_openClient]
    cases hclient : l.ingest.clients c with
    | none =>
      rw [if_pos ⟨rfl, rfl⟩]
      exact .opens hclient
    | some client =>
      rw [if_neg (by simp)]
      exact .reopens (by simp [linkRemote, hclient])
  | data c line =>
    obtain rfl : c = cid := by simpa [about] using hf
    rw [ClusterIngest.onFrame, if_neg hcid]
    exact consumes_data l c line before fun client => hfull line client rfl
  | close c =>
    obtain rfl : c = cid := by simpa [about] using hf
    rw [ClusterIngest.onFrame, if_neg hcid]
    cases hclient : l.ingest.clients c with
    | none =>
      rw [remote_closeClient_other (Or.inr hclient)]
      exact .unknown hclient (by simp)
    | some client =>
      have hmove : Consumes R c (.close c) (linkRemote l c before) _ :=
        .closes (by simp [linkRemote, hclient])
      rw [remote_closeClient_self hclient]
      simpa [linkRemote] using hmove
  | _ => cases hf

theorem linkRemote_tasks {t : IngestTask} {rest : List IngestTask} (h : l.tasks = t :: rest)
    (ht : ∀ f, t ≠ .write f) :
    linkRemote { l with tasks := rest } cid before = linkRemote l cid before := by
  refine linkRemote_congr rfl rfl ?_
  have hwrites : writes l.tasks = writes rest := by
    rw [h]
    cases t with
    | write f => exact absurd rfl (ht f)
    | _ => rfl
  simp only [returning, hwrites]

/-- What the ingest session's strand runs. -/
theorem remote_run {t : IngestTask} {rest : List IngestTask} (h : l.tasks = t :: rest) :
    RemoteMove cid (linkRemote l cid before)
      (linkRemote (Link.run { l with tasks := rest } t) cid before) := by
  cases t with
  | write f =>
    have hsame : linkRemote (Link.run { l with tasks := rest } (.write f)) cid before =
        linkRemote l cid before := by
      cases hclosed : l.ingest.closed
      · rw [show Link.run { l with tasks := rest } (.write f) =
          { l with tasks := rest, toEdge := l.toEdge ++ [f] } from if_neg (by simp [hclosed])]
        exact linkRemote_congr rfl rfl (by simp [returning, hclosed, h, writes])
      · rw [show Link.run { l with tasks := rest } (.write f) = { l with tasks := rest } from
          if_pos hclosed]
        exact linkRemote_congr rfl rfl (by simp [returning, hclosed])
    rw [hsame]
    exact .stay _
  | connected c =>
    have hmove := remote_connected { l with tasks := rest } c cid before
    rwa [linkRemote_tasks h (by simp)] at hmove
  | loopClosed c =>
    rw [← linkRemote_tasks h (by simp), Link.run]
    by_cases hc : cid ≠ c ∨ l.ingest.clients cid = none
    · rw [remote_closeClient_other (l := { l with tasks := rest }) hc]
      exact .stay _
    · obtain ⟨hcid, hclient⟩ := not_or.mp hc
      obtain rfl := not_not.mp hcid
      obtain ⟨client, hclient⟩ := Option.ne_none_iff_exists'.mp hclient
      rw [remote_closeClient_self (l := { l with tasks := rest }) hclient]
      refine .gone (by simp [linkRemote, hclient]) ?_
      split
      · exact Or.inr rfl
      · exact Or.inl rfl

theorem remote_loopUp (l : Link) (c₀ cid : Nat) (before : List Frame) :
    RemoteMove cid (linkRemote l cid before)
      (linkRemote { (l.setLoop c₀ fun lp => { lp with up := true }) with
        tasks := l.tasks ++ [.connected c₀] } cid before) := by
  have htasks (l' : Link) : linkRemote { l' with tasks := l'.tasks ++ [.connected c₀] } cid before =
      linkRemote l' cid before :=
    linkRemote_congr rfl rfl (by simp [returning, writes])
  have hlink := htasks (l.setLoop c₀ fun lp => { lp with up := true })
  rw [show (l.setLoop c₀ fun lp => { lp with up := true }).tasks = l.tasks from rfl] at hlink
  rw [hlink]
  by_cases hc : cid = c₀
  · subst hc
    rw [remote_setLoop]
    cases hloop : l.loops cid with
    | none =>
      have := @RemoteMove.stay cid (linkRemote l cid before)
      simpa [linkRemote, hloop] using this
    | some lp => exact .loopUp hloop
  · rw [remote_setLoop_other l hc]
    exact .stay _

theorem remote_loopDown (l : Link) (c₀ cid : Nat) (before : List Frame) :
    RemoteMove cid (linkRemote l cid before) (linkRemote (l.closeLoop c₀) cid before) := by
  have hshape : linkRemote (l.closeLoop c₀) cid before =
      { linkRemote l cid before with loop := (l.closeLoop c₀).loops cid } := by
    simp only [linkRemote, closeLoop_ingest, returning_closeLoop]
  rw [hshape, closeLoop_loops]
  by_cases hc : cid = c₀
  · rw [if_pos hc]
    cases hloop : l.loops cid with
    | none =>
      have := @RemoteMove.stay cid (linkRemote l cid before)
      simpa [linkRemote, hloop] using this
    | some lp => exact .loopDown hloop
  · rw [if_neg hc]
    exact .stay _

theorem linkRemote_write (l : Link) (f : Frame) (cid : Nat) (before : List Frame) :
    linkRemote { l with tasks := l.tasks ++ [.write f] } cid before =
      { linkRemote l cid before with
        back := (linkRemote l cid before).back ++
          if l.ingest.closed then [] else [f].filter (about cid) } := by
  have hback := returning_write cid l f
  rw [linkRemote, linkRemote, List.filter_append, List.filter_append, hback, List.append_assoc]

/-- A line of the pool is sent where the session is open. -/
theorem remote_loopReads {lp : Loopback} {line : Str} (hloop : l.loop? c₀ = some lp)
    (hingest : l.ingest.closed = false) :
    RemoteMove cid (linkRemote l cid before)
      (linkRemote { (l.setLoop c₀ fun lp => { lp with read := lp.read ++ [line] }) with
        tasks := l.tasks ++ [.write (.data c₀ line)] } cid before) := by
  obtain ⟨hlp, hopen⟩ := Option.filter_eq_some_iff.mp hloop
  have hclosed : lp.closed = false := by simpa using (Bool.and_eq_true_iff.mp hopen).2
  have hwrite := linkRemote_write (l.setLoop c₀ fun lp => { lp with read := lp.read ++ [line] })
    (.data c₀ line) cid before
  rw [show (l.setLoop c₀ fun lp => { lp with read := lp.read ++ [line] }).tasks = l.tasks from rfl,
    show (l.setLoop c₀ fun lp => { lp with read := lp.read ++ [line] }).ingest.closed = false from
      hingest, if_neg (by simp)] at hwrite
  rw [hwrite]
  by_cases hc : cid = c₀
  · subst hc
    rw [remote_setLoop, hlp, List.filter_cons_of_pos (by simp [about]), List.filter_nil]
    exact .loopReads hlp hclosed
  · rw [remote_setLoop_other l hc]
    have := @RemoteMove.stay cid (linkRemote l cid before)
    simpa [about, Ne.symm hc] using this

theorem remote_loopWrites {lp : Loopback} {m : Str} {rest : List Str} (hloop : l.loop? c₀ = some lp)
    (hout : lp.outbox = m :: rest) :
    RemoteMove cid (linkRemote l cid before)
      (linkRemote (l.setLoop c₀ fun lp => { lp with outbox := rest, written := lp.written ++ [m] })
        cid before) := by
  obtain ⟨hlp, hopen⟩ := Option.filter_eq_some_iff.mp hloop
  have hclosed : lp.closed = false := by simpa using (Bool.and_eq_true_iff.mp hopen).2
  by_cases hc : cid = c₀
  · subst hc
    rw [remote_setLoop, hlp]
    exact .loopWrites hlp hclosed hout
  · rw [remote_setLoop_other l hc]
    exact .stay _

end

end MkPool.OriginMoves
