import MkPool.UpstreamLink
import MkPool.Lib.Tickets

/-! # Verdicts of a V1 upstream

A submit is answered by its result, by the watchdog after 30 seconds, or at once
where the link is down. What is pending when a connection closes stays until the
next connection clears the table. -/
namespace MkPool.UpstreamVerdicts
open MkPool.Lib MkPool.Lib.Tickets MkPool.Utils MkPool.JsonValue MkPool.UpstreamSource
open MkPool.UpstreamLink

/-! ## The property -/

/-- The callbacks that wait on the strand. -/
def postedCbs (posts : List Post) : List Nat :=
  posts.filterMap fun
    | .submit _ _ cb => cb
    | _ => none

/-- The callbacks that wait for the upstream of a link. -/
def pendingCbs (l : Link) : List Nat := l.pending.filterMap PendingSubmit.cb

/-- What is pending on a link is so on a live connection, and every share that
was forwarded was accepted, rejected, given up or is pending. -/
structure Accounted (l : Link) : Prop where
  live : l.pending ≠ [] → Link.isDown l = false
  count : l.statForwarded = l.statAccepted + l.statRejected + l.pending.length + l.timedOut

/-- Every callback is on its way to the strand, pending or answered, and once
so; and the shares of every link are accounted for. -/
structure Sound (verdicts : List Verdict) (c : Client) : Prop where
  once : Once c.callbacks
    (postedCbs c.posts ++ c.links.flatMap pendingCbs ++ verdicts.map Verdict.cb)
  links : ∀ l ∈ c.links, Accounted l

/-! ## The condition -/

/-- The client closes the connection on which the result came. -/
def resultCloses (l : Link) (msg : Json) : Bool :=
  match resultId msg with
  | some id =>
    if id = l.idConfigure ∧ l.idConfigure ≠ 0 then false
    else if id = l.idSubscribe ∧ l.idSubscribe ≠ 0 then !goodSubscribe msg
    else if id = l.idAuthorize ∧ l.idAuthorize ≠ 0 then !resultTrue msg
    else false
  | none => false

/-- The client closes the connection on which the message came. -/
def closesOn (l : Link) : Option Json → Bool
  | some msg =>
    msg.isObject &&
      match msg.find? "method".toList with
      | some (.string method) => method = "client.reconnect".toList
      | _ => (msg.find? "id".toList).isSome && resultCloses l msg
  | none => false

/-- A connection closes while nothing is pending on its link, and by the
watchdog while nothing is that is not given up with it. -/
def Quiet (c : Client) : Input → Prop
  | .connLost i | .writeDone i false => ∀ l ∈ c.links[i]?, l.pending = []
  | .watchdog now => c.running = true → ∀ l ∈ c.links, idle c now l = true →
    ∀ p ∈ l.pending, expired now p = true
  | .runStrand _ =>
    match c.posts with
    | .stopAll :: _ => ∀ l ∈ c.links, l.pending = []
    | .line i gen msg :: _ =>
      ∀ l ∈ c.links[i]?, l.connGen = gen → closesOn l msg = true → l.pending = []
    | _ => True
  | _ => True

/-! ## One link -/

/-- What is kept of a link. -/
structure Kept (l : Link) : Prop extends Accounted l where
  timer : l.timer = true → Link.isDown l = true
  gen : ∀ k ∈ l.conn, k.gen = l.connGen

/-- A connection that is down stays so until there is another. -/
def Later (l l' : Link) : Prop :=
  l'.connGen = l.connGen ∧ (Link.isDown l = true → Link.isDown l' = true) ∨
    l'.connGen = l.connGen + 1

/-- A handler of a link, to which some callbacks come: they are pending or
answered afterwards with those that were pending before, and the link is kept.
It posts a close of the connection that is closed only. -/
structure Handles (i : Nat) (coming : List Nat) (l : Link) (e : Effect) : Prop where
  tickets : (pendingCbs e.link ++ e.verdicts.map Verdict.cb).Perm (coming ++ pendingCbs l)
  kept : Kept e.link
  later : Later l e.link
  closing : ∀ j g, .closed j g ∈ e.posts →
    j = i ∧ g = e.link.connGen ∧ Link.isDown e.link = true
  noStart : .startAll ∉ e.posts
  noSubmit : postedCbs e.posts = []

section
variable {i now : Nat} {l : Link} {c : Client}

theorem Later.refl (l : Link) : Later l l := .inl ⟨rfl, id⟩

/-- Nothing that is accounted for changes, and the connection is not closed. -/
structure Untouched (l l' : Link) : Prop where
  down : Link.isDown l' = Link.isDown l
  conn : ∀ k ∈ l'.conn, k.gen = l'.connGen
  gen : l'.connGen = l.connGen
  pending : l'.pending = l.pending
  timer : l'.timer = true → l.timer = true
  forwarded : l'.statForwarded = l.statForwarded
  accepted : l'.statAccepted = l.statAccepted
  rejected : l'.statRejected = l.statRejected
  timedOut : l'.timedOut = l.timedOut

theorem Kept.untouched {l' : Link} (h : Kept l) (hu : Untouched l l') : Kept l' where
  live := by
    rw [hu.pending, hu.down]
    exact h.live
  count := by
    rw [hu.forwarded, hu.accepted, hu.rejected, hu.pending, hu.timedOut]
    exact h.count
  timer := by
    rw [hu.down]
    exact fun ht => h.timer (hu.timer ht)
  gen := hu.conn

/-- Posts that close nothing, start nothing and carry no callback. -/
structure Plain (posts : List Post) : Prop where
  closed : ∀ j g, .closed j g ∉ posts
  start : .startAll ∉ posts
  submit : postedCbs posts = []

theorem plain_nil : Plain [] := ⟨by simp, by simp, rfl⟩

theorem Handles.untouched {l' : Link} {posts : List Post} (h : Kept l) (hu : Untouched l l')
    (hp : Plain posts) : Handles i [] l { link := l', posts } where
  tickets := by
    simp [pendingCbs, hu.pending]
  kept := h.untouched hu
  later := .inl ⟨hu.gen, by rw [hu.down]; exact id⟩
  closing := fun j g hmem => absurd hmem (hp.closed j g)
  noStart := hp.start
  noSubmit := hp.submit

theorem Handles.after {l' : Link} {coming : List Nat} {e : Effect} (h : Handles i coming l' e)
    (hu : Untouched l l') : Handles i coming l e where
  tickets := by
    have hcbs : pendingCbs l' = pendingCbs l := congrArg (List.filterMap PendingSubmit.cb) hu.pending
    rw [← hcbs]
    exact h.tickets
  kept := h.kept
  later := by
    rcases h.later with ⟨hg, hd⟩ | hg
    · exact .inl ⟨hg.trans hu.gen, fun hdown => hd (hu.down.trans hdown)⟩
    · exact .inr (hg.trans (congrArg (· + 1) hu.gen))
  closing := h.closing
  noStart := h.noStart
  noSubmit := h.noSubmit

theorem untouched_self (h : Kept l) : Untouched l l :=
  ⟨rfl, h.gen, rfl, rfl, id, rfl, rfl, rfl, rfl⟩

theorem handles_nothing (h : Kept l) : Handles i [] l { link := l } :=
  .untouched h (untouched_self h) plain_nil

/-- The connection changes, but is not closed. -/
theorem untouched_conn (h : Kept l) (f : Conn → Conn) (hclosed : ∀ k, (f k).closed = k.closed)
    (hgen : ∀ k, (f k).gen = k.gen) : Untouched l { l with conn := l.conn.map f } where
  down := by
    unfold Link.isDown
    cases l.conn with
    | none => rfl
    | some k => exact hclosed k
  conn := by
    intro k hk
    obtain ⟨k₀, hk₀, rfl⟩ := Option.map_eq_some_iff.mp (Option.mem_def.mp hk)
    rw [hgen]
    exact h.gen k₀ hk₀
  gen := rfl
  pending := rfl
  timer := id
  forwarded := rfl
  accepted := rfl
  rejected := rfl
  timedOut := rfl

/-! ## Handlers of the connection -/

theorem Handles.close (h : Kept l) (hempty : l.pending = []) : Handles i [] l (closeConn i l) := by
  rcases closeConn_cases i l with ⟨-, hc⟩ | ⟨k, hconn, hopen, hc⟩
  · rw [hc]
    exact handles_nothing h
  · rw [hc]
    have hdown : Link.isDown { l with conn := some k.close } = true := rfl
    refine ⟨by simp [pendingCbs], ⟨⟨fun hp => absurd hempty hp, h.count⟩, fun _ => hdown, ?_⟩,
      .inl ⟨rfl, fun _ => hdown⟩, ?_, by simp, rfl⟩
    · rintro k' hk'
      obtain rfl := Option.some.inj hk'
      exact h.gen k hconn
    · intro j g hmem
      obtain ⟨rfl, rfl⟩ : j = i ∧ g = k.gen := by simpa using hmem
      exact ⟨rfl, h.gen k hconn, hdown⟩

theorem Handles.connect (h : Kept l) (hdown : Link.isDown l = true) (htimer : l.timer = false) :
    Handles i [] l (connectLink now l) := by
  have hempty : l.pending = [] := by
    by_contra hp
    have hlive := h.live hp
    rw [hdown] at hlive
    cases hlive
  refine ⟨?_, ⟨⟨fun hp => absurd rfl hp, ?_⟩, ?_, ?_⟩, .inr rfl, by simp [connectLink],
    by simp [connectLink], rfl⟩
  · simp [connectLink, pendingCbs, hempty]
  · have hcount := h.count
    rw [hempty] at hcount
    exact hcount
  · intro ht
    replace ht : l.timer = true := ht
    rw [htimer] at ht
    cases ht
  · rintro k hk
    obtain rfl := Option.some.inj hk
    rfl

theorem Untouched.after {l' l'' : Link} (h' : Untouched l' l'') (h : Untouched l l') :
    Untouched l l'' where
  down := h'.down.trans h.down
  conn := h'.conn
  gen := h'.gen.trans h.gen
  pending := h'.pending.trans h.pending
  timer := fun ht => h.timer (h'.timer ht)
  forwarded := h'.forwarded.trans h.forwarded
  accepted := h'.accepted.trans h.accepted
  rejected := h'.rejected.trans h.rejected
  timedOut := h'.timedOut.trans h.timedOut

theorem untouched_send (h : Kept l) (line : Line) : Untouched l (l.send line) :=
  untouched_conn h (fun k => k.send line) (fun _ => rfl) (fun _ => rfl)

theorem untouched_sendConfigure (h : Kept l) : Untouched l (sendConfigure c l) := by
  unfold sendConfigure
  split
  · have hids : Untouched l { l with idConfigure := l.nextId, nextId := l.nextId + 1 } :=
      ⟨rfl, h.gen, rfl, rfl, id, rfl, rfl, rfl, rfl⟩
    exact (untouched_send (h.untouched hids) _).after hids
  · exact untouched_self h

theorem untouched_sendSubscribe (h : Kept l) : Untouched l (sendSubscribe l) := by
  have hids : Untouched l { l with idSubscribe := l.nextId, nextId := l.nextId + 1 } :=
    ⟨rfl, h.gen, rfl, rfl, id, rfl, rfl, rfl, rfl⟩
  exact (untouched_send (h.untouched hids) _).after hids

theorem untouched_sendAuthorize (h : Kept l) : Untouched l (sendAuthorize l) := by
  have hids : Untouched l { l with idAuthorize := l.nextId, nextId := l.nextId + 1 } :=
    ⟨rfl, h.gen, rfl, rfl, id, rfl, rfl, rfl, rfl⟩
  exact (untouched_send (h.untouched hids) _).after hids

theorem Handles.opened (h : Kept l) : Handles i [] l (onConnOpen c now l) := by
  have hup : Untouched l { l with connected := true, lastRx := now } :=
    ⟨rfl, h.gen, rfl, rfl, id, rfl, rfl, rfl, rfl⟩
  have hconfigure := (untouched_sendConfigure (c := c) (h.untouched hup)).after hup
  have hsubscribe := (untouched_sendSubscribe (h.untouched hconfigure)).after hconfigure
  exact .untouched h ((untouched_sendAuthorize (h.untouched hsubscribe)).after hsubscribe)
    plain_nil

/-- The close of a connection that is down is handled. -/
theorem Handles.closed (h : Kept l) (hdown : Link.isDown l = true) :
    Handles i [] l (onConnClose c l) where
  tickets := by simp [onConnClose, pendingCbs]
  kept := ⟨⟨h.live, h.count⟩, fun _ => hdown, h.gen⟩
  later := .refl l
  closing := by simp [onConnClose]
  noStart := by simp [onConnClose]
  noSubmit := rfl

/-! ## Lines from the upstream -/

theorem answer_cb (cb : Option Nat) (accepted : Bool) (err : Str) :
    (answer cb accepted err).map Verdict.cb = cb.toList := by
  cases cb <;> rfl

/-- The result of a share. -/
theorem Handles.shareResult (h : Kept l) (id : Nat) (msg : Json) :
    Handles i [] l (shareResult l id msg) := by
  unfold UpstreamLink.shareResult
  split
  · exact handles_nothing h
  · rename_i p hp
    have hmem : p ∈ l.pending := List.mem_of_find?_eq_some hp
    have hlength := List.length_eraseP_add_one hmem (List.find?_some hp)
    refine ⟨?_, ⟨⟨fun _ => h.live (List.ne_nil_of_mem hmem), ?_⟩, h.timer, h.gen⟩, .refl l, by simp,
      by simp, rfl⟩
    · rw [answer_cb]
      exact perm_eraseP PendingSubmit.cb hp
    · have hcount := h.count
      dsimp only
      split <;> omega

theorem Handles.result (h : Kept l) {msg : Json}
    (hquiet : resultCloses l msg = true → l.pending = []) :
    Handles i [] l (handleResult i l msg) := by
  unfold handleResult
  unfold resultCloses at hquiet
  cases hid : resultId msg with
  | none => exact handles_nothing h
  | some id =>
  simp only [hid] at hquiet
  dsimp only
  by_cases hconfigure : id = l.idConfigure ∧ l.idConfigure ≠ 0
  · rw [if_pos hconfigure]
    exact handles_nothing h
  rw [if_neg hconfigure] at hquiet ⊢
  by_cases hsubscribe : id = l.idSubscribe ∧ l.idSubscribe ≠ 0
  · rw [if_pos hsubscribe] at hquiet ⊢
    cases hgood : goodSubscribe msg with
    | true => exact .untouched h ⟨rfl, h.gen, rfl, rfl, fun ht => ht, rfl, rfl, rfl, rfl⟩ plain_nil
    | false => exact .close h (hquiet (by rw [hgood]; rfl))
  rw [if_neg hsubscribe] at hquiet ⊢
  by_cases hauthorize : id = l.idAuthorize ∧ l.idAuthorize ≠ 0
  · rw [if_pos hauthorize] at hquiet ⊢
    cases hgood : resultTrue msg with
    | true =>
      have hflag := untouched_conn h (fun k => { k with authorized := true }) (fun _ => rfl)
        (fun _ => rfl)
      exact .untouched h
        ⟨hflag.down, hflag.conn, rfl, rfl, fun ht => ht, rfl, rfl, rfl, rfl⟩ plain_nil
    | false => exact .close h (hquiet (by rw [hgood]; rfl))
  rw [if_neg hauthorize]
  exact .shareResult h id msg

theorem Handles.line (h : Kept l) {msg : Option Json}
    (hquiet : closesOn l msg = true → l.pending = []) : Handles i [] l (onLine i now l msg) := by
  have hheard : Untouched l { l with lastRx := now } :=
    ⟨rfl, h.gen, rfl, rfl, id, rfl, rfl, rfl, rfl⟩
  have hrx := h.untouched hheard
  refine Handles.after ?_ hheard
  unfold onLine
  unfold closesOn at hquiet
  cases msg with
  | none => exact handles_nothing hrx
  | some msg =>
    dsimp only at hquiet ⊢
    split
    · rename_i hobj
      rw [hobj, Bool.true_and] at hquiet
      split
      · rename_i method hmethod
        simp only [hmethod] at hquiet
        unfold handleMethod
        split
        · rename_i hre
          exact .close hrx (hquiet (decide_eq_true hre))
        · exact handles_nothing hrx
      · split
        · rename_i hmethod hsome
          split at hquiet
          · rename_i method hstring
            exact (hmethod method hstring).elim
          · rw [hsome, Bool.true_and] at hquiet
            exact .result hrx hquiet
        · exact handles_nothing hrx
    · exact handles_nothing hrx

/-! ## Submits and the watchdog -/

/-- A submit comes to a link, and is pending or refused. -/
theorem Handles.submit (h : Kept l) (s : UpstreamSubmit) (cb : Option Nat) :
    Handles i cb.toList l (runSubmit now s cb l) := by
  unfold runSubmit
  split
  · refine ⟨?_, ⟨⟨h.live, ?_⟩, h.timer, h.gen⟩, .refl l, by simp, by simp, rfl⟩
    · rw [answer_cb]
      exact List.perm_append_comm
    · have hcount := h.count
      dsimp only
      omega
  · rename_i hup
    have hsent := untouched_send h (.submit l.nextId l.user s)
    refine ⟨?_, ⟨⟨fun _ => ?_, ?_⟩, ?_, hsent.conn⟩, .inl ⟨rfl, ?_⟩, by simp, by simp, rfl⟩
    · show (([({ id := l.nextId, cb, ts := now } : PendingSubmit)] ++ l.pending).filterMap
        PendingSubmit.cb ++ []).Perm _
      rw [List.filterMap_append, List.append_nil]
      refine List.Perm.append_right _ (.of_eq ?_)
      cases cb <;> rfl
    · exact hsent.down.trans (by simpa [Link.isDown] using hup)
    · have hcount := h.count
      simp only [UpstreamLink.Link.send, List.length_cons]
      omega
    · exact fun ht => hsent.down.trans (h.timer ht)
    · exact fun hdown => hsent.down.trans hdown

theorem expire_tickets (now : Nat) (l : Link) :
    (pendingCbs (expirePending now l).link ++ (expirePending now l).verdicts.map Verdict.cb).Perm
      (pendingCbs l) := by
  have hcbs : (expirePending now l).verdicts.map Verdict.cb =
      (l.pending.filter (expired now)).filterMap PendingSubmit.cb := by
    simp only [expirePending, List.map_flatMap, answer_cb, List.filterMap_eq_flatMap_toList]
  rw [hcbs]
  exact perm_filter PendingSubmit.cb (expired now) l.pending

theorem expire_count (now : Nat) (h : Kept l) :
    l.statForwarded = l.statAccepted + l.statRejected +
      (l.pending.filter fun p => !expired now p).length +
        (l.timedOut + (l.pending.filter (expired now)).length) := by
  have hcount := h.count
  have hlength := (List.filter_append_perm (expired now) l.pending).length_eq
  rw [List.length_append] at hlength
  omega

/-- Submits are given up on a link that stays as it is. -/
theorem Handles.expire (h : Kept l) :
    Handles i [] l { expirePending now l with posts := [] } where
  tickets := expire_tickets now l
  kept := by
    refine ⟨⟨fun hp => h.live fun hempty => hp ?_, expire_count now h⟩, h.timer, h.gen⟩
    simp [expirePending, hempty]
  later := .refl l
  closing := by simp
  noStart := by simp
  noSubmit := rfl

theorem Handles.watch (h : Kept l)
    (hquiet : idle c now l = true → ∀ p ∈ l.pending, expired now p = true) :
    Handles i [] l (watchLink c now i l) := by
  unfold watchLink
  by_cases hidle : idle c now l = true
  · rw [if_pos hidle]
    rcases closeConn_cases i l with ⟨-, hc⟩ | ⟨k, hconn, -, hc⟩
    · rw [hc]
      exact .expire h
    · rw [hc]
      have hnone : (l.pending.filter fun p => !expired now p) = [] :=
        List.filter_eq_nil_iff.mpr fun p hp => by simp [hquiet hidle p hp]
      refine ⟨expire_tickets now l, ⟨⟨fun hp => absurd hnone hp, expire_count now h⟩, fun _ => rfl, ?_⟩,
        .inl ⟨rfl, fun _ => rfl⟩, ?_, by simp, rfl⟩
      · rintro k' hk'
        obtain rfl := Option.some.inj hk'
        exact h.gen k hconn
      · intro j g hmem
        obtain ⟨rfl, rfl⟩ : j = i ∧ g = k.gen := by simpa using hmem
        exact ⟨rfl, h.gen k hconn, rfl⟩
  · rw [if_neg hidle]
    exact .expire h

/-! ## The connection, the timer and the stop -/

theorem Handles.onConn (h : Kept l) (f : Conn → Conn) (hclosed : ∀ k, (f k).closed = k.closed)
    (hgen : ∀ k, (f k).gen = k.gen) : Handles i [] l (onConn l f) :=
  .untouched h (untouched_conn h f hclosed hgen) plain_nil

theorem Handles.writeDone (h : Kept l) {ok : Bool} (hquiet : ok = false → l.pending = []) :
    Handles i [] l (writeDone i ok l) := by
  cases ok with
  | true => exact .onConn h _ (fun k => k.written_same.1) fun k => k.written_same.2.1
  | false =>
    have hstop := untouched_conn h (fun k => { k with writing := false }) (fun _ => rfl)
      (fun _ => rfl)
    exact .after (.close (h.untouched hstop) (hquiet rfl)) hstop

theorem Handles.establish (h : Kept l) : Handles i [] l (establish i l) := by
  unfold UpstreamLink.establish
  split
  · rename_i k hconn
    have hup := untouched_conn h (fun k => { k with established := true }) (fun _ => rfl)
      (fun _ => rfl)
    rw [hconn] at hup
    exact .untouched h hup ⟨by simp, by simp, rfl⟩
  · exact handles_nothing h

theorem Handles.readLine (h : Kept l) (msg : Option Json) : Handles i [] l (readLine i msg l) := by
  unfold UpstreamLink.readLine
  split
  · exact .untouched h (untouched_self h) ⟨by simp, by simp, rfl⟩
  · exact handles_nothing h

theorem Handles.timer (h : Kept l) (htimer : l.timer = true) :
    Handles i [] l (timerOver now c l) := by
  have hover : Untouched l { l with timer := false } :=
    ⟨rfl, h.gen, rfl, rfl, fun ht => (Bool.false_ne_true ht).elim, rfl, rfl, rfl, rfl⟩
  unfold timerOver connectWhileRunning
  split
  · exact .after (.connect (h.untouched hover) (hover.down.trans (h.timer htimer)) rfl) hover
  · exact .untouched h hover plain_nil

theorem Handles.stop (h : Kept l) (hempty : l.pending = []) : Handles i [] l (stopLink i l) := by
  have hgone {e : Effect} (hpending : e.link.pending = l.pending) (hcount : Accounted e.link) :
      Kept { e.link with timer := false, conn := none } :=
    ⟨⟨fun hp => absurd (hpending.trans hempty) hp, hcount.count⟩, fun _ => rfl, by simp⟩
  have hclose : Handles i [] l (closeConn i l) := .close h hempty
  unfold stopLink
  rcases closeConn_cases i l with ⟨-, hc⟩ | ⟨k, -, -, hc⟩
  · rw [hc] at hclose ⊢
    exact ⟨hclose.tickets, hgone rfl hclose.kept.toAccounted, .inl ⟨rfl, fun _ => rfl⟩, by simp,
      by simp, rfl⟩
  · rw [hc] at hclose ⊢
    refine ⟨hclose.tickets, hgone rfl hclose.kept.toAccounted, .inl ⟨rfl, fun _ => rfl⟩, ?_,
      by simp, rfl⟩
    intro j g hmem
    exact ⟨(hclose.closing j g hmem).1, (hclose.closing j g hmem).2.1, rfl⟩

end

/-! ## All links -/

/-- The link was never connected. -/
def Fresh (l : Link) : Prop := l.conn = none ∧ l.timer = false

/-- What is kept, while some callbacks are on the way to a link. -/
structure Books (coming : List Nat) (verdicts : List Verdict) (c : Client) : Prop where
  once : Once c.callbacks
    (coming ++ (postedCbs c.posts ++ c.links.flatMap pendingCbs ++ verdicts.map Verdict.cb))
  links : ∀ l ∈ c.links, Kept l
  closing : ∀ i g, .closed i g ∈ c.posts → ∀ l ∈ c.links[i]?,
    g ≤ l.connGen ∧ (g = l.connGen → Link.isDown l = true)
  start : ∀ p posts, c.posts = p :: posts → .startAll ∉ posts
  fresh : .startAll ∈ c.posts → ∀ l ∈ c.links, Fresh l

theorem postedCbs_append (posts posts' : List Post) :
    postedCbs (posts ++ posts') = postedCbs posts ++ postedCbs posts' :=
  List.filterMap_append

section
variable {c : Client} {coming : List Nat} {verdicts : List Verdict} {i now : Nat}

theorem Books.sound (h : Books [] verdicts c) : Sound verdicts c :=
  ⟨h.once, fun l hl => (h.links l hl).toAccounted⟩

theorem start_append {posts posts' : List Post}
    (h : ∀ p rest, posts = p :: rest → .startAll ∉ rest) (h' : .startAll ∉ posts') :
    ∀ p rest, posts ++ posts' = p :: rest → .startAll ∉ rest := by
  intro p rest heq
  cases posts with
  | nil =>
    rintro hmem
    rw [List.nil_append] at heq
    exact h' (heq ▸ List.mem_cons_of_mem p hmem)
  | cons q posts =>
    obtain ⟨rfl, rfl⟩ := List.cons.inj heq
    exact fun hmem => (List.mem_append.mp hmem).elim (h q posts rfl) h'

/-- A handler of a link runs. -/
theorem Books.onLink (h : Books coming verdicts c) {f : Link → Effect} {l : Link}
    (hl : c.links[i]? = some l) (hf : Handles i coming l (f l))
    (hfresh : .startAll ∈ c.posts → Fresh (f l).link) :
    Books [] (verdicts ++ (onLink c i f).2) (onLink c i f).1 := by
  unfold UpstreamLink.onLink
  simp only [hl]
  refine ⟨h.once.perm ?_, ?_, ?_, start_append h.start hf.noStart, ?_⟩
  · have hset := perm_flatMap_set pendingCbs hl (f l).link
    refine List.perm_iff_count.mpr fun n => ?_
    have hn := hset.count_eq n
    have hn' := hf.tickets.count_eq n
    simp only [postedCbs_append, hf.noSubmit, List.append_nil, List.nil_append, List.map_append,
      List.count_append] at hn hn' ⊢
    omega
  · intro l' hl'
    rcases List.mem_or_eq_of_mem_set hl' with hl' | rfl
    · exact h.links l' hl'
    · exact hf.kept
  · intro j g hmem l' hl'
    rcases List.mem_append.mp hmem with hold | hnew
    · by_cases hj : j = i
      · subst hj
        rw [List.getElem?_set_self (List.getElem?_eq_some_iff.mp hl).1] at hl'
        obtain rfl := Option.some.inj hl'
        obtain ⟨hle, hdown⟩ := h.closing j g hold l hl
        rcases hf.later with ⟨hg, hd⟩ | hg
        · exact ⟨hg ▸ hle, fun heq => hd (hdown (heq.trans hg))⟩
        · exact ⟨by omega, fun heq => by omega⟩
      · rw [List.getElem?_set_ne (Ne.symm hj)] at hl'
        exact h.closing j g hold l' hl'
    · obtain ⟨rfl, rfl, hdown⟩ := hf.closing j g hnew
      rw [List.getElem?_set_self (List.getElem?_eq_some_iff.mp hl).1] at hl'
      obtain rfl := Option.some.inj hl'
      exact ⟨Nat.le_refl _, fun _ => hdown⟩
  · intro hmem l' hl'
    have hposted : .startAll ∈ c.posts :=
      (List.mem_append.mp hmem).resolve_right hf.noStart
    rcases List.mem_or_eq_of_mem_set hl' with hl' | rfl
    · exact h.fresh hposted l' hl'
    · exact hfresh hposted

/-- A handler of a link that may not be there. -/
theorem Books.onLink_of (h : Books [] verdicts c) {f : Link → Effect}
    (hf : ∀ l, c.links[i]? = some l → Kept l → Handles i [] l (f l))
    (hfresh : .startAll ∈ c.posts → ∀ l, c.links[i]? = some l → Fresh l → Fresh (f l).link) :
    Books [] (verdicts ++ (UpstreamLink.onLink c i f).2) (UpstreamLink.onLink c i f).1 := by
  cases hl : c.links[i]? with
  | none =>
    unfold UpstreamLink.onLink
    rw [hl, List.append_nil]
    exact h
  | some l =>
    have hmem := List.mem_of_getElem? hl
    exact h.onLink hl (hf l hl (h.links l hmem)) fun hs => hfresh hs l hl (h.fresh hs l hmem)

/-- A handler that goes through the links, each once. -/
theorem Books.onLinks {f : Client → Nat → Link → Effect} (ready : Link → Prop)
    (hf : ∀ links posts i l, Kept l → ready l → Handles i [] l (f { c with links, posts } i l)) :
    ∀ is links posts (verdicts : List Verdict), is.Nodup →
      Books [] verdicts { c with links, posts } →
      (∀ i ∈ is, ∀ l ∈ links[i]?, ready l) →
      (.startAll ∈ posts →
        ∀ links posts i l, Fresh l → Fresh (f { c with links, posts } i l).link) →
      Books [] (verdicts ++ (UpstreamLink.onLinks f { c with links, posts } is).2)
        (UpstreamLink.onLinks f { c with links, posts } is).1
  | [], links, posts, verdicts, _, h, _, _ => by
    unfold UpstreamLink.onLinks
    rw [List.append_nil]
    exact h
  | i :: is, links, posts, verdicts, hnodup, h, hready, hfresh => by
    obtain ⟨hnot, hnodup⟩ := List.nodup_cons.mp hnodup
    have hstep := h.onLink_of (i := i) (f := f { c with links, posts } i)
      (fun l hl hk => hf links posts i l hk (hready i (List.mem_cons_self ..) l hl))
      (fun hs l _ hl => hfresh hs links posts i l hl)
    unfold UpstreamLink.onLinks
    dsimp only
    rw [← List.append_assoc]
    unfold UpstreamLink.onLink at hstep ⊢
    cases hl : links[i]? with
    | none =>
      simp only [hl] at hstep ⊢
      exact Books.onLinks ready hf is links posts _ hnodup hstep
        (fun j hj => hready j (List.mem_cons_of_mem i hj)) hfresh
    | some l =>
      simp only [hl] at hstep ⊢
      refine Books.onLinks ready hf is _ _ _ hnodup hstep ?_ ?_
      · intro j hj l' hl'
        rw [List.getElem?_set_ne fun heq : i = j => hnot (heq ▸ hj)] at hl'
        exact hready j (List.mem_cons_of_mem i hj) l' hl'
      · intro hs
        have he := hf links posts i l (h.links l (List.mem_of_getElem? hl))
          (hready i (List.mem_cons_self ..) l hl)
        exact hfresh ((List.mem_append.mp hs).resolve_right he.noStart)

/-! ## Steps -/

theorem fresh_closeConn {l : Link} (h : Fresh l) : Fresh (closeConn i l).link := by
  unfold closeConn
  rw [h.1]
  exact h

theorem fresh_watch {l : Link} (h : Fresh l) : Fresh (watchLink c now i l).link := by
  unfold watchLink
  split
  · exact ⟨(fresh_closeConn h).1, (fresh_closeConn h).2⟩
  · exact h

theorem fresh_map {l : Link} (h : Fresh l) (f : Conn → Conn) :
    Fresh { l with conn := l.conn.map f } :=
  ⟨by rw [h.1]; rfl, h.2⟩

/-- A handler is posted from outside. -/
theorem Books.post {coming : List Nat} (h : Books coming verdicts c) {p : Post} (running : Bool)
    (hclosed : ∀ i g, p ≠ .closed i g) (hstart : p ≠ .startAll) (hcoming : coming = postedCbs [p]) :
    Books [] verdicts { c with running, posts := c.posts ++ [p] } where
  once := by
    refine h.once.perm ?_
    rw [postedCbs_append, hcoming, List.nil_append]
    simp only [List.append_assoc]
    exact List.perm_append_comm_assoc ..
  links := h.links
  closing := by
    intro i g hmem
    rcases List.mem_append.mp hmem with hmem | hmem
    · exact h.closing i g hmem
    · exact (hclosed i g (List.mem_singleton.mp hmem).symm).elim
  start := start_append h.start fun hmem => hstart (List.mem_singleton.mp hmem).symm
  fresh := by
    intro hmem
    rcases List.mem_append.mp hmem with hmem | hmem
    · exact h.fresh hmem
    · exact (hstart (List.mem_singleton.mp hmem).symm).elim

theorem Books.stop (h : Books [] verdicts c) :
    Books [] (verdicts ++ (react c .stop).2) (react c .stop).1 := by
  rw [show (UpstreamLink.react c .stop).2 = [] from rfl, List.append_nil]
  exact h.post false (fun _ _ => by simp) (by simp) rfl

theorem Books.submit (h : Books [] verdicts c) (linkId : Nat) (s : UpstreamSubmit) (cb : Bool) :
    Books [] (verdicts ++ (react c (.submit linkId s cb)).2)
      (react c (.submit linkId s cb)).1 := by
  rw [show (UpstreamLink.react c (.submit linkId s cb)).2 = [] from rfl, List.append_nil]
  cases cb with
  | true =>
    have hissued : Books [c.callbacks] verdicts { c with callbacks := c.callbacks + 1 } :=
      ⟨h.once.issue (.refl _), h.links, h.closing, h.start, h.fresh⟩
    exact hissued.post c.running (fun _ _ => by simp) (by simp) rfl
  | false => exact h.post c.running (fun _ _ => by simp) (by simp) rfl

/-- The first handler is taken from the strand. -/
theorem Books.pop (h : Books [] verdicts c) {p : Post} {posts : List Post} (hp : c.posts = p :: posts) :
    Books (postedCbs [p]) verdicts { c with posts } where
  once := by
    have honce := h.once
    rw [hp, ← List.singleton_append, postedCbs_append] at honce
    simpa only [List.append_assoc, List.nil_append] using honce
  links := h.links
  closing := fun i g hmem => h.closing i g (hp ▸ List.mem_cons_of_mem p hmem)
  start := by
    rintro q rest heq hmem
    replace heq : posts = q :: rest := heq
    exact h.start p posts hp (heq ▸ List.mem_cons_of_mem q hmem)
  fresh := fun hmem => (h.start p posts hp hmem).elim

theorem Books.runPost (h : Books [] verdicts c) {p : Post} {posts : List Post}
    (hp : c.posts = p :: posts) (hok : Quiet c (.runStrand now)) :
    Books [] (verdicts ++ (runPost { c with posts } now p).2) (runPost { c with posts } now p).1 := by
  have hpop := h.pop hp
  have hstart : .startAll ∉ posts := h.start p posts hp
  unfold Quiet at hok
  rw [hp] at hok
  unfold UpstreamLink.runPost
  cases p with
  | startAll =>
    have hfresh := h.fresh (hp ▸ List.mem_cons_self ..)
    refine Books.onLinks Fresh ?_ _ _ _ _ List.nodup_range hpop
      (fun i _ l hl => hfresh l (List.mem_of_getElem? hl)) (fun hs => (hstart hs).elim)
    intro links posts i l hk hl
    unfold connectWhileRunning
    split
    · exact .connect hk (by unfold Link.isDown; rw [hl.1]; rfl) hl.2
    · exact handles_nothing hk
  | stopAll =>
    exact Books.onLinks (fun l => l.pending = []) (fun _ _ _ _ hk hl => .stop hk hl) _ _ _ _
      List.nodup_range hpop (fun i _ l hl => hok l (List.mem_of_getElem? hl))
      (fun hs => (hstart hs).elim)
  | opened i g =>
    refine hpop.onLink_of (fun l _ hk => ?_) (fun hs => (hstart hs).elim)
    unfold whenCurrent
    split
    · exact .opened hk
    · exact handles_nothing hk
  | closed i g =>
    refine hpop.onLink_of (fun l hl hk => ?_) (fun hs => (hstart hs).elim)
    unfold whenCurrent
    split
    · rename_i hg
      exact .closed hk ((h.closing i g (hp ▸ List.mem_cons_self ..) l hl).2 hg.symm)
    · exact handles_nothing hk
  | line i g msg =>
    refine hpop.onLink_of (fun l hl hk => ?_) (fun hs => (hstart hs).elim)
    unfold whenCurrent
    split
    · rename_i hg
      exact .line hk (hok l hl hg)
    · exact handles_nothing hk
  | submit linkId s cb =>
    have hcb : postedCbs [.submit linkId s cb] = cb.toList := by cases cb <;> rfl
    rw [hcb] at hpop
    dsimp only
    split
    · rename_i hlt
      obtain ⟨l, hl⟩ : ∃ l, c.links[linkId]? = some l := ⟨_, List.getElem?_eq_getElem hlt⟩
      exact hpop.onLink hl (.submit (h.links l (List.mem_of_getElem? hl)) s cb)
        (fun hs => (hstart hs).elim)
    · refine ⟨hpop.once.perm ?_, hpop.links, hpop.closing, hpop.start, hpop.fresh⟩
      rw [List.map_append, answer_cb, List.nil_append, ← List.append_assoc]
      exact List.perm_append_comm

theorem Books.react (h : Books [] verdicts c) {i : Input} (hoffer : Offered c i) (hok : Quiet c i) :
    Books [] (verdicts ++ (react c i).2) (react c i).1 := by
  cases i with
  | stop => exact h.stop
  | submit linkId s cb => exact h.submit linkId s cb
  | runStrand now =>
    unfold UpstreamLink.react
    cases hp : c.posts with
    | nil =>
      dsimp only
      rw [List.append_nil]
      exact h
    | cons p posts => exact h.runPost hp hok
  | timerFires i now =>
    refine h.onLink_of (fun l hl hk => .timer hk (hoffer l hl)) fun _ l hl hfresh => ?_
    have htimer := hoffer l hl
    rw [hfresh.2] at htimer
    cases htimer
  | watchdog now =>
    unfold UpstreamLink.react
    dsimp only
    split
    · rename_i hrun
      exact Books.onLinks
        (fun l => idle c now l = true → ∀ p ∈ l.pending, expired now p = true)
        (fun _ _ _ _ hk hl => .watch hk hl) _ _ _ _ List.nodup_range h
        (fun i _ l hl => hok hrun l (List.mem_of_getElem? hl)) (fun _ _ _ _ _ hl => fresh_watch hl)
    · rw [List.append_nil]
      exact h
  | connEstablished i =>
    refine h.onLink_of (fun l _ hk => .establish hk) fun _ l _ hl => ?_
    unfold UpstreamLink.establish
    rw [hl.1]
    exact hl
  | connLost i =>
    exact h.onLink_of (fun l hl hk => .close hk (hok l hl)) fun _ l _ hl => fresh_closeConn hl
  | lineRead i msg =>
    refine h.onLink_of (fun l _ hk => .readLine hk msg) fun _ l _ hl => ?_
    unfold UpstreamLink.readLine
    rw [hl.1]
    exact hl
  | runSend i =>
    exact h.onLink_of (fun l _ hk => .onConn hk _ (fun k => k.runSend_same.1)
      fun k => k.runSend_same.2.1) fun _ l _ hl => fresh_map hl _
  | writeDone i ok =>
    refine h.onLink_of (fun l hl hk => .writeDone hk fun hfalse => ?_) fun _ l _ hl => ?_
    · subst hfalse
      exact hok l hl
    · unfold UpstreamLink.writeDone
      split
      · exact fresh_map hl _
      · exact fresh_closeConn (fresh_map hl _)

end

theorem initial_links {rolling : Bool} {mask : UInt32} {timeout : Nat} {endpoints : List (Str × Str)}
    {l : Link} (hl : l ∈ (initial rolling mask timeout endpoints).links) :
    Fresh l ∧ Kept l ∧ pendingCbs l = [] := by
  obtain ⟨e, -, rfl⟩ := List.mem_map.mp hl
  exact ⟨⟨rfl, rfl⟩, ⟨⟨fun hp => absurd rfl hp, rfl⟩, by simp, by simp⟩, rfl⟩

theorem books_initial (rolling : Bool) (mask : UInt32) (timeout : Nat)
    (endpoints : List (Str × Str)) : Books [] [] (initial rolling mask timeout endpoints) where
  once := by
    have hnone : (initial rolling mask timeout endpoints).links.flatMap pendingCbs = [] :=
      List.flatMap_eq_nil_iff.mpr fun l hl => (initial_links hl).2.2
    rw [hnone]
    exact once_nil
  links := fun l hl => (initial_links hl).2.1
  closing := by simp [initial]
  start := by simp [initial]
  fresh := fun _ l hl => (initial_links hl).1

theorem books {verdicts : List Verdict} {c : Client} (h : Run Quiet verdicts c) :
    Books [] verdicts c := by
  induction h with
  | init rolling mask timeout endpoints => exact books_initial rolling mask timeout endpoints
  | step _ hoffer hok ih => exact ih.react hoffer hok

/-- While connections close with nothing pending, every callback gets one
verdict. -/
theorem submits_answered_once {verdicts : List Verdict} {c : Client} (h : Run Quiet verdicts c) :
    Sound verdicts c :=
  (books h).sound

/-- A share of a worker. -/
def aShare : UpstreamSubmit where
  jobId := "1".toList
  en2FullHex := "0000".toList
  ntimeHex := "00000000".toList
  nonceHex := "00000000".toList
  versionBits := none

/-- No connection is lost, and the pool stops nothing. -/
def quietly (c : Client) : Input → Bool
  | .connLost _ | .writeDone _ false | .watchdog _ => false
  | .runStrand _ =>
    match c.posts with
    | .stopAll :: _ => false
    | .line _ _ msg :: _ => c.links.all fun l => !closesOn l msg
    | _ => true
  | _ => true

theorem quiet_of_quietly (c : Client) (i : Input) (h : quietly c i = true) : Quiet c i := by
  unfold Quiet
  cases i with
  | connLost => cases h
  | watchdog => cases h
  | writeDone i ok =>
    cases ok with
    | true => exact trivial
    | false => cases h
  | runStrand now =>
    unfold quietly at h
    dsimp only at h ⊢
    split
    · rename_i hposts
      simp [hposts] at h
    · rename_i i gen msg posts hposts
      intro l hl _ hcloses
      simp only [hposts, List.all_eq_true] at h
      have hopen := h l (List.mem_of_getElem? hl)
      rw [hcloses] at hopen
      cases hopen
    · exact trivial
  | _ => exact trivial

/-- A submit of which the result comes. -/
theorem submits_answered_once_accepted :
    ∃ verdicts c, Run Quiet verdicts c ∧ verdicts = [{ cb := 0, accepted := true, err := [] }] ∧
      Sound verdicts c := by
  obtain ⟨verdicts, c, hrun, hv⟩ := exists_run quietly quiet_of_quietly true [([], [])]
    (connects ++ [.submit 0 aShare true, .runStrand 0,
      .lineRead 0 (some (.object [("id".toList, .unsigned 4), ("result".toList, .bool true)])),
      .runStrand 0])
    (fun verdicts _ => decide (verdicts = [{ cb := 0, accepted := true, err := [] }]))
    (by decide +kernel)
  exact ⟨verdicts, c, hrun, of_decide_eq_true hv, submits_answered_once hrun⟩

/-- The connection is lost while a submit is pending. -/
def losesSubmit : List Input :=
  connects ++ [.submit 0 aShare true, .runStrand 0, .connLost 0]

/-- **A pending submit is forgotten** when its connection is lost: it stays on a
dead connection until the next one clears the table, and its callback is never
called. -/
theorem lost_submit_forgotten :
    (∃ verdicts c, Run (fun _ _ => True) verdicts c ∧ c.links.flatMap pendingCbs = [0] ∧
      ¬ Sound verdicts c) ∧
    ∃ verdicts c, Run (fun _ _ => True) verdicts c ∧ c.callbacks = 1 ∧
      postedCbs c.posts ++ c.links.flatMap pendingCbs ++ verdicts.map Verdict.cb = [] ∧
      ¬ Sound verdicts c := by
  constructor
  · obtain ⟨verdicts, c, hrun, hbad⟩ := exists_run (fun _ _ => true) (fun _ _ _ => trivial)
      true [([], [])] losesSubmit
      (fun _ c => decide (c.links.flatMap pendingCbs = [0]) &&
        c.links.any fun l => !l.pending.isEmpty && Link.isDown l) (by decide +kernel)
    simp only [Bool.and_eq_true, decide_eq_true_eq, List.any_eq_true] at hbad
    obtain ⟨hpending, l, hl, hne, hdown⟩ := hbad
    refine ⟨verdicts, c, hrun, hpending, fun hs => ?_⟩
    have hlive := (hs.links l hl).live (by simpa using hne)
    rw [hdown] at hlive
    cases hlive
  · obtain ⟨verdicts, c, hrun, hbad⟩ := exists_run (fun _ _ => true) (fun _ _ _ => trivial)
      true [([], [])] (losesSubmit ++ [.runStrand 0, .timerFires 0 0])
      (fun verdicts c => decide (c.callbacks = 1) && decide
        (postedCbs c.posts ++ c.links.flatMap pendingCbs ++ verdicts.map Verdict.cb = []))
      (by decide +kernel)
    simp only [Bool.and_eq_true, decide_eq_true_eq] at hbad
    refine ⟨verdicts, c, hrun, hbad.1, hbad.2, fun hs => ?_⟩
    have hlength := hs.once.length
    rw [hbad.1, hbad.2] at hlength
    cases hlength

end MkPool.UpstreamVerdicts
