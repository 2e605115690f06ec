import MkPool.UpstreamLink

/-! # The handshake of a V1 upstream

A connection is silent until it is established. Then it gets the lines of the
handshake, and submits once it is authorized. -/
namespace MkPool.Handshake
open MkPool.Utils MkPool.JsonValue MkPool.UpstreamSource MkPool.UpstreamLink

/-! ## The property -/

inductive Kind where
  | configure
  | subscribe
  | authorize
  | submit
deriving DecidableEq

def kind : Line → Kind
  | .configure .. => .configure
  | .subscribe .. => .subscribe
  | .authorize .. => .authorize
  | .submit .. => .submit

/-- The kinds of the first lines. -/
def opening (rolling : Bool) : List Kind :=
  (if rolling then [.configure] else []) ++ [.subscribe, .authorize]

/-- Nothing is written before the connection is established, and nothing is
being written that could fail before; the handshake is written first; and a
submit after the authorize succeeded. -/
structure HandshakeFirst (rolling : Bool) (k : Conn) : Prop where
  established : ∀ w ∈ k.begun, w.2.1 = true
  attempt : k.established = false → k.writing = false
  order : ∃ n, k.begun.map (fun w => kind w.1) <+: opening rolling ++ List.replicate n .submit
  authorized : ∀ w ∈ k.begun, kind w.1 = .submit → w.2.2 = true

/-! ## The condition -/

/-- A submit that reaches a link finds it authorized or down. -/
def Welcome (c : Client) : Input → Prop
  | .runStrand _ =>
    match c.posts with
    | .submit linkId _ _ :: _ => ∀ l ∈ c.links[linkId]?, l.isDown = false → l.authorized = true
    | _ => True
  | _ => True

/-! ## One connection -/

/-- The lines that were handed to a connection, and are not begun. -/
def todo (k : Conn) : List Line := (if k.writing then k.queue.tail else []) ++ k.posted

/-- Nothing was handed to the connection. -/
structure Silent (k : Conn) : Prop where
  writing : k.writing = false
  queue : k.queue = []
  posted : k.posted = []
  begun : k.begun = []

/-- The handshake was handed to the connection, and maybe submits. -/
structure Talking (rolling : Bool) (k : Conn) : Prop where
  established : k.established = true
  busy : k.writing = true → k.queue ≠ []
  idle : k.writing = false → k.queue = []
  stream : ∃ n, k.begun.map (fun w => kind w.1) ++ (todo k).map kind =
    opening rolling ++ List.replicate n .submit
  begun : ∀ w ∈ k.begun, w.2.1 = true ∧ (kind w.1 = .submit → w.2.2 = true)
  authorized : ∀ line ∈ todo k, kind line = .submit → k.authorized = true

/-- Where the open connection of a link is, with as many handlers of its opening
posted. -/
inductive Stage (rolling : Bool) (l : Link) (k : Conn) (openings : Nat) : Prop where
  | closed (hclosed : k.closed = true) (h : HandshakeFirst rolling k)
  | connecting (hdown : k.established = false) (hsilent : Silent k) (hid : l.idAuthorize = 0)
    (hauth : l.authorized = false) (hnone : openings = 0)
  | established (hup : k.established = true) (hsilent : Silent k) (hid : l.idAuthorize = 0)
    (hauth : l.authorized = false) (hone : openings = 1)
  | talking (htalk : Talking rolling k) (hauth : l.authorized = true → k.authorized = true)
    (hnone : openings = 0)

section
variable {rolling : Bool} {k : Conn} {l : Link} {n : Nat}

theorem Silent.handshakeFirst (h : Silent k) : HandshakeFirst rolling k where
  established := by simp [h.begun]
  attempt := fun _ => h.writing
  order := ⟨0, by simp [h.begun]⟩
  authorized := by simp [h.begun]

theorem Talking.handshakeFirst (h : Talking rolling k) : HandshakeFirst rolling k where
  established := fun w hw => (h.begun w hw).1
  attempt := fun hdown => absurd h.established (by simp [hdown])
  order := by
    obtain ⟨n, hn⟩ := h.stream
    exact ⟨n, hn ▸ List.prefix_append _ _⟩
  authorized := fun w hw => (h.begun w hw).2

theorem Stage.handshakeFirst (h : Stage rolling l k n) : HandshakeFirst rolling k := by
  cases h with
  | closed _ h => exact h
  | connecting _ hsilent => exact hsilent.handshakeFirst
  | established _ hsilent => exact hsilent.handshakeFirst
  | talking htalk => exact htalk.handshakeFirst

theorem HandshakeFirst.close (h : HandshakeFirst rolling k) : HandshakeFirst rolling k.close :=
  ⟨h.established, h.attempt, h.order, h.authorized⟩

/-! ## Writing -/

theorem doWrite_cons {line : Line} {rest : List Line} (hq : k.queue = line :: rest)
    (hopen : k.closed = false) :
    k.doWrite = { k with begun := k.begun ++ [(line, k.established, k.authorized)] } := by
  unfold Conn.doWrite
  rw [hq]
  simp [hopen]

/-- The next line is begun. -/
theorem Talking.begin {k' : Conn} (line : Line) (h : Talking rolling k)
    (htodo : todo k = line :: todo k')
    (hbegun : k'.begun = k.begun ++ [(line, k.established, k.authorized)])
    (hup : k'.established = k.established) (hauth : k'.authorized = k.authorized)
    (hbusy : k'.writing = true → k'.queue ≠ []) (hidle : k'.writing = false → k'.queue = []) :
    Talking rolling k' where
  established := hup.trans h.established
  busy := hbusy
  idle := hidle
  stream := by
    obtain ⟨n, hn⟩ := h.stream
    refine ⟨n, ?_⟩
    rw [htodo] at hn
    rw [hbegun]
    simpa using hn
  begun := by
    intro w hw
    rw [hbegun] at hw
    rcases List.mem_append.mp hw with hw | hw
    · exact h.begun w hw
    · obtain rfl := List.mem_singleton.mp hw
      exact ⟨h.established, h.authorized line (htodo ▸ List.mem_cons_self ..)⟩
  authorized := by
    intro line' hline hkind
    rw [hauth]
    exact h.authorized line' (htodo ▸ List.mem_cons_of_mem line hline) hkind

/-- Lines move, but none is begun. -/
theorem Talking.shift {k' : Conn} (h : Talking rolling k) (htodo : todo k' = todo k)
    (hbegun : k'.begun = k.begun) (hup : k'.established = k.established)
    (hauth : k.authorized = true → k'.authorized = true)
    (hbusy : k'.writing = true → k'.queue ≠ []) (hidle : k'.writing = false → k'.queue = []) :
    Talking rolling k' where
  established := hup.trans h.established
  busy := hbusy
  idle := hidle
  stream := by
    rw [htodo, hbegun]
    exact h.stream
  begun := by
    rw [hbegun]
    exact h.begun
  authorized := by
    rw [htodo]
    exact fun line hline hkind => hauth (h.authorized line hline hkind)

theorem Talking.runSend (h : Talking rolling k) (hopen : k.closed = false) :
    Talking rolling k.runSend := by
  unfold Conn.runSend
  split
  · exact h
  · rename_i line posted hposted
    rw [if_neg (by simp [hopen])]
    cases hw : k.writing with
    | true =>
      obtain ⟨head, rest, hq⟩ := List.exists_cons_of_ne_nil (h.busy hw)
      refine h.shift ?_ rfl rfl id ?_ ?_
      · simp [todo, hw, hq, hposted]
      · simp
      · simp
    | false =>
      have hq := h.idle hw
      have hwrite := @doWrite_cons
        { k with posted, queue := k.queue ++ [line], writing := true } line [] (by simp [hq]) hopen
      simp only [Bool.false_eq_true, if_false]
      rw [hwrite]
      refine h.begin line ?_ rfl rfl rfl ?_ ?_
      · simp [todo, hw, hq, hposted]
      · simp
      · simp

theorem Talking.written (h : Talking rolling k) (hopen : k.closed = false)
    (hw : k.writing = true) : Talking rolling k.written := by
  obtain ⟨head, rest, hq⟩ := List.exists_cons_of_ne_nil (h.busy hw)
  unfold Conn.written
  rw [if_neg (by simp [hopen, hq])]
  simp only [hq, List.tail_cons]
  cases rest with
  | nil =>
    refine h.shift ?_ rfl rfl id (by simp) (by simp)
    simp [todo, hw, hq]
  | cons next rest =>
    have hwrite := @doWrite_cons { k with queue := next :: rest } next rest rfl hopen
    simp only [List.isEmpty_cons, Bool.false_eq_true, if_false]
    rw [hwrite]
    refine h.begin next ?_ rfl rfl rfl (by simp) (by simp [hw])
    simp [todo, hw, hq]

theorem Silent.runSend (h : Silent k) : k.runSend = k := by
  unfold Conn.runSend
  rw [h.posted]

/-- A closed connection begins nothing. -/
theorem runSend_of_closed (h : HandshakeFirst rolling k) (hclosed : k.closed = true) :
    k.runSend.closed = true ∧ HandshakeFirst rolling k.runSend := by
  unfold Conn.runSend
  split
  · exact ⟨hclosed, h⟩
  · rw [if_pos hclosed]
    exact ⟨hclosed, h.established, h.attempt, h.order, h.authorized⟩

theorem written_of_closed (h : HandshakeFirst rolling k) (hclosed : k.closed = true) :
    k.written.closed = true ∧ HandshakeFirst rolling k.written := by
  unfold Conn.written
  rw [if_pos (by simp [hclosed])]
  exact ⟨hclosed, h.established, fun _ => rfl, h.order, h.authorized⟩

end

/-! ## One link -/

/-- How many openings of a connection of link `i` are posted. -/
def openings (i : Nat) (posts : List Post) (gen : Nat) : Nat :=
  posts.countP fun
    | .opened j g => j = i && g = gen
    | _ => false

/-- What is kept of a link. -/
structure Inv (rolling : Bool) (l : Link) (opens : Nat → Nat) : Prop where
  gens : ∀ g, opens g ≠ 0 → g ≤ l.connGen
  gen : ∀ k ∈ l.conn, k.gen = l.connGen
  stage : ∀ k ∈ l.conn, Stage rolling l k (opens l.connGen)

/-- A handler of link `i` keeps it, and posts no opening for another. -/
structure Keeps (rolling : Bool) (i : Nat) (opens : Nat → Nat) (e : Effect) : Prop where
  inv : Inv rolling e.link fun g => opens g + openings i e.posts g
  others : ∀ j ≠ i, ∀ g, openings j e.posts g = 0

theorem openings_append (i : Nat) (posts posts' : List Post) (gen : Nat) :
    openings i (posts ++ posts') gen = openings i posts gen + openings i posts' gen :=
  List.countP_append

section
variable {rolling : Bool} {i now : Nat} {l l' : Link} {k : Conn} {n : Nat} {opens : Nat → Nat}
  {c : Client}

theorem Keeps.quiet {posts : List Post} {verdicts : List Verdict} (h : Inv rolling l' opens)
    (hposts : ∀ j g, openings j posts g = 0) :
    Keeps rolling i opens { link := l', posts, verdicts } where
  inv := by
    have hsame : (fun g => opens g + openings i posts g) = opens :=
      funext fun g => by rw [hposts, Nat.add_zero]
    rw [hsame]
    exact h
  others := fun j _ g => hposts j g

theorem Stage.same (h : Stage rolling l k n) (hid : l'.idAuthorize = l.idAuthorize)
    (hauth : l'.authorized = true → l.authorized = true) : Stage rolling l' k n := by
  have hoff (hoff : l.authorized = false) : l'.authorized = false := by
    by_contra hon
    rw [hauth (by simpa using hon)] at hoff
    cases hoff
  cases h with
  | closed hclosed h => exact .closed hclosed h
  | connecting hdown hsilent hid' hauth' hnone =>
    exact .connecting hdown hsilent (hid.trans hid') (hoff hauth') hnone
  | established hup hsilent hid' hauth' hone =>
    exact .established hup hsilent (hid.trans hid') (hoff hauth') hone
  | talking htalk hauth' hnone => exact .talking htalk (fun hon => hauth' (hauth hon)) hnone

/-- Nothing of the connection changes. -/
theorem Inv.same (h : Inv rolling l opens) (hconn : l'.conn = l.conn)
    (hgen : l'.connGen = l.connGen) (hid : l'.idAuthorize = l.idAuthorize)
    (hauth : l'.authorized = true → l.authorized = true) : Inv rolling l' opens where
  gens := by
    rw [hgen]
    exact h.gens
  gen := by
    rw [hconn, hgen]
    exact h.gen
  stage := by
    rw [hconn, hgen]
    exact fun k hk => (h.stage k hk).same hid hauth

/-- The connection changes, and moves to another stage. -/
theorem Inv.conn (h : Inv rolling l opens) (f : Conn → Conn) (hconn : l'.conn = l.conn.map f)
    (hgen : l'.connGen = l.connGen) (hf : ∀ k, (f k).gen = k.gen)
    (hstage : ∀ k, l.conn = some k → Stage rolling l k (opens l.connGen) →
      Stage rolling l' (f k) (opens l.connGen)) : Inv rolling l' opens where
  gens := by
    rw [hgen]
    exact h.gens
  gen := by
    intro k hk
    rw [hconn] at hk
    obtain ⟨k₀, hk₀, rfl⟩ := Option.map_eq_some_iff.mp (Option.mem_def.mp hk)
    rw [hf, hgen]
    exact h.gen k₀ hk₀
  stage := by
    intro k hk
    rw [hconn] at hk
    obtain ⟨k₀, hk₀, rfl⟩ := Option.map_eq_some_iff.mp (Option.mem_def.mp hk)
    rw [hgen]
    exact hstage k₀ hk₀ (h.stage k₀ hk₀)

theorem keeps_closeConn (h : Inv rolling l opens) : Keeps rolling i opens (closeConn i l) := by
  rcases closeConn_cases i l with ⟨-, hc⟩ | ⟨k, hconn, -, hc⟩
  · rw [hc]
    exact .quiet h fun _ _ => rfl
  · rw [hc]
    refine .quiet (h.conn Conn.close (by rw [hconn]; rfl) rfl (fun _ => rfl) ?_) fun _ _ => rfl
    exact fun k _ hk => .closed rfl hk.handshakeFirst.close

theorem inv_connect (h : Inv rolling l opens) : Inv rolling (connectLink now l).link opens where
  gens := fun g hg => (h.gens g hg).trans (Nat.le_succ _)
  gen := by
    rintro k hk
    obtain rfl := Option.some.inj hk
    rfl
  stage := by
    rintro k hk
    obtain rfl := Option.some.inj hk
    refine .connecting rfl ⟨rfl, rfl, rfl, rfl⟩ rfl rfl ?_
    by_contra hposted
    have hle := h.gens (l.connGen + 1) hposted
    omega

theorem keeps_connect (h : Inv rolling l opens) :
    Keeps rolling i opens (connectWhileRunning now c l) := by
  unfold connectWhileRunning
  split
  · exact .quiet (inv_connect h) fun _ _ => rfl
  · exact .quiet h fun _ _ => rfl

/-! ## The opening -/

/-- What the opening sends. -/
theorem onConnOpen_sends (c : Client) (now : Nat) (l : Link) :
    ∃ lines : List Line, lines.map kind = opening c.enableVersionRolling ∧
      (onConnOpen c now l).link.conn =
        l.conn.map (fun k => { k with posted := k.posted ++ lines }) ∧
      (onConnOpen c now l).link.connGen = l.connGen ∧
      (onConnOpen c now l).link.authorized = l.authorized := by
  unfold onConnOpen sendAuthorize sendSubscribe sendConfigure
  cases hrolling : c.enableVersionRolling with
  | true =>
    refine ⟨[.configure l.nextId c.versionRollingMask, .subscribe (l.nextId + 1),
      .authorize (l.nextId + 1 + 1) l.user l.pass], rfl, ?_, rfl, rfl⟩
    cases hconn : l.conn <;> simp [Link.send, Conn.send]
  | false =>
    refine ⟨[.subscribe l.nextId, .authorize (l.nextId + 1) l.user l.pass], rfl, ?_, rfl, rfl⟩
    cases hconn : l.conn <;> simp [Link.send, Conn.send]

theorem submit_not_mem_opening (rolling : Bool) : Kind.submit ∉ opening rolling := by
  cases rolling <;> decide

/-- The opening is handled, which was posted once. -/
theorem inv_onConnOpen (h : Inv c.enableVersionRolling l fun g =>
      opens g + if g = l.connGen then 1 else 0) :
    Inv c.enableVersionRolling (onConnOpen c now l).link opens := by
  obtain ⟨lines, hkinds, hconn, hgen, hauth⟩ := onConnOpen_sends c now l
  refine ⟨?_, ?_, ?_⟩
  · intro g hg
    rw [hgen]
    exact h.gens g (by omega)
  · intro k hk
    rw [hconn] at hk
    obtain ⟨k₀, hk₀, rfl⟩ := Option.map_eq_some_iff.mp (Option.mem_def.mp hk)
    rw [hgen]
    exact h.gen k₀ hk₀
  · intro k hk
    rw [hconn] at hk
    obtain ⟨k₀, hk₀, rfl⟩ := Option.map_eq_some_iff.mp (Option.mem_def.mp hk)
    have hstage := h.stage k₀ hk₀
    simp only [if_true] at hstage
    rw [hgen]
    cases hstage with
    | closed hclosed hf =>
      exact .closed hclosed ⟨hf.established, hf.attempt, hf.order, hf.authorized⟩
    | connecting _ _ _ _ hnone => omega
    | established hup hsilent _ hoff hone =>
      have htodo : todo { k₀ with posted := k₀.posted ++ lines } = lines := by
        simp [todo, hsilent.writing, hsilent.posted]
      refine .talking ⟨hup, ?_, fun _ => hsilent.queue, ⟨0, ?_⟩, ?_, ?_⟩ ?_ (by omega)
      · exact fun hw => absurd (hw.symm.trans hsilent.writing) (by simp)
      · rw [htodo]
        simp [hsilent.begun, hkinds]
      · simp [hsilent.begun]
      · intro line hline hkind
        rw [htodo] at hline
        have hmem : kind line ∈ opening c.enableVersionRolling := hkinds ▸ List.mem_map_of_mem hline
        rw [hkind] at hmem
        exact (submit_not_mem_opening _ hmem).elim
      · rw [hauth, hoff]
        exact fun hon => (Bool.false_ne_true hon).elim
    | talking _ _ hnone => omega

/-- The connect is done. -/
theorem keeps_establish (h : Inv rolling l opens)
    (hoffer : ∀ k ∈ l.conn, k.closed = false ∧ k.established = false) :
    Keeps rolling i opens (establish i l) := by
  unfold UpstreamLink.establish
  split
  · rename_i k hconn
    obtain ⟨hopen, hdown⟩ := hoffer k hconn
    have hgen := h.gen k hconn
    have hself (g : Nat) : openings i [.opened i k.gen] g = if k.gen = g then 1 else 0 := by
      simp [openings, List.countP_cons]
    refine ⟨⟨?_, ?_, ?_⟩, ?_⟩
    · intro g hg
      dsimp only at hg ⊢
      rw [hself] at hg
      by_cases hold : opens g = 0
      · rw [hold] at hg
        split at hg
        · omega
        · exact absurd rfl hg
      · exact h.gens g hold
    · rintro k' hk'
      obtain rfl := Option.some.inj hk'
      exact hgen
    · rintro k' hk'
      obtain rfl := Option.some.inj hk'
      dsimp only
      rw [hself, if_pos hgen]
      cases h.stage k hconn with
      | closed hclosed => simp [hopen] at hclosed
      | connecting _ hsilent hid hauth hnone =>
        exact .established rfl ⟨hsilent.writing, hsilent.queue, hsilent.posted, hsilent.begun⟩ hid hauth
          (by omega)
      | established hup => simp [hdown] at hup
      | talking htalk =>
        have hup := htalk.established
        simp [hdown] at hup
    · intro j hj g
      simp [openings, hj.symm]
  · exact .quiet h fun _ _ => rfl

/-! ## Lines, submits and writes -/

theorem keeps_handleResult (h : Inv rolling l opens) (msg : Json) :
    Keeps rolling i opens (handleResult i l msg) := by
  unfold handleResult
  split
  · exact .quiet h fun _ _ => rfl
  · split
    · exact .quiet h fun _ _ => rfl
    · split
      · split
        · exact .quiet (h.same rfl rfl rfl id) fun _ _ => rfl
        · exact keeps_closeConn h
      · split
        · rename_i hauthorize
          split
          · refine .quiet (h.conn (fun k => { k with authorized := true }) rfl rfl (fun _ => rfl) ?_)
              fun _ _ => rfl
            intro k _ hk
            cases hk with
            | closed hclosed hf =>
              exact .closed hclosed ⟨hf.established, hf.attempt, hf.order, hf.authorized⟩
            | connecting _ _ hid => exact (hauthorize.2 hid).elim
            | established _ _ hid => exact (hauthorize.2 hid).elim
            | talking htalk _ hnone =>
              exact .talking (htalk.shift rfl rfl rfl (fun _ => rfl) htalk.busy htalk.idle)
                (fun _ => rfl) hnone
          · exact keeps_closeConn h
        · unfold shareResult
          split
          · exact .quiet h fun _ _ => rfl
          · exact .quiet (h.same rfl rfl rfl id) fun _ _ => rfl

theorem keeps_onLine (h : Inv rolling l opens) (msg : Option Json) :
    Keeps rolling i opens (onLine i now l msg) := by
  have hrx : Inv rolling { l with lastRx := now } opens := h.same rfl rfl rfl id
  unfold onLine
  dsimp only
  split
  · split
    · split
      · unfold handleMethod
        split
        · exact keeps_closeConn hrx
        · exact .quiet hrx fun _ _ => rfl
      · split
        · exact keeps_handleResult hrx _
        · exact .quiet hrx fun _ _ => rfl
    · exact .quiet hrx fun _ _ => rfl
  · exact .quiet hrx fun _ _ => rfl

/-- A submit is sent on an authorized link. -/
theorem keeps_runSubmit (h : Inv rolling l opens) (s : UpstreamSubmit) (cb : Option Nat)
    (hok : l.isDown = false → l.authorized = true) :
    Keeps rolling i opens (runSubmit now s cb l) := by
  unfold runSubmit
  split
  · exact .quiet (h.same rfl rfl rfl id) fun _ _ => rfl
  · rename_i hup
    have hauth := hok (by simpa [Link.isDown] using hup)
    refine .quiet (h.conn (fun k => k.send (.submit l.nextId l.user s)) rfl rfl (fun _ => rfl) ?_)
      fun _ _ => rfl
    intro k _ hk
    cases hk with
    | closed hclosed hf =>
      exact .closed hclosed ⟨hf.established, hf.attempt, hf.order, hf.authorized⟩
    | connecting _ _ _ hoff => simp [hauth] at hoff
    | established _ _ _ hoff => simp [hauth] at hoff
    | talking htalk hauth' hnone =>
      refine .talking ⟨htalk.established, htalk.busy, htalk.idle, ?_, htalk.begun, ?_⟩ hauth' hnone
      · obtain ⟨n, hn⟩ := htalk.stream
        refine ⟨n + 1, ?_⟩
        have htodo : todo (k.send (.submit l.nextId l.user s)) =
            todo k ++ [.submit l.nextId l.user s] := (List.append_assoc ..).symm
        rw [List.replicate_succ', ← List.append_assoc, ← hn, htodo, List.map_append,
          ← List.append_assoc]
        rfl
      · exact fun _ _ _ => hauth' hauth

theorem keeps_watch (h : Inv rolling l opens) : Keeps rolling i opens (watchLink c now i l) := by
  unfold watchLink
  split
  · have hclose : Keeps rolling i opens (closeConn i l) := keeps_closeConn h
    exact ⟨hclose.inv.same rfl rfl rfl id, hclose.others⟩
  · exact .quiet (h.same rfl rfl rfl id) fun _ _ => rfl

theorem keeps_stop (h : Inv rolling l opens) : Keeps rolling i opens (stopLink i l) := by
  have hclose : Keeps rolling i opens (closeConn i l) := keeps_closeConn h
  exact ⟨⟨hclose.inv.gens, by simp [stopLink], by simp [stopLink]⟩, hclose.others⟩

/-- A handler of the connection that changes no stage. -/
theorem keeps_onConn (h : Inv rolling l opens) {f : Conn → Conn} (hgen : ∀ k, (f k).gen = k.gen)
    (hauth : ∀ k, (f k).authorized = k.authorized) (hsilent : ∀ k, Silent k → f k = k)
    (hclosed : ∀ k, l.conn = some k → k.closed = true → HandshakeFirst rolling k →
      (f k).closed = true ∧ HandshakeFirst rolling (f k))
    (htalking : ∀ k, l.conn = some k → k.closed = false → Talking rolling k → Talking rolling (f k)) :
    Keeps rolling i opens (onConn l f) := by
  refine .quiet (h.conn f rfl rfl hgen fun k hconn hk => ?_) fun _ _ => rfl
  refine Stage.same (l := l) ?_ rfl id
  cases hopen : k.closed with
  | true =>
    obtain ⟨hstill, hf⟩ := hclosed k hconn hopen hk.handshakeFirst
    exact .closed hstill hf
  | false =>
    cases hk with
    | closed hclosed' => simp [hopen] at hclosed'
    | connecting hdown hs hid hoff hnone =>
      rw [hsilent k hs]
      exact .connecting hdown hs hid hoff hnone
    | established hup hs hid hoff hone =>
      rw [hsilent k hs]
      exact .established hup hs hid hoff hone
    | talking htalk hon hnone =>
      exact .talking (htalking k hconn hopen htalk) (fun hl => (hauth k).trans (hon hl)) hnone

theorem keeps_runSend (h : Inv rolling l opens) : Keeps rolling i opens (onConn l Conn.runSend) :=
  keeps_onConn h (fun k => k.runSend_same.2.1) (fun k => k.runSend_same.2.2)
    (fun _ hs => hs.runSend) (fun _ _ hclosed hf => runSend_of_closed hf hclosed)
    fun _ _ hopen htalk => htalk.runSend hopen

theorem keeps_writeDone (h : Inv rolling l opens) (ok : Bool)
    (hoffer : ∀ k ∈ l.conn, k.writing = true) : Keeps rolling i opens (writeDone i ok l) := by
  cases ok with
  | true =>
    refine keeps_onConn h (fun k => k.written_same.2.1) (fun k => k.written_same.2.2)
      (fun k hs => ?_) (fun _ _ hclosed hf => written_of_closed hf hclosed)
      fun k hconn hopen htalk => htalk.written hopen (hoffer k hconn)
    unfold Conn.written
    rw [if_pos (by simp [hs.queue])]
    exact congrArg (fun w => { k with writing := w }) hs.writing.symm
  | false =>
    unfold UpstreamLink.writeDone
    rw [if_neg (by simp)]
    unfold closeConn
    cases hconn : l.conn with
    | none => exact .quiet (h.same hconn.symm rfl rfl id) fun _ _ => rfl
    | some k =>
      have hf : HandshakeFirst rolling { k with writing := false } := by
        have hk := (h.stage k hconn).handshakeFirst
        exact ⟨hk.established, fun _ => rfl, hk.order, hk.authorized⟩
      dsimp only [Option.map_some]
      split
      · rename_i hclosed
        refine .quiet (h.conn (fun k => { k with writing := false }) (by rw [hconn]; rfl) rfl
          (fun _ => rfl) fun k' hk' _ => ?_) fun _ _ => rfl
        obtain rfl := Option.some.inj (hconn.symm.trans hk')
        exact .closed hclosed hf
      · refine .quiet (h.conn (fun k => { k with writing := false }.close) (by rw [hconn]; rfl) rfl
          (fun _ => rfl) fun k' hk' _ => ?_) fun _ _ => rfl
        obtain rfl := Option.some.inj (hconn.symm.trans hk')
        exact .closed rfl hf.close

end

/-! ## All links -/

/-- What is kept of all links. -/
def Books (c : Client) : Prop :=
  ∀ i l, c.links[i]? = some l → Inv c.enableVersionRolling l (openings i c.posts)

section
variable {c : Client} {i now : Nat}

/-- A handler of a link runs. -/
theorem books_onLink {f : Link → Effect}
    (hi : ∀ l, c.links[i]? = some l →
      Keeps c.enableVersionRolling i (openings i c.posts) (f l))
    (hothers : ∀ j l, j ≠ i → c.links[j]? = some l →
      Inv c.enableVersionRolling l (openings j c.posts)) : Books (onLink c i f).1 := by
  unfold onLink
  cases hl : c.links[i]? with
  | none =>
    intro j l hj
    refine hothers j l ?_ hj
    rintro rfl
    rw [hl] at hj
    cases hj
  | some l =>
    have hkeep := hi l hl
    intro j l' hj
    have hposts : openings j (c.posts ++ (f l).posts) =
        fun g => openings j c.posts g + openings j (f l).posts g :=
      funext fun g => openings_append j c.posts (f l).posts g
    dsimp only at hj ⊢
    rw [hposts]
    by_cases hji : j = i
    · subst hji
      rw [List.getElem?_set_self (List.getElem?_eq_some_iff.mp hl).1] at hj
      obtain rfl := Option.some.inj hj
      exact hkeep.inv
    · rw [List.getElem?_set_ne (Ne.symm hji)] at hj
      have hsame : (fun g => openings j c.posts g + openings j (f l).posts g) = openings j c.posts :=
        funext fun g => by rw [hkeep.others j hji g, Nat.add_zero]
      rw [hsame]
      exact hothers j l' hji hj

theorem Books.onLink (h : Books c) {f : Link → Effect}
    (hf : ∀ l, c.links[i]? = some l → Inv c.enableVersionRolling l (openings i c.posts) →
      Keeps c.enableVersionRolling i (openings i c.posts) (f l)) :
    Books (UpstreamLink.onLink c i f).1 :=
  books_onLink (fun l hl => hf l hl (h i l hl)) fun j l _ hl => h j l hl

/-- A handler that goes through the links. -/
theorem Books.onLinks {f : Client → Nat → Link → Effect}
    (hf : ∀ links posts i l, Inv c.enableVersionRolling l (openings i posts) →
      Keeps c.enableVersionRolling i (openings i posts) (f { c with links, posts } i l)) :
    ∀ is links posts, Books { c with links, posts } →
      Books (UpstreamLink.onLinks f { c with links, posts } is).1
  | [], _, _, h => h
  | i :: is, links, posts, h => by
    have hstep := h.onLink (i := i) (f := f { c with links, posts } i)
      fun l _ hinv => hf links posts i l hinv
    unfold UpstreamLink.onLinks
    dsimp only
    unfold UpstreamLink.onLink at hstep ⊢
    cases hl : links[i]? with
    | none =>
      simp only [hl] at hstep ⊢
      exact Books.onLinks hf is links posts hstep
    | some l =>
      simp only [hl] at hstep ⊢
      exact Books.onLinks hf is _ _ hstep

theorem Books.onAll {f : Client → Nat → Link → Effect} (h : Books c)
    (hf : ∀ links posts i l, Inv c.enableVersionRolling l (openings i posts) →
      Keeps c.enableVersionRolling i (openings i posts) (f { c with links, posts } i l)) :
    Books (UpstreamLink.onAll c f).1 :=
  Books.onLinks hf _ c.links c.posts h

/-- What is posted opens nothing. -/
theorem Books.posts (h : Books c) (posts : List Post)
    (hposts : ∀ j g, openings j posts g = openings j c.posts g) : Books { c with posts } := by
  intro j l hl
  have hsame : openings j posts = openings j c.posts := funext fun g => hposts j g
  show Inv _ l (openings j posts)
  rw [hsame]
  exact h j l hl

theorem Books.runPost (h : Books c) {p : Post} {posts : List Post} (hp : c.posts = p :: posts)
    (hok : Welcome c (.runStrand now)) : Books (runPost { c with posts } now p).1 := by
  have hpop (hnone : ∀ j g, openings j [p] g = 0) : Books { c with posts } := by
    refine h.posts _ fun j g => ?_
    rw [hp, ← List.singleton_append, openings_append, hnone, Nat.zero_add]
  unfold UpstreamLink.runPost
  cases p with
  | startAll => exact (hpop fun _ _ => rfl).onAll fun _ _ _ _ hinv => keeps_connect hinv
  | stopAll => exact (hpop fun _ _ => rfl).onAll fun _ _ _ _ hinv => keeps_stop hinv
  | opened i g =>
    have hopens (j : Nat) : openings j c.posts =
        fun g' => openings j posts g' + if i = j ∧ g = g' then 1 else 0 := by
      funext g'
      rw [hp]
      simp [openings, List.countP_cons]
    refine books_onLink (fun l hl => ?_) fun j l hj hl => ?_
    · have hinv := h i l hl
      rw [hopens i] at hinv
      unfold whenCurrent
      dsimp only
      split
      · rename_i hg
        refine .quiet (inv_onConnOpen ?_) fun _ _ => rfl
        convert hinv using 3 with g'
        simp [hg, eq_comm]
      · rename_i hg
        refine .quiet ⟨fun g' hg' => hinv.gens g' (by omega), hinv.gen, ?_⟩ fun _ _ => rfl
        intro k hk
        have hstage := hinv.stage k hk
        rw [if_neg fun heq => hg heq.2.symm] at hstage
        exact hstage
    · have hinv := h j l hl
      rw [hopens j] at hinv
      simpa [hj.symm] using hinv
  | closed i g =>
    refine (hpop fun _ _ => rfl).onLink fun l _ hinv => ?_
    unfold whenCurrent
    split
    · exact .quiet (hinv.same rfl rfl rfl fun hon => (Bool.false_ne_true hon).elim) fun _ _ => rfl
    · exact .quiet hinv fun _ _ => rfl
  | line i g msg =>
    refine (hpop fun _ _ => rfl).onLink fun l _ hinv => ?_
    unfold whenCurrent
    split
    · exact keeps_onLine hinv msg
    · exact .quiet hinv fun _ _ => rfl
  | submit linkId s cb =>
    unfold Welcome at hok
    rw [hp] at hok
    dsimp only
    split
    · exact (hpop fun _ _ => rfl).onLink fun l hl hinv => keeps_runSubmit hinv s cb (hok l hl)
    · exact hpop fun _ _ => rfl

theorem Books.react (h : Books c) {i : Input} (hoffer : Offered c i) (hok : Welcome c i) :
    Books (react c i).1 := by
  cases i with
  | stop =>
    refine (h.posts (c.posts ++ [.stopAll]) fun j g => ?_ : Books _)
    rw [openings_append]
    rfl
  | submit linkId s cb =>
    refine (h.posts (c.posts ++ [.submit linkId s _]) fun j g => ?_ : Books _)
    rw [openings_append]
    rfl
  | runStrand now =>
    unfold UpstreamLink.react
    cases hp : c.posts with
    | nil => exact h
    | cons p posts => exact h.runPost hp hok
  | timerFires i now =>
    exact h.onLink fun l _ hinv => keeps_connect (hinv.same rfl rfl rfl id)
  | watchdog now =>
    unfold UpstreamLink.react
    dsimp only
    split
    · exact h.onAll fun _ _ _ _ hinv => keeps_watch hinv
    · exact h
  | connEstablished i => exact h.onLink fun l hl hinv => keeps_establish hinv (hoffer l hl)
  | connLost i => exact h.onLink fun _ _ hinv => keeps_closeConn hinv
  | lineRead i msg =>
    refine h.onLink fun l _ hinv => ?_
    unfold readLine
    split
    · exact .quiet hinv fun _ _ => rfl
    · exact .quiet hinv fun _ _ => rfl
  | runSend i => exact h.onLink fun _ _ hinv => keeps_runSend hinv
  | writeDone i ok => exact h.onLink fun l hl hinv => keeps_writeDone hinv ok (hoffer l hl)

end

theorem books_initial (rolling : Bool) (mask : UInt32) (timeout : Nat)
    (endpoints : List (Str × Str)) : Books (initial rolling mask timeout endpoints) := by
  intro i l hl
  obtain ⟨e, -, rfl⟩ := List.mem_map.mp (List.mem_of_getElem? hl)
  exact ⟨fun g hg => absurd rfl hg, by simp, by simp⟩

theorem books {verdicts : List Verdict} {c : Client} (h : Run Welcome verdicts c) : Books c := by
  induction h with
  | init rolling mask timeout endpoints => exact books_initial rolling mask timeout endpoints
  | step _ hoffer hok ih => exact ih.react hoffer hok

/-- While submits reach links that are authorized or down, every connection
gets its handshake first. -/
theorem handshake_first {verdicts : List Verdict} {c : Client} (h : Run Welcome verdicts c) :
    ∀ l ∈ c.links, ∀ k ∈ l.conn, HandshakeFirst c.enableVersionRolling k := by
  intro l hl k hk
  obtain ⟨i, hi⟩ := List.mem_iff_getElem?.mp hl
  exact ((books h i l hi).stage k hk).handshakeFirst

/-- A share of a worker. -/
def workerShare : UpstreamSubmit where
  jobId := "1".toList
  en2FullHex := "0000".toList
  ntimeHex := "00000000".toList
  nonceHex := "00000000".toList
  versionBits := none

/-- The submit at the head of the strand finds all links authorized. -/
def welcomed (c : Client) : Input → Bool
  | .runStrand _ =>
    match c.posts with
    | .submit _ _ _ :: _ => c.links.all Link.authorized
    | _ => true
  | _ => true

theorem welcome_of_welcomed (c : Client) (i : Input) (h : welcomed c i = true) : Welcome c i := by
  unfold Welcome
  cases i with
  | runStrand now =>
    unfold welcomed at h
    dsimp only at h ⊢
    split
    · rename_i hposts
      simp only [hposts, List.all_eq_true] at h
      exact fun l hl _ => h l (List.mem_of_getElem? hl)
    · exact trivial
  | _ => exact trivial

/-- The lines that were begun, by their kinds. -/
def begunKinds (k : Conn) : List (Kind × Bool × Bool) := k.begun.map fun w => (kind w.1, w.2)

def begunLines (c : Client) : List (Kind × Bool × Bool) :=
  c.links.flatMap fun l => l.conn.toList.flatMap begunKinds

/-- A submit after the authorize. -/
theorem handshake_first_submit :
    ∃ verdicts c, Run Welcome verdicts c ∧
      begunLines c = [(.configure, true, false), (.subscribe, true, false),
        (.authorize, true, false), (.submit, true, true)] ∧
      ∀ l ∈ c.links, ∀ k ∈ l.conn, HandshakeFirst c.enableVersionRolling k := by
  obtain ⟨verdicts, c, hrun, hlines⟩ := exists_run welcomed welcome_of_welcomed true [([], [])]
    (connects ++ [.runSend 0, .runSend 0, .runSend 0, .writeDone 0 true, .writeDone 0 true,
      .writeDone 0 true,
      .lineRead 0 (some (.object [("id".toList, .unsigned 3), ("result".toList, .bool true)])),
      .runStrand 0, .submit 0 workerShare true, .runStrand 0, .runSend 0])
    (fun _ c => decide (begunLines c = [(.configure, true, false), (.subscribe, true, false),
      (.authorize, true, false), (.submit, true, true)])) (by decide +kernel)
  exact ⟨verdicts, c, hrun, of_decide_eq_true hlines, handshake_first hrun⟩

/-- **A submit is written first** on a connection that is not established; its
write fails, and the attempt is closed. On a connection that is, a submit is
written before the authorize succeeded. -/
theorem submit_written_first :
    (∃ verdicts c, Run (fun _ _ => True) verdicts c ∧ begunLines c = [(.submit, false, false)] ∧
      ∃ l ∈ c.links, ∃ k ∈ l.conn, k.closed = true ∧ k.established = false ∧
        ¬ HandshakeFirst c.enableVersionRolling k) ∧
    ∃ verdicts c, Run (fun _ _ => True) verdicts c ∧
      ∃ l ∈ c.links, ∃ k ∈ l.conn, begunKinds k = [(.configure, true, false),
          (.subscribe, true, false), (.authorize, true, false), (.submit, true, false)] ∧
        ¬ HandshakeFirst c.enableVersionRolling k := by
  constructor
  · obtain ⟨verdicts, c, hrun, hbad⟩ := exists_run (fun _ _ => true) (fun _ _ _ => trivial)
      true [([], [])] [.runStrand 0, .submit 0 workerShare true, .runStrand 0, .runSend 0,
        .writeDone 0 false]
      (fun _ c => decide (begunLines c = [(.submit, false, false)]) && c.links.any fun l =>
        l.conn.any fun k => k.closed && !k.established && k.begun.any fun w => !w.2.1)
      (by decide +kernel)
    simp only [Bool.and_eq_true, decide_eq_true_eq, List.any_eq_true, Option.any_eq_true,
      Bool.not_eq_true'] at hbad
    obtain ⟨hlines, l, hl, k, hk, ⟨hclosed, hdown⟩, w, hw, hearly⟩ := hbad
    refine ⟨verdicts, c, hrun, hlines, l, hl, k, hk, hclosed, hdown, fun hf => ?_⟩
    have hup := hf.established w hw
    rw [hearly] at hup
    cases hup
  · obtain ⟨verdicts, c, hrun, hbad⟩ := exists_run (fun _ _ => true) (fun _ _ _ => trivial)
      true [([], [])] (connects ++ [.submit 0 workerShare true, .runStrand 0, .runSend 0, .runSend 0,
        .runSend 0, .runSend 0, .writeDone 0 true, .writeDone 0 true, .writeDone 0 true])
      (fun _ c => c.links.any fun l => l.conn.any fun k =>
        decide (begunKinds k = [(.configure, true, false), (.subscribe, true, false),
          (.authorize, true, false), (.submit, true, false)])) (by decide +kernel)
    simp only [List.any_eq_true, Option.any_eq_true, decide_eq_true_eq] at hbad
    obtain ⟨l, hl, k, hk, hlines⟩ := hbad
    refine ⟨verdicts, c, hrun, l, hl, k, hk, hlines, fun hf => ?_⟩
    have hmem : (Kind.submit, true, false) ∈ begunKinds k := by
      rw [hlines]
      simp
    obtain ⟨w, hw, heq⟩ := List.mem_map.mp hmem
    have hauth := hf.authorized w hw (congrArg Prod.fst heq)
    rw [congrArg (fun t => t.2) (Prod.mk.inj heq).2] at hauth
    cases hauth

end MkPool.Handshake
