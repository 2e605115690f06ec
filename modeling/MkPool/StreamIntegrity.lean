import MkPool.ClusterRuns

/-! # A miner's lines over the trunk

What a loopback connection has written is the beginning of what the miner said, and
the other way round, as long as no full buffer has dropped a line between. -/
namespace MkPool.StreamIntegrity
open MkPool.Utils MkPool.ClusterProtocol MkPool.ClusterNet MkPool.ClusterMiner
open MkPool.OriginMoves MkPool.EdgeMoves MkPool.ClusterRuns

/-- Lines as they are written. -/
def ended (lines : List Str) : List Str := lines.map (· ++ ['\n'])

/-- The lines that frames carry. -/
def datas (fs : List Frame) : List Str :=
  fs.filterMap fun
    | .data _ l => some (l ++ ['\n'])
    | _ => none

@[simp] theorem ended_append (a b : List Str) : ended (a ++ b) = ended a ++ ended b :=
  List.map_append

@[simp] theorem ended_singleton (l : Str) : ended [l] = [l ++ ['\n']] := rfl

@[simp] theorem datas_append (a b : List Frame) : datas (a ++ b) = datas a ++ datas b :=
  List.filterMap_append

@[simp] theorem datas_nil : datas [] = [] := rfl

@[simp] theorem datas_data (c : Nat) (l : Str) (fs : List Frame) :
    datas (.data c l :: fs) = (l ++ ['\n']) :: datas fs := rfl

theorem datas_cons {f : Frame} (h : ∀ c l, f ≠ .data c l) (fs : List Frame) :
    datas (f :: fs) = datas fs := by
  cases f with
  | data c l => exact absurd rfl (h c l)
  | _ => rfl

theorem datas_begins {a b : List Frame} (h : a <+: b) : datas a <+: datas b := by
  obtain ⟨rest, rfl⟩ := h
  rw [datas_append]
  exact List.prefix_append _ _

/-! ## To the origin -/

/-- The session has no first frame on its way. -/
def Opened (cid : Nat) (fs : List Frame) : Prop := ∀ ip, .openMiner cid ip ∉ fs

theorem Opened.suffix {cid : Nat} {a b : List Frame} (h : Opened cid b) (hab : a <:+ b) :
    Opened cid a :=
  fun ip hmem => h ip (hab.subset hmem)

theorem Opened.append {cid : Nat} {a b : List Frame} (ha : Opened cid a) (hb : Opened cid b) :
    Opened cid (a ++ b) := fun ip hmem =>
  (List.mem_append.mp hmem).elim (ha ip) (hb ip)

theorem Opened.drop {cid : Nat} {before after : List Frame} {f : Frame}
    (h : Opened cid (before ++ f :: after)) : Opened cid (before ++ after) := fun ip hmem =>
  h ip <| (List.mem_append.mp hmem).elim (List.mem_append_left _) fun hmem =>
    List.mem_append_right _ (List.mem_cons_of_mem _ hmem)

/-- The miner's lines on their way. -/
inductive Forward (cid : Nat) (v : Miner) : Prop where
  /-- The first frame is on its way, and nothing has come back. -/
  | waiting (ip : Str) (rest : List Frame) : v.up = .openMiner cid ip :: rest →
    Opened cid rest → datas rest = ended v.read → v.remote = {} → v.outbox = [] → v.written = [] →
    Forward cid v
  | served (c : ClusterIngest.Client) (lp : Loopback) : Opened cid v.up →
    v.remote.client = some c → v.remote.loop = some lp → (c.connected = true → c.pending = []) →
    (lp.closed = true → lp.written <+: ended v.read) →
    (lp.closed = false → lp.written ++ lp.outbox ++ c.pending ++ datas v.up = ended v.read) →
    Forward cid v
  | gone : Opened cid v.up → v.remote.client = none →
    (∀ lp, v.remote.loop = some lp → lp.closed = true ∧ lp.written <+: ended v.read) →
    Forward cid v

variable {cid : Nat} {v v' : Miner}

/-- What the loopback connection has written. -/
theorem Forward.written (h : Forward cid v) {lp : Loopback} (hlp : v.remote.loop = some lp) :
    lp.written <+: ended v.read := by
  cases h with
  | waiting ip rest hup hrest hread hremote =>
    rw [hremote] at hlp
    cases hlp
  | served c lp' hup hclient hloop hpending hclosed hopen =>
    obtain rfl : lp' = lp := Option.some.inj (hloop.symm.trans hlp)
    by_cases h : lp'.closed = true
    · exact hclosed h
    · rw [← hopen (by simpa using h), List.append_assoc, List.append_assoc]
      exact List.prefix_append _ _
  | gone hup hclient hloop => exact (hloop lp hlp).2

theorem Forward.shut (h : Forward cid v) (lp : Loopback)
    (hlp : v.remote.loop.map Loopback.close = some lp) :
    lp.closed = true ∧ lp.written <+: ended v.read := by
  obtain ⟨lp₀, hlp₀, rfl⟩ := Option.map_eq_some_iff.mp hlp
  have hwritten : lp₀.written <+: ended v.read := h.written hlp₀
  exact ⟨rfl, hwritten⟩

/-- The frames are cut off at their front, and the client is dropped. -/
theorem Forward.cut (h : Forward cid v) (hup : v'.up <:+ v.up) (hclient : v'.remote.client = none)
    (hloop : v'.remote.loop = none ∨ v'.remote.loop = v.remote.loop.map Loopback.close)
    (hback : v'.remote.back <+: v.remote.back)
    (hsame : v'.read = v.read ∧ v'.outbox = v.outbox ∧ v'.written = v.written) : Forward cid v' := by
  have hgone (hopened : Opened cid v'.up) : Forward cid v' := by
    refine .gone hopened hclient fun lp hlp => ?_
    rcases hloop with hloop | hloop
    · rw [hloop] at hlp
      cases hlp
    · rw [hsame.1]
      exact h.shut lp (hloop.symm.trans hlp)
  cases h with
  | waiting ip rest hup₀ hrest hread hremote hout hwritten =>
    rw [hup₀] at hup
    rcases List.suffix_cons_iff.mp hup with hup | hup
    · have hremote' : v'.remote = {} := by
        have hnone : v'.remote.loop = none := by
          rcases hloop with h | h
          · exact h
          · rw [h, hremote]
            rfl
        rw [hremote] at hback
        rw [show v'.remote = ⟨v'.remote.client, v'.remote.loop, v'.remote.back⟩ from rfl, hclient,
          hnone, List.prefix_nil.mp hback]
      refine .waiting ip rest hup hrest ?_ hremote' (hsame.2.1.trans hout) (hsame.2.2.trans hwritten)
      rw [hsame.1]
      exact hread
    · exact hgone (hrest.suffix hup)
  | served c lp hopened => exact hgone (hopened.suffix hup)
  | gone hopened => exact hgone (hopened.suffix hup)

theorem sendAll_closed {lp : Loopback} (h : lp.closed = true) (lines : List Str) :
    sendAll lines lp = lp := by
  induction lines with
  | nil => rfl
  | cons line lines ih =>
    rw [sendAll, List.foldl_cons, Loopback.send, if_pos h]
    exact ih

theorem sendAll_open {lp : Loopback} (h : lp.closed = false) (lines : List Str) :
    sendAll lines lp = { lp with outbox := lp.outbox ++ lines } := by
  induction lines generalizing lp with
  | nil => simp [sendAll]
  | cons line lines ih =>
    rw [sendAll, List.foldl_cons, Loopback.send, if_neg (by simp [h])]
    have hrest : sendAll lines { lp with outbox := lp.outbox ++ [line] } =
        { lp with outbox := lp.outbox ++ [line] ++ lines } := ih h
    refine hrest.trans ?_
    rw [List.append_assoc]
    rfl

theorem sendAll_kept (lines : List Str) (lp : Loopback) :
    (sendAll lines lp).closed = lp.closed ∧ (sendAll lines lp).written = lp.written ∧
      (sendAll lines lp).read = lp.read := by
  by_cases h : lp.closed = true
  · rw [sendAll_closed h]
    exact ⟨rfl, rfl, rfl⟩
  · rw [sendAll_open (by simpa using h)]
    exact ⟨rfl, rfl, rfl⟩

theorem Forward.consume (h : Forward cid v) {R : Rules} (hroom : ¬R.overflows) {f : Frame}
    {rest : List Frame} {r : Remote} (hup : v.up = f :: rest) (hf : Consumes R cid f v.remote r) :
    Forward cid { v with up := rest, remote := r } := by
  have hshut := h.shut
  cases h with
  | waiting ip rest' hup' hrest hread hremote hout hwritten =>
    obtain ⟨rfl, rfl⟩ := List.cons.inj (hup.symm.trans hup')
    rw [hremote] at hf
    cases hf with
    | opens _ =>
      exact .served {} {} hrest rfl rfl (fun _ => rfl) (fun h => Bool.noConfusion h)
        fun _ => by simpa using hread
    | reopens hclient => cases hclient
    | unknown _ hne => exact absurd rfl (hne ip)
  | served c lp hopened hclient hloop hpending hclosed hopen =>
    have hrest : Opened cid rest := hopened.suffix (hup ▸ List.suffix_cons f rest)
    cases hf with
    | opens hnone =>
      rw [hclient] at hnone
      cases hnone
    | reopens _ => exact absurd (hup ▸ List.mem_cons_self) (hopened _)
    | @sends line _ _ hclient' hconn =>
      obtain rfl := Option.some.inj (hclient.symm.trans hclient')
      obtain ⟨hkept, hsame, -⟩ := sendAll_kept [line ++ ['\n']] lp
      refine .served c (sendAll [line ++ ['\n']] lp) hrest hclient (by rw [hloop]; rfl) hpending ?_ ?_
      · rw [hkept, hsame]
        exact hclosed
      · intro hlp
        have hlp : lp.closed = false := hkept.symm.trans hlp
        rw [sendAll_open hlp, ← hopen hlp, hup, hpending hconn]
        simp
    | @keeps line _ _ hclient' hconn =>
      obtain rfl := Option.some.inj (hclient.symm.trans hclient')
      refine .served _ lp hrest rfl hloop (fun h => ?_) hclosed fun hlp => ?_
      · rw [show c.connected = true from h] at hconn
        cases hconn
      · rw [← hopen hlp, hup]
        simp
    | overflows hfull => exact absurd hfull hroom
    | closes _ => exact .gone hrest rfl hshut
    | unknown hnone _ =>
      rw [hclient] at hnone
      cases hnone
  | gone hopened hclient hloop =>
    have hrest : Opened cid rest := hopened.suffix (hup ▸ List.suffix_cons f rest)
    cases hf with
    | opens _ => exact absurd (hup ▸ List.mem_cons_self) (hopened _)
    | reopens _ => exact absurd (hup ▸ List.mem_cons_self) (hopened _)
    | sends hclient' _ =>
      rw [hclient] at hclient'
      cases hclient'
    | keeps hclient' _ =>
      rw [hclient] at hclient'
      cases hclient'
    | overflows hfull => exact absurd hfull hroom
    | closes _ => exact .gone hrest rfl hshut
    | unknown _ _ => exact .gone hrest hclient hloop

theorem Forward.remote (h : Forward cid v) {r : Remote} (hr : RemoteMove cid v.remote r) :
    Forward cid { v with remote := r } := by
  have hshut := h.shut
  cases hr with
  | stay => exact h
  | shut hback => exact h.cut List.suffix_rfl rfl (Or.inr rfl) hback ⟨rfl, rfl, rfl⟩
  | connected hclient' =>
    cases h with
    | waiting ip rest hup hrest hread hremote =>
      rw [hremote] at hclient'
      cases hclient'
    | served c lp hopened hclient hloop hpending hclosed hopen =>
      obtain rfl := Option.some.inj (hclient.symm.trans hclient')
      obtain ⟨hkept, hsame, -⟩ := sendAll_kept c.pending lp
      refine .served ⟨true, []⟩ (sendAll c.pending lp) hopened rfl (by rw [hloop]; rfl)
        (fun _ => rfl) ?_ ?_
      · rw [hkept, hsame]
        exact hclosed
      · intro hlp
        have hlp : lp.closed = false := hkept.symm.trans hlp
        rw [sendAll_open hlp, ← hopen hlp]
        simp
    | gone hopened hclient hloop =>
      rw [hclient] at hclient'
      cases hclient'
  | gone hclient' _ =>
    cases h with
    | waiting ip rest hup hrest hread hremote =>
      rw [hremote] at hclient'
      cases hclient'
    | served c lp hopened => exact .gone hopened rfl hshut
    | gone hopened => exact .gone hopened rfl hshut
  | @loopUp lp₀ hloop' =>
    cases h with
    | waiting ip rest hup hrest hread hremote =>
      rw [hremote] at hloop'
      cases hloop'
    | served c lp hopened hclient hloop hpending hclosed hopen =>
      obtain rfl := Option.some.inj (hloop.symm.trans hloop')
      exact .served c { lp with up := true } hopened hclient rfl hpending hclosed hopen
    | gone hopened hclient hloop =>
      refine .gone hopened hclient fun lp hlp => ?_
      obtain rfl := Option.some.inj hlp
      exact hloop lp₀ hloop'
  | @loopDown lp₀ hloop' =>
    have hwritten : lp₀.written <+: ended v.read := h.written hloop'
    cases h with
    | waiting ip rest hup hrest hread hremote =>
      rw [hremote] at hloop'
      cases hloop'
    | served c lp hopened hclient hloop hpending hclosed hopen =>
      exact .served c lp₀.close hopened hclient rfl hpending (fun _ => hwritten)
        fun h => Bool.noConfusion h
    | gone hopened hclient hloop =>
      refine .gone hopened hclient fun lp hlp => ?_
      obtain rfl := Option.some.inj hlp
      exact ⟨rfl, hwritten⟩
  | @loopReads lp₀ line hloop' hlp =>
    cases h with
    | waiting ip rest hup hrest hread hremote =>
      rw [hremote] at hloop'
      cases hloop'
    | served c lp hopened hclient hloop hpending hclosed hopen =>
      obtain rfl := Option.some.inj (hloop.symm.trans hloop')
      exact .served c { lp with read := lp.read ++ [line] } hopened hclient rfl hpending hclosed hopen
    | gone hopened hclient hloop =>
      rw [(hloop lp₀ hloop').1] at hlp
      cases hlp
  | @loopWrites lp₀ m rest hloop' hlp hout =>
    cases h with
    | waiting ip rest hup hrest hread hremote =>
      rw [hremote] at hloop'
      cases hloop'
    | served c lp hopened hclient hloop hpending hclosed hopen =>
      obtain rfl := Option.some.inj (hloop.symm.trans hloop')
      refine .served c { lp with outbox := rest, written := lp.written ++ [m] } hopened hclient rfl
        hpending (fun hclosed => ?_) fun _ => ?_
      · rw [show lp.closed = true from hclosed] at hlp
        cases hlp
      · rw [← hopen hlp, hout]
        simp
    | gone hopened hclient hloop =>
      rw [(hloop lp₀ hloop').1] at hlp
      cases hlp

/-- No line is discarded behind its session's first frame, and no client's buffer is
full. -/
def keepsLines : Rules :=
  ⟨fun before f => ∀ c l, f = .data c l → ∀ ip, .openMiner c ip ∉ before, True, False⟩

theorem Forward.append (h : Forward cid v) {fs : List Frame} {lines : List Str}
    (hopened : Opened cid fs) (hlines : datas fs = ended lines)
    (hup : v'.up = v.up ++ fs) (hread : v'.read = v.read ++ lines)
    (hsame : v'.remote = v.remote ∧ v'.outbox = v.outbox ∧ v'.written = v.written) :
    Forward cid v' := by
  obtain ⟨hremote, hout, hwritten⟩ := hsame
  cases h with
  | waiting ip rest hup₀ hrest hdatas hremote₀ hout₀ hwritten₀ =>
    refine .waiting ip (rest ++ fs) (by rw [hup, hup₀]; rfl) (hrest.append hopened) ?_
      (hremote.trans hremote₀) (hout.trans hout₀) (hwritten.trans hwritten₀)
    rw [datas_append, hdatas, hlines, hread, ended_append]
  | served c lp hopened₀ hclient hloop hpending hclosed hopen =>
    rw [← hremote] at hclient hloop
    refine .served c lp (hup ▸ hopened₀.append hopened) hclient hloop hpending (fun h => ?_)
      fun h => ?_
    · rw [hread, ended_append]
      exact (hclosed h).trans (List.prefix_append _ _)
    · rw [hread, ended_append, ← hopen h, hup, datas_append, hlines]
      simp
  | gone hopened₀ hclient hloop =>
    rw [← hremote] at hclient hloop
    refine .gone (hup ▸ hopened₀.append hopened) hclient fun lp hlp => ?_
    rw [hread, ended_append]
    exact ⟨(hloop lp hlp).1, (hloop lp hlp).2.trans (List.prefix_append _ _)⟩

/-- What is not on its way to the origin is of no account. -/
theorem Forward.congr (h : Forward cid v) (hup : v'.up = v.up) (hread : v'.read = v.read)
    (hremote : v'.remote.client = v.remote.client ∧ v'.remote.loop = v.remote.loop)
    (hback : v.remote.back = [] → v.outbox = [] → v.written = [] →
      v'.remote.back = [] ∧ v'.outbox = [] ∧ v'.written = []) : Forward cid v' := by
  obtain ⟨hclient, hloop⟩ := hremote
  cases h with
  | waiting ip rest hup₀ hrest hdatas hremote₀ hout₀ hwritten₀ =>
    obtain ⟨hback', hout, hwritten⟩ := hback (by rw [hremote₀]) hout₀ hwritten₀
    refine .waiting ip rest (hup.trans hup₀) hrest (hread ▸ hdatas) ?_ hout hwritten
    rw [show v'.remote = ⟨v'.remote.client, v'.remote.loop, v'.remote.back⟩ from rfl, hclient, hloop,
      hback', hremote₀]
  | served c lp hopened hclient₀ hloop₀ hpending hclosed hopen =>
    exact .served c lp (hup ▸ hopened) (hclient.trans hclient₀) (hloop.trans hloop₀) hpending
      (hread ▸ hclosed) (hup ▸ hread ▸ hopen)
  | gone hopened hclient₀ hloop₀ =>
    exact .gone (hup ▸ hopened) (hclient.trans hclient₀) (hread ▸ hloop ▸ hloop₀)

theorem Forward.discard (h : Forward cid v) {before after : List Frame} {f : Frame}
    (hup : v.up = before ++ f :: after) (hclient : v.remote.client = none)
    (hf : ∀ l, f = .data cid l → ∀ ip, .openMiner cid ip ∉ before) (habout : about cid f = true) :
    Forward cid { v with up := before ++ after } := by
  cases h with
  | waiting ip rest hup₀ hrest hread hremote hout hwritten =>
    rw [hup₀] at hup
    cases before with
    | nil =>
      obtain ⟨rfl, rfl⟩ := List.cons.inj hup
      refine .gone hrest (by rw [hremote]) fun lp hlp => ?_
      rw [hremote] at hlp
      cases hlp
    | cons g before =>
      obtain ⟨rfl, hrest₀⟩ := List.cons.inj hup
      rw [show rest = before ++ f :: after from hrest₀] at hrest hread
      have hline (c : Nat) (l : Str) : f ≠ .data c l := by
        rintro rfl
        obtain rfl : c = cid := by simpa [about] using habout
        exact hf l rfl ip List.mem_cons_self
      refine .waiting ip (before ++ after) rfl hrest.drop ?_ hremote hout hwritten
      rw [← hread, datas_append, datas_append, datas_cons hline]
  | served c lp hopened₀ hclient₀ =>
    rw [hclient] at hclient₀
    cases hclient₀
  | gone hopened₀ hclient hloop => exact .gone (hup ▸ hopened₀).drop hclient hloop

/-- What a move does to the miner's lines on their way. -/
theorem Forward.move (h : Forward cid v) (hmove : Move keepsLines cid v v') : Forward cid v' := by
  cases hmove with
  | stay => exact h
  | attach ip =>
    exact .waiting ip [] rfl (fun _ => List.not_mem_nil) rfl rfl rfl rfl
  | line l _ _ =>
    have hline : datas [.data cid l] = ended [l] := rfl
    exact h.append (fun ip => by simp) hline rfl rfl ⟨rfl, rfl, rfl⟩
  | hangUp _ _ =>
    have hclose : Opened cid (if v.inTable then [Frame.close cid] else []) ∧
        datas (if v.inTable then [Frame.close cid] else []) = [] := by
      cases v.inTable <;> exact ⟨fun ip => by simp, rfl⟩
    exact h.append hclose.1 (hclose.2.trans (show [] = ended [] from rfl)) rfl (by simp) ⟨rfl, rfl, rfl⟩
  | write hout => exact h.congr rfl rfl ⟨rfl, rfl⟩ fun _ h => by rw [hout] at h; cases h
  | lose hup hback => exact h.cut hup rfl (Or.inl rfl) hback ⟨rfl, rfl, rfl⟩
  | forget hup hback => exact h.cut hup rfl (Or.inl rfl) hback ⟨rfl, rfl, rfl⟩
  | skip hup hclient hloop => exact h.cut hup hclient (Or.inl hloop) List.prefix_rfl ⟨rfl, rfl, rfl⟩
  | discard hup hclient habout hf => exact h.discard hup hclient (hf cid) habout
  | delivered hback => exact h.congr rfl rfl ⟨rfl, rfl⟩ fun h => by rw [hback] at h; cases h
  | dismissed hback => exact h.congr rfl rfl ⟨rfl, rfl⟩ fun h => by rw [hback] at h; cases h
  | ignored hback => exact h.congr rfl rfl ⟨rfl, rfl⟩ fun h => by rw [hback] at h; cases h
  | consume hup hf => exact h.consume (fun h => h) hup hf
  | refuse hup hback => exact h.cut hup rfl (Or.inr rfl) hback ⟨rfl, rfl, rfl⟩
  | remote hr => exact h.remote hr

/-! ## To the miner -/

/-- What the session has written, and what is to come, of a loopback connection. -/
def told (v : Miner) : List Str :=
  v.written ++ v.outbox ++ if v.inTable then datas v.remote.back else []

/-- The pool's lines on their way. -/
structure Backward (v : Miner) : Prop where
  begun : ∀ lp, v.remote.loop = some lp → told v <+: ended lp.read
  all : ∀ lp, v.remote.loop = some lp → v.inTable = true → lp.closed = false →
    told v = ended lp.read

theorem Backward.nothing (h : v.remote.loop = none) : Backward v := by
  refine ⟨fun lp hlp => ?_, fun lp hlp => ?_⟩
  · rw [h] at hlp
    cases hlp
  · rw [h] at hlp
    cases hlp

/-- Less is told of a connection that is closed. -/
theorem Backward.less (h : Backward v) (hloop : v'.remote.loop = v.remote.loop.map Loopback.close)
    (htold : told v' <+: told v) : Backward v' := by
  refine ⟨fun lp hlp => ?_, fun lp hlp _ hopen => ?_⟩
  · obtain ⟨lp₀, hlp₀, rfl⟩ := Option.map_eq_some_iff.mp (hloop.symm.trans hlp)
    have h₀ : told v <+: ended lp₀.read := h.begun lp₀ hlp₀
    exact htold.trans h₀
  · obtain ⟨lp₀, hlp₀, rfl⟩ := Option.map_eq_some_iff.mp (hloop.symm.trans hlp)
    cases hopen

/-- The same is told. -/
theorem Backward.same (h : Backward v) (htable : v'.inTable = v.inTable) (htold : told v' = told v)
    (hloop : ∀ lp', v'.remote.loop = some lp' → ∃ lp, v.remote.loop = some lp ∧
      lp.read = lp'.read ∧ (lp'.closed = false → lp.closed = false)) : Backward v' := by
  refine ⟨fun lp' hlp' => ?_, fun lp' hlp' hin hopen => ?_⟩
  · obtain ⟨lp, hlp, hread, -⟩ := hloop lp' hlp'
    rw [htold, ← hread]
    exact h.begun lp hlp
  · obtain ⟨lp, hlp, hread, hkept⟩ := hloop lp' hlp'
    rw [htold, ← hread]
    exact h.all lp hlp (htable.symm.trans hin) (hkept hopen)

theorem Backward.sent (h : Backward v) {lines : List Str} (htable : v'.inTable = v.inTable)
    (htold : told v' = told v) (hloop : v'.remote.loop = v.remote.loop.map (sendAll lines)) :
    Backward v' := by
  refine h.same htable htold fun lp' hlp' => ?_
  obtain ⟨lp, hlp, rfl⟩ := Option.map_eq_some_iff.mp (hloop.symm.trans hlp')
  obtain ⟨hclosed, -, hread⟩ := sendAll_kept lines lp
  exact ⟨lp, hlp, hread.symm, hclosed.symm.trans⟩

/-- A session that leaves the table is told no more. -/
theorem Backward.left (h : Backward v) (htable : v'.inTable = false)
    (hloop : v'.remote.loop = v.remote.loop)
    (hsame : v'.written = v.written ∧ v'.outbox = v.outbox) : Backward v' := by
  refine ⟨fun lp hlp => ?_, fun lp hlp hin => ?_⟩
  · refine List.IsPrefix.trans ?_ (h.begun lp (hloop ▸ hlp))
    rw [told, told, hsame.1, hsame.2, htable]
    exact (List.append_nil _).symm ▸ List.prefix_append _ _
  · rw [htable] at hin
    cases hin

theorem told_begins (htable : v'.inTable = v.inTable)
    (hsame : v'.written = v.written ∧ v'.outbox = v.outbox)
    (hback : datas v'.remote.back <+: datas v.remote.back) : told v' <+: told v := by
  rw [told, told, htable, hsame.1, hsame.2]
  cases v.inTable
  · exact List.prefix_rfl
  · exact (List.prefix_append_right_inj _).mpr hback

theorem Backward.remote (h : Backward v) {r : Remote} (hr : RemoteMove cid v.remote r) :
    Backward { v with remote := r } := by
  cases hr with
  | stay => exact h
  | shut hback => exact h.less rfl (told_begins rfl ⟨rfl, rfl⟩ (datas_begins hback))
  | connected hclient =>
    exact h.sent rfl rfl rfl
  | gone _ htold =>
    refine h.less rfl (told_begins rfl ⟨rfl, rfl⟩ ?_)
    rcases htold with rfl | rfl
    · rw [List.append_nil]
    · rw [datas_append, datas_cons (by simp)]
      simp
  | loopUp hloop => 
    refine h.same rfl rfl fun lp' hlp' => ?_
    obtain rfl := Option.some.inj hlp'
    exact ⟨_, hloop, rfl, id⟩
  | @loopDown lp₀ hloop =>
    exact h.less (by rw [hloop]; rfl) List.prefix_rfl
  | @loopReads lp₀ line hloop hlp =>
    have hread (lp : Loopback) (h : some { lp₀ with read := lp₀.read ++ [line] } = some lp) :
        ended lp.read = ended lp₀.read ++ [line ++ ['\n']] := by
      obtain rfl := Option.some.inj h
      rw [ended_append, ended_singleton]
    have htable (hin : v.inTable = true) : told { v with remote := ⟨v.remote.client,
        some { lp₀ with read := lp₀.read ++ [line] }, v.remote.back ++ [.data cid line]⟩ } =
          told v ++ [line ++ ['\n']] := by
      simp [told, hin]
    refine ⟨fun lp h' => ?_, fun lp h' hin _ => ?_⟩
    · rw [hread lp h']
      by_cases hin : v.inTable = true
      · rw [htable hin, h.all lp₀ hloop hin hlp]
      · have hbegun := h.begun lp₀ hloop
        simp only [told, hin] at hbegun ⊢
        exact hbegun.trans (List.prefix_append _ _)
    · rw [hread lp h', htable hin, h.all lp₀ hloop hin hlp]
  | loopWrites hloop hopen hout =>
    refine h.same rfl rfl fun lp' hlp' => ?_
    obtain rfl := Option.some.inj hlp'
    exact ⟨_, hloop, rfl, id⟩

theorem Backward.consume (h : Backward v) (hforward : Forward cid v) {R : Rules} {f : Frame}
    {rest : List Frame} {r : Remote} (hup : v.up = f :: rest) (hf : Consumes R cid f v.remote r) :
    Backward { v with up := rest, remote := r } := by
  cases hf with
  | @opens ip _ hclient =>
    have hopened : ¬Opened cid v.up := fun h => h ip (hup ▸ List.mem_cons_self)
    cases hforward with
    | waiting ip rest' hup' hrest hread hremote hout hwritten =>
      have htold : told { v with up := rest, remote := ⟨some {}, some {}, v.remote.back⟩ } = [] := by
        simp [told, hout, hwritten, hremote]
      refine ⟨fun lp hlp => ?_, fun lp hlp _ _ => ?_⟩
      · rw [htold]
        exact List.nil_prefix
      · rw [htold]
        obtain rfl := Option.some.inj hlp
        rfl
    | served c lp h => exact absurd h hopened
    | gone h => exact absurd h hopened
  | @sends line _ _ _ _ =>
    have hloop : v.remote.loop.map (·.send (line ++ ['\n'])) =
        v.remote.loop.map (sendAll [line ++ ['\n']]) := rfl
    exact h.sent rfl rfl hloop
  | closes _ => exact h.less rfl List.prefix_rfl
  | _ => exact h.same rfl rfl fun lp hlp => ⟨lp, hlp, rfl, id⟩

/-- What a move does to the pool's lines on their way. -/
theorem Backward.move (h : Backward v) (hforward : Forward cid v) {R : Rules}
    (hmove : Move R cid v v') : Backward v' := by
  have hsame {v' : Miner} (htable : v'.inTable = v.inTable) (htold : told v' = told v)
      (hloop : v'.remote.loop = v.remote.loop) : Backward v' :=
    h.same htable htold fun lp hlp => ⟨lp, hloop.symm.trans hlp, rfl, id⟩
  cases hmove with
  | stay => exact h
  | attach ip => exact .nothing rfl
  | line l _ _ => exact hsame rfl rfl rfl
  | hangUp _ _ => exact h.left rfl rfl ⟨rfl, rfl⟩
  | write hout =>
    refine hsame rfl ?_ rfl
    simp [told, hout]
  | lose _ _ => exact .nothing rfl
  | forget _ _ => exact .nothing rfl
  | skip _ _ hloop => exact .nothing hloop
  | discard _ _ _ _ => exact hsame rfl rfl rfl
  | delivered hback =>
    refine hsame rfl ?_ rfl
    cases hin : v.inTable <;> simp [told, hin, hback]
  | dismissed hback => exact h.left rfl rfl ⟨rfl, rfl⟩
  | ignored hback =>
    refine hsame rfl ?_ rfl
    simp only [told, hback, datas_cons (f := .openMiner _ _) (by simp)]
  | consume hup hf => exact h.consume hforward hup hf
  | refuse _ hback => exact h.less rfl (told_begins rfl ⟨rfl, rfl⟩ (datas_begins hback))
  | remote hr => exact h.remote hr

/-! ## Runs -/

/-- The edge closes a connection that is up. -/
def loses (st : State) : Event → Bool
  | .linkDown => st.link.any (·.up)
  | .runTrunk =>
    match st.tasks with
    | .frame (.bye _) :: _ => st.link.any (·.up)
    | _ => false
  | _ => false

/-- The buffer that a line comes to is not full, or its session is not to be opened. -/
def roomy (st : State) : Event → Bool
  | .runTrunk =>
    match st.tasks with
    | .send (.data cid _) :: _ =>
      st.trunk.welcomed && st.trunk.conn || st.trunk.pendingOut.length < 100000 ||
        !st.trunk.pendingOut.any (opens cid)
    | _ => true
  | .originReads =>
    st.link.all fun l =>
      match l.toOrigin with
      | .data cid _ :: _ =>
        !l.ingest.helloOk ||
          (l.ingest.clients cid).all fun c => c.connected || c.pending.length < 64
      | _ => true
  | _ => true

theorem obeys_roomy {st : State} {e : Event} (h : roomy st e = true) : Obeys keepsLines st e := by
  refine ⟨?_, fun _ _ _ => Or.inl trivial, ?_⟩
  · rintro f rest cid rfl htasks hidle hfull - c line rfl ip hmem
    have hfull' : ¬st.trunk.pendingOut.length < 100000 := by omega
    simp only [roomy, htasks, hidle, hfull', decide_false, Bool.or_self, Bool.false_or,
      Bool.not_eq_true', List.any_eq_false] at h
    exact h _ (List.mem_of_mem_filter hmem) (by simp [opens])
  · rintro l c line rest client rfl hlink hout hhello hclient hconn hfull
    simp only [roomy, hlink, Option.all_some, hout, hhello, hclient, hconn, Bool.not_true,
      Bool.false_or, decide_eq_true_eq] at h
    omega

/-- What an action does to the connection's flags. -/
structure Flags (l l' : Link) : Prop where
  up : l'.up = l.up
  closed : l'.closed = l.closed

theorem flags_handle {st : State} {r : ClusterTrunk.Result} (hstart : .start ∉ r.2)
    (hclose : .closeConn ∉ r.2) {l' : Link} (h : (st.handle r).link = some l') :
    ∃ l, st.link = some l ∧ Flags l l' := by
  have hfold (actions : List ClusterTrunk.Action) (st : State) (hstart : .start ∉ actions)
      (hclose : .closeConn ∉ actions) (h : (actions.foldl State.act st).link = some l') :
      ∃ l, st.link = some l ∧ Flags l l' := by
    induction actions generalizing st with
    | nil => exact ⟨l', h, rfl, rfl⟩
    | cons a actions ih =>
      obtain ⟨hstart₀, hstart⟩ := not_or.mp (mt List.mem_cons.mpr hstart)
      obtain ⟨hclose₀, hclose⟩ := not_or.mp (mt List.mem_cons.mpr hclose)
      obtain ⟨l, hl, hflags⟩ := ih (st.act a) hstart hclose h
      cases a with
      | send f =>
        obtain ⟨l₀, hl₀, rfl⟩ := Option.map_eq_some_iff.mp hl
        refine ⟨l₀, hl₀, hflags.up.trans ?_, hflags.closed.trans ?_⟩
        · split <;> rfl
        · split <;> rfl
      | start => exact absurd rfl hstart₀
      | closeConn => exact absurd rfl hclose₀
      | _ => exact ⟨l, hl, hflags⟩
  exact hfold r.2 { st with trunk := r.1 } hstart hclose h

/-- Nothing but a loss closes a connection that is up. -/
theorem kept_step {cfg : Config} {st st' : State} {e : Event} (h : step cfg st e = some st')
    (hloses : loses st e = false) (hkept : ∀ l, st.link = some l → l.up = true → l.closed = false)
    (l' : Link) (hl' : st'.link = some l') (hup : l'.up = true) : l'.closed = false := by
  have hflags {l : Link} (hlink : st.link = some l) (hf : Flags l l') : l'.closed = false :=
    hf.closed.trans (hkept l hlink (hf.up.symm.trans hup))
  cases e with
  | accept ip =>
    obtain ⟨_, _, rfl⟩ := Option.map_eq_some_iff.mp h
    exact hkept l' hl' hup
  | post c =>
    obtain ⟨f, hposting, rfl⟩ := Option.map_eq_some_iff.mp h
    exact hkept l' hl' hup
  | readLine c l =>
    obtain ⟨-, h⟩ := Option.ite_none_right_eq_some.mp h
    obtain ⟨fs, -, rfl⟩ := Option.map_eq_some_iff.mp h
    exact hkept l' hl' hup
  | hangUp c =>
    obtain ⟨-, h⟩ := Option.ite_none_right_eq_some.mp h
    obtain rfl := Option.some.inj h
    exact hkept l' hl' hup
  | writeLine c =>
    simp only [step] at h
    split at h
    · cases h
    · obtain ⟨-, h⟩ := Option.ite_none_left_eq_some.mp h
      obtain rfl := Option.some.inj h
      exact hkept l' hl' hup
  | connect =>
    obtain ⟨-, h⟩ := Option.ite_none_left_eq_some.mp h
    obtain rfl := Option.some.inj h
    obtain rfl := Option.some.inj hl'
    rfl
  | linkUp =>
    obtain ⟨l, hlink, h⟩ := Option.bind_eq_some_iff.mp h
    obtain ⟨hopen, h⟩ := Option.ite_none_left_eq_some.mp h
    obtain rfl := Option.some.inj h
    obtain rfl := Option.some.inj hl'
    exact (by simpa using hopen : l.up = false ∧ l.closed = false).2
  | linkDown =>
    obtain ⟨l, hlink, h⟩ := Option.bind_eq_some_iff.mp h
    obtain ⟨hopen, h⟩ := Option.ite_none_left_eq_some.mp h
    obtain rfl := Option.some.inj h
    rw [State.closeLink, hlink] at hl'
    simp only [hopen] at hl'
    obtain rfl := Option.some.inj hl'
    simp only [loses, hlink, Option.any_some] at hloses
    rw [show l.up = true from hup] at hloses
    cases hloses
  | runTrunk =>
    simp only [step] at h
    split at h
    · cases h
    · next t rest htasks =>
      obtain rfl := Option.some.inj h
      have hrun {r : ClusterTrunk.Result} (hstart : .start ∉ r.2) (hclose : .closeConn ∉ r.2)
          (hr : (State.handle { st with tasks := rest } r).link = some l') : l'.closed = false := by
        obtain ⟨l, hlink, hf⟩ := flags_handle hstart hclose hr
        exact hflags hlink hf
      cases t with
      | opened =>
        refine hrun (r := ClusterTrunk.onOpen cfg.trunk st.trunk) ?_ ?_ hl'
        all_goals
          simp only [ClusterTrunk.onOpen]
          split <;> simp
      | frame f =>
        have hframe : .start ∉ (ClusterTrunk.onFrame st.trunk f).2 := (trunkStep_frame st.trunk f).started
        cases f with
        | bye msg =>
          have hshape : State.run cfg.trunk { st with tasks := rest } (.frame (.bye msg)) =
              if st.trunk.conn then State.closeLink { st with tasks := rest }
              else { st with tasks := rest } := by
            rw [State.run, ClusterTrunk.onFrame, State.handle]
            cases st.trunk.conn <;> rfl
          rw [hshape] at hl'
          split at hl'
          · rw [State.closeLink] at hl'
            split at hl'
            · exact hkept l' hl' hup
            · next l hlink =>
              split at hl'
              · exact hkept l' hl' hup
              · obtain rfl := Option.some.inj hl'
                have hlink : st.link = some l := hlink
                simp only [loses, htasks, hlink, Option.any_some] at hloses
                rw [show l.up = true from hup] at hloses
                cases hloses
          · exact hkept l' hl' hup
        | _ =>
          refine hrun hframe ?_ hl'
          simp only [ClusterTrunk.onFrame, ClusterTrunk.onWelcome, ClusterTrunk.onData,
            ClusterTrunk.onCloseFrame]
          first | (split <;> simp) | simp
      | closed => cases hl'
      | send f =>
        refine hrun (trunkStep_send st.trunk f).started ?_ hl'
        unfold ClusterTrunk.sendFrame
        split_ifs <;> simp
  | originReads =>
    obtain ⟨l, hlink, h⟩ := Option.bind_eq_some_iff.mp h
    obtain ⟨-, h⟩ := Option.ite_none_left_eq_some.mp h
    split at h
    · cases h
    · obtain rfl := Option.some.inj h
      obtain rfl := Option.some.inj hl'
      exact hflags hlink ⟨handle_up _ _, (handle_kept _ _).1⟩
  | runOrigin =>
    obtain ⟨l, hlink, h⟩ := Option.bind_eq_some_iff.mp h
    split at h
    · cases h
    · obtain rfl := Option.some.inj h
      obtain rfl := Option.some.inj hl'
      exact hflags hlink ⟨run_up _ _, (run_kept _ _).1⟩
  | originDown =>
    obtain ⟨l, hlink, rfl⟩ := Option.map_eq_some_iff.mp h
    obtain rfl := Option.some.inj hl'
    exact hflags hlink ⟨handle_up _ _, (handle_kept _ _).1⟩
  | edgeReads =>
    obtain ⟨l, hlink, h⟩ := Option.bind_eq_some_iff.mp h
    obtain ⟨-, h⟩ := Option.ite_none_left_eq_some.mp h
    split at h
    · cases h
    · obtain rfl := Option.some.inj h
      obtain rfl := Option.some.inj hl'
      exact hflags hlink ⟨rfl, rfl⟩
  | loopUp c =>
    obtain ⟨l, hlink, h⟩ := Option.bind_eq_some_iff.mp h
    obtain ⟨lp, -, h⟩ := Option.bind_eq_some_iff.mp h
    obtain ⟨-, h⟩ := Option.ite_none_left_eq_some.mp h
    obtain rfl := Option.some.inj h
    obtain rfl := Option.some.inj hl'
    exact hflags hlink ⟨rfl, rfl⟩
  | loopDown c =>
    obtain ⟨l, hlink, h⟩ := Option.bind_eq_some_iff.mp h
    obtain ⟨lp, -, h⟩ := Option.bind_eq_some_iff.mp h
    obtain ⟨-, h⟩ := Option.ite_none_left_eq_some.mp h
    obtain rfl := Option.some.inj h
    obtain rfl := Option.some.inj hl'
    exact hflags hlink ⟨(act_up l (.closeConn c)).1, (act_kept l (.closeConn c)).1⟩
  | loopReads c line =>
    obtain ⟨l, hlink, h⟩ := Option.bind_eq_some_iff.mp h
    obtain ⟨lp, -, h⟩ := Option.bind_eq_some_iff.mp h
    obtain ⟨_, -, h⟩ := Option.bind_eq_some_iff.mp h
    obtain ⟨-, h⟩ := Option.ite_none_left_eq_some.mp h
    obtain rfl := Option.some.inj h
    obtain rfl := Option.some.inj hl'
    exact hflags hlink ⟨rfl, rfl⟩
  | loopWrites c =>
    obtain ⟨l, hlink, h⟩ := Option.bind_eq_some_iff.mp h
    obtain ⟨lp, -, h⟩ := Option.bind_eq_some_iff.mp h
    split at h
    · cases h
    · obtain rfl := Option.some.inj h
      obtain rfl := Option.some.inj hl'
      exact hflags hlink ⟨rfl, rfl⟩

theorem kept_run {cfg : Config} {ok : State → Event → Prop} (hok : ∀ st e, ok st e → loses st e = false)
    {st : State} (h : Run cfg ok st) :
    ∀ l, st.link = some l → l.up = true → l.closed = false := by
  induction h with
  | start =>
    intro l hl
    cases hl
  | step _ hstep h ih => exact kept_step h (hok _ _ hstep) ih

/-- In a run that does not lose the trunk's connection, and whose lines find room,
each way the lines come out as they went in. -/
theorem stream_intact {cfg : Config} {st : State}
    (hrun : Run cfg (fun st e => loses st e = false ∧ roomy st e = true) st) {l : Link} (hlink : st.link = some l)
    (cid : Nat) {lp : Loopback} (hloop : l.loops cid = some lp) :
    lp.written <+: ended (st.sessions cid).read ∧ (st.sessions cid).written <+: ended lp.read := by
  have hwf := wf_run hrun
  have hup : l.up = true := up_of_loop (hwf.linked l hlink) hloop
  have hopen : l.closed = false := kept_run (fun _ _ h => h.1) hrun l hlink hup
  have hremote : (miner st cid).remote.loop = some lp := by
    rw [miner, ClusterMiner.remote, live_open hlink hopen]
    exact hloop
  have hboth : Forward cid (miner st cid) ∧ Backward (miner st cid) := by
    refine invariant_run (R := keepsLines) (I := fun v => Forward cid v ∧ Backward v) ?_
      (fun _ _ _ h => obeys_roomy h.2) (fun v v' hmove h => ⟨h.1.move hmove, h.2.move h.1 hmove⟩) hrun
    exact ⟨.gone (fun _ => List.not_mem_nil) rfl (fun _ h => by cases h), .nothing rfl⟩
  refine ⟨hboth.1.written hremote, List.IsPrefix.trans ?_ (hboth.2.begun lp hremote)⟩
  rw [told, List.append_assoc]
  exact List.prefix_append _ _

/-! ## Two runs -/

def plain : Config := ⟨⟨[], [], false⟩, ⟨[], [], false⟩⟩

/-- An edge that is welcomed, and one miner, whose client is not yet connected. -/
def bridged : List Event :=
  [.accept "?".toList, .post 1, .connect, .linkUp, .runTrunk, .runTrunk, .originReads, .runOrigin,
    .edgeReads, .runTrunk, .originReads]

/-- A line of the miner, as far as the origin. -/
def lineOver (text : String) : List Event := [.readLine 1 text.toList, .runTrunk, .originReads]

/-- The loopback connection comes up, and what was kept is sent. -/
def loopbackUp : List Event := [.loopUp 1, .runOrigin]

def loopback (st : State) : Option Loopback := st.link.bind fun l => l.loops 1

theorem loopback_eq {st : State} {lp : Loopback} (h : loopback st = some lp) :
    ∃ l, st.link = some l ∧ l.loops 1 = some lp :=
  Option.bind_eq_some_iff.mp h

/-- A line each way. -/
theorem stream_intact_lines : ∃ st l lp, Run plain
    (fun st e => loses st e = false ∧ roomy st e = true) st ∧ st.link = some l ∧
    l.loops 1 = some lp ∧ lp.written = ["a\n".toList] ∧ (st.sessions 1).written = ["b\n".toList] ∧
    lp.written <+: ended (st.sessions 1).read ∧ (st.sessions 1).written <+: ended lp.read := by
  have hplay : (play plain (fun st e => !loses st e && roomy st e) {} (bridged ++ lineOver "a" ++
      loopbackUp ++ [.loopWrites 1, .loopReads 1 "b".toList, .runOrigin, .edgeReads, .runTrunk,
        .writeLine 1])).any (fun st => (loopback st).any (fun lp => lp.written == ["a\n".toList]) &&
          (st.sessions 1).written == ["b\n".toList]) = true := by decide +kernel
  obtain ⟨st, hrun, hsee⟩ := seen_play (P := fun st e => loses st e = false ∧ roomy st e = true)
    (fun st e h => by simpa using h) hplay
  obtain ⟨hlp, hwritten⟩ := Bool.and_eq_true_iff.mp hsee
  obtain ⟨lp, hlp, hsaid⟩ := (Option.any_eq_true _ _).mp hlp
  obtain ⟨l, hlink, hloop⟩ := loopback_eq hlp
  exact ⟨st, l, lp, hrun, hlink, hloop, by simpa using hsaid, by simpa using hwritten,
    stream_intact hrun hlink 1 hloop⟩

/-- The sixty-fifth line before the loopback connection is up is lost, and the next
one is not. -/
theorem line_lost : ∃ cfg st l cid lp, Run cfg (fun st e => loses st e = false) st ∧
    st.link = some l ∧ l.loops cid = some lp ∧ ¬lp.written <+: ended (st.sessions cid).read := by
  have hplay : (play plain (fun st e => !loses st e) {} (bridged ++
      (List.replicate 64 (lineOver "a")).flatten ++ lineOver "b" ++ loopbackUp ++ lineOver "a" ++
      List.replicate 65 (.loopWrites 1))).any (fun st => (loopback st).any fun lp =>
        !lp.written.isPrefixOf (ended (st.sessions 1).read)) = true := by decide +kernel
  obtain ⟨st, hrun, hsee⟩ := seen_play (P := fun st e => loses st e = false)
    (fun st e h => by simpa using h) hplay
  obtain ⟨lp, hlp, hsaid⟩ := (Option.any_eq_true _ _).mp hsee
  obtain ⟨l, hlink, hloop⟩ := loopback_eq hlp
  refine ⟨plain, st, l, 1, lp, hrun, hlink, hloop, fun hbegins => ?_⟩
  rw [List.isPrefixOf_iff_prefix.mpr hbegins] at hsaid
  cases hsaid

end MkPool.StreamIntegrity
