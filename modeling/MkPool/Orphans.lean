import MkPool.ClusterRuns
import Mathlib.Data.List.Sublists

/-! # Miners that the origin holds and the edge does not

A client of an ingest session is one of an open session, once the frames between
have arrived, as long as no loss of the trunk finds a session in its table that has
not had its first frame handled, and no `close` is discarded behind its `open`. -/
namespace MkPool.Orphans
open MkPool.Utils MkPool.ClusterProtocol MkPool.ClusterNet MkPool.ClusterMiner
open MkPool.OriginMoves MkPool.EdgeMoves MkPool.ClusterRuns
open scoped List

/-- Whether a frame opens the session, or closes it. -/
def gate (cid : Nat) : Frame → Option Bool
  | .openMiner c _ => if c = cid then some true else none
  | .close c => if c = cid then some false else none
  | _ => none

def gates (cid : Nat) (fs : List Frame) : List Bool := fs.filterMap (gate cid)

@[simp] theorem gates_append (cid : Nat) (a b : List Frame) :
    gates cid (a ++ b) = gates cid a ++ gates cid b :=
  List.filterMap_append

@[simp] theorem gates_open (cid : Nat) (ip : Str) (fs : List Frame) :
    gates cid (.openMiner cid ip :: fs) = true :: gates cid fs := by
  simp [gates, gate]

@[simp] theorem gates_close (cid : Nat) (fs : List Frame) :
    gates cid (.close cid :: fs) = false :: gates cid fs := by
  simp [gates, gate]

theorem gates_suffix (cid : Nat) {a b : List Frame} (h : a <:+ b) : gates cid a <:+ gates cid b := by
  obtain ⟨front, rfl⟩ := h
  rw [gates_append]
  exact List.suffix_append _ _

/-- What a trunk may discard, and a loss may find. -/
def accounts : Rules := ⟨fun before f => ∀ c, f = .close c → true ∉ gates c before, False, True⟩

/-- The edge will tell the origin of the session's end. -/
structure Watched (cid : Nat) (v : Miner) : Prop where
  /-- The session opens and closes once, in this order. -/
  order : List.Sublist (gates cid v.up) [true, false]
  table : v.inTable = true → v.closed = false
  leaving : false ∈ gates cid v.up → v.inTable = false
  fresh : true ∈ gates cid v.up → v.remote.client = none
  told : .close cid ∈ v.remote.back → v.remote.client = none ∧ true ∉ gates cid v.up
  /-- What is open, or will be, is in the trunk's table. -/
  opening : gates cid v.up = [true] → v.inTable = true
  served : gates cid v.up = [] → v.remote.client.isSome = true → v.inTable = true

variable {cid : Nat} {v v' : Miner}

theorem gates_cases {gs : List Bool} (h : List.Sublist gs [true, false]) :
    gs = [] ∨ gs = [true] ∨ gs = [false] ∨ gs = [true, false] := by
  have hmem : gs ∈ [true, false].sublists := List.mem_sublists.mpr h
  simpa [List.sublists] using hmem

theorem Watched.opening_suffix (h : Watched cid v) {gs : List Bool} (hgs : gs <:+ gates cid v.up)
    (hopen : gs = [true]) : v.inTable = true := by
  rw [hopen] at hgs
  rcases gates_cases h.order with hv | hv | hv | hv
  · rw [hv] at hgs
    cases List.suffix_nil.mp hgs
  · exact h.opening hv
  · rw [hv] at hgs
    simp [List.suffix_cons_iff] at hgs
  · rw [hv] at hgs
    simp [List.suffix_cons_iff] at hgs

theorem mem_of_gates {fs : List Frame} (h : true ∈ gates cid fs) :
    ∃ ip, .openMiner cid ip ∈ fs := by
  obtain ⟨f, hf, hgate⟩ := List.mem_filterMap.mp h
  cases f with
  | openMiner c ip =>
    obtain rfl : c = cid := by simpa [gate] using hgate
    exact ⟨ip, hf⟩
  | close c => simp [gate] at hgate
  | _ => cases hgate

/-- The front of the frames is cut off, and there is no client. -/
theorem Watched.cut (h : Watched cid v) (hup : v'.up <:+ v.up) (hclient : v'.remote.client = none)
    (hback : v'.remote.back <+: v.remote.back) (hclosed : v'.closed = v.closed)
    (htable : v'.inTable = v.inTable ∨ v'.inTable = false ∧ gates cid v'.up ≠ [true]) :
    Watched cid v' := by
  have hgates := gates_suffix cid hup
  refine ⟨hgates.sublist.trans h.order, fun hin => ?_, fun hmem => ?_, fun _ => hclient,
    fun hmem => ⟨hclient, fun hopen => ?_⟩, fun hopen => ?_, fun _ hsome => ?_⟩
  · rcases htable with htable | ⟨htable, -⟩
    · exact hclosed.trans (h.table (htable.symm.trans hin))
    · rw [htable] at hin
      cases hin
  · rcases htable with htable | ⟨htable, -⟩
    · exact htable.trans (h.leaving (hgates.subset hmem))
    · exact htable
  · exact (h.told (hback.subset hmem)).2 (hgates.subset hopen)
  · rcases htable with htable | ⟨-, hne⟩
    · exact htable.trans (h.opening_suffix hgates hopen)
    · exact absurd hopen hne
  · rw [hclient] at hsome
    cases hsome

/-- What changes neither the frames that open and close nor the client. -/
theorem Watched.congr (h : Watched cid v) (hgates : gates cid v'.up = gates cid v.up)
    (hclient : v'.remote.client.isSome = v.remote.client.isSome)
    (hback : .close cid ∈ v'.remote.back → .close cid ∈ v.remote.back)
    (hsame : v'.inTable = v.inTable ∧ v'.closed = v.closed) : Watched cid v' := by
  have hnone : v.remote.client = none → v'.remote.client = none := fun hv => by
    rw [hv] at hclient
    simpa using hclient
  refine ⟨hgates ▸ h.order, ?_, ?_, fun hmem => hnone (h.fresh (hgates ▸ hmem)), fun hmem => ?_, ?_, ?_⟩
  · rw [hsame.1, hsame.2]
    exact h.table
  · rw [hsame.1, hgates]
    exact h.leaving
  · rw [hgates]
    exact ⟨hnone (h.told (hback hmem)).1, (h.told (hback hmem)).2⟩
  · rw [hsame.1, hgates]
    exact h.opening
  · rw [hsame.1, hgates, hclient]
    exact h.served

/-- The client is dropped, and nothing will open it again. -/
theorem Watched.drop (h : Watched cid v) (hup : gates cid v'.up <+ gates cid v.up)
    (hclient : v'.remote.client = none) (hopen : true ∉ gates cid v'.up)
    (hsame : v'.inTable = v.inTable ∧ v'.closed = v.closed) : Watched cid v' := by
  refine ⟨hup.trans h.order, ?_, fun hmem => ?_, fun _ => hclient, fun _ => ⟨hclient, hopen⟩,
    fun hgates => ?_, fun _ hsome => ?_⟩
  · rw [hsame.1, hsame.2]
    exact h.table
  · rw [hsame.1]
    exact h.leaving (hup.subset hmem)
  · rw [hgates] at hopen
    simp at hopen
  · rw [hclient] at hsome
    cases hsome

theorem Watched.remote (h : Watched cid v) {r : Remote} (hr : RemoteMove cid v.remote r) :
    Watched cid { v with remote := r } := by
  cases hr with
  | stay => exact h
  | shut hback => exact h.cut List.suffix_rfl rfl hback rfl (Or.inl rfl)
  | connected hclient => exact h.congr rfl (by rw [hclient]; rfl) id ⟨rfl, rfl⟩
  | gone hclient _ =>
    refine h.drop (List.Sublist.refl _) rfl (fun hmem => ?_) ⟨rfl, rfl⟩
    rw [h.fresh hmem] at hclient
    cases hclient
  | loopReads _ _ =>
    refine h.congr rfl rfl (fun hmem => ?_) ⟨rfl, rfl⟩
    simpa using hmem
  | _ => exact h.congr rfl rfl id ⟨rfl, rfl⟩

/-- A session that leaves the table tells the origin, or the origin needs no telling. -/
theorem Watched.hangUp (h : Watched cid v) : Watched cid { v with
    closed := true
    inTable := false
    up := v.up ++ if v.inTable then [.close cid] else [] } := by
  cases htable : v.inTable
  · have hopening (hopen : gates cid v.up = [true]) : False := by
      rw [h.opening hopen] at htable
      cases htable
    have hserved (hnil : gates cid v.up = []) (hsome : v.remote.client.isSome = true) : False := by
      rw [h.served hnil hsome] at htable
      cases htable
    simp only [Bool.false_eq_true, if_false, List.append_nil]
    exact ⟨h.order, fun h => Bool.noConfusion h, fun _ => rfl, h.fresh, h.told,
      fun hopen => (hopening hopen).elim, fun hnil hsome => (hserved hnil hsome).elim⟩
  · have hleaving : false ∉ gates cid v.up := fun hmem => by
      rw [h.leaving hmem] at htable
      cases htable
    have hgates : gates cid (v.up ++ [.close cid]) = gates cid v.up ++ [false] := by
      rw [gates_append, gates_close]
      rfl
    have hopen : true ∈ gates cid v.up ++ [false] → true ∈ gates cid v.up := fun hmem => by simpa using hmem
    simp only [if_true]
    refine ⟨?_, fun h => Bool.noConfusion h, fun _ => rfl, fun hmem => h.fresh (hopen (hgates ▸ hmem)),
      fun hmem => ⟨(h.told hmem).1, fun hmem' => (h.told hmem).2 (hopen (hgates ▸ hmem'))⟩,
      fun hone => ?_, fun hnil => ?_⟩
    · rw [hgates]
      rcases gates_cases h.order with hv | hv | hv | hv
      all_goals rw [hv] at hleaving ⊢
      · exact List.Sublist.cons _ (List.Sublist.refl _)
      · exact List.Sublist.refl _
      · simp at hleaving
      · simp at hleaving
    · rw [hgates] at hone
      simpa using congrArg List.getLast? hone
    · rw [hgates] at hnil
      simp at hnil

/-- The origin handles a frame of the session. -/
theorem Watched.consume (h : Watched cid v) {f : Frame} {rest : List Frame} {r : Remote}
    (hup : v.up = f :: rest) (hf : Consumes accounts cid f v.remote r) :
    Watched cid { v with up := rest, remote := r } := by
  have hgates : gates cid v.up = gates cid [f] ++ gates cid rest := by
    rw [hup, ← gates_append]
    rfl
  have hsuffix : gates cid rest <:+ gates cid v.up := hgates ▸ List.suffix_append _ _
  cases hf with
  | opens hclient =>
    have hopen : gates cid v.up = true :: gates cid rest := by rw [hup, gates_open]
    have horder := h.order
    rw [hopen] at horder
    have hrest : gates cid rest <+ [false] := List.cons_sublist_cons.mp horder
    have hno : true ∉ gates cid rest := fun hmem => by simpa using hrest.subset hmem
    refine ⟨hsuffix.sublist.trans h.order, h.table, fun hmem => h.leaving (hsuffix.subset hmem),
      fun hmem => absurd hmem hno, fun hmem => ?_, fun hgates => ?_, fun hnil _ => ?_⟩
    · have htold := (h.told hmem).2
      rw [hopen] at htold
      simp at htold
    · rw [show gates cid rest = [true] from hgates] at hno
      simp at hno
    · rw [show gates cid rest = [] from hnil] at hopen
      exact h.opening hopen
  | reopens hclient =>
    have hmem : true ∈ gates cid v.up := by
      rw [hup, gates_open]
      exact List.mem_cons_self
    rw [h.fresh hmem] at hclient
    cases hclient
  | sends hclient _ => exact h.congr hgates.symm rfl id ⟨rfl, rfl⟩
  | keeps hclient _ => exact h.congr hgates.symm (by rw [hclient]; rfl) id ⟨rfl, rfl⟩
  | overflows _ => exact h.congr hgates.symm rfl id ⟨rfl, rfl⟩
  | closes hclient =>
    refine h.drop hsuffix.sublist rfl (fun hmem => ?_) ⟨rfl, rfl⟩
    rw [h.fresh (hsuffix.subset hmem)] at hclient
    cases hclient
  | unknown hclient _ =>
    refine h.cut ?_ hclient List.prefix_rfl rfl (Or.inl rfl)
    rw [hup]
    exact List.suffix_cons f rest

/-- What goes with a frame that opens or closes. -/
theorem gates_drop {before after : List Bool} {g : Bool}
    (h : before ++ g :: after <+ [true, false]) (hg : g = false → true ∉ before) :
    true ∉ before ++ after := by
  have hbefore : before = [] := by
    cases before with
    | nil => rfl
    | cons b before =>
      rcases gates_cases h with h | h | h | h
      · cases h
      · simp at h
      · simp at h
      · cases before <;> simp_all
  subst hbefore
  rcases gates_cases h with h | h | h | h
  · cases h
  · rw [List.nil_append, (List.cons.inj h).2]
    simp
  · rw [List.nil_append, (List.cons.inj h).2]
    simp
  · rw [List.nil_append, (List.cons.inj h).2]
    simp

theorem Watched.discard (h : Watched cid v) {before after : List Frame} {f : Frame}
    (hup : v.up = before ++ f :: after) (hclient : v.remote.client = none)
    (hf : accounts.discards before f) : Watched cid { v with up := before ++ after } := by
  cases hgate : gate cid f with
  | none =>
    refine h.congr ?_ rfl id ⟨rfl, rfl⟩
    rw [hup]
    simp [gates, hgate]
  | some g =>
    have hgates : gates cid v.up = gates cid before ++ g :: gates cid after := by
      rw [hup, gates_append]
      simp [gates, hgate]
    have hclose : g = false → true ∉ gates cid before := by
      rintro rfl
      cases f with
      | close c =>
        obtain rfl : c = cid := by simpa [gate] using hgate
        exact hf c rfl
      | openMiner c ip => simp [gate] at hgate
      | _ => cases hgate
    refine h.drop ?_ hclient ?_ ⟨rfl, rfl⟩
    · rw [hgates, gates_append]
      exact (List.sublist_cons_self g _).append_left _
    · rw [gates_append]
      exact gates_drop (hgates ▸ h.order) hclose

/-- What a move does to what the edge and the origin hold of a session. -/
theorem Watched.move (h : Watched cid v) (hmove : Move accounts cid v v') : Watched cid v' := by
  cases hmove with
  | stay => exact h
  | attach ip =>
    refine ⟨?_, fun _ => rfl, ?_, fun _ => rfl, fun hmem => ?_, fun _ => rfl, fun hnil => ?_⟩
    · rw [gates_open]
      simp [gates]
    · rw [gates_open]
      simp [gates]
    · cases hmem
    · simp at hnil
  | line l _ _ => exact h.congr (by simp [gates, gate]) rfl id ⟨rfl, rfl⟩
  | hangUp _ _ => exact h.hangUp
  | lose hup hback => exact h.cut hup rfl hback rfl (Or.inl rfl)
  | forget hup hback hopen =>
    have hopen := hopen.resolve_left id
    refine h.cut hup rfl hback rfl (Or.inr ⟨rfl, fun hgates => ?_⟩)
    obtain ⟨ip, hmem⟩ := mem_of_gates (hgates ▸ List.mem_cons_self)
    exact hopen (h.opening_suffix (gates_suffix cid hup) hgates) ip hmem
  | skip hup hclient hloop => exact h.cut hup hclient List.prefix_rfl rfl (Or.inl rfl)
  | discard hup hclient _ hf => exact h.discard hup hclient hf
  | dismissed hback =>
    obtain ⟨hclient, hopen⟩ := h.told (hback ▸ List.mem_cons_self)
    refine ⟨h.order, fun h => Bool.noConfusion h, fun _ => rfl, fun _ => hclient,
      fun _ => ⟨hclient, hopen⟩, fun hgates => ?_, fun _ hsome => ?_⟩
    · rw [show gates cid v.up = [true] from hgates] at hopen
      simp at hopen
    · rw [show v.remote.client = none from hclient] at hsome
      cases hsome
  | delivered hback =>
    refine h.congr rfl rfl (fun hmem => ?_) ⟨rfl, rfl⟩
    rw [hback]
    exact List.mem_cons_of_mem _ hmem
  | ignored hback =>
    refine h.congr rfl rfl (fun hmem => ?_) ⟨rfl, rfl⟩
    rw [hback]
    exact List.mem_cons_of_mem _ hmem
  | consume hup hf => exact h.consume hup hf
  | refuse hup hback => exact h.cut hup rfl hback rfl (Or.inl rfl)
  | remote hr => exact h.remote hr
  | _ => exact h.congr rfl rfl id ⟨rfl, rfl⟩

/-! ## Runs -/

/-- A loss of the trunk finds no session in its table whose first frame it has not
handled, and no `close` is discarded behind its `open`. -/
def accounted (st : State) : Event → Bool
  | .runTrunk =>
    match st.tasks with
    | .closed :: rest =>
      (List.range st.trunk.nextCid).all fun cid =>
        !st.trunk.sessions cid ||
          (st.sessions cid).posting.isNone && !(posted rest).any (opens cid)
    | .send (.close cid) :: _ =>
      st.trunk.welcomed && st.trunk.conn || st.trunk.pendingOut.length < 100000 ||
        !st.trunk.pendingOut.any (opens cid)
    | _ => true
  | _ => true

/-- Sessions in the table have numbers that were given out. -/
theorem born_of_table {st : State} (hwf : Wf st) {cid : Nat} (h : st.trunk.sessions cid = true) :
    cid < st.trunk.nextCid := by
  by_contra hlt
  have hborn : st.born cid = false := by simp [State.born, hlt]
  have htable : st.trunk.sessions cid = false := congrArg Miner.inTable (hwf.unborn cid hborn)
  rw [h] at htable
  cases htable

theorem obeys_accounted {st : State} {e : Event} (hwf : Wf st) (h : accounted st e = true) :
    Obeys accounts st e := by
  refine ⟨?_, ?_, fun _ _ _ _ _ _ _ _ _ _ _ _ => trivial⟩
  · rintro f rest cid rfl htasks hidle hfull - c rfl hopen
    have hfull' : ¬st.trunk.pendingOut.length < 100000 := by omega
    simp only [accounted, htasks, hidle, hfull', decide_false, Bool.or_self, Bool.false_or,
      Bool.not_eq_true', List.any_eq_false] at h
    obtain ⟨ip, hmem⟩ := mem_of_gates hopen
    exact h _ (List.mem_of_mem_filter hmem) (by simp [opens])
  · rintro rest rfl htasks
    refine Or.inr fun cid htable => ?_
    simp only [accounted, htasks, List.all_eq_true, List.mem_range] at h
    have hcid := h cid (born_of_table hwf htable)
    simp only [htable, Bool.not_true, Bool.false_or, Bool.and_eq_true, Option.isNone_iff_eq_none,
      Bool.not_eq_true', List.any_eq_false] at hcid
    refine ⟨hcid.1, fun ip hmem => hcid.2 (.openMiner cid ip) ?_ (by simp [opens])⟩
    exact List.mem_filterMap.mpr ⟨_, hmem, rfl⟩

/-- The trunk is welcomed, and what was posted to it has come to the origin. -/
def settled (st : State) (l : Link) : Bool :=
  st.trunk.welcomed && !l.closed && l.toOrigin.isEmpty && (posted st.tasks).isEmpty &&
    (List.range st.trunk.nextCid).all fun cid => (st.sessions cid).posting.isNone

theorem up_settled {st : State} {l : Link} (hwf : Wf st) (hlink : st.link = some l)
    (h : settled st l = true) {cid : Nat} (hcid : cid < st.trunk.nextCid) :
    (miner st cid).up = [] := by
  simp only [settled, Bool.and_eq_true, Bool.not_eq_true', List.isEmpty_iff, List.all_eq_true,
    List.mem_range, Option.isNone_iff_eq_none] at h
  obtain ⟨⟨⟨⟨hwelcomed, hopen⟩, hwire⟩, hposted⟩, hposting⟩ := h
  have hconn : st.trunk.conn = true := by
    rw [hwf.conn, hlink]
    rfl
  simp only [miner, wire, live_open hlink hopen, hwire, hwf.flushed hwelcomed hconn, hposted,
    hposting cid hcid]
  rfl

def plain : Config := ⟨⟨[], [], false⟩, ⟨[], [], false⟩⟩

/-- The trunk connects, and is welcomed. -/
def welcomed : List Event :=
  [.connect, .linkUp, .runTrunk, .originReads, .runOrigin, .edgeReads, .runTrunk]

/-- What is seen of a settled trunk: a client, and whether its session is closed. -/
def holds (cid : Nat) (closed : Bool) (st : State) : Bool :=
  st.link.any fun l => settled st l && (l.ingest.clients cid).isSome &&
    (st.sessions cid).closed == closed

theorem holds_eq {cid : Nat} {closed : Bool} {st : State} (h : holds cid closed st = true) :
    ∃ l, st.link = some l ∧ settled st l = true ∧ (l.ingest.clients cid).isSome = true ∧
      (st.sessions cid).closed = closed := by
  obtain ⟨l, hlink, h⟩ := (Option.any_eq_true _ _).mp h
  simp only [Bool.and_eq_true, beq_iff_eq] at h
  exact ⟨l, hlink, h.1.1, h.1.2, h.2⟩

end MkPool.Orphans
