import MkPool.Bindings
import Mathlib.Logic.Relation

/-! # A link is closed: its subscribers move one by one

`migrate_link` allocates and posts as it goes and erases the old slots at its
end. What holds of one move and of the erasing holds of the whole. -/
namespace MkPool.Migration
open MkPool.Lib MkPool.UpstreamClient MkPool.UpstreamSource MkPool.Proxy MkPool.Bindings

/-! ## Posting -/

/-- A call waits on the strand of a session. -/
def posted (p : Party) (ev : SinkEvent) : Party := { p with mailbox := p.mailbox ++ [ev] }

section Posts
variable {parties : List Party} {n m : Nat} {ev : SinkEvent} {p : Party}

theorem getElem?_post :
    (post parties (n, ev))[m]? = if n = m then parties[m]?.map (posted · ev) else parties[m]? := by
  unfold post
  rw [List.getElem?_modify]
  by_cases hn : n = m
  · simp [hn, posted]
  · simp [hn]

/-- What holds of every session holds after some calls. -/
theorem forall_postAll {Q : Nat → Party → Prop} {calls : List (Nat × SinkEvent)}
    (h : ∀ n p, parties[n]? = some p → Q n p)
    (hpost : ∀ call ∈ calls, ∀ p, Q call.1 p → Q call.1 (posted p call.2)) :
    ∀ n p, (postAll parties calls)[n]? = some p → Q n p := by
  induction calls generalizing parties with
  | nil => exact h
  | cons call calls ih =>
    refine ih ?_ fun call' hcall' => hpost call' (List.mem_cons_of_mem call hcall')
    intro n p hp
    rw [show post parties call = post parties (call.1, call.2) from rfl, getElem?_post] at hp
    split at hp
    · rename_i hn
      subst hn
      obtain ⟨p₀, hp₀, rfl⟩ := Option.map_eq_some_iff.mp hp
      exact hpost call (List.mem_cons_self ..) p₀ (h _ p₀ hp₀)
    · exact h n p hp

theorem length_postAll (calls : List (Nat × SinkEvent)) :
    (postAll parties calls).length = parties.length := by
  induction calls generalizing parties with
  | nil => rfl
  | cons call calls ih =>
    refine (@ih (post parties call)).trans ?_
    exact List.length_modify ..

end Posts

/-! ## Moves -/

/-- A migration on its way: the slots to erase are collected. -/
structure Moving where
  client : Client
  ids : List Nat
  parties : List Party

/-- What happens with one subscriber of link `i`. -/
inductive Move (c : State) (i : Nat) : Moving → Moving → Prop where
  | erase {m : Moving} {t : Seat} (hseat : Seated m.client i t) (hleft : t.slotId ∉ m.ids)
    (hgone : t.sink ∈ m.client.gone) : Move c i m { m with ids := t.slotId :: m.ids }
  | skip {m : Moving} {client : Client} (hpassed : Passed m.client client) :
    Move c i m { m with client }
  | move {m : Moving} {t : Seat} {j next cand : Nat} {l : Link} (hseat : Seated m.client i t)
    (hleft : t.slotId ∉ m.ids) (hlive : t.sink ∉ m.client.gone) (hne : j ≠ i)
    (ha : Allocates m.client j t.sink l next cand) :
    Move c i m
      { client := withSeat m.client j l t.sink next cand
        ids := t.slotId :: m.ids
        parties := post m.parties (t.sink, rebindTo c (Slots.slotOf l j cand)) }

section
variable {c : State} {client : Client} {i : Nat} {target : Option Nat}

theorem standby_ne {t : Nat} (htarget : ∀ t ∈ target, t ≠ i)
    (h : standby client i target = some t) : t ≠ i := by
  unfold standby at h
  split at h
  · cases hc : (List.range client.links.length).filter fun j => j ≠ i ∧ readyAt client j with
    | nil =>
      rw [hc] at h
      cases h
    | cons j js =>
      obtain ⟨t', ht', hleast⟩ := @Slots.leastLoaded_mem client
        ((List.range client.links.length).filter fun j => j ≠ i ∧ readyAt client j)
        (by rw [hc]; simp)
      obtain rfl := Option.some.inj (hleast.symm.trans h)
      exact (of_decide_eq_true (List.mem_filter.mp ht').2).1
  · exact htarget t h

theorem failoverTarget_ne : ∀ t ∈ failoverTarget client i, t ≠ i := by
  intro t ht
  unfold failoverTarget at ht
  split at ht
  · cases ht
  · have hfound := List.find?_some (Option.mem_def.mp ht)
    exact (of_decide_eq_true hfound).1

theorem migrateOne_eq (st : Client × List Nat) (e : Nat × Subscriber) :
    migrateOne i target st e =
      if e.2.sink ∈ st.1.gone then (st.1, e.1 :: st.2)
      else
        match standby st.1 i target with
        | none => st
        | some t =>
          match allocateAt st.1 t e.2.sink with
          | (c, none) => (c, st.2)
          | (c, some _) => (c, e.1 :: st.2) :=
  rfl

theorem rebinds_cons (sink : Nat) (o : Option ProxySlot) (moved : List (Nat × Option ProxySlot)) :
    rebinds c ((sink, o) :: moved) =
      (o.toList.map fun slot => (sink, rebindTo c slot)) ++ rebinds c moved := by
  cases o <;> rfl

/-- The loop of `migrate_link` is a sequence of moves. -/
theorem moves_of_fold (htarget : ∀ t ∈ target, t ≠ i) (order : List (Nat × Subscriber)) :
    ∀ (st : Client × List Nat) (parties : List Party),
      (∀ e ∈ order, Seated st.1 i (seatOf e) ∧ e.1 ∉ st.2) → (order.map Prod.fst).Nodup →
      Relation.ReflTransGen (Move c i) ⟨st.1, st.2, parties⟩
        { client := (order.foldl (migrateOne i target) st).1
          ids := (order.foldl (migrateOne i target) st).2
          parties := postAll parties (rebinds c (outcomes i target st order)) } := by
  induction order with
  | nil => exact fun _ _ _ _ => .refl
  | cons e rest ih =>
    intro st parties hleft hnodup
    obtain ⟨hseat, hid⟩ := hleft e (List.mem_cons_self ..)
    obtain ⟨hnot, hnodup⟩ := List.nodup_cons.mp hnodup
    have hother {e' : Nat × Subscriber} (he' : e' ∈ rest) : e'.1 ∉ e.1 :: st.2 := by
      rw [List.mem_cons]
      rintro (heq | hmem)
      · exact hnot (heq ▸ List.mem_map_of_mem he')
      · exact (hleft e' (List.mem_cons_of_mem e he')).2 hmem
    have hrest {e' : Nat × Subscriber} (he' : e' ∈ rest) :=
      hleft e' (List.mem_cons_of_mem e he')
    rw [List.foldl_cons, migrateOne_eq]
    unfold outcomes
    rw [migrateOne_eq]
    by_cases hgone : e.2.sink ∈ st.1.gone
    · simp only [if_pos hgone]
      refine .head (.erase (t := seatOf e) hseat hid hgone) ?_
      exact ih (st.1, e.1 :: st.2) parties (fun e' he' => ⟨(hrest he').1, hother he'⟩) hnodup
    · simp only [if_neg hgone]
      rw [rebinds_cons]
      cases hstandby : standby st.1 i target with
      | none => exact ih st parties (fun e' he' => hrest he') hnodup
      | some j =>
        have hne : j ≠ i := standby_ne htarget hstandby
        rcases allocateAt_cases st.1 j e.2.sink with ⟨l, next, cand, ha, heq⟩ | ⟨c', heq, hpassed⟩
        · simp only [Option.bind_some, heq]
          refine .head (.move (t := seatOf e) hseat hid hgone hne ha) ?_
          refine ih (withSeat st.1 j l e.2.sink next cand, e.1 :: st.2) _ (fun e' he' => ?_) hnodup
          exact ⟨ha.seated.mpr (.inl (hrest he').1), hother he'⟩
        · simp only [Option.bind_some, heq]
          refine .head (.skip hpassed) ?_
          refine ih (c', st.2) parties (fun e' he' => ?_) hnodup
          exact ⟨(seated_congr hpassed.seats).mpr (hrest he').1, (hrest he').2⟩

/-- The client when the migration starts. -/
def migrationStart (client : Client) (i : Nat) : Client :=
  let client := modifyLink client i down
  { client with
    primary := (failoverTarget client i).or
      (if client.primary = some i then none else client.primary) }

/-- What is kept by every move is kept by `on_conn_close`, but for the erasing
and the calls of the stranded sessions. -/
theorem closeLink_induction {order : List (Nat × Subscriber)} {P : Moving → Prop}
    (hapart : SlotsApart c.client)
    (hoffer : ∃ l, c.client.links[i]? = some l ∧ order.Perm l.subscribers)
    (hstart : P ⟨migrationStart c.client i, [], c.parties⟩)
    (hmove : ∀ m m', P m → Move c i m m' → P m') :
    ∃ m moved, P m ∧ closeLink c i order =
      { c with
        client := modifyLink m.client i (eraseSlots m.ids)
        parties := postAll m.parties (stranded moved) } := by
  obtain ⟨l, hl, hperm⟩ := hoffer
  have hdown : (modifyLink c.client i down).links.map seats = c.client.links.map seats :=
    map_seats_modify fun _ => rfl
  have hseats : ∀ e ∈ order, Seated (migrationStart c.client i) i (seatOf e) ∧ e.1 ∉ [] := by
    intro e he
    have hseat : Seated c.client i (seatOf e) := ⟨l, hl, List.mem_map_of_mem (hperm.subset he)⟩
    exact ⟨(seated_congr hdown).mpr hseat, by simp⟩
  have hnodup : (order.map Prod.fst).Nodup := by
    have hids : (l.subscribers.map Prod.fst).Nodup := by
      have h := hapart l (List.mem_of_getElem? hl)
      unfold seats at h
      rwa [List.map_map] at h
    exact (hperm.map Prod.fst).nodup_iff.mpr hids
  have hmoves := @moves_of_fold c i (failoverTarget (modifyLink c.client i down) i)
    failoverTarget_ne order (migrationStart c.client i, []) c.parties hseats hnodup
  have hkept {m m' : Moving} (h : Relation.ReflTransGen (Move c i) m m') (hm : P m) : P m' := by
    induction h with
    | refl => exact hm
    | tail _ hstep ih => exact hmove _ _ ih hstep
  exact ⟨_, outcomes i (failoverTarget (modifyLink c.client i down) i)
    (migrationStart c.client i, []) order, hkept hmoves hstart, rfl⟩

end

/-! ## Other steps of the client -/

section
variable {c c' : State} {m : Nat}

theorem parties_clientStep {input : UpstreamClient.Input} (hs : clientStep c input = some c') :
    c'.parties = c.parties := by
  obtain ⟨client, -, rfl⟩ := Option.map_eq_some_iff.mp hs
  rfl

theorem seats_clientStep {input : UpstreamClient.Input} (hs : clientStep c input = some c')
    (hinput : match input with
      | .connClose .. | .attach _ | .detach .. | .sinkGone _ => False
      | _ => True) :
    c'.client.links.map seats = c.client.links.map seats ∧ c'.client.gone = c.client.gone := by
  obtain ⟨client, hreact, rfl⟩ := Option.map_eq_some_iff.mp hs
  cases input with
  | connectLink | connOpen | authorizeResult =>
    cases hreact
    exact ⟨map_seats_modify fun _ => rfl, gone_modify⟩
  | subscribeResult =>
    exact seats_extranonceAt (f := fun l => { l with subscribed := true }) (fun _ => rfl) hreact
  | setExtranonce => exact seats_extranonceAt (f := id) (fun _ => rfl) hreact
  | connClose | attach | detach | sinkGone => exact hinput.elim

/-- A handler of a session that is there. -/
theorem onParty_cases {f : Party → Option State} (hs : onParty c m f = some c') :
    c' = c ∨ ∃ p, c.parties[m]? = some p ∧ f p = some c' := by
  unfold onParty at hs
  cases hp : c.parties[m]? with
  | none =>
    rw [hp] at hs
    cases hs
    exact .inl rfl
  | some p =>
    rw [hp] at hs
    exact .inr ⟨p, rfl, hs⟩

end

end MkPool.Migration
