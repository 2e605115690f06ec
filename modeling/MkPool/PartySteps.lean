import MkPool.Migration

/-! # What a step does to one session

A step of the proxy posts calls to a session, or runs one of its handlers. -/
namespace MkPool.PartySteps
open MkPool.Lib MkPool.Utils MkPool.Coinbase
open MkPool.UpstreamClient hiding Input react Offered Run
open MkPool.UpstreamSource MkPool.Proxy MkPool.Bindings MkPool.Migration

/-! ## Calls -/

/-- The calls of a session among those that are posted. -/
def callsOf (n : Nat) (calls : List (Nat × SinkEvent)) : List SinkEvent :=
  calls.filterMap fun call => if call.1 = n then some call.2 else none

theorem mem_callsOf {n : Nat} {calls : List (Nat × SinkEvent)} {ev : SinkEvent} :
    ev ∈ callsOf n calls ↔ (n, ev) ∈ calls := by
  unfold callsOf
  rw [List.mem_filterMap]
  constructor
  · rintro ⟨call, hcall, h⟩
    split at h
    · rename_i hn
      obtain rfl := Option.some.inj h
      rw [← hn]
      exact hcall
    · cases h
  · intro h
    exact ⟨(n, ev), h, if_pos rfl⟩

theorem getElem?_postAll (parties : List Party) (calls : List (Nat × SinkEvent)) (n : Nat) :
    (postAll parties calls)[n]? =
      parties[n]?.map fun p => { p with mailbox := p.mailbox ++ callsOf n calls } := by
  induction calls generalizing parties with
  | nil =>
    show parties[n]? = _
    cases parties[n]? with
    | none => rfl
    | some p => simp [callsOf]
  | cons call calls ih =>
    refine (ih (post parties call)).trans ?_
    rw [show post parties call = post parties (call.1, call.2) from rfl, getElem?_post]
    cases parties[n]? with
    | none => split <;> rfl
    | some p =>
      split
      · rename_i hn
        simp [callsOf, hn, posted]
      · rename_i hn
        simp [callsOf, hn]

/-- What the client may post to sink `n`. -/
inductive Posted (c : State) (n : Nat) : SinkEvent → Prop where
  | job {i k : Nat} {job : ProxyNotify} (hjob : c.handingOn = some (i, job))
    (hsink : Taken c.client i k n) : Posted c n (.job job)
  | diff {i k : Nat} {diff : ℚ} (hsink : Taken c.client i k n) : Posted c n (.diff diff)
  | extranonce {i k : Nat} {en1Hex : Str} {en2Size : Nat} (hsink : Taken c.client i k n) :
    Posted c n (.extranonce en1Hex en2Size)
  | state (up : Bool) : Posted c n (.state up)
  | rebind {i k : Nat} (slot : ProxySlot) (hsink : Taken c.client i k n) :
    Posted c n (rebindTo c slot)

/-! ## Handlers -/

/-- The session when a handler goes on. -/
def afterNext (client : Client) (p : Party) : Next → Party
  | .attach => startAttach client p
  | _ => p

def diffFor (c : State) : Option ProxySlot → ℚ
  | some slot => c.diffs slot.linkId
  | none => 1

/-- The client when a handler goes on. -/
def clientAfter (client : Client) (p : Party) : Next → Client
  | .detach =>
    match p.miner.slot.linkId with
    | none => client
    | some i => detach client i p.miner.slot.slotId
  | _ => client

/-- A handler of session `n` runs, or a locked section of it. -/
inductive Handled (env : Env) (c : State) (n : Nat) (p : Party) : Input → Client → Party → Prop where
  | requestV1 {s : ProxySession.Session} {r : RequestV1} (hm : p.miner = .v1 s)
    (hidle : p.phase = .idle) (hopen : p.miner.closed = false) :
    Handled env c n p (.requestV1 n r) c.client
      (afterNext c.client { p with miner := .v1 (requestV1 env s r).1 } (requestV1 env s r).2)
  | requestSv2 {s : RelaySession.Session} {r : RequestSv2} (hm : p.miner = .sv2 s)
    (hidle : p.phase = .idle) (hopen : p.miner.closed = false) :
    Handled env c n p (.requestSv2 n r) c.client
      (afterNext c.client { p with miner := .sv2 (requestSv2 env s r).1 } (requestSv2 env s r).2)
  | dropped {ev : SinkEvent} {mailbox : List SinkEvent} (hclosed : p.miner.closed = true)
    (hbox : p.mailbox = ev :: mailbox) :
    Handled env c n p (.deliver n) c.client { p with mailbox }
  | deliverV1 {s : ProxySession.Session} {ev : SinkEvent} {mailbox : List SinkEvent}
    (hm : p.miner = .v1 s) (hidle : p.phase = .idle) (hopen : p.miner.closed = false)
    (hbox : p.mailbox = ev :: mailbox) :
    Handled env c n p (.deliver n)
      (clientAfter c.client { p with miner := .v1 (handleV1 s ev).1, mailbox } (handleV1 s ev).2)
      (afterNext c.client { p with miner := .v1 (handleV1 s ev).1, mailbox } (handleV1 s ev).2)
  | deliverSv2 {s : RelaySession.Session} {ev : SinkEvent} {mailbox : List SinkEvent}
    {r : RelaySession.Session × Next} (hm : p.miner = .sv2 s) (hidle : p.phase = .idle)
    (hopen : p.miner.closed = false) (hbox : p.mailbox = ev :: mailbox)
    (hr : handleSv2 env s ev = some r) :
    Handled env c n p (.deliver n) c.client
      (afterNext c.client { p with miner := .sv2 r.1, mailbox } r.2)
  | close (hidle : p.phase = .idle) (hopen : p.miner.closed = false) :
    Handled env c n p (.close n)
      (clientAfter c.client { p with miner := p.miner.close }
        (if p.miner.attached then .detach else .done))
      { p with miner := p.miner.close }
  | registered (hphase : p.phase = .registering) :
    Handled env c n p (.advance n) c.client { p with phase := .idle }
  | attachV1 {s : ProxySession.Session} (hphase : p.phase = .attaching) (hm : p.miner = .v1 s) :
    Handled env c n p (.advance n) (attach c.client n).1
      { p with
        miner := .v1 (ProxySession.attachReturned s (attach c.client n).2
          (diffFor c (attach c.client n).2))
        phase := if (attach c.client n).2.isSome then .fetching else .registering }
  | attachSv2 {s : RelaySession.Session} {phase : Phase} (hphase : p.phase = .attaching)
    (hm : p.miner = .sv2 s) (hnext : phase ≠ .attaching) :
    Handled env c n p (.advance n) (attach c.client n).1
      { p with
        miner := .sv2 (RelaySession.attachReturned s (attach c.client n).2
          (diffFor c (attach c.client n).2)).1
        phase }
  | fetchV1 {s : ProxySession.Session} (hphase : p.phase = .fetching) (hm : p.miner = .v1 s) :
    Handled env c n p (.advance n) c.client
      { p with
        miner := .v1 (ProxySession.jobReturned s (p.miner.slot.linkId.bind c.jobs))
        phase := .idle }
  | fetchSv2 {s t : RelaySession.Session} (hphase : p.phase = .fetching) (hm : p.miner = .sv2 s)
    (hjob : RelaySession.jobReturned env s (p.miner.slot.linkId.bind c.jobs) = some t) :
    Handled env c n p (.advance n) c.client { p with miner := .sv2 t, phase := .idle }

/-- What a step does to session `n`. -/
inductive PartyStep (env : Env) (c : State) (n : Nat) (p : Party) : Input → Party → Prop where
  | posted {i : Input} (evs : List SinkEvent) (h : ∀ ev ∈ evs, Posted c n ev)
    (hmoves : (∀ ev ∈ evs, isRebind ev = false) ∨ c.handingOn = none) :
    PartyStep env c n p i { p with mailbox := p.mailbox ++ evs }
  | handled {i : Input} {client : Client} {p' : Party} (h : Handled env c n p i client p') :
    PartyStep env c n p i p'

section
variable {env : Env} {c c' : State} {n m : Nat} {i : Input} {p p' : Party}

theorem PartyStep.same : PartyStep env c n p i p := by
  have h : PartyStep env c n p i { p with mailbox := p.mailbox ++ [] } :=
    .posted [] (fun ev hev => by cases hev) (.inl fun ev hev => by cases hev)
  rwa [List.append_nil] at h

theorem party_posted {calls : List (Nat × SinkEvent)}
    (hcalls : ∀ call ∈ calls, Posted c call.1 call.2)
    (hmoves : (∀ call ∈ calls, isRebind call.2 = false) ∨ c.handingOn = none)
    (hp' : (postAll c.parties calls)[n]? = some p') :
    ∃ p, c.parties[n]? = some p ∧ PartyStep env c n p i p' := by
  rw [getElem?_postAll] at hp'
  obtain ⟨p, hp, rfl⟩ := Option.map_eq_some_iff.mp hp'
  exact ⟨p, hp, .posted _ (fun ev hev => hcalls _ (mem_callsOf.mp hev))
    (hmoves.imp_left fun h ev hev => h _ (mem_callsOf.mp hev))⟩

theorem party_set {client : Client} (hp : c.parties[m]? = some p)
    (hstep : Handled env c m p i client p') {q : Party}
    (hq : (c.parties.set m p')[n]? = some q) :
    ∃ p, c.parties[n]? = some p ∧ PartyStep env c n p i q := by
  by_cases hn : m = n
  · subst hn
    rw [List.getElem?_set_self (List.getElem?_eq_some_iff.mp hp).1] at hq
    obtain rfl := Option.some.inj hq
    exact ⟨p, hp, .handled hstep⟩
  · rw [List.getElem?_set_ne hn] at hq
    exact ⟨q, hq, .same⟩

theorem parties_goOn (c : State) (n : Nat) (p : Party) (next : Next) :
    (goOn c n p next).parties = c.parties.set n (afterNext c.client p next) := by
  cases next with
  | done | attach => rfl
  | detach =>
    show (detachBy _ n p.miner.slot).parties = _
    unfold detachBy
    split <;> rfl

theorem client_goOn (c : State) (n : Nat) (p : Party) (next : Next) :
    (goOn c n p next).client = clientAfter c.client p next := by
  cases next with
  | done | attach => rfl
  | detach =>
    show (detachBy _ n p.miner.slot).client = _
    unfold detachBy clientAfter
    cases p.miner.slot.linkId <;> rfl

/-! ## What stays when a handler goes on -/

theorem bound_iff : bound p = true ↔ p.miner.attached = true ∧ p.miner.closed = false := by
  unfold bound
  simp

theorem miner_startAttach (client : Client) (p : Party) :
    (startAttach client p).miner = p.miner ∨
      ∃ s, p.miner = .v1 s ∧ (startAttach client p).miner = .v1 (ProxySession.held s) := by
  unfold startAttach
  split
  · exact .inl rfl
  · cases hm : p.miner with
    | v1 s => exact .inr ⟨s, rfl, rfl⟩
    | sv2 s => exact .inl rfl

theorem sameSlot_afterNext (client : Client) (p : Party) (next : Next) :
    SameSlot p.miner (afterNext client p next).miner := by
  cases next with
  | done | detach => exact .refl _
  | attach =>
    show SameSlot p.miner (startAttach client p).miner
    rcases miner_startAttach client p with h | ⟨s, hm, h⟩
    · rw [h]
      exact .refl _
    · rw [h, hm]
      exact ⟨rfl, rfl, rfl⟩

theorem mailbox_afterNext (client : Client) (p : Party) (next : Next) :
    (afterNext client p next).mailbox = p.mailbox := by
  cases next with
  | done | detach => rfl
  | attach =>
    show (startAttach client p).mailbox = p.mailbox
    unfold startAttach
    split <;> rfl

/-! ## Who is called -/

theorem taken_of_mem {l : Link} {j : Nat} {e : Nat × Subscriber} (hl : c.client.links[j]? = some l)
    (he : e ∈ l.subscribers) : Taken c.client j e.1 e.2.sink :=
  ⟨seatOf e, ⟨l, hl, List.mem_map_of_mem he⟩, rfl, rfl⟩

theorem mem_linkSinks {j : Nat} (h : n ∈ linkSinks c.client j) : ∃ k, Taken c.client j k n := by
  unfold linkSinks at h
  cases hl : c.client.links[j]? with
  | none =>
    rw [hl] at h
    cases h
  | some l =>
    rw [hl] at h
    obtain ⟨e, he, rfl⟩ := List.mem_map.mp (List.mem_filter.mp h).1
    exact ⟨e.1, taken_of_mem hl he⟩

theorem outcomes_sinks {j : Nat} {target : Option Nat} {order : List (Nat × Subscriber)} :
    ∀ st, ∀ o ∈ outcomes j target st order, ∃ e ∈ order, o.1 = e.2.sink := by
  induction order with
  | nil =>
    intro st o ho
    cases ho
  | cons e order ih =>
    intro st o ho
    have hrest (ho : o ∈ outcomes j target (migrateOne j target st e) order) :
        ∃ e' ∈ e :: order, o.1 = e'.2.sink := by
      obtain ⟨e', he', heq⟩ := ih _ o ho
      exact ⟨e', List.mem_cons_of_mem e he', heq⟩
    unfold outcomes at ho
    dsimp only at ho
    split at ho
    · exact hrest ho
    · rcases List.mem_cons.mp ho with rfl | ho
      · exact ⟨e, List.mem_cons_self .., rfl⟩
      · exact hrest ho

theorem posted_closeLink {j : Nat} {order : List (Nat × Subscriber)}
    (hoffer : c.handingOn = none ∧
      ∃ l, c.client.links[j]? = some l ∧ order.Perm l.subscribers)
    (hp' : (closeLink c j order).parties[n]? = some p') :
    ∃ p, c.parties[n]? = some p ∧ PartyStep env c n p i p' := by
  obtain ⟨hnone, l, hl, hperm⟩ := hoffer
  have hsink {target : Option Nat} {st : Client × List Nat} {o : Nat × Option ProxySlot}
      (ho : o ∈ outcomes j target st order) : ∃ k, Taken c.client j k o.1 := by
    obtain ⟨e, he, heq⟩ := outcomes_sinks st o ho
    rw [heq]
    exact ⟨e.1, taken_of_mem hl (hperm.subset he)⟩
  unfold closeLink at hp'
  dsimp only at hp'
  have happend (calls calls' : List (Nat × SinkEvent)) :
      postAll (postAll c.parties calls) calls' = postAll c.parties (calls ++ calls') := by
    simp [postAll, List.foldl_append]
  rw [happend] at hp'
  refine party_posted (fun call hcall => ?_) (.inr hnone) hp'
  rcases List.mem_append.mp hcall with hcall | hcall
  · obtain ⟨o, ho, hsome⟩ := List.mem_filterMap.mp hcall
    obtain ⟨slot, -, rfl⟩ := Option.map_eq_some_iff.mp hsome
    obtain ⟨k, hk⟩ := hsink ho
    exact .rebind slot hk
  · obtain ⟨o, -, hsome⟩ := List.mem_filterMap.mp hcall
    split at hsome
    · obtain rfl := Option.some.inj hsome
      exact .state false
    · cases hsome

/-! ## Who is served -/

/-- A handler runs, of a session that is there. -/
structure Serves (env : Env) (c c' : State) (i : Input) (n : Nat) (p p' : Party) : Prop where
  party : c.parties[n]? = some p
  handled : Handled env c n p i c'.client p'
  parties : c'.parties = c.parties.set n p'

theorem serves_advance (hp : c.parties[n]? = some p) (hs : advance env c n p = some c') :
    c' = c ∨ ∃ p', Serves env c c' (.advance n) n p p' := by
  unfold advance at hs
  cases hphase : p.phase with
  | idle =>
    rw [hphase] at hs
    cases hs
    exact .inl rfl
  | registering =>
    rw [hphase] at hs
    cases hs
    exact .inr ⟨_, hp, .registered hphase, rfl⟩
  | attaching =>
    rw [hphase] at hs
    cases hs
    cases hm : p.miner with
    | v1 s => exact .inr ⟨_, hp, .attachV1 hphase hm, rfl⟩
    | sv2 s => exact .inr ⟨_, hp, .attachSv2 hphase hm (by split_ifs <;> simp), rfl⟩
  | fetching =>
    rw [hphase] at hs
    dsimp only at hs
    cases hm : p.miner with
    | v1 s =>
      have hstep : Handled env c n p (.advance n) c.client _ := .fetchV1 hphase hm
      rw [hm] at hs hstep
      cases hs
      exact .inr ⟨_, hp, hstep, rfl⟩
    | sv2 s =>
      rw [hm] at hs
      obtain ⟨t, ht, rfl⟩ := Option.map_eq_some_iff.mp hs
      exact .inr ⟨_, hp, .fetchSv2 hphase hm (by rw [hm]; exact ht), rfl⟩

theorem serves_deliver (hp : c.parties[n]? = some p) (hidle : p.phase = .idle)
    (hs : deliver env c n p = some c') :
    c' = c ∨ ∃ p', Serves env c c' (.deliver n) n p p' := by
  unfold deliver at hs
  cases hbox : p.mailbox with
  | nil =>
    rw [hbox] at hs
    cases hs
    exact .inl rfl
  | cons ev mailbox =>
    rw [hbox] at hs
    dsimp only at hs
    split at hs
    · rename_i hclosed
      cases hs
      exact .inr ⟨_, hp, .dropped hclosed hbox, rfl⟩
    · rename_i hnot
      have hopen : p.miner.closed = false := by simpa using hnot
      cases hm : p.miner with
      | v1 s =>
        rw [hm] at hs
        cases hs
        refine .inr ⟨_, hp, ?_, parties_goOn ..⟩
        rw [client_goOn]
        exact .deliverV1 hm hidle hopen hbox
      | sv2 s =>
        rw [hm] at hs
        obtain ⟨r, hr, rfl⟩ := Option.map_eq_some_iff.mp hs
        refine .inr ⟨_, hp, ?_, parties_goOn ..⟩
        have hnext : clientAfter c.client { p with miner := .sv2 r.1, mailbox } r.2 = c.client := by
          cases ev with
          | state up =>
            cases hr
            dsimp only
            split <;> rfl
          | diff =>
            cases hr
            rfl
          | job | extranonce | rebind =>
            obtain ⟨s', -, rfl⟩ := Option.map_eq_some_iff.mp hr
            rfl
        rw [client_goOn, hnext]
        exact .deliverSv2 hm hidle hopen hbox hr

theorem serves_close (hp : c.parties[n]? = some p) (hidle : p.phase = .idle) :
    closeParty c n p = c ∨ ∃ p', Serves env c (closeParty c n p) (.close n) n p p' := by
  unfold closeParty
  split
  · exact .inl rfl
  · rename_i hnot
    refine .inr ⟨{ p with miner := p.miner.close }, hp, ?_, ?_⟩
    · rw [client_goOn]
      exact .close hidle (by simpa using hnot)
    · rw [parties_goOn]
      split <;> rfl

theorem client_requestV1 (env : Env) (s : ProxySession.Session) (r : RequestV1) (client : Client)
    (q : Party) : clientAfter client q (requestV1 env s r).2 = client := by
  cases r with
  | subscribe =>
    unfold requestV1
    dsimp only
    split <;> rfl
  | _ => rfl

/-- What runs on a session's strand. -/
def runsOn : Input → Option Nat
  | .requestV1 n _ | .requestSv2 n _ | .advance n | .deliver n | .close n => some n
  | _ => none

/-- **What runs on a strand is a handler of its session.** -/
theorem serves_cases (hoffer : Offered c i) (hs : react env c i = some c') (hn : runsOn i = some n) :
    c' = c ∨ ∃ p p', Serves env c c' i n p p' := by
  cases i with
  | requestV1 m r =>
    cases hn
    rcases onParty_cases hs with rfl | ⟨p, hp, hf⟩
    · exact .inl rfl
    · obtain ⟨hidle, hopen⟩ := hoffer p hp
      cases hm : p.miner with
      | v1 s =>
        rw [hm] at hf
        cases hf
        refine .inr ⟨p, _, hp, ?_, parties_goOn ..⟩
        rw [client_goOn, client_requestV1]
        exact .requestV1 hm hidle hopen
      | sv2 s =>
        rw [hm] at hf
        cases hf
        exact .inl rfl
  | requestSv2 m r =>
    cases hn
    rcases onParty_cases hs with rfl | ⟨p, hp, hf⟩
    · exact .inl rfl
    · obtain ⟨hidle, hopen⟩ := hoffer p hp
      cases hm : p.miner with
      | v1 s =>
        rw [hm] at hf
        cases hf
        exact .inl rfl
      | sv2 s =>
        rw [hm] at hf
        cases hf
        refine .inr ⟨p, _, hp, ?_, parties_goOn ..⟩
        have hnext (q : Party) : clientAfter c.client q (requestSv2 env s r).2 = c.client := by
          cases r <;> rfl
        rw [client_goOn, hnext]
        exact .requestSv2 hm hidle hopen
  | advance m =>
    cases hn
    rcases onParty_cases hs with rfl | ⟨p, hp, hf⟩
    · exact .inl rfl
    · exact (serves_advance hp hf).imp_right fun ⟨p', h⟩ => ⟨p, p', h⟩
  | deliver m =>
    cases hn
    rcases onParty_cases hs with rfl | ⟨p, hp, hf⟩
    · exact .inl rfl
    · exact (serves_deliver hp (hoffer p hp) hf).imp_right fun ⟨p', h⟩ => ⟨p, p', h⟩
  | close m =>
    cases hn
    rcases onParty_cases hs with rfl | ⟨p, hp, hf⟩
    · exact .inl rfl
    · cases hf
      exact (serves_close hp (hoffer p hp)).imp_right fun ⟨p', h⟩ => ⟨p, p', h⟩
  | _ => cases hn

/-! ## All steps -/

/-- **A session after a step was there before, or just connected.** -/
theorem party_cases (hoffer : Offered c i) (hs : react env c i = some c') {q : Party}
    (hq : c'.parties[n]? = some q) :
    (∃ p, c.parties[n]? = some p ∧ PartyStep env c n p i q) ∨
      q = { miner := .v1 {} } ∨ q = { miner := .sv2 {} } := by
  have hsame (h : c'.parties = c.parties) :
      ∃ p, c.parties[n]? = some p ∧ PartyStep env c n p i q := by
    rw [h] at hq
    exact ⟨q, hq, .same⟩
  have hconnect {p : Party} (h : c'.parties = c.parties ++ [p]) :
      (∃ p, c.parties[n]? = some p ∧ PartyStep env c n p i q) ∨ q = p := by
    rw [h] at hq
    rcases Nat.lt_or_ge n c.parties.length with hn | hn
    · rw [List.getElem?_append_left hn] at hq
      exact .inl ⟨q, hq, .same⟩
    · rw [List.getElem?_append_right hn] at hq
      exact .inr (List.mem_singleton.mp (List.mem_of_getElem? hq))
  cases i with
  | connectLink j | connOpen j | subscribeResult j => exact .inl (hsame (parties_clientStep hs))
  | connClose j order =>
    cases hs
    exact .inl (posted_closeLink hoffer hq)
  | authorizeResult j =>
    rw [react] at hs
    obtain ⟨c₁, hc₁, rfl⟩ := Option.map_eq_some_iff.mp hs
    dsimp only at hq
    rw [parties_clientStep hc₁] at hq
    refine .inl (party_posted (fun call hcall => ?_) (.inl fun call hcall => ?_) hq)
    · obtain ⟨_, -, rfl⟩ := List.mem_map.mp hcall
      exact .state true
    · obtain ⟨_, -, rfl⟩ := List.mem_map.mp hcall
      rfl
  | setExtranonce j =>
    rw [react] at hs
    obtain ⟨c₁, hc₁, rfl⟩ := Option.map_eq_some_iff.mp hs
    have hseats := (seats_clientStep hc₁ trivial).1
    dsimp only at hq
    rw [parties_clientStep hc₁] at hq
    have hcalls : ∀ call ∈ reissues c₁.client j,
        Posted c call.1 call.2 ∧ isRebind call.2 = false := by
      intro call hcall
      unfold reissues at hcall
      split at hcall
      · cases hcall
      · rename_i l hl
        obtain ⟨e, he, rfl⟩ := List.mem_map.mp hcall
        have htaken : Taken c₁.client j e.1 e.2.sink := taken_of_mem hl (List.mem_filter.mp he).1
        exact ⟨.extranonce ((taken_congr hseats).mp htaken), rfl⟩
    exact .inl (party_posted (fun call hcall => (hcalls call hcall).1)
      (.inl fun call hcall => (hcalls call hcall).2) hq)
  | setDifficulty j diff =>
    rw [react] at hs
    split at hs
    · cases hs
      exact .inl (hsame rfl)
    · cases hs
      refine .inl (party_posted (fun call hcall => ?_) (.inl fun call hcall => ?_) hq)
      · obtain ⟨_, hsink, rfl⟩ := List.mem_map.mp hcall
        obtain ⟨k, hk⟩ := mem_linkSinks hsink
        exact .diff hk
      · obtain ⟨_, -, rfl⟩ := List.mem_map.mp hcall
        rfl
  | notify j job =>
    cases hs
    exact .inl (hsame rfl)
  | handOn =>
    rw [react] at hs
    split at hs
    · cases hs
      exact .inl (hsame rfl)
    · rename_i j job hjob
      cases hs
      refine .inl (party_posted (fun call hcall => ?_) (.inl fun call hcall => ?_) hq)
      · obtain ⟨_, hsink, rfl⟩ := List.mem_map.mp hcall
        obtain ⟨k, hk⟩ := mem_linkSinks hsink
        exact .job hjob hk
      · obtain ⟨_, -, rfl⟩ := List.mem_map.mp hcall
        rfl
  | connectV1 =>
    cases hs
    exact (hconnect rfl).imp_right .inl
  | connectSv2 =>
    cases hs
    exact (hconnect rfl).imp_right .inr
  | requestV1 m | requestSv2 m | advance m | deliver m | close m =>
    rcases serves_cases hoffer hs rfl with rfl | ⟨p, p', h⟩
    · exact .inl (hsame rfl)
    · rw [h.parties] at hq
      exact .inl (party_set h.party h.handled hq)
  | destroy m => exact .inl (hsame (parties_clientStep hs))

end

/-! ## The jobs of the links -/

/-- Jobs that are stored or handed on were issued by their links. -/
structure Stored (c : State) : Prop where
  jobs : ∀ i job, c.jobs i = some job → (i, job) ∈ c.issued
  handing : ∀ i job, c.handingOn = some (i, job) → (i, job) ∈ c.issued

/-- No link gets a job. -/
structure SameJobs (c c' : State) : Prop where
  jobs : c'.jobs = c.jobs
  issued : c'.issued = c.issued
  handing : c'.handingOn = c.handingOn ∨ c'.handingOn = none

section
variable {env : Env} {c c' : State} {n m : Nat} {i : Input} {p p' : Party}

theorem sameJobs_goOn (next : Next) : SameJobs c (goOn c n p next) := by
  cases next with
  | done | attach => exact ⟨rfl, rfl, .inl rfl⟩
  | detach =>
    show SameJobs c (detachBy _ n p.miner.slot)
    unfold detachBy
    split <;> exact ⟨rfl, rfl, .inl rfl⟩

theorem sameJobs_clientStep {input : UpstreamClient.Input} (hs : clientStep c input = some c') :
    SameJobs c c' := by
  obtain ⟨client, -, rfl⟩ := Option.map_eq_some_iff.mp hs
  exact ⟨rfl, rfl, .inl rfl⟩

theorem sameJobs_advance (hs : advance env c n p = some c') : SameJobs c c' := by
  unfold advance at hs
  split at hs
  · cases hs
    exact ⟨rfl, rfl, .inl rfl⟩
  · cases hs
    exact ⟨rfl, rfl, .inl rfl⟩
  · cases hs
    exact ⟨rfl, rfl, .inl rfl⟩
  · dsimp only at hs
    split at hs
    · cases hs
      exact ⟨rfl, rfl, .inl rfl⟩
    · obtain ⟨s, -, rfl⟩ := Option.map_eq_some_iff.mp hs
      exact ⟨rfl, rfl, .inl rfl⟩

theorem sameJobs_deliver (hs : deliver env c n p = some c') : SameJobs c c' := by
  unfold deliver at hs
  split at hs
  · cases hs
    exact ⟨rfl, rfl, .inl rfl⟩
  · split at hs
    · cases hs
      exact ⟨rfl, rfl, .inl rfl⟩
    · split at hs
      · cases hs
        exact sameJobs_goOn _
      · obtain ⟨r, -, rfl⟩ := Option.map_eq_some_iff.mp hs
        exact sameJobs_goOn _

/-- A step gives a link a job, or none. -/
theorem jobs_cases (hs : react env c i = some c') : SameJobs c c' ∨
    ∃ j job, i = .notify j job ∧ c'.issued = (j, job) :: c.issued ∧
      c'.handingOn = some (j, job) ∧ c'.jobs = fun l => if l = j then some job else c.jobs l := by
  cases i with
  | connectLink j | connOpen j | subscribeResult j | destroy j => exact .inl (sameJobs_clientStep hs)
  | connClose j order | connectV1 | connectSv2 =>
    cases hs
    exact .inl ⟨rfl, rfl, .inl rfl⟩
  | authorizeResult j | setExtranonce j =>
    rw [react] at hs
    obtain ⟨c₁, hc₁, rfl⟩ := Option.map_eq_some_iff.mp hs
    have h := sameJobs_clientStep hc₁
    exact .inl ⟨h.jobs, h.issued, h.handing⟩
  | setDifficulty j diff =>
    rw [react] at hs
    split at hs <;> cases hs <;> exact .inl ⟨rfl, rfl, .inl rfl⟩
  | notify j job =>
    cases hs
    exact .inr ⟨j, job, rfl, rfl, rfl, rfl⟩
  | handOn =>
    rw [react] at hs
    split at hs
    · cases hs
      exact .inl ⟨rfl, rfl, .inl rfl⟩
    · cases hs
      exact .inl ⟨rfl, rfl, .inr rfl⟩
  | requestV1 m r =>
    rcases onParty_cases hs with rfl | ⟨p, -, hf⟩
    · exact .inl ⟨rfl, rfl, .inl rfl⟩
    · split at hf <;> cases hf
      · exact .inl (sameJobs_goOn _)
      · exact .inl ⟨rfl, rfl, .inl rfl⟩
  | requestSv2 m r =>
    rcases onParty_cases hs with rfl | ⟨p, -, hf⟩
    · exact .inl ⟨rfl, rfl, .inl rfl⟩
    · split at hf <;> cases hf
      · exact .inl ⟨rfl, rfl, .inl rfl⟩
      · exact .inl (sameJobs_goOn _)
  | advance m =>
    rcases onParty_cases hs with rfl | ⟨p, -, hf⟩
    · exact .inl ⟨rfl, rfl, .inl rfl⟩
    · exact .inl (sameJobs_advance hf)
  | deliver m =>
    rcases onParty_cases hs with rfl | ⟨p, -, hf⟩
    · exact .inl ⟨rfl, rfl, .inl rfl⟩
    · exact .inl (sameJobs_deliver hf)
  | close m =>
    rcases onParty_cases hs with rfl | ⟨p, -, hf⟩
    · exact .inl ⟨rfl, rfl, .inl rfl⟩
    · cases hf
      unfold closeParty
      split
      · exact .inl ⟨rfl, rfl, .inl rfl⟩
      · exact .inl (sameJobs_goOn _)

theorem issued_mono (hs : react env c i = some c') : ∀ x ∈ c.issued, x ∈ c'.issued := by
  intro x hx
  rcases jobs_cases hs with h | ⟨j, job, -, h, -⟩
  · rw [h.issued]
    exact hx
  · rw [h]
    exact List.mem_cons_of_mem _ hx

theorem Stored.react (h : Stored c) (hs : react env c i = some c') : Stored c' := by
  rcases jobs_cases hs with hsame | ⟨j, job, -, hissued, hhanding, hjobs⟩
  · refine ⟨fun l job hjob => ?_, fun l job hjob => ?_⟩
    · rw [hsame.issued]
      exact h.jobs l job (hsame.jobs ▸ hjob)
    · rw [hsame.issued]
      rcases hsame.handing with heq | heq
      · exact h.handing l job (heq ▸ hjob)
      · rw [heq] at hjob
        cases hjob
  · refine ⟨fun l job' hjob => ?_, fun l job' hjob => ?_⟩
    · rw [hissued]
      rw [hjobs] at hjob
      dsimp only at hjob
      split at hjob
      · rename_i hl
        cases hjob
        rw [hl]
        exact List.mem_cons_self ..
      · exact List.mem_cons_of_mem _ (h.jobs l job' hjob)
    · rw [hissued]
      rw [hhanding] at hjob
      cases hjob
      exact List.mem_cons_self ..

end

theorem stored_initial (n : UInt8) (activeActive : Bool) (weights : List Nat) :
    Stored (initial n activeActive weights) where
  jobs _ _ h := nomatch h
  handing _ _ h := nomatch h

end MkPool.PartySteps
