import MkPool.EmittedWork
import MkPool.JobIds
import MkPool.Supply

/-! # Shares of SV2 miners and the work they are of

The root of a job is computed when the job is sent, and again when a share of it
comes: from the extranonce and the slot that the session has then. -/
namespace MkPool.RelayShares
open MkPool.Lib MkPool.Lib.Mailbox MkPool.Utils MkPool.Coinbase
open MkPool.Sv2Messages MkPool.EmittedWork MkPool.RelaySession
open MkPool.UpstreamClient hiding Input react Offered Run
open MkPool.UpstreamSource MkPool.Proxy MkPool.Bindings MkPool.Migration MkPool.Placement
open MkPool.PartySteps MkPool.Tracking MkPool.Supply

/-! ## The property -/

/-- What a message is under a job id. -/
def jobIn (id : UInt32) : Frame → Option (NewMiningJob × JobRec)
  | .newMiningJob msg built => if msg.jobId = id then some (msg, built) else none
  | .reply _ => none

def prevHashIn (id : UInt32) : Frame → Option SetNewPrevHash
  | .reply (.setNewPrevHash msg) => if msg.jobId = id then some msg else none
  | _ => none

/-- The last `NewMiningJob` that was sent under an id, and what it was built
from. -/
def lastJob (id : UInt32) (sent : List Frame) : Option (NewMiningJob × JobRec) :=
  sent.findSome? (jobIn id)

def lastPrevHash (id : UInt32) (sent : List Frame) : Option SetNewPrevHash :=
  sent.findSome? (prevHashIn id)

/-- The header that is rebuilt for a share is the one that the messages under its
job id define. If it is forwarded, it goes to the link that issued the job, with
the extranonce 2 whose root was sent. -/
def WorkAgrees (env : Env) (c : State) (s : Session) (msg : SubmitSharesStandard)
    (now : UInt32) : Prop :=
  ∀ built, s.jobs.lookup msg.jobId = some built →
    ∃ m p, lastJob msg.jobId s.sent = some (m, built) ∧
      lastPrevHash msg.jobId s.sent = some p ∧
      shareHeader env s.slot built msg = some (standardHeader m p msg) ∧
      ∀ f, (handleSubmitShares env s msg now).2 = some f →
        f.header = standardHeader m p msg ∧
        ∃ i, f.linkId = some i ∧ (i, built.up) ∈ c.issued ∧ f.submit.jobId = built.up.jobId ∧
          f.submit.en2FullHex = built.slot.slotHex ++ built.fixedEn2Hex ∧
          rootWith env.hashes built.up (built.slot.en1Hex ++ built.fixedEn2Hex) =
            some (bytesToHex m.merkleRoot.bytes)

/-! ## The condition -/

/-- The previous hash and the bits of a job are hex of their size. -/
structure Readable (job : ProxyNotify) : Prop where
  prevhash : (hexToBytes (swapWordsHex job.prevhashStratum)).map List.length = some 32
  bits : (hexToBytes job.bits).map List.length = some 4

/-- The session has the slot that the job was built with. -/
structure Unmoved (s : Session) (built : JobRec) : Prop where
  linkId : s.slot.linkId = built.slot.linkId
  slotHex : s.slot.slotHex = built.slot.slotHex
  en1Hex : s.slot.en1Hex = built.slot.en1Hex

/-- A session attaches once, sends a job again only if its link issued it, and
gets shares of readable jobs that were sent since the slot changed. -/
def Settled (c : State) (i : Input) : Prop :=
  Single c i ∧
    match i with
    | .requestSv2 n (.submitShares msg _) =>
      ∀ p ∈ c.parties[n]?, ∀ s, p.miner = .sv2 s →
        ∀ built, s.jobs.lookup msg.jobId = some built → Readable built.up ∧ Unmoved s built
    | .deliver n =>
      ∀ p ∈ c.parties[n]?, ∀ s, p.miner = .sv2 s → p.miner.closed = false →
        ∀ en1Hex en2Size rest, p.mailbox = .extranonce en1Hex en2Size :: rest →
          ∀ job, s.latestUpJob = some job → ∃ i, s.slot.linkId = some i ∧ (i, job) ∈ c.issued
    | _ => True

/-! ## What was sent -/

section
variable {env : Env} {issued : List (Nat × ProxyNotify)} {s t : Session} {id : UInt32}
  {built : JobRec} {frames rest : List Frame}

/-- A message that is of no job. -/
def silent : Frame → Bool
  | .reply (.setNewPrevHash _) | .newMiningJob .. => false
  | .reply _ => true

theorem jobIn_silent {f : Frame} (h : silent f = true) : jobIn id f = none := by
  cases f with
  | reply => rfl
  | newMiningJob => cases h

theorem prevHashIn_silent {f : Frame} (h : silent f = true) : prevHashIn id f = none := by
  unfold prevHashIn
  split
  · cases h
  · rfl

/-- The messages of a job, as they were sent. -/
structure Announced (env : Env) (sent : List Frame) (id : UInt32) (built : JobRec) : Prop where
  job : ∃ m, lastJob id sent = some (m, built) ∧
    rootWith env.hashes built.up (built.slot.en1Hex ++ built.fixedEn2Hex) =
      some (bytesToHex m.merkleRoot.bytes)
  prevHash : Readable built.up → ∃ p, lastPrevHash id sent = some p ∧
    hexToBytes (swapWordsHex built.up.prevhashStratum) = some p.prevHash.bytes ∧
    hexToBytes (byteReverseHex built.up.bits) = some (Wire.leBytes 4 p.nbits.toNat)

/-- Messages that are of other jobs, or of none. -/
theorem Announced.append (h : Announced env rest id built)
    (hjobs : ∀ f ∈ frames, jobIn id f = none) (hprev : ∀ f ∈ frames, prevHashIn id f = none) :
    Announced env (frames ++ rest) id built where
  job := by
    obtain ⟨m, hm, hroot⟩ := h.job
    refine ⟨m, ?_, hroot⟩
    unfold lastJob
    rw [List.findSome?_append, List.findSome?_eq_none_iff.mpr hjobs]
    exact hm
  prevHash hread := by
    obtain ⟨p, hp, hwork⟩ := h.prevHash hread
    refine ⟨p, ?_, hwork⟩
    unfold lastPrevHash
    rw [List.findSome?_append, List.findSome?_eq_none_iff.mpr hprev]
    exact hp

/-- A root is the text of a hash. -/
theorem hash_of_rootWith {H : Hashes} {job : ProxyNotify} {fullExtra root : Str}
    (h : rootWith H job fullExtra = some root) : ∃ hash : Hash256, root = bytesToHex hash.bytes := by
  obtain ⟨txid, -, h⟩ := Option.bind_eq_some_iff.mp h
  obtain ⟨_, -, h⟩ := Option.bind_eq_some_iff.mp h
  obtain ⟨_, -, h⟩ := Option.bind_eq_some_iff.mp h
  exact ⟨_, (Option.some.inj h).symm⟩

/-- The `SetNewPrevHash` of a readable job has its previous hash and bits. -/
theorem setNewPrevHash_readable {job : ProxyNotify} (h : Readable job) :
    ∃ p, setNewPrevHash s job = some p ∧ p.jobId = s.nextJobId ∧
      hexToBytes (swapWordsHex job.prevhashStratum) = some p.prevHash.bytes ∧
      hexToBytes (byteReverseHex job.bits) = some (Wire.leBytes 4 p.nbits.toNat) := by
  obtain ⟨hash, hhash⟩ := hash_of_hex h.prevhash
  obtain ⟨bits, hbits, hlen⟩ := Option.map_eq_some_iff.mp h.bits
  have hlt := beValue_lt bits
  rw [hlen] at hlt
  obtain _ | ⟨b0, _ | ⟨b1, _ | ⟨b2, _ | ⟨b3, _ | ⟨_, _⟩⟩⟩⟩⟩ := bits <;> try cases hlen
  refine ⟨{ channelId := s.channelId, jobId := s.nextJobId, prevHash := hash
            minNtime := job.mintime, nbits := UInt32.ofNat (beValue [b0, b1, b2, b3]) },
    ?_, rfl, ?_, ?_⟩
  · unfold setNewPrevHash
    rw [hbits, hhash]
    dsimp only [Option.bind_eq_bind, Option.bind_some]
    rw [hashOrZero_bytes]
    rfl
  · exact hhash
  · rw [hexToBytes_byteReverseHex hbits]
    show _ = some (Wire.leBytes 4 (UInt32.ofNat _).toNat)
    rw [UInt32.toNat_ofNat', Nat.mod_eq_of_lt (by simpa using hlt), leBytes_beValue (n := 4) rfl]

/-! ## Sessions -/

/-- What is kept of a session: its jobs are as they were sent, and are of the
links they were sent for. -/
def Sending (env : Env) (issued : List (Nat × ProxyNotify)) (s : Session) : Prop :=
  ∀ e ∈ s.jobs, Announced env s.sent e.1 e.2 ∧
    ∃ i, e.2.slot.linkId = some i ∧ (i, e.2.up) ∈ issued

theorem Sending.mono {issued' : List (Nat × ProxyNotify)} (h : Sending env issued s)
    (hless : ∀ x ∈ issued, x ∈ issued') : Sending env issued' s := by
  intro e he
  obtain ⟨hannounced, i, hlink, hissued⟩ := h e he
  exact ⟨hannounced, i, hlink, hless _ hissued⟩

/-- Nothing is sent of a job. -/
theorem Sending.kept (h : Sending env issued s) (hframes : ∀ f ∈ frames, silent f = true)
    (hsent : t.sent = frames ++ s.sent) (hjobs : t.jobs = s.jobs) : Sending env issued t := by
  intro e he
  rw [hjobs] at he
  rw [hsent]
  exact ⟨(h e he).1.append (fun f hf => jobIn_silent (hframes f hf))
    (fun f hf => prevHashIn_silent (hframes f hf)), (h e he).2⟩

theorem Sending.reply (h : Sending env issued s) (msg : Reply) (hmsg : silent (.reply msg) = true)
    (hsent : t.sent = .reply msg :: s.sent) (hjobs : t.jobs = s.jobs) : Sending env issued t :=
  h.kept (fun f hf => by rw [List.mem_singleton.mp hf]; exact hmsg)
    (hsent.trans (List.singleton_append ..).symm) hjobs

theorem Sending.quiet (h : Sending env issued s) (hsent : t.sent = s.sent)
    (hjobs : t.jobs = s.jobs) : Sending env issued t := by
  have hnone : ∀ f ∈ ([] : List Frame), silent f = true := fun _ h => nomatch h
  exact h.kept hnone (hsent.trans (List.nil_append _).symm) hjobs

/-- A job is sent, for the link that issued it. -/
theorem Sending.emits {job : ProxyNotify} (h : Sending env issued s) (he : Emits env s job t)
    (hissued : s.channelOpen = true → ∃ i, s.slot.linkId = some i ∧ (i, job) ∈ issued) :
    Sending env issued t := by
  cases he with
  | unopened => exact h
  | thrown => exact h.quiet rfl rfl
  | @sent fixed mroot hopen hfixed hroot =>
    obtain ⟨root, hrootWith, hbytes⟩ := Option.bind_eq_some_iff.mp hroot
    obtain ⟨hash, rfl⟩ := hash_of_rootWith hrootWith
    obtain rfl : hash.bytes = mroot := by
      rw [hexToBytes_bytesToHex] at hbytes
      exact Option.some.inj hbytes
    have hprevId {p : SetNewPrevHash}
        (hp : p ∈ (setNewPrevHash (counted s) job).toList) : p.jobId = s.nextJobId := by
      obtain ⟨bits, -, h⟩ := Option.bind_eq_some_iff.mp (Option.mem_toList.mp hp)
      obtain ⟨prev, -, h⟩ := Option.bind_eq_some_iff.mp h
      cases h
      rfl
    intro e he
    have he : e ∈ s.jobs.filter (fun e => e.1 ≠ s.nextJobId) ++
        [(s.nextJobId, ⟨job, fixed, s.slot⟩)] := List.mem_of_mem_drop he
    rcases List.mem_append.mp he with he | he
    · -- The messages of the other jobs stay the last under their ids.
      obtain ⟨he, hne⟩ := List.mem_filter.mp he
      have hne : s.nextJobId ≠ e.1 := fun heq => by simp [heq] at hne
      obtain ⟨hannounced, hlink⟩ := h e he
      refine ⟨?_, hlink⟩
      rw [List.append_cons]
      refine hannounced.append (fun f hf => ?_) (fun f hf => ?_) <;>
        rcases List.mem_append.mp hf with hf | hf
      · obtain ⟨p, hp, rfl⟩ := List.mem_map.mp hf
        rfl
      · rw [List.mem_singleton.mp hf]
        exact if_neg hne
      · obtain ⟨p, hp, rfl⟩ := List.mem_map.mp hf
        exact if_neg (by rw [hprevId hp]; exact hne)
      · rw [List.mem_singleton.mp hf]
        rfl
    · obtain rfl := List.mem_singleton.mp he
      refine ⟨⟨⟨newMiningJob (counted s) job hash.bytes, ?_, ?_⟩, fun hread => ?_⟩, hissued hopen⟩
      · unfold lastJob
        rw [List.findSome?_append, List.findSome?_eq_none_iff.mpr, Option.none_or]
        · have hin : jobIn s.nextJobId (.newMiningJob (newMiningJob (counted s) job hash.bytes)
              ⟨job, fixed, s.slot⟩) = some (_, ⟨job, fixed, s.slot⟩) := if_pos rfl
          exact List.findSome?_eq_some_iff.mpr ⟨[], _, _, rfl, hin, fun _ h => nomatch h⟩
        · intro f hf
          obtain ⟨p, hp, rfl⟩ := List.mem_map.mp hf
          rfl
      · show rootWith _ _ _ = some (bytesToHex (StratumV2.hashOrZero hash.bytes).bytes)
        rw [hashOrZero_bytes]
        exact hrootWith
      · obtain ⟨p, hp, hid, hprev, hbits⟩ := setNewPrevHash_readable (s := counted s) hread
        refine ⟨p, ?_, hprev, hbits⟩
        have hin : prevHashIn s.nextJobId (.reply (.setNewPrevHash p)) = some p := if_pos hid
        dsimp only at hp ⊢
        unfold lastPrevHash
        rw [hp]
        exact List.findSome?_eq_some_iff.mpr ⟨[], _, _, rfl, hin, fun _ h => nomatch h⟩

/-! ## Handlers -/

theorem sending_setTarget (h : Sending env issued s) (diff : ℚ) :
    Sending env issued (sendSetTarget s diff) := by
  unfold sendSetTarget
  split
  · exact h.reply (.setTarget _ _) rfl rfl rfl
  · exact h

theorem sending_requestSv2 (h : Sending env issued s) (r : RequestSv2) :
    Sending env issued (requestSv2 env s r).1 := by
  cases r with
  | setupConnection => exact h.reply (.setupConnectionSuccess 2 0) rfl rfl rfl
  | openStandardChannel requestId => exact h.quiet rfl rfl
  | submitShares msg now =>
    unfold requestSv2
    dsimp only
    rcases handleSubmitShares_sends env s msg now with heq | ⟨code, heq⟩ | ⟨sum, heq⟩ <;> rw [heq]
    · exact h
    · exact h.reply (.submitSharesError _ _ _) rfl rfl rfl
    · exact h.reply (.submitSharesSuccess _ _ _ _) rfl rfl rfl

theorem sending_handleSv2 {ev : SinkEvent} {r : Session × Next} (h : Sending env issued s)
    (hev : CallIssued issued s.slot ev)
    (hok : ∀ en1Hex en2Size, ev = .extranonce en1Hex en2Size → ∀ job, s.latestUpJob = some job →
      ∃ i, s.slot.linkId = some i ∧ (i, job) ∈ issued)
    (hr : handleSv2 env s ev = some r) : Sending env issued r.1 := by
  cases ev with
  | job job =>
    obtain ⟨t, ht, rfl⟩ := Option.map_eq_some_iff.mp hr
    unfold onUpstreamJob at ht
    have hlatest : Sending env issued { s with latestUpJob := some job } := h.quiet rfl rfl
    dsimp only at ht
    split at ht
    · exact hlatest.emits (emits_of_emitJob ht) fun _ => hev
    · cases ht
      exact hlatest
  | diff diff =>
    cases hr
    refine sending_setTarget ?_ _
    exact h.quiet rfl rfl
  | extranonce en1Hex en2Size =>
    obtain ⟨t, ht, rfl⟩ := Option.map_eq_some_iff.mp hr
    unfold onUpstreamExtranonce at ht
    have hslot : Sending env issued { s with slot := s.slot.withExtranonce en1Hex en2Size } :=
      h.quiet rfl rfl
    dsimp only at ht
    split at ht
    · rename_i job hjob
      split at ht
      · exact hslot.emits (emits_of_emitJob ht) fun _ => hok en1Hex en2Size rfl job hjob
      · cases ht
        exact hslot
    · cases ht
      exact hslot
  | state up =>
    cases hr
    exact h
  | rebind slot job diff =>
    obtain ⟨t, ht, rfl⟩ := Option.map_eq_some_iff.mp hr
    unfold onRebind at ht
    have htarget (d : ℚ) : Sending env issued
        (sendSetTarget { s with slot := .of slot, attached := true, targetDiff := d } d) := by
      refine sending_setTarget ?_ d
      exact h.quiet rfl rfl
    cases job with
    | none =>
      cases ht
      exact htarget _
    | some job =>
      have hlatest (d : ℚ) : Sending env issued { sendSetTarget
          { s with slot := .of slot, attached := true, targetDiff := d } d with
            latestUpJob := some job } := (htarget d).quiet rfl rfl
      refine (hlatest _).emits (emits_of_emitJob ht) fun _ => ⟨slot.linkId, ?_, hev⟩
      exact congrArg HeldSlot.linkId (sameSlot_sendSetTarget _ _).slot

theorem sending_attached (h : Sending env issued s) (slot : Option ProxySlot) (diff : ℚ) :
    Sending env issued (attachReturned s slot diff).1 := by
  cases slot with
  | none => exact h.quiet rfl rfl
  | some slot =>
    unfold attachReturned
    dsimp only
    split
    · exact h.quiet rfl rfl
    · exact h.reply (.openStandardSuccess _) rfl rfl rfl

theorem sending_jobReturned (h : Sending env issued s) {job : Option ProxyNotify}
    (hissued : ∀ j, job = some j → ∃ i, s.slot.linkId = some i ∧ (i, j) ∈ issued)
    (hr : jobReturned env s job = some t) : Sending env issued t := by
  unfold jobReturned at hr
  have hlatest : Sending env issued { s with latestUpJob := job } := h.quiet rfl rfl
  cases job with
  | none =>
    cases hr
    exact hlatest
  | some job => exact hlatest.emits (emits_of_emitJob hr) fun _ => hissued job rfl

end

section
variable {env : Env} {c c' : State} {n : Nat} {i : Input} {p p' : Party} {client : Client}

/-- An open SV2 session sends jobs of its links. -/
def SendingParty (env : Env) (issued : List (Nat × ProxyNotify)) (p : Party) : Prop :=
  ∀ s, p.miner = .sv2 s → p.miner.closed = false → Sending env issued s

theorem SendingParty.next {issued : List (Nat × ProxyNotify)} (h : SendingParty env issued p)
    (client : Client) (next : Next) : SendingParty env issued (afterNext client p next) := by
  cases next with
  | done | detach => exact h
  | attach =>
    intro s hs hopen
    have hs : (startAttach client p).miner = .sv2 s := hs
    have hopen : (startAttach client p).miner.closed = false := hopen
    rcases miner_startAttach client p with heq | ⟨s', hm, heq⟩
    · rw [heq] at hs hopen
      exact h s hs hopen
    · rw [heq] at hs
      exact Miner.noConfusion hs

theorem sending_handled (h : SendingParty env c.issued p) (hstored : Stored c) (hcalm : Calm p)
    (hwaits : p.miner.closed = false → Waiting c.issued p) (hp : c.parties[n]? = some p)
    (hok : Settled c i) (hs : Handled env c n p i client p') : SendingParty env c.issued p' := by
  cases hs with
  | requestV1 | deliverV1 =>
    refine SendingParty.next ?_ c.client _
    intro s hs
    exact Miner.noConfusion hs
  | @requestSv2 s r hm hidle hopen =>
    refine SendingParty.next (p := { p with miner := .sv2 (requestSv2 env s r).1 }) ?_ c.client _
    rintro t ⟨⟩ -
    exact sending_requestSv2 (h s hm hopen) r
  | dropped hclosed =>
    intro s hs hopen
    exact absurd (hclosed.symm.trans hopen) (by simp)
  | @deliverSv2 s ev mailbox r hm hidle hopen hbox hr =>
    have hsuited := (hwaits hopen).suited
    rw [hbox, hm] at hsuited
    refine SendingParty.next (p := { p with miner := .sv2 r.1, mailbox }) ?_ c.client _
    rintro t ⟨⟩ -
    refine sending_handleSv2 (h s hm hopen) hsuited.1 ?_ hr
    rintro en1Hex en2Size rfl
    exact hok.2 p hp s hm hopen en1Hex en2Size mailbox hbox
  | close hidle hopen =>
    intro s hs hopen'
    have hclosed : p.miner.close.closed = true := by cases p.miner <;> rfl
    exact absurd (hclosed.symm.trans hopen') (by simp)
  | registered => exact h
  | attachV1 | fetchV1 =>
    intro s hs
    exact Miner.noConfusion hs
  | @attachSv2 s phase hphase hm =>
    rintro t ⟨⟩ -
    exact sending_attached (h s hm (hcalm.busy (by simp [hphase]))) _ _
  | @fetchSv2 s t hphase hm hjob =>
    rintro u ⟨⟩ -
    refine sending_jobReturned (h s hm (hcalm.busy (by simp [hphase]))) (fun j hj => ?_) hjob
    obtain ⟨i, hi, hstore⟩ := Option.bind_eq_some_iff.mp hj
    rw [hm] at hi
    exact ⟨i, hi, hstored.jobs i j hstore⟩

/-! ## Runs -/

/-- What is kept. -/
structure Relays (env : Env) (c : State) : Prop where
  supplied : Supplied True c
  sending : ∀ (n : Nat) p, c.parties[n]? = some p → SendingParty env c.issued p

theorem sendingParty_new {m : Miner} {issued : List (Nat × ProxyNotify)}
    (hfresh : ∀ s, m = .sv2 s → s = {}) : SendingParty env issued { miner := m } := by
  intro s hm _ e he
  obtain rfl := hfresh s hm
  cases he

theorem Relays.react (h : Relays env c) (hoffer : Offered c i) (hok : Settled c i)
    (hs : react env c i = some c') : Relays env c' := by
  refine ⟨h.supplied.react hoffer (fun _ => hok.1) hs, fun n q hq => ?_⟩
  rcases party_cases hoffer hs hq with ⟨p, hp, hstep⟩ | rfl | rfl
  · have hsending : SendingParty env c.issued q := by
      cases hstep with
      | posted => exact h.sending n p hp
      | handled hs =>
        exact sending_handled (h.sending n p hp) h.supplied.stored
          (h.supplied.ledger.tracked n p hp (.inr trivial)).calm
          (h.supplied.waiting n p hp (.inr trivial)) hp hok hs
    exact fun s hm hopen => (hsending s hm hopen).mono (issued_mono hs)
  · exact sendingParty_new fun s hm => Miner.noConfusion hm
  · exact sendingParty_new fun s hm => (Miner.sv2.inj hm).symm

end

theorem Relays.initial (env : Env) (n : UInt8) (activeActive : Bool) (weights : List Nat) :
    Relays env (initial n activeActive weights) where
  supplied := .initial True n activeActive weights
  sending _ _ hp := nomatch hp

theorem relays_of_run {env : Env} {c : State} (h : Run env Settled c) : Relays env c := by
  induction h with
  | init n activeActive weights => exact .initial env n activeActive weights
  | step _ hoffer hok hs ih => exact ih.react hoffer hok hs

/-! ## Forwarded shares -/

section
variable {env : Env} {s : Session} {id : UInt32} {built : JobRec} {m : NewMiningJob}
  {p : SetNewPrevHash} {msg : SubmitSharesStandard} {now : UInt32} {f : Forwarded}

/-- **The header is rebuilt as it was announced**, where the session has the
extranonce that the job was built with. -/
theorem shareHeader_announced
    (hroot : rootWith env.hashes built.up (built.slot.en1Hex ++ built.fixedEn2Hex) =
      some (bytesToHex m.merkleRoot.bytes))
    (hprev : hexToBytes (swapWordsHex built.up.prevhashStratum) = some p.prevHash.bytes)
    (hbits : hexToBytes (byteReverseHex built.up.bits) = some (Wire.leBytes 4 p.nbits.toNat))
    (hen1 : s.slot.en1Hex = built.slot.en1Hex) (msg : SubmitSharesStandard) :
    shareHeader env s.slot built msg = some (standardHeader m p msg) := by
  have h₁ := hexToBytes_append (hexToBytes_leHexU32 msg.version) hprev
  have h₂ := hexToBytes_append h₁ (hexToBytes_bytesToHex m.merkleRoot.bytes)
  have h₃ := hexToBytes_append h₂ (JobIds.hexToBytes_reversed msg.ntime)
  have h₄ := hexToBytes_append h₃ hbits
  have h₅ := hexToBytes_append h₄ (JobIds.hexToBytes_reversed msg.nonce)
  unfold shareHeader
  rw [hen1, hroot]
  exact h₅

theorem forwarded_of_submit (h : (handleSubmitShares env s msg now).2 = some f)
    (hjob : s.jobs.lookup msg.jobId = some built) :
    f.linkId = s.slot.linkId ∧ f.submit = translated s built msg ∧
      shareHeader env s.slot built msg = some f.header := by
  unfold handleSubmitShares at h
  split at h
  · cases h
  · rw [hjob] at h
    dsimp only at h
    unfold submitOnJob at h
    split at h
    · cases h
    · split at h
      · cases h
      · rename_i header hheader
        dsimp only at h
        split at h <;> cases h
        exact ⟨rfl, rfl, hheader⟩

end

/-- **Shares agree with the work that was sent**, in every run that meets the
condition. -/
theorem relayed_work_agrees {env : Env} {c : State} {n : Nat} {p : Party} {s : Session}
    {msg : SubmitSharesStandard} {now : UInt32} (hrun : Run env Settled c)
    (hp : c.parties[n]? = some p) (hm : p.miner = .sv2 s)
    (hoffer : Offered c (.requestSv2 n (.submitShares msg now)))
    (hok : Settled c (.requestSv2 n (.submitShares msg now))) : WorkAgrees env c s msg now := by
  intro built hjob
  obtain ⟨hread, hslot⟩ := hok.2 p hp s hm built hjob
  obtain ⟨hannounced, i, hlink, hissued⟩ :=
    (relays_of_run hrun).sending n p hp s hm (hoffer p hp).2 _ (mem_of_lookup hjob)
  obtain ⟨m, hm, hroot⟩ := hannounced.job
  obtain ⟨ph, hph, hprev, hbits⟩ := hannounced.prevHash hread
  have hheader := shareHeader_announced hroot hprev hbits hslot.en1Hex msg
  refine ⟨m, ph, hm, hph, hheader, fun f hf => ?_⟩
  obtain ⟨hflink, hsubmit, hscored⟩ := forwarded_of_submit hf hjob
  refine ⟨Option.some.inj (hscored.symm.trans hheader), i, ?_, hissued, ?_, ?_, hroot⟩
  · rw [hflink, hslot.linkId, hlink]
  · rw [hsubmit]
    rfl
  · rw [hsubmit]
    show s.slot.slotHex ++ _ = _
    rw [hslot.slotHex]

/-! ### Such a run -/

/-- A share of the first job that is sent. -/
def sampleMsg : SubmitSharesStandard where
  channelId := 1
  sequenceNumber := 0
  jobId := 1
  nonce := 0
  ntime := 0
  version := 1

/-- A link has a job, and an SV2 miner gets it. -/
def opened : List Input :=
  linkUp 0 "a0" ++ [.notify 0 (sampleJob "1" 1), .handOn, .connectSv2,
    .requestSv2 0 .setupConnection, .requestSv2 0 (.openStandardChannel 1), .advance 0, .advance 0]

/-- What holds of an SV2 session, if it is there. -/
def checkSv2 (c : State) (n : Nat) (check : Session → Bool) : Bool :=
  (c.parties[n]?).all fun p =>
    match p.miner with
    | .v1 _ => true
    | .sv2 s => check s

theorem checkSv2_spec {c : State} {n : Nat} {check : Session → Bool}
    (h : checkSv2 c n check = true) {p : Party} (hp : p ∈ c.parties[n]?) {s : Session}
    (hm : p.miner = .sv2 s) : check s = true := by
  unfold checkSv2 at h
  rw [Option.mem_def.mp hp] at h
  dsimp only [Option.all] at h
  rwa [hm] at h

/-- The job is readable, and the slot is that of the session. -/
def unmoved (s : Session) (built : JobRec) : Bool :=
  decide ((hexToBytes (swapWordsHex built.up.prevhashStratum)).map List.length = some 32) &&
    decide ((hexToBytes built.up.bits).map List.length = some 4) && decide (s.slot = built.slot)

/-- A move of a run without calls, whose shares are of new work. -/
def settledMove (c : State) : Input → Bool
  | .requestSv2 n (.openStandardChannel _) => (c.parties[n]?).all fun p => !p.miner.attached
  | .requestSv2 n (.submitShares msg _) => checkSv2 c n fun s =>
    (s.jobs.lookup msg.jobId).all (unmoved s)
  | .deliver _ => false
  | _ => true

theorem settled_of_move (c : State) (i : Input) (h : settledMove c i = true) : Settled c i := by
  cases i with
  | requestSv2 n r =>
    cases r with
    | setupConnection => exact ⟨trivial, trivial⟩
    | openStandardChannel requestId =>
      refine ⟨fun p hp hatt => ?_, trivial⟩
      have hfree := (Option.all_eq_true _ _).mp h p hp
      simp [hatt] at hfree
    | submitShares msg now =>
      refine ⟨trivial, fun p hp s hm built hjob => ?_⟩
      have hcheck := (Option.all_eq_true _ _).mp (checkSv2_spec h hp hm) built hjob
      simp only [unmoved, Bool.and_eq_true, decide_eq_true_eq] at hcheck
      obtain ⟨⟨hprev, hbits⟩, hslot⟩ := hcheck
      exact ⟨⟨hprev, hbits⟩, by rw [hslot], by rw [hslot], by rw [hslot]⟩
  | deliver n => cases h
  | _ => exact ⟨trivial, trivial⟩

/-- What the first session, an SV2 one, forwards of the share. -/
def forwards (c : State) : Option (Session × Forwarded) :=
  (c.parties[0]?).bind fun p =>
    match p.miner with
    | .v1 _ => none
    | .sv2 s => (handleSubmitShares sampleEnv s sampleMsg 0).2.map (s, ·)

theorem forwards_spec {c : State} {s : Session} {f : Forwarded} (h : forwards c = some (s, f)) :
    ∃ p, c.parties[0]? = some p ∧ p.miner = .sv2 s ∧
      (handleSubmitShares sampleEnv s sampleMsg 0).2 = some f := by
  obtain ⟨p, hp, h⟩ := Option.bind_eq_some_iff.mp h
  refine ⟨p, hp, ?_⟩
  split at h
  · cases h
  · rename_i t hm
    obtain ⟨f', hf', heq⟩ := Option.map_eq_some_iff.mp h
    obtain ⟨rfl, rfl⟩ := Prod.mk.inj heq
    exact ⟨hm, hf'⟩

/-- A miner's share is of the job it got. -/
theorem relayed_work_agrees_opened :
    ∃ c s f, Run sampleEnv Settled c ∧ forwards c = some (s, f) ∧ f.linkId = some 0 ∧
      WorkAgrees sampleEnv c s sampleMsg 0 := by
  obtain ⟨c, hrun, hkind⟩ := exists_run sampleEnv settledMove settled_of_move [1] opened
    (fun c => decide (Offered c (.requestSv2 0 (.submitShares sampleMsg 0))) &&
      settledMove c (.requestSv2 0 (.submitShares sampleMsg 0)) &&
      (forwards c).any fun r : Session × Forwarded => decide (r.2.linkId = some 0))
    (by decide +kernel)
  simp only [Bool.and_eq_true, decide_eq_true_eq, Option.any_eq_true] at hkind
  obtain ⟨⟨hoffer, hsettled⟩, ⟨s, f⟩, hf, hlink⟩ := hkind
  obtain ⟨p, hp, hm, -⟩ := forwards_spec hf
  exact ⟨c, s, f, hrun, hf, hlink,
    relayed_work_agrees hrun hp hm hoffer (settled_of_move c _ hsettled)⟩

/-! ### Shares of other work -/

/-- The header that is rebuilt is not the one that was announced. -/
def rebuiltAnew (s : Session) : Bool :=
  (s.jobs.lookup sampleMsg.jobId).any fun built =>
    (lastJob sampleMsg.jobId s.sent).all fun m => (lastPrevHash sampleMsg.jobId s.sent).all fun p =>
      decide (shareHeader sampleEnv s.slot built sampleMsg ≠
        some (standardHeader m.1 p sampleMsg))

theorem not_workAgrees {c : State} {s : Session} (h : rebuiltAnew s = true) :
    ¬ WorkAgrees sampleEnv c s sampleMsg 0 := by
  intro hagrees
  obtain ⟨built, hjob, h⟩ := (Option.any_eq_true _ _).mp h
  obtain ⟨m, p, hm, hp, hheader, -⟩ := hagrees built hjob
  have h := (Option.all_eq_true _ _).mp ((Option.all_eq_true _ _).mp h _ hm) _ hp
  exact of_decide_eq_true h hheader

/-- A share is forwarded to a link, and is not of the work that was sent. -/
def ForwardsAnew (link : Nat) : Prop :=
  ∃ c s f, Run sampleEnv (fun _ _ => True) c ∧ forwards c = some (s, f) ∧
    f.linkId = some link ∧ ¬ WorkAgrees sampleEnv c s sampleMsg 0

theorem forwardsAnew_of_inputs {link : Nat} (inputs : List Input)
    (h : (reactAll sampleEnv (fun _ _ => true) (initial 2 false [1, 1]) inputs).any (fun c =>
      (forwards c).any fun r => decide (r.2.linkId = some link) && rebuiltAnew r.1) = true) :
    ForwardsAnew link := by
  obtain ⟨c, hrun, hkind⟩ := exists_run sampleEnv (fun _ _ => true) (fun _ _ _ => trivial) [1, 1]
    inputs _ h
  obtain ⟨⟨s, f⟩, hf, hanew⟩ := (Option.any_eq_true _ _).mp hkind
  obtain ⟨hlink, hanew⟩ := (Bool.and_eq_true _ _).mp hanew
  exact ⟨c, s, f, hrun, hf, of_decide_eq_true hlink, not_workAgrees hanew⟩

/-- The miner is moved to the second link, and its share of the first one's job
goes there. The extranonce of its link changes, and its share is scored with the
new one. -/
theorem relayed_work_rebuilt_anew : ForwardsAnew 1 ∧ ForwardsAnew 0 :=
  ⟨forwardsAnew_of_inputs (opened ++ linkUp 1 "b0" ++
      [.connClose 0 [(0, ⟨0, "0000".toList, 6⟩)], .deliver 0, .deliver 0]) (by decide +kernel),
    forwardsAnew_of_inputs (opened ++ [.setExtranonce 0 "c0".toList 8, .deliver 0])
      (by decide +kernel)⟩

end MkPool.RelayShares
