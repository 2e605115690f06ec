import MkPool.Following
import MkPool.Supply

/-! # Shares of V1 miners and the work they are of

A session remembers jobs by the upstream's id, and reads the extranonce and the
link when a share comes. What the miner worked on is the last job it was
notified of under that id. -/
namespace MkPool.ProxyShares
open MkPool.Lib MkPool.Lib.Mailbox MkPool.Utils MkPool.Coinbase MkPool.JsonValue
open MkPool.ProxySession
open MkPool.UpstreamClient hiding Input react Offered Run
open MkPool.UpstreamSource MkPool.Proxy MkPool.Bindings MkPool.Migration MkPool.Placement
open MkPool.PartySteps MkPool.Following MkPool.Tracking MkPool.Supply

/-! ## The property -/

/-- What the miner was last notified of under a job id: the job, the slot of the
session then, and the extranonce 1 the miner had been told. -/
def lastNotify (id : Str) : List Line → Option (ProxyNotify × HeldSlot × Option Str)
  | [] => none
  | line :: rest =>
    match line with
    | .notify _ job slot =>
      if job.jobId = id then some (job, slot, (rest.findSome? lineTells).map Prod.fst)
      else lastNotify id rest
    | _ => lastNotify id rest

/-- The share names a job that was issued by the link it goes to, and its header
is built from the last notify under that job's id, with the extranonce 1 in force
when that was sent. -/
def RefersTo (env : Env) (c : State) (s : Session) (f : Forwarded) : Prop :=
  ∃ i job slot en1, f.linkId = some i ∧
    lastNotify f.submit.jobId s.sent = some (job, slot, some en1) ∧
    job.jobId = f.submit.jobId ∧ (i, job) ∈ c.issued ∧
    rolledVersion s job f.share.versionBits = some f.version ∧
    shareHeader env job en1 f.share.en2 f.share.ntimeS f.share.nonceS f.version = some f.header

/-! ## The condition -/

/-- What a header is built from. -/
def work (job : ProxyNotify) : UInt32 × Str × Str × Str × List Str × Str :=
  (job.version, job.prevhashStratum, job.coinbase1, job.coinbase2, job.merkleBranch, job.bits)

/-- A job has the content of the one that is remembered under its id; and where
it is not sent on, that of the one the miner was last notified of under its id. -/
def SameWork (s : Session) (job : ProxyNotify) (sentOn : Bool) : Prop :=
  (∀ old, (job.jobId, old) ∈ s.recentJobs → work old = work job) ∧
    (sentOn = false → ∀ last, lastNotify job.jobId s.sent = some last → work last.1 = work job)

/-- The current job was issued by the link of the slot. -/
def CurrentIssued (c : State) (s : Session) : Prop :=
  ∀ job, s.curJob = some job → ∃ i, s.slot.linkId = some i ∧ (i, job) ∈ c.issued

/-- The last notify under the share's job id was sent with the link and the
extranonce 1 that the session has. -/
def SameSession (s : Session) (params : Option (List Json)) : Prop :=
  ∀ sh, parseSubmit s params = .ok sh → (s.recentJobs.lookup sh.jobId).isSome = true →
    ∃ job slot en1, lastNotify sh.jobId s.sent = some (job, slot, en1) ∧
      slot.linkId = s.slot.linkId ∧ slot.en1Hex = s.slot.en1Hex

def ClearCall (c : State) (s : Session) : SinkEvent → Prop
  | .job job => SameWork s job (s.subscribed && s.authorized)
  | .extranonce .. => s.subscribed = true → CurrentIssued c s
  | .rebind _ (some job) _ => s.extranonceSubscribed = true → SameWork s job true
  | _ => True

/-- A link does not use a job id again for other work while it is remembered, a
job is sent again only by the link that issued it, and shares are of jobs that
were notified since the extranonce 1 or the link changed. -/
def Clear (c : State) (i : Input) : Prop :=
  match i with
  | .requestV1 n (.submit params _) =>
    ∀ p ∈ c.parties[n]?, ∀ s, p.miner = .v1 s → SameSession s params
  | .requestV1 n .authorize =>
    ∀ p ∈ c.parties[n]?, ∀ s, p.miner = .v1 s → s.subscribed = true → CurrentIssued c s
  | .deliver n =>
    ∀ p ∈ c.parties[n]?, ∀ s, p.miner = .v1 s → p.miner.closed = false →
      ∀ ev rest, p.mailbox = ev :: rest → ClearCall c s ev
  | .advance n =>
    ∀ p ∈ c.parties[n]?, p.phase = .fetching → ∀ s, p.miner = .v1 s →
      ∀ job ∈ p.miner.slot.linkId.bind c.jobs, SameWork s job false
  | _ => True

/-! ## What is remembered, and what was sent -/

section
variable {env : Env} {issued : List (Nat × ProxyNotify)} {s t : Session} {id : Str}

/-- A line that is no notify. -/
def silent : Line → Bool
  | .notify .. => false
  | _ => true

theorem lastNotify_silent {line : Line} (h : silent line = true) (rest : List Line) :
    lastNotify id (line :: rest) = lastNotify id rest := by
  cases line with
  | notify => cases h
  | _ => rfl

theorem lastNotify_append {lines : List Line} (h : ∀ line ∈ lines, silent line = true)
    (rest : List Line) : lastNotify id (lines ++ rest) = lastNotify id rest := by
  induction lines with
  | nil => rfl
  | cons line lines ih =>
    rw [List.cons_append, lastNotify_silent (h line (List.mem_cons_self ..))]
    exact ih fun l hl => h l (List.mem_cons_of_mem line hl)

/-- What the miner was notified of, against what is remembered, for the ids of
some kind. -/
structure NotifiedOf (ids : Str → Prop) (issued : List (Nat × ProxyNotify)) (s : Session) :
    Prop where
  right : ∀ id job slot en1, lastNotify id s.sent = some (job, slot, en1) →
    job.jobId = id ∧ (∃ i, slot.linkId = some i ∧ (i, job) ∈ issued) ∧ en1 = some slot.en1Hex
  same : ∀ e ∈ s.recentJobs, ids e.1 → ∀ last, lastNotify e.1 s.sent = some last →
    work last.1 = work e.2
  current : ∀ job, s.curJob = some job → ∀ e ∈ s.recentJobs, e.1 = job.jobId →
    work e.2 = work job

/-- What the miner was notified of, against what is remembered. -/
def Notified : List (Nat × ProxyNotify) → Session → Prop := NotifiedOf fun _ => True

variable {ids : Str → Prop}

/-- Nothing is remembered, and no notify is sent. -/
theorem NotifiedOf.kept (h : NotifiedOf ids issued s) (lines : List Line)
    (hlines : ∀ line ∈ lines, silent line = true) (hsent : t.sent = lines ++ s.sent)
    (hjobs : t.recentJobs = s.recentJobs) (hcur : t.curJob = s.curJob) :
    NotifiedOf ids issued t where
  right id job slot en1 hlast := by
    rw [hsent, lastNotify_append hlines] at hlast
    exact h.right id job slot en1 hlast
  same := by
    rw [hjobs]
    intro e he hid last hlast
    rw [hsent, lastNotify_append hlines] at hlast
    exact h.same e he hid last hlast
  current := by
    rw [hjobs, hcur]
    exact h.current

/-- The current job is sent, by a session whose miner was told its slot. -/
theorem NotifiedOf.emit {job : ProxyNotify} (h : NotifiedOf (· ≠ job.jobId) issued s)
    (hjob : s.curJob = some job) (force : Bool)
    (htold : s.sent.findSome? lineTells = some (s.slot.en1Hex, s.slot.en2Size))
    (hissued : ∃ i, s.slot.linkId = some i ∧ (i, job) ∈ issued) :
    Notified issued (emitCurrentJob s force) := by
  unfold emitCurrentJob
  rw [hjob]
  dsimp only
  have hlast (id : Str) (text : Str) : lastNotify id (.notify text job s.slot :: s.sent) =
      if job.jobId = id then some (job, s.slot, some s.slot.en1Hex) else lastNotify id s.sent := by
    show (if _ then some (job, s.slot, (s.sent.findSome? lineTells).map Prod.fst) else _) = _
    rw [htold]
    rfl
  refine ⟨fun id job' slot en1 h' => ?_, fun e he _ last h' => ?_, h.current⟩
  · rw [Session.send, hlast] at h'
    split at h'
    · rename_i hid
      obtain ⟨rfl, rfl, rfl⟩ : job = job' ∧ s.slot = slot ∧ some s.slot.en1Hex = en1 := by
        simpa using h'
      exact ⟨hid, hissued, rfl⟩
    · exact h.right id job' slot en1 h'
  · rw [Session.send, hlast] at h'
    split at h'
    · rename_i hid
      cases h'
      exact (h.current job hjob e he hid.symm).symm
    · rename_i hid
      exact h.same e he (Ne.symm hid) last h'

theorem Notified.emit (h : Notified issued s) (force : Bool)
    (htold : s.sent.findSome? lineTells = some (s.slot.en1Hex, s.slot.en2Size))
    (hcur : ∀ job, s.curJob = some job → ∃ i, s.slot.linkId = some i ∧ (i, job) ∈ issued) :
    Notified issued (emitCurrentJob s force) := by
  cases hjob : s.curJob with
  | none =>
    unfold emitCurrentJob
    rw [hjob]
    exact h
  | some job =>
    have hbut : NotifiedOf (· ≠ job.jobId) issued s :=
      ⟨h.right, fun e he _ => h.same e he trivial, h.current⟩
    exact hbut.emit hjob force htold (hcur job hjob)

/-- A job is remembered, and is the current one. What was notified under its id
may be other work. -/
theorem Notified.remember (h : Notified issued s) {job : ProxyNotify}
    (hsame : ∀ old, (job.jobId, old) ∈ s.recentJobs → work old = work job) :
    NotifiedOf (· ≠ job.jobId) issued (rememberJob { s with curJob := some job } job) := by
  unfold rememberJob
  split
  · refine ⟨h.right, fun e he _ => h.same e he trivial, fun job' hjob' e he hid => ?_⟩
    cases hjob'
    refine hsame e.2 ?_
    rw [← hid]
    exact he
  · have hmem {e : Str × ProxyNotify} {k : Nat}
        (he : e ∈ (s.recentJobs ++ [(job.jobId, job)]).drop k) :
        e ∈ s.recentJobs ∨ e = (job.jobId, job) := by
      rcases List.mem_append.mp (List.mem_of_mem_drop he) with he | he
      · exact .inl he
      · exact .inr (List.mem_singleton.mp he)
    refine ⟨h.right, fun e he hne last hl => ?_, fun job' hjob' e he hid => ?_⟩
    · rcases hmem he with he | rfl
      · exact h.same e he trivial last hl
      · exact absurd rfl hne
    · cases hjob'
      rcases hmem he with he | rfl
      · refine hsame e.2 ?_
        rw [← hid]
        exact he
      · rfl

theorem remember_keeps (s : Session) (job : ProxyNotify) :
    (rememberJob s job).curJob = s.curJob ∧ (rememberJob s job).slot = s.slot ∧
      (rememberJob s job).sent = s.sent ∧
      ((rememberJob s job).subscribed && (rememberJob s job).authorized) =
        (s.subscribed && s.authorized) := by
  unfold rememberJob
  split <;> exact ⟨rfl, rfl, rfl, rfl⟩

/-- A job is remembered and sent on. -/
theorem Notified.sendOn (h : Notified issued s) {job : ProxyNotify}
    (hsame : ∀ old, (job.jobId, old) ∈ s.recentJobs → work old = work job)
    (htold : s.sent.findSome? lineTells = some (s.slot.en1Hex, s.slot.en2Size))
    (hissued : ∃ i, s.slot.linkId = some i ∧ (i, job) ∈ issued) (force : Bool) :
    Notified issued (emitCurrentJob (rememberJob { s with curJob := some job } job) force) := by
  obtain ⟨hcur, hslot, hsent, -⟩ := remember_keeps { s with curJob := some job } job
  refine (h.remember hsame).emit hcur force ?_ ?_
  · rw [hsent, hslot]
    exact htold
  · rw [hslot]
    exact hissued

/-- Nor is it other work where the job is not sent on. -/
theorem Notified.keep (h : Notified issued s) {job : ProxyNotify} (hsame : SameWork s job false) :
    Notified issued (rememberJob { s with curJob := some job } job) := by
  have hbut := h.remember hsame.1
  refine ⟨hbut.right, fun e he _ last hl => ?_, hbut.current⟩
  by_cases hid : e.1 = job.jobId
  · have hcur : (rememberJob { s with curJob := some job } job).curJob = some job := by
      unfold rememberJob
      split <;> rfl
    have hsent : (rememberJob { s with curJob := some job } job).sent = s.sent :=
      sent_remember _ job
    rw [hbut.current job hcur e he hid]
    rw [hid, hsent] at hl
    exact hsame.2 rfl last hl
  · exact hbut.same e he hid last hl

theorem NotifiedOf.mono {issued' : List (Nat × ProxyNotify)} (h : NotifiedOf ids issued s)
    (hless : ∀ x ∈ issued, x ∈ issued') : NotifiedOf ids issued' s where
  right id job slot en1 hlast := by
    obtain ⟨hid, ⟨i, hlink, hjob⟩, hen1⟩ := h.right id job slot en1 hlast
    exact ⟨hid, ⟨i, hlink, hless _ hjob⟩, hen1⟩
  same := h.same
  current := h.current

/-! ## Handlers -/

theorem NotifiedOf.line (h : NotifiedOf ids issued s) (line : Line) (hline : silent line = true)
    (hsent : t.sent = line :: s.sent) (hjobs : t.recentJobs = s.recentJobs)
    (hcur : t.curJob = s.curJob) : NotifiedOf ids issued t :=
  h.kept [line] (fun l hl => by rw [List.mem_singleton.mp hl]; exact hline)
    (hsent.trans (List.singleton_append ..).symm) hjobs hcur

theorem NotifiedOf.quiet (h : NotifiedOf ids issued s) (hsent : t.sent = s.sent)
    (hjobs : t.recentJobs = s.recentJobs) (hcur : t.curJob = s.curJob) :
    NotifiedOf ids issued t := by
  have hnone : ∀ line ∈ ([] : List Line), silent line = true := fun _ h => nomatch h
  exact h.kept [] hnone (hsent.trans (List.nil_append _).symm) hjobs hcur

theorem notified_requestV1 (h : Notified issued s)
    (htold : s.subscribed = true → s.sent.findSome? lineTells = some (s.slot.en1Hex, s.slot.en2Size))
    {r : RequestV1} (hok : r = .authorize → s.subscribed = true → ∀ job, s.curJob = some job →
      ∃ i, s.slot.linkId = some i ∧ (i, job) ∈ issued) :
    Notified issued (requestV1 env s r).1 := by
  cases r with
  | configure params => exact h.line (.configured _) rfl rfl rfl rfl
  | extranonceSubscribe => exact h.line .result rfl rfl rfl rfl
  | subscribe =>
    unfold requestV1
    dsimp only
    split
    · exact h.line (.subscribed _ _) rfl rfl rfl rfl
    · exact h
  | authorize =>
    have hresult : Notified issued { s.send .result with authorized := true } :=
      h.line .result rfl rfl rfl rfl
    unfold requestV1 handleAuthorize
    dsimp only
    split
    · rename_i hsub
      exact hresult.emit true (htold hsub) (hok rfl hsub)
    · exact hresult
  | submit params now =>
    obtain ⟨line, hline, htext⟩ := handleSubmit_sends env s params now
    unfold requestV1
    dsimp only
    rw [hline]
    refine h.line line ?_ rfl rfl rfl
    rcases htext with rfl | ⟨code, reason, rfl⟩ <;> rfl

theorem notified_handleV1 {c : State} (h : Notified c.issued s)
    (htold : s.subscribed = true → s.sent.findSome? lineTells = some (s.slot.en1Hex, s.slot.en2Size))
    {ev : SinkEvent} (hev : CallIssued c.issued s.slot ev) (hok : ClearCall c s ev) :
    Notified c.issued (handleV1 s ev).1 := by
  cases ev with
  | job job =>
    unfold handleV1 onUpstreamJob
    dsimp only
    rw [(remember_keeps { s with curJob := some job } job).2.2.2]
    split
    · rename_i hon
      exact h.sendOn hok.1 (htold ((Bool.and_eq_true _ _).mp hon).1) hev false
    · rename_i hoff
      have hfalse : (s.subscribed && s.authorized) = false := by simpa using hoff
      refine h.keep ?_
      rw [← hfalse]
      exact hok
  | diff diff =>
    unfold handleV1 onUpstreamDiff
    dsimp only
    split
    · exact h.line (.setDifficulty _) rfl rfl rfl rfl
    · exact h.quiet rfl rfl rfl
  | extranonce en1Hex en2Size =>
    unfold handleV1 onUpstreamExtranonce
    dsimp only
    split
    · rename_i hsub
      have hline : Notified c.issued
          (Session.send { s with slot := s.slot.withExtranonce en1Hex en2Size }
            (.setExtranonce en1Hex en2Size)) :=
        h.line (.setExtranonce en1Hex en2Size) rfl rfl rfl rfl
      exact hline.emit true rfl (hok hsub)
    · exact h.quiet rfl rfl rfl
  | state up =>
    unfold handleV1
    dsimp only
    split
    · split
      · exact h.line (.subscribed _ _) rfl rfl rfl rfl
      · exact h
    · exact h
  | rebind slot job diff =>
    unfold handleV1 onRebind
    dsimp only
    split
    · rename_i htells
      have hlines (d : ℚ) : Notified c.issued (sendSetDifficulty (Session.send
          { s with slot := .of slot, attached := true, upstreamDiff := d, targetDiff := d }
          (.setExtranonce slot.en1Hex slot.en2Size)) d) := by
        refine h.kept [.setDifficulty _, .setExtranonce slot.en1Hex slot.en2Size]
          (fun l hl => ?_) rfl rfl rfl
        rcases List.mem_pair.mp hl with rfl | rfl <;> rfl
      cases job with
      | none => exact hlines _
      | some job => exact (hlines _).sendOn (hok htells).1 rfl ⟨_, rfl, hev⟩ true
    · exact h.quiet rfl rfl rfl

theorem notified_attached (h : Notified issued s) (slot : Option ProxySlot) (diff : ℚ) :
    Notified issued (attachReturned s slot diff) := by
  unfold attachReturned
  cases slot with
  | none => exact h.quiet rfl rfl rfl
  | some slot =>
    dsimp only
    split
    · refine h.kept [.setVersionMask _, .setDifficulty _, .subscribed _ _]
        (fun l hl => ?_) rfl rfl rfl
      simp only [List.mem_cons, List.not_mem_nil, or_false] at hl
      rcases hl with rfl | rfl | rfl <;> rfl
    · refine h.kept [.setDifficulty _, .subscribed _ _] (fun l hl => ?_) rfl rfl rfl
      rcases List.mem_pair.mp hl with rfl | rfl <;> rfl

theorem notified_jobReturned (h : Notified issued s) {job : Option ProxyNotify}
    (hok : ∀ j, job = some j → SameWork s j false) : Notified issued (jobReturned s job) := by
  cases job with
  | none => exact ⟨h.right, h.same, fun _ h => nomatch h⟩
  | some job => exact h.keep (hok job rfl)

/-! ## Sessions -/

/-- What is kept of an open session. -/
structure Clean (env : Env) (issued : List (Nat × ProxyNotify)) (s : Session) : Prop where
  told : s.attached = true → Told env (.v1 s)
  subscribed : s.subscribed = true → s.attached = true
  notes : Notified issued s

theorem Clean.mono {issued' : List (Nat × ProxyNotify)} (h : Clean env issued s)
    (hless : ∀ x ∈ issued, x ∈ issued') : Clean env issued' s :=
  ⟨h.told, h.subscribed, h.notes.mono hless⟩

/-- What the miner of a subscribed session was told last. -/
theorem Clean.last (h : Clean env issued s) (hsub : s.subscribed = true) :
    s.sent.findSome? lineTells = some (s.slot.en1Hex, s.slot.en2Size) :=
  (h.told (h.subscribed hsub)).2

/-- The miner is told, the slot and the flags stay. -/
theorem Clean.same (h : Clean env issued s) (hsame : SameSlot (.v1 s) (.v1 t))
    (hsub : t.subscribed = s.subscribed) (htold : Told env (.v1 s) → Told env (.v1 t))
    (hnotes : Notified issued t) : Clean env issued t where
  told hatt := htold (h.told (hsame.attached.symm.trans hatt))
  subscribed hs := hsame.attached.trans (h.subscribed (hsub.symm.trans hs))
  notes := hnotes

theorem Clean.held (h : Clean env issued s) : Clean env issued (held s) :=
  h.same ⟨rfl, rfl, rfl⟩ rfl id (h.notes.quiet rfl rfl rfl)

end

section
variable {env : Env} {c c' : State} {n : Nat} {i : Input} {p p' : Party} {client : Client}

/-- An open V1 session is clean. -/
def CleanParty (env : Env) (issued : List (Nat × ProxyNotify)) (p : Party) : Prop :=
  ∀ s, p.miner = .v1 s → p.miner.closed = false → Clean env issued s

theorem CleanParty.next (h : CleanParty env c.issued p) (client : Client) (next : Next) :
    CleanParty env c.issued (afterNext client p next) := by
  cases next with
  | done | detach => exact h
  | attach =>
    intro s hs hopen
    have hs : (startAttach client p).miner = .v1 s := hs
    have hopen : (startAttach client p).miner.closed = false := hopen
    rcases miner_startAttach client p with heq | ⟨s', hm, heq⟩
    · rw [heq] at hs hopen
      exact h s hs hopen
    · obtain rfl : held s' = s := by
        rw [heq] at hs
        exact Miner.v1.inj hs
      rw [heq] at hopen
      exact (h s' hm (by rw [hm]; exact hopen)).held

theorem clean_handled (h : CleanParty env c.issued p)
    (hcalm : (∃ s, p.miner = .v1 s) → Calm p)
    (hwaits : (∃ s, p.miner = .v1 s) → p.miner.closed = false → Waiting c.issued p)
    (hp : c.parties[n]? = some p) (hok : Clear c i) (hs : Handled env c n p i client p') :
    CleanParty env c.issued p' := by
  cases hs with
  | @requestV1 s r hm hidle hopen =>
    have hclean := h s hm hopen
    refine CleanParty.next (p := { p with miner := .v1 (requestV1 env s r).1 }) ?_ c.client _
    rintro t ⟨⟩ hopen'
    refine hclean.same (sameSlot_requestV1 env s r) (subscribed_requestV1 env s r)
      (fun htold => told_requestV1 htold r) (notified_requestV1 hclean.notes hclean.last ?_)
    rintro rfl hsub
    exact hok p hp s hm hsub
  | requestSv2 | deliverSv2 =>
    refine CleanParty.next ?_ c.client _
    intro s hs
    exact Miner.noConfusion hs
  | dropped hclosed =>
    intro s hs hopen
    exact absurd (hclosed.symm.trans hopen) (by simp)
  | @deliverV1 s ev mailbox hm hidle hopen hbox =>
    have hclean := h s hm hopen
    have hsuited := (hwaits ⟨s, hm⟩ hopen).suited
    rw [hbox, hm] at hsuited
    obtain ⟨-, hatt, -⟩ := slot_handleV1 s ev
    refine CleanParty.next (p := { p with miner := .v1 (handleV1 s ev).1, mailbox }) ?_ c.client _
    rintro t ⟨⟩ hopen'
    have hkept : (handleV1 s ev).1.attached = s.attached := by
      rw [hatt]
      have hmatt : p.miner.attached = s.attached := congrArg Miner.attached hm
      rw [← hmatt]
      exact (hcalm ⟨s, hm⟩).attached_delivered hopen (hbox ▸ List.mem_cons_self ..)
    refine ⟨fun hatt' => ?_, fun hsub => ?_, ?_⟩
    · exact told_handleV1 (hclean.told (hkept.symm.trans hatt')) ev hopen'
    · rw [subscribed_handleV1] at hsub
      exact hkept.trans (hclean.subscribed hsub)
    · exact notified_handleV1 hclean.notes hclean.last hsuited.1 (hok p hp s hm hopen ev mailbox hbox)
  | close hidle hopen =>
    intro s hs hopen'
    have hclosed : p.miner.close.closed = true := by cases p.miner <;> rfl
    exact absurd (hclosed.symm.trans hopen') (by simp)
  | registered => exact h
  | @attachV1 s hphase hm =>
    have hopen := (hcalm ⟨s, hm⟩).busy (by simp [hphase])
    have hclean := h s hm hopen
    have hfree : s.attached = false :=
      (congrArg Miner.attached hm).symm.trans ((hcalm ⟨s, hm⟩).attaching hphase)
    have hbound := bound_attachV1 hfree ((congrArg Miner.closed hm).symm.trans hopen)
      (attach c.client n).2 (diffFor c (attach c.client n).2)
    rintro t ⟨⟩ hopen'
    refine ⟨fun hatt => ?_, fun hsub => ?_, notified_attached hclean.notes _ _⟩
    · have hsome : (attach c.client n).2.isSome = true := hbound.attached.symm.trans hatt
      obtain ⟨slot, hslot⟩ := Option.isSome_iff_exists.mp hsome
      rw [hslot]
      exact told_attachV1 s slot _
    · refine hbound.attached.trans ?_
      cases hslot : (attach c.client n).2 with
      | some slot => rfl
      | none =>
        rw [hslot] at hsub
        exact absurd (hfree.symm.trans (hclean.subscribed hsub)) Bool.false_ne_true
  | attachSv2 | fetchSv2 =>
    intro s hs
    exact Miner.noConfusion hs
  | @fetchV1 s hphase hm =>
    have hclean := h s hm ((hcalm ⟨s, hm⟩).busy (by simp [hphase]))
    rintro t ⟨⟩ hopen'
    refine hclean.same (sameSlot_jobReturned s _) (subscribed_jobReturned s _)
      (fun htold => told_jobReturned htold _) (notified_jobReturned hclean.notes fun j hj => ?_)
    exact hok p hp hphase s hm j hj

/-! ## Runs -/

/-- What is kept. -/
structure Orders (env : Env) (c : State) : Prop where
  supplied : Supplied False c
  clean : ∀ (n : Nat) p, c.parties[n]? = some p → CleanParty env c.issued p

theorem cleanParty_new {m : Miner} {issued : List (Nat × ProxyNotify)}
    (hfresh : ∀ s, m = .v1 s → s = {}) : CleanParty env issued { miner := m } := by
  intro s hm _
  obtain rfl := hfresh s hm
  refine ⟨fun h => (nomatch h), fun h => (nomatch h), ?_⟩
  exact ⟨fun _ _ _ _ h => (nomatch h), fun _ h => (nomatch h), fun _ h => nomatch h⟩

theorem Orders.react (h : Orders env c) (hoffer : Offered c i) (hok : Clear c i)
    (hs : react env c i = some c') : Orders env c' := by
  refine ⟨h.supplied.react hoffer False.elim hs, fun n q hq => ?_⟩
  rcases party_cases hoffer hs hq with ⟨p, hp, hstep⟩ | rfl | rfl
  · have hclean : CleanParty env c.issued q := by
      cases hstep with
      | posted => exact h.clean n p hp
      | handled hs =>
        exact clean_handled (h.clean n p hp)
          (fun hv1 => (h.supplied.ledger.tracked n p hp (.inl hv1)).calm)
          (fun hv1 => h.supplied.waiting n p hp (.inl hv1)) hp hok hs
    exact fun s hm hopen => (hclean s hm hopen).mono (issued_mono hs)
  · exact cleanParty_new fun s hm => (Miner.v1.inj hm).symm
  · exact cleanParty_new fun s hm => Miner.noConfusion hm

end

theorem Orders.initial (env : Env) (n : UInt8) (activeActive : Bool) (weights : List Nat) :
    Orders env (initial n activeActive weights) where
  supplied := .initial False n activeActive weights
  clean _ _ hp := nomatch hp

theorem orders_of_run {env : Env} {c : State} (h : Run env Clear c) : Orders env c := by
  induction h with
  | init n activeActive weights => exact .initial env n activeActive weights
  | step _ hoffer hok hs ih => exact ih.react hoffer hok hs

/-! ## Forwarded shares -/

theorem rolledVersion_congr {s : Session} {job job' : ProxyNotify} (h : work job' = work job)
    (bits : Option UInt32) : rolledVersion s job' bits = rolledVersion s job bits := by
  have hversion : job'.version = job.version := congrArg Prod.fst h
  unfold rolledVersion
  rw [hversion]

theorem shareHeader_congr {env : Env} {job job' : ProxyNotify} (h : work job' = work job)
    (en1Hex en2 ntimeS nonceS : Str) (version : UInt32) :
    shareHeader env job' en1Hex en2 ntimeS nonceS version =
      shareHeader env job en1Hex en2 ntimeS nonceS version := by
  simp only [work, Prod.mk.injEq] at h
  obtain ⟨-, hprev, hcb1, hcb2, hbranch, hbits⟩ := h
  unfold shareHeader
  rw [hprev, hcb1, hcb2, hbranch, hbits]

/-- **Every share that is forwarded refers to the right work**, in every run that
meets the condition. -/
theorem shares_refer {env : Env} {c : State} {n : Nat} {p : Party} {s : Session}
    {params : Option (List Json)} {now : UInt32} {f : Forwarded} (hrun : Run env Clear c)
    (hp : c.parties[n]? = some p) (hm : p.miner = .v1 s)
    (hoffer : Offered c (.requestV1 n (.submit params now)))
    (hok : Clear c (.requestV1 n (.submit params now)))
    (hf : (handleSubmit env s params now).2 = some f) : RefersTo env c s f := by
  obtain ⟨job, hscored⟩ := scored_of_forwarded hf
  have hclean := (orders_of_run hrun).clean n p hp s hm (hoffer p hp).2
  obtain ⟨job', slot, en1, hlast, hlink, hen1⟩ := hok p hp s hm f.share hscored.parsed
    (by rw [hscored.known]; rfl)
  obtain ⟨hid, ⟨i, hi, hissued⟩, rfl⟩ := hclean.notes.right _ _ _ _ hlast
  have hwork : work job' = work job :=
    hclean.notes.same (f.share.jobId, job) (mem_of_lookup hscored.known) trivial _ hlast
  refine ⟨i, job', slot, slot.en1Hex, ?_, ?_, ?_, hissued, ?_, ?_⟩
  · rw [hscored.link, ← hlink, hi]
  · rw [hscored.submit]
    exact hlast
  · rw [hscored.submit]
    exact hid
  · rw [rolledVersion_congr hwork]
    exact hscored.version
  · rw [shareHeader_congr hwork, hen1]
    exact hscored.header

/-! ### Such a run -/

/-- A share of job "1". -/
def sampleShare : Option (List Json) :=
  some [.string [], .string "1".toList, .string "000000000000".toList,
    .string "00000000".toList, .string "00000000".toList]

/-- Two links have a job each, and a miner of the first one is notified. -/
def notified : List Input :=
  linkUp 0 "a0" ++ linkUp 1 "b0" ++
    [.notify 0 (sampleJob "1" 1), .handOn, .notify 1 (sampleJob "2" 2), .handOn, .connectV1,
      .requestV1 0 .extranonceSubscribe] ++ attaches 0 ++ [.requestV1 0 .authorize]

/-- What holds of a V1 session, if it is there. -/
def checkV1 (c : State) (n : Nat) (check : Session → Bool) : Bool :=
  (c.parties[n]?).all fun p =>
    match p.miner with
    | .v1 s => check s
    | .sv2 _ => true

theorem checkV1_spec {c : State} {n : Nat} {check : Session → Bool} (h : checkV1 c n check = true)
    {p : Party} (hp : p ∈ c.parties[n]?) {s : Session} (hm : p.miner = .v1 s) : check s = true := by
  unfold checkV1 at h
  rw [Option.mem_def.mp hp] at h
  dsimp only [Option.all] at h
  rwa [hm] at h

/-- A move of a run without calls, whose shares are of new work. -/
def clearMove (c : State) : Input → Bool
  | .requestV1 n (.submit params _) => checkV1 c n fun s =>
    match parseSubmit s params with
    | .error _ => true
    | .ok sh => (lastNotify sh.jobId s.sent).any fun last =>
      decide (last.2.1.linkId = s.slot.linkId) && decide (last.2.1.en1Hex = s.slot.en1Hex)
  | .requestV1 n .authorize => checkV1 c n fun s =>
    s.curJob.all fun job => s.slot.linkId.any fun i => decide ((i, job) ∈ c.issued)
  | .deliver _ => false
  | .advance n => checkV1 c n fun s => s.recentJobs.isEmpty && s.sent.all silent
  | _ => true

theorem clear_of_move (c : State) (i : Input) (h : clearMove c i = true) : Clear c i := by
  cases i with
  | requestV1 n r =>
    cases r with
    | submit params now =>
      intro p hp s hm sh hparse _
      have hcheck := checkV1_spec h hp hm
      rw [hparse] at hcheck
      obtain ⟨last, hlast, hsame⟩ := (Option.any_eq_true _ _).mp hcheck
      simp only [Bool.and_eq_true, decide_eq_true_eq] at hsame
      exact ⟨last.1, last.2.1, last.2.2, hlast, hsame.1, hsame.2⟩
    | authorize =>
      intro p hp s hm _ job hjob
      have hcheck := checkV1_spec h hp hm
      rw [hjob] at hcheck
      obtain ⟨i, hi, hissued⟩ := (Option.any_eq_true _ _).mp hcheck
      exact ⟨i, hi, of_decide_eq_true hissued⟩
    | _ => trivial
  | deliver n => cases h
  | advance n =>
    intro p hp _ s hm job _
    have hcheck := checkV1_spec h hp hm
    simp only [Bool.and_eq_true, List.isEmpty_iff, List.all_eq_true] at hcheck
    refine ⟨fun old hold => ?_, fun _ last hlast => ?_⟩
    · rw [hcheck.1] at hold
      cases hold
    · have hnone : lastNotify job.jobId (s.sent ++ []) = lastNotify job.jobId [] :=
        lastNotify_append hcheck.2 []
      rw [List.append_nil, hlast] at hnone
      cases hnone
  | _ => trivial

/-- What the first session, a V1 one, forwards of the share. -/
def forwards (c : State) : Option (Session × Forwarded) :=
  (c.parties[0]?).bind fun p =>
    match p.miner with
    | .v1 s => (handleSubmit sampleEnv s sampleShare 0).2.map (s, ·)
    | .sv2 _ => none

theorem forwards_spec {c : State} {s : Session} {f : Forwarded} (h : forwards c = some (s, f)) :
    ∃ p, c.parties[0]? = some p ∧ p.miner = .v1 s ∧
      (handleSubmit sampleEnv s sampleShare 0).2 = some f := by
  obtain ⟨p, hp, h⟩ := Option.bind_eq_some_iff.mp h
  refine ⟨p, hp, ?_⟩
  split at h
  · rename_i t hm
    obtain ⟨f', hf', heq⟩ := Option.map_eq_some_iff.mp h
    obtain ⟨rfl, rfl⟩ := Prod.mk.inj heq
    exact ⟨hm, hf'⟩
  · cases h

/-- A miner's share goes to the link its job is from. -/
theorem shares_refer_notified :
    ∃ c s f, Run sampleEnv Clear c ∧ forwards c = some (s, f) ∧ f.linkId = some 0 ∧
      RefersTo sampleEnv c s f := by
  obtain ⟨c, hrun, hkind⟩ := exists_run sampleEnv clearMove clear_of_move [1, 1] notified
    (fun c => decide (Offered c (.requestV1 0 (.submit sampleShare 0))) &&
      clearMove c (.requestV1 0 (.submit sampleShare 0)) &&
      (forwards c).any fun r : Session × Forwarded => decide (r.2.linkId = some 0))
    (by decide +kernel)
  simp only [Bool.and_eq_true, decide_eq_true_eq, Option.any_eq_true] at hkind
  obtain ⟨⟨hoffer, hclear⟩, ⟨s, f⟩, hf, hlink⟩ := hkind
  obtain ⟨p, hp, hm, hforwards⟩ := forwards_spec hf
  exact ⟨c, s, f, hrun, hf, hlink,
    shares_refer hrun hp hm hoffer (clear_of_move c _ hclear) hforwards⟩

/-! ### Shares of other work -/

/-- A share names no job of its link, or its version is not that of the notify. -/
def strayShare (c : State) (s : Session) (f : Forwarded) : Bool :=
  (c.issued.all fun e => decide (f.linkId = some e.1 → e.2.jobId ≠ f.submit.jobId)) ||
    (lastNotify f.submit.jobId s.sent).all fun last =>
      decide (rolledVersion s last.1 f.share.versionBits ≠ some f.version)

theorem not_refersTo {env : Env} {c : State} {s : Session} {f : Forwarded}
    (h : strayShare c s f = true) : ¬ RefersTo env c s f := by
  rintro ⟨i, job, slot, en1, hlink, hlast, hid, hissued, hversion, -⟩
  rcases Bool.or_eq_true_iff.mp h with h | h
  · exact of_decide_eq_true (List.all_eq_true.mp h _ hissued) hlink hid
  · rw [hlast] at h
    exact of_decide_eq_true h hversion

/-- A share is forwarded to a link, and does not refer to the right work. -/
def ForwardsStray (link : Nat) : Prop :=
  ∃ c s f, Run sampleEnv (fun _ _ => True) c ∧ forwards c = some (s, f) ∧
    f.linkId = some link ∧ ¬ RefersTo sampleEnv c s f

theorem forwardsStray_of_inputs {link : Nat} (inputs : List Input)
    (h : (reactAll sampleEnv (fun _ _ => true) (initial 2 false [1, 1]) inputs).any (fun c =>
      (forwards c).any fun r => decide (r.2.linkId = some link) && strayShare c r.1 r.2) = true) :
    ForwardsStray link := by
  obtain ⟨c, hrun, hkind⟩ := exists_run sampleEnv (fun _ _ => true) (fun _ _ _ => trivial) [1, 1]
    inputs _ h
  obtain ⟨⟨s, f⟩, hf, hstray⟩ := (Option.any_eq_true _ _).mp hkind
  obtain ⟨hlink, hstray⟩ := (Bool.and_eq_true _ _).mp hstray
  exact ⟨c, s, f, hrun, hf, of_decide_eq_true hlink, not_refersTo hstray⟩

/-- The miner is moved to the second link, and its share of the first one's job
goes there. The first link uses a job id again, and the share is scored with the
job that was remembered. -/
theorem stray_shares_forwarded : ForwardsStray 1 ∧ ForwardsStray 0 :=
  ⟨forwardsStray_of_inputs (notified ++ [.connClose 0 [(0, ⟨0, "0000".toList, 6⟩)], .deliver 0])
      (by decide +kernel),
    forwardsStray_of_inputs (notified ++ [.notify 0 (sampleJob "1" 2), .handOn, .deliver 0])
      (by decide +kernel)⟩

end MkPool.ProxyShares
