import MkPool.Bindings

/-! # The extranonce 2 of relayed jobs

Each call of `emit_job` moves a counter on, and the job is kept with the
counter's lowest bytes. A call whose texts are no hex keeps nothing, and still
moves the counter. -/
namespace MkPool.FreshWork
open MkPool.Lib MkPool.Utils MkPool.Coinbase MkPool.UpstreamClient MkPool.UpstreamSource
open MkPool.RelaySession MkPool.Proxy MkPool.Bindings

/-! ## What runs on a session's strand -/

/-- What an upstream returns to `try_attach`: whether a link is ready, and what
`attach`, `current_diff` and `current_job` return. -/
structure Answers where
  ready : Bool
  slot : Option ProxySlot
  diff : ℚ
  job : Option ProxyNotify

/-- A frame of the miner, a call of the upstream, or the end. -/
inductive Task where
  | request (r : RequestSv2) (upstream : Answers)
  | call (ev : SinkEvent) (upstream : Answers)
  | close

/-- `try_attach`. -/
def tryAttach (env : Env) (s : Session) (a : Answers) : Option Session :=
  if a.ready then
    match attachReturned s a.slot a.diff with
    | (s, true) => jobReturned env s a.job
    | (s, false) => some s
  else some s

def goOn (env : Env) (a : Answers) : Session × Next → Option Session
  | (s, .attach) => tryAttach env s a
  | (s, _) => some s

/-- A task of the strand. Nothing is returned where a shift is undefined. -/
def step (env : Env) (s : Session) : Task → Option Session
  | .request r a => if s.closed then some s else goOn env a (requestSv2 env s r)
  | .call ev a => if s.closed then some s else (handleSv2 env s ev).bind (goOn env a)
  | .close => some { s with closed := true }

/-! ## Calls of `emit_job` -/

/-- A call on an open channel. -/
structure Call where
  slot : HeldSlot
  job : ProxyNotify

/-- The call of a session that attaches. -/
def attachCall (a : Answers) : Option Call := do
  let slot ← if a.ready then a.slot else none
  let _ ← hexToBytes slot.en1Hex
  return { slot := .of slot, job := ← a.job }

/-- The call a task makes. -/
def callOf (s : Session) : Task → Option Call
  | .request (.openStandardChannel _) a => if s.closed then none else attachCall a
  | .request .. => none
  | .call ev a =>
    if s.closed then none
    else
      match ev with
      | .job job => if s.channelOpen then some { slot := s.slot, job } else none
      | .extranonce en1Hex en2Size =>
        if s.channelOpen then
          s.latestUpJob.map fun job => { slot := s.slot.withExtranonce en1Hex en2Size, job }
        else none
      | .rebind slot job _ =>
        if s.channelOpen then job.map fun job => { slot := .of slot, job } else none
      | .state up => if up && s.setupDone && !s.channelOpen then attachCall a else none
      | .diff _ => none
  | .close => none

/-- The texts of a job and of its slot are hex, so that the job is kept. -/
def readable (c : Call) : Bool :=
  let en2 := bytesToHex (List.replicate c.slot.en2Size 0)
  (hexToBytes (rebuildCoinbase c.job.coinbase1 c.job.coinbase2 (c.slot.en1Hex ++ en2))).isSome
    && (c.job.merkleBranch.mapM Merkle.hashOfHex).isSome

/-- A session, and its calls of `emit_job`, the latest first. -/
structure State where
  session : Session := {}
  log : List Call := []

inductive Run (env : Env) : State → Prop where
  | init : Run env {}
  | next {st : State} {task : Task} {t : Session} (run : Run env st)
    (stepped : step env st.session task = some t) :
    Run env { session := t, log := (callOf st.session task).toList ++ st.log }

/-! ## What is claimed of the kept jobs -/

/-- No two kept jobs of a slot have one extranonce 2. -/
def Distinct (s : Session) : Prop :=
  s.jobs.Pairwise fun a b =>
    a.2.slot = b.2.slot → 1 ≤ a.2.slot.en2Size → a.2.fixedEn2Hex ≠ b.2.fixedEn2Hex

/-- The extranonce 2 of a kept job is as long as its slot says. -/
def Sized (s : Session) : Prop :=
  ∀ e ∈ s.jobs, (hexToBytes e.2.fixedEn2Hex).map List.length = some e.2.slot.en2Size

/-- The calls that keep a job, each with its number. -/
def numbered : List Call → List (Call × Nat)
  | [] => []
  | c :: log => if readable c then (c, log.length + 1) :: numbered log else numbered log

/-- Between two of the 16 latest jobs of a slot the calls are no multiple of
what its extranonce 2 can count. -/
def Spaced (log : List Call) : Prop :=
  ((numbered log).take 16).Pairwise fun a b =>
    a.1.slot = b.1.slot → 1 ≤ a.1.slot.en2Size → ¬ 256 ^ a.1.slot.en2Size ∣ a.2 - b.2

/-! ## The bytes of the counter -/

/-- The lowest `n` bytes of the counter, the highest first. -/
def en2Of (n : Nat) (counter : UInt64) : Str := bytesToHex (Wire.leBytes n counter.toNat).reverse

theorem leBytes_eq_map (n v : Nat) :
    Wire.leBytes n v = (List.range n).map fun i => UInt8.ofNat (v / 256 ^ i % 256) := by
  induction n generalizing v with
  | zero => rfl
  | succ n ih =>
    rw [Wire.leBytes, ih, List.range_succ_eq_map, List.map_cons, List.map_map, pow_zero,
      Nat.div_one]
    congr 1
    refine List.map_congr_left fun i _ => ?_
    rw [Function.comp_apply, Nat.pow_succ', Nat.div_div_eq_div_mul]

theorem reverse_leBytes (n v : Nat) :
    (Wire.leBytes n v).reverse =
      (List.range n).map fun i => UInt8.ofNat (v / 256 ^ (n - 1 - i) % 256) := by
  rw [leBytes_eq_map]
  refine List.ext_getElem (by simp) fun i hi _ => ?_
  simp

theorem mapM_some {α β : Type} {f : α → Option β} {g : α → β} {l : List α}
    (h : ∀ a ∈ l, f a = some (g a)) : l.mapM f = some (l.map g) := by
  induction l with
  | nil => rfl
  | cons a l ih =>
    rw [List.mapM_cons, h a (List.mem_cons_self ..),
      ih fun b hb => h b (List.mem_cons_of_mem _ hb)]
    rfl

theorem mapM_counterByte {n : Nat} (counter : UInt64) (hn : n ≤ 8) :
    (List.range n).mapM (counterByte counter n) = some (Wire.leBytes n counter.toNat).reverse := by
  rw [reverse_leBytes]
  refine mapM_some fun i hi => ?_
  have hlt : i < n := List.mem_range.mp hi
  unfold counterByte
  dsimp only
  rw [if_pos (by omega), pow_mul]
  rfl

/-- The shifts are defined for eight bytes and fewer. -/
theorem currentFixedEn2_eq (s : Session) :
    currentFixedEn2 s =
      if s.slot.en2Size ≤ 8 then some (en2Of s.slot.en2Size s.en2Counter) else none := by
  unfold currentFixedEn2
  split
  · rename_i hsize
    rw [mapM_counterByte _ hsize]
    rfl
  · rename_i hsize
    obtain ⟨n, hn⟩ : ∃ n, s.slot.en2Size = n + 1 := ⟨s.slot.en2Size - 1, by omega⟩
    have hfirst : counterByte s.en2Counter (n + 1) 0 = none := if_neg (by omega)
    rw [hn, List.range_succ_eq_map, List.mapM_cons, hfirst]
    rfl

theorem bytesToHex_injective {as bs : Bytes} (h : bytesToHex as = bytesToHex bs) : as = bs :=
  Hex.encode_injective h

/-- Two counts have one text where they agree on the bytes the text has. -/
theorem en2Of_ofNat {n : Nat} (hn : n ≤ 8) (i j : Nat) :
    en2Of n (UInt64.ofNat i) = en2Of n (UInt64.ofNat j) ↔ i % 256 ^ n = j % 256 ^ n := by
  have hdvd : 256 ^ n ∣ 2 ^ 64 := by
    rw [show (2 : Nat) ^ 64 = 256 ^ 8 by norm_num]
    exact pow_dvd_pow 256 hn
  have hmod (k : Nat) : (UInt64.ofNat k).toNat % 256 ^ n = k % 256 ^ n := by
    rw [UInt64.toNat_ofNat', Nat.mod_mod_of_dvd k hdvd]
  constructor
  · intro h
    have hbytes := List.reverse_injective (bytesToHex_injective h)
    rw [Wire.leBytes_inj, hmod, hmod] at hbytes
    exact hbytes
  · intro h
    have hbytes : Wire.leBytes n (UInt64.ofNat i).toNat = Wire.leBytes n (UInt64.ofNat j).toNat :=
      Wire.leBytes_inj.mpr (by rw [hmod, hmod, h])
    rw [en2Of, hbytes, en2Of]

theorem en2Of_eq_iff {n i j : Nat} (hn : n ≤ 8) (hij : j ≤ i) :
    en2Of n (UInt64.ofNat i) = en2Of n (UInt64.ofNat j) ↔ 256 ^ n ∣ i - j := by
  rw [en2Of_ofNat hn]
  exact eq_comm.trans (Nat.modEq_iff_dvd' hij)

theorem length_en2Of (n : Nat) (counter : UInt64) :
    (hexToBytes (en2Of n counter)).map List.length = some n := by
  simp [en2Of]

/-! ## Texts that are hex -/

theorem isSome_rootWith (H : Hashes) (job : ProxyNotify) (fullExtra : Str) :
    ((rootWith H job fullExtra).bind hexToBytes).isSome =
      ((hexToBytes (rebuildCoinbase job.coinbase1 job.coinbase2 fullExtra)).isSome
        && (job.merkleBranch.mapM Merkle.hashOfHex).isSome) := by
  unfold rootWith computeCoinbaseTxidLe Merkle.computeRootLeHex
  cases hexToBytes (rebuildCoinbase job.coinbase1 job.coinbase2 fullExtra) with
  | none => rfl
  | some cb =>
    cases job.merkleBranch.mapM Merkle.hashOfHex with
    | none => simp
    | some siblings => simp

/-- The job is kept whatever bytes the extranonce 2 has. -/
theorem isSome_root {H : Hashes} {slot : HeldSlot} {job : ProxyNotify} (counter : UInt64) :
    ((rootWith H job (slot.en1Hex ++ en2Of slot.en2Size counter)).bind hexToBytes).isSome =
      readable { slot, job } := by
  rw [isSome_rootWith, readable]
  have hzeros : Hex.decode (bytesToHex (List.replicate slot.en2Size 0)) =
      some (List.replicate slot.en2Size 0) := hexToBytes_bytesToHex _
  have hcounter : Hex.decode (en2Of slot.en2Size counter) =
      some (Wire.leBytes slot.en2Size counter.toNat).reverse := hexToBytes_bytesToHex _
  have hlen : (en2Of slot.en2Size counter).length =
      (bytesToHex (List.replicate slot.en2Size 0)).length := by
    rw [Hex.length_of_decode hcounter, Hex.length_of_decode hzeros]
    simp
  have hsame := Hex.isSome_decode_infix (job.coinbase1 ++ slot.en1Hex) job.coinbase2 hcounter
    hzeros hlen
  simp only [List.append_assoc] at hsame
  simp only [rebuildCoinbase, hexToBytes, List.append_assoc]
  rw [hsame]

/-! ## One task -/

/-- The jobs and the counter stay. -/
structure Idle (s t : Session) : Prop where
  jobs : t.jobs = s.jobs
  nextJobId : t.nextJobId = s.nextJobId
  counter : t.en2Counter = s.en2Counter

/-- What is kept of a call. -/
def record (c : Call) (counter : UInt64) : JobRec where
  up := c.job
  fixedEn2Hex := en2Of c.slot.en2Size counter
  slot := c.slot

/-- What a call of `emit_job` does. -/
structure Adds (s : Session) (c : Call) (t : Session) : Prop where
  counter : t.en2Counter = s.en2Counter + 1
  kept : readable c = true → t.nextJobId = s.nextJobId + 1 ∧
    t.jobs = (withJob s (record c (s.en2Counter + 1))).jobs
  dropped : readable c = false → t.nextJobId = s.nextJobId ∧ t.jobs = s.jobs

theorem Adds.of_idle {s s₀ t : Session} {c : Call} (h : Adds s₀ c t) (hidle : Idle s s₀) :
    Adds s c t where
  counter := by rw [h.counter, hidle.counter]
  kept hc := by
    obtain ⟨hid, hjobs⟩ := h.kept hc
    simp only [withJob, hidle.jobs, hidle.nextJobId, hidle.counter] at hid hjobs
    exact ⟨hid, hjobs⟩
  dropped hc := by rw [(h.dropped hc).1, (h.dropped hc).2, hidle.nextJobId, hidle.jobs]; simp

section Task
variable {env : Env} {s : Session}

theorem emitJob_adds {job : ProxyNotify} (hopen : s.channelOpen = true)
    (hsize : s.slot.en2Size ≤ 8) :
    ∃ t, emitJob env s job = some t ∧ Adds s { slot := s.slot, job } t := by
  have hfixed : currentFixedEn2 (counted s) = some (en2Of s.slot.en2Size (s.en2Counter + 1)) := by
    rw [currentFixedEn2_eq]
    exact if_pos hsize
  have hread := @isSome_root env.hashes s.slot job (s.en2Counter + 1)
  unfold emitJob
  rw [if_neg (by simp [hopen])]
  dsimp only
  rw [show { s with en2Counter := s.en2Counter + 1 } = counted s from rfl, hfixed,
    Option.bind_eq_bind, Option.bind_some]
  cases hroot : (rootWith env.hashes job (s.slot.en1Hex ++
      en2Of s.slot.en2Size (s.en2Counter + 1))).bind hexToBytes with
  | none =>
    rw [hroot] at hread
    refine ⟨counted s, rfl, rfl, ?_, ?_⟩
    · intro hc
      rw [← hread] at hc
      cases hc
    · intro _
      exact ⟨rfl, rfl⟩
  | some mroot =>
    rw [hroot] at hread
    cases hprev : setNewPrevHash (counted s) job with
    | none =>
      refine ⟨_, rfl, rfl, fun _ => ⟨rfl, rfl⟩, fun hc => ?_⟩
      rw [← hread] at hc
      cases hc
    | some prevHash =>
      refine ⟨_, rfl, rfl, fun _ => ⟨rfl, rfl⟩, fun hc => ?_⟩
      rw [← hread] at hc
      cases hc

theorem emitJob_undefined {job : ProxyNotify} (hopen : s.channelOpen = true)
    (hsize : ¬ s.slot.en2Size ≤ 8) : emitJob env s job = none := by
  have hfixed : currentFixedEn2 (counted s) = none := by
    rw [currentFixedEn2_eq]
    exact if_neg hsize
  unfold emitJob
  rw [if_neg (by simp [hopen])]
  dsimp only
  rw [show { s with en2Counter := s.en2Counter + 1 } = counted s from rfl, hfixed]
  rfl

theorem idle_refl (s : Session) : Idle s s := ⟨rfl, rfl, rfl⟩

theorem idle_setTarget {s₀ : Session} (h : Idle s s₀) (diff : ℚ) :
    Idle s (sendSetTarget s₀ diff) := by
  unfold sendSetTarget
  split
  · exact ⟨h.jobs, h.nextJobId, h.counter⟩
  · exact h

theorem idle_request (r : RequestSv2) : Idle s (requestSv2 env s r).1 := by
  cases r with
  | setupConnection => exact ⟨rfl, rfl, rfl⟩
  | openStandardChannel requestId => exact ⟨rfl, rfl, rfl⟩
  | submitShares msg now =>
    show Idle s (handleSubmitShares env s msg now).1
    obtain h | ⟨_, h⟩ | ⟨_, h⟩ := handleSubmitShares_sends env s msg now <;> rw [h] <;>
      exact ⟨rfl, rfl, rfl⟩

/-- A task ends in the call it makes, if it makes one. -/
inductive Ends (env : Env) (s : Session) : Option Call → Option Session → Prop where
  | idle {t : Session} (hidle : Idle s t) : Ends env s none (some t)
  | call {s₀ : Session} {c : Call} {r : Option Session} (hr : r = emitJob env s₀ c.job)
    (hslot : c.slot = s₀.slot) (hopen : s₀.channelOpen = true) (hidle : Idle s s₀) :
    Ends env s (some c) r

theorem ends_tryAttach {s₀ : Session} (a : Answers) (hidle : Idle s s₀) :
    Ends env s (attachCall a) (tryAttach env s₀ a) := by
  obtain ⟨ready, slot, diff, job⟩ := a
  cases ready with
  | false => exact .idle hidle
  | true =>
    cases slot with
    | none => exact .idle ⟨hidle.jobs, hidle.nextJobId, hidle.counter⟩
    | some slot =>
      simp only [attachCall, tryAttach, attachReturned, if_true, Option.bind_eq_bind,
        Option.bind_some]
      cases hexToBytes slot.en1Hex with
      | none => exact .idle ⟨hidle.jobs, hidle.nextJobId, hidle.counter⟩
      | some extranoncePrefix =>
        cases job with
        | none => exact .idle ⟨hidle.jobs, hidle.nextJobId, hidle.counter⟩
        | some job => exact .call rfl rfl rfl ⟨hidle.jobs, hidle.nextJobId, hidle.counter⟩

theorem ends_request (r : RequestSv2) (a : Answers) (hclosed : s.closed = false) :
    Ends env s (callOf s (.request r a)) (step env s (.request r a)) := by
  have hidle := @idle_request env s r
  simp only [step, callOf, hclosed]
  cases r with
  | setupConnection => exact .idle hidle
  | openStandardChannel requestId => exact ends_tryAttach a hidle
  | submitShares msg now => exact .idle hidle

/-- Without a channel `emit_job` returns at once. -/
theorem emitJob_unopened {job : ProxyNotify} (hopen : s.channelOpen = false) :
    emitJob env s job = some s := if_pos (by simp [hopen])

theorem slot_setTarget (s : Session) (diff : ℚ) : (sendSetTarget s diff).slot = s.slot := by
  unfold sendSetTarget
  split <;> rfl

theorem channelOpen_setTarget (s : Session) (diff : ℚ) :
    (sendSetTarget s diff).channelOpen = s.channelOpen := by
  unfold sendSetTarget
  split <;> rfl

/-- The session of `on_rebind` before its job. -/
def rebound (s : Session) (slot : ProxySlot) (diff : ℚ) : Session :=
  let targetDiff := if 0 < diff then diff else s.targetDiff
  sendSetTarget { s with slot := .of slot, attached := true, targetDiff } targetDiff

theorem slot_rebound (slot : ProxySlot) (diff : ℚ) : (rebound s slot diff).slot = .of slot :=
  slot_setTarget _ _

theorem channelOpen_rebound (slot : ProxySlot) (diff : ℚ) :
    (rebound s slot diff).channelOpen = s.channelOpen := channelOpen_setTarget _ _

theorem bind_done (r : Option Session) (a : Answers) :
    (r.map (·, Next.done)).bind (goOn env a) = r := by
  cases r <;> rfl

theorem ends_call (ev : SinkEvent) (a : Answers) (hclosed : s.closed = false) :
    Ends env s (callOf s (.call ev a)) (step env s (.call ev a)) := by
  simp only [step, callOf, hclosed]
  cases ev with
  | job job =>
    simp only [handleSv2, onUpstreamJob, bind_done]
    by_cases hopen : s.channelOpen = true
    · rw [if_pos hopen, if_pos hopen]
      exact .call rfl rfl hopen ⟨rfl, rfl, rfl⟩
    · rw [if_neg hopen, if_neg hopen]
      exact .idle ⟨rfl, rfl, rfl⟩
  | diff diff =>
    refine .idle (idle_setTarget ?_ _)
    exact ⟨rfl, rfl, rfl⟩
  | extranonce en1Hex en2Size =>
    simp only [handleSv2, onUpstreamExtranonce, bind_done]
    by_cases hopen : s.channelOpen = true
    · rw [if_pos hopen]
      cases s.latestUpJob with
      | none => exact .idle ⟨rfl, rfl, rfl⟩
      | some job =>
        dsimp only
        rw [if_pos hopen]
        exact .call rfl rfl hopen ⟨rfl, rfl, rfl⟩
    · rw [if_neg hopen]
      cases s.latestUpJob with
      | none => exact .idle ⟨rfl, rfl, rfl⟩
      | some job =>
        dsimp only
        rw [if_neg hopen]
        exact .idle ⟨rfl, rfl, rfl⟩
  | state up =>
    simp only [handleSv2, Option.bind_some]
    cases up && s.setupDone && !s.channelOpen with
    | false => exact .idle ⟨rfl, rfl, rfl⟩
    | true => exact ends_tryAttach a ⟨rfl, rfl, rfl⟩
  | rebind slot job diff =>
    simp only [handleSv2, onRebind, bind_done]
    have hidle : Idle s (rebound s slot diff) := by
      refine idle_setTarget ?_ _
      exact ⟨rfl, rfl, rfl⟩
    by_cases hopen : s.channelOpen = true
    · rw [if_pos hopen]
      cases job with
      | none => exact .idle hidle
      | some job =>
        exact .call rfl (slot_rebound slot diff).symm
          ((channelOpen_rebound slot diff).trans hopen)
          ⟨hidle.jobs, hidle.nextJobId, hidle.counter⟩
    · rw [if_neg hopen]
      cases job with
      | none => exact .idle hidle
      | some job =>
        dsimp only
        rw [emitJob_unopened]
        · exact .idle ⟨hidle.jobs, hidle.nextJobId, hidle.counter⟩
        · exact (channelOpen_rebound slot diff).trans (Bool.eq_false_iff.mpr hopen)

theorem ends_step (task : Task) : Ends env s (callOf s task) (step env s task) := by
  cases hclosed : s.closed with
  | true =>
    cases task with
    | request r a =>
      have hcall : callOf s (.request r a) = none := by
        cases r <;> simp [callOf, hclosed]
      rw [hcall, step, if_pos hclosed]
      exact .idle (idle_refl s)
    | call ev a =>
      have hcall : callOf s (.call ev a) = none := by
        cases ev <;> simp [callOf, hclosed]
      rw [hcall, step, if_pos hclosed]
      exact .idle (idle_refl s)
    | close => exact .idle ⟨rfl, rfl, rfl⟩
  | false =>
    cases task with
    | request r a => exact ends_request r a hclosed
    | call ev a => exact ends_call ev a hclosed
    | close => exact .idle ⟨rfl, rfl, rfl⟩

theorem isSome_step (task : Task) : (step env s task).isSome = true ↔
    ∀ c, callOf s task = some c → c.slot.en2Size ≤ 8 := by
  have hends := @ends_step env s task
  generalize step env s task = r at hends ⊢
  generalize callOf s task = call at hends ⊢
  cases hends with
  | idle hidle => simp
  | call hr hslot hopen hidle =>
    rename_i s₀ c
    rw [hr]
    constructor
    · intro hsome c' hc'
      obtain rfl := Option.some.inj hc'
      by_contra hwide
      rw [emitJob_undefined hopen (hslot ▸ hwide)] at hsome
      cases hsome
    · intro hsize
      obtain ⟨t, ht, -⟩ := @emitJob_adds env _ c.job hopen (hslot ▸ hsize c rfl)
      rw [ht]
      rfl

/-- What a task leaves, by the call it makes. -/
theorem after_step {task : Task} {t : Session} (h : step env s task = some t) :
    match callOf s task with
    | none => Idle s t
    | some c => c.slot.en2Size ≤ 8 ∧ Adds s c t := by
  have hsize := (isSome_step task).mp (by rw [h]; rfl)
  have hends := @ends_step env s task
  rw [h] at hends
  generalize callOf s task = call at hends hsize ⊢
  cases hends with
  | idle hidle => exact hidle
  | call hr hslot hopen hidle =>
    rename_i s₀ c
    have hc := hsize c rfl
    obtain ⟨t', ht', hadds⟩ := @emitJob_adds env _ c.job hopen (hslot ▸ hc)
    obtain rfl : t = t' := Option.some.inj (hr.trans ht')
    rw [← hslot] at hadds
    exact ⟨hc, hadds.of_idle hidle⟩

end Task

/-! ## The kept jobs and the calls -/

/-- The kept jobs are those of the 16 latest calls that kept one. -/
structure Inv (st : State) : Prop where
  counter : st.session.en2Counter = UInt64.ofNat st.log.length
  small : ∀ c ∈ st.log, c.slot.en2Size ≤ 8
  jobs : st.session.jobs.reverse.map Prod.snd =
    ((numbered st.log).take 16).map fun c => record c.1 (UInt64.ofNat c.2)
  ids : st.session.jobs.reverse.map Prod.fst =
    (List.range st.session.jobs.length).map fun i => st.session.nextJobId - UInt32.ofNat (i + 1)

section Invariant
variable {env : Env} {st : State}

theorem Inv.length_le (h : Inv st) : st.session.jobs.length ≤ 16 := by
  have hlen := congrArg List.length h.jobs
  simp only [List.length_map, List.length_reverse, List.length_take] at hlen
  omega

theorem Inv.unused (h : Inv st) : ∀ e ∈ st.session.jobs, e.1 ≠ st.session.nextJobId := by
  intro e he hid
  have hlen := h.length_le
  have hmem : e.1 ∈ st.session.jobs.reverse.map Prod.fst :=
    List.mem_map.mpr ⟨e, List.mem_reverse.mpr he, rfl⟩
  rw [h.ids] at hmem
  obtain ⟨i, hi, hie⟩ := List.mem_map.mp hmem
  have hi16 : i < 16 := by
    have := List.mem_range.mp hi
    omega
  have hsub : (UInt32.ofNat (i + 1)).toNat = 0 := by
    rw [hid] at hie
    have := congrArg UInt32.toNat (sub_eq_self.mp hie)
    exact this
  rw [UInt32.toNat_ofNat', Nat.mod_eq_of_lt (by omega)] at hsub
  omega

theorem reverse_withJob {s : Session} (hunused : ∀ e ∈ s.jobs, e.1 ≠ s.nextJobId) (built : JobRec) :
    (withJob s built).jobs.reverse = ((s.nextJobId, built) :: s.jobs.reverse).take 16 := by
  have hfilter : s.jobs.filter (fun e => e.1 ≠ s.nextJobId) = s.jobs :=
    List.filter_eq_self.mpr fun e he => by simpa using hunused e he
  unfold withJob
  dsimp only
  rw [hfilter, List.reverse_drop, List.reverse_append, List.reverse_singleton,
    List.singleton_append]
  have hlen : ((s.nextJobId, built) :: s.jobs.reverse).length = s.jobs.length + 1 := by simp
  rw [List.length_append, List.length_singleton]
  obtain hle | hlt := Nat.le_total (s.jobs.length + 1) 16
  · rw [List.take_of_length_le (by omega), List.take_of_length_le (by omega)]
  · rw [show s.jobs.length + 1 - (s.jobs.length + 1 - 16) = 16 by omega]

theorem Inv.init : Inv {} := ⟨rfl, by simp, rfl, rfl⟩

theorem Inv.idle {t : Session} (h : Inv st) (hidle : Idle st.session t) :
    Inv { session := t, log := st.log } where
  counter := by rw [hidle.counter, h.counter]
  small := h.small
  jobs := by rw [hidle.jobs, h.jobs]
  ids := by rw [hidle.jobs, hidle.nextJobId, h.ids]

theorem Inv.adds {t : Session} {c : Call} (h : Inv st) (hsize : c.slot.en2Size ≤ 8)
    (hadds : Adds st.session c t) : Inv { session := t, log := c :: st.log } := by
  have hcounter : t.en2Counter = UInt64.ofNat (st.log.length + 1) := by
    rw [hadds.counter, h.counter, UInt64.ofNat_add]
    rfl
  have hsmall : ∀ c' ∈ c :: st.log, c'.slot.en2Size ≤ 8 :=
    List.forall_mem_cons.mpr ⟨hsize, h.small⟩
  cases hread : readable c with
  | false =>
    obtain ⟨hid, hjobs⟩ := hadds.dropped hread
    refine ⟨hcounter, hsmall, ?_, ?_⟩
    · rw [hjobs, h.jobs, numbered, if_neg (by simp [hread])]
    · rw [hjobs, hid, h.ids]
  | true =>
    obtain ⟨hid, hjobs⟩ := hadds.kept hread
    have hreverse := congrArg List.reverse hjobs
    rw [reverse_withJob h.unused] at hreverse
    refine ⟨hcounter, hsmall, ?_, ?_⟩
    · dsimp only
      rw [hreverse, ← hadds.counter, hcounter, numbered, if_pos hread, List.map_take,
        List.map_cons, h.jobs, List.take_succ_cons, List.take_succ_cons, List.map_cons,
        ← List.map_take, List.take_take]
      rfl
    · have hlen : t.jobs.length = min 16 (st.session.jobs.length + 1) := by
        rw [← List.length_reverse, hreverse, List.length_take, List.length_cons,
          List.length_reverse]
      dsimp only
      rw [hreverse, hlen, List.map_take, List.map_cons, h.ids, hid, ← List.take_range,
        List.map_take, List.range_succ_eq_map, List.map_cons, List.map_map]
      have hback (i : Nat) : st.session.nextJobId + 1 - UInt32.ofNat (i + 1 + 1) =
          st.session.nextJobId - UInt32.ofNat (i + 1) := by
        rw [UInt32.ofNat_add (i + 1) 1]
        exact add_sub_add_right_eq_sub st.session.nextJobId (UInt32.ofNat (i + 1)) 1
      have hfirst : st.session.nextJobId + 1 - UInt32.ofNat (0 + 1) = st.session.nextJobId :=
        add_sub_cancel_right _ _
      rw [hfirst]
      refine congrArg (List.take 16) (congrArg (List.cons _) (List.map_congr_left fun i _ => ?_))
      exact (hback i).symm

theorem inv_of_run (h : Run env st) : Inv st := by
  induction h with
  | init => exact .init
  | @next st task t run stepped ih =>
    have hafter := after_step stepped
    cases hcall : callOf st.session task with
    | none =>
      rw [hcall] at hafter
      exact ih.idle hafter
    | some c =>
      rw [hcall] at hafter
      exact ih.adds hafter.1 hafter.2

theorem snd_le_of_numbered {log : List Call} {c : Call × Nat} (h : c ∈ numbered log) :
    c.1 ∈ log ∧ c.2 ≤ log.length := by
  induction log with
  | nil => cases h
  | cons d log ih =>
    unfold numbered at h
    split at h
    · obtain rfl | h := List.mem_cons.mp h
      · simp
      · have := ih h
        exact ⟨List.mem_cons_of_mem _ this.1, by simp only [List.length_cons]; omega⟩
    · have := ih h
      exact ⟨List.mem_cons_of_mem _ this.1, by simp only [List.length_cons]; omega⟩

/-- Later calls have the greater numbers. -/
theorem numbered_sorted (log : List Call) : (numbered log).Pairwise fun a b => b.2 < a.2 := by
  induction log with
  | nil => exact .nil
  | cons c log ih =>
    unfold numbered
    split
    · exact .cons (fun a ha => Nat.lt_succ_of_le (snd_le_of_numbered ha).2) ih
    · exact ih

theorem pairwise_congr {α : Type} {l : List α} {D R S : α → α → Prop} (hd : l.Pairwise D)
    (h : ∀ a ∈ l, ∀ b ∈ l, D a b → (R a b ↔ S a b)) : l.Pairwise R ↔ l.Pairwise S := by
  constructor
  · intro hr
    exact (hd.and hr).imp_of_mem fun ha hb hab => (h _ ha _ hb hab.1).mp hab.2
  · intro hs
    exact (hd.and hs).imp_of_mem fun ha hb hab => (h _ ha _ hb hab.1).mpr hab.2

/-- Equal texts are multiples of what the bytes can count apart. -/
theorem distinct_iff (h : Inv st) : Distinct st.session ↔ Spaced st.log := by
  have hrev : Distinct st.session ↔ (st.session.jobs.reverse.map Prod.snd).Pairwise fun a b =>
      a.slot = b.slot → 1 ≤ a.slot.en2Size → a.fixedEn2Hex ≠ b.fixedEn2Hex := by
    rw [List.pairwise_map, List.pairwise_reverse]
    refine List.Pairwise.iff fun {a b} => ?_
    constructor
    · intro hab hslot hsize
      exact (hab hslot.symm (hslot ▸ hsize)).symm
    · intro hab hslot hsize
      exact (hab hslot.symm (hslot ▸ hsize)).symm
  rw [hrev, h.jobs, List.pairwise_map]
  refine pairwise_congr ((numbered_sorted st.log).sublist (List.take_sublist ..)) ?_
  intro a ha b hb hlt
  have hsize := h.small a.1 (snd_le_of_numbered (List.mem_of_mem_take ha)).1
  refine forall_congr' fun hslot => forall_congr' fun _ => not_congr ?_
  have hslots : a.1.slot = b.1.slot := hslot
  show en2Of a.1.slot.en2Size _ = en2Of b.1.slot.en2Size _ ↔ _
  rw [← hslots]
  exact en2Of_eq_iff hsize (Nat.le_of_lt hlt)

theorem sized_of_inv (h : Inv st) : Sized st.session := by
  intro e he
  have hmem : e.2 ∈ st.session.jobs.reverse.map Prod.snd :=
    List.mem_map.mpr ⟨e, List.mem_reverse.mpr he, rfl⟩
  rw [h.jobs] at hmem
  obtain ⟨c, -, hc⟩ := List.mem_map.mp hmem
  rw [← hc]
  exact length_en2Of _ _

end Invariant

/-! ## Fresh work -/

/-- In every run, the next task shifts by less than the width, and the kept
jobs of a slot differ in extranonce 2 and have its length, exactly where the
task's slot has eight bytes at most and the kept calls of a slot are spaced. -/
theorem fresh_work_iff {env : Env} {st : State} (h : Run env st) (task : Task) :
    ((step env st.session task).isSome = true ∧ Distinct st.session ∧ Sized st.session) ↔
      (∀ c, callOf st.session task = some c → c.slot.en2Size ≤ 8) ∧ Spaced st.log := by
  have hinv := inv_of_run h
  rw [isSome_step, distinct_iff hinv]
  exact and_congr_right' (and_iff_left (sized_of_inv hinv))

/-- A channel is opened with an extranonce 2 of some size, and gets its job. -/
def opening (en2Size : Nat) : Task :=
  .request (.openStandardChannel 1)
    { ready := true
      slot := some { linkId := 0, slotId := 0, slotHex := ['0', '0'], en1Hex := ['0', '0'],
                     en2Size }
      diff := 1
      job := some (sampleJob "1" 0) }

theorem fresh_work_iff_opening :
    ((step sampleEnv {} (opening 8)).isSome = true ∧ Distinct {} ∧ Sized {}) ↔
      (∀ c, callOf {} (opening 8) = some c → c.slot.en2Size ≤ 8) ∧ Spaced [] :=
  fresh_work_iff (Run.init : Run sampleEnv {}) (opening 8)

/-- The first byte of nine is shifted by the width. -/
theorem wide_extranonce_undefined :
    Run sampleEnv {} ∧ callOf {} (opening 9) ≠ none ∧ step sampleEnv {} (opening 9) = none :=
  ⟨.init, nofun, by decide⟩

end MkPool.FreshWork
