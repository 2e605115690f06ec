import MkPool.ProxyShares
import MkPool.RelayShares
import MkPool.VersionMask

/-! # Rolled versions and the masks of the upstreams

A V1 session rolls a share's version under the mask that it negotiated with its
miner, and an SV2 session takes the miner's version as it is. The upstream rolls
under the mask it last granted its link, which no session looks at. -/
namespace MkPool.ProxyMasks
open MkPool.Lib MkPool.Utils MkPool.Coinbase MkPool.JsonValue MkPool.Sv2Messages
open MkPool.UpstreamSource MkPool.VersionMask
open MkPool.Proxy hiding State Input react Offered Run

/-! ## What the upstreams grant -/

/-- The mask that `handle_result` takes from the result of a configure, if it
takes one. -/
def configuredMask (msg : Json) : Option UInt32 :=
  (msg.objectAt? "result".toList).map fun r =>
    match r.find? "version-rolling".toList, r.find? "version-rolling.mask".toList with
    | some (.bool true), some (.string m) => ((stoul16 m).map UInt64.toUInt32).getD 0
    | _, _ => 0

/-- The mask that `handle_method` takes from a `mining.set_version_mask`. -/
def methodMask (msg : Json) : Option UInt32 :=
  match msg.arrayAt? "params".toList with
  | some (.string m :: _) => (stoul16 m).map UInt64.toUInt32
  | _ => none

/-- A version with the bits of a mask taken from elsewhere. -/
def rolled (mask version bits : UInt32) : UInt32 := (version &&& ~~~mask) ||| (bits &&& mask)

/-- A share with version bits that was forwarded: the job and the mask it was
scored with, the mask the link had granted by then, the header that was scored,
and the share's header with any version. -/
structure Sent where
  link : Option Nat
  bits : UInt32
  job : ProxyNotify
  mask : UInt32
  granted : UInt32
  header : Bytes
  headerWith : UInt32 → Option Bytes

/-- The header that the upstream rebuilds is the one that was scored. -/
def Sent.Rebuilt (e : Sent) : Prop :=
  e.headerWith (rolled e.granted e.job.version e.bits) = some e.header

/-- **The masks agree on the bits that are rolled.** A bit that is the session's
to roll and not the upstream's, or the other way around, is as in the job. -/
def Sent.MasksAgree (e : Sent) : Prop :=
  (e.bits ^^^ e.job.version) &&& (e.mask ^^^ e.granted) = 0

/-! ## Runs -/

/-- A proxy with `up_version_mask` of its links. Not in the source: `forwarded`
are the shares with version bits that went upstream, the latest first. -/
structure State where
  proxy : Proxy.State
  masks : Nat → UInt32 := fun _ => 0
  forwarded : List Sent := []

def State.granted (c : State) (link : Option Nat) : UInt32 := (link.map c.masks).getD 0

def sentV1 (env : Env) (c : State) (s : ProxySession.Session) (f : ProxySession.Forwarded) :
    Option Sent := do
  let bits ← f.submit.versionBits
  let job ← s.recentJobs.lookup f.submit.jobId
  return {
    link := f.linkId
    bits
    job
    mask := s.versionMask
    granted := c.granted f.linkId
    header := f.header
    headerWith :=
      ProxySession.shareHeader env job s.slot.en1Hex f.share.en2 f.share.ntimeS f.share.nonceS }

def sentSv2 (env : Env) (c : State) (s : RelaySession.Session) (msg : SubmitSharesStandard)
    (f : RelaySession.Forwarded) : Option Sent := do
  let bits ← f.submit.versionBits
  let built ← s.jobs.lookup msg.jobId
  return {
    link := f.linkId
    bits
    job := built.up
    mask := 0xffffffff
    granted := c.granted f.linkId
    header := f.header
    headerWith := fun version => RelaySession.shareHeader env s.slot built { msg with version } }

/-- What a request forwards. -/
def forwards (env : Env) (c : State) : Proxy.Input → Option Sent
  | .requestV1 n (.submit params now) =>
    match (c.proxy.parties[n]?).map Party.miner with
    | some (.v1 s) => (ProxySession.handleSubmit env s params now).2.bind (sentV1 env c s)
    | _ => none
  | .requestSv2 n (.submitShares msg now) =>
    match (c.proxy.parties[n]?).map Party.miner with
    | some (.sv2 s) => (RelaySession.handleSubmitShares env s msg now).2.bind (sentSv2 env c s msg)
    | _ => none
  | _ => none

/-- What comes to the proxy, with the grants of the upstreams. -/
inductive Input where
  | proxy (i : Proxy.Input)
  | configureResult (i : Nat) (msg : Json)
  | setVersionMask (i : Nat) (msg : Json)

/-- A link's upstream granted a mask, if it did. -/
def State.grant (c : State) (i : Nat) (mask : Option UInt32) : State :=
  { c with masks := fun j => if j = i then mask.getD (c.masks i) else c.masks j }

def react (env : Env) (c : State) : Input → Option State
  | .proxy i => (Proxy.react env c.proxy i).map fun proxy =>
    { c with proxy, forwarded := (forwards env c i).toList ++ c.forwarded }
  | .configureResult i msg => some (c.grant i (configuredMask msg))
  | .setVersionMask i msg => some (c.grant i (methodMask msg))

def Offered (c : State) : Input → Prop
  | .proxy i => Proxy.Offered c.proxy i
  | .configureResult .. | .setVersionMask .. => c.proxy.handingOn = none

inductive Run (env : Env) : State → Prop where
  | init (n : UInt8) (activeActive : Bool) (weights : List Nat) :
      Run env { proxy := initial n activeActive weights }
  | step {c c' : State} {i : Input} (h : Run env c) (hoffer : Offered c i)
      (hs : react env c i = some c') : Run env c'

/-! ## Headers and their versions -/

/-- Two masks roll a version alike when they agree on the bits that differ. -/
theorem rolled_eq_iff (m M version bits : UInt32) :
    rolled M version bits = rolled m version bits ↔ (bits ^^^ version) &&& (m ^^^ M) = 0 := by
  have bit (v b m M : Bool) : ((v && !M || b && M) = (v && !m || b && m)) ↔
      ((b ^^ v) && (m ^^ M)) = false := by
    revert v b m M
    decide
  unfold rolled
  rw [← UInt32.toBitVec_inj, ← UInt32.toBitVec_inj, BitVec.eq_of_getLsbD_eq_iff,
    BitVec.eq_of_getLsbD_eq_iff]
  refine forall_congr' fun i => forall_congr' fun hi => ?_
  simpa [hi] using bit (version.toBitVec.getLsbD i) (bits.toBitVec.getLsbD i)
    (m.toBitVec.getLsbD i) (M.toBitVec.getLsbD i)

/-- A header begins with its version. -/
theorem version_of_header {prevhash root ntime bits nonce : Str} {version version' : UInt32}
    {header : Bytes}
    (h : hexToBytes (buildBlockHeader (leHexU32 version) prevhash root ntime bits nonce) =
      some header)
    (h' : hexToBytes (buildBlockHeader (leHexU32 version') prevhash root ntime bits nonce) =
      some header) : version' = version := by
  have front {v : UInt32}
      (h : hexToBytes (buildBlockHeader (leHexU32 v) prevhash root ntime bits nonce) =
        some header) : hexToBytes (leHexU32 v) = some (header.take 4) := by
    have htake := Hex.decode_take 4 h
    unfold buildBlockHeader at htake
    simp only [List.append_assoc] at htake
    rwa [take_leHexU32] at htake
  have hsame := (front h').trans (front h).symm
  rw [hexToBytes_leHexU32, hexToBytes_leHexU32] at hsame
  exact leHexU32_injective (by rw [leHexU32_eq, leHexU32_eq, Option.some.inj hsame])

/-- A share was scored with its version rolled under its mask, and its header
tells the version. -/
structure Sent.Scored (e : Sent) : Prop where
  header : e.headerWith (rolled e.mask e.job.version e.bits) = some e.header
  tells : ∀ version version' header, e.headerWith version = some header →
    e.headerWith version' = some header → version' = version

theorem Sent.Scored.rebuilt_iff {e : Sent} (h : e.Scored) : e.Rebuilt ↔ e.MasksAgree := by
  unfold Sent.MasksAgree
  rw [← rolled_eq_iff]
  constructor
  · intro hrebuilt
    exact h.tells _ _ _ h.header hrebuilt
  · intro hsame
    unfold Sent.Rebuilt
    rw [hsame]
    exact h.header

section Forwards

variable {env : Env} {c : State} {e : Sent}

theorem scored_sentV1 {s : ProxySession.Session} {params : Option (List Json)} {now : UInt32}
    {f : ProxySession.Forwarded} (hf : (ProxySession.handleSubmit env s params now).2 = some f)
    (h : sentV1 env c s f = some e) : e.Scored := by
  obtain ⟨job, hscored⟩ := ProxySession.scored_of_forwarded hf
  obtain ⟨bits, hbits, h⟩ := Option.bind_eq_some_iff.mp h
  obtain ⟨job', hjob, h⟩ := Option.bind_eq_some_iff.mp h
  obtain rfl := Option.some.inj h
  rw [hscored.submit] at hbits hjob
  obtain rfl : job = job' := Option.some.inj (hscored.known.symm.trans hjob)
  have hversion := hscored.version
  rw [show f.share.versionBits = some bits from hbits] at hversion
  constructor
  · unfold ProxySession.rolledVersion at hversion
    dsimp only at hversion
    split at hversion
    · cases hversion
    · have hrolled : rolled s.versionMask job.version bits = f.version := Option.some.inj hversion
      rw [hrolled]
      exact hscored.header
  · intro version version' header hv hv'
    obtain ⟨txid, htxid, hv⟩ := Option.bind_eq_some_iff.mp hv
    obtain ⟨root, hroot, hv⟩ := Option.bind_eq_some_iff.mp hv
    obtain ⟨txid', htxid', hv'⟩ := Option.bind_eq_some_iff.mp hv'
    obtain rfl := Option.some.inj (htxid.symm.trans htxid')
    obtain ⟨root', hroot', hv'⟩ := Option.bind_eq_some_iff.mp hv'
    obtain rfl := Option.some.inj (hroot.symm.trans hroot')
    exact version_of_header hv hv'

theorem scored_sentSv2 {s : RelaySession.Session} {msg : SubmitSharesStandard} {now : UInt32}
    {f : RelaySession.Forwarded} (hf : (RelaySession.handleSubmitShares env s msg now).2 = some f)
    (h : sentSv2 env c s msg f = some e) : e.Scored := by
  obtain ⟨bits, hbits, h⟩ := Option.bind_eq_some_iff.mp h
  obtain ⟨built, hbuilt, h⟩ := Option.bind_eq_some_iff.mp h
  obtain rfl := Option.some.inj h
  obtain ⟨-, hsubmit, hscored⟩ := RelayShares.forwarded_of_submit hf hbuilt
  rw [hsubmit] at hbits
  obtain rfl : msg.version = bits := Option.some.inj hbits
  constructor
  · have hrolled : rolled 0xffffffff built.up.version msg.version = msg.version := by
      have hnone : ~~~(0xffffffff : UInt32) = 0 := rfl
      have hall : (0xffffffff : UInt32) = -1 := rfl
      unfold rolled
      rw [hnone, hall, UInt32.and_zero, UInt32.zero_or, UInt32.and_neg_one]
    show RelaySession.shareHeader env s.slot built
      { msg with version := rolled 0xffffffff built.up.version msg.version } = some f.header
    rw [hrolled]
    exact hscored
  · intro version version' header hv hv'
    obtain ⟨root, hroot, hv⟩ := Option.bind_eq_some_iff.mp hv
    obtain ⟨root', hroot', hv'⟩ := Option.bind_eq_some_iff.mp hv'
    obtain rfl := Option.some.inj (hroot.symm.trans hroot')
    exact version_of_header hv hv'

theorem scored_of_forwards {i : Proxy.Input} (h : forwards env c i = some e) : e.Scored := by
  unfold forwards at h
  split at h
  · split at h
    · obtain ⟨f, hf, h⟩ := Option.bind_eq_some_iff.mp h
      exact scored_sentV1 hf h
    · cases h
  · split at h
    · obtain ⟨f, hf, h⟩ := Option.bind_eq_some_iff.mp h
      exact scored_sentSv2 hf h
    · cases h
  · cases h

end Forwards

theorem scored_of_run {env : Env} {c : State} (h : Run env c) : ∀ e ∈ c.forwarded, e.Scored := by
  induction h with
  | init n activeActive weights =>
    intro e he
    cases he
  | @step c c' i h hoffer hs ih =>
    cases i with
    | proxy i =>
      obtain ⟨proxy, hproxy, rfl⟩ := Option.map_eq_some_iff.mp hs
      intro e he
      rcases List.mem_append.mp he with he | he
      · exact scored_of_forwards (Option.mem_toList.mp he)
      · exact ih e he
    | configureResult i msg | setVersionMask i msg =>
      cases hs
      exact ih

/-- **When rolled shares are rebuilt upstream.** In every run, the header that the
upstream rebuilds from a share with version bits is the one that was scored if and
only if the masks agree on the bits that were rolled. -/
theorem rolled_shares_rebuilt_iff {env : Env} {c : State} (h : Run env c) :
    ∀ e ∈ c.forwarded, e.Rebuilt ↔ e.MasksAgree :=
  fun e he => (scored_of_run h e he).rebuilt_iff

/-! ### Such runs -/

instance (c : State) (i : Input) : Decidable (Offered c i) :=
  match i with
  | .proxy i => inferInstanceAs (Decidable (Proxy.Offered c.proxy i))
  | .configureResult .. | .setVersionMask .. => inferInstanceAs (Decidable (_ = _))

instance (e : Sent) : Decidable e.Rebuilt := inferInstanceAs (Decidable (_ = _))

instance (e : Sent) : Decidable e.MasksAgree := inferInstanceAs (Decidable (_ = _))

/-- The state after some inputs, each offered and defined. -/
def reactAll (env : Env) : State → List Input → Option State
  | c, [] => some c
  | c, i :: rest => if Offered c i then (react env c i).bind fun c => reactAll env c rest else none

theorem run_of_reactAll {env : Env} {c c' : State} {inputs : List Input} (hrun : Run env c)
    (h : reactAll env c inputs = some c') : Run env c' := by
  induction inputs generalizing c with
  | nil =>
    cases h
    exact hrun
  | cons i rest ih =>
    unfold reactAll at h
    split at h
    · rename_i hoffer
      obtain ⟨c₁, hc₁, h⟩ := Option.bind_eq_some_iff.mp h
      exact ih (.step hrun hoffer hc₁) h
    · cases h

/-- A run with a forwarded share of some kind. -/
theorem exists_sent (inputs : List Input) (kind : Sent → Bool)
    (h : (reactAll sampleEnv { proxy := initial 2 false [1, 1] } inputs).any
      (fun c => c.forwarded.any kind) = true) :
    ∃ c e, Run sampleEnv c ∧ e ∈ c.forwarded ∧ kind e = true := by
  obtain ⟨c, hc, hany⟩ := (Option.any_eq_true _ _).mp h
  obtain ⟨e, he, hkind⟩ := List.any_eq_true.mp hany
  exact ⟨c, e, run_of_reactAll (.init 2 false [1, 1]) hc, he, hkind⟩

/-- The upstream of the first link grants a mask. -/
def grants (mask : String) : Input :=
  .configureResult 0 (.object [("result".toList, .object [
    ("version-rolling".toList, .bool true),
    ("version-rolling.mask".toList, .string mask.toList)])])

/-- A link has a job, and the first session is one of a V1 miner. -/
def withMiner : List Proxy.Input :=
  linkUp 0 "a0" ++ [.notify 0 (sampleJob "1" 1), .handOn, .connectV1]

/-- A V1 miner negotiates all bits of the pool's mask, is notified of a job, and
sends a share with a rolled bit. -/
def rolls : List Proxy.Input :=
  .requestV1 0 (.configure [.array [.string "version-rolling".toList], .object []]) ::
    Placement.attaches 0 ++ [.requestV1 0 .authorize,
      .requestV1 0 (.submit (ProxyShares.sampleShare.map (· ++ [.string "00002000".toList])) 0)]

/-- A share is rebuilt where the upstream granted the pool's mask. -/
theorem rolled_shares_rebuilt_granted :
    ∃ c e, Run sampleEnv c ∧ e ∈ c.forwarded ∧ e.bits ≠ e.job.version ∧ e.Rebuilt := by
  obtain ⟨c, e, hrun, he, hkind⟩ := exists_sent (withMiner.map .proxy ++ grants "1fffe000" :: rolls.map .proxy)
    (fun e => decide (e.bits ≠ e.job.version) && decide e.MasksAgree) (by decide +kernel)
  obtain ⟨hrolled, hagree⟩ := (Bool.and_eq_true _ _).mp hkind
  exact ⟨c, e, hrun, he, of_decide_eq_true hrolled,
    (rolled_shares_rebuilt_iff hrun e he).mpr (of_decide_eq_true hagree)⟩

/-- An SV2 miner sends a share with a bit that no mask has. -/
def relays : List Proxy.Input :=
  RelayShares.opened ++
    [.requestSv2 0 (.submitShares { RelayShares.sampleMsg with version := 3 } 0)]

/-- **A rolled share is not rebuilt** where the upstream granted fewer bits than
the session negotiated, or the miner of an SV2 session changes other bits. -/
theorem rolled_share_not_rebuilt :
    (∃ c e, Run sampleEnv c ∧ e ∈ c.forwarded ∧ ¬ e.Rebuilt) ∧
      ∃ c e, Run sampleEnv c ∧ e ∈ c.forwarded ∧ e.granted = 0x1fffe000 ∧ ¬ e.Rebuilt := by
  constructor
  · obtain ⟨c, e, hrun, he, hkind⟩ := exists_sent (withMiner.map .proxy ++ grants "1fffc000" :: rolls.map .proxy)
      (fun e => !decide e.Rebuilt) (by decide +kernel)
    exact ⟨c, e, hrun, he, by simpa using hkind⟩
  · obtain ⟨c, e, hrun, he, hkind⟩ := exists_sent (grants "1fffe000" :: relays.map .proxy)
      (fun e => decide (e.granted = 0x1fffe000) && !decide e.Rebuilt) (by decide +kernel)
    obtain ⟨hgranted, hrebuilt⟩ := (Bool.and_eq_true _ _).mp hkind
    exact ⟨c, e, hrun, he, of_decide_eq_true hgranted, by simpa using hrebuilt⟩

end MkPool.ProxyMasks
