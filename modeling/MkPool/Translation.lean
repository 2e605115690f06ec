import MkPool.ProxyShares
import MkPool.EmittedWork
import MkPool.Sv2Proxy
import MkPool.Sv2Stored

/-! # A V1 share as the SV2 pool reads it

A share is scored with the job it names and the slot of its session. The message
that is written for it goes by the channel that is open then, and has the
miner's version bits for its version, or the version of the latest job. -/
namespace MkPool.Translation
open MkPool.Lib MkPool.Utils MkPool.Coinbase MkPool.JsonValue MkPool.Merkle
open MkPool.Sv2Messages MkPool.EmittedWork MkPool.ProxySession
open MkPool.UpstreamSource MkPool.Sv2UpstreamClient MkPool.Sv2Pairing MkPool.Sv2Stored
open MkPool.Proxy (RequestV1 handleV1 requestV1 Next)
open MkPool.UpstreamClient (ProxySlot)
open MkPool.Sv2Proxy (Party tellAll)

/-! ## Shares on their way -/

/-- What the pool gave a channel. -/
structure Channel where
  extranoncePrefix : Bytes
  extranonceSize : UInt16
deriving DecidableEq

/-- The channel that is open. -/
def channelOf (c : Client) : Option Channel :=
  if c.channelOk then some ⟨c.extranoncePrefix, c.extranonceSize⟩ else none

/-- A share that was forwarded, with its session then, and the channel that the
session's slot is of. -/
structure Origin where
  session : Session
  share : Forwarded
  channel : Option Channel

/-- The message of a share, and the channel that was open when it was written. -/
structure Written where
  origin : Origin
  msg : SubmitSharesExtended
  channel : Option Channel

/-- A proxy with the shares on their way. Not in the source: `slots` are the
channels of the sessions' slots, `posted` the shares on the client's strand, and
`written` their messages, the latest first. -/
structure State where
  proxy : Sv2Proxy.State
  slots : Nat → Option Channel := fun _ => none
  posted : List (Posted × Origin) := []
  written : List Written := []

/-- The share that a request forwards. -/
def originOf (env : Env) (st : State) : Sv2Proxy.Input → Option Origin
  | .requestV1 n (.submit params now) => do
    let p ← st.proxy.parties[n]?
    let f ← (handleSubmit env p.session params now).2
    return ⟨p.session, f, st.slots n⟩
  | _ => none

def messageOf : Output → Option SubmitSharesExtended
  | .share _ msg _ => some msg
  | _ => none

/-- The messages of the latest step of the client. -/
def messages (next : Sv2Proxy.State) : List SubmitSharesExtended :=
  (next.log.head?.toList.flatMap Prod.snd).filterMap messageOf

/-- The state after a step of the proxy. -/
def State.after (env : Env) (st : State) (i : Sv2Proxy.Input) (next : Sv2Proxy.State) : State :=
  match i with
  | .client .runPosted =>
    { st with
      proxy := next
      posted := st.posted.tail
      written := st.posted.head?.toList.flatMap (fun e =>
        (messages next).map (⟨e.2, ·, channelOf st.proxy.client⟩)) ++ st.written }
  | .connectV1 =>
    { st with
      proxy := next
      slots := Function.update st.slots st.proxy.parties.length none }
  | .advance n =>
    { st with
      proxy := next
      slots :=
        if (st.proxy.parties[n]?).any (fun p => p.phase = .attaching) then
          Function.update st.slots n (channelOf st.proxy.client)
        else st.slots }
  | i =>
    { st with
      proxy := next
      posted := st.posted ++ (originOf env st i).toList.flatMap fun o =>
        (next.client.posted.drop st.proxy.client.posted.length).map (·, o) }

/-- The runs of a proxy whose steps meet a condition. -/
inductive Run (env : Env) (ok : State → Sv2Proxy.Input → Prop) : State → Prop where
  | init (user : Str) (n : UInt8) : Run env ok { proxy := { client := initial user n } }
  | step {st : State} {next : Sv2Proxy.State} {i : Sv2Proxy.Input} (h : Run env ok st)
      (hoffer : Sv2Proxy.Offered st.proxy i) (hok : ok st i)
      (hs : Sv2Proxy.react env st.proxy i = some next) : Run env ok (st.after env i next)

/-! ## The property -/

/-- The message names the SV2 job of the share's notify, and has the version of
the scored header. Behind the prefix of the open channel, its extranonce, of the
channel's size, is the one that was hashed; and the header that the pool puts
together from it is the one that was scored. -/
def Denotes (env : Env) (log : Log) (w : Written) : Prop :=
  ∃ job m ph ch, w.origin.session.recentJobs.lookup w.origin.share.share.jobId = some job ∧
    MadeOf log job m ph ∧ w.channel = some ch ∧ w.msg.jobId = m.jobId ∧
    w.msg.version = w.origin.share.version ∧
    hexToBytes (w.origin.session.slot.en1Hex ++ w.origin.share.share.en2) =
      some (ch.extranoncePrefix ++ w.msg.extranonce) ∧
    w.msg.extranonce.length = ch.extranonceSize.toNat ∧
    w.origin.share.header = extendedHeader env m ph ch.extranoncePrefix w.msg

/-! ## The condition -/

/-- The version bits are those of the job outside the session's mask; without
any, the latest job has the version of the share's. -/
def SameVersion (s : Session) (latest : Option ExtJob) (params : Option (List Json)) : Prop :=
  ∀ sh job, parseSubmit s params = .ok sh → s.recentJobs.lookup sh.jobId = some job →
    match sh.versionBits with
    | some bits => bits &&& ~~~s.versionMask = job.version &&& ~~~s.versionMask
    | none => (latest.map ExtJob.version).getD 0 = job.version

/-- **Nothing changes a share on its way.** Its version is the one the client
fills in, and where it is written the open channel gives what the channel of its
session's slot gave, with an extranonce of at most 32 bytes. -/
def Kept (st : State) : Sv2Proxy.Input → Prop
  | .requestV1 n (.submit params _) =>
    ∀ p ∈ st.proxy.parties[n]?, SameVersion p.session st.proxy.client.job params
  | .client .runPosted => st.proxy.client.connected = true → ∀ e ∈ st.posted.head?,
    ∃ ch, channelOf st.proxy.client = some ch ∧ e.2.channel = some ch ∧
      ch.extranonceSize.toNat ≤ 32
  | _ => True

/-! ## Sessions -/

/-- The slot was made on the channel. -/
structure OfChannel (ch : Channel) (slot : HeldSlot) : Prop where
  en1 : slot.en1Hex = bytesToHex ch.extranoncePrefix ++ slot.slotHex
  size : ∃ bs, hexToBytes slot.slotHex = some bs ∧
    bs.length + slot.en2Size = ch.extranonceSize.toNat

/-- What the shares of a session are made of: jobs of the pool under their ids,
and the slot. -/
structure Holds (log : Log) (ch : Option Channel) (s : Session) : Prop where
  jobs : ∀ e ∈ s.recentJobs, e.1 = e.2.jobId ∧ Made log e.2
  slot : ∀ ch', ch = some ch' → OfChannel ch' s.slot

structure Ready (log : Log) (ch : Option Channel) (p : Party) : Prop where
  session : Holds log ch p.session
  calls : ∀ ev ∈ p.mailbox, CallMade log ev

section Sessions
variable {log log' : Log} {ch : Option Channel} {s t : Session} {p : Party} {env : Env}

theorem Holds.mono (h : Holds log ch s) (hlog : log ⊆ log') : Holds log' ch s :=
  ⟨fun e he => ⟨(h.jobs e he).1, (h.jobs e he).2.mono hlog⟩, h.slot⟩

theorem Ready.mono (h : Ready log ch p) (hlog : log ⊆ log') : Ready log' ch p :=
  ⟨h.session.mono hlog, fun ev hev => (h.calls ev hev).mono hlog⟩

/-- What shares depend on is the same. -/
structure Alike (s t : Session) : Prop where
  jobs : t.recentJobs = s.recentJobs
  slot : t.slot = s.slot

theorem Holds.alike (h : Holds log ch s) (hst : Alike s t) : Holds log ch t := by
  constructor
  · rw [hst.jobs]
    exact h.jobs
  · rw [hst.slot]
    exact h.slot

theorem alike_emit (s : Session) (force : Bool) : Alike s (emitCurrentJob s force) := by
  unfold emitCurrentJob
  split <;> exact ⟨rfl, rfl⟩

theorem alike_requestV1 (env : Env) (s : Session) (r : RequestV1) :
    Alike s (requestV1 env s r).1 := by
  cases r with
  | configure params => exact ⟨rfl, rfl⟩
  | subscribe =>
    unfold requestV1
    dsimp only
    split <;> exact ⟨rfl, rfl⟩
  | authorize =>
    have he := alike_emit { s.send .result with authorized := true } true
    unfold requestV1 handleAuthorize
    dsimp only
    split
    · exact ⟨he.jobs, he.slot⟩
    · exact ⟨rfl, rfl⟩
  | extranonceSubscribe => exact ⟨rfl, rfl⟩
  | submit params now =>
    obtain ⟨line, hline, -⟩ := Bindings.handleSubmit_sends env s params now
    unfold requestV1
    dsimp only
    rw [hline]
    exact ⟨rfl, rfl⟩

theorem Holds.remember {n : ProxyNotify} (h : Holds log ch s) (hn : Made log n) :
    Holds log ch (rememberJob s n) := by
  unfold rememberJob
  split
  · exact h
  · refine ⟨fun e he => ?_, h.slot⟩
    rcases List.mem_append.mp (List.mem_of_mem_drop he) with he | he
    · exact h.jobs e he
    · obtain rfl := List.mem_singleton.mp he
      exact ⟨rfl, hn⟩

theorem Holds.handled {ev : SinkEvent} (h : Holds log ch s) (hev : CallMade log ev) :
    Holds log ch (handleV1 s ev).1 := by
  cases ev with
  | job n =>
    have hcur : Holds log ch { s with curJob := some n } := ⟨h.jobs, h.slot⟩
    have hmem := hcur.remember hev
    unfold handleV1 onUpstreamJob
    dsimp only
    split
    · exact hmem.alike (alike_emit _ false)
    · exact hmem
  | diff d =>
    unfold handleV1 onUpstreamDiff
    dsimp only
    split <;> exact ⟨h.jobs, h.slot⟩
  | state up =>
    unfold handleV1
    dsimp only
    split
    · split <;> exact ⟨h.jobs, h.slot⟩
    · exact h
  | extranonce => exact hev.elim
  | rebind => exact hev.elim

theorem Holds.jobReturned {n : Option ProxyNotify} (h : Holds log ch s)
    (hn : ∀ job, n = some job → Made log job) : Holds log ch (jobReturned s n) := by
  have hcur : Holds log ch { s with curJob := n } := ⟨h.jobs, h.slot⟩
  cases n with
  | none => exact hcur
  | some job => exact hcur.remember (hn job rfl)

/-- A slot of the open channel. -/
theorem ofChannel_attach {c : Client} {n : Nat} {r : Client × Option ProxySlot} (hc : Sized c)
    (hr : attach c n = some r) (diff : ℚ) :
    ∀ ch, channelOf c = some ch → OfChannel ch (attachReturned s r.2 diff).slot := by
  intro ch hch
  unfold channelOf at hch
  split at hch
  · rename_i hok
    obtain rfl := Option.some.inj hch
    unfold attach at hr
    rw [hok] at hr
    obtain ⟨slotHex, hslot, rfl⟩ := Option.map_eq_some_iff.mp hr
    unfold slotHexOf at hslot
    split at hslot
    · rename_i hfour
      obtain rfl := Option.some.inj hslot
      have hkept : (attachReturned s (some (c.slotWith
          (bytesToHex (Wire.leBytes c.nonceBytes.toNat c.nextSlot.toNat).reverse))) diff).slot =
            .of (c.slotWith
              (bytesToHex (Wire.leBytes c.nonceBytes.toNat c.nextSlot.toNat).reverse)) := by
        unfold attachReturned
        dsimp only
        split <;> rfl
      show OfChannel _ (attachReturned s (some _) diff).slot
      rw [hkept]
      refine ⟨rfl, _, hexToBytes_bytesToHex _, ?_⟩
      have hle := hc hok hfour
      show _ + UpstreamClient.rest c.extranonceSize.toNat c.nonceBytes.toNat = _
      unfold UpstreamClient.rest
      simp only [List.length_reverse, Wire.length_leBytes]
      split <;> omega
    · cases hslot
  · cases hch

theorem jobs_attachReturned (s : Session) (slot : Option ProxySlot) (diff : ℚ) :
    (attachReturned s slot diff).recentJobs = s.recentJobs := by
  unfold attachReturned
  split
  · rfl
  · dsimp only
    split <;> rfl

end Sessions

/-! ## Headers -/

section Headers
variable {env : Env} {log : Log} {s : Session}

/-- The number that eight digits are the text of. -/
theorem hexToBytes_of_parse {text : Str} {v : UInt32} (hvalid : validHex text = true)
    (hlen : text.length = 8) (hv : Sv2UpstreamClient.parseHexU32 text = some v) :
    hexToBytes (byteReverseHex text) = some (Wire.leBytes 4 v.toNat) := by
  have hdigits : ∀ c ∈ text, isHexDigit c = true :=
    List.all_eq_true.mp (Bool.and_eq_true_iff.mp hvalid).1
  obtain ⟨bs, hbs⟩ := Hex.decode_of_digits hdigits (by rw [hlen]; decide)
  have hsize : bs.length = 4 := by
    have := Hex.length_of_decode hbs
    omega
  have hvalue : v.toNat = beValue bs := by
    obtain _ | ⟨c, rest⟩ := text
    · cases hlen
    · unfold Sv2UpstreamClient.parseHexU32 at hv
      rw [JobIds.stoul16_digits hdigits (by omega), JobIds.foldl_of_hexToBytes 0 hbs] at hv
      obtain rfl := Option.some.inj hv
      have hlt := beValue_lt bs
      rw [hsize] at hlt
      show (UInt64.ofNat (beValue bs)).toUInt32.toNat = _
      rw [UInt64.toNat_toUInt32, UInt64.toNat_ofNat']
      omega
  rw [hexToBytes_byteReverseHex hbs, hvalue, leBytes_beValue hsize]

/-- The header of a share of the pool's job, put together from its bytes. -/
theorem header_of_shareHeader {m : NewExtendedMiningJob} {ph : SetNewPrevHash} {clean : Bool}
    {seq : Nat} {en1 en2 ntimeS nonceS : Str} {version ntime nonce : UInt32}
    {front extranonce header : Bytes}
    (hextra : hexToBytes (en1 ++ en2) = some (front ++ extranonce))
    (hntime : hexToBytes (byteReverseHex ntimeS) = some (Wire.leBytes 4 ntime.toNat))
    (hnonce : hexToBytes (byteReverseHex nonceS) = some (Wire.leBytes 4 nonce.toNat))
    (h : shareHeader env (buildNotify (extJobOf m) (prevHashOf ph) clean seq) en1 en2 ntimeS nonceS
      version = some header) :
    header = messageHeader version ph.prevHash (extendedRoot env m front extranonce) ntime
      ph.nbits nonce := by
  have hcb : hexToBytes (rebuildCoinbase (bytesToHex m.coinbaseTxPrefix)
      (bytesToHex m.coinbaseTxSuffix) (en1 ++ en2)) =
        some (m.coinbaseTxPrefix ++ (front ++ extranonce) ++ m.coinbaseTxSuffix) :=
    hexToBytes_append (hexToBytes_append (hexToBytes_bytesToHex _) hextra)
      (hexToBytes_bytesToHex _)
  have hroot : (computeCoinbaseTxidLe env.hashes (rebuildCoinbase (bytesToHex m.coinbaseTxPrefix)
      (bytesToHex m.coinbaseTxSuffix) (en1 ++ en2))).bind
        (computeRootLeHex env.hashes · (m.merklePath.map fun m => bytesToHex m.bytes)) =
      some (bytesToHex (extendedRoot env m front extranonce).bytes) := by
    unfold computeCoinbaseTxidLe computeRootLeHex extendedRoot
    rw [hcb, Option.map_some, Option.bind_some, hashOfHex_bytesToHex, mapM_hashOfHex_bytesToHex,
      ← List.append_assoc]
    rfl
  have hprev : hexToBytes (swapWordsHex (swapWordsHex (bytesToHex ph.prevHash.bytes))) =
      some ph.prevHash.bytes := by
    rw [swapWordsHex_swapWordsHex (by simp [bytesToHex, ph.prevHash.size]), hexToBytes_bytesToHex]
  have hbits := JobIds.hexToBytes_reversed ph.nbits
  have hread := hexToBytes_append (hexToBytes_append (hexToBytes_append (hexToBytes_append
    (hexToBytes_append (hexToBytes_leHexU32 version) hprev)
    (hexToBytes_bytesToHex (extendedRoot env m front extranonce).bytes)) hntime) hbits) hnonce
  unfold shareHeader at h
  obtain ⟨txid, htxid, h⟩ := Option.bind_eq_some_iff.mp h
  obtain ⟨root, hr, h⟩ := Option.bind_eq_some_iff.mp h
  rw [show computeCoinbaseTxidLe env.hashes (rebuildCoinbase (bytesToHex m.coinbaseTxPrefix)
    (bytesToHex m.coinbaseTxSuffix) (en1 ++ en2)) = some txid from htxid, Option.bind_some] at hroot
  obtain rfl : root = _ := Option.some.inj (hr.symm.trans hroot)
  exact (Option.some.inj (hread.symm.trans h)).symm

/-- The texts of a submit that is parsed. -/
theorem texts_of_parse {params : Option (List Json)} {sh : Share}
    (h : parseSubmit s params = .ok sh) : validHex sh.ntimeS = true ∧ sh.ntimeS.length = 8 ∧
      validHex sh.nonceS = true ∧ sh.nonceS.length = 8 ∧ sh.en2.length = s.slot.en2Size * 2 := by
  unfold parseSubmit at h
  split at h
  · cases h
  · split at h
    · cases h
    · split at h
      · dsimp only at h
        split at h
        · cases h
        · rename_i hvalid
          split at h
          · cases h
          · rename_i hsize
            cases h
            simp only [Bool.or_eq_true, Bool.not_eq_true', decide_eq_true_eq, not_or,
              Bool.not_eq_false, not_not] at hvalid hsize
            exact ⟨hvalid.1.1.1.2, hvalid.1.2, hvalid.1.1.2, hvalid.2, hsize⟩
      · cases h

/-- A version rolled under a mask is the version bits, where the rest of these is
the job's. -/
theorem rolled_eq_bits {mask version bits : UInt32} (h : bits &&& ~~~mask = version &&& ~~~mask) :
    (version &&& ~~~mask) ||| (bits &&& mask) = bits := by
  rw [← h, ← UInt32.toBitVec_inj]
  refine BitVec.eq_of_getLsbD_eq fun i hi => ?_
  have bit (b m : Bool) : (b && !m || b && m) = b := by
    cases b <;> cases m <;> rfl
  simpa [hi] using bit (bits.toBitVec.getLsbD i) (mask.toBitVec.getLsbD i)

end Headers

/-! ## Shares on the client's strand -/

/-- A posted share is that of a session. Its number and its version are those of
the share's job and header, and on the channel of the slot so are its bytes. -/
def Fits (env : Env) (log : Log) (p : Posted) (o : Origin) : Prop :=
  ∃ job m ph, o.session.recentJobs.lookup o.share.share.jobId = some job ∧
    MadeOf log job m ph ∧ p.sv2Job = m.jobId ∧ p.version = o.share.version ∧
    ∀ ch, o.channel = some ch →
      hexToBytes (o.session.slot.en1Hex ++ o.share.share.en2) =
        some (ch.extranoncePrefix ++ p.extranonce) ∧
      p.extranonce.length = ch.extranonceSize.toNat ∧
      o.share.header = messageHeader p.version ph.prevHash
        (extendedRoot env m ch.extranoncePrefix p.extranonce) p.ntime ph.nbits p.nonce

section Posting
variable {env : Env} {log log' : Log} {c : Client} {s : Session} {f : Forwarded}
  {params : Option (List Json)} {job : ProxyNotify}

theorem Fits.mono {p : Posted} {o : Origin} (h : Fits env log p o) (hlog : log ⊆ log') :
    Fits env log' p o := by
  obtain ⟨job, m, ph, hjob, hmade, h⟩ := h
  exact ⟨job, m, ph, hjob, hmade.mono hlog, h⟩

/-- What a submit posts: the share's texts read, its number from the map. -/
structure PostedFor (c : Client) (s : UpstreamSubmit) (p : Posted) : Prop where
  job : c.jobidMap.lookup s.jobId = some p.sv2Job
  extranonce : hexToBytes s.en2FullHex = some p.extranonce
  nonce : Sv2UpstreamClient.parseHexU32 s.nonceHex = some p.nonce
  ntime : Sv2UpstreamClient.parseHexU32 s.ntimeHex = some p.ntime
  version : p.version = s.versionBits.getD ((c.job.map ExtJob.version).getD 0)

theorem posted_submit (c : Client) (s : UpstreamSubmit) (cb : Option Nat) :
    (submit c s cb).1.posted = c.posted ∨
      ∃ p, (submit c s cb).1.posted = c.posted ++ [p] ∧ PostedFor c s p := by
  unfold submit
  split
  · rename_i sv2Job hjob _
    split
    · exact .inl rfl
    · rename_i extranonce hextra
      split
      · rename_i nonce ntime hnonce hntime
        exact .inr ⟨_, rfl, hjob, hextra, hnonce, hntime, rfl⟩
      · exact .inl rfl
  · exact .inl rfl

theorem posted_submitNumbered (c : Client) (s : UpstreamSubmit) (cb : Bool) :
    (submitNumbered c s cb).1.posted = c.posted ∨
      ∃ p, (submitNumbered c s cb).1.posted = c.posted ++ [p] ∧ PostedFor c s p := by
  unfold submitNumbered
  split
  · rcases posted_submit { c with callbacks := c.callbacks + 1 } s (some c.callbacks) with
      h | ⟨p, h, hp⟩
    · exact .inl h
    · exact .inr ⟨p, h, hp.job, hp.extranonce, hp.nonce, hp.ntime, hp.version⟩
  · exact posted_submit c s none

theorem version_of_rolled (hscored : Scored env s params job f)
    (hsame : SameVersion s c.job params) :
    f.submit.versionBits.getD ((c.job.map ExtJob.version).getD 0) = f.version := by
  have hsame := hsame f.share job hscored.parsed hscored.known
  have hversion := hscored.version
  rw [hscored.submit]
  show f.share.versionBits.getD _ = _
  cases hbits : f.share.versionBits with
  | none =>
    rw [hbits] at hsame hversion
    have hsame : (c.job.map ExtJob.version).getD 0 = job.version := hsame
    exact hsame.trans (Option.some.inj hversion)
  | some bits =>
    rw [hbits] at hsame hversion
    unfold rolledVersion at hversion
    dsimp only at hversion
    split at hversion
    · cases hversion
    · exact (rolled_eq_bits hsame).symm.trans (Option.some.inj hversion)

theorem fits_of_posted {ch : Option Channel} {p : Posted} (hworks : Works log c)
    (hs : Holds log ch s) (hscored : Scored env s params job f)
    (hsame : SameVersion s c.job params) (hp : PostedFor c f.submit p) :
    Fits env log p ⟨s, f, ch⟩ := by
  obtain ⟨hntime8, hntimeLen, hnonce8, hnonceLen, hen2⟩ := texts_of_parse hscored.parsed
  obtain ⟨hjob, hextra, hnonce, hntime, hversion⟩ := hp
  have hknown := mem_of_lookup hscored.known
  obtain ⟨hid, m, ph, hmade⟩ := hs.jobs _ hknown
  have hrolled := version_of_rolled hscored hsame
  rw [← hversion] at hrolled
  rw [hscored.submit] at hjob hextra hnonce hntime
  obtain ⟨clean, seq, hn⟩ := hmade.notify
  refine ⟨job, m, ph, hscored.known, hmade, ?_, hrolled, fun ch' hch => ?_⟩
  · obtain ⟨l₁, l₂, hmap, -⟩ := List.lookup_eq_some_iff.mp hjob
    have hnumber : f.share.jobId = hexPadded 8 p.sv2Job.toNat := by
      refine hworks.ids (f.share.jobId, p.sv2Job) ?_
      rw [hmap]
      exact List.mem_append_right _ (List.mem_cons_self ..)
    have hname : job.jobId = hexPadded 8 m.jobId.toNat := by
      obtain rfl : job = _ := hn
      rfl
    exact hexPadded_inj (hnumber.symm.trans (hid.trans hname))
  · obtain ⟨hen1, bs, hbs, hsize⟩ := hs.slot ch' hch
    have hfull : hexToBytes (s.slot.en1Hex ++ f.share.en2) =
        some (ch'.extranoncePrefix ++ p.extranonce) := by
      rw [hen1, List.append_assoc]
      exact hexToBytes_append (hexToBytes_bytesToHex _) hextra
    refine ⟨hfull, ?_, ?_⟩
    · have hlen := Hex.length_of_decode hextra
      have hslot := Hex.length_of_decode hbs
      rw [List.length_append] at hlen
      omega
    · have hheader := hscored.header
      obtain rfl : job = _ := hn
      rw [hrolled]
      exact header_of_shareHeader hfull (hexToBytes_of_parse hntime8 hntimeLen hntime)
        (hexToBytes_of_parse hnonce8 hnonceLen hnonce) hheader

end Posting

/-! ## Steps -/

/-- What the client, the sessions and their calls hold. -/
structure Core (st : Sv2Proxy.State) (slots : Nat → Option Channel) : Prop where
  works : Works st.log st.client
  sized : Sized st.client
  parties : ∀ (n : Nat) p, st.parties[n]? = some p → Ready st.log (slots n) p

/-- The log grows, and the shares on the strand stay. -/
structure Passes (st next : Sv2Proxy.State) : Prop where
  log : st.log ⊆ next.log
  posted : next.client.posted = st.client.posted

section Steps
variable {env : Env} {st next : Sv2Proxy.State} {slots : Nat → Option Channel} {n : Nat} {p : Party}

/-- What the client tells a session waits on its strand. -/
theorem party_of_tells {sinks : List Nat} {ev : SinkEvent} {parties : List Party} {q : Party}
    (h : (tellAll parties (.tell sinks ev))[n]? = some q) :
    ∃ p, parties[n]? = some p ∧ q.session = p.session ∧
      ∀ e ∈ q.mailbox, e ∈ p.mailbox ∨ e = ev := by
  unfold tellAll at h
  dsimp only at h
  induction sinks generalizing parties with
  | nil => exact ⟨q, h, rfl, fun e he => .inl he⟩
  | cons sink sinks ih =>
    obtain ⟨p, hp, hsession, hbox⟩ := ih h
    rw [List.getElem?_modify] at hp
    obtain ⟨p₀, hp₀, hpq⟩ := Option.map_eq_some_iff.mp hp
    refine ⟨p₀, hp₀, ?_, fun e he => ?_⟩
    · rw [hsession, ← hpq]
      split <;> rfl
    · rcases hbox e he with he | he
      · rw [← hpq] at he
        split at he
        · rcases List.mem_append.mp he with he | he
          · exact .inl he
          · exact .inr (List.mem_singleton.mp he)
        · exact .inl he
      · exact .inr he

theorem party_of_outs {outs : List Output} {parties : List Party} {q : Party}
    (h : (outs.foldl tellAll parties)[n]? = some q) :
    ∃ p, parties[n]? = some p ∧ q.session = p.session ∧
      ∀ e ∈ q.mailbox, e ∈ p.mailbox ∨ ∃ sinks, .tell sinks e ∈ outs := by
  induction outs generalizing parties with
  | nil => exact ⟨q, h, rfl, fun e he => .inl he⟩
  | cons out outs ih =>
    obtain ⟨p, hp, hsession, hbox⟩ := ih h
    have later {e : SinkEvent} (he : ∃ sinks, .tell sinks e ∈ outs) :
        ∃ sinks, .tell sinks e ∈ out :: outs := by
      obtain ⟨sinks, he⟩ := he
      exact ⟨sinks, List.mem_cons_of_mem out he⟩
    cases out with
    | tell sinks ev =>
      obtain ⟨p₀, hp₀, hsession₀, hbox₀⟩ := party_of_tells hp
      refine ⟨p₀, hp₀, hsession.trans hsession₀, fun e he => ?_⟩
      rcases hbox e he with he | he
      · rcases hbox₀ e he with he | rfl
        · exact .inl he
        · exact .inr ⟨sinks, List.mem_cons_self ..⟩
      · exact .inr (later he)
    | _ => exact ⟨p, hp, hsession, fun e he => (hbox e he).imp_right later⟩

/-- A step of the client. -/
theorem Core.client {i : Sv2UpstreamClient.Input} (h : Core st slots)
    (hs : Sv2Proxy.clientStep st i = some next) : Core next slots ∧ st.log ⊆ next.log ∧
      (carriesNone i = true → next.client.posted = st.client.posted) := by
  obtain ⟨r, hr, rfl⟩ := Option.map_eq_some_iff.mp hs
  obtain ⟨hworks, htells⟩ := h.works.step hr
  obtain ⟨hsized, hposted⟩ := h.sized.step hr
  have hlog : st.log ⊆ (i, r.2) :: st.log := List.subset_cons_self ..
  refine ⟨⟨hworks, hsized, fun m q hq => ?_⟩, hlog, hposted⟩
  obtain ⟨p, hp, hsession, hbox⟩ := party_of_outs hq
  have hready := (h.parties m p hp).mono hlog
  refine ⟨hsession ▸ hready.session, fun ev hev => ?_⟩
  rcases hbox ev hev with hev | ⟨sinks, hev⟩
  · exact hready.calls ev hev
  · exact htells sinks ev hev

theorem Core.set (h : Core st slots) (hp : Ready st.log (slots n) p) :
    Core (st.set n p) slots := by
  refine ⟨h.works, h.sized, fun m q hq => ?_⟩
  have hq : (st.parties.set n p)[m]? = some q := hq
  rw [List.getElem?_set] at hq
  split at hq
  · rename_i hm
    split at hq
    · obtain rfl := Option.some.inj hq
      exact hm ▸ hp
    · cases hq
  · exact h.parties m q hq

/-- A session goes on after a handler. -/
theorem Core.goOn {go : Next} (h : Core st slots) (hp : Ready st.log (slots n) p)
    (hs : Sv2Proxy.goOn st n p go = some next) : Core next slots ∧ Passes st next := by
  cases go with
  | done =>
    obtain rfl := Option.some.inj hs
    exact ⟨h.set hp, List.Subset.refl _, rfl⟩
  | attach =>
    obtain rfl := Option.some.inj hs
    refine ⟨h.set ?_, List.Subset.refl _, rfl⟩
    unfold Sv2Proxy.startAttach
    split
    · exact ⟨hp.session, hp.calls⟩
    · exact ⟨hp.session.alike ⟨rfl, rfl⟩, hp.calls⟩
  | detach =>
    obtain ⟨hcore, hlog, hposted⟩ := (h.set hp).client hs
    exact ⟨hcore, hlog, hposted rfl⟩

/-- A session that may have got a slot, whose channel is noted. -/
theorem Core.attaching {r : Client × Option ProxySlot} (h : Core st slots)
    (hp : Ready st.log (slots n) p) (hr : attach st.client n = some r) (diff : ℚ)
    (phase : Proxy.Phase) :
    Core
      { client := r.1
        log := (.attach n, [.attached n r.2]) :: st.log
        parties := st.parties.set n
          { p with session := attachReturned p.session r.2 diff, phase } }
      (Function.update slots n (channelOf st.client)) ∧
      r.1.posted = st.client.posted := by
  have hreact : react st.client (.attach n) = some (r.1, [.attached n r.2]) := by
    unfold react
    dsimp only
    rw [hr]
    rfl
  have hworks := (h.works.step hreact).1
  obtain ⟨hsized, hposted⟩ := h.sized.step hreact
  have hlog : st.log ⊆ (.attach n, [.attached n r.2]) :: st.log := List.subset_cons_self ..
  refine ⟨⟨hworks, hsized, fun m q hmem => ?_⟩, hposted rfl⟩
  have hq : (st.parties.set n
    { p with session := attachReturned p.session r.2 diff, phase })[m]? = some q := hmem
  rw [List.getElem?_set] at hq
  split at hq
  · rename_i hm
    subst hm
    split at hq
    · obtain rfl := Option.some.inj hq
      have hready := hp.mono hlog
      rw [Function.update_self]
      refine ⟨⟨?_, ofChannel_attach h.sized hr diff⟩, hready.calls⟩
      show ∀ e ∈ (attachReturned p.session r.2 diff).recentJobs, _
      rw [jobs_attachReturned]
      exact hready.session.jobs
    · cases hq
  · rename_i hm
    rw [Function.update_of_ne (Ne.symm hm)]
    exact (h.parties m q hq).mono hlog

end Steps

/-- The inputs that put no share on the strand and take none. -/
def passing : Sv2Proxy.Input → Bool
  | .client i => carriesNone i
  | .requestV1 _ (.submit ..) => false
  | _ => true

theorem request_eq {env : Env} {st : Sv2Proxy.State} {n : Nat} {p : Party} {r : RequestV1}
    (h : ∀ params now, r ≠ .submit params now) : Sv2Proxy.request env st n p r =
      Sv2Proxy.goOn st n { p with session := (requestV1 env p.session r).1 }
        (requestV1 env p.session r).2 := by
  cases r with
  | submit params now => exact absurd rfl (h params now)
  | _ => rfl

theorem Core.request {st next : Sv2Proxy.State} {slots : Nat → Option Channel} {env : Env}
    {n : Nat} {p : Party} {r : RequestV1} (h : Core st slots) (hp : Ready st.log (slots n) p)
    (hs : Sv2Proxy.request env st n p r = some next) : Core next slots ∧ st.log ⊆ next.log ∧
      (passing (.requestV1 n r) = true → next.client.posted = st.client.posted) := by
  have hready : Ready st.log (slots n) { p with session := (requestV1 env p.session r).1 } :=
    ⟨hp.session.alike (alike_requestV1 env p.session r), hp.calls⟩
  cases r with
  | submit params now =>
    unfold Sv2Proxy.request at hs
    dsimp only at hs
    split at hs
    · obtain rfl := Option.some.inj hs
      exact ⟨h.set hready, List.Subset.refl _, fun hpass => by cases hpass⟩
    · obtain ⟨hcore, hlog, -⟩ := (h.set hready).client hs
      exact ⟨hcore, hlog, fun hpass => by cases hpass⟩
  | _ =>
    rw [request_eq fun _ _ he => by cases he] at hs
    obtain ⟨hcore, hpasses⟩ := h.goOn hready hs
    exact ⟨hcore, hpasses.log, fun _ => hpasses.posted⟩

/-- A locked section of a session's attach. -/
theorem Core.advance (env : Env) {st : State} {next : Sv2Proxy.State} {n : Nat} {p : Party}
    (h : Core st.proxy st.slots) (hp : st.proxy.parties[n]? = some p)
    (hs : Sv2Proxy.advance st.proxy n p = some next) :
    Core next (st.after env (.advance n) next).slots ∧ Passes st.proxy next := by
  have hready := h.parties n p hp
  have hslots (hphase : p.phase ≠ .attaching) :
      (st.after env (.advance n) next).slots = st.slots := by
    unfold State.after
    dsimp only
    rw [hp, Option.any_some, if_neg (by simpa using hphase)]
  have hnoted (hphase : p.phase = .attaching) (next : Sv2Proxy.State) :
      (st.after env (.advance n) next).slots =
        Function.update st.slots n (channelOf st.proxy.client) := by
    unfold State.after
    dsimp only
    rw [hp, Option.any_some, if_pos (by simpa using hphase)]
  unfold Sv2Proxy.advance at hs
  split at hs
  · rename_i hphase
    rw [hslots (by rw [hphase]; decide)]
    obtain rfl := Option.some.inj hs
    exact ⟨h, List.Subset.refl _, rfl⟩
  · rename_i hphase
    rw [hslots (by rw [hphase]; decide)]
    obtain ⟨hcore, hlog, hposted⟩ :=
      (h.set (p := { p with phase := .idle }) ⟨hready.session, hready.calls⟩).client hs
    exact ⟨hcore, hlog, hposted rfl⟩
  · rename_i hphase
    rw [hnoted hphase]
    obtain ⟨r, hr, rfl⟩ := Option.map_eq_some_iff.mp hs
    obtain ⟨hcore, hposted⟩ := h.attaching hready hr r.1.diff
      (if r.2.isSome then .fetching else .registering)
    exact ⟨hcore, List.subset_cons_self .., hposted⟩
  · rename_i hphase
    rw [hslots (by rw [hphase]; decide)]
    have hsession := hready.session.jobReturned h.works.notify
    have hfetched : Ready st.proxy.log (st.slots n)
        { p with
          session := jobReturned p.session st.proxy.client.curNotify, phase := .idle } :=
      ⟨hsession, hready.calls⟩
    obtain ⟨hcore, hlog, hposted⟩ := (h.set hfetched).client hs
    exact ⟨hcore, hlog, hposted rfl⟩

/-- **A step of the proxy.** -/
theorem Core.step {env : Env} {st : State} {next : Sv2Proxy.State} {i : Sv2Proxy.Input}
    (h : Core st.proxy st.slots) (hs : Sv2Proxy.react env st.proxy i = some next) :
    Core next (st.after env i next).slots ∧ st.proxy.log ⊆ next.log ∧
      (passing i = true → next.client.posted = st.proxy.client.posted) := by
  have stays : Core st.proxy st.slots ∧ st.proxy.log ⊆ st.proxy.log ∧
      (passing i = true → st.proxy.client.posted = st.proxy.client.posted) :=
    ⟨h, List.Subset.refl _, fun _ => rfl⟩
  cases i with
  | client ci =>
    have hslots : (st.after env (.client ci) next).slots = st.slots := by
      cases ci <;> rfl
    rw [hslots]
    exact h.client hs
  | connectV1 =>
    obtain rfl := Option.some.inj hs
    refine ⟨⟨h.works, h.sized, fun m q hq => ?_⟩, List.Subset.refl _, fun _ => rfl⟩
    show Ready st.proxy.log (Function.update st.slots st.proxy.parties.length none m) q
    have hq : (st.proxy.parties ++ [({} : Party)])[m]? = some q := hq
    rw [List.getElem?_append] at hq
    split at hq
    · rename_i hm
      rw [Function.update_of_ne (Nat.ne_of_lt hm)]
      exact h.parties m q hq
    · rename_i hm
      have hlast : m = st.proxy.parties.length := by
        have hlt := (List.getElem?_eq_some_iff.mp hq).1
        rw [List.length_singleton] at hlt
        omega
      obtain rfl : q = {} := List.mem_singleton.mp (List.mem_of_getElem? hq)
      rw [hlast, Function.update_self]
      exact ⟨⟨fun e he => (by cases he), fun ch hch => (by cases hch)⟩, fun ev hev => by cases hev⟩
  | requestV1 n r =>
    have hslots : (st.after env (.requestV1 n r) next).slots = st.slots := rfl
    rw [hslots]
    unfold Sv2Proxy.react Sv2Proxy.onParty at hs
    dsimp only at hs
    split at hs
    · obtain rfl := Option.some.inj hs
      exact stays
    · rename_i p hp
      exact h.request (h.parties n p hp) hs
  | advance n =>
    unfold Sv2Proxy.react Sv2Proxy.onParty at hs
    dsimp only at hs
    split at hs
    · rename_i hp
      obtain rfl := Option.some.inj hs
      have hslots : (st.after env (.advance n) st.proxy).slots = st.slots := by
        unfold State.after
        dsimp only
        rw [hp, Option.any_none, if_neg Bool.false_ne_true]
      rw [hslots]
      exact stays
    · rename_i p hp
      obtain ⟨hcore, hpasses⟩ := h.advance env hp hs
      exact ⟨hcore, hpasses.log, fun _ => hpasses.posted⟩
  | deliver n =>
    have hslots : (st.after env (.deliver n) next).slots = st.slots := rfl
    rw [hslots]
    unfold Sv2Proxy.react Sv2Proxy.onParty at hs
    dsimp only at hs
    split at hs
    · obtain rfl := Option.some.inj hs
      exact stays
    · rename_i p hp
      have hready := h.parties n p hp
      unfold Sv2Proxy.deliver at hs
      split at hs
      · obtain rfl := Option.some.inj hs
        exact stays
      · rename_i ev mailbox hbox
        have hcalls : ∀ e ∈ mailbox, CallMade st.proxy.log e := fun e he =>
          hready.calls e (hbox ▸ List.mem_cons_of_mem ev he)
        split at hs
        · obtain rfl := Option.some.inj hs
          exact ⟨h.set ⟨hready.session, hcalls⟩, List.Subset.refl _, fun _ => rfl⟩
        · have hev := hready.calls ev (hbox ▸ List.mem_cons_self ..)
          obtain ⟨hcore, hpasses⟩ := h.goOn ⟨hready.session.handled hev, hcalls⟩ hs
          exact ⟨hcore, hpasses.log, fun _ => hpasses.posted⟩
  | close n =>
    have hslots : (st.after env (.close n) next).slots = st.slots := rfl
    rw [hslots]
    unfold Sv2Proxy.react Sv2Proxy.onParty at hs
    dsimp only at hs
    split at hs
    · obtain rfl := Option.some.inj hs
      exact stays
    · rename_i p hp
      have hready := h.parties n p hp
      unfold Sv2Proxy.closeParty at hs
      split at hs
      · obtain rfl := Option.some.inj hs
        exact stays
      · have hclosed : Ready st.proxy.log (st.slots n)
            { p with session := { p.session with closed := true } } :=
          ⟨hready.session.alike ⟨rfl, rfl⟩, hready.calls⟩
        obtain ⟨hcore, hpasses⟩ := h.goOn hclosed hs
        exact ⟨hcore, hpasses.log, fun _ => hpasses.posted⟩
  | destroy n =>
    have hslots : (st.after env (.destroy n) next).slots = st.slots := rfl
    rw [hslots]
    obtain ⟨hcore, hlog, hposted⟩ := h.client hs
    exact ⟨hcore, hlog, fun _ => hposted rfl⟩

/-! ## Runs -/

/-- What is kept. -/
structure Inv (env : Env) (st : State) : Prop where
  core : Core st.proxy st.slots
  posted : st.posted.map Prod.fst = st.proxy.client.posted
  fits : ∀ e ∈ st.posted, Fits env st.proxy.log e.1 e.2
  written : ∀ w ∈ st.written, Denotes env st.proxy.log w

section Runs
variable {env : Env} {st : State} {next : Sv2Proxy.State} {i : Sv2Proxy.Input}

theorem Denotes.mono {log log' : Log} {w : Written} (h : Denotes env log w) (hlog : log ⊆ log') :
    Denotes env log' w := by
  obtain ⟨job, m, ph, ch, hjob, hmade, h⟩ := h
  exact ⟨job, m, ph, ch, hjob, hmade.mono hlog, h⟩

/-- A posted share is written on the channel of its slot. -/
theorem denotes_of_fits {log : Log} {p : Posted} {o : Origin} {ch : Channel} (h : Fits env log p o)
    (hch : o.channel = some ch) (hsize : ch.extranonceSize.toNat ≤ 32) (seq : UInt32) :
    Denotes env log ⟨o, shareMessage p seq, some ch⟩ := by
  obtain ⟨job, m, ph, hjob, hmade, hnumber, hversion, h⟩ := h
  obtain ⟨hextra, hlen, hheader⟩ := h ch hch
  have hwhole : b032 p.extranonce = p.extranonce := List.take_of_length_le (by omega)
  refine ⟨job, m, ph, ch, hjob, hmade, rfl, hnumber, hversion, ?_, ?_, ?_⟩
  · show hexToBytes _ = some (_ ++ b032 p.extranonce)
    rw [hwhole]
    exact hextra
  · show (b032 p.extranonce).length = _
    rw [hwhole]
    exact hlen
  · show _ = messageHeader p.version ph.prevHash (extendedRoot env m _ (b032 p.extranonce)) p.ntime
      ph.nbits p.nonce
    rw [hwhole]
    exact hheader

/-- A step that puts no share on the strand and takes none. -/
theorem Inv.pass (h : Inv env st) (hpass : passing i = true)
    (hs : Sv2Proxy.react env st.proxy i = some next) : Inv env (st.after env i next) := by
  obtain ⟨hcore, hlog, hposted⟩ := h.core.step hs
  have hproxy : (st.after env i next).proxy = next := by
    unfold State.after
    split <;> rfl
  have hsame : (st.after env i next).posted = st.posted ∧
      (st.after env i next).written = st.written := by
    unfold State.after
    split
    · cases hpass
    · exact ⟨rfl, rfl⟩
    · exact ⟨rfl, rfl⟩
    · have hnone : originOf env st i = none := by
        unfold originOf
        split
        · cases hpass
        · rfl
      rw [hnone]
      exact ⟨List.append_nil _, rfl⟩
  refine ⟨?_, ?_, ?_, ?_⟩
  · rw [hproxy]
    exact hcore
  · rw [hproxy, hsame.1, hposted hpass]
    exact h.posted
  · rw [hproxy, hsame.1]
    exact fun e he => (h.fits e he).mono hlog
  · rw [hproxy, hsame.2]
    exact fun w hw => (h.written w hw).mono hlog

/-- A miner submits. -/
theorem Inv.submit {n : Nat} {params : Option (List Json)} {now : UInt32} (h : Inv env st)
    (hok : Kept st (.requestV1 n (.submit params now)))
    (hs : Sv2Proxy.react env st.proxy (.requestV1 n (.submit params now)) = some next) :
    Inv env (st.after env (.requestV1 n (.submit params now)) next) := by
  obtain ⟨hcore, hlog, -⟩ := h.core.step hs
  -- the shares that are posted are those of the request
  suffices hnew : ∃ new : List (Posted × Origin),
      (originOf env st (.requestV1 n (.submit params now))).toList.flatMap (fun o =>
        (next.client.posted.drop st.proxy.client.posted.length).map (·, o)) = new ∧
      next.client.posted = st.proxy.client.posted ++ new.map Prod.fst ∧
      ∀ e ∈ new, Fits env next.log e.1 e.2 by
    obtain ⟨new, hafter, hposted, hfits⟩ := hnew
    have hqueue : (st.after env (.requestV1 n (.submit params now)) next).posted =
        st.posted ++ new := congrArg (st.posted ++ ·) hafter
    refine ⟨hcore, ?_, fun e he => ?_, fun w hw => (h.written w hw).mono hlog⟩
    · show (st.after env _ next).posted.map Prod.fst = next.client.posted
      rw [hqueue, List.map_append, h.posted, hposted]
    · rw [hqueue] at he
      rcases List.mem_append.mp he with he | he
      · exact (h.fits e he).mono hlog
      · exact hfits e he
  unfold Sv2Proxy.react Sv2Proxy.onParty at hs
  dsimp only at hs
  split at hs
  · rename_i hp
    obtain rfl := Option.some.inj hs
    refine ⟨[], ?_, (List.append_nil _).symm, fun e he => by cases he⟩
    rw [originOf, hp]
    rfl
  · rename_i p hp
    unfold Sv2Proxy.request at hs
    dsimp only at hs
    split at hs
    · rename_i hf
      obtain rfl := Option.some.inj hs
      refine ⟨[], ?_, (List.append_nil _).symm, fun e he => by cases he⟩
      rw [originOf, hp, Option.bind_eq_bind, Option.bind_some, hf]
      rfl
    · rename_i f hf
      have horigin : originOf env st (.requestV1 n (.submit params now)) =
          some ⟨p.session, f, st.slots n⟩ := by
        rw [originOf, hp, Option.bind_eq_bind, Option.bind_some, hf]
        rfl
      obtain ⟨r, hr, rfl⟩ := Option.map_eq_some_iff.mp hs
      obtain rfl := Option.some.inj hr
      rw [horigin]
      obtain ⟨job, hscored⟩ := scored_of_forwarded hf
      rcases posted_submitNumbered st.proxy.client f.submit f.callback with hsame | ⟨q, hone, hq⟩
      · refine ⟨[], ?_, ?_, fun e he => by cases he⟩
        · show ((submitNumbered st.proxy.client f.submit f.callback).1.posted.drop _).map _ ++
            [] = []
          rw [hsame, List.drop_length]
          rfl
        · exact hsame.trans (List.append_nil _).symm
      · refine ⟨[(q, ⟨p.session, f, st.slots n⟩)], ?_, hone, fun e he => ?_⟩
        · show ((submitNumbered st.proxy.client f.submit f.callback).1.posted.drop _).map _ ++
            [] = _
          rw [hone, List.drop_left]
          rfl
        · obtain rfl := List.mem_singleton.mp he
          exact (fits_of_posted h.core.works (h.core.parties n p hp).session hscored (hok p hp)
            hq).mono hlog

/-- The first share on the strand is taken, and written where a connection is up. -/
theorem react_runPosted {c : Client} {r : Client × List Output}
    (hr : react c .runPosted = some r) : r.1.posted = c.posted.tail ∧
      (r.2.filterMap messageOf = [] ∨ c.connected = true ∧ ∃ p seq,
        c.posted.head? = some p ∧ r.2.filterMap messageOf = [shareMessage p seq]) := by
  unfold react at hr
  dsimp only at hr
  split at hr
  · rename_i hnil
    obtain rfl := Option.some.inj hr
    exact ⟨by rw [hnil]; rfl, .inl rfl⟩
  · rename_i p posted hcons
    obtain rfl := Option.some.inj hr
    rw [hcons]
    unfold Sv2UpstreamClient.runPosted
    dsimp only
    split
    · refine ⟨rfl, .inl ?_⟩
      cases p.cb <;> rfl
    · rename_i hconnected
      have hconnected : c.connected = true := by simpa using hconnected
      exact ⟨rfl, .inr ⟨hconnected, p, c.nextSeq, rfl, rfl⟩⟩

/-- The client's strand comes to a share. -/
theorem Inv.runPosted (h : Inv env st) (hok : Kept st (.client .runPosted))
    (hs : Sv2Proxy.react env st.proxy (.client .runPosted) = some next) :
    Inv env (st.after env (.client .runPosted) next) := by
  obtain ⟨hcore, hlog, -⟩ := h.core.step hs
  obtain ⟨r, hr, rfl⟩ := Option.map_eq_some_iff.mp hs
  obtain ⟨hposted, hmessages⟩ := react_runPosted hr
  refine ⟨hcore, ?_, fun e he => ?_, fun w hw => ?_⟩
  · show st.posted.tail.map Prod.fst = r.1.posted
    rw [hposted, ← h.posted, List.map_tail]
  · exact (h.fits e (List.mem_of_mem_tail he)).mono hlog
  · rcases List.mem_append.mp hw with hw | hw
    · obtain ⟨e, he, hw⟩ := List.mem_flatMap.mp hw
      obtain ⟨msg, hmsg, rfl⟩ := List.mem_map.mp hw
      have hmsg : msg ∈ (r.2 ++ []).filterMap messageOf := hmsg
      rw [List.append_nil] at hmsg
      have hhead : st.posted.head? = some e := Option.mem_toList.mp he
      rcases hmessages with hnone | ⟨hconnected, p, seq, hp, hone⟩
      · rw [hnone] at hmsg
        cases hmsg
      · rw [hone] at hmsg
        obtain rfl := List.mem_singleton.mp hmsg
        obtain ⟨ch, hopen, hslot, hsize⟩ := hok hconnected e hhead
        rw [← h.posted, List.head?_map, hhead] at hp
        obtain rfl : e.1 = p := Option.some.inj hp
        rw [hopen]
        have hfits := h.fits e (List.mem_of_mem_head? hhead)
        exact denotes_of_fits (hfits.mono hlog) hslot hsize seq
    · exact (h.written w hw).mono hlog

theorem Inv.step (h : Inv env st) (hoffer : Sv2Proxy.Offered st.proxy i) (hok : Kept st i)
    (hs : Sv2Proxy.react env st.proxy i = some next) : Inv env (st.after env i next) := by
  cases hpass : passing i with
  | true => exact h.pass hpass hs
  | false =>
    cases i with
    | client ci =>
      cases ci with
      | runPosted => exact h.runPosted hok hs
      | submit s cb => cases hoffer.1
      | _ => cases hpass
    | requestV1 n r =>
      cases r with
      | submit params now => exact h.submit hok hs
      | _ => cases hpass
    | _ => cases hpass

/-- **Shares are translated faithfully.** In a run where nothing changes a share
on its way, every message for a share denotes the header that was scored. -/
theorem written_denote (h : Run env Kept st) : ∀ w ∈ st.written, Denotes env st.proxy.log w := by
  have inv : Inv env st := by
    induction h with
    | init user n =>
      refine ⟨⟨⟨?_, ?_, ?_, ?_⟩, ?_, ?_⟩, rfl, ?_, ?_⟩
      · intro j hj
        cases hj
      · intro p hp
        cases hp
      · intro n hn
        cases hn
      · intro e he
        cases he
      · intro hok
        cases hok
      · intro n p hp
        cases hp
      · intro e he
        cases he
      · intro w hw
        cases hw
    | step h hoffer hok hs ih => exact ih.step hoffer hok hs
  exact inv.written

end Runs

/-! ## Such runs -/

/-- The state after some inputs, where each is offered, passes a test and is
defined. -/
def reactAll (env : Env) (check : State → Sv2Proxy.Input → Bool) : State → List Sv2Proxy.Input →
    Option State
  | st, [] => some st
  | st, i :: rest =>
    if Sv2Proxy.Offered st.proxy i ∧ check st i = true then
      (Sv2Proxy.react env st.proxy i).bind fun next => reactAll env check (st.after env i next) rest
    else none

theorem run_of_reactAll {env : Env} {ok : State → Sv2Proxy.Input → Prop}
    {check : State → Sv2Proxy.Input → Bool} (hcheck : ∀ st i, check st i = true → ok st i)
    {st st' : State} {inputs : List Sv2Proxy.Input} (hrun : Run env ok st)
    (h : reactAll env check st inputs = some st') : Run env ok st' := by
  induction inputs generalizing st with
  | nil =>
    cases h
    exact hrun
  | cons i rest ih =>
    unfold reactAll at h
    split at h
    · rename_i hi
      obtain ⟨next, hnext, h⟩ := Option.bind_eq_some_iff.mp h
      exact ih (.step hrun hi.1 (hcheck _ _ hi.2) hnext) h
    · cases h

/-- A run with a message for a share of some kind. -/
theorem exists_written {ok : State → Sv2Proxy.Input → Prop}
    (check : State → Sv2Proxy.Input → Bool) (hcheck : ∀ st i, check st i = true → ok st i)
    (inputs : List Sv2Proxy.Input) (kind : Written → Bool)
    (h : (reactAll Proxy.sampleEnv check { proxy := { client := initial [] 2 } } inputs).any
      (fun st => st.written.any kind) = true) :
    ∃ st w, Run Proxy.sampleEnv ok st ∧ w ∈ st.written ∧ kind w = true := by
  obtain ⟨st, hst, hany⟩ := (Option.any_eq_true _ _).mp h
  obtain ⟨w, hw, hkind⟩ := List.any_eq_true.mp hany
  exact ⟨st, w, run_of_reactAll hcheck (.init [] 2) hst, hw, hkind⟩

/-- The condition, as a test. -/
def keeps (st : State) : Sv2Proxy.Input → Bool
  | .requestV1 n (.submit params _) => (st.proxy.parties[n]?).all fun p =>
    match parseSubmit p.session params with
    | .error _ => true
    | .ok sh => (p.session.recentJobs.lookup sh.jobId).all fun job =>
      match sh.versionBits with
      | some bits => bits &&& ~~~p.session.versionMask = job.version &&& ~~~p.session.versionMask
      | none => (st.proxy.client.job.map ExtJob.version).getD 0 = job.version
  | .client .runPosted => (st.posted.head?).all fun e => (channelOf st.proxy.client).any fun ch =>
    e.2.channel = some ch && ch.extranonceSize.toNat ≤ 32
  | _ => true

theorem kept_of_keeps (st : State) (i : Sv2Proxy.Input) (h : keeps st i = true) : Kept st i := by
  unfold Kept
  split
  · intro p hp sh job hparse hjob
    have hcheck := (Option.all_eq_true _ _).mp h p hp
    rw [hparse] at hcheck
    have hcheck := (Option.all_eq_true _ _).mp hcheck job hjob
    split
    · rename_i bits hbits
      rw [hbits] at hcheck
      exact of_decide_eq_true hcheck
    · rename_i hbits
      rw [hbits] at hcheck
      exact of_decide_eq_true hcheck
  · intro _ e he
    have hcheck := (Option.all_eq_true _ _).mp h e he
    obtain ⟨ch, hch, hsame⟩ := (Option.any_eq_true _ _).mp hcheck
    simp only [Bool.and_eq_true, decide_eq_true_eq] at hsame
    exact ⟨ch, hch, hsame.1, hsame.2⟩
  · trivial

def sampleExtJob (jobId version : UInt32) : Reply :=
  .newExtendedMiningJob
    { channelId := 1, jobId, minNtime := none, version, versionRollingAllowed := true
      merklePath := [], coinbaseTxPrefix := [0], coinbaseTxSuffix := [0] }

/-- The pool opens a channel and sends a job. -/
def poolSends : List Sv2UpstreamClient.Input :=
  channelOpens 8 ++ [.received (sampleExtJob 1 0x20000000), .received (.setNewPrevHash
    { channelId := 1, jobId := 1, prevHash := .zero, minNtime := 0, nbits := 0x1d00ffff })]

/-- A V1 miner negotiates all bits of the proxy's mask and gets the pool's job. -/
def jobComes : List Sv2Proxy.Input :=
  poolSends.map .client ++ [.connectV1,
    .requestV1 0 (.configure [.array [.string "version-rolling".toList], .object []]),
    .requestV1 0 .subscribe, .advance 0, .advance 0, .requestV1 0 .authorize]

/-- The miner's share is submitted and written. -/
def shareGoes (versionBits : List Json) : List Sv2Proxy.Input :=
  [.requestV1 0 (.submit (some ([.string [], .string "00000001".toList,
      .string "000000000000".toList, .string "00000000".toList, .string "00000000".toList] ++
        versionBits)) 0),
    .client .runPosted]

/-- A share of the latest job, with the version of that. -/
theorem written_denote_latest :
    ∃ st w, Run Proxy.sampleEnv Kept st ∧ w ∈ st.written ∧
      Denotes Proxy.sampleEnv st.proxy.log w := by
  obtain ⟨st, w, hrun, hw, -⟩ := exists_written keeps kept_of_keeps (jobComes ++ shareGoes [])
    (fun _ => true) (by decide +kernel)
  exact ⟨st, w, hrun, hw, written_denote hrun w hw⟩

/-- A message with another version than the scored header's, for a share with
these version bits. -/
def OtherVersion (bits : Option UInt32) : Prop :=
  ∃ st w, Run Proxy.sampleEnv (fun _ _ => True) st ∧ w ∈ st.written ∧
    w.origin.share.share.versionBits = bits ∧ ¬ Denotes Proxy.sampleEnv st.proxy.log w

theorem otherVersion_of_inputs {bits : Option UInt32} (inputs : List Sv2Proxy.Input)
    (h : (reactAll Proxy.sampleEnv (fun _ _ => true) { proxy := { client := initial [] 2 } }
      inputs).any (fun st => st.written.any fun w =>
        w.origin.share.share.versionBits = bits && w.msg.version ≠ w.origin.share.version) =
          true) : OtherVersion bits := by
  obtain ⟨st, w, hrun, hw, hkind⟩ := exists_written (fun _ _ => true) (fun _ _ _ => trivial) inputs
    (fun w => w.origin.share.share.versionBits = bits && w.msg.version ≠ w.origin.share.version) h
  obtain ⟨hbits, hother⟩ := Bool.and_eq_true_iff.mp hkind
  refine ⟨st, w, hrun, hw, of_decide_eq_true hbits, ?_⟩
  rintro ⟨job, m, ph, ch, -, -, -, -, hversion, -⟩
  exact of_decide_eq_true hother hversion

/-- **The version of a message is not that of the header.** The miner rolls a bit,
and its version bits are no version; or another job has come, and the version is
that of the later job. -/
theorem written_other_version : OtherVersion (some 0x2000) ∧ OtherVersion none :=
  ⟨otherVersion_of_inputs (jobComes ++ shareGoes [.string "00002000".toList]) (by decide +kernel),
    otherVersion_of_inputs (jobComes ++ .client (.received (sampleExtJob 2 1)) :: shareGoes [])
      (by decide +kernel)⟩

end MkPool.Translation
