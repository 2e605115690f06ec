import MkPool.Greeting
import MkPool.Lockstep
import MkPool.NoiseHandshake

/-! # `sv2_noise.cpp`: the two ends of an encrypted connection

The end that speaks first is the simulated client of `test_sv2_noise.cpp`. It
looks at the certificate as the comments of `generate_act2` say miners do. -/
namespace MkPool.NoiseAgreement
open MkPool.Lib.Wire MkPool.Utils MkPool.Noise MkPool.NoiseHandshake

/-! ## The client -/

/-- The same libraries, called by the other party. -/
structure Peer (L : Crypto) where
  /-- The AEAD under the nonce zero. -/
  decrypt : (key ad ciphertext : Bytes) → Option Bytes
  /-- `ellswift_xdh` of the party that speaks first. -/
  ellswiftXdh : (a b secret : Bytes) → Option Bytes
  /-- `keypair_xonly_pub`. -/
  publicKey : Bytes → Bytes
  /-- `schnorrsig_verify`. -/
  verify : (xonly msg sig : Bytes) → Bool
  decrypt_encrypt : ∀ {k ad p}, decrypt k ad (L.encrypt k ad p) = some p
  xdh_agrees : ∀ {a b auxA auxB pubA pubB}, L.ellswiftCreate a auxA = some pubA →
    L.ellswiftCreate b auxB = some pubB → ellswiftXdh pubA pubB a = L.ellswiftXdh pubA pubB b
  verify_sign : ∀ {k m aux sig}, L.sign k m aux = some sig → verify (publicKey k) m sig = true

variable {L : Crypto} (P : Peer L)

/-- `client_hkdf_2`. -/
def clientHkdf2 (L : Crypto) (salt ikm : Bytes) : Bytes × Bytes :=
  let prk := L.hmacSha256 salt ikm
  let out1 := L.hmacSha256 prk [1]
  (out1, L.hmacSha256 prk (out1 ++ [2]))

structure Client where
  ck : Bytes
  h : Bytes
  ePrivA : Bytes
  ePubA : Bytes

/-- The client when it has sent Act 1, its public key. -/
def clientStart (L : Crypto) (ePrivA ePubA : Bytes) : Client :=
  let ck := L.sha256 protoName
  let h := L.sha256 (L.sha256 ck ++ ePubA)
  { ck, h := L.sha256 (h ++ []), ePrivA, ePubA }

/-- What the client has learned from Act 2. -/
structure Learned where
  sPubB : Bytes
  sigMsg : Bytes
  noise : NoiseState Bytes

def clientAct2 (c : Client) (act2 : Bytes) : Option Learned := do
  guard (act2.length = 234)
  let ePubB := act2.take 64
  let cS := (act2.drop 64).take 80
  let cSig := act2.drop 144
  let h := L.sha256 (c.h ++ ePubB)
  let eeSecret ← P.ellswiftXdh c.ePubA ePubB c.ePrivA
  let (ck, tempK1) := clientHkdf2 L c.ck eeSecret
  let sPubB ← P.decrypt tempK1 h cS
  guard (sPubB.length = 64)
  let h := L.sha256 (h ++ cS)
  let esSecret ← P.ellswiftXdh c.ePubA sPubB c.ePrivA
  let (ck, tempK2) := clientHkdf2 L ck esSecret
  let sigMsg ← P.decrypt tempK2 h cSig
  guard (sigMsg.length = 74)
  let (txKey, rxKey) := clientHkdf2 L ck []
  return { sPubB, sigMsg, noise := { rxKey, txKey, rxNonce := 0, txNonce := 0 } }

/-- A certificate that is signed for the static key by the authority, and valid
at a time. -/
def certified (authority : Bytes) (time : Nat) (l : Learned) : Bool :=
  P.verify authority (L.sha256 (l.sigMsg.take 10 ++ L.xonly l.sPubB)) (l.sigMsg.drop 10) &&
    decide (leValue ((l.sigMsg.drop 2).take 4) ≤ time) &&
      decide (time ≤ leValue ((l.sigMsg.drop 6).take 4))

/-! ## The handshake -/

/-- Act 2 falls into its three parts. -/
theorem act2_parts {e cS : Bytes} (cSig : Bytes) (he : e.length = 64) (hs : cS.length = 80) :
    (e ++ cS ++ cSig).take 64 = e ∧ ((e ++ cS ++ cSig).drop 64).take 80 = cS ∧
      (e ++ cS ++ cSig).drop 144 = cSig := by
  have hfront : (e ++ cS).length = 144 := by rw [List.length_append, he, hs]
  refine ⟨?_, ?_, List.drop_left' hfront⟩
  · rw [List.append_assoc, List.take_left' he]
  · rw [List.append_assoc, List.drop_left' he, List.take_left' hs]

/-- The client goes through what it opens. -/
theorem clientAct2_eq {c : Client} {e sPub sigMsg ee es cS cSig : Bytes} (he : e.length = 64)
    (hs : sPub.length = 64) (hsig : sigMsg.length = 74)
    (hee : P.ellswiftXdh c.ePubA e c.ePrivA = some ee)
    (hes : P.ellswiftXdh c.ePubA sPub c.ePrivA = some es)
    (hcS : L.encrypt (clientHkdf2 L c.ck ee).2 (L.sha256 (c.h ++ e)) sPub = cS)
    (hcSig : L.encrypt (clientHkdf2 L (clientHkdf2 L c.ck ee).1 es).2
      (L.sha256 (L.sha256 (c.h ++ e) ++ cS)) sigMsg = cSig) :
    clientAct2 P c (e ++ cS ++ cSig) = some
      { sPubB := sPub, sigMsg, noise := {
          rxKey := (clientHkdf2 L (clientHkdf2 L (clientHkdf2 L c.ck ee).1 es).1 []).2
          txKey := (clientHkdf2 L (clientHkdf2 L (clientHkdf2 L c.ck ee).1 es).1 []).1
          rxNonce := 0, txNonce := 0 } } := by
  have hcSlen : cS.length = 80 := by rw [← hcS, L.length_encrypt, hs]
  have hcSiglen : cSig.length = 90 := by rw [← hcSig, L.length_encrypt, hsig]
  obtain ⟨hfirst, hsecond, hthird⟩ := act2_parts cSig he hcSlen
  have hall : (e ++ cS ++ cSig).length = 234 := by
    rw [List.length_append, List.length_append, he, hcSlen, hcSiglen]
  have hopenS : P.decrypt (clientHkdf2 L c.ck ee).2 (L.sha256 (c.h ++ e)) cS = some sPub :=
    hcS ▸ P.decrypt_encrypt
  have hopenSig : P.decrypt (clientHkdf2 L (clientHkdf2 L c.ck ee).1 es).2
      (L.sha256 (L.sha256 (c.h ++ e) ++ cS)) cSig = some sigMsg := hcSig ▸ P.decrypt_encrypt
  unfold clientAct2
  simp only [hall, hfirst, hsecond, hthird, hee, hopenS, hs, hes, hopenSig, hsig, guard, if_true,
    Option.bind_eq_bind, Option.bind_some, Option.pure_def]

/-- The session goes through the same steps. -/
theorem respond_eq {keyHex : Str} {E : Entropy L} {nowS : UInt32}
    {key ePrivA ePubA sPriv sPub ePriv e ee es sig : Bytes} (hlen : keyHex.length = 64)
    (hkey : keyBytes keyHex = some key) (hsPriv : drawKey L E.staticDraws = some sPriv)
    (hsPub : L.ellswiftCreate sPriv E.staticAux = some sPub)
    (hePriv : drawKey L E.ephemeralDraws = some ePriv)
    (hePub : L.ellswiftCreate ePriv E.ephemeralAux = some e)
    (hee : L.ellswiftXdh ePubA e ePriv = some ee) (hes : L.ellswiftXdh ePubA sPub sPriv = some es)
    (hsig : L.sign key (L.sha256 (certificate nowS ++ L.xonly sPub)) E.sigAux = some sig)
    {c : Client} (hc : c = clientStart L ePrivA ePubA) :
    ∃ cS cSig,
      L.encrypt (clientHkdf2 L c.ck ee).2 (L.sha256 (c.h ++ e)) sPub = cS ∧
      L.encrypt (clientHkdf2 L (clientHkdf2 L c.ck ee).1 es).2
        (L.sha256 (L.sha256 (c.h ++ e) ++ cS)) (certificate nowS ++ sig) = cSig ∧
      respond keyHex E nowS ePubA = some (e ++ cS ++ cSig, {
        rxKey := (clientHkdf2 L (clientHkdf2 L (clientHkdf2 L c.ck ee).1 es).1 []).1
        txKey := (clientHkdf2 L (clientHkdf2 L (clientHkdf2 L c.ck ee).1 es).1 []).2
        rxNonce := 0, txNonce := 0 }) := by
  subst hc
  refine ⟨_, _, rfl, rfl, ?_⟩
  have hinit : noiseInitialize keyHex E = some ⟨L.sha256 protoName,
      L.sha256 (L.sha256 protoName), key, sPriv, sPub, List.replicate 64 0⟩ := by
    simp [noiseInitialize, hlen, hkey, hsPriv, hsPub]
  simp only [respond, hinit, Option.bind_eq_bind, Option.bind_some]
  simp only [generateAct2, processAct1, NoiseHandshake.mixHash, hePriv, hePub, Option.bind_eq_bind,
    Option.bind_some, mixKey, hee, hes, hsig]
  rfl

theorem certificate_times (nowS : UInt32) (sig : Bytes) :
    (certificate nowS ++ sig).take 10 = certificate nowS ∧
    (certificate nowS ++ sig).drop 10 = sig ∧
    leValue (((certificate nowS ++ sig).drop 2).take 4) = (nowS - 3600).toNat ∧
    leValue (((certificate nowS ++ sig).drop 6).take 4) = (nowS + 365 * 24 * 3600).toNat := by
  have hlen : (certificate nowS).length = 10 := by simp [certificate]
  refine ⟨List.take_left' hlen, List.drop_left' hlen, ?_, ?_⟩
  · have hfirst : ((certificate nowS ++ sig).drop 2).take 4 = leBytes 4 (nowS - 3600).toNat := by
      simp [certificate, List.append_assoc, List.take_left']
    rw [hfirst, leValue_leBytes (UInt32.toNat_lt _)]
  · have hlast : ((certificate nowS ++ sig).drop 6).take 4 =
        leBytes 4 (nowS + 365 * 24 * 3600).toNat := by
      have hfront : ([0, 0] ++ leBytes 4 (nowS - 3600).toNat).length = 6 := by simp
      rw [certificate, List.append_assoc, List.drop_left' hfront, List.take_left' (by simp)]
    rw [hlast, leValue_leBytes (UInt32.toNat_lt _)]

/-- Whatever either end draws, a client of the protocol accepts Act 2, and comes
out of it with the keys of the session, the other way round. -/
theorem handshake_agrees (keyHex : Str) (E : Entropy L) (nowS : UInt32)
    {key ePrivA auxA ePubA : Bytes} (hlen : keyHex.length = 64) (hkey : keyBytes keyHex = some key)
    (hvalid : Valid L key) (hact1 : L.ellswiftCreate ePrivA auxA = some ePubA) :
    ∃ act2 noise l, respond keyHex E nowS ePubA = some (act2, noise) ∧
      clientAct2 P (clientStart L ePrivA ePubA) act2 = some l ∧
      l.noise = ⟨noise.txKey, noise.rxKey, 0, 0⟩ ∧ noise.rxNonce = 0 ∧ noise.txNonce = 0 ∧
      ∀ time, 3600 ≤ nowS.toNat → nowS.toNat + 31536000 < 2 ^ 32 →
        nowS.toNat ≤ time + 3600 → time ≤ nowS.toNat + 31536000 →
          certified P (P.publicKey key) time l = true := by
  obtain ⟨sPriv, hsPriv⟩ := Option.isSome_iff_exists.mp E.static_ends
  obtain ⟨ePriv, hePriv⟩ := Option.isSome_iff_exists.mp E.ephemeral_ends
  have hsValid := valid_of_drawKey hsPriv
  have heValid := valid_of_drawKey hePriv
  have hsCreated : (L.ellswiftCreate sPriv E.staticAux).isSome := L.create_valid.mpr hsValid
  have heCreated : (L.ellswiftCreate ePriv E.ephemeralAux).isSome := L.create_valid.mpr heValid
  obtain ⟨sPub, hsPub⟩ := Option.isSome_iff_exists.mp hsCreated
  obtain ⟨e, hePub⟩ := Option.isSome_iff_exists.mp heCreated
  have heeSome : (L.ellswiftXdh ePubA e ePriv).isSome := L.xdh_valid.mpr heValid
  have hesSome : (L.ellswiftXdh ePubA sPub sPriv).isSome := L.xdh_valid.mpr hsValid
  obtain ⟨ee, hee⟩ := Option.isSome_iff_exists.mp heeSome
  obtain ⟨es, hes⟩ := Option.isSome_iff_exists.mp hesSome
  have hsigSome : (L.sign key (L.sha256 (certificate nowS ++ L.xonly sPub)) E.sigAux).isSome :=
    L.sign_valid.mpr hvalid
  obtain ⟨sig, hsig⟩ := Option.isSome_iff_exists.mp hsigSome
  obtain ⟨c, hc⟩ : ∃ c, c = clientStart L ePrivA ePubA := ⟨_, rfl⟩
  obtain ⟨cS, cSig, hcS, hcSig, hrespond⟩ :=
    respond_eq hlen hkey hsPriv hsPub hePriv hePub hee hes hsig hc
  have hsize : (certificate nowS ++ sig).length = 74 := by
    simp [certificate, L.length_sign hsig]
  have hclientEe : P.ellswiftXdh c.ePubA e c.ePrivA = some ee :=
    hc ▸ (P.xdh_agrees hact1 hePub).trans hee
  have hclientEs : P.ellswiftXdh c.ePubA sPub c.ePrivA = some es :=
    hc ▸ (P.xdh_agrees hact1 hsPub).trans hes
  have hclient := clientAct2_eq P (L.length_create hePub) (L.length_create hsPub) hsize hclientEe
    hclientEs hcS hcSig
  rw [hc] at hclient hrespond
  refine ⟨_, _, _, hrespond, hclient, rfl, rfl, rfl, ?_⟩
  intro time hlate hyear hfrom huntil
  obtain ⟨htake, hdrop, hvalidFrom, hnotAfter⟩ := certificate_times nowS sig
  have hfromNat : (nowS - 3600).toNat = nowS.toNat - 3600 :=
    UInt32.toNat_sub_of_le _ _ (UInt32.le_iff_toNat_le.mpr hlate)
  have huntilNat : (nowS + 365 * 24 * 3600).toNat = nowS.toNat + 31536000 := by
    rw [UInt32.toNat_add]
    exact Nat.mod_eq_of_lt hyear
  simp only [certified, htake, hdrop, hvalidFrom, hnotAfter, hfromNat, huntilNat,
    P.verify_sign hsig, Bool.true_and, Bool.and_eq_true, decide_eq_true_eq]
  omega

/-! ## The connection -/

/-- One direction: the messages under way, what has been sent, and what has been
read. -/
structure Way where
  flight : List Bytes := []
  sent : List Bytes := []
  got : List Bytes := []

structure Link where
  client : NoiseState Bytes
  server : NoiseState Bytes
  up : Way := {}
  down : Way := {}
  broken : Bool := false

inductive Move where
  | clientEncrypts (plaintext : Bytes)
  | serverEncrypts (plaintext : Bytes)
  | clientDecrypts
  | serverDecrypts

section Moves

variable (A : Aead Bytes)

def Way.send (w : Way) (c p : Bytes) : Way :=
  { w with flight := w.flight ++ [c], sent := w.sent ++ [p] }

/-- The receiver takes the first message under way. -/
def Way.read (w : Way) (r : NoiseState Bytes) : Option (Option (Way × NoiseState Bytes)) :=
  match w.flight with
  | [] => none
  | c :: rest => some ((r.decrypt A.toCipher c).map fun o =>
      ({ w with flight := rest, got := w.got ++ [o.1] }, o.2))

def Link.step (l : Link) : Move → Link
  | .clientEncrypts p =>
    let (c, client) := l.client.encrypt A p
    { l with client, up := l.up.send c p }
  | .serverEncrypts p =>
    let (c, server) := l.server.encrypt A p
    { l with server, down := l.down.send c p }
  | .serverDecrypts =>
    match l.up.read A l.server with
    | none => l
    | some none => { l with broken := true }
    | some (some (up, server)) => { l with up, server }
  | .clientDecrypts =>
    match l.down.read A l.client with
    | none => l
    | some none => { l with broken := true }
    | some (some (down, client)) => { l with down, client }

/-- Messages sealed one after the other. -/
def sealed (key : Bytes) : UInt64 → List Bytes → List Bytes
  | _, [] => []
  | n, p :: ps => A.encrypt key (nonceBytes n) p :: sealed key (n + 1) ps

theorem sealed_concat (key : Bytes) (n : UInt64) (ps : List Bytes) (p : Bytes) :
    sealed A key n (ps ++ [p]) =
      sealed A key n ps ++ [A.encrypt key (nonceBytes (n + UInt64.ofNat ps.length)) p] := by
  induction ps generalizing n with
  | nil => simp [sealed]
  | cons q ps ih =>
    have hnext : n + 1 + UInt64.ofNat ps.length = n + UInt64.ofNat (q :: ps).length := by
      rw [List.length_cons, UInt64.ofNat_add, UInt64.add_assoc, UInt64.add_comm 1]
      rfl
    rw [List.cons_append, sealed, ih, hnext, sealed, List.cons_append]

/-- A direction in order: what has not been read is under way, sealed from where
the receiver counts to where the sender does. -/
def Carries (sender receiver : NoiseState Bytes) (w : Way) : Prop :=
  receiver.rxKey = sender.txKey ∧ ∃ ps, w.sent = w.got ++ ps ∧
    w.flight = sealed A sender.txKey receiver.rxNonce ps ∧
    sender.txNonce = receiver.rxNonce + UInt64.ofNat ps.length

variable {A} {s r : NoiseState Bytes} {w : Way}

theorem carries_send (h : Carries A s r w) (p : Bytes) :
    Carries A (s.encrypt A p).2 r (w.send (s.encrypt A p).1 p) := by
  obtain ⟨hkey, ps, hsent, hflight, hcount⟩ := h
  refine ⟨hkey, ps ++ [p], ?_, ?_, ?_⟩
  · rw [Way.send, hsent, List.append_assoc]
  · show w.flight ++ [A.encrypt s.txKey (nonceBytes s.txNonce) p] = _
    rw [hflight, hcount, ← sealed_concat]
    rfl
  · show s.txNonce + 1 = _
    rw [hcount, List.length_append, UInt64.ofNat_add, UInt64.add_assoc]
    rfl

/-- The first message under way can be opened. -/
theorem carries_read (h : Carries A s r w) :
    w.read A r = none ∨ ∃ w' p, w.read A r = some (some (w', { r with rxNonce := r.rxNonce + 1 })) ∧
      w'.sent = w.sent ∧ w'.got = w.got ++ [p] ∧
      Carries A s { r with rxNonce := r.rxNonce + 1 } w' := by
  obtain ⟨hkey, ps, hsent, hflight, hcount⟩ := h
  cases ps with
  | nil =>
    refine .inl ?_
    rw [Way.read, hflight]
    rfl
  | cons p ps =>
    have hopen : r.decrypt A.toCipher (A.encrypt s.txKey (nonceBytes r.rxNonce) p) =
        some (p, { r with rxNonce := r.rxNonce + 1 }) := by
      have hlong : ¬ (A.encrypt s.txKey (nonceBytes r.rxNonce) p).length < 16 := by
        rw [A.length_encrypt]
        omega
      rw [NoiseState.decrypt, if_neg hlong, hkey, A.decrypt_encrypt]
    refine .inr ⟨{ w with
      flight := sealed A s.txKey (r.rxNonce + 1) ps
      got := w.got ++ [p] }, p, ?_, rfl, rfl, hkey, ps, ?_, rfl, ?_⟩
    · rw [Way.read, hflight, sealed]
      simp only [hopen, Option.map_some]
    · rw [hsent, List.append_assoc]
      rfl
    · rw [hcount, List.length_cons, UInt64.ofNat_add, UInt64.add_assoc,
        UInt64.add_comm (UInt64.ofNat ps.length)]
      rfl

/-- Both directions are in order. -/
structure Sound (A : Aead Bytes) (l : Link) : Prop where
  up : Carries A l.client l.server l.up
  down : Carries A l.server l.client l.down
  unbroken : l.broken = false

theorem sound_step {l : Link} (h : Sound A l) (m : Move) : Sound A (l.step A m) := by
  cases m with
  | clientEncrypts p => exact ⟨carries_send h.up p, h.down, h.unbroken⟩
  | serverEncrypts p => exact ⟨h.up, carries_send h.down p, h.unbroken⟩
  | serverDecrypts =>
    unfold Link.step
    rcases carries_read h.up with hnone | ⟨w', p, hread, -, -, hcarries⟩
    · simp only [hnone]
      exact h
    · simp only [hread]
      exact ⟨hcarries, h.down, h.unbroken⟩
  | clientDecrypts =>
    unfold Link.step
    rcases carries_read h.down with hnone | ⟨w', p, hread, -, -, hcarries⟩
    · simp only [hnone]
      exact h
    · simp only [hread]
      exact ⟨h.up, hcarries, h.unbroken⟩

theorem sound_run {l : Link} (h : Sound A l) (moves : List Move) :
    Sound A (moves.foldl (Link.step A) l) := by
  induction moves generalizing l with
  | nil => exact h
  | cons m moves ih => exact ih (sound_step h m)

theorem length_sealed (key : Bytes) (n : UInt64) (ps : List Bytes) :
    (sealed A key n ps).length = ps.length := by
  induction ps generalizing n with
  | nil => rfl
  | cons p ps ih => rw [sealed, List.length_cons, ih, List.length_cons]

/-- What was read is what was sent, up to what is under way. -/
def Way.Exact (w : Way) : Prop :=
  w.got <+: w.sent ∧ w.got.length + w.flight.length = w.sent.length

theorem exact_of_carries (h : Carries A s r w) : w.Exact := by
  obtain ⟨-, ps, hsent, hflight, -⟩ := h
  refine ⟨⟨ps, hsent.symm⟩, ?_⟩
  rw [hflight, length_sealed, hsent, List.length_append]

end Moves

/-- **An encrypted connection is one.** Whatever either end draws, a client of
the protocol accepts the answer to its Act 1, and the certificate in it is signed
by the authority and valid from an hour before to a year after. From then on, in
any order of sending and reading, each end opens every message it reads, and reads
just what the other sent, in order. -/
theorem noise_connection (A : Aead Bytes) (keyHex : Str) (E : Entropy L) (nowS : UInt32)
    {key ePrivA auxA ePubA : Bytes} (hlen : keyHex.length = 64) (hkey : keyBytes keyHex = some key)
    (hvalid : Valid L key) (hact1 : L.ellswiftCreate ePrivA auxA = some ePubA) :
    ∃ act2 noise l, respond keyHex E nowS ePubA = some (act2, noise) ∧
      clientAct2 P (clientStart L ePrivA ePubA) act2 = some l ∧
      (∀ time, 3600 ≤ nowS.toNat → nowS.toNat + 31536000 < 2 ^ 32 →
        nowS.toNat ≤ time + 3600 → time ≤ nowS.toNat + 31536000 →
          certified P (P.publicKey key) time l = true) ∧
      ∀ moves : List Move,
        (moves.foldl (Link.step A) ⟨l.noise, noise, {}, {}, false⟩).broken = false ∧
        (moves.foldl (Link.step A) ⟨l.noise, noise, {}, {}, false⟩).up.Exact ∧
        (moves.foldl (Link.step A) ⟨l.noise, noise, {}, {}, false⟩).down.Exact := by
  obtain ⟨act2, noise, l, hrespond, hclient, hnoise, hrx, htx, hcert⟩ :=
    handshake_agrees P keyHex E nowS hlen hkey hvalid hact1
  refine ⟨act2, noise, l, hrespond, hclient, hcert, fun moves => ?_⟩
  have hstart : Sound A ⟨l.noise, noise, {}, {}, false⟩ := by
    rw [hnoise]
    refine ⟨⟨rfl, [], rfl, rfl, ?_⟩, ⟨rfl, [], rfl, rfl, ?_⟩, rfl⟩
    · rw [hrx]
      rfl
    · rw [htx]
      rfl
  have hsound := sound_run hstart moves
  exact ⟨hsound.unbroken, exact_of_carries hsound.up, exact_of_carries hsound.down⟩

/-- The party that speaks first, with the libraries of `sampleCrypto`. -/
def samplePeer : Peer Greeting.sampleCrypto where
  decrypt _ _ c := some (c.take (c.length - 16))
  ellswiftXdh := Greeting.sampleCrypto.ellswiftXdh
  publicKey _ := []
  verify _ _ _ := true
  decrypt_encrypt := by
    intro k ad p
    simp [Greeting.sampleCrypto]
  xdh_agrees := by
    intro a b auxA auxB pubA pubB ha hb
    have hbValid : (Greeting.sampleCrypto.parity b).isSome :=
      Greeting.sampleCrypto.create_valid.mp (by rw [hb]; rfl)
    have haValid : (Greeting.sampleCrypto.parity a).isSome :=
      Greeting.sampleCrypto.create_valid.mp (by rw [ha]; rfl)
    simp only [Greeting.sampleCrypto] at haValid hbValid ⊢
    split at haValid <;> split at hbValid <;> simp_all
  verify_sign := fun _ => rfl

/-- The cipher of one key, for all of them. -/
def sampleAead : Aead Bytes where
  decrypt _ := Lockstep.plainCipher.decrypt ()
  length_decrypt := Lockstep.plainCipher.length_decrypt
  encrypt _ := Lockstep.plainCipher.encrypt ()
  decrypt_iff := Lockstep.plainCipher.decrypt_iff

/-- Two ends have met. -/
theorem sample_connection : ∃ act2 noise l,
    respond Greeting.sampleKey Greeting.sampleEntropy 0 (List.replicate 64 1) =
      some (act2, noise) ∧
    clientAct2 samplePeer (clientStart Greeting.sampleCrypto (List.replicate 32 3)
      (List.replicate 64 1)) act2 = some l ∧
    ∀ moves : List Move,
      (moves.foldl (Link.step sampleAead) ⟨l.noise, noise, {}, {}, false⟩).up.Exact := by
  obtain ⟨hlen, key, hkey, hvalid⟩ := Greeting.usable_sampleKey
  have hact1 : Greeting.sampleCrypto.ellswiftCreate (List.replicate 32 3) [] =
      some (List.replicate 64 1) := by decide +kernel
  obtain ⟨act2, noise, l, hrespond, hclient, -, hmoves⟩ := noise_connection samplePeer sampleAead
    Greeting.sampleKey Greeting.sampleEntropy 0 hlen hkey hvalid hact1
  exact ⟨act2, noise, l, hrespond, hclient, fun moves => (hmoves moves).2.1⟩

end MkPool.NoiseAgreement
