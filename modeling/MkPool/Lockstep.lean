import MkPool.Segmentation

/-! # The counters of the two ends of an encrypted connection

Each encryption and each decryption counts one message. The ends stay together
as long as both count an empty payload, or neither. -/
namespace MkPool.Lockstep
open MkPool.Lib.Segments MkPool.Noise MkPool.Utils MkPool.Sv2Codec MkPool.Sv2Wire
open MkPool.Sv2Transport
open MkPool.Segmentation (encryptedReader)

variable {Key : Type}

/-- The class at one end. -/
inductive Side where
  | client
  | relay
deriving DecidableEq

def Side.send (A : Aead Key) : Side → NoiseState Key → Message → Bytes × NoiseState Key
  | .client => clientSend A
  | .relay => relaySend A

/-- A handler that goes on after every message. -/
def goOn : Handler Unit := fun s _ => (s, false)

/-- What each loop takes off with a header it refuses. -/
def Side.left : Side → Nat
  | .client => 0
  | .relay => 22

theorem Side.left_le (side : Side) : side.left ≤ 22 := by cases side <;> decide

/-- The receiving loop. -/
def Side.reader (A : Aead Key) (side : Side) : Incremental (Encrypted Key Unit) UInt8 Frame :=
  encryptedReader goOn side.left side.left_le A.toCipher

/-- The two ends after some messages. -/
def exchange (A : Aead Key) (sender receiver : Side) :
    NoiseState Key → Held (Encrypted Key Unit) UInt8 Frame → List Message →
      NoiseState Key × Held (Encrypted Key Unit) UInt8 Frame
  | n, h, [] => (n, h)
  | n, h, m :: ms =>
    let sent := sender.send A n m
    exchange A sender receiver sent.2 ((receiver.reader A).feed h sent.1) ms

/-- After each message the receiver has handed over what was sent, and counts as
the sender does. -/
def InLockstep (A : Aead Key) (sender receiver : Side) (n : NoiseState Key)
    (h : Held (Encrypted Key Unit) UInt8 Frame) (ms : List Message) : Prop :=
  ∀ k ≤ ms.length,
    let ends := exchange A sender receiver n h (ms.take k)
    ends.2.out = h.out ++ (ms.take k).map Message.frame ∧
      ends.2.state.noise.rxNonce = ends.1.txNonce

/-! ## One message -/

/-- A receiver between two messages. -/
structure Idle (h : Held (Encrypted Key Unit) UInt8 Frame) (noise : NoiseState Key) : Prop where
  running : h.halted = false
  empty : h.buf = []
  state : h.state = ⟨none, noise, ()⟩

theorem headerOf_serialize {h : Header} (hlen : h.msgLength.toNat < 2 ^ 24) :
    headerOf h.serialize = h := by
  have hread := reads_header.whole.mpr ⟨hlen, rfl⟩
  unfold headerOf
  rw [hread]

section Turns

variable {H : Type} (handle : Handler H) (left : Nat) {C : Cipher Key} {n n' : NoiseState Key}
  {session : H} {c rest plain : Bytes}

theorem turn_header {hd : Bounded} (hlen : c.length = 22)
    (hdecrypt : n.decrypt C c = some (plain, n')) (hhd : headerOf plain = hd.1) :
    encryptedTurn handle left C ⟨none, n, session⟩ (c ++ rest) =
      .go none ⟨some hd, n', session⟩ rest := by
  unfold encryptedTurn await
  have hfront : (c ++ rest).take 22 = c := List.take_left' hlen
  have hrest : (c ++ rest).drop 22 = rest := List.drop_left' hlen
  have hlong : ¬ (c ++ rest).length < 22 := by
    rw [List.length_append]
    omega
  have hok : frameLengthOk (headerOf plain).msgLength = true := by
    rw [hhd]
    exact hd.2
  have hbounded : (⟨headerOf plain, hok⟩ : Bounded) = hd := Subtype.ext hhd
  simp only [hlong, if_false, hfront, hrest, hdecrypt, hok, dite_true, hbounded]

theorem turn_payload {hd : Bounded} (hlen : c.length = hd.1.msgLength.toNat + 16)
    (hpos : hd.1.msgLength.toNat ≠ 0) (hdecrypt : n.decrypt C c = some (plain, n')) :
    encryptedTurn handle left C ⟨some hd, n, session⟩ (c ++ rest) =
      deliver handle (fun session => ⟨none, n', session⟩) session ⟨hd.1, plain⟩ rest := by
  unfold encryptedTurn await
  have hfront : (c ++ rest).take (hd.1.msgLength.toNat + 16) = c := List.take_left' hlen
  have hrest : (c ++ rest).drop (hd.1.msgLength.toNat + 16) = rest := List.drop_left' hlen
  have hlong : ¬ (c ++ rest).length < hd.1.msgLength.toNat + 16 := by
    rw [List.length_append]
    omega
  simp only [hlong, if_false, hfront, hrest, hdecrypt, hpos]

theorem turn_empty {hd : Bounded} (hlen : c.length = hd.1.msgLength.toNat + 16)
    (hzero : hd.1.msgLength.toNat = 0) :
    encryptedTurn handle left C ⟨some hd, n, session⟩ (c ++ rest) =
      deliver handle (fun session => ⟨none, n, session⟩) session ⟨hd.1, []⟩ rest := by
  unfold encryptedTurn await
  have hrest : (c ++ rest).drop (hd.1.msgLength.toNat + 16) = rest := List.drop_left' hlen
  have hlong : ¬ (c ++ rest).length < hd.1.msgLength.toNat + 16 := by
    rw [List.length_append]
    omega
  dsimp only
  rw [if_neg hlong, if_pos hzero, hrest]

end Turns

/-- The two parts of a frame are read in two turns. -/
theorem feed_frame {A : Aead Key} (side : Side) {h : Held (Encrypted Key Unit) UInt8 Frame}
    {n₀ n₁ n₂ : NoiseState Key} {hd : Bounded} {c₁ c₂ : Bytes} (payload : Bytes) (hidle : Idle h n₀)
    (hlen₁ : c₁.length = 22) (hlen₂ : c₂.length = hd.1.msgLength.toNat + 16)
    (hheader : n₀.decrypt A.toCipher c₁ = some (hd.1.serialize, n₁))
    (hpayload : (hd.1.msgLength.toNat = 0 ∧ payload = [] ∧ n₂ = n₁) ∨
      (hd.1.msgLength.toNat ≠ 0 ∧ n₁.decrypt A.toCipher c₂ = some (payload, n₂))) :
    Idle ((side.reader A).feed h (c₁ ++ c₂)) n₂ ∧
      ((side.reader A).feed h (c₁ ++ c₂)).out = h.out ++ [⟨hd.1, payload⟩] := by
  have hhd : headerOf hd.1.serialize = hd.1 := by
    have hle := hd.le
    unfold maxMsgLength at hle
    exact headerOf_serialize (by omega)
  obtain ⟨state, buf, out, used, halted⟩ := h
  obtain ⟨rfl, rfl, rfl⟩ := hidle
  have hfirst : (side.reader A).turn ⟨none, n₀, ()⟩ (c₁ ++ c₂) =
      .go none ⟨some hd, n₁, ()⟩ c₂ := turn_header goOn side.left hlen₁ hheader hhd
  have hsecond : (side.reader A).turn ⟨some hd, n₁, ()⟩ c₂ =
      .go (some ⟨hd.1, payload⟩) ⟨none, n₂, ()⟩ [] := by
    rw [← List.append_nil c₂]
    obtain ⟨hzero, rfl, rfl⟩ | ⟨hpos, hdecrypt⟩ := hpayload
    · exact turn_empty goOn side.left hlen₂ hzero
    · exact turn_payload goOn side.left hlen₂ hpos hdecrypt
  have hidle : (side.reader A).turn ⟨none, n₂, ()⟩ [] = .wait 22 := rfl
  rw [Incremental.feed, if_neg (by simp),
    Incremental.settle_go (by simpa [Held.append] using hfirst),
    Incremental.settle_go hsecond, Incremental.settle_wait hidle]
  exact ⟨⟨rfl, rfl, rfl⟩, by simp [Held.took, Held.append]⟩

/-- The receiver's key and counter are the sender's. -/
def Matched (receiver sender : NoiseState Key) : Prop :=
  receiver.rxKey = sender.txKey ∧ receiver.rxNonce = sender.txNonce

/-- The state after one more message has been received. -/
def received (n : NoiseState Key) : NoiseState Key := { n with rxNonce := n.rxNonce + 1 }

theorem decrypt_encrypt {A : Aead Key} {r n : NoiseState Key} (hmatch : Matched r n) (p : Bytes) :
    r.decrypt A.toCipher (n.encrypt A p).1 = some (p, received r) ∧
      Matched (received r) (n.encrypt A p).2 := by
  have hlen := A.length_encrypt n.txKey (nonceBytes n.txNonce) p
  have hlong : ¬ (n.encrypt A p).1.length < 16 := by
    rw [NoiseState.encrypt, hlen]
    omega
  have hplain : A.decrypt r.rxKey (nonceBytes r.rxNonce) (n.encrypt A p).1 = some p := by
    rw [hmatch.1, hmatch.2]
    exact A.decrypt_encrypt _ _ p
  constructor
  · rw [NoiseState.decrypt, if_neg hlong, hplain]
    rfl
  · exact ⟨hmatch.1, by rw [received, hmatch.2]; rfl⟩

section Message

variable {A : Aead Key} {n r : NoiseState Key} {side : Side} {m : Message}
  {h : Held (Encrypted Key Unit) UInt8 Frame}

/-- The header of a message, which is within the bound. -/
def bounded (m : Message) : Bounded :=
  ⟨m.frame.header, decide_eq_true (by
    have hfits := m.fits
    unfold maxMsgLength at hfits
    rw [Message.frame, wrapHeader_length (by omega)]
    exact m.fits)⟩

theorem bounded_length (m : Message) : (bounded m).1.msgLength.toNat = m.payload.length := by
  have hfits := m.fits
  unfold maxMsgLength at hfits
  exact wrapHeader_length (by omega)

theorem take_wrapMessage (m : Message) :
    (wrapMessage m.extType m.msgType m.payload).take 6 = (bounded m).1.serialize :=
  List.take_left' (length_serialize _)

theorem drop_wrapMessage (m : Message) :
    (wrapMessage m.extType m.msgType m.payload).drop 6 = m.payload :=
  List.drop_left' (length_serialize _)

theorem length_wrapMessage (m : Message) :
    (wrapMessage m.extType m.msgType m.payload).length = 6 + m.payload.length := by
  rw [wrapMessage, List.length_append, length_serialize]

/-- A frame whose payload is encrypted. -/
def sealed (A : Aead Key) (n : NoiseState Key) (m : Message) : Bytes × NoiseState Key :=
  let header := n.encrypt A (bounded m).1.serialize
  let payload := header.2.encrypt A m.payload
  (header.1 ++ payload.1, payload.2)

theorem relaySend_eq : relaySend A n m = sealed A n m := by
  rw [relaySend, sealed, take_wrapMessage, drop_wrapMessage]

theorem clientSend_nonempty (hm : m.payload ≠ []) : clientSend A n m = sealed A n m := by
  have hpos := List.length_pos_iff.mpr hm
  rw [clientSend, sealed, take_wrapMessage, drop_wrapMessage, if_pos]
  rw [length_wrapMessage]
  omega

theorem clientSend_empty (hm : m.payload = []) : clientSend A n m =
    ((n.encrypt A (bounded m).1.serialize).1 ++ List.replicate 16 0,
      (n.encrypt A (bounded m).1.serialize).2) := by
  rw [clientSend, take_wrapMessage, if_neg]
  rw [length_wrapMessage, hm]
  exact Nat.lt_irrefl 6

theorem length_header : (n.encrypt A (bounded m).1.serialize).1.length = 22 := by
  rw [NoiseState.encrypt, A.length_encrypt, length_serialize]

/-- A frame whose payload is encrypted and not empty is counted twice at both
ends. -/
theorem feed_sealed (hidle : Idle h r) (hmatch : Matched r n) (hm : m.payload ≠ []) :
    Idle ((side.reader A).feed h (sealed A n m).1) (received (received r)) ∧
      ((side.reader A).feed h (sealed A n m).1).out = h.out ++ [m.frame] ∧
      Matched (received (received r)) (sealed A n m).2 := by
  obtain ⟨hheader, hmatch₁⟩ := decrypt_encrypt (A := A) hmatch (bounded m).1.serialize
  obtain ⟨hpayload, hmatch₂⟩ := decrypt_encrypt (A := A) hmatch₁ m.payload
  have hpos : (bounded m).1.msgLength.toNat ≠ 0 := by
    rw [bounded_length]
    exact Nat.ne_of_gt (List.length_pos_iff.mpr hm)
  have hlen : ((n.encrypt A (bounded m).1.serialize).2.encrypt A m.payload).1.length =
      (bounded m).1.msgLength.toNat + 16 := by
    rw [NoiseState.encrypt, A.length_encrypt, bounded_length]
  obtain ⟨hidle', hout⟩ := feed_frame side m.payload hidle length_header hlen hheader
    (Or.inr ⟨hpos, hpayload⟩)
  exact ⟨hidle', hout, hmatch₂⟩

/-- An empty payload is not counted by the receiver. -/
theorem feed_empty (side : Side) {c : Bytes} (hidle : Idle h r) (hmatch : Matched r n) (hm : m.payload = [])
    (hc : c.length = 16) :
    Idle ((side.reader A).feed h ((n.encrypt A (bounded m).1.serialize).1 ++ c)) (received r) ∧
      ((side.reader A).feed h ((n.encrypt A (bounded m).1.serialize).1 ++ c)).out =
        h.out ++ [m.frame] := by
  obtain ⟨hheader, _⟩ := decrypt_encrypt (A := A) hmatch (bounded m).1.serialize
  have hzero : (bounded m).1.msgLength.toNat = 0 := by rw [bounded_length, hm, List.length_nil]
  obtain ⟨hidle', hout⟩ := feed_frame side [] hidle length_header
    (by rw [hzero]; exact hc) hheader (Or.inl ⟨hzero, rfl, rfl⟩)
  have hframe : m.frame = ⟨(bounded m).1, []⟩ := congrArg (Frame.mk (bounded m).1) hm
  exact ⟨hidle', by rw [hframe, hout]⟩

theorem step_lockstep (side : Side) {sender : Side} (hidle : Idle h r) (hmatch : Matched r n)
    (hm : sender = .relay → m.payload ≠ []) :
    ∃ r', Idle ((side.reader A).feed h (sender.send A n m).1) r' ∧
      ((side.reader A).feed h (sender.send A n m).1).out = h.out ++ [m.frame] ∧
      Matched r' (sender.send A n m).2 := by
  by_cases hempty : m.payload = []
  · cases sender with
    | relay => exact absurd hempty (hm rfl)
    | client =>
      have hsend : Side.send A .client n m = _ := clientSend_empty hempty
      rw [hsend]
      obtain ⟨hidle', hout⟩ := feed_empty side (c := List.replicate 16 0) hidle hmatch
        hempty List.length_replicate
      exact ⟨received r, hidle', hout, (decrypt_encrypt (A := A) hmatch (bounded m).1.serialize).2⟩
  · have hsend : sender.send A n m = sealed A n m := by
      cases sender with
      | relay => exact relaySend_eq
      | client => exact clientSend_nonempty hempty
    rw [hsend]
    exact ⟨_, feed_sealed hidle hmatch hempty⟩

/-- The relay's sender counts an empty payload that its peer does not. -/
theorem step_apart (hidle : Idle h r) (hmatch : Matched r n) (hm : m.payload = []) :
    ((side.reader A).feed h (Side.send A .relay n m).1).state.noise.rxNonce ≠
      (Side.send A .relay n m).2.txNonce := by
  have hsend : Side.send A .relay n m = sealed A n m := relaySend_eq
  rw [hsend]
  have hlen : ((n.encrypt A (bounded m).1.serialize).2.encrypt A m.payload).1.length = 16 := by
    rw [NoiseState.encrypt, A.length_encrypt, hm]
    rfl
  have hfeed : Idle ((side.reader A).feed h (sealed A n m).1) (received r) :=
    (feed_empty _ hidle hmatch hm hlen).1
  have hrx : (received r).rxNonce = n.txNonce + 1 := congrArg (· + 1) hmatch.2
  rw [hfeed.state, hrx]
  show n.txNonce + 1 ≠ n.txNonce + 1 + 1
  simp

end Message

/-! ## Any sequence of messages -/

theorem inLockstep_cons {A : Aead Key} {sender receiver : Side} {n : NoiseState Key}
    {h : Held (Encrypted Key Unit) UInt8 Frame} {m : Message} {ms : List Message}
    (hstart : h.state.noise.rxNonce = n.txNonce)
    (hout : ((receiver.reader A).feed h (sender.send A n m).1).out = h.out ++ [m.frame]) :
    InLockstep A sender receiver n h (m :: ms) ↔
      InLockstep A sender receiver (sender.send A n m).2
        ((receiver.reader A).feed h (sender.send A n m).1) ms := by
  have houts (k : Nat) : h.out ++ ((m :: ms).take (k + 1)).map Message.frame =
      ((receiver.reader A).feed h (sender.send A n m).1).out ++ (ms.take k).map Message.frame := by
    rw [hout, List.append_assoc]
    rfl
  constructor
  · intro hlock k hk
    have hnext := hlock (k + 1) (Nat.succ_le_succ hk)
    exact ⟨hnext.1.trans (houts k), hnext.2⟩
  · intro hlock k hk
    obtain _ | k := k
    · exact ⟨(List.append_nil h.out).symm, hstart⟩
    · have hnext := hlock k (Nat.le_of_succ_le_succ hk)
      exact ⟨hnext.1.trans (houts k).symm, hnext.2⟩

theorem inLockstep_iff {A : Aead Key} {sender receiver : Side} {n r : NoiseState Key}
    {h : Held (Encrypted Key Unit) UInt8 Frame} (hidle : Idle h r) (hmatch : Matched r n)
    (ms : List Message) : InLockstep A sender receiver n h ms ↔
      (sender = .relay → ∀ m ∈ ms, m.payload ≠ []) := by
  induction ms generalizing n r h with
  | nil =>
    refine ⟨fun _ _ m hm => absurd hm List.not_mem_nil, fun _ k _ => ?_⟩
    rw [List.take_nil]
    refine ⟨(List.append_nil h.out).symm, ?_⟩
    show h.state.noise.rxNonce = n.txNonce
    rw [hidle.state]
    exact hmatch.2
  | cons m ms ih =>
    have hstart : h.state.noise.rxNonce = n.txNonce := by rw [hidle.state]; exact hmatch.2
    by_cases hm : sender = .relay → m.payload ≠ []
    · obtain ⟨r', hidle', hout, hmatch'⟩ := step_lockstep receiver hidle hmatch hm
      rw [inLockstep_cons hstart hout, ih hidle' hmatch']
      constructor
      · intro hms hrelay m' hm'
        rcases List.mem_cons.mp hm' with rfl | hm'
        · exact hm hrelay
        · exact hms hrelay m' hm'
      · exact fun hms hrelay m' hm' => hms hrelay m' (List.mem_cons_of_mem m hm')
    · obtain ⟨rfl, hempty⟩ := Classical.not_imp.mp hm
      constructor
      · intro hlock
        exact absurd (hlock 1 (Nat.le_add_left 1 _)).2
          (step_apart hidle hmatch (not_not.mp hempty))
      · exact fun hms => absurd (hms rfl m List.mem_cons_self) hempty

/-- Two ends that start together stay so exactly as long as the relay's sender is
not given an empty payload. -/
theorem lockstep_iff_payloads (A : Aead Key) (sender receiver : Side) (n r : NoiseState Key)
    (hkey : r.rxKey = n.txKey) (hnonce : r.rxNonce = n.txNonce) (ms : List Message) :
    InLockstep A sender receiver n (start ⟨none, r, ()⟩ []) ms ↔
      (sender = .relay → ∀ m ∈ ms, m.payload ≠ []) :=
  inLockstep_iff ⟨rfl, rfl, rfl⟩ ⟨hkey, hnonce⟩ ms

/-- A cipher that writes the nonce before the text. -/
def plainCipher : Aead Unit where
  decrypt _ nonce c :=
    if c.take 16 = (nonce ++ List.replicate 16 0).take 16 ∧ 16 ≤ c.length then some (c.drop 16)
    else none
  length_decrypt := by
    intro k nonce c p h
    split at h
    · rename_i hc
      cases h
      rw [List.length_drop]
      omega
    · cases h
  encrypt _ nonce p := (nonce ++ List.replicate 16 0).take 16 ++ p
  decrypt_iff := by
    intro k nonce c p
    have hlen : ((nonce ++ List.replicate 16 (0 : UInt8)).take 16).length = 16 := by
      rw [List.length_take, List.length_append, List.length_replicate]
      omega
    constructor
    · intro h
      split at h
      · rename_i hc
        cases h
        rw [← hc.1, List.take_append_drop]
      · cases h
    · rintro rfl
      rw [if_pos ⟨List.take_left' hlen, by rw [List.length_append]; omega⟩, List.drop_left' hlen]

/-- A session's acknowledgements reach a relay. -/
theorem lockstep_iff_payloads_client :
    InLockstep plainCipher .client .relay ⟨(), (), 0, 0⟩ (start ⟨none, ⟨(), (), 0, 0⟩, ()⟩ [])
      [⟨0, 1, [], by decide⟩, ⟨0, 1, [2, 0], by decide⟩] :=
  (lockstep_iff_payloads plainCipher .client .relay ⟨(), (), 0, 0⟩ ⟨(), (), 0, 0⟩ rfl rfl
    _).mpr (by decide)

/-- The counters of a relay and its peer part after an empty payload. -/
theorem empty_payload_parts :
    ¬ InLockstep plainCipher .relay .client ⟨(), (), 0, 0⟩
      (start ⟨none, ⟨(), (), 0, 0⟩, ()⟩ []) [⟨0, 1, [], by decide⟩] := by
  intro hlock
  have hcount := (hlock 1 (le_refl 1)).2
  revert hcount
  decide

end MkPool.Lockstep
