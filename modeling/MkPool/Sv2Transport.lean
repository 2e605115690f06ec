import MkPool.Lib.Segments
import MkPool.Noise
import MkPool.Sv2Wire

/-! # How Stratum V2 frames are read and sent

The three readers of the source: `ClientSession::process_v2_buffer`, and
`consume_frames` of `Sv2RelaySession` and of `Sv2UpstreamClient`. A turn is what
the loop does with the bytes it holds. The handler of a message says what it
leaves of the session, and whether it closed it; the session stops there. -/
namespace MkPool.Sv2Transport
open MkPool.Lib.Segments MkPool.Noise MkPool.Utils MkPool.Sv2Codec MkPool.Sv2Wire
open MkPool.Lib (Cursor)

structure Frame where
  header : Header
  payload : Bytes
deriving DecidableEq

/-- A frame of the length its header declares, which is within the bound. -/
def WellFramed (f : Frame) : Prop :=
  f.header.msgLength.toNat ≤ maxMsgLength ∧ f.payload.length = f.header.msgLength.toNat

/-- A header that passed `frame_length_ok`. -/
abbrev Bounded := { h : Header // frameLengthOk h.msgLength = true }

theorem Bounded.le (h : Bounded) : h.1.msgLength.toNat ≤ maxMsgLength := of_decide_eq_true h.2

/-- `process_message_v2` or `handle_frame`; what they throw is caught. -/
abbrev Handler (H : Type) := H → Frame → H × Bool

/-- The header in the first six bytes. -/
def headerOf (bs : Bytes) : Header :=
  match Header.deserialize ⟨bs, 0⟩ with
  | .ok (h, _) => h
  | .error _ => ⟨0, 0, 0⟩

variable {H Key σ : Type} (handle : Handler H)

/-- A complete frame goes to the handler. -/
def deliver (next : H → σ) (session : H) (f : Frame) (rest : Bytes) : Turn σ UInt8 Frame :=
  if (handle session f).2 then .halt (some f) (next (handle session f).1) rest
  else .go (some f) (next (handle session f).1) rest

/-! ## `ClientSession` -/

/-- `read_buf_` of a `ClientSession`. -/
def clientReadBuf : Nat := 4096

/-- `process_v2_buffer` of a plaintext session. -/
def clientPlain (session : H) (buf : Bytes) : Turn H UInt8 Frame :=
  await 6 buf fun front =>
    let h := headerOf front
    if frameLengthOk h.msgLength then
      let totalRequired := 6 + h.msgLength.toNat
      await totalRequired buf fun frame =>
        deliver handle id session ⟨h, frame.drop 6⟩ (buf.drop totalRequired)
    else .halt none session buf

/-- A session behind an encrypted connection, and the header it has decrypted. -/
structure Encrypted (Key H : Type) where
  pending : Option Bounded
  noise : NoiseState Key
  session : H

/-- The loop of an encrypted session. `left` is how many bytes it takes off when
it refuses the header that they are: none in `ClientSession::process_v2_buffer`,
all of it in `Sv2RelaySession::consume_frames`. -/
def encryptedTurn (left : Nat) (C : Cipher Key) (s : Encrypted Key H) (buf : Bytes) :
    Turn (Encrypted Key H) UInt8 Frame :=
  match s.pending with
  | none =>
    await 22 buf fun front =>
      match s.noise.decrypt C front with
      | none => .halt none s buf
      | some (plain, noise) =>
        if hok : frameLengthOk (headerOf plain).msgLength = true then
          .go none { s with pending := some ⟨headerOf plain, hok⟩, noise := noise } (buf.drop 22)
        else .halt none { s with noise := noise } (buf.drop left)
  | some h =>
    let required := h.1.msgLength.toNat + 16
    await required buf fun text =>
      -- an empty payload is sixteen bytes that are not looked at
      if h.1.msgLength.toNat = 0 then
        deliver handle (fun session => { s with pending := none, session := session }) s.session
          ⟨h.1, []⟩ (buf.drop required)
      else
        match s.noise.decrypt C text with
        | none => .halt none s buf
        | some (plain, noise) =>
          deliver handle (fun session => ⟨none, noise, session⟩) s.session ⟨h.1, plain⟩
            (buf.drop required)

/-! ## `Sv2UpstreamClient` and `Sv2RelaySession` -/

/-- `read_buf_` of both. -/
def relayReadBuf : Nat := 8192

/-- `cur_header_` while `have_header_` is set. -/
structure Plain (H : Type) where
  pending : Option Bounded
  session : H

/-- The loop without encryption. -/
def plainTurn (s : Plain H) (buf : Bytes) : Turn (Plain H) UInt8 Frame :=
  match s.pending with
  | none =>
    await 6 buf fun front =>
      if hok : frameLengthOk (headerOf front).msgLength = true then
        .go none { s with pending := some ⟨headerOf front, hok⟩ } (buf.drop 6)
      else .halt none s (buf.drop 6)
  | some h =>
    let required := h.1.msgLength.toNat
    await required buf fun payload =>
      deliver handle (fun session => { pending := none, session := session }) s.session
        ⟨h.1, payload⟩ (buf.drop required)

/-- A relay session does not know how its peer speaks before the first bytes. -/
inductive Relay (Key H : Type) where
  | detecting (session : H)
  | plain (s : Plain H)
  | encrypted (s : Encrypted Key H)

/-- `consume_frames` of a relay session. The handshake takes the 64 bytes of the
peer's key material; it is the crypto library's, as is the key it ends with. -/
def relayTurn (handshake : Bytes → Option (NoiseState Key)) (C : Cipher Key)
    (s : Relay Key H) (buf : Bytes) : Turn (Relay Key H) UInt8 Frame :=
  match s with
  | .detecting session =>
    await 6 buf fun front =>
      if front.take 3 = [0, 0, 0] then .go none (.plain ⟨none, session⟩) buf
      else
        await 64 buf fun act1 =>
          match handshake act1 with
          | none => .halt none (.detecting session) buf
          | some noise => .go none (.encrypted ⟨none, noise, session⟩) (buf.drop 64)
  | .plain s => (plainTurn handle s buf).map .plain
  | .encrypted s => (encryptedTurn handle 22 C s buf).map .encrypted

/-- `on_read` of a reader that closes when it holds more than `limit` bytes. -/
def onRead (R : Incremental σ UInt8 Frame) (limit : Nat) (h : Held σ UInt8 Frame) (bs : Bytes) :
    Held σ UInt8 Frame :=
  if h.halted then h
  else if h.buf.length + bs.length > limit then { h with buf := [], halted := true }
  else R.feed h bs

/-! ## Sending over an encrypted connection -/

/-- A message that fits a frame. -/
structure Message where
  extType : UInt16
  msgType : UInt8
  payload : Bytes
  fits : payload.length ≤ maxMsgLength

/-- The frame a message arrives as. -/
def Message.frame (m : Message) : Frame := ⟨wrapHeader m.extType m.msgType m.payload, m.payload⟩

/-- The bytes of `ClientSession::send_v2_message`, and the state after it. The
buffer is zero where nothing is encrypted into it. -/
def clientSend (A : Aead Key) (n : NoiseState Key) (m : Message) : Bytes × NoiseState Key :=
  let frame := wrapMessage m.extType m.msgType m.payload
  let header := n.encrypt A (frame.take 6)
  if frame.length > 6 then
    let payload := header.2.encrypt A (frame.drop 6)
    (header.1 ++ payload.1, payload.2)
  else (header.1 ++ List.replicate 16 0, header.2)

/-- The bytes of `Sv2RelaySession::send_sv2`. -/
def relaySend (A : Aead Key) (n : NoiseState Key) (m : Message) : Bytes × NoiseState Key :=
  let frame := wrapMessage m.extType m.msgType m.payload
  let header := n.encrypt A (frame.take 6)
  let payload := header.2.encrypt A (frame.drop 6)
  (header.1 ++ payload.1, payload.2)

end MkPool.Sv2Transport
