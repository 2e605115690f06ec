import MkPool.Lib.Wire
import MkPool.Utils

/-! # `sv2_noise.cpp`: the transport state of an encrypted connection

The cipher is ChaCha20-Poly1305 of the crypto library: a parameter. Its nonce is
four zero bytes and the message counter, low byte first. -/
namespace MkPool.Noise
open MkPool.Lib.Wire MkPool.Utils

/-- A decryption that takes the 16 bytes of the tag off. -/
structure Cipher (Key : Type) where
  decrypt : Key → Bytes → Bytes → Option Bytes
  length_decrypt : ∀ {k nonce c p}, decrypt k nonce c = some p → c.length = p.length + 16

/-- Decryption succeeds on what was encrypted under the same key and nonce, and
on nothing else. -/
structure Aead (Key : Type) extends Cipher Key where
  encrypt : Key → Bytes → Bytes → Bytes
  decrypt_iff : ∀ {k nonce c p}, decrypt k nonce c = some p ↔ encrypt k nonce p = c

theorem Aead.decrypt_encrypt {Key : Type} (A : Aead Key) (k : Key) (nonce p : Bytes) :
    A.decrypt k nonce (A.encrypt k nonce p) = some p :=
  A.decrypt_iff.mpr rfl

theorem Aead.length_encrypt {Key : Type} (A : Aead Key) (k : Key) (nonce p : Bytes) :
    (A.encrypt k nonce p).length = p.length + 16 :=
  A.length_decrypt (A.decrypt_encrypt k nonce p)

/-- `NoiseState` after the handshake. The counters are 64 bits wide. -/
structure NoiseState (Key : Type) where
  rxKey : Key
  txKey : Key
  rxNonce : UInt64
  txNonce : UInt64
deriving DecidableEq

/-- The nonce of a message. -/
def nonceBytes (counter : UInt64) : Bytes := [0, 0, 0, 0] ++ leBytes 8 counter.toNat

variable {Key : Type}

/-- `decrypt`: the plaintext and the state after it, or nothing. -/
def NoiseState.decrypt (C : Cipher Key) (n : NoiseState Key) (ciphertext : Bytes) :
    Option (Bytes × NoiseState Key) :=
  if ciphertext.length < 16 then none
  else
    match C.decrypt n.rxKey (nonceBytes n.rxNonce) ciphertext with
    | some plaintext => some (plaintext, { n with rxNonce := n.rxNonce + 1 })
    | none => none

def NoiseState.encrypt (A : Aead Key) (n : NoiseState Key) (plaintext : Bytes) :
    Bytes × NoiseState Key :=
  (A.encrypt n.txKey (nonceBytes n.txNonce) plaintext, { n with txNonce := n.txNonce + 1 })

theorem length_decrypt {C : Cipher Key} {n n' : NoiseState Key} {c p : Bytes}
    (h : n.decrypt C c = some (p, n')) : c.length = p.length + 16 := by
  unfold NoiseState.decrypt at h
  split at h
  · cases h
  · split at h
    · rename_i plaintext hplain
      cases h
      exact C.length_decrypt hplain
    · cases h

end MkPool.Noise
