import MkPool.Noise

/-! # `sv2_noise.cpp`: the handshake

The responder of `Noise_NX_Secp256k1+EllSwift_ChaChaPoly_SHA256`, over the
operations of the two crypto libraries. What those promise is in `Crypto`: a
secret key either is one for all of them or for none, and an encoding of 64
bytes always is one of a point. -/
namespace MkPool.NoiseHandshake
open MkPool.Lib.Wire MkPool.Utils MkPool.Noise

/-! ## The libraries -/

/-- `libsodium` and `libsecp256k1`, as far as the handshake calls them. -/
structure Crypto where
  sha256 : Bytes → Bytes
  hmacSha256 : (key data : Bytes) → Bytes
  /-- The AEAD under the nonce zero. -/
  encrypt : (key ad plaintext : Bytes) → Bytes
  /-- `ec_pubkey_create` and the parity of what it gives: nothing when the
  secret is not valid. -/
  parity : Bytes → Option Bool
  negate : Bytes → Option Bytes
  ellswiftCreate : (secret aux : Bytes) → Option Bytes
  ellswiftXdh : (a b secret : Bytes) → Option Bytes
  /-- `ellswift_decode` and the serialized x-only key: they always succeed. -/
  xonly : Bytes → Bytes
  /-- `keypair_create` and `schnorrsig_sign32`. -/
  sign : (secret msg aux : Bytes) → Option Bytes
  length_encrypt : ∀ {k ad p}, (encrypt k ad p).length = p.length + 16
  parity_negate : ∀ {k k'}, negate k = some k' → (parity k').isSome
  create_valid : ∀ {k aux}, (ellswiftCreate k aux).isSome ↔ (parity k).isSome
  length_create : ∀ {k aux e}, ellswiftCreate k aux = some e → e.length = 64
  xdh_valid : ∀ {a b k}, (ellswiftXdh a b k).isSome ↔ (parity k).isSome
  sign_valid : ∀ {k m aux}, (sign k m aux).isSome ↔ (parity k).isSome
  length_sign : ∀ {k m aux sig}, sign k m aux = some sig → sig.length = 64

variable (L : Crypto)

/-- The loop over `randombytes_buf`: candidates are drawn until one is a valid
secret, which is negated when its point is odd. -/
def drawKey : List Bytes → Option Bytes
  | [] => none
  | candidate :: rest =>
    match L.parity candidate with
    | none => drawKey rest
    | some false => some candidate
    | some true =>
      match L.negate candidate with
      | none => drawKey rest
      | some key => some key

/-- What a handshake draws. Both of its loops come to an end. -/
structure Entropy where
  staticDraws : List Bytes
  staticAux : Bytes
  ephemeralDraws : List Bytes
  ephemeralAux : Bytes
  sigAux : Bytes
  static_ends : (drawKey L staticDraws).isSome
  ephemeral_ends : (drawKey L ephemeralDraws).isSome

/-! ## `NoiseState` -/

/-- `std::strtol(s, &end, 16)` of a text: the value, and what is left at `end`.
Without a digit nothing is taken. -/
def strtol16 (s : Str) : Int × Str :=
  let t := s.dropWhile isSpace
  let neg := t.head? = some '-'
  let t := if t.head? = some '-' ∨ t.head? = some '+' then t.tail else t
  let t := match t with
    | '0' :: x :: d :: rest => if (x = 'x' ∨ x = 'X') ∧ isHexDigit d then d :: rest else t
    | _ => t
  let ds := t.takeWhile isHexDigit
  let v : Nat := ds.foldl (fun acc c => 16 * acc + (Lib.Hex.nibble c).getD 0) 0
  if ds.isEmpty then (0, s) else (if neg then -v else v, t.drop ds.length)

/-- The file's own `hex_to_bytes`: two characters at a time, up to a zero. -/
def keyBytes : Str → Option Bytes
  | [] => some []
  | a :: b :: rest =>
    let (value, left) := strtol16 ([a, b].takeWhile (· ≠ '\x00'))
    if left.isEmpty then (keyBytes rest).map (UInt8.ofInt value :: ·) else none
  | [_] => none

/-- The state before the transport keys are there. -/
structure Handshake where
  ck : Bytes
  h : Bytes
  authorityPriv : Bytes
  sPrivB : Bytes
  sPubB : Bytes
  ePubA : Bytes := List.replicate 64 0

def protoName : Bytes :=
  "Noise_NX_Secp256k1+EllSwift_ChaChaPoly_SHA256".toList.map fun c => UInt8.ofNat c.toNat

variable {L}

def noiseInitialize (keyHex : Str) (E : Entropy L) : Option Handshake :=
  if keyHex.length ≠ 64 then none
  else do
    let authorityPriv ← keyBytes keyHex
    let sPrivB ← drawKey L E.staticDraws
    let sPubB ← L.ellswiftCreate sPrivB E.staticAux
    let ck := L.sha256 protoName
    return { ck, h := L.sha256 ck, authorityPriv, sPrivB, sPubB }

variable (L)

def mixHash (s : Handshake) (data : Bytes) : Handshake := { s with h := L.sha256 (s.h ++ data) }

/-- `mix_key`: the state, and the key it puts out. -/
def mixKey (s : Handshake) (inputKeyMaterial : Bytes) : Handshake × Bytes :=
  let prk := L.hmacSha256 s.ck inputKeyMaterial
  let ck := L.hmacSha256 prk [1]
  ({ s with ck }, L.hmacSha256 prk (ck ++ [2]))

/-- `process_act1`, which always returns true. -/
def processAct1 (s : Handshake) (clientEllswift : Bytes) : Handshake :=
  mixHash L (mixHash L { s with ePubA := clientEllswift } clientEllswift) []

/-- The certificate before it is signed: version, and from when to when. -/
def certificate (nowS : UInt32) : Bytes :=
  [0, 0] ++ leBytes 4 (nowS - 3600).toNat ++ leBytes 4 (nowS + 365 * 24 * 3600).toNat

variable {L}

/-- `generate_act2`: the reply and the transport state. Where it is nothing, the
function throws. -/
def generateAct2 (s : Handshake) (E : Entropy L) (nowS : UInt32) :
    Option (Bytes × NoiseState Bytes) := do
  let ePrivB ← drawKey L E.ephemeralDraws
  let ePubB ← L.ellswiftCreate ePrivB E.ephemeralAux
  let s := mixHash L s ePubB
  let eeSecret ← L.ellswiftXdh s.ePubA ePubB ePrivB
  let (s, tempK1) := mixKey L s eeSecret
  let cS := L.encrypt tempK1 s.h s.sPubB
  let s := mixHash L s cS
  let esSecret ← L.ellswiftXdh s.ePubA s.sPubB s.sPrivB
  let (s, tempK2) := mixKey L s esSecret
  let msgHash := L.sha256 (certificate nowS ++ L.xonly s.sPubB)
  let schnorrSig ← L.sign s.authorityPriv msgHash E.sigAux
  let cSig := L.encrypt tempK2 s.h (certificate nowS ++ schnorrSig)
  let s := mixHash L s cSig
  let prk := L.hmacSha256 s.ck []
  let rxKey := L.hmacSha256 prk [1]
  let txKey := L.hmacSha256 prk (rxKey ++ [2])
  return (ePubB ++ cS ++ cSig, { rxKey, txKey, rxNonce := 0, txNonce := 0 })

/-- What a session does with the 64 bytes of an Act 1. -/
def respond (keyHex : Str) (E : Entropy L) (nowS : UInt32) (act1 : Bytes) :
    Option (Bytes × NoiseState Bytes) := do
  let s ← noiseInitialize keyHex E
  generateAct2 (processAct1 L s act1) E nowS

/-! ## When it succeeds -/

/-- A secret key of the curve. -/
def Valid (L : Crypto) (key : Bytes) : Prop := (L.parity key).isSome

/-- The text of an authority key that can sign. -/
def UsableKey (L : Crypto) (keyHex : Str) : Prop :=
  keyHex.length = 64 ∧ ∃ key, keyBytes keyHex = some key ∧ Valid L key

theorem valid_of_drawKey {draws : List Bytes} {key : Bytes} (h : drawKey L draws = some key) :
    Valid L key := by
  induction draws with
  | nil => cases h
  | cons candidate rest ih =>
    rw [drawKey] at h
    split at h
    · exact ih h
    · rename_i heven
      cases h
      rw [Valid, heven]
      rfl
    · split at h
      · exact ih h
      · rename_i hkey
        cases h
        exact L.parity_negate hkey

theorem initialize_spec {keyHex : Str} (E : Entropy L) :
    (UsableKey L keyHex → ∃ s, noiseInitialize keyHex E = some s) ∧
      ∀ s, noiseInitialize keyHex E = some s →
        keyHex.length = 64 ∧ keyBytes keyHex = some s.authorityPriv ∧ Valid L s.sPrivB ∧
          s.sPubB.length = 64 := by
  obtain ⟨key, hkey⟩ := Option.isSome_iff_exists.mp E.static_ends
  have hvalid := valid_of_drawKey hkey
  have hcreated : (L.ellswiftCreate key E.staticAux).isSome := L.create_valid.mpr hvalid
  obtain ⟨pub, hpub⟩ := Option.isSome_iff_exists.mp hcreated
  have hsize := L.length_create hpub
  unfold noiseInitialize
  constructor
  · rintro ⟨hlen, authority, hauthority, _⟩
    rw [if_neg (by omega), hauthority, hkey]
    simp [hpub]
  · intro s hs
    split at hs
    · cases hs
    · rename_i hlen
      obtain ⟨authority, hauthority, hs⟩ := Option.bind_eq_some_iff.mp hs
      rw [hkey] at hs
      simp only [Option.bind_eq_bind, Option.bind_some, hpub] at hs
      cases hs
      exact ⟨by omega, hauthority, hvalid, hsize⟩

/-- Act 2 fails exactly where the authority cannot sign, whatever key came. -/
theorem generateAct2_spec {s : Handshake} (hs : Valid L s.sPrivB) (hsize : s.sPubB.length = 64)
    (E : Entropy L) (nowS : UInt32) :
    ((generateAct2 s E nowS).isSome ↔ Valid L s.authorityPriv) ∧
      ∀ act2 noise, generateAct2 s E nowS = some (act2, noise) → act2.length = 234 := by
  obtain ⟨key, hkey⟩ := Option.isSome_iff_exists.mp E.ephemeral_ends
  have hvalid := valid_of_drawKey hkey
  have hcreated : (L.ellswiftCreate key E.ephemeralAux).isSome := L.create_valid.mpr hvalid
  obtain ⟨pub, hpub⟩ := Option.isSome_iff_exists.mp hcreated
  have hpubsize := L.length_create hpub
  have hee (a b : Bytes) : ∃ x, L.ellswiftXdh a b key = some x :=
    Option.isSome_iff_exists.mp (L.xdh_valid.mpr hvalid)
  have hes (a b : Bytes) : ∃ x, L.ellswiftXdh a b s.sPrivB = some x :=
    Option.isSome_iff_exists.mp (L.xdh_valid.mpr hs)
  obtain ⟨ee, hee⟩ := hee s.ePubA pub
  obtain ⟨es, hes⟩ := hes s.ePubA s.sPubB
  unfold generateAct2
  simp only [hkey, hpub, Option.bind_eq_bind, Option.bind_some, mixHash, mixKey, hee, hes]
  constructor
  · have hsign := @L.sign_valid s.authorityPriv
      (L.sha256 (certificate nowS ++ L.xonly s.sPubB)) E.sigAux
    rw [Valid, ← hsign, Option.isSome_bind]
    simp
  · intro act2 noise h
    obtain ⟨sig, hsig, h⟩ := Option.bind_eq_some_iff.mp h
    cases h
    have hsigsize := L.length_sign hsig
    simp [L.length_encrypt, hpubsize, hsize, hsigsize, certificate]

/-- **Act 1 needs an authority key and nothing else.** -/
theorem respond_spec (keyHex : Str) (E : Entropy L) (nowS : UInt32) (act1 : Bytes) :
    ((respond keyHex E nowS act1).isSome ↔ UsableKey L keyHex) ∧
      ∀ act2 noise, respond keyHex E nowS act1 = some (act2, noise) → act2.length = 234 := by
  obtain ⟨hstarts, hinit⟩ := @initialize_spec L keyHex E
  have hresult (s : Handshake) (hs : noiseInitialize keyHex E = some s) :=
    generateAct2_spec (s := processAct1 L s act1) (hinit s hs).2.2.1 (hinit s hs).2.2.2 E nowS
  unfold respond
  cases hs : noiseInitialize keyHex E with
  | none =>
    refine ⟨⟨fun h => (by cases h), fun h => ?_⟩, fun _ _ h => (by cases h)⟩
    obtain ⟨s, hsome⟩ := hstarts h
    rw [hs] at hsome
    cases hsome
  | some s =>
    obtain ⟨hlen, hkey, _⟩ := hinit s hs
    refine ⟨(hresult s hs).1.trans ⟨fun h => ⟨hlen, _, hkey, h⟩, ?_⟩, (hresult s hs).2⟩
    rintro ⟨_, key, hkey', hvalid⟩
    obtain rfl := Option.some.inj (hkey.symm.trans hkey')
    exact hvalid

end MkPool.NoiseHandshake
