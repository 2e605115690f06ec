import MkPool.Address

/-! # `address.cpp`: the decoders of addresses

The functions are those of the source, from `base58_decode` to `decode`. The
SHA-256 of OpenSSL is a parameter, which does not fail, so `Internal` is never
the answer. -/
namespace MkPool.AddressDecode
open MkPool.Lib MkPool.Utils MkPool.Address

/-! ## Base58Check -/

/-- `kBase58Alphabet`. -/
def base58Alphabet : Str := "123456789ABCDEFGHJKLMNPQRSTUVWXYZabcdefghijkmnopqrstuvwxyz".toList

/-- `map[c]`. -/
def base58Digit (c : Char) : Option Nat := base58Alphabet.idxOf? c

/-- The inner loop: `carry` goes through the digits, the least significant first. -/
def base58Carry (carry : Nat) : Bytes → Nat × Bytes
  | [] => (carry, [])
  | b :: b256 =>
    let carry := carry + 58 * b.toNat
    let (out, rest) := base58Carry (carry / 256) b256
    (out, UInt8.ofNat (carry % 256) :: rest)

/-- The loop over the characters. `b256` is the vector of the source, reversed. -/
def base58Digits : Str → Bytes → Except AddressError Bytes
  | [], b256 => .ok b256
  | c :: s, b256 =>
    match base58Digit c with
    | none => .error .badCharacter
    | some digit =>
      let (carry, b256) := base58Carry digit b256
      if carry ≠ 0 then .error .badLength else base58Digits s b256

def base58Decode (s : Str) : Except AddressError Bytes := do
  let zeros := (s.takeWhile (· == '1')).length
  let b256 ← base58Digits (s.drop zeros) (List.replicate (s.length * 733 / 1000 + 1) 0)
  return List.replicate zeros 0 ++ b256.reverse.dropWhile (· == 0)

/-- The first four bytes of the hash of the hash. -/
def base58Checksum (sha256 : Bytes → Hash256) (body : Bytes) : Bytes :=
  (sha256 (sha256 body).bytes).bytes.take 4

def base58checkVerify (sha256 : Bytes → Hash256) (payload : Bytes) : Bool :=
  if payload.length < 5 then false
  else base58Checksum sha256 (payload.take (payload.length - 4)) =
    payload.drop (payload.length - 4)

/-! ## Bech32 and Bech32m -/

def hasUpper (s : Str) : Bool := s.any Char.isUpper

def hasLower (s : Str) : Bool := s.any Char.isLower

/-- `std::tolower` of every character. -/
def lowerCase (s : Str) : Str := s.map Char.toLower

/-- The indices of the characters in a charset. -/
def charsetValues (charset s : Str) : Except AddressError Bytes :=
  s.mapM fun c =>
    match charset.idxOf? c with
    | none => .error .badCharacter
    | some idx => .ok (UInt8.ofNat idx)

/-- `kBech32Charset`. -/
def bech32Charset : Str := "qpzry9x8gf2tvdw0s3jn54khce6mua7l".toList

def bech32Polymod (values : Bytes) : UInt32 :=
  let g : List UInt32 := [0x3b6a57b2, 0x26508e6d, 0x1ea119fa, 0x3d4233dd, 0x2a1462b3]
  values.foldl (fun chk v =>
    let b := chk >>> 25
    (List.range 5).foldl
      (fun chk i => if (b >>> UInt32.ofNat i) &&& 1 ≠ 0 then chk ^^^ g.getD i 0 else chk)
      (((chk &&& 0x1ffffff) <<< 5) ^^^ v.toUInt32)) 1

def bech32HrpExpand (hrp : Str) : Bytes :=
  hrp.map (fun c => UInt8.ofNat c.toNat >>> 5) ++ [0] ++
    hrp.map (fun c => UInt8.ofNat c.toNat &&& 31)

/-- The `encoding` of a decoded text. -/
inductive Encoding where
  | bech32 | bech32m
deriving DecidableEq, Repr

/-- `std::string::rfind`. -/
def rfind (s : Str) (c : Char) : Option Nat := (s.reverse.idxOf? c).map fun i => s.length - 1 - i

/-- The constants `kBech32Const` and `kBech32mConst`. -/
def encodingOf (chk : UInt32) : Except AddressError Encoding :=
  if chk = 1 then .ok .bech32
  else if chk = 0x2bc830a3 then .ok .bech32m
  else .error .badChecksum

def bech32Decode (hrpExpected s : Str) : Except AddressError (Encoding × Bytes) :=
  if hasUpper s && hasLower s then .error .badCharacter
  else
    let lower := lowerCase s
    match rfind lower '1' with
    | none => .error .badLength
    | some pos =>
      if pos < 1 ∨ lower.length < pos + 7 then .error .badLength
      else
        let hrp := lower.take pos
        if hrp ≠ hrpExpected then .error .unknownPrefix
        else do
          let values ← charsetValues bech32Charset (lower.drop (pos + 1))
          let encoding ← encodingOf (bech32Polymod (bech32HrpExpand hrp ++ values))
          return (encoding, values.take (values.length - 6))

/-- `acc`, `bits` and `out` of `convert_bits`. -/
structure Regroup where
  acc : UInt32
  bits : Nat
  out : Bytes

/-- One value of the input. The inner loop runs while there are `toBits` bits. -/
def Regroup.next (fromBits toBits : Nat) (g : Regroup) (v : UInt8) : Regroup :=
  let maxv : UInt32 := (1 <<< UInt32.ofNat toBits) - 1
  let maxa : UInt32 := (1 <<< UInt32.ofNat (fromBits + toBits - 1)) - 1
  let acc := ((g.acc <<< UInt32.ofNat fromBits) ||| v.toUInt32) &&& maxa
  let bits := g.bits + fromBits
  { acc := acc
    bits := bits % toBits
    out := g.out ++ (List.range (bits / toBits)).map fun i =>
      ((acc >>> UInt32.ofNat (bits - (i + 1) * toBits)) &&& maxv).toUInt8 }

def regroup (fromBits toBits : Nat) : Bytes → Regroup → Except AddressError Regroup
  | [], g => .ok g
  | v :: input, g =>
    if v.toNat >>> fromBits ≠ 0 then .error .badCharacter
    else regroup fromBits toBits input (g.next fromBits toBits v)

def convertBits (input : Bytes) (fromBits toBits : Nat) (pad : Bool) :
    Except AddressError Bytes := do
  let g ← regroup fromBits toBits input { acc := 0, bits := 0, out := [] }
  let maxv : UInt32 := (1 <<< UInt32.ofNat toBits) - 1
  let rest := (g.acc <<< UInt32.ofNat (toBits - g.bits)) &&& maxv
  if pad then
    return if g.bits ≠ 0 then g.out ++ [rest.toUInt8] else g.out
  else if fromBits ≤ g.bits ∨ rest ≠ 0 then .error .badLength
  else return g.out

structure SegwitInfo where
  version : Nat
  program : Bytes
  encoding : Encoding

def segwitDecode (hrp s : Str) : Except AddressError SegwitInfo := do
  let (enc, data) ← bech32Decode hrp s
  match data with
  | [] => .error .badLength
  | version :: rest =>
    let version := version.toNat
    if 16 < version then .error .unsupportedVersion
    else do
      let prog ← convertBits rest 5 8 false
      if prog.length < 2 ∨ 40 < prog.length then .error .badLength
      else if version = 0 ∧ prog.length ≠ 20 ∧ prog.length ≠ 32 then .error .badLength
      else if (version = 0 ∧ enc ≠ .bech32) ∨ (1 ≤ version ∧ enc ≠ .bech32m) then
        .error .badChecksum
      else return { version := version, program := prog, encoding := enc }

/-! ## CashAddr -/

/-- `kCashCharset`. -/
def cashCharset : Str := "qpzry9x8gf2tvdw0s3jn54khce6mua7l".toList

def cashaddrPolymod (v : Bytes) : UInt64 :=
  let g : List UInt64 := [0x98f2bc8e61, 0x79b76d99e2, 0xf33e5fb3c4, 0xae2eabe2a8, 0x1e4f43e470]
  let c : UInt64 := v.foldl (fun c d =>
    let c0 := (c >>> 35).toUInt8
    (List.range 5).foldl
      (fun c i => if (c0 >>> UInt8.ofNat i) &&& 1 ≠ 0 then c ^^^ g.getD i 0 else c)
      (((c &&& 0x07ffffffff) <<< 5) ^^^ d.toUInt64)) 1
  c ^^^ 1

def cashaddrExpandPrefix (hrp : Str) : Bytes :=
  hrp.map (fun c => UInt8.ofNat c.toNat &&& 0x1f) ++ [0]

theorem sizeMap_fits (b : UInt8) :
    (List.range 8).any (fun i => sizeMap (b &&& 7).toNat / 8 = sizeMap i / 8) = true := by
  have hlt : (b &&& 7).toNat < 8 := by
    rw [UInt8.toNat_and]
    exact Nat.lt_of_le_of_lt Nat.and_le_right (by decide)
  rw [List.any_eq_true]
  exact ⟨_, List.mem_range.mpr hlt, decide_eq_true rfl⟩

/-- What `cashaddr_decode` returns. The length of the hash is one of the map. -/
structure CashDecoded where
  hrp : Str
  type : UInt8
  hash : Bytes
  size : (List.range 8).any (fun i => hash.length = sizeMap i / 8) = true

/-- The part before the colon, with `bitcoincash` for a text without one. -/
def cashParts (s : Str) : Str × Str :=
  match s.idxOf? ':' with
  | some colon => (s.take colon, s.drop (colon + 1))
  | none => ("bitcoincash".toList, s)

def cashaddrDecode (s : Str) : Except AddressError CashDecoded :=
  let (hrp, payload) := cashParts s
  if hasUpper payload && hasLower payload then .error .badCharacter
  else do
    let hrp := lowerCase hrp
    let values ← charsetValues cashCharset (lowerCase payload)
    if values.length < 8 then .error .badLength
    else if cashaddrPolymod (cashaddrExpandPrefix hrp ++ values) ≠ 0 then .error .badChecksum
    else do
      let bytes ← convertBits (values.take (values.length - 8)) 5 8 false
      match bytes with
      | [] => .error .badLength
      | version :: hash =>
        if h : hash.length = sizeMap (version &&& 7).toNat / 8 then
          return { hrp := hrp, type := (version >>> 3) &&& 0x1f, hash := hash
                   size := h ▸ sizeMap_fits version }
        else .error .badLength

/-! ## The addresses -/

/-- The networks of the CashAddr prefixes. -/
def cashNetwork (hrp : Str) : Option Network :=
  if hrp = "bitcoincash".toList ∨ hrp = "ecash".toList ∨ hrp = "bitcoincashii".toList then
    some .bchMainnet
  else if hrp = "bchtest".toList ∨ hrp = "ectest".toList then some .bchTestnet
  else if hrp = "bchreg".toList ∨ hrp = "ecreg".toList then some .bchRegtest
  else none

def fromCash (cad : CashDecoded) : Except AddressError Decoded :=
  match cashNetwork cad.hrp with
  | none => .error .unsupportedNetwork
  | some network =>
    if cad.type = 0 then
      .ok { type := .bchP2pkh, network := network, program := cad.hash, size := cad.size }
    else .ok { type := .bchP2sh, network := network, program := cad.hash, size := cad.size }

/-- Without a colon, a text that begins with `q`, `p` or `r` may be a CashAddr. -/
def prefixlessCash (addr : Str) : Bool :=
  match addr with
  | [] => false
  | first :: _ => first.toLower = 'q' || first.toLower = 'p' || first.toLower = 'r'

/-- The answer of the CashAddr branch, when it has one. -/
def tryCash (addr : Str) : Option (Except AddressError Decoded) :=
  let colon := addr.contains ':'
  if colon || prefixlessCash addr then
    match cashaddrDecode addr with
    | .ok cad => some (fromCash cad)
    | .error e => if colon then some (.error e) else none
  else none

def fromSegwit (net : Network) (sw : SegwitInfo) : Option Decoded :=
  if h : sw.version = 0 ∧ sw.program.length = 20 then
    some { type := .p2wpkh, network := net, program := sw.program, size := decide_eq_true h.2 }
  else if h : sw.version = 0 ∧ sw.program.length = 32 then
    some { type := .p2wsh, network := net, program := sw.program, size := decide_eq_true h.2 }
  else if h : sw.version = 1 ∧ sw.program.length = 32 then
    some { type := .p2tr, network := net, program := sw.program, size := decide_eq_true h.2 }
  else none

/-- The test on the first characters that comes before the decoder. -/
def looksBech (addr hrp : Str) : Bool :=
  let char (s : Str) (i : Nat) : Char := s.getD i '\x00'
  hrp.length + 1 < addr.length && (char addr 0).toLower = char hrp 0 &&
    (char addr 1).toLower = (if 1 < hrp.length then char hrp 1 else '\x00') &&
    (char addr hrp.length = '1' ||
      (3 ≤ hrp.length && hrp.length < addr.length && (char addr 2).toLower = char hrp 2))

def tryBech (addr hrp : Str) (net : Network) : Option Decoded :=
  if looksBech addr hrp then
    match segwitDecode hrp addr with
    | .error _ => none
    | .ok sw => fromSegwit net sw
  else none

/-- The prefixes, in the order they are tried. -/
def bechPrefixes : List (Str × Network) :=
  [("bc".toList, .bitcoinMainnet), ("tb".toList, .bitcoinTestnet),
    ("bcrt".toList, .bitcoinRegtest), ("ltc".toList, .bitcoinMainnet),
    ("tltc".toList, .bitcoinTestnet), ("dgb".toList, .bitcoinMainnet),
    ("dgbt".toList, .bitcoinTestnet), ("tdgb".toList, .bitcoinTestnet)]

/-- The Zcash versions, of two bytes. -/
def zcashVersion (version : Nat) : Option (AddressType × Network) :=
  if version = 0x1cb8 then some (.p2pkh, .bitcoinMainnet)
  else if version = 0x1cbd then some (.p2sh, .bitcoinMainnet)
  else if version = 0x1d25 then some (.p2pkh, .bitcoinTestnet)
  else if version = 0x1cba then some (.p2sh, .bitcoinTestnet)
  else none

/-- The versions of one byte. -/
def base58Version (version : Nat) : Option (AddressType × Network) :=
  if version = 0x00 then some (.p2pkh, .bitcoinMainnet)
  else if version = 0x05 then some (.p2sh, .bitcoinMainnet)
  else if version = 0x6f then some (.p2pkh, .bitcoinTestnet)
  else if version = 0xc4 then some (.p2sh, .bitcoinTestnet)
  else if version = 0x30 then some (.p2pkh, .bitcoinMainnet)
  else if version = 0x32 then some (.p2sh, .bitcoinMainnet)
  else if version = 0x3a then some (.p2sh, .bitcoinTestnet)
  else if version = 0x1e then some (.p2pkh, .bitcoinMainnet)
  else if version = 0x16 then some (.p2sh, .bitcoinMainnet)
  else if version = 0x71 then some (.p2pkh, .bitcoinTestnet)
  else if version = 0x3f then some (.p2sh, .bitcoinMainnet)
  else if version = 0x7e then some (.p2pkh, .bitcoinTestnet)
  else if version = 0x8c then some (.p2sh, .bitcoinTestnet)
  else none

/-- The program between the version and the checksum, with its type. -/
def fromVersion (found : Option (AddressType × Network)) (body : Bytes)
    (size : body.length = 20) : Except AddressError Decoded :=
  match found with
  | some (.p2pkh, net) =>
    .ok { type := .p2pkh, network := net, program := body, size := decide_eq_true size }
  | some (.p2sh, net) =>
    .ok { type := .p2sh, network := net, program := body, size := decide_eq_true size }
  | _ => .error .unsupportedVersion

def fromBase58 (sha256 : Bytes → Hash256) (raw : Bytes) : Except AddressError Decoded :=
  if raw.length < 5 then .error .badLength
  else if base58checkVerify sha256 raw = false then .error .badChecksum
  else if raw.length = 26 then
    let version := (raw.getD 0 0).toNat * 256 + (raw.getD 1 0).toNat
    let body := (raw.take (raw.length - 4)).drop 2
    if h : body.length = 20 then fromVersion (zcashVersion version) body h else .error .badLength
  else
    let version := (raw.getD 0 0).toNat
    let body := (raw.take (raw.length - 4)).drop 1
    if h : body.length = 20 then fromVersion (base58Version version) body h
    else .error .badLength

/-- `decode_impl`. -/
def decodeImpl (sha256 : Bytes → Hash256) (addr : Str) : Except AddressError Decoded :=
  if addr.isEmpty then .error .empty
  else if 128 < addr.length then .error .badLength
  else
    match tryCash addr with
    | some answer => answer
    | none =>
      match bechPrefixes.findSome? fun (hrp, net) => tryBech addr hrp net with
      | some d => .ok d
      | none =>
        match base58Decode addr with
        | .ok raw => fromBase58 sha256 raw
        | .error _ => .error .unknownPrefix

def decode (sha256 : Bytes → Hash256) : Decoder := decodeImpl sha256

end MkPool.AddressDecode
