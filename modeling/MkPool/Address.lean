import MkPool.Utils

/-! # `address.hpp`: decoded addresses and their output scripts

The decoders reject a program of a length that does not go with its type, so a
`Decoded` carries that it does. -/
namespace MkPool.Address
open MkPool.Lib MkPool.Utils

/-- `address::Type`. -/
inductive AddressType where
  | p2pkh | p2sh | p2wpkh | p2wsh | p2tr | bchP2pkh | bchP2sh
deriving DecidableEq, Repr

/-- `address::Network`. -/
inductive Network where
  | bitcoinMainnet | bitcoinTestnet | bitcoinSignet | bitcoinRegtest | bchMainnet | bchTestnet
  | bchRegtest
deriving DecidableEq, Repr

/-- `kSizeMap`: the bits of a CashAddr hash for the size field of its version. -/
def sizeMap (sizeBits : Nat) : Nat := [160, 192, 224, 256, 320, 384, 448, 512].getD sizeBits 0

/-- The lengths of a program that go with the type. -/
def AddressType.fits (n : Nat) : AddressType → Bool
  | .p2pkh | .p2sh | .p2wpkh => n = 20
  | .p2wsh | .p2tr => n = 32
  | .bchP2pkh | .bchP2sh => (List.range 8).any fun i => n = sizeMap i / 8

/-- `address::Error`. -/
inductive AddressError where
  | empty | unknownPrefix | badLength | badChecksum | badCharacter | unsupportedVersion
  | unsupportedNetwork | internal
deriving DecidableEq, Repr

def errorToString : AddressError → Str
  | .empty => "empty".toList
  | .unknownPrefix => "unknown prefix".toList
  | .badLength => "bad length".toList
  | .badChecksum => "bad checksum".toList
  | .badCharacter => "bad character".toList
  | .unsupportedVersion => "unsupported version".toList
  | .unsupportedNetwork => "unsupported network".toList
  | .internal => "internal decoder error".toList

/-- An address that was decoded. -/
structure Decoded where
  type : AddressType
  network : Network
  program : Bytes
  size : type.fits program.length = true

/-- `address::decode`. -/
abbrev Decoder := Str → Except AddressError Decoded

/-- The bytes of the output script. -/
def Decoded.script (d : Decoded) : Bytes :=
  match d.type with
  | .p2pkh | .bchP2pkh => [0x76, 0xa9, 0x14] ++ d.program ++ [0x88, 0xac]
  | .p2sh | .bchP2sh => [0xa9, 0x14] ++ d.program ++ [0x87]
  | .p2wpkh => [0x00, 0x14] ++ d.program
  | .p2wsh => [0x00, 0x20] ++ d.program
  | .p2tr => [0x51, 0x20] ++ d.program

def scriptPubkeyHex (d : Decoded) : Str :=
  match d.type with
  | .p2pkh | .bchP2pkh => "76a914".toList ++ bytesToHex d.program ++ "88ac".toList
  | .p2sh | .bchP2sh => "a914".toList ++ bytesToHex d.program ++ "87".toList
  | .p2wpkh => "0014".toList ++ bytesToHex d.program
  | .p2wsh => "0020".toList ++ bytesToHex d.program
  | .p2tr => "5120".toList ++ bytesToHex d.program

/-- The hex the code writes is that of the script. -/
theorem scriptPubkeyHex_eq (d : Decoded) : scriptPubkeyHex d = bytesToHex d.script := by
  obtain ⟨type, network, program, size⟩ := d
  cases type <;>
    simp only [scriptPubkeyHex, Decoded.script, bytesToHex, Hex.encode_append] <;> rfl

/-- A program has between 20 and 64 bytes. -/
theorem AddressType.bounds_of_fits {n : Nat} {type : AddressType} (h : type.fits n = true) :
    20 ≤ n ∧ n ≤ 64 := by
  cases type <;>
    simp only [fits, decide_eq_true_eq, List.any_eq_true, List.mem_range] at h
  case bchP2pkh | bchP2sh =>
    obtain ⟨i, hi, rfl⟩ := h
    revert i
    decide
  all_goals omega

theorem Decoded.script_length (d : Decoded) :
    22 ≤ d.script.length ∧ d.script.length ≤ 69 := by
  obtain ⟨type, network, program, size⟩ := d
  have hbounds := AddressType.bounds_of_fits size
  cases type <;> simp [Decoded.script] <;> omega

/-- `if (auto d = address::decode(addr)) … script_pubkey_hex(*d)`. -/
def decodeToScriptHex (decode : Decoder) (addr : Str) : Option Str :=
  match decode addr with
  | .ok d => some (scriptPubkeyHex d)
  | .error _ => none

end MkPool.Address
