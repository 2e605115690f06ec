import MkPool.CoinbaseLayout
import MkPool.Lib.Blocks

/-! # Blocks as they are put together

A header is six texts one after the other, and a block is a header, a number of
transactions and their texts. Here they are read as the blocks they spell. -/
namespace MkPool.BlockText
open MkPool.Lib MkPool.Lib.Transaction MkPool.Lib.Blocks MkPool.Utils MkPool.Coinbase
open MkPool.CoinbaseLayout

/-! ## Headers -/

/-- The front of a text that is read, by its length. -/
theorem read_front {s rest : Str} {cs : Bytes} {n : Nat} (h : hexToBytes (s ++ rest) = some cs)
    (hn : s.length = 2 * n) : ∃ as bs, hexToBytes s = some as ∧ hexToBytes rest = some bs ∧
      cs = as ++ bs ∧ as.length = n := by
  obtain ⟨as, bs, hs, hrest, rfl⟩ := Hex.decode_of_append h ⟨n, hn⟩
  have hlen := Hex.length_of_decode hs
  exact ⟨as, bs, hs, hrest, rfl, by omega⟩

/-- **A header's text.** Six texts of the right lengths are a header with the
root that stands third. -/
theorem header_read {version prevhash root ntime bits nonce : Str} {bs : Bytes}
    (h : hexToBytes (buildBlockHeader version prevhash root ntime bits nonce) = some bs)
    (hversion : version.length = 8) (hprev : prevhash.length = 64) (hroot : root.length = 64)
    (hntime : ntime.length = 8) (hbits : bits.length = 8) (hnonce : nonce.length = 8) :
    ∃ hd, header.Fits hd ∧ header.write hd = bs ∧ hexToBytes root = some hd.root := by
  simp only [buildBlockHeader, List.append_assoc] at h
  obtain ⟨v, _, _, h₁, rfl, hv⟩ := read_front (n := 4) h hversion
  obtain ⟨p, _, _, h₂, rfl, hp⟩ := read_front (n := 32) h₁ hprev
  obtain ⟨r, _, hr, h₃, rfl, hlr⟩ := read_front (n := 32) h₂ hroot
  obtain ⟨t, _, _, h₄, rfl, ht⟩ := read_front (n := 4) h₃ hntime
  obtain ⟨b, n, _, h₅, rfl, hb⟩ := read_front (n := 4) h₄ hbits
  have hn := Hex.length_of_decode h₅
  obtain ⟨hd, hfits, hdroot, hwrite⟩ :=
    header_of_fields hv hp hlr ht hb (by omega : n.length = 4)
  exact ⟨hd, hfits, hwrite, by rw [hdroot]; exact hr⟩

theorem length_byteReverseHex (s : Str) : (byteReverseHex s).length = s.length := by
  unfold byteReverseHex
  split
  · exact Hex.length_reversePairs s
  · rename_i hodd
    rw [List.length_append, Hex.length_reversePairs, List.length_dropLast, List.length_singleton]
    omega

theorem length_leHexU32 (v : UInt32) : (leHexU32 v).length = 8 := by
  rw [leHexU32_eq, bytesToHex, Hex.length_encode, Wire.length_leBytes]

/-! ## Witnesses -/

/-- The witness of a coinbase: one value of 32 zero bytes. -/
def reservedValue : List (List Bytes) := [[List.replicate 32 0]]

theorem fits_reservedValue {t : Tx} (h : tx.Fits t) (hone : t.inputs.length = 1) :
    witnessTx.Fits ⟨t, some reservedValue⟩ := by
  refine fits_marked h hone.symm fun s hs => ?_
  rw [List.mem_singleton.mp hs]
  refine Codec.fits_counted.mpr ⟨by decide, fun v hv => ?_⟩
  rw [List.mem_singleton.mp hv]
  exact Codec.fits_blob.mpr (by decide)

/-- **The witness form of a coinbase.** -/
theorem segwitify_read {cbHex : Str} {t : Tx} (h : hexToBytes cbHex = some (tx.write t)) :
    hexToBytes (segwitifyCoinbase cbHex) = some (witnessTx.write ⟨t, some reservedValue⟩) := by
  let body := txIn.counted.write t.inputs ++ txOut.counted.write t.outputs
  have hwrite : tx.write t = Wire.leBytes 4 t.version ++ (body ++ Wire.leBytes 4 t.lockTime) := by
    simp only [write_tx, body, Codec.write_counted, List.append_assoc]
  have hlen := Hex.length_of_decode h
  rw [hwrite] at h hlen
  simp only [List.length_append, Wire.length_leBytes] at hlen
  -- The text is the version, what is between, and the lock time.
  have hsplit : cbHex = cbHex.take 8 ++ ((cbHex.drop 8).take (cbHex.length - 8 - 8)
      ++ cbHex.drop (cbHex.length - 8)) := by
    have hback : cbHex.drop (cbHex.length - 8) = (cbHex.drop 8).drop (cbHex.length - 8 - 8) := by
      rw [List.drop_drop]
      congr 1
      omega
    rw [hback, List.take_append_drop, List.take_append_drop]
  rw [hsplit] at h
  obtain ⟨v, _, hv, h₁, hbytes, hlv⟩ := read_front (n := 4) h (by rw [List.length_take]; omega)
  obtain ⟨b, l, hb, hl, rfl, hlb⟩ := read_front (n := body.length) h₁ (by
    rw [List.length_take, List.length_drop]
    omega)
  obtain ⟨rfl, hbody⟩ := List.append_inj hbytes (by rw [hlv, Wire.length_leBytes])
  obtain ⟨rfl, rfl⟩ := List.append_inj hbody hlb.symm
  have hmark : hexToBytes "0001".toList = some [0, 1] := by decide
  have hvalue : hexToBytes ("01".toList ++ "20".toList ++ List.replicate 64 '0') =
      some (reservedValue.flatMap Codec.blob.counted.write) := by decide
  have hread := hexToBytes_append hv (hexToBytes_append hmark (hexToBytes_append hb
    (hexToBytes_append hvalue hl)))
  unfold segwitifyCoinbase
  rw [if_neg (by omega), write_marked]
  simpa only [body, List.append_assoc] using hread

/-! ## Blocks -/

theorem varint_read {n : Nat} (h : n < 2 ^ 64) :
    hexToBytes (encodeVarint (UInt64.ofNat n)) = some (Codec.compact.write n) := by
  have hv : (UInt64.ofNat n).toNat = n := UInt64.toNat_ofNat_of_lt' h
  have mark (m : String) (b : UInt8) (k : Nat) (hm : hexToBytes m.toList = some [b]) :
      hexToBytes (m.toList ++ bytesToHex (Wire.leBytes k n)) = some (b :: Wire.leBytes k n) :=
    hexToBytes_append hm (hexToBytes_bytesToHex _)
  show _ = some (Codec.writeCompact n)
  unfold encodeVarint Codec.writeCompact
  simp only [UInt64.lt_iff_toNat_lt, UInt64.le_iff_toNat_le, hv]
  have h₁ : (0xfd : UInt64).toNat = 0xfd := rfl
  have h₂ : (0xffff : UInt64).toNat = 0xffff := rfl
  have h₃ : (0xffffffff : UInt64).toNat = 0xffffffff := rfl
  rw [h₁, h₂, h₃]
  split
  · exact hexToBytes_bytesToHex _
  · split
    · rw [if_pos (by omega)]
      exact mark "fd" 0xfd 2 (by decide)
    · split
      · rw [if_neg (by omega), if_pos (by omega)]
        exact mark "fe" 0xfe 4 (by decide)
      · rw [if_neg (by omega), if_neg (by omega)]
        exact mark "ff" 0xff 8 (by decide)

/-- Texts that are read one by one are read as one. -/
theorem flatten_read {texts : List Str} {pieces : List Bytes}
    (h : texts.mapM hexToBytes = some pieces) :
    texts.length = pieces.length ∧ hexToBytes texts.flatten = some pieces.flatten := by
  induction texts generalizing pieces with
  | nil =>
    obtain rfl := Option.some.inj h
    exact ⟨rfl, rfl⟩
  | cons text texts ih =>
    rw [List.mapM_cons] at h
    obtain ⟨piece, hpiece, h⟩ := Option.bind_eq_some_iff.mp h
    obtain ⟨more, hmore, h⟩ := Option.bind_eq_some_iff.mp h
    cases h
    obtain ⟨hlen, hread⟩ := ih hmore
    exact ⟨congrArg (· + 1) hlen, hexToBytes_append hpiece hread⟩

/-- **The text of a block.** Its header, its first transaction and the others. -/
theorem assembled_read {headerHex first : Str} {texts : List Str} {hd : Header} {t : WitnessTx}
    {rest : List WitnessTx} (hheader : hexToBytes headerHex = some (header.write hd))
    (hfirst : hexToBytes first = some (witnessTx.write t))
    (hrest : texts.mapM hexToBytes = some (rest.map witnessTx.write))
    (hfew : texts.length + 1 < 2 ^ 64) :
    hexToBytes (assembleFullBlock headerHex first texts) = some (block.write ⟨hd, t :: rest⟩) := by
  obtain ⟨hlen, hflat⟩ := flatten_read hrest
  rw [List.length_map] at hlen
  have hcount := varint_read (n := 1 + texts.length) (by omega)
  have hread := hexToBytes_append hheader (hexToBytes_append hcount
    (hexToBytes_append hfirst hflat))
  have hwrite : block.write ⟨hd, t :: rest⟩ = header.write hd ++
      (Codec.compact.write (1 + texts.length) ++ (witnessTx.write t ++
        (rest.map witnessTx.write).flatten)) := by
    rw [write_block, List.length_cons, hlen, Nat.add_comm 1, List.flatMap_cons, List.flatMap_def]
  rw [hwrite, assembleFullBlock]
  simpa only [List.append_assoc] using hread

end MkPool.BlockText
