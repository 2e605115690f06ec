import MkPool.SegwitAddress

/-! # CashAddr payouts

What `decode` accepts through the CashAddr decoder, and whether it pays what the
address says. Of the version byte only the size is checked, and every type but
zero is taken for a script hash. -/
namespace MkPool.CashPayouts
open MkPool.Lib MkPool.Lib.Digits MkPool.Lib.Polymod MkPool.Utils MkPool.Address
open MkPool.AddressDecode MkPool.Spelling MkPool.Bech32 MkPool.SegwitAddress

/-! ## The standard encoder -/

/-- The prefix as it is read into the checksum. -/
def prefixExpand (hrp : Str) : List Nat := hrp.map (fun c => c.toNat % 32) ++ [0]

/-- The text of a version byte and a hash. -/
def cashEncode (hrp : Str) (version : UInt8) (hash : Bytes) : Str :=
  let data := repack 8 5 (nats (version :: hash))
  hrp ++ ':' :: charsetText
    (data ++ cashCode.symbols (cashCode.run 1 (prefixExpand hrp ++ data)) 1)

/-- A test vector of the standard. -/
example : (hexToBytes "76a04053bda0a88bda5177b86a15c3b29f559873".toList).map
    (cashEncode "bitcoincash".toList 0) =
      some "bitcoincash:qpm2qsznhks23z7629mms6s4cwef74vcwvy22gdx6a".toList := by
  decide +kernel

/-- The supported prefixes. -/
def cashPrefixes : List (Str × Network) :=
  [("bitcoincash".toList, .bchMainnet), ("ecash".toList, .bchMainnet),
    ("bitcoincashii".toList, .bchMainnet), ("bchtest".toList, .bchTestnet),
    ("ectest".toList, .bchTestnet), ("bchreg".toList, .bchRegtest),
    ("ecreg".toList, .bchRegtest)]

/-- The payload is a key hash (type 0) or a script hash (type 1) of twenty bytes,
with the reserved bit clear, and the script pays that hash. -/
structure Pays (s : Str) (d : Decoded) (version : UInt8) : Prop where
  payload : ∃ values, CashReads s values ∧
    nats (values.take (values.length - 8)) = repack 8 5 (nats (version :: d.program))
  reserved : version.toNat < 128
  size : version.toNat % 8 = 0 ∧ d.program.length = 20
  script : version.toNat / 8 = 0 ∧
      scriptPubkeyHex d = "76a914".toList ++ bytesToHex d.program ++ "88ac".toList ∨
    version.toNat / 8 = 1 ∧
      scriptPubkeyHex d = "a914".toList ++ bytesToHex d.program ++ "87".toList

/-- The payload begins with `q` or `p`, and then `q`, `p`, `z` or `r`. -/
def KeyOrScript (s : Str) : Prop :=
  ∃ c₁ c₂ rest, lowerCase (cashParts s).2 = c₁ :: c₂ :: rest ∧ (c₁ = 'q' ∨ c₁ = 'p') ∧
    (c₂ = 'q' ∨ c₂ = 'p' ∨ c₂ = 'z' ∨ c₂ = 'r')

/-! ## The first two symbols -/

theorem top_div {x y p : Nat} (h : y < p) : (x * p + y) / p = x := by
  rw [Nat.mul_comm, Nat.mul_add_div (by omega), Nat.div_eq_of_lt h, Nat.add_zero]

theorem lt_of_mem_nats {bs : Bytes} {d : Nat} (h : d ∈ nats bs) : d < 2 ^ 8 := by
  obtain ⟨v, _, rfl⟩ := List.mem_map.mp h
  exact v.toNat_lt

/-- They are the version byte, and two bits. -/
theorem version_symbols {data : List Nat} {version : UInt8} {hash : Bytes}
    (h : data = repack 8 5 (nats (version :: hash))) :
    ∃ a b rest, data = a :: b :: rest ∧ a < 32 ∧ b < 32 ∧ a * 8 + b / 4 = version.toNat := by
  have hbytes : ∀ d ∈ nats (version :: hash), d < 2 ^ 8 := fun d hd => lt_of_mem_nats hd
  have hstream := stream_repack (v := 5) (by omega) hbytes
  have hsmall : ∀ d ∈ data, d < 2 ^ 5 := h ▸ fun d hd => lt_of_mem_repack hd
  rw [← h] at hstream
  have hlen : data.length * 5 = (hash.length + 1) * 8 +
      (data.length * 5 - (nats (version :: hash)).length * 8) := by
    have hlength := hstream.length
    rwa [show (nats (version :: hash)).length = hash.length + 1 by simp [nats]] at hlength ⊢
  have hvalue := hstream.value
  generalize data.length * 5 - (nats (version :: hash)).length * 8 = pad at hlen hvalue
  obtain _ | ⟨a, _ | ⟨b, rest⟩⟩ := data
  · rw [List.length_nil] at hlen
    omega
  · rw [List.length_singleton] at hlen
    omega
  · refine ⟨a, b, rest, rfl, hsmall a (by simp), hsmall b (by simp), ?_⟩
    rw [List.length_cons, List.length_cons] at hlen
    have hrest : value (2 ^ 5) rest < 2 ^ (5 * rest.length) := by
      rw [pow_mul]
      exact value_lt fun d hd => hsmall d (by simp [hd])
    have hroom : 8 * hash.length + pad = 5 * rest.length + 2 := by omega
    have hhash : value (2 ^ 8) (nats hash) * 2 ^ pad < 2 ^ (5 * rest.length + 2) := by
      have hlt : value (2 ^ 8) (nats hash) < 2 ^ (8 * hash.length) := by
        rw [pow_mul, show hash.length = (nats hash).length by simp [nats]]
        exact value_lt fun d hd => lt_of_mem_nats hd
      rw [← hroom, pow_add]
      exact Nat.mul_lt_mul_of_pos_right hlt (Nat.two_pow_pos _)
    have hleft : value (2 ^ 5) (a :: b :: rest) =
        (a * 32 + b) * 2 ^ (5 * rest.length) + value (2 ^ 5) rest := by
      have hsplit := value_append (2 ^ 5) [a, b] rest
      rw [← pow_mul] at hsplit
      rw [← show value (2 ^ 5) [a, b] = a * 32 + b by simp [value]]
      exact hsplit
    have hright : value (2 ^ 8) (nats (version :: hash)) * 2 ^ pad + 0 =
        version.toNat * 2 ^ (5 * rest.length + 2) + value (2 ^ 8) (nats hash) * 2 ^ pad := by
      have hsplit : value (2 ^ 8) (nats (version :: hash)) = version.toNat * 2 ^ (8 * hash.length) +
          value (2 ^ 8) (nats hash) := by
        have happend := value_append (2 ^ 8) [version.toNat] (nats hash)
        rw [← pow_mul, show (nats hash).length = hash.length by simp [nats],
          show value (2 ^ 8) [version.toNat] = version.toNat by simp [value]] at happend
        exact happend
      rw [hsplit, Nat.add_zero, Nat.add_mul, Nat.mul_assoc, ← pow_add, hroom]
    rw [hleft, hright] at hvalue
    have hdiv := congrArg (· / 2 ^ (5 * rest.length + 2)) hvalue
    rw [top_div hhash, pow_add, ← Nat.div_div_eq_div_mul, top_div hrest] at hdiv
    omega

/-! ## What `cashaddr_decode` accepts -/

theorem cashNetwork_iff {hrp : Str} {net : Network} :
    cashNetwork hrp = some net ↔ (hrp, net) ∈ cashPrefixes := by
  constructor
  · intro h
    unfold cashNetwork at h
    split at h
    · rename_i hnames
      cases h
      rcases hnames with rfl | rfl | rfl <;> simp [cashPrefixes]
    · split at h
      · rename_i hnames
        cases h
        rcases hnames with rfl | rfl <;> simp [cashPrefixes]
      · split at h
        · rename_i hnames
          cases h
          rcases hnames with rfl | rfl <;> simp [cashPrefixes]
        · cases h
  · intro h
    simp only [cashPrefixes, List.mem_cons, Prod.mk.injEq, List.not_mem_nil, or_false] at h
    rcases h with ⟨rfl, rfl⟩ | ⟨rfl, rfl⟩ | ⟨rfl, rfl⟩ | ⟨rfl, rfl⟩ | ⟨rfl, rfl⟩ | ⟨rfl, rfl⟩ |
      ⟨rfl, rfl⟩ <;> rfl

theorem fromCash_iff {cad : CashDecoded} {d : Decoded} :
    fromCash cad = .ok d ↔ cashNetwork cad.hrp = some d.network ∧ d.program = cad.hash ∧
      d.type = if cad.type = 0 then .bchP2pkh else .bchP2sh := by
  obtain ⟨type, network, program, size⟩ := d
  unfold fromCash
  cases hnet : cashNetwork cad.hrp with
  | none => simp
  | some net =>
    dsimp only
    split
    · constructor
      · intro h
        cases h
        exact ⟨rfl, rfl, rfl⟩
      · rintro ⟨hn, rfl, rfl⟩
        cases hn
        rfl
    · constructor
      · intro h
        cases h
        exact ⟨rfl, rfl, rfl⟩
      · rintro ⟨hn, rfl, rfl⟩
        cases hn
        rfl

theorem toNat_type (version : UInt8) :
    ((version >>> 3) &&& 0x1f).toNat = version.toNat / 8 := by
  have hlt := version.toNat_lt
  have hmask : (version.toNat >>> 3) &&& 0x1f = version.toNat >>> 3 % 2 ^ 5 :=
    Nat.and_two_pow_sub_one_eq_mod _ 5
  rw [UInt8.toNat_and, UInt8.toNat_shiftRight]
  show (version.toNat >>> 3) &&& 0x1f = _
  rw [hmask, Nat.shiftRight_eq_div_pow]
  omega

theorem type_eq_zero (version : UInt8) :
    (version >>> 3) &&& 0x1f = 0 ↔ version.toNat / 8 = 0 := by
  rw [← UInt8.toNat_inj, toNat_type]
  rfl

/-- The text is that of a version and a hash, and the version gives the type. -/
structure Holds (s : Str) (values : Bytes) (version : UInt8) (d : Decoded) : Prop where
  reads : CashReads s values
  packs : CashPacks (values.take (values.length - 8)) version d.program
  type : d.type = if version.toNat / 8 = 0 then .bchP2pkh else .bchP2sh

theorem holds_of_accepted {s : Str} {d : Decoded} (h : tryCash s = some (.ok d)) :
    ∃ values version, Holds s values version d := by
  obtain ⟨_, cad, hcad, hfrom⟩ := cash_of_tryCash h
  obtain ⟨values, version, hreads, _, _, hpacks, _, htype⟩ := cashaddrDecode_iff.mp hcad
  obtain ⟨_, hprogram, hd⟩ := fromCash_iff.mp hfrom
  refine ⟨values, version, hreads, hprogram ▸ hpacks, ?_⟩
  rw [hd, htype]
  simp only [type_eq_zero]

theorem Holds.pays {s : Str} {values : Bytes} {version : UInt8} {d : Decoded}
    (h : Holds s values version d) (hversion : version.toNat = 0 ∨ version.toNat = 8) :
    Pays s d version := by
  have htype := h.type
  have hmod : version.toNat % 8 = 0 := by omega
  have htwenty : d.program.length = 20 := by
    have hseven : (version &&& 7).toNat = version.toNat % 8 := by
      rw [UInt8.toNat_and]
      exact Nat.and_two_pow_sub_one_eq_mod _ 3
    rw [h.packs.size, hseven, hmod]
    rfl
  refine ⟨⟨values, h.reads, h.packs.packed⟩, by omega, ⟨hmod, htwenty⟩, ?_⟩
  by_cases hzero : version.toNat / 8 = 0
  · rw [if_pos hzero] at htype
    refine .inl ⟨hzero, ?_⟩
    unfold scriptPubkeyHex
    rw [htype]
  · rw [if_neg hzero] at htype
    refine .inr ⟨by omega, ?_⟩
    unfold scriptPubkeyHex
    rw [htype]

/-- **When an accepted address pays.** -/
theorem pays_iff {s : Str} {d : Decoded} (h : tryCash s = some (.ok d)) :
    (∃ version, Pays s d version) ↔ KeyOrScript s := by
  obtain ⟨values, version, hholds⟩ := holds_of_accepted h
  have hreads := hholds.reads
  obtain ⟨a, b, rest, hdata, ha, hb, hversion⟩ := version_symbols hholds.packs.packed
  -- the payload begins with the first two symbols
  obtain ⟨tail, htext⟩ : ∃ tail, lowerCase (cashParts s).2 =
      bech32Charset.getD a ' ' :: bech32Charset.getD b ' ' :: tail := by
    have hsplit : nats values = (a :: b :: rest) ++ nats (values.drop (values.length - 8)) := by
      rw [← hdata, ← nats_append, List.take_append_drop]
    exact ⟨_, hreads.text.trans (by rw [hsplit]; rfl)⟩
  have hfirst : ∀ n < 32, (bech32Charset.getD n ' ' = 'q' ∨ bech32Charset.getD n ' ' = 'p') ↔
      n < 2 := by decide
  have hsecond : ∀ n < 32, (bech32Charset.getD n ' ' = 'q' ∨ bech32Charset.getD n ' ' = 'p' ∨
      bech32Charset.getD n ' ' = 'z' ∨ bech32Charset.getD n ' ' = 'r') ↔ n < 4 := by decide
  have hkey : KeyOrScript s ↔ a < 2 ∧ b < 4 := by
    unfold KeyOrScript
    rw [htext]
    constructor
    · rintro ⟨_, _, _, he, h₁, h₂⟩
      obtain ⟨hc₁, he⟩ := List.cons.inj he
      obtain ⟨hc₂, _⟩ := List.cons.inj he
      rw [← hc₁] at h₁
      rw [← hc₂] at h₂
      exact ⟨(hfirst a ha).mp h₁, (hsecond b hb).mp h₂⟩
    · rintro ⟨h₁, h₂⟩
      exact ⟨_, _, _, rfl, (hfirst a ha).mpr h₁, (hsecond b hb).mpr h₂⟩
  rw [hkey]
  constructor
  · rintro ⟨version', hpays⟩
    obtain ⟨values', hreads', hpacked'⟩ := hpays.payload
    have hsame : values' = values := by
      have hread := charsetValues_iff.mpr ⟨hreads.fives, hreads.text⟩
      rw [charsetValues_iff.mpr ⟨hreads'.fives, hreads'.text⟩] at hread
      exact Except.ok.inj hread
    rw [hsame] at hpacked'
    obtain ⟨a', b', rest', hdata', _, _, hversion'⟩ := version_symbols hpacked'
    obtain ⟨rfl, htail⟩ := List.cons.inj (hdata.symm.trans hdata')
    obtain ⟨rfl, _⟩ := List.cons.inj htail
    have htypes : version'.toNat / 8 = 0 ∨ version'.toNat / 8 = 1 :=
      hpays.script.imp (fun h => h.1) fun h => h.1
    have hzero := hpays.size.1
    omega
  · rintro ⟨ha2, hb4⟩
    exact ⟨version, hholds.pays (by omega)⟩

/-! ## What the encoder writes -/

theorem cash_prefix_facts {p : Str × Network} (hp : p ∈ cashPrefixes) :
    (∀ c ∈ p.1, c.toNat < 256) ∧ p.1.length ≤ 13 ∧ ':' ∉ p.1 ∧ lowerCase p.1 = p.1 := by
  simp only [cashPrefixes, List.mem_cons, List.not_mem_nil, or_false] at hp
  rcases hp with rfl | rfl | rfl | rfl | rfl | rfl | rfl <;> simp [lowerCase]

theorem nats_expandPrefix {hrp : Str} (h : ∀ c ∈ hrp, c.toNat < 256) :
    nats (cashaddrExpandPrefix hrp) = prefixExpand hrp := by
  unfold cashaddrExpandPrefix prefixExpand
  rw [nats_append]
  refine congrArg (· ++ [0]) ?_
  unfold nats
  rw [List.map_map]
  refine List.map_congr_left fun c hc => ?_
  show (UInt8.ofNat c.toNat &&& 0x1f).toNat = _
  rw [UInt8.toNat_and, UInt8.toNat_ofNat', Nat.mod_eq_of_lt (h c hc)]
  exact Nat.and_two_pow_sub_one_eq_mod _ 5

theorem fives_ofNat {vs : List Nat} (h : ∀ v ∈ vs, v < 2 ^ 5) : Fives (vs.map UInt8.ofNat) := by
  intro b hb
  have hmem : b.toNat ∈ nats (vs.map UInt8.ofNat) := List.mem_map_of_mem hb
  rw [nats_ofNat h] at hmem
  exact h _ hmem

theorem cashParts_encode {hrp : Str} (hcolon : ':' ∉ hrp) (text : Str) :
    cashParts (hrp ++ ':' :: text) = (hrp, text) := by
  have hidx : (hrp ++ ':' :: text).idxOf? ':' = some hrp.length := by
    have hnone : hrp.idxOf? ':' = none := List.idxOf?_eq_none_iff.mpr hcolon
    have happend : (hrp ++ ':' :: text).idxOf? ':' =
        (hrp.idxOf? ':').or (((':' :: text).idxOf? ':').map (· + hrp.length)) :=
      List.findIdx?_append
    have hhead : (':' :: text).idxOf? ':' = some 0 := by simp [List.idxOf?_cons]
    rw [happend, hnone, hhead]
    exact congrArg some (Nat.zero_add _)
  unfold cashParts
  rw [hidx]
  show ((hrp ++ ':' :: text).take hrp.length, (hrp ++ ':' :: text).drop (hrp.length + 1)) = _
  rw [List.take_left, ← List.drop_drop, List.drop_left]
  rfl

/-- What the encoder writes is accepted. -/
theorem tryCash_cashEncode {hrp : Str} {net : Network} (hp : (hrp, net) ∈ cashPrefixes)
    {version : UInt8} {hash : Bytes} (hsize : hash.length = sizeMap (version &&& 7).toNat / 8) :
    ∃ (d : Decoded) (values : Bytes), d.network = net ∧ d.program = hash ∧
      tryCash (cashEncode hrp version hash) = some (.ok d) ∧
      Holds (cashEncode hrp version hash) values version d := by
  obtain ⟨hascii, _, hcolon, hlower⟩ := cash_prefix_facts hp
  let packed := repack 8 5 (nats (version :: hash))
  let syms := cashCode.symbols (cashCode.run 1 (prefixExpand hrp ++ packed)) 1
  have hpacked : ∀ v ∈ packed, v < 2 ^ 5 := fun v hv => lt_of_mem_repack hv
  have hsyms : ∀ v ∈ syms, v < 2 ^ 5 := fun v hv => cashCode.lt_of_mem_symbols hv
  let data : Bytes := packed.map UInt8.ofNat
  let cs : Bytes := syms.map UInt8.ofNat
  have hdata : nats data = packed := nats_ofNat hpacked
  have hcs : nats cs = syms := nats_ofNat hsyms
  have hlen : cs.length = 8 := by
    rw [List.length_map, Code.length_symbols]
    rfl
  have htake : (data ++ cs).take ((data ++ cs).length - 8) = data := by
    rw [List.length_append, hlen, Nat.add_sub_cancel, List.take_left]
  have hparts : cashParts (cashEncode hrp version hash) = (hrp, charsetText (packed ++ syms)) :=
    cashParts_encode hcolon _
  have htext : lowerCase (charsetText (packed ++ syms)) = charsetText (packed ++ syms) :=
    lowerCase_charsetText fun v hv => (List.mem_append.mp hv).elim (hpacked v) (hsyms v)
  have hchk : cashaddrPolymod (cashaddrExpandPrefix hrp ++ (data ++ cs)) = 0 := by
    rw [← UInt64.toNat_inj, toNat_cashaddrPolymod, nats_append, nats_append, nats_expandPrefix hascii,
      hdata, hcs, ← List.append_assoc]
    have hrun : cashCode.run 1 (prefixExpand hrp ++ packed) < 2 ^ cashCode.size := by
      refine cashCode.run_lt (by decide) fun v hv => ?_
      have hsmall : v < 2 ^ 5 := by
        rcases List.mem_append.mp hv with hv | hv
        · rcases List.mem_append.mp hv with hv | hv
          · obtain ⟨c, _, rfl⟩ := List.mem_map.mp hv
            exact Nat.mod_lt _ (by omega)
          · rw [List.mem_singleton.mp hv]
            omega
        · exact hpacked v hv
      exact Nat.lt_of_lt_of_le hsmall (by decide)
    have hone : cashCode.run 1 ((prefixExpand hrp ++ packed) ++ syms) = 1 :=
      (cashCode.run_eq_iff hrun (by decide) (Code.length_symbols _ _ _) hsyms).mpr rfl
    rw [hone]
    rfl
  have hreads : CashReads (cashEncode hrp version hash) (data ++ cs) := by
    refine ⟨?_, ?_, ?_⟩
    · rw [hparts]
      exact htext ▸ oneCase_lowerCase _
    · exact fun v hv => (List.mem_append.mp hv).elim (fives_ofNat hpacked v) (fives_ofNat hsyms v)
    · rw [hparts, nats_append, hdata, hcs]
      exact htext
  have hpacks : CashPacks ((data ++ cs).take ((data ++ cs).length - 8)) version hash := by
    rw [htake]
    exact ⟨hdata, hsize⟩
  obtain ⟨cad, hcad, hhash, hhrp, htype⟩ : ∃ cad : CashDecoded,
      cashaddrDecode (cashEncode hrp version hash) = .ok cad ∧ cad.hash = hash ∧ cad.hrp = hrp ∧
        cad.type = (version >>> 3) &&& 0x1f := by
    refine ⟨⟨hrp, (version >>> 3) &&& 0x1f, hash, hsize ▸ sizeMap_fits version⟩,
      cashaddrDecode_iff.mpr ⟨data ++ cs, version, hreads, ?_, ?_, hpacks, ?_, rfl⟩, rfl, rfl, rfl⟩
    · rw [List.length_append, hlen]
      omega
    · rw [hparts]
      show cashaddrPolymod (cashaddrExpandPrefix (lowerCase hrp) ++ _) = 0
      rw [hlower]
      exact hchk
    · rw [hparts]
      exact hlower.symm
  have hnet : cashNetwork cad.hrp = some net := by
    rw [hhrp]
    exact cashNetwork_iff.mpr hp
  obtain ⟨d, hd⟩ : ∃ d, fromCash cad = .ok d := by
    unfold fromCash
    rw [hnet]
    dsimp only
    split <;> exact ⟨_, rfl⟩
  obtain ⟨hdnet, hprogram, hdtype⟩ := fromCash_iff.mp hd
  have hholds : Holds (cashEncode hrp version hash) (data ++ cs) version d := by
    refine ⟨hreads, ?_, ?_⟩
    · rw [hprogram, hhash]
      exact hpacks
    · rw [hdtype, htype]
      simp only [type_eq_zero]
  refine ⟨d, data ++ cs, Option.some.inj (hdnet.symm.trans hnet), hprogram.trans hhash, ?_, hholds⟩
  have hin : (cashEncode hrp version hash).contains ':' = true := by
    rw [List.contains_iff_mem]
    exact List.mem_append_right _ List.mem_cons_self
  unfold tryCash
  rw [hin, hcad]
  exact congrArg some hd

theorem length_cashEncode {hrp : Str} {net : Network} (hp : (hrp, net) ∈ cashPrefixes)
    (version : UInt8) (hash : Bytes) :
    (cashEncode hrp version hash).length ≤ 22 + ((hash.length + 1) * 8 + 4) / 5 := by
  have hhrp := (cash_prefix_facts hp).2.1
  unfold cashEncode charsetText
  rw [List.length_append, List.length_cons, List.length_map, List.length_append, length_repack,
    Code.length_symbols, nats, List.length_map, List.length_cons]
  show hrp.length + (_ + 8 + 1) ≤ _
  dsimp only at hhrp
  omega

theorem decode_of_tryCash {sha256 : Bytes → Hash256} {s : Str} {d : Decoded}
    (hlen : s.length ≤ 128) (h : tryCash s = some (.ok d)) : decode sha256 s = .ok d := by
  have hempty : s.isEmpty = false := by
    cases s with
    | nil => cases h
    | cons c s => rfl
  unfold decode decodeImpl
  rw [hempty, if_neg (by decide), if_neg (by omega), h]

/-- **Which CashAddr payouts are right.** An address that is accepted through the
CashAddr decoder is a key hash or a script hash of twenty bytes, and pays it,
exactly when its payload begins as those do. The standard encodings of both are
accepted, in lower and in upper case. -/
theorem cash_pays_iff (sha256 : Bytes → Hash256) :
    (∀ s d, decode sha256 s = .ok d → tryCash s = some (.ok d) →
      ((∃ version, Pays s d version) ↔ KeyOrScript s)) ∧
    (∀ hrp net version hash, (hrp, net) ∈ cashPrefixes → version = 0 ∨ version = 8 →
      hash.length = 20 → ∃ d : Decoded, d.network = net ∧ d.program = hash ∧
        Pays (cashEncode hrp version hash) d version ∧
        decode sha256 (cashEncode hrp version hash) = .ok d ∧
        decode sha256 (upperCase (cashEncode hrp version hash)) = .ok d) := by
  refine ⟨fun s d _ h => pays_iff h, fun hrp net version hash hp hversion hlen => ?_⟩
  have hsize : hash.length = sizeMap (version &&& 7).toNat / 8 := by
    rw [hlen]
    rcases hversion with rfl | rfl <;> rfl
  obtain ⟨d, values, hnet, hprogram, htry, hholds⟩ := tryCash_cashEncode hp hsize
  have hshort : (cashEncode hrp version hash).length ≤ 128 := by
    have hle := length_cashEncode hp version hash
    rw [hlen] at hle
    omega
  have hdecode : decode sha256 (cashEncode hrp version hash) = .ok d :=
    decode_of_tryCash hshort htry
  refine ⟨d, hnet, hprogram, hholds.pays (by rcases hversion with rfl | rfl <;> decide), hdecode, ?_⟩
  exact decode_recased hdecode (lowerCase_upperCase _) (oneCase_upperCase _) (.inl htry)

/-! ## A token-aware address -/

/-- Type 2, with twenty zero bytes. -/
def tokenAddress : Str := "bitcoincash:zqqqqqqqqqqqqqqqqqqqqqqqqqqqqqqqqqweyg7usz".toList

/-- A short text is decoded by the CashAddr decoder when that accepts it. -/
theorem decode_of_check (s : Str) (h : (match tryCash s with
      | some (.ok _) => decide (s.length ≤ 128)
      | _ => false) = true) :
    ∃ d, decode sampleSha s = .ok d ∧ tryCash s = some (.ok d) := by
  split at h
  · rename_i d hd
    exact ⟨d, decode_of_tryCash (of_decide_eq_true h) hd, hd⟩
  · cases h

/-- **A token-aware address is paid as a script hash.** It is accepted, and its
payload is neither of the two. -/
theorem token_address_accepted : ∃ d, decode sampleSha tokenAddress = .ok d ∧
    tryCash tokenAddress = some (.ok d) ∧ ¬ ∃ version, Pays tokenAddress d version := by
  obtain ⟨d, hd, htry⟩ := decode_of_check tokenAddress (by decide +kernel)
  refine ⟨d, hd, htry, fun hpays => ?_⟩
  obtain ⟨c₁, c₂, rest, htext, h₁, _⟩ := (pays_iff htry).mp hpays
  have hfirst : (lowerCase (cashParts tokenAddress).2).head? = some 'z' := by decide +kernel
  rw [htext] at hfirst
  obtain rfl : c₁ = 'z' := Option.some.inj hfirst
  exact absurd h₁ (by decide)

/-- The address of the key hash of zeros. -/
def zeroAddress : Str := "bitcoincash:qqqqqqqqqqqqqqqqqqqqqqqqqqqqqqqqqqfnhks603".toList

theorem cash_pays_zero : ∃ d version, decode sampleSha zeroAddress = .ok d ∧
    Pays zeroAddress d version := by
  obtain ⟨d, hd, htry⟩ := decode_of_check zeroAddress (by decide +kernel)
  have hkey : KeyOrScript zeroAddress :=
    ⟨'q', 'q', "qqqqqqqqqqqqqqqqqqqqqqqqqqqqqqqqfnhks603".toList, by decide +kernel, .inl rfl,
      .inl rfl⟩
  obtain ⟨version, hpays⟩ := ((cash_pays_iff sampleSha).1 zeroAddress d hd htry).mpr hkey
  exact ⟨d, version, hd, hpays⟩

end MkPool.CashPayouts
