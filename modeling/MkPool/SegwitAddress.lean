import MkPool.Bech32

/-! # Segwit addresses

The encoder of the standards, and that `decode` accepts what it writes and no
other segwit address. -/
namespace MkPool.SegwitAddress
open MkPool.Lib MkPool.Lib.Digits MkPool.Lib.Polymod MkPool.Utils MkPool.Address
open MkPool.AddressDecode MkPool.Spelling MkPool.Bech32

/-! ## The standard encoder -/

/-- The prefix as it is read into the checksum. -/
def hrpExpand (hrp : Str) : List Nat :=
  hrp.map (fun c => c.toNat / 32) ++ 0 :: hrp.map (fun c => c.toNat % 32)

/-- Data, and the six symbols that bring the checksum to the constant. -/
def bech32Encode (enc : Encoding) (hrp : Str) (data : List Nat) : Str :=
  hrp ++ '1' :: charsetText
    (data ++ bech32Code.symbols (bech32Code.run 1 (hrpExpand hrp ++ data)) (target enc))

/-- Version zero is Bech32, the others are Bech32m. -/
def encodingFor (version : Nat) : Encoding := if version = 0 then .bech32 else .bech32m

/-- The address of a witness program. -/
def segwitEncode (hrp : Str) (version : Nat) (program : Bytes) : Str :=
  bech32Encode (encodingFor version) hrp (version :: repack 8 5 (nats program))

/-- The first test vector of the standard. -/
example : (hexToBytes "751e76e8199196d454941c45d1b3a323f1433bd6".toList).map
    (segwitEncode "bc".toList 0) = some "bc1qw508d6qejxtdg4y5r3zarvary0c5xw7kv8f3t4".toList := by
  decide +kernel

/-! ## What `segwit_decode` accepts -/

/-- What the standard asks of a version and its program. -/
structure Sound (info : SegwitInfo) : Prop where
  version : info.version ≤ 16
  length : 2 ≤ info.program.length ∧ info.program.length ≤ 40
  zero : info.version = 0 → info.program.length = 20 ∨ info.program.length = 32
  encoding : info.encoding = encodingFor info.version

theorem nats_append (as bs : Bytes) : nats (as ++ bs) = nats as ++ nats bs := List.map_append

theorem nats_ofNat {vs : List Nat} (h : ∀ v ∈ vs, v < 2 ^ 5) : nats (vs.map UInt8.ofNat) = vs := by
  unfold nats
  rw [List.map_map]
  refine (List.map_congr_left fun v hv => ?_).trans (List.map_id vs)
  have hlt := h v hv
  show (UInt8.ofNat v).toNat = v
  rw [UInt8.toNat_ofNat', Nat.mod_eq_of_lt (by omega)]

theorem nats_expand {hrp : Str} (h : ∀ c ∈ hrp, c.toNat < 256) :
    nats (bech32HrpExpand hrp) = hrpExpand hrp := by
  have hbyte {c : Char} (hc : c ∈ hrp) : (UInt8.ofNat c.toNat).toNat = c.toNat := by
    rw [UInt8.toNat_ofNat', Nat.mod_eq_of_lt (h c hc)]
  have hhigh : nats (hrp.map fun c => UInt8.ofNat c.toNat >>> 5) =
      hrp.map fun c => c.toNat / 32 := by
    unfold nats
    rw [List.map_map]
    refine List.map_congr_left fun c hc => ?_
    show (UInt8.ofNat c.toNat >>> 5).toNat = _
    rw [UInt8.toNat_shiftRight, hbyte hc, Nat.shiftRight_eq_div_pow]
    rfl
  have hlow : nats (hrp.map fun c => UInt8.ofNat c.toNat &&& 31) =
      hrp.map fun c => c.toNat % 32 := by
    unfold nats
    rw [List.map_map]
    refine List.map_congr_left fun c hc => ?_
    show (UInt8.ofNat c.toNat &&& 31).toNat = _
    rw [UInt8.toNat_and, hbyte hc]
    exact Nat.and_two_pow_sub_one_eq_mod _ 5
  unfold bech32HrpExpand hrpExpand
  rw [nats_append, nats_append, hhigh, hlow, List.append_assoc]
  rfl

theorem run_lt_size (vs : Bytes) : bech32Code.run 1 (nats vs) < 2 ^ bech32Code.size := by
  refine bech32Code.run_lt (by decide) fun v hv => ?_
  obtain ⟨b, _, rfl⟩ := List.mem_map.mp hv
  have hb : b.toNat < 256 := b.toNat_lt
  have hsize : 256 ≤ 2 ^ bech32Code.size := by decide
  omega

/-- The checksum is right when its symbols are those of the encoder. -/
theorem polymod_iff {hrp : Str} (hhrp : ∀ c ∈ hrp, c.toNat < 256) {data cs : Bytes}
    {enc : Encoding} (hlen : cs.length = 6) (hcs : Fives cs) :
    (bech32Polymod (bech32HrpExpand hrp ++ (data ++ cs))).toNat = target enc ↔
      nats cs = bech32Code.symbols (bech32Code.run 1 (hrpExpand hrp ++ nats data)) (target enc) := by
  have hlt := run_lt_size (bech32HrpExpand hrp ++ data)
  have htarget : target enc < 2 ^ bech32Code.size := by cases enc <;> decide
  rw [toNat_bech32Polymod, ← List.append_assoc, nats_append _ cs]
  rw [nats_append, nats_expand hhrp] at hlt ⊢
  refine bech32Code.run_eq_iff hlt htarget ?_ fun v hv => ?_
  · rw [nats, List.length_map, hlen]
    rfl
  · obtain ⟨b, hb, rfl⟩ := List.mem_map.mp hv
    exact hcs b hb

/-- The steps of `segwit_decode`. -/
theorem segwitDecode_parts {hrp s : Str} {info : SegwitInfo} :
    segwitDecode hrp s = .ok info ↔ ∃ version rest,
      bech32Decode hrp s = .ok (info.encoding, version :: rest) ∧
      info.version = version.toNat ∧ convertBits rest 5 8 false = .ok info.program ∧
      Sound info := by
  constructor
  · intro h
    unfold segwitDecode at h
    cases hdec : bech32Decode hrp s with
    | error e =>
      rw [hdec] at h
      cases h
    | ok decoded =>
      obtain ⟨enc, data⟩ := decoded
      rw [hdec] at h
      cases data with
      | nil => cases h
      | cons version rest =>
        simp only [bind, Except.bind] at h
        split at h
        · cases h
        · rename_i hversion
          cases hprog : convertBits rest 5 8 false with
          | error e =>
            rw [hprog] at h
            cases h
          | ok prog =>
            rw [hprog] at h
            dsimp only at h
            split at h
            · cases h
            · split at h
              · cases h
              · split at h
                · cases h
                · rename_i hlen hzero henc
                  cases h
                  have hbounds : 2 ≤ prog.length ∧ prog.length ≤ 40 := by omega
                  refine ⟨version, rest, rfl, rfl, hprog, Nat.le_of_not_lt hversion, hbounds, ?_, ?_⟩
                  · intro h0
                    by_contra hno
                    exact hzero ⟨h0, fun h20 => hno (.inl h20), fun h32 => hno (.inr h32)⟩
                  · show enc = encodingFor version.toNat
                    unfold encodingFor
                    split
                    · rename_i h0
                      exact not_not.mp fun hne => henc (.inl ⟨h0, hne⟩)
                    · rename_i h0
                      exact not_not.mp fun hne => henc (.inr ⟨by omega, hne⟩)
  · rintro ⟨version, rest, hdec, hversion, hprog, hsound⟩
    obtain ⟨v, program, enc⟩ := info
    obtain rfl : v = version.toNat := hversion
    have hfit := hsound.version
    have hlen := hsound.length
    have hzero := hsound.zero
    have henc : enc = encodingFor version.toNat := hsound.encoding
    dsimp only at hdec hprog hfit hlen hzero
    unfold segwitDecode
    rw [hdec]
    simp only [bind, Except.bind]
    rw [if_neg (by omega), hprog]
    dsimp only
    rw [if_neg (by omega), if_neg (by omega), if_neg]
    · rfl
    · rw [henc]
      unfold encodingFor
      rintro (⟨h0, hne⟩ | ⟨h1, hne⟩)
      · exact hne (if_pos h0)
      · exact hne (if_neg (by omega))

/-- **What `segwit_decode` accepts.** -/
theorem segwitDecode_iff {hrp s : Str} (hhrp : ∀ c ∈ hrp, c.toNat < 256) (hne : hrp ≠ [])
    {info : SegwitInfo} :
    segwitDecode hrp s = .ok info ↔
      OneCase s ∧ lowerCase s = segwitEncode hrp info.version info.program ∧ Sound info := by
  rw [segwitDecode_parts]
  constructor
  · rintro ⟨version, rest, hdec, hversion, hprog, hsound⟩
    obtain ⟨values, hreads, hlen, hchk, hdata⟩ := bech32Decode_iff.mp hdec
    have hsplit : values = (version :: rest) ++ values.drop (values.length - 6) := by
      rw [hdata, List.take_append_drop]
    have hcs : Fives (values.drop (values.length - 6)) :=
      fun v hv => hreads.fives v (List.mem_of_mem_drop hv)
    have hrest : Fives rest := fun v hv => hreads.fives v
      (List.mem_of_mem_take (hdata ▸ List.mem_cons_of_mem version hv))
    have hsymbols : nats (values.drop (values.length - 6)) = bech32Code.symbols
        (bech32Code.run 1 (hrpExpand hrp ++ nats (version :: rest))) (target info.encoding) := by
      rw [hsplit] at hchk
      exact (polymod_iff hhrp (by rw [List.length_drop]; omega) hcs).mp hchk
    refine ⟨hreads.oneCase, ?_, hsound⟩
    have htext := hreads.text
    rw [hsplit, nats_append, hsymbols] at htext
    rw [htext, segwitEncode, bech32Encode, ← hsound.encoding, hversion,
      ← (convertBits_iff hrest).mp hprog]
    rfl
  · rintro ⟨hcase, htext, hsound⟩
    have hversion := hsound.version
    let rest : Bytes := (repack 8 5 (nats info.program)).map UInt8.ofNat
    let data : Bytes := UInt8.ofNat info.version :: rest
    let cs : Bytes := (bech32Code.symbols (bech32Code.run 1 (hrpExpand hrp ++ nats data))
      (target info.encoding)).map UInt8.ofNat
    have hrest : nats rest = repack 8 5 (nats info.program) :=
      nats_ofNat fun v hv => lt_of_mem_repack hv
    have hfirst : (UInt8.ofNat info.version).toNat = info.version := by
      rw [UInt8.toNat_ofNat', Nat.mod_eq_of_lt (by omega)]
    have hdata : nats data = info.version :: repack 8 5 (nats info.program) := by
      rw [← hrest, ← hfirst]
      rfl
    have hcs : nats cs = bech32Code.symbols (bech32Code.run 1 (hrpExpand hrp ++ nats data))
        (target info.encoding) := nats_ofNat fun v hv => bech32Code.lt_of_mem_symbols hv
    have hsmall {bs : Bytes} (h : ∀ v ∈ nats bs, v < 2 ^ 5) : Fives bs :=
      fun b hb => h _ (List.mem_map_of_mem hb)
    have hcsFives : Fives cs := hsmall (hcs ▸ fun v hv => bech32Code.lt_of_mem_symbols hv)
    have hrestFives : Fives rest := hsmall (hrest ▸ fun v hv => lt_of_mem_repack hv)
    have hlen : cs.length = 6 := by
      rw [List.length_map, Code.length_symbols]
      rfl
    refine ⟨UInt8.ofNat info.version, rest, bech32Decode_iff.mpr
      ⟨data ++ cs, ⟨hcase, hne, ?_, ?_⟩, ?_, (polymod_iff hhrp hlen hcsFives).mpr hcs, ?_⟩,
      hfirst.symm, (convertBits_iff hrestFives).mpr hrest, hsound⟩
    · intro v hv
      rcases List.mem_append.mp hv with hv | hv
      · rcases List.mem_cons.mp hv with rfl | hv
        · rw [hfirst]
          omega
        · exact hrestFives v hv
      · exact hcsFives v hv
    · rw [htext, nats_append, hcs, hdata, segwitEncode, bech32Encode, ← hsound.encoding]
    · rw [List.length_append, hlen]
      omega
    · rw [List.length_append, hlen, Nat.add_sub_cancel, List.take_left]

/-! ## What `decode` accepts -/

/-- The outputs of the standards: the type, the witness version, and the length
of the program. -/
def witnessForms : List (AddressType × Nat × Nat) :=
  [(.p2wpkh, 0, 20), (.p2wsh, 0, 32), (.p2tr, 1, 32)]

/-- A text is the address of the decoded program, in one case. -/
structure Spells (s hrp : Str) (d : Decoded) (version : Nat) : Prop where
  oneCase : OneCase s
  form : (d.type, version, d.program.length) ∈ witnessForms
  text : lowerCase s = segwitEncode hrp version d.program

theorem sound_of_form {type : AddressType} {version : Nat} {program : Bytes}
    (h : (type, version, program.length) ∈ witnessForms) :
    Sound ⟨version, program, encodingFor version⟩ := by
  have hcases : version = 0 ∧ program.length = 20 ∨ version = 0 ∧ program.length = 32 ∨
      version = 1 ∧ program.length = 32 := by
    simp only [witnessForms, List.mem_cons, Prod.mk.injEq, List.not_mem_nil, or_false] at h
    rcases h with ⟨_, h⟩ | ⟨_, h⟩ | ⟨_, h⟩
    · exact .inl h
    · exact .inr (.inl h)
    · exact .inr (.inr h)
  refine ⟨?_, ?_, ?_, rfl⟩
  · show version ≤ 16
    omega
  · show 2 ≤ program.length ∧ program.length ≤ 40
    omega
  · show version = 0 → program.length = 20 ∨ program.length = 32
    omega

theorem fromSegwit_iff {net : Network} {sw : SegwitInfo} {d : Decoded} :
    fromSegwit net sw = some d ↔ d.network = net ∧ d.program = sw.program ∧
      (d.type, sw.version, sw.program.length) ∈ witnessForms := by
  obtain ⟨type, network, program, size⟩ := d
  constructor
  · intro h
    unfold fromSegwit at h
    split at h
    · rename_i hform
      cases h
      exact ⟨rfl, rfl, by simp [witnessForms, hform]⟩
    · split at h
      · rename_i hform
        cases h
        exact ⟨rfl, rfl, by simp [witnessForms, hform]⟩
      · split at h
        · rename_i hform
          cases h
          exact ⟨rfl, rfl, by simp [witnessForms, hform]⟩
        · cases h
  · rintro ⟨rfl, rfl, hform⟩
    simp only [witnessForms, List.mem_cons, Prod.mk.injEq, List.not_mem_nil, or_false] at hform
    unfold fromSegwit
    rcases hform with ⟨rfl, hform⟩ | ⟨rfl, hform⟩ | ⟨rfl, hform⟩
    · rw [dif_pos hform]
    · rw [dif_neg (by omega), dif_pos hform]
    · rw [dif_neg (by omega), dif_neg (by omega), dif_pos hform]

theorem prefix_facts {p : Str × Network} (hp : p ∈ bechPrefixes) :
    p.1 ≠ [] ∧ (∀ c ∈ p.1, c.toNat < 256) ∧ p.1.length ≤ 4 ∧ ':' ∉ p.1 ∧ lowerCase p.1 = p.1 := by
  simp only [bechPrefixes, List.mem_cons, List.not_mem_nil, or_false] at hp
  rcases hp with rfl | rfl | rfl | rfl | rfl | rfl | rfl | rfl <;> simp [lowerCase]

theorem looksBech_prefix {p : Str × Network} (hp : p ∈ bechPrefixes) {text : Str}
    (h : text ≠ []) : looksBech (p.1 ++ '1' :: text) p.1 = true := by
  have hlen := List.length_pos_iff.mpr h
  simp only [bechPrefixes, List.mem_cons, List.not_mem_nil, or_false] at hp
  rcases hp with rfl | rfl | rfl | rfl | rfl | rfl | rfl | rfl <;> simp [looksBech, hlen]

theorem segwitEncode_eq (hrp : Str) (version : Nat) (program : Bytes) : ∃ vs,
    segwitEncode hrp version program = hrp ++ '1' :: charsetText vs ∧
      vs.length = (program.length * 8 + 4) / 5 + 7 := by
  refine ⟨_, rfl, ?_⟩
  rw [List.length_append, List.length_cons, length_repack, Code.length_symbols, nats,
    List.length_map]
  show _ + 6 = _
  omega

theorem tryBech_iff {s hrp : Str} {net : Network} (hp : (hrp, net) ∈ bechPrefixes) {d : Decoded} :
    tryBech s hrp net = some d ↔ d.network = net ∧ ∃ version, Spells s hrp d version := by
  obtain ⟨hne, hascii, _, _, _⟩ := prefix_facts hp
  unfold tryBech
  constructor
  · intro h
    split at h
    · split at h
      · cases h
      · rename_i sw hsw
        obtain ⟨hnet, hprogram, hform⟩ := fromSegwit_iff.mp h
        obtain ⟨hcase, htext, _⟩ := (segwitDecode_iff hascii hne).mp hsw
        rw [← hprogram] at htext hform
        exact ⟨hnet, sw.version, hcase, hform, htext⟩
    · cases h
  · rintro ⟨hnet, version, hspells⟩
    have hsw : segwitDecode hrp s = .ok ⟨version, d.program, encodingFor version⟩ :=
      (segwitDecode_iff hascii hne).mpr
        ⟨hspells.oneCase, hspells.text, sound_of_form hspells.form⟩
    have hlooks : looksBech s hrp = true := by
      obtain ⟨vs, henc, hlen⟩ := segwitEncode_eq hrp version d.program
      have hsome : charsetText vs ≠ [] := by
        rw [← List.length_pos_iff, charsetText, List.length_map]
        omega
      rw [← looksBech_lower, hspells.text, henc]
      exact looksBech_prefix hp hsome
    rw [if_pos hlooks, hsw]
    exact fromSegwit_iff.mpr ⟨hnet, rfl, hspells.form⟩

/-- A text has one prefix. -/
theorem hrp_unique {s hrp hrp' : Str} {d d' : Decoded} {version version' : Nat}
    (h : Spells s hrp d version) (h' : Spells s hrp' d' version') : hrp = hrp' := by
  obtain ⟨vs, henc, _⟩ := segwitEncode_eq hrp version d.program
  obtain ⟨vs', henc', _⟩ := segwitEncode_eq hrp' version' d'.program
  have hsame : hrp ++ '1' :: charsetText vs = hrp' ++ '1' :: charsetText vs' := by
    rw [← henc, ← henc', ← h.text, h'.text]
  have hlen : hrp.length = hrp'.length := by
    have hfind := congrArg (rfind · '1') hsame
    simp only [rfind_append (one_not_mem _), Option.some.injEq] at hfind
    exact hfind
  exact (List.append_inj hsame hlen).1

theorem network_unique : ∀ p ∈ bechPrefixes, ∀ q ∈ bechPrefixes, p.1 = q.1 → p = q := by decide

/-- The first prefix that answers is the one of the text. -/
theorem tryAll_of_spells {s hrp : Str} {d : Decoded} {version : Nat}
    (hp : (hrp, d.network) ∈ bechPrefixes) (h : Spells s hrp d version) :
    (bechPrefixes.findSome? fun (hrp, net) => tryBech s hrp net) = some d := by
  have hone : tryBech s hrp d.network = some d := (tryBech_iff hp).mpr ⟨rfl, version, h⟩
  cases hall : bechPrefixes.findSome? fun (hrp, net) => tryBech s hrp net with
  | none =>
    have hnone := List.findSome?_eq_none_iff.mp hall _ hp
    rw [show tryBech s hrp d.network = none from hnone] at hone
    cases hone
  | some d' =>
    obtain ⟨⟨hrp', net'⟩, hp', hfound⟩ := List.exists_of_findSome?_eq_some hall
    obtain ⟨_, version', h'⟩ := (tryBech_iff hp').mp hfound
    cases network_unique _ hp _ hp' (hrp_unique h h')
    exact hfound.symm.trans hone

theorem no_colon {hrp : Str} {net : Network} (hp : (hrp, net) ∈ bechPrefixes) (version : Nat)
    (program : Bytes) : (segwitEncode hrp version program).contains ':' = false := by
  obtain ⟨vs, henc, _⟩ := segwitEncode_eq hrp version program
  have hhrp : ':' ∉ hrp := (prefix_facts hp).2.2.2.1
  have htext : ':' ∉ charsetText vs := not_mem_charsetText (by decide) (by decide) vs
  rw [henc, ← Bool.not_eq_true, List.contains_iff_mem]
  simp [hhrp, htext]

theorem not_prefixless {p : Str × Network} (hp : p ∈ bechPrefixes) (text : Str) :
    prefixlessCash (p.1 ++ text) = false := by
  simp only [bechPrefixes, List.mem_cons, List.not_mem_nil, or_false] at hp
  rcases hp with rfl | rfl | rfl | rfl | rfl | rfl | rfl | rfl <;> simp [prefixlessCash]

/-- A segwit address does not come to the CashAddr decoder. -/
theorem tryCash_none {s hrp : Str} {d : Decoded} {version : Nat} {net : Network}
    (hp : (hrp, net) ∈ bechPrefixes) (h : Spells s hrp d version) : tryCash s = none := by
  obtain ⟨vs, henc, _⟩ := segwitEncode_eq hrp version d.program
  have hcolon : s.contains ':' = false := by
    rw [← contains_colon, h.text, no_colon hp]
  have hfirst : prefixlessCash s = false := by
    rw [← prefixlessCash_lower, h.text, henc]
    exact not_prefixless hp _
  unfold tryCash
  rw [hcolon, hfirst]
  rfl

theorem length_of_spells {s hrp : Str} {d : Decoded} {version : Nat} {net : Network}
    (hp : (hrp, net) ∈ bechPrefixes) (h : Spells s hrp d version) :
    0 < s.length ∧ s.length ≤ 128 := by
  obtain ⟨vs, henc, hvs⟩ := segwitEncode_eq hrp version d.program
  have hhrp : hrp.length ≤ 4 := (prefix_facts hp).2.2.1
  have hprogram := (sound_of_form h.form).length.2
  have hlen : s.length = hrp.length + (vs.length + 1) := by
    have hlower : (lowerCase s).length = s.length := List.length_map _
    rw [← hlower, h.text, henc, List.length_append, List.length_cons, charsetText,
      List.length_map]
  dsimp only at hprogram
  omega

section Decode

variable {sha256 : Bytes → Hash256}

theorem decode_of_spells {s hrp : Str} {d : Decoded} {version : Nat}
    (hp : (hrp, d.network) ∈ bechPrefixes) (h : Spells s hrp d version) :
    decode sha256 s = .ok d := by
  obtain ⟨hpos, hlong⟩ := length_of_spells hp h
  have hempty : s.isEmpty = false := by
    rw [List.isEmpty_eq_false_iff, ← List.length_pos_iff]
    exact hpos
  unfold decode decodeImpl
  rw [hempty, if_neg (by decide), if_neg (by omega), tryCash_none hp h, tryAll_of_spells hp h]

/-- The other branches pay no witness program. -/
theorem spells_of_decode {s : Str} {d : Decoded}
    (hform : d.type = .p2wpkh ∨ d.type = .p2wsh ∨ d.type = .p2tr)
    (h : decode sha256 s = .ok d) :
    ∃ hrp version, (hrp, d.network) ∈ bechPrefixes ∧ Spells s hrp d version := by
  cases accepted_of_decode h with
  | cash hcash =>
    obtain ⟨_, cad, _, hfrom⟩ := cash_of_tryCash hcash
    unfold fromCash at hfrom
    split at hfrom
    · cases hfrom
    · split at hfrom <;> cases hfrom <;> simp at hform
  | bech _ hbech =>
    obtain ⟨⟨hrp, net⟩, hp, hfound⟩ := List.exists_of_findSome?_eq_some hbech
    obtain ⟨rfl, version, hspells⟩ := (tryBech_iff hp).mp hfound
    exact ⟨hrp, version, hp, hspells⟩
  | base58 _ hfrom =>
    rcases (pays_of_base58 hfrom).1 with ht | ht <;> simp [ht] at hform

end Decode

theorem lowerCase_charsetText {vs : List Nat} (h : ∀ v ∈ vs, v < 2 ^ 5) :
    lowerCase (charsetText vs) = charsetText vs := by
  have hall : ∀ v < 2 ^ 5, (bech32Charset.getD v ' ').toLower = bech32Charset.getD v ' ' := by
    decide
  unfold lowerCase charsetText
  rw [List.map_map]
  exact List.map_congr_left fun v hv => hall v (h v hv)

theorem lowerCase_append (a b : Str) : lowerCase (a ++ b) = lowerCase a ++ lowerCase b :=
  List.map_append

theorem lowerCase_segwitEncode {hrp : Str} {net : Network} (hp : (hrp, net) ∈ bechPrefixes)
    {version : Nat} (hversion : version ≤ 16) (program : Bytes) :
    lowerCase (segwitEncode hrp version program) = segwitEncode hrp version program := by
  have hhrp : lowerCase hrp = hrp := (prefix_facts hp).2.2.2.2
  unfold segwitEncode bech32Encode
  rw [lowerCase_append, hhrp]
  refine congrArg (hrp ++ '1' :: ·) (lowerCase_charsetText fun v hv => ?_)
  rcases List.mem_append.mp hv with hv | hv
  · rcases List.mem_cons.mp hv with rfl | hv
    · omega
    · exact lt_of_mem_repack hv
  · exact bech32Code.lt_of_mem_symbols hv

/-- The script of a witness program: its version, its length and the program. -/
def witnessScript (version : Nat) (program : Bytes) : Bytes :=
  UInt8.ofNat (if version = 0 then 0 else 0x50 + version) ::
    UInt8.ofNat program.length :: program

theorem script_of_form {d : Decoded} {version : Nat}
    (h : (d.type, version, d.program.length) ∈ witnessForms) :
    d.script = witnessScript version d.program := by
  simp only [witnessForms, List.mem_cons, Prod.mk.injEq, List.not_mem_nil, or_false] at h
  rcases h with ⟨ht, rfl, hlen⟩ | ⟨ht, rfl, hlen⟩ | ⟨ht, rfl, hlen⟩ <;>
    simp [Decoded.script, witnessScript, ht, hlen]

theorem decoded_of_form {type : AddressType} {version : Nat} {program : Bytes}
    (h : (type, version, program.length) ∈ witnessForms) (net : Network) :
    ∃ d : Decoded, d.type = type ∧ d.network = net ∧ d.program = program := by
  have hsize : type.fits program.length = true := by
    simp only [witnessForms, List.mem_cons, Prod.mk.injEq, List.not_mem_nil, or_false] at h
    rcases h with ⟨rfl, _, hlen⟩ | ⟨rfl, _, hlen⟩ | ⟨rfl, _, hlen⟩ <;> exact decide_eq_true hlen
  exact ⟨⟨type, net, program, hsize⟩, rfl, rfl, rfl⟩

/-- **Segwit addresses are decoded exactly.** What is decoded to a witness
program is its standard address in one case, under one of the prefixes; each
standard address is decoded, in lower and in upper case; the spellings of one
address are decoded alike; and the script is that of the program. -/
theorem segwit_exact (sha256 : Bytes → Hash256) :
    (∀ s d, d.type = .p2wpkh ∨ d.type = .p2wsh ∨ d.type = .p2tr →
      (decode sha256 s = .ok d ↔ ∃ hrp version, (hrp, d.network) ∈ bechPrefixes ∧
        OneCase s ∧ (d.type, version, d.program.length) ∈ witnessForms ∧
        lowerCase s = segwitEncode hrp version d.program)) ∧
    (∀ hrp net type version program, (hrp, net) ∈ bechPrefixes →
      (type, version, program.length) ∈ witnessForms →
      ∃ d : Decoded, d.type = type ∧ d.network = net ∧ d.program = program ∧
        decode sha256 (segwitEncode hrp version program) = .ok d ∧
        decode sha256 (upperCase (segwitEncode hrp version program)) = .ok d ∧
        scriptPubkeyHex d = bytesToHex (witnessScript version program)) ∧
    (∀ s s' d, d.type = .p2wpkh ∨ d.type = .p2wsh ∨ d.type = .p2tr →
      decode sha256 s = .ok d → OneCase s' → lowerCase s' = lowerCase s →
      decode sha256 s' = .ok d) := by
  refine ⟨fun s d hform => ⟨fun h => ?_, ?_⟩, ?_, ?_⟩
  · obtain ⟨hrp, version, hp, hspells⟩ := spells_of_decode hform h
    exact ⟨hrp, version, hp, hspells.oneCase, hspells.form, hspells.text⟩
  · rintro ⟨hrp, version, hp, hcase, hform, htext⟩
    exact decode_of_spells hp ⟨hcase, hform, htext⟩
  · intro hrp net type version program hp hform
    obtain ⟨d, rfl, rfl, rfl⟩ := decoded_of_form hform net
    have hlower : lowerCase (segwitEncode hrp version d.program) =
        segwitEncode hrp version d.program :=
      lowerCase_segwitEncode hp (sound_of_form hform).version d.program
    have hspells : Spells (segwitEncode hrp version d.program) hrp d version :=
      ⟨hlower ▸ oneCase_lowerCase _, hform, hlower⟩
    have hupper : Spells (upperCase (segwitEncode hrp version d.program)) hrp d version :=
      ⟨oneCase_upperCase _, hform, (lowerCase_upperCase _).trans hlower⟩
    refine ⟨d, rfl, rfl, rfl, decode_of_spells hp hspells, decode_of_spells hp hupper, ?_⟩
    rw [scriptPubkeyHex_eq, script_of_form hform]
  · intro s s' d hform h hcase hlower
    obtain ⟨hrp, version, hp, hspells⟩ := spells_of_decode hform h
    exact decode_of_spells hp ⟨hcase, hspells.form, hlower.trans hspells.text⟩

/-- The address of the key hash of zeros, in upper case. -/
theorem segwit_exact_zero : ∃ d : Decoded, d.program = List.replicate 20 0 ∧
    decode sampleSha
      (upperCase (segwitEncode "tb".toList 0 (List.replicate 20 0))) = .ok d := by
  obtain ⟨d, _, _, hprogram, _, hupper, _⟩ := (segwit_exact sampleSha).2.1 "tb".toList
    .bitcoinTestnet .p2wpkh 0 (List.replicate 20 0) (by decide) (by decide)
  exact ⟨d, hprogram, hupper⟩

end MkPool.SegwitAddress
