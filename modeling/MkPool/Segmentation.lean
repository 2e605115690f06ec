import MkPool.Sv2Transport

/-! # Frames do not depend on how the stream is cut

Each reader decides by the first bytes it holds. What it gives to its handler,
and where it closes, is then a function of the stream. -/
namespace MkPool.Segmentation
open MkPool.Lib.Segments MkPool.Noise MkPool.Utils MkPool.Sv2Wire MkPool.Sv2Transport

variable {H Key σ : Type} {handle : Handler H}

/-! ## The readers are incremental -/

theorem steady_deliver {m n : Nat} {next : H → σ} {session : H} {f : Frame} (h : m ≤ n) :
    Steady n fun buf => deliver handle next session f (buf.drop m) := by
  unfold deliver
  split
  · exact .halt h
  · exact .go h

theorem deliver_eq_go {next : H → σ} {session : H} {f : Frame} {rest rest' : Bytes}
    {o : Option Frame} {s : σ} (h : deliver handle next session f rest = .go o s rest') :
    s = next (handle session f).1 ∧ rest' = rest := by
  unfold deliver at h
  split at h
  · cases h
  · cases h
    exact ⟨rfl, rfl⟩

theorem deliver_ne_wait {next : H → σ} {session : H} {f : Frame} {rest : Bytes} {n : Nat} :
    deliver handle next session f rest ≠ .wait n := by
  unfold deliver
  split <;> simp

@[simp] theorem out_deliver (next : H → σ) (session : H) (f : Frame) (rest : Bytes) :
    (deliver handle next session f rest).out = some f := by
  unfold deliver
  split <;> rfl

theorem clientPlain_steady (session : H) : Steady 0 (clientPlain handle session) := by
  refine Steady.await fun front _ => ?_
  dsimp only
  split
  · exact Steady.await fun frame _ => steady_deliver le_rfl
  · exact .halt (Nat.zero_le _)

theorem clientPlain_shrinks {session session' : H} {buf rest : Bytes} {o : Option Frame}
    (h : clientPlain handle session buf = .go o session' rest) : rest.length < buf.length := by
  obtain ⟨hlen, h⟩ := await_eq_go.mp h
  dsimp only at h
  split at h
  · obtain ⟨hlen', h⟩ := await_eq_go.mp h
    rw [(deliver_eq_go h).2, List.length_drop]
    omega
  · cases h

def clientPlainReader (handle : Handler H) : Incremental H UInt8 Frame where
  turn := clientPlain handle
  rank _ := 0
  go_weight h := by have hlt := clientPlain_shrinks h; omega
  steady := clientPlain_steady

theorem encryptedTurn_steady {left : Nat} (hleft : left ≤ 22) (C : Cipher Key)
    (s : Encrypted Key H) : Steady 0 (encryptedTurn handle left C s) := by
  unfold encryptedTurn
  cases s.pending with
  | none =>
    refine Steady.await fun front _ => ?_
    cases s.noise.decrypt C front with
    | none => exact .halt (Nat.zero_le _)
    | some p =>
      dsimp only
      split
      · exact .go le_rfl
      · exact .halt hleft
  | some h =>
    refine Steady.await fun text _ => ?_
    split
    · exact steady_deliver le_rfl
    · cases s.noise.decrypt C text with
      | none => exact .halt (Nat.zero_le _)
      | some p => exact steady_deliver le_rfl

theorem encryptedTurn_shrinks {left : Nat} {C : Cipher Key} {s s' : Encrypted Key H}
    {buf rest : Bytes} {o : Option Frame} (h : encryptedTurn handle left C s buf = .go o s' rest) :
    rest.length < buf.length := by
  unfold encryptedTurn at h
  cases hpending : s.pending with
  | none =>
    rw [hpending] at h
    obtain ⟨hlen, h⟩ := await_eq_go.mp h
    split at h
    · cases h
    · split at h
      · cases h
        rw [List.length_drop]
        omega
      · cases h
  | some hd =>
    rw [hpending] at h
    obtain ⟨hlen, h⟩ := await_eq_go.mp h
    have hdrop : (buf.drop (hd.1.msgLength.toNat + 16)).length < buf.length := by
      rw [List.length_drop]
      omega
    split at h
    · rwa [(deliver_eq_go h).2]
    · split at h
      · cases h
      · rwa [(deliver_eq_go h).2]

def encryptedReader (handle : Handler H) (left : Nat) (hleft : left ≤ 22) (C : Cipher Key) :
    Incremental (Encrypted Key H) UInt8 Frame where
  turn := encryptedTurn handle left C
  rank _ := 0
  go_weight h := by have hlt := encryptedTurn_shrinks h; omega
  steady := encryptedTurn_steady hleft C

def clientEncryptedReader (handle : Handler H) (C : Cipher Key) :
    Incremental (Encrypted Key H) UInt8 Frame :=
  encryptedReader handle 0 (by omega) C

theorem plainTurn_steady (s : Plain H) : Steady 0 (plainTurn handle s) := by
  unfold plainTurn
  cases s.pending with
  | none =>
    refine Steady.await fun front _ => ?_
    split
    · exact .go le_rfl
    · exact .halt le_rfl
  | some h => exact Steady.await fun payload _ => steady_deliver le_rfl

/-- A frame without a payload is taken off with its header. -/
def plainRank (s : Plain H) : Nat := if s.pending.isSome then 1 else 0

theorem plainTurn_weight {s s' : Plain H} {buf rest : Bytes} {o : Option Frame}
    (h : plainTurn handle s buf = .go o s' rest) :
    2 * rest.length + plainRank s' < 2 * buf.length + plainRank s := by
  unfold plainTurn at h
  cases hpending : s.pending with
  | none =>
    rw [hpending] at h
    obtain ⟨hlen, h⟩ := await_eq_go.mp h
    split at h
    · cases h
      simp only [plainRank, hpending, List.length_drop, Option.isSome_some, Option.isSome_none]
      simp only [if_true, Bool.false_eq_true, if_false]
      omega
    · cases h
  | some hd =>
    rw [hpending] at h
    obtain ⟨hlen, h⟩ := await_eq_go.mp h
    obtain ⟨rfl, rfl⟩ := deliver_eq_go h
    simp only [plainRank, hpending, List.length_drop, Option.isSome_some, Option.isSome_none]
    simp only [if_true, Bool.false_eq_true, if_false]
    omega

def upstreamReader (handle : Handler H) : Incremental (Plain H) UInt8 Frame where
  turn := plainTurn handle
  rank := plainRank
  go_weight := plainTurn_weight
  steady := plainTurn_steady

theorem relayTurn_steady (handshake : Bytes → Option (NoiseState Key)) (C : Cipher Key)
    (s : Relay Key H) : Steady 0 (relayTurn handle handshake C s) := by
  unfold relayTurn
  cases s with
  | detecting session =>
    refine Steady.await fun front _ => ?_
    split
    · exact .go (Nat.zero_le _)
    · refine Steady.await fun act1 _ => ?_
      cases handshake act1 with
      | none => exact .halt (Nat.zero_le _)
      | some noise => exact .go le_rfl
  | plain s => exact (plainTurn_steady s).map Relay.plain
  | encrypted s => exact (encryptedTurn_steady le_rfl C s).map Relay.encrypted

/-- Detection takes nothing off a plaintext stream. -/
def relayRank : Relay Key H → Nat
  | .detecting _ => 1
  | .plain s => plainRank s
  | .encrypted _ => 0

theorem relayTurn_weight {handshake : Bytes → Option (NoiseState Key)} {C : Cipher Key}
    {s s' : Relay Key H} {buf rest : Bytes} {o : Option Frame}
    (h : relayTurn handle handshake C s buf = .go o s' rest) :
    2 * rest.length + relayRank s' < 2 * buf.length + relayRank s := by
  unfold relayTurn at h
  cases s with
  | detecting session =>
    obtain ⟨hlen, h⟩ := await_eq_go.mp h
    split at h
    · cases h
      exact Nat.lt_succ_self _
    · obtain ⟨hlen', h⟩ := await_eq_go.mp h
      split at h
      · cases h
      · cases h
        simp only [relayRank, List.length_drop]
        omega
  | plain s =>
    obtain ⟨s₀, hturn, rfl⟩ := Turn.map_eq_go.mp h
    exact plainTurn_weight hturn
  | encrypted s =>
    obtain ⟨s₀, hturn, rfl⟩ := Turn.map_eq_go.mp h
    have hlt := encryptedTurn_shrinks hturn
    simp only [relayRank]
    omega

def relayReader (handle : Handler H) (handshake : Bytes → Option (NoiseState Key))
    (C : Cipher Key) : Incremental (Relay Key H) UInt8 Frame where
  turn := relayTurn handle handshake C
  rank := relayRank
  go_weight := relayTurn_weight
  steady := relayTurn_steady handshake C

/-! ## What is given to the handler -/

theorem clientPlain_out (session : H) (buf : Bytes) :
    ∀ f ∈ (clientPlain handle session buf).out, WellFramed f := by
  intro f hf
  obtain ⟨hlen, hf⟩ := mem_out_await hf
  dsimp only at hf
  split at hf
  · rename_i hok
    obtain ⟨hlen', hf⟩ := mem_out_await hf
    rw [out_deliver] at hf
    obtain rfl := Option.mem_some.mp hf
    refine ⟨of_decide_eq_true hok, ?_⟩
    rw [List.length_drop, List.length_take_of_le hlen', Nat.add_sub_cancel_left]
  · cases hf

theorem encryptedTurn_out (left : Nat) (C : Cipher Key) (s : Encrypted Key H) (buf : Bytes) :
    ∀ f ∈ (encryptedTurn handle left C s buf).out, WellFramed f := by
  intro f hf
  unfold encryptedTurn at hf
  cases hpending : s.pending with
  | none =>
    rw [hpending] at hf
    obtain ⟨hlen, hf⟩ := mem_out_await hf
    split at hf
    · cases hf
    · split at hf <;> cases hf
  | some h =>
    rw [hpending] at hf
    obtain ⟨hlen, hf⟩ := mem_out_await hf
    split at hf
    · rename_i hzero
      rw [out_deliver] at hf
      obtain rfl := Option.mem_some.mp hf
      exact ⟨h.le, hzero.symm⟩
    · split at hf
      · cases hf
      · rename_i plain noise hdecrypt
        rw [out_deliver] at hf
        obtain rfl := Option.mem_some.mp hf
        have hplain := length_decrypt hdecrypt
        rw [List.length_take_of_le hlen] at hplain
        exact ⟨h.le, by dsimp only; omega⟩

theorem plainTurn_out (s : Plain H) (buf : Bytes) :
    ∀ f ∈ (plainTurn handle s buf).out, WellFramed f := by
  intro f hf
  unfold plainTurn at hf
  cases hpending : s.pending with
  | none =>
    rw [hpending] at hf
    obtain ⟨hlen, hf⟩ := mem_out_await hf
    split at hf <;> cases hf
  | some h =>
    rw [hpending] at hf
    obtain ⟨hlen, hf⟩ := mem_out_await hf
    rw [out_deliver] at hf
    obtain rfl := Option.mem_some.mp hf
    exact ⟨h.le, List.length_take_of_le hlen⟩

theorem relayTurn_out (handshake : Bytes → Option (NoiseState Key)) (C : Cipher Key)
    (s : Relay Key H) (buf : Bytes) :
    ∀ f ∈ (relayTurn handle handshake C s buf).out, WellFramed f := by
  intro f hf
  unfold relayTurn at hf
  cases s with
  | detecting session =>
    obtain ⟨hlen, hf⟩ := mem_out_await hf
    split at hf
    · cases hf
    · obtain ⟨hlen', hf⟩ := mem_out_await hf
      split at hf <;> cases hf
  | plain s => exact plainTurn_out s buf f (by simpa using hf)
  | encrypted s => exact encryptedTurn_out 22 C s buf f (by simpa using hf)

/-! ## Nothing is held that would be too much -/

/-- The most a reader holds while it waits: less than a whole message. -/
def heldBound : Nat := maxMsgLength + 16

theorem encryptedTurn_holds {left n : Nat} {C : Cipher Key} {s : Encrypted Key H} {buf : Bytes}
    (h : encryptedTurn handle left C s buf = .wait n) : buf.length < heldBound := by
  unfold heldBound maxMsgLength
  unfold encryptedTurn at h
  cases hpending : s.pending with
  | none =>
    rw [hpending] at h
    obtain ⟨hlt, _⟩ | ⟨_, h⟩ := await_eq_wait h
    · omega
    · split at h
      · cases h
      · split at h <;> cases h
  | some hd =>
    rw [hpending] at h
    have hle := hd.le
    unfold maxMsgLength at hle
    obtain ⟨hlt, _⟩ | ⟨_, h⟩ := await_eq_wait h
    · omega
    · split at h
      · exact absurd h (deliver_ne_wait)
      · split at h
        · cases h
        · exact absurd h (deliver_ne_wait)

theorem plainTurn_holds {s : Plain H} {buf : Bytes} {n : Nat}
    (h : plainTurn handle s buf = .wait n) : buf.length < heldBound := by
  unfold heldBound maxMsgLength
  unfold plainTurn at h
  cases hpending : s.pending with
  | none =>
    rw [hpending] at h
    obtain ⟨hlt, _⟩ | ⟨_, h⟩ := await_eq_wait h
    · omega
    · split at h <;> cases h
  | some hd =>
    rw [hpending] at h
    have hle := hd.le
    unfold maxMsgLength at hle
    obtain ⟨hlt, _⟩ | ⟨_, h⟩ := await_eq_wait h
    · omega
    · exact absurd h deliver_ne_wait

theorem relayTurn_holds {handshake : Bytes → Option (NoiseState Key)} {C : Cipher Key}
    {s : Relay Key H} {buf : Bytes} {n : Nat}
    (h : relayTurn handle handshake C s buf = .wait n) : buf.length < heldBound := by
  unfold relayTurn at h
  cases s with
  | detecting session =>
    unfold heldBound maxMsgLength
    obtain ⟨hlt, _⟩ | ⟨_, h⟩ := await_eq_wait h
    · omega
    · split at h
      · cases h
      · obtain ⟨hlt, _⟩ | ⟨_, h⟩ := await_eq_wait h
        · omega
        · split at h <;> cases h
  | plain s => exact plainTurn_holds (Turn.map_eq_wait.mp h)
  | encrypted s => exact encryptedTurn_holds (Turn.map_eq_wait.mp h)

/-- Reads into a buffer of `n` bytes. -/
def ReadsOf (n : Nat) (cuts : List Bytes) : Prop := ∀ c ∈ cuts, c ≠ [] ∧ c.length ≤ n

instance (n : Nat) (cuts : List Bytes) : Decidable (ReadsOf n cuts) :=
  inferInstanceAs (Decidable (∀ c ∈ cuts, c ≠ [] ∧ c.length ≤ n))

/-- The limit on what is held is never reached. -/
theorem onRead_eq_feed {R : Incremental σ UInt8 Frame} {limit : Nat}
    (hholds : ∀ {s buf n}, R.turn s buf = .wait n → buf.length < heldBound)
    (hlimit : heldBound + relayReadBuf ≤ limit) {h : Held σ UInt8 Frame} (hs : R.Settled h)
    {bs : Bytes} (hbs : bs.length ≤ relayReadBuf) : onRead R limit h bs = R.feed h bs := by
  unfold onRead
  obtain hhalt | ⟨n, hopen, hturn⟩ := hs
  · rw [if_pos hhalt, Incremental.feed, if_pos hhalt]
  · have hheld := hholds hturn
    rw [if_neg (by simp [hopen]), if_neg (by omega)]

theorem run_onRead {R : Incremental σ UInt8 Frame} {limit : Nat}
    (hholds : ∀ {s buf n}, R.turn s buf = .wait n → buf.length < heldBound)
    (hlimit : heldBound + relayReadBuf ≤ limit) {h : Held σ UInt8 Frame} (hs : R.Settled h)
    {cuts : List Bytes} (hcuts : ReadsOf relayReadBuf cuts) :
    cuts.foldl (onRead R limit) h = R.feed h cuts.flatten := by
  induction cuts generalizing h with
  | nil => exact (Incremental.feed_nil hs).symm
  | cons c cs ih =>
    have hc := (hcuts c List.mem_cons_self).2
    rw [List.foldl_cons, onRead_eq_feed hholds hlimit hs hc,
      ih (Incremental.settled_feed c) fun c' hc' => hcuts c' (List.mem_cons_of_mem c hc'),
      Incremental.feed_feed, List.flatten_cons]

/-! ## Whole connections -/

/-- A `ClientSession` from the bytes it has taken as the start of its stream. -/
def clientRun (R : Incremental σ UInt8 Frame) (s : σ) (first : Bytes) (cuts : List Bytes) :
    Incremental.Asking σ UInt8 Frame :=
  cuts.foldl (R.arrive clientReadBuf) (R.ask clientReadBuf (start s first))

/-- A plaintext session: the byte that told the protocol is the first one. -/
def clientPlainRun (handle : Handler H) (session : H) (first : UInt8) (cuts : List Bytes) :=
  clientRun (clientPlainReader handle) session [first] cuts

/-- A session whose handshake is complete. -/
def clientEncryptedRun (handle : Handler H) (C : Cipher Key) (noise : NoiseState Key) (session : H)
    (cuts : List Bytes) :=
  clientRun (clientEncryptedReader handle C) ⟨none, noise, session⟩ [] cuts

def relayRun (handle : Handler H) (handshake : Bytes → Option (NoiseState Key)) (C : Cipher Key)
    (session : H) (cuts : List Bytes) : Held (Relay Key H) UInt8 Frame :=
  cuts.foldl (onRead (relayReader handle handshake C) (4 * 2 ^ 20)) (start (.detecting session) [])

def upstreamRun (handle : Handler H) (session : H) (cuts : List Bytes) :
    Held (Plain H) UInt8 Frame :=
  cuts.foldl (onRead (upstreamReader handle) (8 * 2 ^ 20)) (start ⟨none, session⟩ [])

/-- However a stream is cut, the same frames are handled and the reader stops at
the same place, if at all; and no frame is longer than the bound. -/
structure CutFree (cap : Nat) (read : List Bytes → Held σ UInt8 Frame) : Prop where
  same : ∀ cs ds, ReadsOf cap cs → ReadsOf cap ds → cs.flatten = ds.flatten →
    (read cs).out = (read ds).out ∧ (read cs).halted = (read ds).halted ∧
      (read cs).used = (read ds).used
  framed : ∀ cs, ReadsOf cap cs → ∀ f ∈ (read cs).out, WellFramed f

theorem CutFree.of_feed {cap : Nat} {read : List Bytes → Held σ UInt8 Frame}
    {R : Incremental σ UInt8 Frame} {s : σ} {first : Bytes}
    (hread : ∀ cs, ReadsOf cap cs → read cs = R.feed (start s first) cs.flatten)
    (hframed : ∀ s bs, ∀ f ∈ (R.turn s bs).out, WellFramed f) : CutFree cap read where
  same cs ds hcs hds heq := by
    rw [hread cs hcs, hread ds hds, heq]
    exact ⟨rfl, rfl, rfl⟩
  framed cs hcs := by
    rw [hread cs hcs]
    exact Incremental.out_feed hframed (fun f hf => absurd hf List.not_mem_nil) _

/-- What a session asks for at any time it is open. -/
def AsksWell (a : Incremental.Asking σ UInt8 Frame) : Prop :=
  a.held.halted = false → 0 < a.asked ∧ a.asked ≤ clientReadBuf ∧ a.got.length < a.asked

theorem clientRun_cutFree {R : Incremental σ UInt8 Frame} {s : σ} {first : Bytes}
    (hs : R.Settled (start s first))
    (hframed : ∀ s bs, ∀ f ∈ (R.turn s bs).out, WellFramed f) :
    CutFree clientReadBuf (fun cs => (clientRun R s first cs).seen) ∧
      ∀ cs, AsksWell (clientRun R s first cs) := by
  have hcap : 0 < clientReadBuf := by decide
  have hasks := Incremental.asks_ask hcap hs
  have hseen : (R.ask clientReadBuf (start s first)).seen = start s first := by
    simp [Incremental.Asking.seen, Incremental.ask, start]
  constructor
  · have hread (cs : List Bytes) :
        (clientRun R s first cs).seen = R.feed (start s first) cs.flatten := by
      rw [clientRun, (Incremental.run_arrive hcap hasks cs).2, hseen, Incremental.run_eq_feed hs]
    exact .of_feed (fun cs _ => hread cs) hframed
  · intro cs hopen
    obtain ⟨hsettled, hasked, hgot⟩ := (Incremental.run_arrive hcap hasks cs).1
    have hpos := Incremental.request_pos hcap hsettled hopen
    rw [← hasked] at hpos
    exact ⟨hpos.1, hpos.2, hgot hopen⟩

/-- The three readers hand over the same frames, and close at the same place of
the stream, however it is cut. An `async_read_some` always asks for the whole of
its buffer; the count that a `ClientSession` asks for is between one and that. -/
theorem frames_independent_of_cuts (handle : Handler H) (C : Cipher Key)
    (handshake : Bytes → Option (NoiseState Key)) (noise : NoiseState Key) (session : H) :
    (∀ first, CutFree clientReadBuf (fun cs => (clientPlainRun handle session first cs).seen) ∧
      ∀ cs, AsksWell (clientPlainRun handle session first cs)) ∧
    (CutFree clientReadBuf (fun cs => (clientEncryptedRun handle C noise session cs).seen) ∧
      ∀ cs, AsksWell (clientEncryptedRun handle C noise session cs)) ∧
    CutFree relayReadBuf (relayRun handle handshake C session) ∧
    CutFree relayReadBuf (upstreamRun handle session) := by
  refine ⟨fun first => clientRun_cutFree ?_ clientPlain_out,
    clientRun_cutFree ?_ (encryptedTurn_out 0 C), ?_, ?_⟩
  · exact Or.inr ⟨5, rfl, rfl⟩
  · exact Or.inr ⟨22, rfl, rfl⟩
  · have hread (cs : List Bytes) (hcs : ReadsOf relayReadBuf cs) :=
      run_onRead (R := relayReader handle handshake C) (h := start (.detecting session) [])
        relayTurn_holds (show heldBound + relayReadBuf ≤ 4 * 2 ^ 20 by decide) (Or.inr ⟨6, rfl, rfl⟩) hcs
    exact .of_feed hread (relayTurn_out handshake C)
  · have hread (cs : List Bytes) (hcs : ReadsOf relayReadBuf cs) :=
      run_onRead (R := upstreamReader handle) (h := start ⟨none, session⟩ []) plainTurn_holds
        (show heldBound + relayReadBuf ≤ 8 * 2 ^ 20 by decide) (Or.inr ⟨6, rfl, rfl⟩) hcs
    exact .of_feed hread plainTurn_out

/-- A `SetupConnection.Success` that comes in three reads. -/
theorem frames_independent_of_cuts_upstream :
    (upstreamRun (fun (s : Unit) _ => (s, false)) ()
      [[0, 0, 1, 6], [0, 0, 2], [0, 0, 0, 0, 0]]).out =
      [⟨⟨0, 1, 6⟩, [2, 0, 0, 0, 0, 0]⟩] := by
  have hsame := ((frames_independent_of_cuts (fun (s : Unit) _ => (s, false))
    (⟨fun _ _ _ => none, fun h => by cases h⟩ : Cipher Unit) (fun _ => none) ⟨(), (), 0, 0⟩
    ()).2.2.2.same [[0, 0, 1, 6], [0, 0, 2], [0, 0, 0, 0, 0]] [[0, 0, 1, 6, 0, 0, 2, 0, 0, 0, 0, 0]]
    (by decide) (by decide) (by decide)).1
  rw [hsame]
  decide

end MkPool.Segmentation
