import MkPool.NoiseHandshake
import MkPool.Segmentation

/-! # The first bytes of a connection

`ClientSession::start` looks at one byte before it reads a handshake, and
`Sv2RelaySession::consume_frames` at three. Key material may begin with any of
them, and then it is taken for something else. -/
namespace MkPool.Greeting
open MkPool.Lib.Segments MkPool.Utils MkPool.Noise MkPool.NoiseHandshake MkPool.Sv2Transport
open MkPool.Segmentation

/-- How a connection begins. -/
inductive Begins where
  | v1
  | plaintext
  | refused
  | failed
  | answered (act2 : Bytes) (noise : NoiseState Bytes)
deriving DecidableEq

inductive State where
  | first
  | rest (b : UInt8)
  | ended (o : Begins)
deriving DecidableEq

/-- `std::isspace`, and the brace a request starts with. -/
def looksV1 (b : UInt8) : Bool := b = 0x7b || b = 0x20 || (0x09 ≤ b && b ≤ 0x0d)

/-- What the session does with an Act 1: with no reply it closes. -/
def afterAct1 (reply : Option (Bytes × NoiseState Bytes)) : Begins :=
  match reply with
  | none => .failed
  | some (act2, noise) => .answered act2 noise

section Turns

variable (reply : Bytes → Option (Bytes × NoiseState Bytes))

/-- `ClientSession::start` of a connection without TLS, by the port's flags. The
byte that told the protocol stays in front where it is part of what follows. -/
def clientTurn (exclusiveV2 noiseRequired : Bool) (s : State) (buf : Bytes) :
    Turn State UInt8 Frame :=
  match s with
  | .first =>
    await 1 buf fun front =>
      let b := front.headD 0
      if exclusiveV2 && noiseRequired then
        if looksV1 b then .halt none (.ended .refused) (buf.drop 1) else .go none (.rest b) (buf.drop 1)
      else if looksV1 b then
        if exclusiveV2 then .halt none (.ended .refused) (buf.drop 1)
        else .halt none (.ended .v1) (buf.drop 0)
      else if exclusiveV2 then .halt none (.ended .plaintext) (buf.drop 0)
      else .halt none (.ended .refused) (buf.drop 1)
  | .rest b =>
    await 63 buf fun more => .halt none (.ended (afterAct1 (reply (b :: more)))) (buf.drop 63)
  | .ended o => .halt none (.ended o) (buf.drop 0)

/-- The part of `consume_frames` before `handshake_done_` is set. -/
def relayTurn (s : State) (buf : Bytes) : Turn State UInt8 Frame :=
  match s with
  | .ended o => .halt none (.ended o) (buf.drop 0)
  | _ =>
    await 6 buf fun front =>
      if front.take 3 = [0, 0, 0] then .halt none (.ended .plaintext) (buf.drop 0)
      else
        await 64 buf fun act1 => .halt none (.ended (afterAct1 (reply act1))) (buf.drop 64)

variable {reply}

theorem clientTurn_steady {exclusiveV2 noiseRequired : Bool} (s : State) :
    Steady 0 (clientTurn reply exclusiveV2 noiseRequired s) := by
  unfold clientTurn
  cases s with
  | first =>
    refine Steady.await fun front _ => ?_
    dsimp only
    split
    · split
      · exact .halt le_rfl
      · exact .go le_rfl
    · split
      · split
        · exact .halt le_rfl
        · exact .halt (Nat.zero_le _)
      · split
        · exact .halt (Nat.zero_le _)
        · exact .halt le_rfl
  | rest b => exact Steady.await fun more _ => .halt le_rfl
  | ended o => exact .halt (Nat.zero_le _)

theorem relayTurn_steady (s : State) : Steady 0 (relayTurn reply s) := by
  unfold relayTurn
  cases s with
  | ended o => exact .halt (Nat.zero_le _)
  | first | rest b =>
    refine Steady.await fun front _ => ?_
    split
    · exact .halt (Nat.zero_le _)
    · exact Steady.await fun act1 _ => .halt le_rfl

theorem clientTurn_shrinks {exclusiveV2 noiseRequired : Bool} {s s' : State} {buf rest : Bytes}
    {o : Option Frame} (h : clientTurn reply exclusiveV2 noiseRequired s buf = .go o s' rest) :
    rest.length < buf.length := by
  unfold clientTurn at h
  cases s with
  | first =>
    obtain ⟨hlen, h⟩ := await_eq_go.mp h
    dsimp only at h
    split at h
    · split at h
      · cases h
      · cases h
        rw [List.length_drop]
        omega
    · split at h <;> split at h <;> cases h
  | rest b =>
    obtain ⟨_, h⟩ := await_eq_go.mp h
    cases h
  | ended o => cases h

/-- Each turn of a reader takes from the buffer. -/
theorem clientTurn_weight {exclusiveV2 noiseRequired : Bool} {s s' : State} {buf rest : Bytes}
    {o : Option Frame} (h : clientTurn reply exclusiveV2 noiseRequired s buf = .go o s' rest) :
    2 * rest.length + 0 < 2 * buf.length + 0 := by
  have hlt := clientTurn_shrinks h
  omega

theorem relayTurn_ne_go {s s' : State} {buf rest : Bytes} {o : Option Frame} :
    relayTurn reply s buf ≠ .go o s' rest := by
  intro h
  unfold relayTurn at h
  cases s with
  | ended o => cases h
  | first | rest b =>
    obtain ⟨_, h⟩ := await_eq_go.mp h
    split at h
    · cases h
    · obtain ⟨_, h⟩ := await_eq_go.mp h
      cases h

end Turns

/-- The first reads of a `ClientSession`. -/
def clientReader (reply : Bytes → Option (Bytes × NoiseState Bytes))
    (exclusiveV2 noiseRequired : Bool) : Incremental State UInt8 Frame where
  turn := clientTurn reply exclusiveV2 noiseRequired
  rank _ := 0
  go_weight := clientTurn_weight
  steady := clientTurn_steady

/-- The first reads of an `Sv2RelaySession`. -/
def relayReader (reply : Bytes → Option (Bytes × NoiseState Bytes)) :
    Incremental State UInt8 Frame where
  turn := relayTurn reply
  rank _ := 0
  go_weight h := absurd h relayTurn_ne_go
  steady := relayTurn_steady

/-- The relay session goes on with the transport that the greeting settles. -/
theorem relayTurn_goes_on {H : Type} (handle : Handler H) (C : Cipher Bytes)
    (reply : Bytes → Option (Bytes × NoiseState Bytes)) (session : H) (buf : Bytes) :
    Sv2Transport.relayTurn handle (fun act1 => (reply act1).map Prod.snd) C (.detecting session) buf =
      match relayTurn reply .first buf with
      | .wait n => .wait n
      | .halt _ (.ended .plaintext) rest => .go none (.plain ⟨none, session⟩) rest
      | .halt _ (.ended (.answered _ noise)) rest =>
        .go none (.encrypted ⟨none, noise, session⟩) rest
      | _ => .halt none (.detecting session) buf := by
  simp only [Sv2Transport.relayTurn, relayTurn, await]
  by_cases h6 : buf.length < 6
  · simp only [if_pos h6]
  · simp only [if_neg h6]
    by_cases hzero : (buf.take 6).take 3 = [0, 0, 0]
    · simp only [if_pos hzero, List.drop_zero]
    · simp only [if_neg hzero]
      by_cases h64 : buf.length < 64
      · simp only [if_pos h64]
      · simp only [if_neg h64]
        cases reply (buf.take 64) <;> rfl

/-! ## Whole greetings -/

section Runs

variable (reply : Bytes → Option (Bytes × NoiseState Bytes))

/-- A `ClientSession` after the pieces, on a port with these flags. -/
def clientGreeting (exclusiveV2 noiseRequired : Bool) (cuts : List Bytes) : State :=
  (clientRun (clientReader reply exclusiveV2 noiseRequired) .first [] cuts).seen.state

/-- An `Sv2RelaySession` after the reads. -/
def relayGreeting (cuts : List Bytes) : State :=
  (cuts.foldl (onRead (relayReader reply) (4 * 2 ^ 20)) (start .first [])).state

variable {reply} {act1 more : Bytes}

theorem client_feed {exclusiveV2 noiseRequired : Bool} (cuts : List Bytes) :
    clientGreeting reply exclusiveV2 noiseRequired cuts =
      ((clientReader reply exclusiveV2 noiseRequired).feed (start .first []) cuts.flatten).state := by
  have hs : (clientReader reply exclusiveV2 noiseRequired).Settled (start .first []) :=
    Or.inr ⟨1, rfl, rfl⟩
  have hcap : 0 < clientReadBuf := by decide
  have hseen : ((clientReader reply exclusiveV2 noiseRequired).ask clientReadBuf
      (start .first [])).seen = start .first [] := by
    simp [Incremental.Asking.seen, Incremental.ask, start]
  rw [clientGreeting, clientRun, (Incremental.run_arrive hcap (Incremental.asks_ask hcap hs) cuts).2,
    hseen, Incremental.run_eq_feed hs]

theorem relay_feed {cuts : List Bytes} (hcuts : ReadsOf relayReadBuf cuts) :
    relayGreeting reply cuts = ((relayReader reply).feed (start .first []) cuts.flatten).state := by
  have hs : (relayReader reply).Settled (start .first []) := Or.inr ⟨6, rfl, rfl⟩
  have hholds {s : State} {buf : Bytes} {n : Nat} (h : relayTurn reply s buf = .wait n) :
      buf.length < heldBound := by
    unfold relayTurn at h
    unfold heldBound Sv2Wire.maxMsgLength
    cases s with
    | ended o => cases h
    | first | rest b =>
      obtain ⟨hlt, _⟩ | ⟨_, h⟩ := await_eq_wait h
      · omega
      · split at h
        · cases h
        · obtain ⟨hlt, _⟩ | ⟨_, h⟩ := await_eq_wait h
          · omega
          · cases h
  rw [relayGreeting, run_onRead hholds (by decide) hs hcuts]

/-- An Act 1 on an encrypted port: its first byte settles whether it is read. -/
theorem client_act1 (hlen : act1.length = 64) :
    ((clientReader reply true true).feed (start .first []) (act1 ++ more)).state =
      .ended (if looksV1 (act1.headD 0) then .refused else afterAct1 (reply act1)) := by
  obtain ⟨b, rest, rfl⟩ := List.exists_cons_of_length_pos (by omega : 0 < act1.length)
  have hrest : rest.length = 63 := by simpa using hlen
  have hfirst : (clientReader reply true true).turn .first (b :: (rest ++ more)) =
      if looksV1 b then .halt none (.ended .refused) (rest ++ more)
      else .go none (.rest b) (rest ++ more) := by
    simp [clientReader, clientTurn, await]
  have hsecond : (clientReader reply true true).turn (.rest b) (rest ++ more) =
      .halt none (.ended (afterAct1 (reply (b :: rest)))) more := by
    simp [clientReader, clientTurn, await, hrest]
  show ((clientReader reply true true).settle (start .first (b :: (rest ++ more)))).state = _
  by_cases hv1 : looksV1 b = true
  · rw [if_pos hv1] at hfirst
    rw [Incremental.settle_halt hfirst, List.headD_cons, if_pos hv1]
    rfl
  · rw [if_neg hv1] at hfirst
    rw [Incremental.settle_go hfirst, Incremental.settle_halt hsecond, List.headD_cons, if_neg hv1]
    rfl

/-- An Act 1 at a relay: its first three bytes settle it. -/
theorem relay_act1 (hlen : act1.length = 64) :
    ((relayReader reply).feed (start .first []) (act1 ++ more)).state =
      .ended (if act1.take 3 = [0, 0, 0] then .plaintext else afterAct1 (reply act1)) := by
  have hfirst : (relayReader reply).turn .first (act1 ++ more) =
      if act1.take 3 = [0, 0, 0] then .halt none (.ended .plaintext) (act1 ++ more)
      else .halt none (.ended (afterAct1 (reply act1))) more := by
    have hfront : ((act1 ++ more).take 6).take 3 = act1.take 3 := by
      rw [List.take_take, List.take_append_of_le_length (by omega)]
      rfl
    have h6 : ¬ (act1 ++ more).length < 6 := by rw [List.length_append]; omega
    have h64 : ¬ (act1 ++ more).length < 64 := by rw [List.length_append]; omega
    have htake : (act1 ++ more).take 64 = act1 := by rw [← hlen, List.take_left]
    have hdrop : (act1 ++ more).drop 64 = more := by rw [← hlen, List.drop_left]
    simp only [relayReader, relayTurn, await, if_neg h6, if_neg h64, hfront, htake, hdrop,
      List.drop_zero]
  show ((relayReader reply).settle (start .first (act1 ++ more))).state = _
  by_cases hzero : act1.take 3 = [0, 0, 0]
  · rw [if_pos hzero] at hfirst
    rw [Incremental.settle_halt hfirst, if_pos hzero]
    rfl
  · rw [if_neg hzero] at hfirst
    rw [Incremental.settle_halt hfirst, if_neg hzero]
    rfl

end Runs

/-- The session has run the handshake on these 64 bytes, and its reply is the
234 bytes that came out of it. -/
def Answered (reply : Bytes → Option (Bytes × NoiseState Bytes)) (act1 : Bytes) (s : State) : Prop :=
  ∃ act2 noise, reply act1 = some (act2, noise) ∧ act2.length = 234 ∧
    s = .ended (.answered act2 noise)

theorem answered_iff {L : Crypto} {keyHex : Str} {E : Entropy L} {nowS : UInt32} {act1 : Bytes}
    {mistaken : Prop} [Decidable mistaken] {o : Begins} (ho : ∀ act2 noise, o ≠ .answered act2 noise) :
    Answered (respond keyHex E nowS) act1
        (.ended (if mistaken then o else afterAct1 (respond keyHex E nowS act1))) ↔
      UsableKey L keyHex ∧ ¬ mistaken := by
  obtain ⟨hkey, hsize⟩ := respond_spec keyHex E nowS act1
  rw [← hkey]
  constructor
  · rintro ⟨act2, noise, hreply, _, hstate⟩
    refine ⟨by rw [hreply]; rfl, fun hm => ?_⟩
    rw [if_pos hm] at hstate
    exact ho act2 noise (State.ended.inj hstate)
  · rintro ⟨hsome, hm⟩
    obtain ⟨⟨act2, noise⟩, hreply⟩ := Option.isSome_iff_exists.mp hsome
    exact ⟨act2, noise, hreply, hsize act2 noise hreply, by rw [if_neg hm, hreply]; rfl⟩

/-- The order of the group. -/
def groupOrder : Nat := 0xfffffffffffffffffffffffffffffffebaaedce6af48a03bbfd25e8cd0364141

/-- A library with the secrets of the real one, and a point for every one. -/
def sampleCrypto : Crypto :=
  let valid (k : Bytes) : Bool := k.length = 32 ∧ 0 < beValue k ∧ beValue k < groupOrder
  { sha256 := fun _ => List.replicate 32 0
    hmacSha256 := fun _ _ => List.replicate 32 0
    encrypt := fun _ _ p => p ++ List.replicate 16 0
    parity := fun k => if valid k then some false else none
    negate := fun _ => none
    ellswiftCreate := fun k _ => if valid k then some (List.replicate 64 1) else none
    ellswiftXdh := fun _ _ k => if valid k then some (List.replicate 32 1) else none
    xonly := fun _ => List.replicate 32 1
    sign := fun k _ _ => if valid k then some (List.replicate 64 1) else none
    length_encrypt := by simp
    parity_negate := by simp
    create_valid := by intro k aux; cases valid k <;> simp
    length_create := by intro k aux e h; cases hk : valid k <;> simp [hk] at h; simp [← h]
    xdh_valid := by intro a b k; cases valid k <;> simp
    sign_valid := by intro k m aux; cases valid k <;> simp
    length_sign := by intro k m aux sig h; cases hk : valid k <;> simp [hk] at h; simp [← h] }

def sampleEntropy : Entropy sampleCrypto where
  staticDraws := [List.replicate 32 1]
  staticAux := []
  ephemeralDraws := [List.replicate 32 0, List.replicate 32 2]
  ephemeralAux := []
  sigAux := []
  static_ends := by decide +kernel
  ephemeral_ends := by decide +kernel

def sampleKey : Str := List.replicate 64 '1'

theorem usable_sampleKey : UsableKey sampleCrypto sampleKey := by
  refine ⟨rfl, List.replicate 32 0x11, by decide +kernel, ?_⟩
  show (sampleCrypto.parity _).isSome = true
  decide +kernel

end MkPool.Greeting
