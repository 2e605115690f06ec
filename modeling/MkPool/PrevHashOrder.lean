import MkPool.Sv2UpstreamClient
import MkPool.Tasks

/-! # The byte orders of a previous hash

A miner gets the display text of the hash with its eight words in reverse, and
puts the bytes of each word in reverse when it builds a header. The pool
reverses the whole text. The two agree on every position. -/
namespace MkPool.PrevHashOrder
open MkPool.Lib MkPool.Utils MkPool.Job MkPool.UpstreamSource

/-- `stratum_prevhash_to_header_le`, position by position. -/
def stratumPrevhashToHeaderLe (p : Str) : Str :=
  if p.length ≠ 64 then p
  else (List.range 8).flatMap fun w => (List.range 4).flatMap fun b =>
    [p.getD (w * 8 + (3 - b) * 2) '\x00', p.getD (w * 8 + (3 - b) * 2 + 1) '\x00']

/-! ## One word -/

/-- The four bytes of a word from the back. -/
theorem reversePairs_word (x : Str) (h : x.length = 8) :
    Hex.reversePairs x = (List.range 4).flatMap fun b =>
      [x.getD ((3 - b) * 2) '\x00', x.getD ((3 - b) * 2 + 1) '\x00'] := by
  match x, h with
  | [_, _, _, _, _, _, _, _], _ => rfl

/-- A position inside a word is a position of the text. -/
theorem getD_word {p : Str} {w i : Nat} (hi : i < 8) :
    ((p.drop (8 * w)).take 8).getD i '\x00' = p.getD (w * 8 + i) '\x00' := by
  rw [List.getD_eq_getElem?_getD, List.getD_eq_getElem?_getD, List.getElem?_take_of_lt hi,
    List.getElem?_drop, Nat.mul_comm]

/-- The positions the source writes out are the words of `swap_words_hex`. -/
theorem stratumPrevhashToHeaderLe_eq (p : Str) :
    stratumPrevhashToHeaderLe p = swapWordsHex p := by
  unfold stratumPrevhashToHeaderLe swapWordsHex
  by_cases hp : p.length = 64
  · rw [if_neg (not_not.mpr hp), if_neg (not_not.mpr hp)]
    refine List.flatMap_congr fun w hw => ?_
    have hw8 : w < 8 := List.mem_range.mp hw
    rw [reversePairs_word _ (by simp only [List.length_take, List.length_drop]; omega)]
    refine List.flatMap_congr fun b hb => ?_
    have hb4 : b < 4 := List.mem_range.mp hb
    rw [getD_word (by omega), getD_word (by omega), Nat.add_assoc]
  · rw [if_pos hp, if_pos hp]

/-! ## Words and bytes -/

/-- The first `k` words of a text in reverse order. -/
def wordsBack (n k : Nat) (p : Str) : Str :=
  (List.range k).flatMap fun w => (p.drop ((k - 1 - w) * n)).take n

theorem wordsBack_succ (n k : Nat) (p : Str) :
    wordsBack n (k + 1) p = (p.drop (k * n)).take n ++ wordsBack n k p := by
  unfold wordsBack
  rw [List.range_succ_eq_map, List.flatMap_cons, List.flatMap_map]
  congr 1
  refine List.flatMap_congr fun w _ => ?_
  rw [show k + 1 - 1 - (w + 1) = k - 1 - w by omega]

/-- Reversing the words, then the bytes of each, reverses the bytes. -/
theorem onPieces_wordsBack {n k : Nat} (hn : 2 ∣ n) {p : Str} (hp : k * n ≤ p.length) :
    onPieces n Hex.reversePairs k (wordsBack n k p) = Hex.reversePairs (p.take (k * n)) := by
  induction k with
  | zero => rw [Nat.zero_mul, List.take_zero]; rfl
  | succ k ih =>
    have hsucc : (k + 1) * n = k * n + n := Nat.succ_mul k n
    have hword : ((p.drop (k * n)).take n).length = n := by
      rw [List.length_take, List.length_drop]
      omega
    have heven : 2 ∣ (p.take (k * n)).length := by
      rw [List.length_take, Nat.min_eq_left (by omega)]
      exact Dvd.dvd.mul_left hn k
    rw [wordsBack_succ, onPieces_succ, List.take_left' hword, List.drop_left' hword,
      ih (by omega), ← Hex.reversePairs_append _ heven, hsucc, List.take_add]

/-- The order of `updateWork` and `notifyNewJob`, undone word by word. -/
theorem swapWordsHex_prevhashStratum {display : Str} (h : display.length = 64) :
    swapWordsHex (ClientSession.prevhashStratum display) = byteReverseHex display := by
  have hback : ClientSession.prevhashStratum display = wordsBack 8 8 display := by
    unfold ClientSession.prevhashStratum
    rw [if_pos h]
    rfl
  have hlen : (wordsBack 8 8 display).length = 64 := by
    simp [wordsBack, List.range_succ, h]
  rw [hback, swapWordsHex, if_neg (not_not.mpr hlen), byteReverseHex, if_pos (by rw [h])]
  calc _ = onPieces 8 Hex.reversePairs 8 (wordsBack 8 8 display) := rfl
    _ = Hex.reversePairs (display.take 64) := onPieces_wordsBack (by decide) h.ge
    _ = Hex.reversePairs display := by rw [← h, List.take_length]

/-! ## Involutions -/

theorem swapWordsHex_involutive : Function.Involutive swapWordsHex := by
  intro p
  by_cases hp : p.length = 64
  · exact swapWordsHex_swapWordsHex hp
  · have hsame : swapWordsHex p = p := if_pos hp
    rw [hsame, hsame]

theorem byteReverseHex_byteReverseHex {s : Str} (h : 2 ∣ s.length) :
    byteReverseHex (byteReverseHex s) = s := by
  have heven : s.length % 2 = 0 := Nat.mod_eq_zero_of_dvd h
  have hlen : (Hex.reversePairs s).length % 2 = 0 := by rw [Hex.length_reversePairs, heven]
  unfold byteReverseHex
  rw [if_pos heven, if_pos hlen, Hex.reversePairs_reversePairs h]

/-! ## What a miner's header has -/

/-- The previous hash of `mining.notify`, of the stratifier and of a session
with a commitment of its own, becomes the bytes the pool hashes. A hash that
came over SV2 comes back from the text its miners get. -/
theorem byte_orders_compose {draft : MiningJob} (hdisplay : draft.previousblockhash.length = 64)
    (jobId : Str) (clean : Bool) (aux : Coinbase.SessionAuxJob)
    (ext : Sv2UpstreamClient.ExtJob) (prev : Sv2UpstreamClient.PrevHash) (seq : Nat)
    {s : Str} (hs : 2 ∣ s.length) :
    stratumPrevhashToHeaderLe (Stratifier.publishJob draft jobId clean).notifyPrefix.prevhash =
        byteReverseHex draft.previousblockhash ∧
      stratumPrevhashToHeaderLe (Tasks.customPrefix draft aux).prevhash =
        byteReverseHex draft.previousblockhash ∧
      Function.Involutive swapWordsHex ∧
      hexToBytes (stratumPrevhashToHeaderLe
        (Sv2UpstreamClient.buildNotify ext prev clean seq).prevhashStratum) =
          some prev.prevHash.bytes ∧
      byteReverseHex (byteReverseHex s) = s := by
  refine ⟨?_, ?_, swapWordsHex_involutive, ?_, byteReverseHex_byteReverseHex hs⟩
  · rw [stratumPrevhashToHeaderLe_eq]
    exact swapWordsHex_prevhashStratum hdisplay
  · rw [stratumPrevhashToHeaderLe_eq]
    exact swapWordsHex_prevhashStratum hdisplay
  · rw [stratumPrevhashToHeaderLe_eq]
    have hback := swapWordsHex_involutive (bytesToHex prev.prevHash.bytes)
    exact (congrArg hexToBytes hback).trans (hexToBytes_bytesToHex _)

/-- At a hash whose bytes are all different. -/
theorem byte_orders_compose_counting :
    let display := bytesToHex ((List.range 32).map UInt8.ofNat).reverse
    let draft : MiningJob := { previousblockhash := display }
    let aux : Coinbase.SessionAuxJob := ⟨[], [], [], [], [], 0, 0⟩
    let prev : Sv2UpstreamClient.PrevHash := ⟨1, .zero, 0, 0⟩
    stratumPrevhashToHeaderLe (Stratifier.publishJob draft [] true).notifyPrefix.prevhash =
        byteReverseHex display ∧
      stratumPrevhashToHeaderLe (Tasks.customPrefix draft aux).prevhash = byteReverseHex display ∧
      Function.Involutive swapWordsHex ∧
      hexToBytes (stratumPrevhashToHeaderLe
        (Sv2UpstreamClient.buildNotify ⟨1, 0, true, [], [], []⟩ prev true 0).prevhashStratum) =
          some prev.prevHash.bytes ∧
      byteReverseHex (byteReverseHex display) = display :=
  @byte_orders_compose { previousblockhash := _ } (by decide) [] true _ _ _ 0 _ (by decide)

end MkPool.PrevHashOrder
