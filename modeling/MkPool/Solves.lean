import MkPool.Credits

/-! # Solves are handed over once

A share that meets the target of its job is handed to the node at its first
sighting, on every path but one: a V1 share below the session difficulty is
handed over without asking the table. Where this, the late clearing of the table
and an exception do no harm, each solve is handed over exactly once between two
changes of the tip (`solves_of_reach`). -/
namespace MkPool.Solves
open MkPool.Lib MkPool.Lib.Interaction MkPool.Utils MkPool.Config MkPool.Job MkPool.Coinbase
open MkPool.Stratifier MkPool.Calls MkPool.ClientSession MkPool.Tasks MkPool.ShareWatch
open MkPool.JsonValue MkPool.Pool MkPool.PoolLog MkPool.Credits
open MkPool.Play (usual easyPool request firstShare field hex64 firstId)

/-! ## Solves -/

/-- The solve that an entry hands over. What the eCash rule withholds counts. -/
def handedIn : Entry → Option Hash256
  | .did _ ⟨.submitBlock b, _⟩ => some b.hash
  | .did _ ⟨.withholdBlock hash, _⟩ => some hash
  | _ => none

/-- The solves handed over since the tip changed. -/
def handed (l : List Entry) : List Hash256 := (sinceTip l).filterMap handedIn

/-- The hash of a share that meets its target. -/
def solveIn : Entry → Option Hash256
  | .did _ ⟨.scored _ hash _ meets, _⟩ => if meets then some hash else none
  | _ => none

/-- The solves that came to their target comparison since the tip changed. -/
def solves (l : List Entry) : List Hash256 := (sinceTip l).filterMap solveIn

/-- The session is about to hand the solve over. -/
def InHand (q : Phase) (hash : Hash256) : Prop :=
  ∃ v, q.verdict = some v ∧ v.hash = hash ∧ v.meets = true ∧ q.handed = false ∧
    (v.path = .v1LowDiff ∨ q.first = some true)

/-- The session has yet to ask the table for the solve. -/
def Asking (q : Phase) (hash : Hash256) : Prop :=
  ∃ v, q.verdict = some v ∧ v.hash = hash ∧ v.meets = true ∧ v.path ≠ .v1LowDiff ∧ q.first = none

/-- A session is at the solve. -/
def Underway (l : List Entry) (hash : Hash256) : Prop :=
  ∃ n u, stageOf n l = some u ∧ (InHand u.phase hash ∨ Asking u.phase hash)

/-- The solve was handed over since the tip changed, or is about to be. -/
def Spent (l : List Entry) (hash : Hash256) : Prop :=
  hash ∈ handed l ∨ ∃ n u, stageOf n l = some u ∧ InHand u.phase hash

/-- Between two changes of the tip no solve is handed over twice, and each one
is handed over once when no session is at it any more. -/
def HandedOnce (log : List Entry) : Prop :=
  ∀ l, l <:+ log → (∀ hash, (handed l).count hash ≤ 1) ∧
    ∀ hash ∈ solves l, ¬ Underway l hash → (handed l).count hash = 1

/-! ## The condition -/

/-- The fingerprint of a solve that an entry registers as new. -/
def sightedIn (l : List Entry) : Entry → Option Str
  | .did n ⟨.registerShare fp, new⟩ =>
    if new && (stageOf n l).any fun u => u.phase.verdict.any (·.meets) then some fp else none
  | _ => none

/-- The fingerprints of solves that were new since the tip changed. -/
def sighted : List Entry → List Str
  | [] => []
  | e :: l => if tipChange e then [] else (sightedIn l e).toList ++ sighted l

/-- **Nothing spoils a solve.** A low-difficulty V1 share that is a solve was not
handed over since the tip changed and is not about to be. Any other solve that
was, or is, is on the table, which has not run full before `updateWork` comes to
clear it; and one that is on the table is there as a solve that was new since the
tip changed. No task throws with a solve in hand: its Zcash job can be sent again
and its aux target is hex. -/
def Unspoiled (env : Env) (h : History) : Entry → Prop
  | .did _ ⟨.scored path hash _ meets, _⟩ =>
    path = .v1LowDiff → meets = true → ¬ Spent h.log hash
  | .did n ⟨.registerShare fp, _⟩ => ∀ u v, stageOf n h.log = some u →
      u.phase.verdict = some v → v.meets = true →
      (Spent h.log v.hash → fp ∈ onTable h.log ∧
        (due h.log = true → (onTable h.log).length < 1000000)) ∧
      (fp ∈ h.strat.seenShares → fp ∈ sighted h.log)
  | .ended n => ∀ u hash, stageOf n h.log = some u → InHand u.phase hash →
      ¬ Broken (u.start.env env) u.start.session u.phase
  | _ => True

section Log

variable {l : List Entry} {e : Entry}

theorem handed_cons (htip : tipChange e = false) :
    handed (e :: l) = (handedIn e).toList ++ handed l := by
  unfold handed
  rw [sinceTip_cons, htip]
  cases he : handedIn e with
  | none =>
    rw [if_neg (by decide), List.filterMap_cons_none he]
    rfl
  | some hash =>
    rw [if_neg (by decide), List.filterMap_cons_some he]
    rfl

theorem solves_cons (htip : tipChange e = false) :
    solves (e :: l) = (solveIn e).toList ++ solves l := by
  unfold solves
  rw [sinceTip_cons, htip]
  cases he : solveIn e with
  | none =>
    rw [if_neg (by decide), List.filterMap_cons_none he]
    rfl
  | some hash =>
    rw [if_neg (by decide), List.filterMap_cons_some he]
    rfl

theorem handed_tip (htip : tipChange e = true) : handed (e :: l) = [] := by
  unfold handed
  rw [sinceTip_cons, if_pos htip]
  rfl

theorem solves_tip (htip : tipChange e = true) : solves (e :: l) = [] := by
  unfold solves
  rw [sinceTip_cons, if_pos htip]
  rfl

theorem sighted_cons (htip : tipChange e = false) :
    sighted (e :: l) = (sightedIn l e).toList ++ sighted l := by
  rw [sighted, htip]
  rfl

theorem handedOnce_cons (h : HandedOnce l) (hnodup : (handed (e :: l)).Nodup)
    (hkept : ∀ hash ∈ solves (e :: l), hash ∈ handed (e :: l) ∨ Underway (e :: l) hash) :
    HandedOnce (e :: l) := by
  intro l' hl
  rcases List.suffix_cons_iff.mp hl with rfl | hl
  · refine ⟨List.nodup_iff_count_le_one.mp hnodup, fun hash hsolve hidle => ?_⟩
    exact List.count_eq_one_of_mem hnodup ((hkept hash hsolve).resolve_right hidle)
  · exact h l' hl

end Log

/-! ## Solves in hand -/

/-- What is in hand is one session's and was not handed over; what came was, or a
session is at it. -/
structure Inv (h : History) : Prop where
  clean : ∀ n u, stageOf n h.log = some u → u.phase.verdict = none →
    u.phase.first = none ∧ u.phase.handed = false
  single : ∀ n m u t hash, stageOf n h.log = some u → stageOf m h.log = some t →
    InHand u.phase hash → InHand t.phase hash → n = m
  apart : ∀ n u hash, stageOf n h.log = some u → InHand u.phase hash → hash ∉ handed h.log
  nodup : (handed h.log).Nodup
  kept : ∀ hash ∈ solves h.log, hash ∈ handed h.log ∨ Underway h.log hash
  known : ∀ fp ∈ sighted h.log, ∃ hash, fp = bytesToHex hash.bytes ∧ Spent h.log hash
  once : HandedOnce h.log
  table : TableInv h

section Transfer

variable {h h' : History} {e : Entry}

/-- A solve stays handed over or in hand while what is in hand stays so, or is
handed over. -/
theorem spent_kept (hlog : h'.log = e :: h.log) (htip : tipChange e = false)
    (hheld : ∀ n u hash, stageOf n h.log = some u → InHand u.phase hash →
      (∃ t, stageOf n h'.log = some t ∧ InHand t.phase hash) ∨ handedIn e = some hash)
    {hash : Hash256} (h₀ : Spent h.log hash) : Spent h'.log hash := by
  rcases h₀ with hmem | ⟨n, u, hu, hin⟩
  · left
    rw [hlog, handed_cons htip]
    exact List.mem_append_right _ hmem
  · rcases hheld n u hash hu hin with ⟨t, ht, hin⟩ | he
    · exact .inr ⟨n, t, ht, hin⟩
    · left
      rw [hlog, handed_cons htip, he]
      exact List.mem_append_left _ (List.mem_singleton.mpr rfl)

/-- An entry that is no change of the tip, made by session `k`. It takes a solve
in hand that is not spent, and hands over what was in its hand. -/
theorem Inv.transfer (inv : Inv h) (k : Nat) (hlog : h'.log = e :: h.log)
    (htip : tipChange e = false) (htable : TableInv h')
    (hclean : ∀ n u, stageOf n h'.log = some u → u.phase.verdict = none →
      u.phase.first = none ∧ u.phase.handed = false)
    (hnew : ∀ n u hash, stageOf n h'.log = some u → InHand u.phase hash →
      (∃ t, stageOf n h.log = some t ∧ InHand t.phase hash) ∨ n = k ∧ ¬ Spent h.log hash)
    (hhanded : ∀ hash, handedIn e = some hash →
      (∃ t, stageOf k h.log = some t ∧ InHand t.phase hash) ∧
        ∀ u, stageOf k h'.log = some u → ¬ InHand u.phase hash)
    (hheld : ∀ n u hash, stageOf n h.log = some u → InHand u.phase hash →
      (∃ t, stageOf n h'.log = some t ∧ InHand t.phase hash) ∨ handedIn e = some hash)
    (hasked : ∀ n u hash, stageOf n h.log = some u → Asking u.phase hash →
      Underway h'.log hash ∨ Spent h.log hash)
    (hsolve : ∀ hash, solveIn e = some hash → Underway h'.log hash)
    (hsight : ∀ fp, sightedIn h.log e = some fp →
      ∃ hash, fp = bytesToHex hash.bytes ∧ Spent h'.log hash) : Inv h' := by
  have hspent {hash : Hash256} (h₀ : Spent h.log hash) := spent_kept hlog htip hheld h₀
  have hunder {hash : Hash256} (h₀ : Spent h'.log hash) :
      hash ∈ handed h'.log ∨ Underway h'.log hash := by
    rcases h₀ with hmem | ⟨n, u, hu, hin⟩
    · exact .inl hmem
    · exact .inr ⟨n, u, hu, .inl hin⟩
  have hnodup : (handed h'.log).Nodup := by
    rw [hlog, handed_cons htip]
    cases he : handedIn e with
    | none => exact inv.nodup
    | some hash =>
      obtain ⟨⟨t, ht, hin⟩, _⟩ := hhanded hash he
      exact List.nodup_cons.mpr ⟨inv.apart k t hash ht hin, inv.nodup⟩
  have hkept : ∀ hash ∈ solves h'.log, hash ∈ handed h'.log ∨ Underway h'.log hash := by
    intro hash hmem
    rw [hlog, solves_cons htip] at hmem
    rcases List.mem_append.mp hmem with hmem | hmem
    · exact .inr (hsolve hash (Option.mem_toList.mp hmem))
    · rcases inv.kept hash hmem with hmem | ⟨n, u, hu, hin | hask⟩
      · exact hunder (hspent (.inl hmem))
      · exact hunder (hspent (.inr ⟨n, u, hu, hin⟩))
      · rcases hasked n u hash hu hask with hunderway | hold
        · exact .inr hunderway
        · exact hunder (hspent hold)
  refine ⟨hclean, ?_, ?_, hnodup, hkept, ?_, ?_, htable⟩
  · intro n m u t hash hn hm hu ht
    rcases hnew n u hash hn hu with ⟨u', hn', hu'⟩ | ⟨rfl, hfree⟩
    · rcases hnew m t hash hm ht with ⟨t', hm', ht'⟩ | ⟨rfl, hfree⟩
      · exact inv.single n m u' t' hash hn' hm' hu' ht'
      · exact absurd (.inr ⟨n, u', hn', hu'⟩) hfree
    · rcases hnew m t hash hm ht with ⟨t', hm', ht'⟩ | ⟨rfl, _⟩
      · exact absurd (.inr ⟨m, t', hm', ht'⟩) hfree
      · rfl
  · intro n u hash hn hu hmem
    rw [hlog, handed_cons htip] at hmem
    rcases List.mem_append.mp hmem with hmem | hmem
    · obtain ⟨⟨t, ht, hin⟩, hgone⟩ := hhanded hash (Option.mem_toList.mp hmem)
      rcases hnew n u hash hn hu with ⟨u', hn', hu'⟩ | ⟨_, hfree⟩
      · obtain rfl := inv.single n k u' t hash hn' ht hu' hin
        exact hgone u hn hu
      · exact hfree (.inr ⟨k, t, ht, hin⟩)
    · rcases hnew n u hash hn hu with ⟨u', hn', hu'⟩ | ⟨_, hfree⟩
      · exact inv.apart n u' hash hn' hu' hmem
      · exact hfree (.inl hmem)
  · intro fp hmem
    rw [hlog, sighted_cons htip] at hmem
    rcases List.mem_append.mp hmem with hmem | hmem
    · exact hsight fp (Option.mem_toList.mp hmem)
    · obtain ⟨hash, hfp, hold⟩ := inv.known fp hmem
      exact ⟨hash, hfp, hspent hold⟩
  · rw [hlog] at hnodup hkept ⊢
    exact handedOnce_cons inv.once hnodup hkept

/-- After a change of the tip nothing was handed over yet. -/
theorem Inv.tip (inv : Inv h) (hlog : h'.log = e :: h.log) (htip : tipChange e = true)
    (hstages : ∀ n, stageOf n h'.log = stageOf n h.log) (htable : TableInv h') : Inv h' := by
  have hhanded : handed h'.log = [] := by rw [hlog, handed_tip htip]
  have hsolves : solves h'.log = [] := by rw [hlog, solves_tip htip]
  have hsighted : sighted h'.log = [] := by rw [hlog, sighted, if_pos htip]
  refine ⟨?_, ?_, ?_, ?_, ?_, ?_, ?_, htable⟩
  · intro n u hu
    exact inv.clean n u (hstages n ▸ hu)
  · intro n m u t hash hn hm
    exact inv.single n m u t hash (hstages n ▸ hn) (hstages m ▸ hm)
  · intro n u hash _ _ hmem
    rw [hhanded] at hmem
    cases hmem
  · rw [hhanded]
    exact List.nodup_nil
  · intro hash hmem
    rw [hsolves] at hmem
    cases hmem
  · intro fp hmem
    rw [hsighted] at hmem
    cases hmem
  · rw [hlog] at hhanded hsolves ⊢
    refine handedOnce_cons inv.once (by rw [hhanded]; exact List.nodup_nil) fun hash hmem => ?_
    rw [hsolves] at hmem
    cases hmem

end Transfer

/-! ## What happens to a solve -/

section Steps

variable {env : Env} {h h' : History} {e : Entry}

/-- A call of a session, by what it does to the session's own solve. -/
theorem Inv.did {n : Nat} {u : Stage} {c : Call} {x : Answer c} {strat : StratState}
    (inv : Inv h) (stage : stageOf n h.log = some u)
    (htable : TableInv (h.add strat (.did n ⟨c, x⟩)))
    (hclean : (Phase.next c u.phase x).verdict = none →
      (Phase.next c u.phase x).first = none ∧ (Phase.next c u.phase x).handed = false)
    (hnew : ∀ hash, InHand (Phase.next c u.phase x) hash →
      InHand u.phase hash ∨ ¬ Spent h.log hash)
    (hhanded : ∀ hash, handedIn (.did n ⟨c, x⟩) = some hash →
      InHand u.phase hash ∧ ¬ InHand (Phase.next c u.phase x) hash)
    (hheld : ∀ hash, InHand u.phase hash →
      InHand (Phase.next c u.phase x) hash ∨ handedIn (.did n ⟨c, x⟩) = some hash)
    (hasked : ∀ hash, Asking u.phase hash → InHand (Phase.next c u.phase x) hash ∨
      Asking (Phase.next c u.phase x) hash ∨ Spent h.log hash)
    (hsolve : ∀ hash, solveIn (.did n ⟨c, x⟩) = some hash →
      InHand (Phase.next c u.phase x) hash ∨ Asking (Phase.next c u.phase x) hash)
    (hsight : ∀ fp, sightedIn h.log (.did n ⟨c, x⟩) = some fp →
      ∃ hash, fp = bytesToHex hash.bytes ∧ InHand (Phase.next c u.phase x) hash) :
    Inv (h.add strat (.did n ⟨c, x⟩)) := by
  have own : stageOf n (.did n ⟨c, x⟩ :: h.log) = some (u.next ⟨c, x⟩) := by
    rw [stageOf_did, if_pos rfl, stage]
    rfl
  have other {m : Nat} {t : Stage} (hm : m ≠ n) (ht : stageOf m h.log = some t) :
      stageOf m (.did n ⟨c, x⟩ :: h.log) = some t := by
    rw [stageOf_did, if_neg (Ne.symm hm), ht]
  refine inv.transfer n rfl rfl htable (fun m t ht hv => ?_) (fun m t hash ht hin => ?_)
    (fun hash he => ?_) (fun m t hash ht hin => ?_) (fun m t hash ht hask => ?_)
    (fun hash he => ?_) (fun fp he => ?_)
  · rcases stage_of_did ht with ⟨_, u', hu', rfl⟩ | ⟨_, ht⟩
    · obtain rfl : u = u' := Option.some.inj (stage.symm.trans hu')
      exact hclean hv
    · exact inv.clean m t ht hv
  · rcases stage_of_did ht with ⟨rfl, u', hu', rfl⟩ | ⟨_, ht⟩
    · obtain rfl : u = u' := Option.some.inj (stage.symm.trans hu')
      rcases hnew hash hin with hold | hfree
      · exact .inl ⟨u, stage, hold⟩
      · exact .inr ⟨rfl, hfree⟩
    · exact .inl ⟨t, ht, hin⟩
  · obtain ⟨hin, hgone⟩ := hhanded hash he
    refine ⟨⟨u, stage, hin⟩, fun t ht => ?_⟩
    obtain rfl : u.next ⟨c, x⟩ = t := Option.some.inj (own.symm.trans ht)
    exact hgone
  · by_cases hm : m = n
    · subst hm
      obtain rfl : u = t := Option.some.inj (stage.symm.trans ht)
      rcases hheld hash hin with hin | he
      · exact .inl ⟨_, own, hin⟩
      · exact .inr he
    · exact .inl ⟨t, other hm ht, hin⟩
  · by_cases hm : m = n
    · subst hm
      obtain rfl : u = t := Option.some.inj (stage.symm.trans ht)
      rcases hasked hash hask with hin | hask | hold
      · exact .inl ⟨m, _, own, .inl hin⟩
      · exact .inl ⟨m, _, own, .inr hask⟩
      · exact .inr hold
    · exact .inl ⟨m, t, other hm ht, .inr hask⟩
  · exact ⟨n, _, own, hsolve hash he⟩
  · obtain ⟨hash, hfp, hin⟩ := hsight fp he
    exact ⟨hash, hfp, .inr ⟨n, _, own, hin⟩⟩

/-- A solve that the table does not know is not spent, and one that it knows is. -/
theorem Inv.asked {n : Nat} {u : Stage} {v : Verdict} {new : Bool} {strat : StratState}
    (inv : Inv h) (stage : stageOf n h.log = some u) (hv : u.phase.verdict = some v)
    (hmeets : v.meets = true)
    (answer : StratStep (.registerShare (bytesToHex v.hash.bytes)) h.strat new strat)
    (hcap : registered h.log < 1000000)
    (hok : Unspoiled env h (.did n ⟨.registerShare (bytesToHex v.hash.bytes), new⟩)) :
    (new = true → ¬ Spent h.log v.hash) ∧ (new = false → Spent h.log v.hash) := by
  obtain ⟨hrepeat, hsight⟩ := hok u v stage hv hmeets
  have hnew : new = decide (bytesToHex v.hash.bytes ∉ shareRoom h.strat.seenShares) := answer.1
  constructor
  · rintro rfl hspent
    obtain ⟨hmem, hlen⟩ := hrepeat hspent
    have hlt : (onTable h.log).length < 1000000 := by
      cases hd : due h.log with
      | true => exact hlen hd
      | false => exact lt_of_le_of_lt (inv.table.recent hd) hcap
    rw [inv.table.room hlt] at hnew
    exact of_decide_eq_true hnew.symm (inv.table.knows hlt.le _ hmem)
  · rintro rfl
    have hseen : bytesToHex v.hash.bytes ∈ shareRoom h.strat.seenShares :=
      not_not.mp (of_decide_eq_false hnew.symm)
    have hmem : bytesToHex v.hash.bytes ∈ h.strat.seenShares := by
      unfold shareRoom at hseen
      split at hseen
      · cases Finset.notMem_empty _ hseen
      · exact hseen
    obtain ⟨hash, hfp, hspent⟩ := inv.known _ (hsight hmem)
    have hbytes := Hash256.ext_bytes (Hex.encode_injective hfp)
    rwa [hbytes]

/-- A call that neither scores a share nor asks for it nor hands it over. -/
theorem Inv.did_quiet {n : Nat} {u : Stage} {c : Call} {x : Answer c} {strat : StratState}
    (inv : Inv h) (stage : stageOf n h.log = some u)
    (htable : TableInv (h.add strat (.did n ⟨c, x⟩)))
    (hsame : (Phase.next c u.phase x).verdict = u.phase.verdict ∧
      (Phase.next c u.phase x).first = u.phase.first ∧
      (Phase.next c u.phase x).handed = u.phase.handed)
    (hhanded : handedIn (.did n ⟨c, x⟩) = none) (hsolve : solveIn (.did n ⟨c, x⟩) = none)
    (hsight : sightedIn h.log (.did n ⟨c, x⟩) = none) : Inv (h.add strat (.did n ⟨c, x⟩)) := by
  obtain ⟨hverdict, hfirst, hhand⟩ := hsame
  have hin (hash : Hash256) : InHand (Phase.next c u.phase x) hash ↔ InHand u.phase hash := by
    unfold InHand
    rw [hverdict, hfirst, hhand]
  have hask (hash : Hash256) : Asking (Phase.next c u.phase x) hash ↔ Asking u.phase hash := by
    unfold Asking
    rw [hverdict, hfirst]
  refine inv.did stage htable (fun hv => ?_) (fun hash h₀ => .inl ((hin hash).mp h₀))
    (fun hash he => ?_) (fun hash h₀ => .inl ((hin hash).mpr h₀))
    (fun hash h₀ => .inr (.inl ((hask hash).mpr h₀))) (fun hash he => ?_) fun fp he => ?_
  · rw [hfirst, hhand]
    exact inv.clean n u stage (hverdict.symm.trans hv)
  · rw [hhanded] at he
    cases he
  · rw [hsolve] at he
    cases he
  · rw [hsight] at he
    cases he

/-- A share comes to its target comparison. -/
theorem Inv.did_scored {n : Nat} {u : Stage} {path : SharePath} {hash : Hash256}
    {job : Option MiningJob} {meets : Bool} {x : Answer (.scored path hash job meets)}
    {strat : StratState} (inv : Inv h) (stage : stageOf n h.log = some u)
    (hnone : u.phase.verdict = none)
    (htable : TableInv (h.add strat (.did n ⟨.scored path hash job meets, x⟩)))
    (hok : Unspoiled env h (.did n ⟨.scored path hash job meets, x⟩)) :
    Inv (h.add strat (.did n ⟨.scored path hash job meets, x⟩)) := by
  obtain ⟨hfirst, hhand⟩ := inv.clean n u stage hnone
  have idle (hash' : Hash256) : ¬ InHand u.phase hash' := by
    rintro ⟨v, hv, _⟩
    rw [hnone] at hv
    cases hv
  refine inv.did stage htable (fun hv => by cases hv) (fun hash' hin => .inr ?_)
    (fun hash' he => by cases he) (fun hash' hin => absurd hin (idle hash'))
    (fun hash' hask => ?_) (fun hash' he => ?_) fun fp he => by cases he
  · obtain ⟨v, hv, rfl, hmeets, _, hpath⟩ := hin
    obtain rfl : _ = v := Option.some.inj hv
    rcases hpath with hpath | hone
    · exact hok hpath hmeets
    · have hone : u.phase.first = some true := hone
      rw [hfirst] at hone
      cases hone
  · obtain ⟨v, hv, _⟩ := hask
    rw [hnone] at hv
    cases hv
  · obtain ⟨hmeets, rfl⟩ : meets = true ∧ hash = hash' := by simpa [solveIn] using he
    by_cases hpath : path = .v1LowDiff
    · exact .inl ⟨_, rfl, rfl, hmeets, hhand, .inl hpath⟩
    · exact .inr ⟨_, rfl, rfl, hmeets, hpath, hfirst⟩

/-- The table is asked for a share. -/
theorem Inv.did_register {n : Nat} {u : Stage} {fp : Str} {new : Bool} {strat : StratState}
    (inv : Inv h) (stage : stageOf n h.log = some u)
    (allowed : u.phase.Allows (u.start.env env) u.start.session u.start.task (.registerShare fp))
    (answer : StratStep (.registerShare fp) h.strat new strat)
    (htable : TableInv (h.add strat (.did n ⟨.registerShare fp, new⟩)))
    (hcap : registered h.log < 1000000)
    (hok : Unspoiled env h (.did n ⟨.registerShare fp, new⟩)) :
    Inv (h.add strat (.did n ⟨.registerShare fp, new⟩)) := by
  obtain ⟨v, hv, rfl, hfirst, hhand, _, hpath, _⟩ := allowed
  -- a solve in hand after the answer is this one, and it is new
  have arrives {hash : Hash256}
      (hin : InHand (Phase.next (.registerShare (bytesToHex v.hash.bytes)) u.phase new) hash) :
      v.hash = hash ∧ v.meets = true ∧ new = true := by
    obtain ⟨v', hv', rfl, hmeets, _, hgate⟩ := hin
    obtain rfl : v = v' := Option.some.inj (hv.symm.trans hv')
    exact ⟨rfl, hmeets, Option.some.inj (hgate.resolve_left hpath)⟩
  refine inv.did stage htable (fun hnone => ?_) (fun hash hin => .inr ?_)
    (fun hash he => by cases he) (fun hash hin => ?_) (fun hash hask => ?_)
    (fun hash he => by cases he) fun fp he => ?_
  · have hnone : u.phase.verdict = none := hnone
    rw [hv] at hnone
    cases hnone
  · obtain ⟨rfl, hmeets, hnew⟩ := arrives hin
    exact (inv.asked stage hv hmeets answer hcap hok).1 hnew
  · obtain ⟨v', hv', _, _, _, hgate⟩ := hin
    obtain rfl : v = v' := Option.some.inj (hv.symm.trans hv')
    rcases hgate with hlow | hone
    · exact absurd hlow hpath
    · rw [hfirst] at hone
      cases hone
  · obtain ⟨v', hv', rfl, hmeets, _, _⟩ := hask
    obtain rfl : v = v' := Option.some.inj (hv.symm.trans hv')
    cases hx : new with
    | true => exact .inl ⟨v, hv, rfl, hmeets, hhand, .inr rfl⟩
    | false => exact .inr (.inr ((inv.asked stage hv hmeets answer hcap hok).2 hx))
  · simp only [sightedIn, stage, hv, Option.any_some, Bool.and_eq_true] at he
    obtain ⟨⟨rfl, hmeets⟩, hfp⟩ := Option.ite_none_right_eq_some.mp he
    exact ⟨v.hash, (Option.some.inj hfp).symm, v, hv, rfl, hmeets, hhand, .inr rfl⟩

/-- A solve is handed over, or withheld. -/
theorem Inv.did_hand {n : Nat} {u : Stage} {c : Call} {x : Answer c} {hash : Hash256}
    {strat : StratState} (inv : Inv h) (stage : stageOf n h.log = some u)
    (hands : u.phase.Hands hash) (htable : TableInv (h.add strat (.did n ⟨c, x⟩)))
    (hnext : Phase.next c u.phase x = { u.phase with handed := true })
    (hhanded : handedIn (.did n ⟨c, x⟩) = some hash) (hsolve : solveIn (.did n ⟨c, x⟩) = none)
    (hsight : sightedIn h.log (.did n ⟨c, x⟩) = none) : Inv (h.add strat (.did n ⟨c, x⟩)) := by
  obtain ⟨v, hv, rfl, hmeets, hhand, hgate⟩ := hands
  have gone (hash' : Hash256) : ¬ InHand (Phase.next c u.phase x) hash' := by
    rintro ⟨_, _, _, _, hhand', _⟩
    rw [hnext] at hhand'
    cases hhand'
  refine inv.did stage htable (fun hnone => ?_) (fun hash' hin => absurd hin (gone hash'))
    (fun hash' he => ?_) (fun hash' hin => .inr ?_) (fun hash' hask => ?_) (fun hash' he => ?_)
    fun fp he => ?_
  · rw [hnext] at hnone
    have hnone : u.phase.verdict = none := hnone
    rw [hv] at hnone
    cases hnone
  · rw [hhanded] at he
    cases he
    exact ⟨⟨v, hv, rfl, hmeets, hhand, hgate⟩, gone v.hash⟩
  · obtain ⟨v', hv', rfl, _⟩ := hin
    obtain rfl : v = v' := Option.some.inj (hv.symm.trans hv')
    exact hhanded
  · obtain ⟨v', hv', _, _, hpath, hfirst⟩ := hask
    obtain rfl : v = v' := Option.some.inj (hv.symm.trans hv')
    rcases hgate with hlow | hone
    · exact absurd hlow hpath
    · rw [hfirst] at hone
      cases hone
  · rw [hsolve] at he
    cases he
  · rw [hsight] at he
    cases he

/-- A session that begins or ends a task, with no solve in hand when it ends. -/
theorem Inv.turn {k : Nat} (inv : Inv h) (hlog : h'.log = e :: h.log)
    (htip : tipChange e = false) (htable : TableInv h')
    (hstages : ∀ n u, stageOf n h'.log = some u → stageOf n h.log = some u ∨ u.phase = {})
    (hothers : ∀ n u, n ≠ k → stageOf n h.log = some u → stageOf n h'.log = some u)
    (hdone : ∀ u hash, stageOf k h.log = some u →
      ¬ InHand u.phase hash ∧ ¬ Asking u.phase hash)
    (hhanded : handedIn e = none) (hsolve : solveIn e = none)
    (hsight : sightedIn h.log e = none) : Inv h' := by
  refine inv.transfer k hlog htip htable (fun n u hu hv => ?_) (fun n u hash hu hin => .inl ?_)
    (fun hash he => ?_) (fun n u hash hu hin => .inl ?_) (fun n u hash hu hask => .inl ?_)
    (fun hash he => ?_) fun fp he => ?_
  · rcases hstages n u hu with hold | hnew
    · exact inv.clean n u hold hv
    · rw [hnew]
      exact ⟨rfl, rfl⟩
  · rcases hstages n u hu with hold | hnew
    · exact ⟨u, hold, hin⟩
    · rw [hnew] at hin
      obtain ⟨v, hv, _⟩ := hin
      cases hv
  · rw [hhanded] at he
    cases he
  · by_cases hn : n = k
    · exact absurd hin (hdone u hash (hn ▸ hu)).1
    · exact ⟨u, hothers n u hn hu, hin⟩
  · by_cases hn : n = k
    · exact absurd hask (hdone u hash (hn ▸ hu)).2
    · exact ⟨n, u, hothers n u hn hu, .inr hask⟩
  · rw [hsolve] at he
    cases he
  · rw [hsight] at he
    cases he

theorem Inv.step (inv : Inv h) (hcap : Uncrowded h e) (hok : Unspoiled env h e)
    (hs : Happens env h e h') : Inv h' := by
  have htable := inv.table.step hs
  cases hs with
  | @began n start idle =>
    refine inv.turn rfl rfl htable (fun m u hu => ?_) (fun m u hm hu => ?_) (k := n)
      (fun u hash hu => ?_) rfl rfl rfl
    · have hu : stageOf m (.began n start :: h.log) = some u := hu
      rw [stageOf_began] at hu
      split at hu
      · cases hu
        exact .inr rfl
      · exact .inl hu
    · show stageOf m (.began n start :: h.log) = some u
      rw [stageOf_began, if_neg (Ne.symm hm), hu]
    · rw [idle] at hu
      cases hu
  | @ended n u stage settled =>
    refine inv.turn rfl rfl htable (fun m t ht => ?_) (fun m t hm ht => ?_) (k := n)
      (fun t hash ht => ?_) rfl rfl rfl
    · have ht : stageOf m (.ended n :: h.log) = some t := ht
      rw [stageOf_ended] at ht
      split at ht
      · cases ht
      · exact .inl ht
    · show stageOf m (.ended n :: h.log) = some t
      rw [stageOf_ended, if_neg (Ne.symm hm), ht]
    · obtain rfl : u = t := Option.some.inj (stage.symm.trans ht)
      constructor
      · intro hin
        have hbroken := hok u hash stage hin
        obtain ⟨v, hv, _, hmeets, hhand, hgate⟩ := hin
        rcases settled.handed v hv hmeets hgate with hdone | hbad
        · rw [hhand] at hdone
          cases hdone
        · exact hbroken hbad
      · rintro ⟨v, hv, _, hmeets, hpath, hfirst⟩
        exact settled.registered v hv hpath (fun _ => hmeets) hfirst
  | ticked =>
    exact inv.transfer 0 rfl rfl htable inv.clean (fun n u hash hu hin => .inl ⟨u, hu, hin⟩)
      (fun hash he => by cases he) (fun n u hash hu hin => .inl ⟨u, hu, hin⟩)
      (fun n u hash hu hask => .inl ⟨n, u, hu, .inr hask⟩) (fun hash he => by cases he)
      fun fp he => by cases he
  | @fed c x strat allowed answer =>
    cases htip : tipChange (.fed ⟨c, x⟩) with
    | true => exact inv.tip rfl htip (fun n => rfl) htable
    | false =>
      exact inv.transfer 0 rfl htip htable inv.clean (fun n u hash hu hin => .inl ⟨u, hu, hin⟩)
        (fun hash he => by cases he) (fun n u hash hu hin => .inl ⟨u, hu, hin⟩)
        (fun n u hash hu hask => .inl ⟨n, u, hu, .inr hask⟩) (fun hash he => by cases he)
        fun fp he => by cases he
  | @did n u c x strat stage allowed answer gives =>
    cases c with
    | scored path hash job meets => exact inv.did_scored stage allowed.1 htable hok
    | registerShare fp => exact inv.did_register stage allowed answer htable hcap hok
    | submitBlock b => exact inv.did_hand stage allowed.1 htable rfl rfl rfl rfl
    | withholdBlock hash => exact inv.did_hand stage allowed htable rfl rfl rfl rfl
    | _ => exact inv.did_quiet stage htable ⟨rfl, rfl, rfl⟩ rfl rfl rfl

end Steps

/-! ## Runs -/

/-- **Each solve is handed over once.** In a run where nothing spoils a solve, none
is handed over twice between two changes of the tip, and each is handed over that
no session is at any more. -/
theorem solves_of_reach {env : Env} {p : PoolState}
    (h : Pool.Reach env (fun h e => Uncrowded h e ∧ Unspoiled env h e) p) : HandedOnce p.log := by
  have inv : Inv p.toHistory := by
    refine Reach.history h ?_ fun h e h' inv hok hs => inv.step hok.1 hok.2 hs
    refine ⟨?_, ?_, ?_, ?_, ?_, ?_, ?_, ?_⟩
    · intro n u hu
      cases hu
    · intro n m u t hash hu
      cases hu
    · intro n u hash hu
      cases hu
    · exact List.nodup_nil
    · intro hash hmem
      cases hmem
    · intro fp hmem
      cases hmem
    · intro l hl
      rw [List.suffix_nil.mp hl]
      exact ⟨fun hash => Nat.zero_le _, fun hash hmem => by cases hmem⟩
    · exact ⟨fun _ fp hfp => (by cases hfp), Nat.le_refl _, fun _ => Nat.le_refl _⟩
  exact inv.once

/-- An entry that hands nothing over and takes no solve in hand. -/
def calm : Entry → Bool
  | .did _ ⟨.registerShare _, _⟩ => false
  | .did _ ⟨.submitBlock _, _⟩ | .did _ ⟨.withholdBlock _, _⟩ => false
  | .did _ ⟨.scored path .., _⟩ => path ≠ .v1LowDiff
  | _ => true

theorem not_spent_of_calm {l : List Entry} (hl : l.all calm = true) (hash : Hash256) :
    ¬ Spent l hash := by
  rintro (hmem | ⟨n, u, hu, v, hv, _, _, _, hgate⟩)
  · obtain ⟨e, he, hhanded⟩ := List.mem_filterMap.mp hmem
    have hcalm := List.all_eq_true.mp hl e ((List.takeWhile_subset _) he)
    unfold handedIn at hhanded
    split at hhanded
    · cases hcalm
    · cases hcalm
    · cases hhanded
  · have hstage : u.phase.first = none ∧
        ∀ v, u.phase.verdict = some v → v.path ≠ .v1LowDiff := by
      refine phase_of_all (P := fun q => q.first = none ∧
        ∀ v, q.verdict = some v → v.path ≠ .v1LowDiff) ⟨rfl, fun v hv => by cases hv⟩ ?_ hl hu
      intro m c x q hc hq
      cases c with
      | registerShare | submitBlock | withholdBlock => cases hc
      | scored path hash job meets =>
        refine ⟨hq.1, fun v hv => ?_⟩
        obtain rfl : _ = v := Option.some.inj hv
        exact of_decide_eq_true hc
      | _ => exact hq
    rcases hgate with hlow | hone
    · exact hstage.2 v hv hlow
    · rw [hstage.1] at hone
      cases hone

/-- A share that may be handed over is in hand. -/
def holds (q : Phase) : Bool :=
  q.verdict.any fun v => !q.handed && (v.path = .v1LowDiff || q.first = some true)

/-- No share is below the session difficulty, each is the first one or on the table,
and no task ends with a solve in hand. -/
def plainSolve (h : History) : Entry → Bool
  | .did _ ⟨.scored path .., _⟩ => path ≠ .v1LowDiff
  | .did _ ⟨.registerShare fp, _⟩ => decide (registered h.log < 1000000) &&
      (h.log.all calm || decide (fp ∈ onTable h.log) && !due h.log) &&
      (decide (fp ∉ h.strat.seenShares) || decide (fp ∈ sighted h.log))
  | .ended n => (stageOf n h.log).all fun u => !holds u.phase
  | _ => true

theorem unspoiled_of_plain {env : Env} {h : History} {e : Entry} (hc : plainSolve h e = true) :
    Uncrowded h e ∧ Unspoiled env h e := by
  cases e with
  | began | fed | ticked => exact ⟨trivial, trivial⟩
  | ended n =>
    refine ⟨trivial, fun u hash hu hin => ?_⟩
    obtain ⟨v, hv, _, _, hhand, hgate⟩ := hin
    have hnot : holds u.phase = false := by simpa [plainSolve, hu] using hc
    simp only [holds, hv, hhand, Option.any_some, Bool.not_false, Bool.true_and,
      Bool.or_eq_false_iff, decide_eq_false_iff_not] at hnot
    exact absurd hgate (not_or.mpr hnot)
  | did n ev =>
    obtain ⟨c, x⟩ := ev
    cases c with
    | scored path hash job meets =>
      exact ⟨trivial, fun hlow => absurd hlow (of_decide_eq_true hc)⟩
    | registerShare fp =>
      simp only [plainSolve, Bool.and_eq_true, Bool.or_eq_true, decide_eq_true_eq,
        Bool.not_eq_true'] at hc
      obtain ⟨⟨hcap, hfirst⟩, hseen⟩ := hc
      refine ⟨hcap, fun u v _ _ _ => ⟨fun hspent => ?_, fun hmem => hseen.resolve_left ?_⟩⟩
      · rcases hfirst with hcalm | ⟨hmem, hdue⟩
        · exact absurd hspent (not_spent_of_calm hcalm v.hash)
        · exact ⟨hmem, fun hd => by rw [hdue] at hd; cases hd⟩
      · exact not_not.mpr hmem
    | _ => exact ⟨trivial, trivial⟩

/-- A template whose target any share meets. -/
def easyTemplate : Json :=
  .object [field "result" (.object [
    field "previousblockhash" (hex64 'a'), field "bits" (.string "207fffff".toList),
    field "coinbasevalue" (.unsigned 1000), field "height" (.unsigned 0)])]

/-- A V1 miner that sends its solve twice. -/
def solveRepeats : List (Play.Replies × PoolPlay.Move) :=
  [(usual, .connect 0 "0a0b0c0d".toList false),
    (usual, .line 0 (request "mining.subscribe" [])),
    (usual, .line 0 (request "mining.authorize" ["miner.1", "x"])),
    (usual, .validated 0 none true),
    (usual, .work easyTemplate firstId), (usual, .notify 0),
    (usual, .line 0 firstShare), (usual, .line 0 firstShare)]

/-- A solve above the session difficulty that comes twice is handed over once. -/
theorem solves_of_reach_miner :
    ∃ p : PoolState, (solves p.log).length = 2 ∧ (handed p.log).length = 1 ∧ HandedOnce p.log := by
  have h : (PoolPlay.play easyPool plainSolve (fresh easyPool) solveRepeats).any (fun p =>
      decide ((solves p.log).length = 2) && decide ((handed p.log).length = 1)) = true := by
    decide +kernel
  obtain ⟨p, hp, hx⟩ := (Option.any_eq_true _ _).mp h
  obtain ⟨hcame, hhanded⟩ := (Bool.and_eq_true _ _).mp hx
  have hreach : Pool.Reach easyPool (fun h e => Uncrowded h e ∧ Unspoiled easyPool h e) p :=
    PoolPlay.reach_of_play (fun _ _ hc => unspoiled_of_plain hc) .fresh hp
  exact ⟨p, of_decide_eq_true hcame, of_decide_eq_true hhanded, solves_of_reach hreach⟩

/-- The pool with a session difficulty that no share reaches. -/
def hardPool : Env :=
  { easyPool with coin := { easyPool.coin with activeTier := { startingDifficulty := 1000000 } } }

/-- **A solve below the session difficulty that comes twice is handed over twice.** -/
theorem handed_twice : ∃ env p, Pool.Reach env Uncrowded p ∧ ¬ HandedOnce p.log := by
  have h : (PoolPlay.play hardPool unregistered (fresh hardPool) solveRepeats).any (fun p =>
      !decide (handed p.log).Nodup) = true := by
    decide +kernel
  obtain ⟨p, hp, hx⟩ := (Option.any_eq_true _ _).mp h
  refine ⟨hardPool, p,
    PoolPlay.reach_of_play (fun _ _ hc => uncrowded_of_unregistered hc) .fresh hp, fun honce => ?_⟩
  have hnodup := List.nodup_iff_count_le_one.mpr (honce p.log (List.suffix_refl _)).1
  rw [Bool.not_eq_true', decide_eq_false_iff_not] at hx
  exact hx hnodup

end MkPool.Solves
