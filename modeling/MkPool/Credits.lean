import MkPool.PoolLog
import MkPool.PoolPlay

/-! # No header hash is credited twice

The V1 handler credits a share that it registered as new, and the table of
fingerprints is one for the pool. The Stratum V2 handlers credit without asking
the table, and the table is cleared after the tip has changed. Where no share
comes again that these let through, the hashes credited between two changes of
the tip are distinct (`once_of_reach`). -/
namespace MkPool.Credits
open MkPool.Lib MkPool.Lib.Interaction MkPool.Utils MkPool.Config MkPool.Job MkPool.Coinbase
open MkPool.Stratifier MkPool.Calls MkPool.ClientSession MkPool.Tasks MkPool.Desk
open MkPool.ShareWatch MkPool.Pool MkPool.PoolLog
open MkPool.Play (usual easyPool request firstShare firstShareV2 sampleTemplate firstId)

/-! ## Credits -/

/-- The hash an entry credits. -/
def creditIn : Entry → Option Hash256
  | .did _ ⟨.countAccepted _ hash _ _, _⟩ => some hash
  | _ => none

/-- The hashes credited since the tip changed. -/
def credits (l : List Entry) : List Hash256 := (sinceTip l).filterMap creditIn

/-- No hash is credited twice between two changes of the tip. -/
def OncePerTip (log : List Entry) : Prop := ∀ l, l <:+ log → (credits l).Nodup

/-- The share is about to be credited: a V1 share that was registered as new, or
a Stratum V2 share at its target comparison. -/
def InHand (q : Phase) (hash : Hash256) : Prop :=
  ∃ v, q.verdict = some v ∧ v.hash = hash ∧ q.credited = false ∧
    (v.path.isV2 = true ∨ v.path = .v1Fresh ∧ q.first = some true)

/-- The hash was credited since the tip changed, or is about to be. -/
def Spent (h : History) (hash : Hash256) : Prop :=
  hash ∈ credits h.log ∨ ∃ n u, stageOf n h.log = some u ∧ InHand u.phase hash

/-! ## Fingerprints -/

/-- The fingerprint an entry registers. -/
def registeredIn : Entry → Option Str
  | .did _ ⟨.registerShare fp, _⟩ => some fp
  | _ => none

/-- How many fingerprints were registered since the tip changed. -/
def registered (l : List Entry) : Nat := ((sinceTip l).filterMap registeredIn).length

def clearsTable : Entry → Bool
  | .fed ⟨.clearShares, _⟩ => true
  | _ => false

/-- The fingerprints registered since the table was cleared. -/
def onTable (l : List Entry) : List Str :=
  (l.takeWhile fun e => !clearsTable e).filterMap registeredIn

/-! ## The condition -/

/-- Fewer than a million fingerprints are registered between two changes. -/
def Uncrowded (h : History) : Entry → Prop
  | .did _ ⟨.registerShare _, _⟩ => registered h.log < 1000000
  | _ => True

/-- **No share comes again where the table is not asked.** No Stratum V2 share
has a hash that was credited since the tip changed, or is about to be. A V1
share that has one was registered since the table was cleared, and the table has
not run full before `updateWork` comes to clear it. -/
def Unrepeated (h : History) : Entry → Prop
  | .did _ ⟨.scored path hash _ _, _⟩ => path.isV2 = true → ¬ Spent h hash
  | .did n ⟨.registerShare fp, _⟩ => ∀ u v, stageOf n h.log = some u →
      u.phase.verdict = some v → v.path = .v1Fresh → Spent h v.hash →
      fp ∈ onTable h.log ∧ (due h.log = true → (onTable h.log).length < 1000000)
  | _ => True

section Log

variable {l : List Entry} {e : Entry}

theorem credits_cons (htip : tipChange e = false) :
    credits (e :: l) = (creditIn e).toList ++ credits l := by
  unfold credits
  rw [sinceTip_cons, htip]
  cases he : creditIn e with
  | none =>
    rw [if_neg (by decide), List.filterMap_cons_none he]
    rfl
  | some hash =>
    rw [if_neg (by decide), List.filterMap_cons_some he]
    rfl

theorem credits_tip (htip : tipChange e = true) : credits (e :: l) = [] := by
  unfold credits
  rw [sinceTip_cons, if_pos htip]
  rfl

theorem registered_cons (htip : tipChange e = false) :
    registered (e :: l) = (registeredIn e).toList.length + registered l := by
  unfold registered
  rw [sinceTip_cons, htip]
  cases he : registeredIn e with
  | none =>
    rw [if_neg (by decide), List.filterMap_cons_none he]
    simp
  | some fp =>
    rw [if_neg (by decide), List.filterMap_cons_some he]
    simp [Nat.add_comm]

theorem onTable_cons (hclear : clearsTable e = false) :
    onTable (e :: l) = (registeredIn e).toList ++ onTable l := by
  unfold onTable
  rw [List.takeWhile_cons_of_pos (by simp [hclear])]
  cases he : registeredIn e with
  | none =>
    rw [List.filterMap_cons_none he]
    rfl
  | some fp =>
    rw [List.filterMap_cons_some he]
    rfl

theorem onTable_clear (hclear : clearsTable e = true) : onTable (e :: l) = [] := by
  unfold onTable
  rw [List.takeWhile_cons_of_neg (by simp [hclear])]
  rfl

theorem oncePerTip_cons (h : OncePerTip l) (he : (credits (e :: l)).Nodup) :
    OncePerTip (e :: l) := by
  intro l' hl
  rcases List.suffix_cons_iff.mp hl with rfl | hl
  · exact he
  · exact h l' hl

end Log

/-! ## The table -/

/-- The table knows what was registered since it was cleared, until a million
fingerprints were. -/
structure TableInv (h : History) : Prop where
  knows : (onTable h.log).length ≤ 1000000 → ∀ fp ∈ onTable h.log, fp ∈ h.strat.seenShares
  size : h.strat.seenShares.card ≤ (onTable h.log).length
  recent : due h.log = false → (onTable h.log).length ≤ registered h.log

section Steps

variable {env : Env} {h h' : History} {e : Entry}

/-- The table after a call that does not change it. -/
theorem seen_of_call {c : Call} {x : Answer c} {st st' : StratState}
    (hs : StratStep c st x st') (hreg : ∀ fp, c ≠ .registerShare fp) (hclear : c ≠ .clearShares) :
    st'.seenShares = st.seenShares := by
  cases c with
  | registerShare fp => exact absurd rfl (hreg fp)
  | clearShares => exact absurd rfl hclear
  | latestJob | findJob | findJobU32 | currentPrevhash | newJobId => rw [hs.2]
  | swapPrevhash => rw [hs.2]
  | _ => rw [show st' = _ from hs]

theorem TableInv.quiet (inv : TableInv h) (hlog : h'.log = e :: h.log)
    (hclear : clearsTable e = false) (hreg : registeredIn e = none)
    (hseen : h'.strat.seenShares = h.strat.seenShares)
    (hdue : due h'.log = false → tipChange e = false ∧ due h.log = false) : TableInv h' := by
  have htable : onTable h'.log = onTable h.log := by
    rw [hlog, onTable_cons hclear, hreg]
    rfl
  refine ⟨?_, ?_, fun hd => ?_⟩
  · rw [htable, hseen]
    exact inv.knows
  · rw [htable, hseen]
    exact inv.size
  · obtain ⟨htip, hd⟩ := hdue hd
    rw [htable, hlog, registered_cons htip, hreg]
    exact (inv.recent hd).trans (Nat.le_add_left _ _)

/-- The table has room as long as fewer than a million were registered. -/
theorem TableInv.room (inv : TableInv h) (hlen : (onTable h.log).length < 1000000) :
    shareRoom h.strat.seenShares = h.strat.seenShares := by
  have hsize := inv.size
  exact if_neg (by omega)

theorem TableInv.register {n : Nat} {fp : Str} {new : Bool} {strat : StratState}
    (inv : TableInv h) (answer : StratStep (.registerShare fp) h.strat new strat) :
    TableInv (h.add strat (.did n ⟨.registerShare fp, new⟩)) := by
  obtain ⟨_, rfl⟩ := answer
  have htable : onTable (.did n ⟨.registerShare fp, new⟩ :: h.log) = fp :: onTable h.log :=
    onTable_cons rfl
  refine ⟨fun hlen fp' hmem => ?_, ?_, fun hd => ?_⟩
  · have hlen' : (fp :: onTable h.log).length ≤ 1000000 := htable ▸ hlen
    have hlt : (onTable h.log).length < 1000000 := Nat.lt_of_succ_le hlen'
    have hmem' : fp' ∈ fp :: onTable h.log := htable ▸ hmem
    show fp' ∈ insert fp (shareRoom h.strat.seenShares)
    rw [inv.room hlt]
    rcases List.mem_cons.mp hmem' with rfl | hold
    · exact Finset.mem_insert_self _ _
    · exact Finset.mem_insert_of_mem (inv.knows hlt.le fp' hold)
  · show (insert fp (shareRoom h.strat.seenShares)).card ≤ (onTable (.did n _ :: h.log)).length
    rw [htable]
    refine (Finset.card_insert_le _ _).trans (Nat.succ_le_succ ?_)
    unfold shareRoom
    split
    · exact Nat.zero_le _
    · exact inv.size
  · show (onTable (.did n _ :: h.log)).length ≤ registered (.did n _ :: h.log)
    rw [htable, registered_cons rfl, List.length_cons, Nat.add_comm]
    exact Nat.add_le_add_left (inv.recent hd) 1

theorem TableInv.step (inv : TableInv h) (hs : Happens env h e h') : TableInv h' := by
  cases hs with
  | began | ended | ticked => exact inv.quiet rfl rfl rfl rfl fun hd => ⟨rfl, hd⟩
  | @did n u c x strat stage allowed answer gives =>
    cases c with
    | registerShare fp => exact inv.register answer
    | clearShares => exact allowed.elim
    | _ => exact inv.quiet rfl rfl rfl (seen_of_call answer nofun nofun) fun hd => ⟨rfl, hd⟩
  | @fed c x strat allowed answer =>
    cases c with
    | clearShares =>
      rw [show strat = _ from answer]
      have htable : onTable (.fed ⟨.clearShares, x⟩ :: h.log) = [] := onTable_clear rfl
      refine ⟨fun _ fp hmem => ?_, ?_, fun _ => ?_⟩
      · have hnil : fp ∈ ([] : List Str) := htable ▸ hmem
        cases hnil
      · exact Nat.zero_le _
      · show (onTable (.fed _ :: h.log)).length ≤ _
        rw [htable]
        exact Nat.zero_le _
    | swapPrevhash p =>
      have hdue : due h.log = false := allowed
      exact inv.quiet rfl rfl rfl (seen_of_call answer nofun nofun) fun hd => ⟨hd, hdue⟩
    | newJobId | resetBestShare | pushJob | callbacks =>
      exact inv.quiet rfl rfl rfl (seen_of_call answer nofun nofun) fun hd => ⟨rfl, hd⟩
    | _ => exact allowed.elim

end Steps

/-! ## Shares in hand -/

/-- What is in hand is one session's, and was not credited yet. -/
structure Inv (h : History) : Prop where
  scored : ∀ n u, stageOf n h.log = some u → u.phase.first ≠ none → u.phase.verdict ≠ none
  single : ∀ n m u t hash, stageOf n h.log = some u → stageOf m h.log = some t →
    InHand u.phase hash → InHand t.phase hash → n = m
  apart : ∀ n u hash, stageOf n h.log = some u → InHand u.phase hash → hash ∉ credits h.log
  once : OncePerTip h.log
  table : TableInv h

section Stages

variable {env : Env} {s : Session} {task : Task} {q : Phase} {hash : Hash256}

/-- How a share comes to be in hand. -/
theorem inHand_of_next {c : Call} {x : Answer c} (allowed : q.Allows env s task c)
    (hscored : q.first ≠ none → q.verdict ≠ none) (h : InHand (Phase.next c q x) hash) :
    InHand q hash ∨
      (∃ path job meets, c = .scored path hash job meets ∧ path.isV2 = true) ∨
      ∃ fp v, c = .registerShare fp ∧ HEq x true ∧ q.verdict = some v ∧ v.path = .v1Fresh ∧
        v.hash = hash := by
  obtain ⟨v, hv, hhash, hcredited, hpath⟩ := h
  cases c with
  | scored path hash' job meets =>
    obtain rfl : _ = v := Option.some.inj hv
    rcases hpath with hpath | ⟨_, hfirst⟩
    · exact .inr (.inl ⟨path, job, meets, hhash ▸ rfl, hpath⟩)
    · have hfirst : q.first = some true := hfirst
      exact absurd allowed.1 (hscored (by rw [hfirst]; exact Option.some_ne_none _))
  | registerShare fp =>
    have hv : q.verdict = some v := hv
    rcases hpath with hpath | ⟨hpath, hx⟩
    · exact .inl ⟨v, hv, hhash, hcredited, .inl hpath⟩
    · exact .inr (.inr ⟨fp, v, rfl, heq_of_eq (Option.some.inj hx), hv, hpath, hhash⟩)
  | countAccepted path hash' job ntime => cases hcredited
  | _ => exact .inl ⟨v, hv, hhash, hcredited, hpath⟩

theorem scored_of_next {c : Call} {x : Answer c} (allowed : q.Allows env s task c)
    (hscored : q.first ≠ none → q.verdict ≠ none) (hfirst : (Phase.next c q x).first ≠ none) :
    (Phase.next c q x).verdict ≠ none := by
  cases c with
  | registerShare fp =>
    obtain ⟨v, hv, _⟩ := allowed
    show q.verdict ≠ none
    rw [hv]
    exact Option.some_ne_none v
  | scored path hash job meets => exact Option.some_ne_none _
  | _ => exact hscored hfirst

/-- A share that is credited is in hand. -/
theorem inHand_of_credit {path : SharePath} {job : Option MiningJob} {ntime : UInt32}
    (allowed : q.Allows env s task (.countAccepted path hash job ntime)) : InHand q hash := by
  obtain ⟨v, hv, rfl, rfl, rfl, hcredited, hstale, hlow, hfresh, _⟩ := allowed
  refine ⟨v, hv, rfl, hcredited, ?_⟩
  cases hp : v.path with
  | v1Fresh => exact .inr ⟨rfl, hfresh hp⟩
  | v1Stale => exact absurd hp hstale
  | v1LowDiff => exact absurd hp hlow
  | v2Standard | v2Extended => exact .inl rfl

end Stages

section Steps

variable {env : Env} {h h' : History} {e : Entry}

/-- What is credited is no more than before, and at most one session takes a
share in hand, of a hash that is not spent. -/
theorem Inv.transfer (inv : Inv h) (k : Nat) (hlog : h'.log = e :: h.log)
    (hcredits : (credits h'.log).Sublist (credits h.log))
    (hscored : ∀ n u, stageOf n h'.log = some u → u.phase.first ≠ none → u.phase.verdict ≠ none)
    (hstages : ∀ n u hash, stageOf n h'.log = some u → InHand u.phase hash →
      (∃ t, stageOf n h.log = some t ∧ InHand t.phase hash) ∨ n = k ∧ ¬ Spent h hash)
    (htable : TableInv h') : Inv h' where
  scored := hscored
  single := by
    intro n m u t hash hn hm hu ht
    rcases hstages n u hash hn hu with ⟨u', hn', hu'⟩ | ⟨rfl, hnew⟩
    · rcases hstages m t hash hm ht with ⟨t', hm', ht'⟩ | ⟨rfl, hnew⟩
      · exact inv.single n m u' t' hash hn' hm' hu' ht'
      · exact absurd (.inr ⟨n, u', hn', hu'⟩) hnew
    · rcases hstages m t hash hm ht with ⟨t', hm', ht'⟩ | ⟨rfl, _⟩
      · exact absurd (.inr ⟨m, t', hm', ht'⟩) hnew
      · rfl
  apart := by
    intro n u hash hn hu hmem
    have hold := hcredits.subset hmem
    rcases hstages n u hash hn hu with ⟨u', hn', hu'⟩ | ⟨_, hnew⟩
    · exact inv.apart n u' hash hn' hu' hold
    · exact hnew (.inl hold)
  once := by
    rw [hlog]
    refine oncePerTip_cons inv.once ?_
    rw [← hlog]
    exact (inv.once h.log (List.suffix_refl _)).sublist hcredits
  table := htable

/-- An entry that leaves every session where it is, or at no share. -/
theorem Inv.quiet (inv : Inv h) (hlog : h'.log = e :: h.log) (hcredit : creditIn e = none)
    (hstages : ∀ n u, stageOf n h'.log = some u → stageOf n h.log = some u ∨ u.phase = {})
    (htable : TableInv h') : Inv h' := by
  refine inv.transfer 0 hlog ?_ (fun n u hn hfirst => ?_) (fun n u hash hn hu => ?_) htable
  · rw [hlog]
    cases htip : tipChange e with
    | true =>
      rw [credits_tip htip]
      exact List.nil_sublist _
    | false =>
      rw [credits_cons htip, hcredit]
      exact List.Sublist.refl _
  · rcases hstages n u hn with hold | hnew
    · exact inv.scored n u hold hfirst
    · rw [hnew] at hfirst
      exact absurd rfl hfirst
  · rcases hstages n u hn with hold | hnew
    · exact .inl ⟨u, hold, hu⟩
    · rw [hnew] at hu
      obtain ⟨v, hv, _⟩ := hu
      cases hv

section Did

variable {n : Nat} {u : Stage} {c : Call} {x : Answer c} {strat : StratState}

/-- Any call but a credit. -/
theorem Inv.did_other (inv : Inv h) (stage : stageOf n h.log = some u)
    (allowed : u.phase.Allows (u.start.env env) u.start.session u.start.task c)
    (hcredit : creditIn (.did n ⟨c, x⟩) = none)
    (hnew : ∀ hash, InHand (Phase.next c u.phase x) hash →
      InHand u.phase hash ∨ ¬ Spent h hash)
    (htable : TableInv (h.add strat (.did n ⟨c, x⟩))) : Inv (h.add strat (.did n ⟨c, x⟩)) := by
  have hscored := inv.scored n u stage
  refine inv.transfer n rfl ?_ (fun m t ht hfirst => ?_) (fun m t hash ht hin => ?_) htable
  · show (credits (.did n ⟨c, x⟩ :: h.log)).Sublist _
    rw [credits_cons rfl, hcredit]
    exact List.Sublist.refl _
  · rcases stage_of_did ht with ⟨_, u', hu', rfl⟩ | ⟨_, ht⟩
    · obtain rfl : u = u' := Option.some.inj (stage.symm.trans hu')
      exact scored_of_next allowed hscored hfirst
    · exact inv.scored m t ht hfirst
  · rcases stage_of_did ht with ⟨rfl, u', hu', rfl⟩ | ⟨_, ht⟩
    · obtain rfl : u = u' := Option.some.inj (stage.symm.trans hu')
      rcases hnew hash hin with hold | hfree
      · exact .inl ⟨u, stage, hold⟩
      · exact .inr ⟨rfl, hfree⟩
    · exact .inl ⟨t, ht, hin⟩

/-- A credit: the hash was in hand, so it was not credited yet. -/
theorem Inv.did_credit {path : SharePath} {hash : Hash256} {job : Option MiningJob}
    {ntime : UInt32} (inv : Inv h) (stage : stageOf n h.log = some u)
    (allowed : u.phase.Allows (u.start.env env) u.start.session u.start.task
      (.countAccepted path hash job ntime))
    (htable : TableInv (h.add strat (.did n ⟨.countAccepted path hash job ntime, ()⟩))) :
    Inv (h.add strat (.did n ⟨.countAccepted path hash job ntime, ()⟩)) := by
  have hin := inHand_of_credit allowed
  have hcredits : credits (.did n ⟨.countAccepted path hash job ntime, ()⟩ :: h.log) =
      hash :: credits h.log := credits_cons rfl
  -- the session's own share is no longer in hand
  have others {m : Nat} {t : Stage} {hash' : Hash256}
      (ht : stageOf m (.did n ⟨.countAccepted path hash job ntime, ()⟩ :: h.log) = some t)
      (hm : InHand t.phase hash') : n ≠ m ∧ stageOf m h.log = some t := by
    rcases stage_of_did ht with ⟨_, u', _, rfl⟩ | hother
    · obtain ⟨_, _, _, hcredited, _⟩ := hm
      cases hcredited
    · exact hother
  refine ⟨fun m t ht hfirst => ?_, fun m k t t' hash' ht ht' hm hk => ?_,
    fun m t hash' ht hm hmem => ?_, ?_, htable⟩
  · rcases stage_of_did ht with ⟨_, u', hu', rfl⟩ | ⟨_, ht⟩
    · exact inv.scored n u' hu' hfirst
    · exact inv.scored m t ht hfirst
  · exact inv.single m k t t' hash' (others ht hm).2 (others ht' hk).2 hm hk
  · obtain ⟨hne, hother⟩ := others ht hm
    have hmem' : hash' ∈ hash :: credits h.log := hcredits ▸ hmem
    rcases List.mem_cons.mp hmem' with rfl | hold
    · exact hne (inv.single n m u t hash' stage hother hin hm)
    · exact inv.apart m t hash' hother hm hold
  · refine oncePerTip_cons inv.once ?_
    rw [hcredits, List.nodup_cons]
    exact ⟨inv.apart n u hash stage hin, inv.once h.log (List.suffix_refl _)⟩

/-- A V1 share that is registered as new is of a hash that is not spent. -/
theorem Inv.fresh_of_new {fp : Str} {hash : Hash256} (inv : Inv h)
    (answer : StratStep (.registerShare fp) h.strat true strat)
    (hcap : registered h.log < 1000000)
    (hok : Spent h hash → fp ∈ onTable h.log ∧
      (due h.log = true → (onTable h.log).length < 1000000)) : ¬ Spent h hash := by
  intro hspent
  obtain ⟨hmem, hlen⟩ := hok hspent
  have hlt : (onTable h.log).length < 1000000 := by
    cases hd : due h.log with
    | true => exact hlen hd
    | false => exact lt_of_le_of_lt (inv.table.recent hd) hcap
  have hnew : true = decide (fp ∉ shareRoom h.strat.seenShares) := answer.1
  rw [inv.table.room hlt] at hnew
  exact of_decide_eq_true hnew.symm (inv.table.knows hlt.le fp hmem)

end Did

theorem Inv.step (inv : Inv h) (hcap : Uncrowded h e) (hok : Unrepeated h e)
    (hs : Happens env h e h') : Inv h' := by
  have htable := inv.table.step hs
  cases hs with
  | @began n start idle =>
    refine inv.quiet rfl rfl (fun m u hu => ?_) htable
    have hu : stageOf m (.began n start :: h.log) = some u := hu
    rw [stageOf_began] at hu
    split at hu
    · cases hu
      exact .inr rfl
    · exact .inl hu
  | @ended n u stage settled =>
    refine inv.quiet rfl rfl (fun m t ht => ?_) htable
    have ht : stageOf m (.ended n :: h.log) = some t := ht
    rw [stageOf_ended] at ht
    split at ht
    · cases ht
    · exact .inl ht
  | fed | ticked => exact inv.quiet rfl rfl (fun _ _ hu => .inl hu) htable
  | @did n u c x strat stage allowed answer gives =>
    have arrives (hash : Hash256) (hin : InHand (Phase.next c u.phase x) hash) :=
      inHand_of_next allowed (inv.scored n u stage) hin
    cases c with
    | countAccepted path hash job ntime => exact inv.did_credit stage allowed htable
    | scored path hash job meets =>
      refine inv.did_other stage allowed rfl (fun hash' hin => ?_) htable
      rcases arrives hash' hin with hold | ⟨_, _, _, he, hv2⟩ | ⟨_, _, he, _⟩
      · exact .inl hold
      · cases he
        exact .inr (hok hv2)
      · cases he
    | registerShare fp =>
      refine inv.did_other stage allowed rfl (fun hash' hin => ?_) htable
      rcases arrives hash' hin with hold | ⟨_, _, _, he, _⟩ | ⟨_, v, he, hx, hv, hpath, rfl⟩
      · exact .inl hold
      · cases he
      · cases he
        obtain rfl := eq_of_heq hx
        exact .inr (inv.fresh_of_new answer hcap (hok u v stage hv hpath))
    | _ =>
      refine inv.did_other stage allowed rfl (fun hash' hin => ?_) htable
      rcases arrives hash' hin with hold | ⟨_, _, _, he, _⟩ | ⟨_, _, he, _⟩
      · exact .inl hold
      · cases he
      · cases he

end Steps

/-! ## Runs -/

/-- **Single credit.** In a run where no share comes again that the table is not
asked about, no hash is credited twice between two changes of the tip. -/
theorem once_of_reach {env : Env} {p : PoolState}
    (h : Pool.Reach env (fun h e => Uncrowded h e ∧ Unrepeated h e) p) : OncePerTip p.log := by
  have inv : Inv p.toHistory := by
    refine Reach.history h ?_ fun h e h' inv hok hs => inv.step hok.1 hok.2 hs
    refine ⟨?_, ?_, ?_, ?_, ?_⟩
    · intro n u hu
      cases hu
    · intro n m u t hash hu
      cases hu
    · intro n u hash hu
      cases hu
    · intro l hl
      rw [List.suffix_nil.mp hl]
      exact List.nodup_nil
    · exact ⟨fun _ fp hfp => (by cases hfp), Nat.le_refl _, fun _ => Nat.le_refl _⟩
  exact inv.once

/-- An entry that puts no share in hand and credits none. -/
def idle : Entry → Bool
  | .did _ ⟨.registerShare _, _⟩ | .did _ ⟨.countAccepted .., _⟩ => false
  | .did _ ⟨.scored path .., _⟩ => !path.isV2
  | _ => true

theorem idle_stage {l : List Entry} (hl : l.all idle = true) {n : Nat} {u : Stage}
    (hu : stageOf n l = some u) :
    u.phase.first = none ∧ ∀ v, u.phase.verdict = some v → v.path.isV2 = false := by
  refine phase_of_all (P := fun q => q.first = none ∧
    ∀ v, q.verdict = some v → v.path.isV2 = false) ⟨rfl, fun v hv => by cases hv⟩ ?_ hl hu
  intro m c x q hc hq
  cases c with
  | registerShare | countAccepted => cases hc
  | scored path hash job meets =>
    refine ⟨hq.1, fun v hv => ?_⟩
    obtain rfl : _ = v := Option.some.inj hv
    exact (Bool.not_eq_true' _).mp hc
  | _ => exact hq

theorem not_spent_of_idle {h : History} (hl : h.log.all idle = true) (hash : Hash256) :
    ¬ Spent h hash := by
  rintro (hmem | ⟨n, u, hu, v, hv, _, _, hpath⟩)
  · obtain ⟨e, he, hcredit⟩ := List.mem_filterMap.mp hmem
    have hidle := List.all_eq_true.mp hl e ((List.takeWhile_subset _) he)
    unfold creditIn at hcredit
    split at hcredit
    · cases hidle
    · cases hcredit
  · obtain ⟨hfirst, hverdict⟩ := idle_stage hl hu
    rcases hpath with hpath | ⟨_, hone⟩
    · rw [hverdict v hv] at hpath
      cases hpath
    · rw [hfirst] at hone
      cases hone

/-- No Stratum V2 share, and a V1 share is the first one or on the table. -/
def plain (h : History) : Entry → Bool
  | .did _ ⟨.scored path .., _⟩ => !path.isV2
  | .did _ ⟨.registerShare fp, _⟩ => decide (registered h.log < 1000000) &&
      (h.log.all idle || decide (fp ∈ onTable h.log) && !due h.log)
  | _ => true

theorem unrepeated_of_plain {h : History} {e : Entry} (hc : plain h e = true) :
    Uncrowded h e ∧ Unrepeated h e := by
  cases e with
  | began | ended | fed | ticked => exact ⟨trivial, trivial⟩
  | did n ev =>
    obtain ⟨c, x⟩ := ev
    cases c with
    | scored path hash job meets =>
      refine ⟨trivial, fun hv2 => ?_⟩
      rw [show plain h _ = !path.isV2 from rfl, hv2] at hc
      cases hc
    | registerShare fp =>
      simp only [plain, Bool.and_eq_true, Bool.or_eq_true, decide_eq_true_eq,
        Bool.not_eq_true'] at hc
      refine ⟨hc.1, fun u v _ _ _ hspent => ?_⟩
      rcases hc.2 with hidle | ⟨hmem, hdue⟩
      · exact absurd hspent (not_spent_of_idle hidle v.hash)
      · exact ⟨hmem, fun hd => by rw [hdue] at hd; cases hd⟩
    | _ => exact ⟨trivial, trivial⟩

/-- A V1 miner that sends its share twice. -/
def minerRepeats : List (Play.Replies × PoolPlay.Move) :=
  [(usual, .connect 0 "0a0b0c0d".toList false),
    (usual, .line 0 (request "mining.subscribe" [])),
    (usual, .line 0 (request "mining.authorize" ["miner.1", "x"])),
    (usual, .validated 0 none true),
    (usual, .work (sampleTemplate 'a' 'b') firstId), (usual, .notify 0),
    (usual, .line 0 firstShare), (usual, .line 0 firstShare)]

/-- A V1 share that comes twice is credited once. -/
theorem once_of_reach_miner : ∃ p : PoolState, (credits p.log).length = 1 ∧ OncePerTip p.log := by
  have h : (PoolPlay.play easyPool plain (fresh easyPool) minerRepeats).any (fun p =>
      decide ((credits p.log).length = 1)) = true := by
    decide +kernel
  obtain ⟨p, hp, hx⟩ := (Option.any_eq_true _ _).mp h
  have hreach := PoolPlay.reach_of_play (fun _ _ hc => unrepeated_of_plain hc) .fresh hp
  exact ⟨p, of_decide_eq_true hx, once_of_reach hreach⟩

/-- A Stratum V2 miner that sends its share twice. -/
def channelRepeats : List (Play.Replies × PoolPlay.Move) :=
  [(usual, .connect 0 "0a0b0c0d".toList true), (usual, .message 0 (.setupConnection 0)),
    (usual, .message 0 (.openStandardMiningChannel
      { requestId := 1, userIdentity := "miner.1".toList })),
    (usual, .work (sampleTemplate 'a' 'b') firstId), (usual, .notify 0),
    (usual, .message 0 (.submitSharesStandard firstShareV2)),
    (usual, .message 0 (.submitSharesStandard firstShareV2))]

/-- Entries that register nothing. -/
def unregistered (_ : History) (e : Entry) : Bool := (registeredIn e).isNone

theorem uncrowded_of_unregistered {h : History} {e : Entry} (hc : unregistered h e = true) :
    Uncrowded h e := by
  unfold Uncrowded
  split
  · cases hc
  · trivial

/-- **A Stratum V2 share that comes twice is credited twice.** -/
theorem credited_twice : ∃ env p, Pool.Reach env Uncrowded p ∧ ¬ OncePerTip p.log := by
  have h : (PoolPlay.play easyPool unregistered (fresh easyPool) channelRepeats).any (fun p =>
      !decide (credits p.log).Nodup) = true := by
    decide +kernel
  obtain ⟨p, hp, hx⟩ := (Option.any_eq_true _ _).mp h
  refine ⟨easyPool, p,
    PoolPlay.reach_of_play (fun _ _ hc => uncrowded_of_unregistered hc) .fresh hp, fun honce => ?_⟩
  have hnodup := honce p.log (List.suffix_refl _)
  rw [Bool.not_eq_true', decide_eq_false_iff_not] at hx
  exact hx hnodup

end MkPool.Credits
