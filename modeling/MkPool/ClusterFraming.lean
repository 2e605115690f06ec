import MkPool.ClusterTrunk

/-! # Which lines the trunk carries

The text of a frame is JSON, and JSON text is UTF-8: a line that is not cannot be
framed. At the origin the accessors throw on a field of the wrong type. Neither
end has a handler. -/
namespace MkPool.ClusterFraming
open MkPool.Utils MkPool.JsonValue MkPool.ClusterProtocol MkPool.Lib

/-! ## One frame -/

/-- The line is framed, and the frame is read as that miner's line. -/
def RoundTrips (strtod : Str → Option ℚ) (cid : UInt64) (l : Str) : Prop :=
  ∃ line j, frameData cid.toNat l = some (line ++ ['\n']) ∧ '\n' ∉ line ∧
    parse strtod line = some j ∧ j.find? "t".toList = some (.string "data".toList) ∧
    j.valueUInt64 "cid" = some cid.toNat ∧ j.find? "l".toList = some (.string l)

theorem frameData_isSome (cid : Nat) (l : Str) : (frameData cid l).isSome = Utf8.valid l := by
  rw [frameData, Frame.text_isSome]
  exact Bool.and_true _

theorem roundTrips_iff (strtod : Str → Option ℚ) (cid : UInt64) (l : Str) :
    RoundTrips strtod cid l ↔ Utf8.valid l = true := by
  rw [← frameData_isSome cid.toNat]
  constructor
  · rintro ⟨line, j, hframe, -⟩
    rw [hframe]
    rfl
  · intro h
    obtain ⟨out, hout⟩ := Option.isSome_iff_exists.mp h
    have hfits : ∀ g ∈ (Frame.data cid.toNat l).fields, g.2.Fits := by
      simp [Frame.fields, Frame.body, JsonText.Field.Fits, cid.toNat_lt]
    obtain ⟨line, rfl, hnewline, hparse⟩ := Frame.parse_text strtod hout hfits
    refine ⟨line, _, hout, hnewline, hparse, Frame.find_kind _, ?_, ?_⟩
    · exact ClusterIngest.valueUInt64_frame (by simp [Frame.fields, Frame.body]) cid.toNat_lt
    · exact Frame.find_field (v := .text l) (by simp [Frame.fields, Frame.body])

/-! ## The lines of a miner -/

/-- What a session's lines post in turn; `none` where one throws. -/
def edgeLines (cid : Nat) (lines : List Str) : Option (List (List Frame)) :=
  lines.mapM (ClusterTrunk.clientLine cid)

theorem clientLine_isSome (cid : Nat) (l : Str) :
    (ClusterTrunk.clientLine cid l).isSome ↔ cid = 0 ∨ Utf8.valid l = true := by
  unfold ClusterTrunk.clientLine
  split
  · simp [*]
  · rw [Option.isSome_map, frameData_isSome]
    simp [*]

theorem edgeLines_isSome (cid : Nat) (lines : List Str) :
    (edgeLines cid lines).isSome ↔ cid = 0 ∨ ∀ l ∈ lines, Utf8.valid l = true := by
  induction lines with
  | nil => simp [edgeLines]
  | cons l lines ih =>
    have hcons : (edgeLines cid (l :: lines)).isSome ↔
        (ClusterTrunk.clientLine cid l).isSome ∧ (edgeLines cid lines).isSome := by
      rw [edgeLines, List.mapM_cons]
      cases ClusterTrunk.clientLine cid l
      · simp
      · cases h : lines.mapM (ClusterTrunk.clientLine cid) <;> simp [edgeLines, h]
    rw [hcons, ih, clientLine_isSome, List.forall_mem_cons]
    tauto

/-! ## The lines of a trunk peer -/

/-- The field is missing, or of the type that is read. -/
def absentOr (ok : Json → Bool) (j : Json) (key : String) : Bool := (j.find? key.toList).all ok

def isNumber (j : Json) : Bool := j.number?.isSome

def kind (j : Json) : Str := ((j.find? "t".toList).bind Json.getString?).getD []

/-- The fields that are read of a frame have their types. -/
def WellTyped (helloOk : Bool) (j : Json) : Prop :=
  if !helloOk then
    kind j = "hello".toList → ∀ key ∈ ["role", "coin", "token"], absentOr Json.isString j key
  else
    (kind j ∈ ["open".toList, "data".toList, "close".toList] → absentOr isNumber j "cid") ∧
    (kind j = "open".toList → j.valueUInt64 "cid" ≠ some 0 → absentOr Json.isString j "ip")

theorem value_isSome {α : Type} {get : Json → Option α} {ok : Json → Bool}
    (hget : ∀ v, (get v).isSome = ok v) {j : Json} (hj : j.isObject = true) (key : String)
    (fallback : α) : (j.value get key.toList fallback).isSome = absentOr ok j key := by
  cases j with
  | object fields =>
    unfold Json.value absentOr
    cases (Json.object fields).find? key.toList with
    | none => rfl
    | some v => exact hget v
  | _ => cases hj

theorem valueString_isSome {j : Json} (hj : j.isObject = true) (key : String) (fallback : Str) :
    (j.valueString key fallback).isSome = absentOr Json.isString j key :=
  value_isSome (fun v => by cases v <;> rfl) hj key fallback

theorem valueUInt64_isSome {j : Json} (hj : j.isObject = true) (key : String) :
    (j.valueUInt64 key).isSome = absentOr isNumber j key :=
  value_isSome (fun _ => Option.isSome_map) hj key 0

/-- What `parse` accepts is an object with a text for its kind. -/
theorem parse_object {strtod : Str → Option ℚ} {line : Str} {j : Json}
    (h : parse strtod line = some j) :
    j.isObject = true ∧ (j.find? "t".toList).bind Json.getString? = some (kind j) := by
  have hkind := (Option.filter_eq_some_iff.mp h).2
  unfold kind
  cases hfind : j.find? "t".toList with
  | none =>
    rw [hfind] at hkind
    cases hkind
  | some v =>
    rw [hfind] at hkind
    refine ⟨?_, ?_⟩
    · cases j <;> first | rfl | cases hfind
    · cases v <;> first | rfl | cases hkind

theorem handleHello_isSome (cfg : ClusterIngest.Config) (st : ClusterIngest.State) {j : Json}
    (hj : j.isObject = true) :
    (ClusterIngest.handleHello cfg st j).isSome ↔
      ∀ key ∈ ["role", "coin", "token"], absentOr Json.isString j key := by
  have hrole := valueString_isSome hj "role" []
  have hcoin := valueString_isSome hj "coin" []
  have htoken := valueString_isSome hj "token" []
  simp only [List.forall_mem_cons, List.not_mem_nil, false_implies, implies_true, and_true]
  rw [← hrole, ← hcoin, ← htoken, ClusterIngest.handleHello]
  cases j.valueString "role" [] <;> cases j.valueString "coin" [] <;>
    cases j.valueString "token" [] <;> simp

/-- A frame throws exactly where a field that is read has another type. -/
theorem onJson_isSome (cfg : ClusterIngest.Config) (st : ClusterIngest.State) {j : Json}
    (hj : j.isObject = true) (hkind : (j.find? "t".toList).bind Json.getString? = some (kind j)) :
    (ClusterIngest.onJson cfg st j).isSome ↔ WellTyped st.helloOk j := by
  have hcid := valueUInt64_isSome hj "cid"
  have hip := valueString_isSome hj "ip" "?".toList
  rw [ClusterIngest.onJson, hkind, WellTyped]
  simp only [Option.bind_eq_bind, Option.bind_some]
  cases st.helloOk
  · simp only [Bool.not_false, if_true]
    by_cases hk : kind j = "hello".toList
    · rw [if_neg (not_not.mpr hk), handleHello_isSome cfg st hj]
      exact ⟨fun h _ => h, fun h => h hk⟩
    · rw [if_pos hk]
      exact iff_of_true rfl fun h => absurd h hk
  · simp only [Bool.not_true, Bool.false_eq_true, if_false, List.mem_cons, List.not_mem_nil, or_false]
    split_ifs with ho hd hc hp
    · rw [← hcid, ← hip]
      simp only [ho, true_or, forall_const]
      cases j.valueUInt64 "cid" with
      | none => simp only [Option.bind_none, Option.isSome_none, Bool.false_eq_true, false_and]
      | some n =>
        by_cases hn : n = 0
        · simp [hn]
        · cases j.valueString "ip" "?".toList <;> simp [hn]
    · rw [← hcid]
      simp only [hd, true_or, or_true, forall_const, iff_false_intro (hd ▸ ho), false_implies, and_true]
      cases j.valueUInt64 "cid" with
      | none => rfl
      | some n =>
        simp only [Option.bind_some]
        split <;> rfl
    · rw [← hcid]
      simp only [hc, or_true, forall_const, iff_false_intro (hc ▸ ho), false_implies, and_true]
      cases j.valueUInt64 "cid" <;> rfl
    · simp only [ho, hd, hc, or_self, false_implies, and_self]
      exact iff_of_true rfl trivial
    · simp only [ho, hd, hc, or_self, false_implies, and_self]
      exact iff_of_true rfl trivial

theorem onLine_isSome (strtod : Str → Option ℚ) (cfg : ClusterIngest.Config)
    (st : ClusterIngest.State) (line : Str) :
    (ClusterIngest.onLine strtod cfg st line).isSome ↔
      ∀ j, parse strtod line = some j → WellTyped st.helloOk j := by
  unfold ClusterIngest.onLine
  cases hparse : parse strtod line with
  | none => simp
  | some j =>
    obtain ⟨hj, hkind⟩ := parse_object hparse
    simpa using onJson_isSome cfg st hj hkind

/-- Every line finds its session closed or has its types. -/
def LinesTyped (strtod : Str → Option ℚ) (cfg : ClusterIngest.Config) (st : ClusterIngest.State)
    (lines : List Str) : Prop :=
  ∀ before line after st', lines = before ++ line :: after →
    ClusterIngest.onLines strtod cfg st before = some st' → st'.closed = false →
    ∀ j, parse strtod line = some j → WellTyped st'.helloOk j

theorem onLines_isSome (strtod : Str → Option ℚ) (cfg : ClusterIngest.Config)
    (st : ClusterIngest.State) (lines : List Str) :
    (ClusterIngest.onLines strtod cfg st lines).isSome ↔ LinesTyped strtod cfg st lines := by
  induction lines generalizing st with
  | nil => simp [ClusterIngest.onLines, LinesTyped]
  | cons line lines ih =>
    have hline := onLine_isSome strtod cfg st line
    unfold ClusterIngest.onLines
    split
    · rename_i hclosed
      refine iff_of_true rfl ?_
      intro before l after st' heq hbefore hopen
      have hsame : ClusterIngest.onLines strtod cfg st before = some st := by
        cases before with
        | nil => rfl
        | cons => rw [ClusterIngest.onLines, if_pos hclosed]
      rw [hsame] at hbefore
      cases hbefore
      rw [hclosed] at hopen
      cases hopen
    · rename_i hopen
      cases hr : ClusterIngest.onLine strtod cfg st line with
      | none =>
        rw [hr] at hline
        refine iff_of_false (by simp) fun htyped => ?_
        have := hline.mpr (htyped [] line lines st rfl rfl (by simpa using hopen))
        cases this
      | some r =>
        rw [hr] at hline
        rw [Option.bind_some, ih]
        constructor
        · intro htyped before l after st' heq hbefore hst'
          cases before with
          | nil =>
            obtain ⟨rfl, rfl⟩ := List.cons.inj heq
            cases hbefore
            exact hline.mp rfl
          | cons b before =>
            obtain ⟨rfl, rfl⟩ := List.cons.inj heq
            rw [ClusterIngest.onLines, if_neg hopen, hr] at hbefore
            exact htyped before l after st' rfl hbefore hst'
        · intro htyped before l after st' heq hbefore hst'
          refine htyped (line :: before) l after st' (by rw [heq]; rfl) ?_ hst'
          rw [ClusterIngest.onLines, if_neg hopen, hr]
          exact hbefore

end MkPool.ClusterFraming
