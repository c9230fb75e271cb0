import RankLedger.Instant
import RankLedger.Json.Read
import RankLedger.Proofs.Json.Double
import Mathlib.Data.List.Forall2

/-!
# Records as JSON objects

Every record is written as an object with the fields it is read by, each once.  So each field is
found again (`Json.fields?_ofMembers`), and texts, counts and numbers are read as what they were.
Which fields are found in any object at all is said by `Json.fields?_object_eq_some_iff`.
What this says of a whole record is `Json.Format.IsLawful`, and what follows for its text
`Json.Format.RoundTrips`.

**What JSON cannot hold.** An instant before the epoch has no written form, infinities and a NaN
have none either, and a count that does not fit 64 bits is not read.
-/

namespace RankLedger

variable {ν α : Type}

/-! ## 1. Values as records write them -/

namespace Json

theorem isWritten_ofText (text : String) : (ofText text).IsWritten :=
  List.forall_mem_singleton.2 rfl

theorem isWritten_ofNat (n : Nat) : (ofNat n).IsWritten :=
  List.forall_mem_singleton.2 (NumberText.isWellFormed_ofNat n)

theorem isWritten_ofMembers {members : List (String × Json)}
    (h : ∀ member ∈ members, member.2.IsWritten) : (ofMembers members).IsWritten := by
  suffices inside : ∀ token ∈ memberTokens (members.map fun member => (some member.1, member.2)),
      token.IsWritten by
    intro token mem
    rw [ofMembers, tokens, List.cons_append, List.mem_cons, List.mem_append,
      List.mem_singleton] at mem
    rcases mem with rfl | mem | rfl
    · trivial
    · exact inside token mem
    · trivial
  induction members with
  | nil => exact List.forall_mem_nil _
  | cons member rest ih =>
      have first : ∀ token ∈ member.2.tokens, token.IsWritten := h member List.mem_cons_self
      have others := ih fun other mem => h other (List.mem_cons_of_mem _ mem)
      cases rest with
      | nil =>
          simp only [List.map_cons, List.map_nil, memberTokens, List.forall_mem_cons]
          exact ⟨rfl, trivial, first⟩
      | cons next rest =>
          simp only [List.map_cons, memberTokens, List.forall_mem_cons, List.forall_mem_append,
            List.cons_append] at others ⊢
          exact ⟨rfl, trivial, first, trivial, others⟩

theorem text?_ofText (text : String) : (ofText text).text? = some text :=
  rfl

theorem integer?_ofNat {n : Nat} {low high : Int} (above : low ≤ n) (below : n < high) :
    (ofNat n).integer? low high = some (n : Int) := by
  have value : (NumberText.ofNat n).integer? = some (n : Int) := by
    simp [NumberText.integer?, NumberText.ofNat, Digits.value_ofNat]
  rw [ofNat, integer?, value, Option.filter_some, decide_eq_true above, decide_eq_true below]
  rfl

theorem count?_ofNat {n : Nat} (fits : n < 2 ^ 64) : (ofNat n).count? = some n := by
  rw [count?, integer?_ofNat (Int.natCast_nonneg n) (by omega)]
  rfl

theorem uint32?_ofNat {n : Nat} (fits : n < 2 ^ 32) : (ofNat n).uint32? = some (.ofNat n) := by
  rw [uint32?, integer?_ofNat (Int.natCast_nonneg n) (by omega)]
  rfl

theorem uint32?_ofNat_toNat (n : UInt32) : (ofNat n.toNat).uint32? = some n := by
  rw [uint32?_ofNat n.toNat_lt, UInt32.ofNat_toNat]

section Numbers

variable [Scalar ν] [JsonNumber ν]

theorem isWritten_ofNumber [LawfulJsonNumber ν] {x : ν} (finite : Scalar.isFinite x = true) :
    (ofNumber x).IsWritten := by
  obtain ⟨written, same, wellFormed⟩ := LawfulJsonNumber.write? x finite
  rw [ofNumber, same]
  exact List.forall_mem_singleton.2 wellFormed

theorem number?_ofNumber (back : JsonNumber.ReadsBack ν) {x : ν}
    (finite : Scalar.isFinite x = true) : (ofNumber x).number? = some x := by
  obtain ⟨written, same, read⟩ := Option.bind_eq_some_iff.1 (back x finite)
  rw [ofNumber, same]
  exact read

end Numbers

/-! ## 2. Fields -/

def AreNamed (members : List (Option String × Json)) : Prop :=
  ∀ member ∈ members, member.1.isSome

def valuesOf (members : List (Option String × Json)) (name : String) : List Json :=
  (members.filter fun member => member.1 == some name).map Prod.snd

theorem mapM_eq_some_iff {β : Type} {f : β → Option α} {before : List β} {after : List α} :
    before.mapM f = some after ↔ List.Forall₂ (fun x y => f x = some y) before after := by
  induction before generalizing after with
  | nil =>
      rw [List.forall₂_nil_left_iff]
      exact ⟨fun h => (Option.some.inj h).symm, fun h => congrArg some h.symm⟩
  | cons x rest ih =>
      rw [List.forall₂_cons_left_iff]
      simp only [List.mapM_cons, Option.bind_eq_bind, Option.bind_eq_some_iff, Option.pure_def,
        Option.some.injEq, ih]
      constructor
      · rintro ⟨y, first, others, read, rfl⟩
        exact ⟨y, others, first, read, rfl⟩
      · rintro ⟨y, others, first, read, rfl⟩
        exact ⟨y, first, others, read, rfl⟩

theorem textMembers?_eq_some_iff {members : List (Option String × Json)}
    {named : List (String × Json)} :
    textMembers? members = some named ↔
      members = named.map fun member => (some member.1, member.2) := by
  constructor
  · intro h
    rw [textMembers?, mapM_eq_some_iff] at h
    induction h with
    | nil => rfl
    | @cons member _ _ _ same _ ih =>
        obtain ⟨key, text, rfl⟩ := Option.map_eq_some_iff.1 same
        rw [List.map_cons, ← ih, ← text]
  · rintro rfl
    rw [textMembers?, List.mapM_map]
    exact List.mapM_pure.trans (congrArg some (List.map_id named))

theorem textMembers?_ofMembers (members : List (String × Json)) :
    textMembers? (members.map fun member => (some member.1, member.2)) = some members :=
  textMembers?_eq_some_iff.2 rfl

theorem areNamed_iff {members : List (Option String × Json)} :
    AreNamed members ↔ ∃ named, textMembers? members = some named := by
  simp only [textMembers?_eq_some_iff]
  constructor
  · intro h
    induction members with
    | nil => exact ⟨[], rfl⟩
    | cons member rest ih =>
        obtain ⟨first, others⟩ := List.forall_mem_cons.1 h
        obtain ⟨key, text⟩ := Option.isSome_iff_exists.1 first
        obtain ⟨named, rfl⟩ := ih others
        exact ⟨(key, member.2) :: named, by rw [List.map_cons, ← text]⟩
  · rintro ⟨named, rfl⟩ member mem
    obtain ⟨text, -, rfl⟩ := List.mem_map.1 mem
    rfl

theorem field?_eq_some_iff {members : List (Option String × Json)} {named : List (String × Json)}
    (same : textMembers? members = some named) {name : String} {value : Option Json} :
    field? named name = some value ↔ valuesOf members name = value.toList := by
  have values : valuesOf members name = (named.filter fun m => m.1 == name).map Prod.snd := by
    rw [textMembers?_eq_some_iff.1 same, valuesOf, List.filter_map, List.map_map]
    rfl
  rw [values]
  unfold field?
  generalize named.filter (fun m => m.1 == name) = found
  rcases found with _ | ⟨member, _ | ⟨next, rest⟩⟩ <;> cases value <;> simp

/-- **The fields of an object are the values of its members**, if its names are texts and none of
    the fields stands there twice. -/
theorem fields?_object_eq_some_iff {members : List (Option String × Json)} {names : List String}
    {values : List (Option Json)} :
    (Json.object members).fields? names = some values ↔ AreNamed members ∧
      List.Forall₂ (fun name value => valuesOf members name = value.toList) names values := by
  rw [fields?, areNamed_iff, Option.bind_eq_bind, Option.bind_eq_some_iff]
  constructor
  · rintro ⟨named, same, read⟩
    exact ⟨⟨named, same⟩, (mapM_eq_some_iff.1 read).imp fun _ _ => (field?_eq_some_iff same).1⟩
  · rintro ⟨⟨named, same⟩, read⟩
    exact ⟨named, same, mapM_eq_some_iff.2 (read.imp fun _ _ => (field?_eq_some_iff same).2)⟩

/-- A name that stands once has one value, whatever stands around it. -/
theorem valuesOf_of_mem {members : List (String × Json)} (distinct : (members.map Prod.fst).Nodup)
    {member : String × Json} (mem : member ∈ members) :
    valuesOf (members.map fun member => (some member.1, member.2)) member.1 = [member.2] := by
  induction members with
  | nil => cases mem
  | cons first rest ih =>
      rw [List.map_cons, List.nodup_cons] at distinct
      rw [List.map_cons]
      rcases List.mem_cons.1 mem with rfl | mem
      · have others : ∀ other ∈ rest.map fun member => (some member.1, member.2),
            ¬ (other.1 == some member.1) := by
          simp only [List.forall_mem_map, beq_iff_eq, Option.some.injEq]
          exact fun other inside same => distinct.1 (List.mem_map.2 ⟨other, inside, same⟩)
        rw [valuesOf, List.filter_cons, if_pos (by simp), List.filter_eq_nil_iff.2 others]
        rfl
      · rw [valuesOf, List.filter_cons_of_neg]
        · exact ih distinct.2 mem
        · rw [beq_iff_eq, Option.some.injEq]
          exact fun same => distinct.1 (List.mem_map.2 ⟨member, mem, same.symm⟩)

/-- **An object has the fields it was written with**, each under its own name. -/
theorem fields?_ofMembers {members : List (String × Json)} {names : List String}
    (named : members.map Prod.fst = names) (distinct : names.Nodup) :
    (ofMembers members).fields? names = some (members.map fun member => some member.2) := by
  subst named
  refine fields?_object_eq_some_iff.2 ⟨?_, ?_⟩
  · exact areNamed_iff.2 ⟨members, textMembers?_ofMembers members⟩
  · rw [List.forall₂_map_left_iff, List.forall₂_map_right_iff, List.forall₂_same]
    exact fun member mem => valuesOf_of_mem distinct mem

theorem closedFields?_ofMembers {members : List (String × Json)} {names : List String}
    (named : members.map Prod.fst = names) (distinct : names.Nodup) :
    (ofMembers members).closedFields? names = some (members.map fun member => some member.2) := by
  rw [← fields?_ofMembers named distinct]
  refine if_pos (List.all_eq_true.2 fun member mem => ?_)
  obtain ⟨original, inside, rfl⟩ := List.mem_map.1 mem
  exact List.contains_iff_mem.2 (named ▸ List.mem_map_of_mem inside)

/-! ## 3. Texts of objects -/

def IsPlainText (text : String) : Prop :=
  text.toList.flatMap escapeChar = text.toList

instance (text : String) : Decidable (IsPlainText text) :=
  inferInstanceAs (Decidable (_ = _))

theorem text_ofText {text : String} (plain : IsPlainText text) :
    (ofText text).text = "\"" ++ text ++ "\"" := by
  rw [← String.toList_inj]
  simp [Json.text, ofText, tokens, Token.toChars, show _ = _ from plain]

theorem text_ofMembers_singleton {name : String} (plain : IsPlainText name) (value : Json) :
    (ofMembers [(name, value)]).text = "\x7b\"" ++ name ++ "\":" ++ value.text ++ "\x7d" := by
  rw [← String.toList_inj]
  simp [Json.text, ofMembers, tokens, memberTokens, Token.toChars, show _ = _ from plain]

theorem map_text_ofMembers_singleton {name : String} (plain : IsPlainText name)
    (value : Option Json) : (value.map fun json => ofMembers [(name, json)]).map Json.text =
      (value.map Json.text).map fun text => "\x7b\"" ++ name ++ "\":" ++ text ++ "\x7d" := by
  rw [Option.map_map, Option.map_map]
  exact congrArg (Option.map · value) (funext (text_ofMembers_singleton plain))

/-- The first member of an object opens its text. -/
theorem exists_text_ofMembers {name : String} (plain : IsPlainText name) (value : Json)
    (others : List (String × Json)) : ∃ rest, (ofMembers ((name, value) :: others)).text =
      "\x7b\"" ++ name ++ "\":" ++ value.text ++ rest := by
  cases others with
  | nil => exact ⟨_, text_ofMembers_singleton plain value⟩
  | cons next others =>
      let behind : List Token :=
        .comma :: memberTokens ((next :: others).map fun member => (some member.1, member.2)) ++
          [.endObject]
      refine ⟨String.ofList (behind.flatMap Token.toChars), ?_⟩
      rw [← String.toList_inj]
      simp [Json.text, ofMembers, tokens, memberTokens, Token.toChars, behind,
        show _ = _ from plain]

end Json

/-! ## 4. Formats -/

structure Contents (ν : Type) where
  instants : List Instant := []
  numbers : List ν := []
  counts : List Nat := []

namespace Contents

def append (a b : Contents ν) : Contents ν :=
  { instants := a.instants ++ b.instants
    numbers := a.numbers ++ b.numbers
    counts := a.counts ++ b.counts }

def AreDated (contents : Contents ν) : Prop :=
  ∀ instant ∈ contents.instants, Instant.epoch.nanos ≤ instant.nanos

def AreFinite [Scalar ν] (contents : Contents ν) : Prop :=
  (∀ x ∈ contents.numbers, Scalar.isFinite x = true) ∧ ∀ count ∈ contents.counts, count < 2 ^ 64

theorem areDated_append {a b : Contents ν} :
    (a.append b).AreDated ↔ a.AreDated ∧ b.AreDated :=
  List.forall_mem_append

theorem areFinite_append [Scalar ν] {a b : Contents ν} :
    (a.append b).AreFinite ↔ a.AreFinite ∧ b.AreFinite := by
  simp only [AreFinite, append, List.forall_mem_append]
  tauto

end Contents

namespace Json

structure Format (ν α : Type) where
  toJson? : α → Option Json
  ofJson? : Json → Option α
  contents : α → Contents ν

namespace Format

def write? (format : Format ν α) (x : α) : Option String :=
  (format.toJson? x).map Json.text

def read? (format : Format ν α) (text : String) : Option α :=
  (Json.parse? text).bind format.ofJson?

/-- **What it means that values survive being sent.**  A value has a text exactly if its instants
    are at or after the epoch.  If its numbers are finite and its counts fit 64 bits, too, the text
    is read as an equal value, which has the same text. -/
structure RoundTrips [Scalar ν] (format : Format ν α) : Prop where
  written_iff : ∀ x, (format.write? x).isSome = true ↔ (format.contents x).AreDated
  returns : ∀ x text, format.write? x = some text → (format.contents x).AreFinite →
    ∃ back, format.read? text = some back ∧ back = x ∧ format.write? back = some text

structure IsLawful [Scalar ν] (format : Format ν α) : Prop where
  isSome_iff : ∀ x, (format.toJson? x).isSome = true ↔ (format.contents x).AreDated
  isWritten : ∀ {x json}, format.toJson? x = some json → (format.contents x).AreFinite →
    json.IsWritten
  reads : ∀ {x json}, format.toJson? x = some json → (format.contents x).AreFinite →
    format.ofJson? json = some x

theorem IsLawful.roundTrips [Scalar ν] {format : Format ν α} (h : format.IsLawful) :
    format.RoundTrips where
  written_iff x := by rw [write?, Option.isSome_map, h.isSome_iff]
  returns x text written finite := by
    obtain ⟨json, same, rfl⟩ := Option.map_eq_some_iff.1 written
    refine ⟨x, ?_, rfl, written⟩
    rw [read?, Json.parse?_text (h.isWritten same finite), Option.bind_some, h.reads same finite]

end Format

end Json

end RankLedger
