import RankLedger.Json.Configuration
import RankLedger.Proofs.Json.Fields
import RankLedger.Proofs.Json.Grammar
import Mathlib.Tactic.MkIffOfInductiveProp

/-!
# What a configuration is read from

A text of an object gives a configuration if each known field stands in it at most once and has a
value of its type.  Then every field of the configuration is what the text gives, or its default if
the text does not give it (`Configuration.IsGivenBy`), and nothing else in the text matters: neither
other members, nor the order, the blanks and the escapes.  An object in which a known field stands
twice or has another value is refused.

**Names without a text.** Half of a surrogate pair may be spelled in any string.  In the value of an
unknown member such a string is skipped like any other, but a name has to be compared with the known
names, so it has to be a text (`Json.AreNamed`).
-/

namespace RankLedger

/-! ## 1. Values of fields -/

namespace Json

variable {α : Type} {values : List Json} {default x : α}

def Fits (values : List Json) (hasType : Json → Prop) : Prop :=
  values.length ≤ 1 ∧ ∀ json ∈ values, hasType json

def IsGiven (values : List Json) (means : Json → α → Prop) (default x : α) : Prop :=
  values = [] ∧ x = default ∨ ∃ json, values = [json] ∧ means json x

theorem fits_iff {means : Json → α → Prop} (default : α) :
    Fits values (fun json => ∃ x, means json x) ↔ ∃ x, IsGiven values means default x := by
  unfold Fits IsGiven
  rcases values with _ | ⟨json, _ | ⟨next, rest⟩⟩
  · exact iff_of_true ⟨Nat.zero_le 1, List.forall_mem_nil _⟩ ⟨default, .inl ⟨rfl, rfl⟩⟩
  · simp
  · simp

theorem isGiven_iff {read : Json → Option α} {means : Json → α → Prop}
    (reads : ∀ json x, read json = some x ↔ means json x) :
    IsGiven values means default x ↔
      ∃ value : Option Json, values = value.toList ∧ orDefault value read default = some x := by
  constructor
  · rintro (⟨absent, rfl⟩ | ⟨json, given, same⟩)
    · exact ⟨none, absent, rfl⟩
    · exact ⟨some json, given, (reads json x).2 same⟩
  · rintro ⟨_ | json, given, same⟩
    · exact .inl ⟨given, (Option.some.inj same).symm⟩
    · exact .inr ⟨json, given, (reads json x).1 same⟩

def IsUnsigned32 (json : Json) (n : UInt32) : Prop :=
  ∃ digits, json = .number { whole := digits } ∧ Digits.value digits = n.toNat

theorem integer?_eq_natCast_iff {written : NumberText} {n : Nat} :
    written.integer? = some (n : Int) ↔
      ∃ digits, written = { whole := digits } ∧ Digits.value digits = n := by
  constructor
  · intro h
    obtain ⟨negative, whole, fraction, exponent⟩ := written
    unfold NumberText.integer? at h
    split_ifs at h with plain
    obtain ⟨rfl, rfl⟩ : fraction = [] ∧ exponent = none := by simpa using plain
    cases negative with
    | false => exact ⟨whole, rfl, Int.ofNat.inj (Option.some.inj h)⟩
    | true =>
        split at h
        · next positive => cases positive
        · cases h
        · cases h
  · rintro ⟨digits, rfl, rfl⟩
    rfl

theorem uint32?_eq_some_iff (json : Json) (n : UInt32) :
    json.uint32? = some n ↔ json.IsUnsigned32 n := by
  constructor
  · intro h
    obtain ⟨i, read, rfl⟩ := Option.map_eq_some_iff.1 h
    cases json with
    | number written =>
        obtain ⟨integer, bounds⟩ := Option.filter_eq_some_iff.1 read
        simp only [Bool.and_eq_true, decide_eq_true_eq] at bounds
        lift i to Nat using bounds.1
        obtain ⟨digits, rfl, rfl⟩ := integer?_eq_natCast_iff.1 integer
        refine ⟨digits, rfl, ?_⟩
        rw [Int.toNat_natCast, UInt32.toNat_ofNat_of_lt' (by simpa [UInt32.size] using bounds.2)]
    | _ => cases read
  · rintro ⟨digits, rfl, value⟩
    have integer : ({ whole := digits } : NumberText).integer? = some (n.toNat : Int) :=
      integer?_eq_natCast_iff.2 ⟨digits, rfl, value⟩
    have below := n.toNat_lt
    rw [uint32?, integer?, integer, Option.filter_some, if_pos (by simp; omega), Option.map_some,
      Int.toNat_natCast, UInt32.ofNat_toNat]

theorem bool?_eq_some_iff (json : Json) (value : Bool) :
    json.bool? = some value ↔ json = .bool value := by
  cases json <;> simp [bool?]

theorem text?_eq_some_iff (json : Json) (text : String) :
    json.text? = some text ↔ json = .string (some text) := by
  cases json <;> simp [text?]

end Json

/-! ## 2. Configurations in objects -/

namespace Configuration

def fieldTypes : List (String × (Json → Prop)) :=
  [("scale", fun json => ∃ n, json.IsUnsigned32 n),
    ("store_zero", fun json => ∃ value, json = .bool value),
    ("store_average", fun json => ∃ value, json = .bool value),
    ("has_dedicated_store", fun json => ∃ value, json = .bool value),
    ("storage_hint", fun json => ∃ text, json = .string (some text))]

example : fieldTypes.map Prod.fst = fieldNames := rfl

/-- Each field is what the members of an object give for it, or else its default. -/
@[mk_iff]
structure IsGivenBy (members : List (Option String × Json)) (configuration : Configuration) :
    Prop where
  scale : Json.IsGiven (Json.valuesOf members "scale") Json.IsUnsigned32 5 configuration.scale
  storeZero : Json.IsGiven (Json.valuesOf members "store_zero")
    (fun json value => json = .bool value) true configuration.storeZero
  storeAverage : Json.IsGiven (Json.valuesOf members "store_average")
    (fun json value => json = .bool value) true configuration.storeAverage
  dedicatedStore : Json.IsGiven (Json.valuesOf members "has_dedicated_store")
    (fun json value => json = .bool value) false configuration.dedicatedStore
  storageHint : Json.IsGiven (Json.valuesOf members "storage_hint")
    (fun json text => json = .string (some text)) "index" configuration.storageHint

variable {members others : List (Option String × Json)} {configuration : Configuration}
  {text other : String}

theorem exists_isGivenBy_iff :
    (∃ configuration : Configuration, configuration.IsGivenBy members) ↔
      ∀ field ∈ fieldTypes, Json.Fits (Json.valuesOf members field.1) field.2 := by
  simp only [fieldTypes, List.forall_mem_cons]
  rw [Json.fits_iff (5 : UInt32), Json.fits_iff true, Json.fits_iff true, Json.fits_iff false,
    Json.fits_iff "index"]
  constructor
  · rintro ⟨configuration, scale, zero, average, store, hint⟩
    exact ⟨⟨_, scale⟩, ⟨_, zero⟩, ⟨_, average⟩, ⟨_, store⟩, ⟨_, hint⟩, List.forall_mem_nil _⟩
  · rintro ⟨⟨scale, hs⟩, ⟨zero, hz⟩, ⟨average, ha⟩, ⟨store, hd⟩, ⟨hint, hh⟩, -⟩
    exact ⟨⟨scale, zero, average, store, hint⟩, hs, hz, ha, hd, hh⟩

/-- Members of other names do not matter, nor does the order of members of different names. -/
theorem isGivenBy_congr
    (same : ∀ name ∈ fieldNames, Json.valuesOf members name = Json.valuesOf others name) :
    configuration.IsGivenBy members ↔ configuration.IsGivenBy others := by
  simp only [fieldNames, List.forall_mem_cons] at same
  obtain ⟨scale, zero, average, store, hint, -⟩ := same
  rw [isGivenBy_iff, isGivenBy_iff, scale, zero, average, store, hint]

/-- **What an object is read as.** -/
theorem ofJson?_object_eq_some_iff :
    ofJson? (.object members) = some configuration ↔
      Json.AreNamed members ∧ configuration.IsGivenBy members := by
  rw [ofJson?, Option.bind_eq_bind, Option.bind_eq_some_iff, isGivenBy_iff,
    Json.isGiven_iff Json.uint32?_eq_some_iff, Json.isGiven_iff Json.bool?_eq_some_iff,
    Json.isGiven_iff Json.bool?_eq_some_iff, Json.isGiven_iff Json.bool?_eq_some_iff,
    Json.isGiven_iff Json.text?_eq_some_iff]
  constructor
  · rintro ⟨values, fields, read⟩
    obtain ⟨named, found⟩ := Json.fields?_object_eq_some_iff.1 fields
    split at read
    · simp only [fieldNames, List.forall₂_cons] at found
      obtain ⟨foundScale, foundZero, foundAverage, foundStore, foundHint, -⟩ := found
      simp only [Option.bind_eq_bind, Option.bind_eq_some_iff, Option.pure_def] at read
      obtain ⟨scale, readScale, zero, readZero, average, readAverage, store, readStore, hint,
        readHint, same⟩ := read
      cases same
      exact ⟨named, ⟨_, foundScale, readScale⟩, ⟨_, foundZero, readZero⟩,
        ⟨_, foundAverage, readAverage⟩, ⟨_, foundStore, readStore⟩, ⟨_, foundHint, readHint⟩⟩
    · cases read
  · rintro ⟨named, ⟨_, foundScale, readScale⟩, ⟨_, foundZero, readZero⟩,
      ⟨_, foundAverage, readAverage⟩, ⟨_, foundStore, readStore⟩, ⟨_, foundHint, readHint⟩⟩
    refine ⟨_, Json.fields?_object_eq_some_iff.2 ⟨named, .cons foundScale (.cons foundZero
      (.cons foundAverage (.cons foundStore (.cons foundHint .nil))))⟩, ?_⟩
    simp only [indexStorageHint, readScale, readZero, readAverage, readStore, readHint,
      Option.bind_eq_bind, Option.bind_some, Option.pure_def]

/-! ## 3. Configurations in texts -/

theorem isWritten_toJson (configuration : Configuration) : configuration.toJson.IsWritten := by
  refine Json.isWritten_ofMembers ?_
  simp only [List.forall_mem_cons]
  exact ⟨Json.isWritten_ofNat _, List.forall_mem_singleton.2 trivial,
    List.forall_mem_singleton.2 trivial, List.forall_mem_singleton.2 trivial,
    Json.isWritten_ofText _, List.forall_mem_nil _⟩

theorem ofJson?_toJson (configuration : Configuration) :
    ofJson? configuration.toJson = some configuration := by
  rw [ofJson?, toJson, Json.fields?_ofMembers]
  case named => rfl
  case distinct => simp [fieldNames]
  simp -implicitDefEqProofs only [List.map_cons, List.map_nil, Option.bind_eq_bind,
    Option.bind_some, Option.pure_def, Json.orDefault, Json.uint32?_ofNat_toNat, Json.bool?,
    Json.text?_ofText]

theorem ofText_of_spells {value : Json} (spelled : value.Spells text) :
    ofText text =
      ((ofJson? value).map Except.ok).getD (.error (.configuration .malformed)) := by
  rw [ofText, Json.parse?_of_spells spelled, Option.bind_some]
  cases ofJson? value <;> rfl

/-- An object is refused if a name is no text, or if a known field stands twice or has a value of
    another type. -/
theorem ofText_eq_error (spelled : (Json.object members).Spells text)
    (refused : ¬ (Json.AreNamed members ∧
      ∀ field ∈ fieldTypes, Json.Fits (Json.valuesOf members field.1) field.2)) :
    ofText text = .error (.configuration .malformed) := by
  have unread : ofJson? (.object members) = none := by
    refine Option.eq_none_iff_forall_ne_some.2 fun configuration read => refused ?_
    obtain ⟨named, given⟩ := ofJson?_object_eq_some_iff.1 read
    exact ⟨named, exists_isGivenBy_iff.1 ⟨configuration, given⟩⟩
  rw [ofText_of_spells spelled, unread]
  rfl

/-- **A configuration is what its known fields are given as**, in every text of an object.

    1. A text that was written of a configuration is read as this configuration.
    2. If the names of an object are texts and each known field stands in it at most once, with a
       value of its type, a configuration is read, and it is the one the members give.  An object in
       which a known field stands twice or has another value is refused.
    3. What else is in the text does not matter. -/
theorem ofText_is_given_by_known_fields :
    (∀ configuration : Configuration, ofText configuration.toJson.text = .ok configuration) ∧
    (∀ members text, (Json.object members).Spells text →
      (Json.AreNamed members →
        (∀ field ∈ fieldTypes, Json.Fits (Json.valuesOf members field.1) field.2) →
        ∃ configuration : Configuration,
          ofText text = .ok configuration ∧ configuration.IsGivenBy members) ∧
      ((∃ field ∈ fieldTypes, ¬ Json.Fits (Json.valuesOf members field.1) field.2) →
        ofText text = .error (.configuration .malformed))) ∧
    (∀ members others text other, (Json.object members).Spells text →
      (Json.object others).Spells other → Json.AreNamed members → Json.AreNamed others →
      (∀ name ∈ fieldNames, Json.valuesOf members name = Json.valuesOf others name) →
      ofText text = ofText other) := by
  refine ⟨fun configuration => ?_, fun members text spelled => ⟨fun named fit => ?_, ?_⟩,
    fun members others text other spelled spelledOther named namedOther same => ?_⟩
  · rw [ofText_of_spells configuration.isWritten_toJson.spells, ofJson?_toJson]
    rfl
  · obtain ⟨configuration, given⟩ := exists_isGivenBy_iff.2 fit
    refine ⟨configuration, ?_, given⟩
    rw [ofText_of_spells spelled, ofJson?_object_eq_some_iff.2 ⟨named, given⟩]
    rfl
  · rintro ⟨field, known, misfit⟩
    exact ofText_eq_error spelled fun ⟨_, fit⟩ => misfit (fit field known)
  · have read : ofJson? (.object members) = ofJson? (.object others) := by
      ext configuration
      rw [ofJson?_object_eq_some_iff, ofJson?_object_eq_some_iff, isGivenBy_congr same]
      exact and_congr_left' (iff_of_true named namedOther)
    rw [ofText_of_spells spelled, ofText_of_spells spelledOther, read]

def scatteredMembers : List (Option String × Json) :=
  [(some "x", .array [.object [(none, .number
      { negative := true, whole := [1], exponent := some { sign := .minus, digits := [5] } })]]),
    (some "scale", .number { whole := [1, 0] }), (some "storage_hint", .string (some "😀"))]

def scatteredText : String :=
  "\x7b \"x\":[\x7b\"\\ud800\":-1E-5\x7d],\n" ++
    "\"sc\\u0061le\" :10,\"storage_hint\":\"\\ud83d\\ude00\"\x7d"

theorem scattered_text_is_read :
    (∃ configuration : Configuration, ofText scatteredText = .ok configuration ∧
      configuration.IsGivenBy scatteredMembers) ∧
    ofText scatteredText = ofText "\x7b\"storage_hint\":\"😀\",\"scale\":10\x7d" ∧
    ofText "\x7b\"scale\":1,\"scale\":1\x7d" = .error (.configuration .malformed) := by
  have scattered : (Json.object scatteredMembers).Spells scatteredText :=
    Json.spells_of_ofChars? (by decide +kernel)
  have plain : (Json.object [(some "storage_hint", .string (some "😀")),
      (some "scale", .number { whole := [1, 0] })]).Spells
        "\x7b\"storage_hint\":\"😀\",\"scale\":10\x7d" := Json.spells_of_ofChars? (by decide +kernel)
  have twice : (Json.object [(some "scale", .number { whole := [1] }),
      (some "scale", .number { whole := [1] })]).Spells "\x7b\"scale\":1,\"scale\":1\x7d" :=
    Json.spells_of_ofChars? (by decide +kernel)
  have given : ({ scale := 10, storageHint := "😀" } : Configuration).IsGivenBy scatteredMembers :=
    { scale := .inr ⟨_, rfl, _, rfl, rfl⟩
      storeZero := .inl ⟨rfl, rfl⟩
      storeAverage := .inl ⟨rfl, rfl⟩
      dedicatedStore := .inl ⟨rfl, rfl⟩
      storageHint := .inr ⟨_, rfl, rfl⟩ }
  obtain ⟨-, reads, agree⟩ := ofText_is_given_by_known_fields
  have named : Json.AreNamed scatteredMembers := by simp [Json.AreNamed, scatteredMembers]
  refine ⟨(reads _ _ scattered).1 named (exists_isGivenBy_iff.1 ⟨_, given⟩),
    agree _ _ _ _ scattered plain named (by simp [Json.AreNamed]) ?_,
    (reads _ _ twice).2 ⟨_, List.mem_cons_self, fun fits => ?_⟩⟩
  · simp only [fieldNames, List.forall_mem_cons]
    exact ⟨rfl, rfl, rfl, rfl, rfl, List.forall_mem_nil _⟩
  · exact absurd fits.1 (by decide)

def unnamedMembers : List (Option String × Json) :=
  [(none, .bool true), (some "scale", .number { whole := [1, 0] })]

/-- A name that is no text is refused, though no known field is wrong, and so is a hint that is no
    text, though it is a string. -/
theorem strings_without_text_are_refused :
    ((Json.object unnamedMembers).Spells "\x7b\"\\ud800\":true,\"scale\":10\x7d" ∧
      (∀ field ∈ fieldTypes, Json.Fits (Json.valuesOf unnamedMembers field.1) field.2) ∧
      ofText "\x7b\"\\ud800\":true,\"scale\":10\x7d" = .error (.configuration .malformed)) ∧
    (Json.object [(some "storage_hint", .string none)]).Spells
        "\x7b\"storage_hint\":\"\\ud83d\"\x7d" ∧
      ofText "\x7b\"storage_hint\":\"\\ud83d\"\x7d" = .error (.configuration .malformed) := by
  have given : ({ scale := 10 } : Configuration).IsGivenBy unnamedMembers :=
    { scale := .inr ⟨_, rfl, _, rfl, rfl⟩
      storeZero := .inl ⟨rfl, rfl⟩
      storeAverage := .inl ⟨rfl, rfl⟩
      dedicatedStore := .inl ⟨rfl, rfl⟩
      storageHint := .inl ⟨rfl, rfl⟩ }
  have unnamed : (Json.object unnamedMembers).Spells "\x7b\"\\ud800\":true,\"scale\":10\x7d" :=
    Json.spells_of_ofChars? (by decide +kernel)
  have hint : (Json.object [(some "storage_hint", .string none)]).Spells
      "\x7b\"storage_hint\":\"\\ud83d\"\x7d" := Json.spells_of_ofChars? (by decide +kernel)
  refine ⟨⟨unnamed, exists_isGivenBy_iff.1 ⟨_, given⟩, ofText_eq_error unnamed ?_⟩, hint,
    ofText_eq_error hint ?_⟩
  · rintro ⟨named, -⟩
    exact absurd (named _ List.mem_cons_self) (by decide)
  · rintro ⟨-, fit⟩
    have fits := fit _ (List.mem_of_getElem? (i := 4) rfl)
    obtain ⟨text, same⟩ := fits.2 (.string none) (List.mem_singleton_self _)
    cases same

end Configuration

end RankLedger
