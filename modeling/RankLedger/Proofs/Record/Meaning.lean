import Mathlib.Algebra.Ring.Int.Defs
import Mathlib.Data.List.Induction
import RankLedger.Proofs.Record.Match

/-!
# What a query asks of a vote

A query is built by asking for one value after another, and of two values that are asked of one
field the last one counts (`RankingQuery.value?_build`).  What it asks is said here of the vote and
not of its document: a field has a text, a number or a date, and a value that is asked for is a
text, a number or a date as well; it is met by an equal one of the same kind (`Ranking.Has`).  In
the same way votes are compared by what they say in a field (`Ranking.compareBy`), which is how the
index compares their documents (`Ranking.compareDocuments_toDocument`).

The index does not compare dates but the words in which they are stored, and dates that are far
enough apart are stored in the same word.  So it lets votes pass that do not have the date asked for
(`Ranking.Passes`), unless this date fits its word (`Ranking.passes_iff_has`).
-/

namespace RankLedger

/-! ## 1. Clauses -/

namespace RankingQuery

inductive Clause where
  | target (entity : EntityReference)
  | voter (user : UserReference)
  | filter (field : QueryField) (value : FilterValue)
  deriving DecidableEq, Repr

def add (query : RankingQuery) : Clause → RankingQuery
  | .target entity => query.target entity
  | .voter user => query.voter user
  | .filter field value => query.filter field value

def build (clauses : List Clause) : RankingQuery :=
  clauses.foldl add empty

def Clause.asks : Clause → List (QueryField × FilterValue)
  | target entity =>
      [(.entityReference, .entity entity), (.entityType, .entityType entity.entityType)]
  | voter user => [(.userReference, .user user)]
  | filter field value => [(field, value)]

def lastAsked (field : QueryField) (clauses : List Clause) : Option FilterValue :=
  ((clauses.flatMap Clause.asks).filter (·.1 = field)).getLast?.map Prod.snd

/-- Every value that counts, apart from those asked of managers, is like this. -/
def ForAsked (clauses : List Clause) (p : QueryField → FilterValue → Prop) : Prop :=
  ∀ field value, field ≠ .managerId → lastAsked field clauses = some value → p field value

theorem lastAsked_concat (field : QueryField) (clauses : List Clause) (clause : Clause) :
    lastAsked field (clauses ++ [clause]) =
      ((clause.asks.filter (·.1 = field)).getLast?.map Prod.snd).or (lastAsked field clauses) := by
  rw [lastAsked, List.flatMap_append, List.flatMap_singleton, List.filter_append,
    List.getLast?_append, Option.map_or]
  rfl

theorem value?_add (query : RankingQuery) (clause : Clause) (field : QueryField) :
    (query.add clause).value? field =
      ((clause.asks.filter (·.1 = field)).getLast?.map Prod.snd).or (query.value? field) := by
  cases clause with
  | target entity => cases field <;> rfl
  | voter user => cases field <;> rfl
  | filter asked value =>
      by_cases same : field = asked
      · subst same
        simp [add, Clause.asks]
      · simp [add, value?_filter_of_ne _ _ same, Clause.asks, Ne.symm same]

/-- **The last value counts**, field by field. -/
theorem value?_build (clauses : List Clause) (field : QueryField) :
    (build clauses).value? field = lastAsked field clauses := by
  induction clauses using List.reverseRecOn with
  | nil => rfl
  | append_singleton clauses clause ih =>
      rw [lastAsked_concat, ← ih, ← value?_add, build, List.foldl_append]
      rfl

theorem fits_build_iff {clauses : List Clause} :
    (build clauses).Fits ↔ ForAsked clauses fun _ value => value.Fits := by
  simp only [Fits, ForAsked, value?_build]

end RankingQuery

/-! ## 2. Values -/

def Instant.wholeMillis (t : Instant) : Int :=
  t.nanos.tdiv 1000000

/-- Stored dates are the same if they are a multiple of 64-bit words apart. -/
theorem Instant.millis_eq_iff {a b : Instant} :
    a.millis = b.millis ↔ 2 ^ 64 ∣ a.wholeMillis - b.wholeMillis := by
  rw [millis, millis, ← wholeMillis, ← wholeMillis, ← Int64.toInt_inj, Int64.toInt_ofInt,
    Int64.toInt_ofInt, Int.bmod_eq_bmod_iff_bmod_sub_eq_zero, ← Int.dvd_iff_bmod_eq_zero]
  rfl

/-- The milliseconds of a word are its number. -/
theorem Instant.IsOfWord.wholeMillis {t : Instant} (h : t.IsOfWord) :
    t.wholeMillis = t.millis.toInt := by
  rw [Instant.wholeMillis]
  conv_lhs => rw [← show ofMillis t.millis = t from h, nanos_ofMillis]
  exact Int.mul_tdiv_cancel _ (by decide)

/-- A date that is asked for has milliseconds that fit their word and can be negated in it. -/
def FilterValue.InRange : FilterValue → Prop
  | .date instant => -2 ^ 63 < instant.wholeMillis ∧ instant.wholeMillis < 2 ^ 63
  | _ => True

theorem FilterValue.InRange.fits {value : FilterValue} (h : value.InRange) : value.Fits := by
  cases value with
  | date instant =>
      have word : instant.millis.toInt = instant.wholeMillis := by
        rw [Instant.millis, ← Instant.wholeMillis]
        exact Int64.toInt_ofInt_of_le (by have := h.1; omega) (by have := h.2; omega)
      have date : instant.IsDate := by
        rw [Instant.IsDate, ne_eq, eq_minValue_iff, word]
        have := h.1
        omega
      show instant.toMillis?.isSome = true
      rw [Instant.toMillis?_of_isDate date]
      rfl
  | text | integer | entity | entityType | user => trivial

namespace Ranking

def text? (vote : Ranking) : QueryField → Option String
  | .identifier => some vote.id
  | .entityReference => some vote.target.reference
  | .entityType => some vote.target.entityType.name
  | .userReference => some vote.voter.reference
  | .managerId => some vote.manager
  | _ => none

def number? (vote : Ranking) : QueryField → Option Nat
  | .vote => some vote.rank.toNat
  | .scale => some vote.scale.toNat
  | _ => none

def date? (vote : Ranking) : QueryField → Option Instant
  | .createdDate => some vote.created
  | .updatedDate => some vote.updated
  | _ => none

/-- The field of the vote has this value.  Entities, their types and users are asked for by their
    texts, and dates are compared in whole milliseconds. -/
def Has (vote : Ranking) (field : QueryField) : FilterValue → Prop
  | .text value => vote.text? field = some value
  | .entity reference => vote.text? field = some reference.reference
  | .entityType kind => vote.text? field = some kind.name
  | .user user => vote.text? field = some user.reference
  | .integer value => ∃ number, vote.number? field = some number ∧ (number : Int) = value.toInt
  | .date instant => ∃ date, vote.date? field = some date ∧
      date.wholeMillis = instant.wholeMillis

/-- The field of the vote has this value, or, where a date is asked for, one that is stored in the
    same 64-bit word. -/
def Passes (vote : Ranking) (field : QueryField) : FilterValue → Prop
  | .date instant => ∃ date, vote.date? field = some date ∧
      2 ^ 64 ∣ date.wholeMillis - instant.wholeMillis
  | value => vote.Has field value

/-- **Dates.** Where the date that is asked for fits its word, the votes that pass are those that
    have it. -/
theorem passes_iff_has {vote : Ranking} (words : vote.IsOfWords) {field : QueryField}
    {value : FilterValue} (inRange : value.InRange) :
    vote.Passes field value ↔ vote.Has field value := by
  cases value with
  | date instant =>
      refine exists_congr fun date => and_congr_right fun held => ?_
      have word : date.IsOfWord := by
        cases field with
        | createdDate => exact Option.some.inj held ▸ words.1
        | updatedDate => exact Option.some.inj held ▸ words.2
        | identifier | entityReference | entityType | userReference | vote | managerId | scale =>
            cases held
      have low := date.millis.le_toInt
      have high := date.millis.toInt_lt
      have near : -2 ^ 63 < instant.wholeMillis ∧ instant.wholeMillis < 2 ^ 63 := inRange
      rw [word.wholeMillis]
      omega
  | text | integer | entity | entityType | user => exact Iff.rfl

variable {ν : Type} [Scalar ν]

/-- A text is stored as a text, a number as an integer, and a date as a date. -/
theorem same_toFieldValue_iff {vote : Ranking} {field : QueryField} {value : FilterValue} :
    (vote.stored field : FieldValue ν).same value.toFieldValue = true ↔
      vote.Passes field value := by
  have text {a b : String} : (a == b) = true ↔ (some a : Option String) = some b := by
    rw [beq_iff_eq, Option.some_inj]
  have number {n : UInt32} {m : Int64} :
      (Int64.ofNat n.toNat == m) = true ↔ ∃ k, some n.toNat = some k ∧ (k : Int) = m.toInt := by
    rw [beq_iff_eq, ← Int64.toInt_inj, toInt_ofUInt32]
    simp
  have date {a b : Instant} :
      (a.millis == b.millis) = true ↔
        ∃ c, some a = some c ∧ 2 ^ 64 ∣ c.wholeMillis - b.wholeMillis := by
    rw [beq_iff_eq, Instant.millis_eq_iff]
    simp
  cases value with
  | text value | entity reference | entityType kind | user reference =>
      cases field with
      | identifier | entityReference | entityType | userReference | managerId => exact text
      | vote | scale | createdDate | updatedDate => exact ⟨nofun, nofun⟩
  | integer value =>
      cases field with
      | vote | scale => exact number
      | identifier | entityReference | entityType | userReference | managerId | createdDate
      | updatedDate => exact ⟨nofun, fun ⟨_, wrong, _⟩ => nomatch wrong⟩
  | date instant =>
      cases field with
      | createdDate | updatedDate => exact date
      | identifier | entityReference | entityType | userReference | managerId | vote | scale =>
          exact ⟨nofun, fun ⟨_, wrong, _⟩ => nomatch wrong⟩

end Ranking

namespace RankingQuery

variable {ν : Type} [Scalar ν]

/-- **Meaning.** A vote answers a query if it passes, in every field but that of the manager, with
    the value that was asked for last. -/
theorem matches_build {clauses : List Clause} {vote : Ranking} :
    (build clauses).Matches ν vote ↔ ForAsked clauses vote.Passes := by
  simp only [Matches, ForAsked, value?_build, Ranking.same_toFieldValue_iff]

end RankingQuery

/-! ## 3. Order -/

namespace Ranking

def compareBy : QueryField → Ranking → Ranking → Ordering
  | .identifier => compareOn (·.id)
  | .entityReference => compareOn (·.target.reference)
  | .entityType => compareOn (·.target.entityType.name)
  | .userReference => compareOn (·.voter.reference)
  | .vote => compareOn (·.rank.toNat)
  | .createdDate => compareOn (·.created.nanos)
  | .updatedDate => compareOn (·.updated.nanos)
  | .managerId => compareOn (·.manager)
  | .scale => compareOn (·.scale.toNat)

instance (field : QueryField) : Std.TransCmp (compareBy field) := by
  cases field <;> exact inferInstanceAs (Std.TransCmp (compareOn _))

def compareIn (field : QueryField) (ascending : Bool) (a b : Ranking) : Ordering :=
  if ascending then compareBy field a b else compareBy field b a

instance (field : QueryField) (ascending : Bool) : Std.TransCmp (compareIn field ascending) := by
  cases ascending with
  | true => exact inferInstanceAs (Std.TransCmp (compareBy field))
  | false =>
      have opposite : Std.TransCmp fun a b => compareBy field b a := Std.TransCmp.opposite
      exact opposite

variable {ν : Type} [Scalar ν]

omit [Scalar ν] in
theorem compare_toInt (a b : Int64) : compare a b = compare a.toInt b.toInt := by
  show compareOfLessAndEq a b = compareOfLessAndEq a.toInt b.toInt
  simp only [compareOfLessAndEq, Int64.lt_iff_toInt_lt, ← Int64.toInt_inj]

omit [Scalar ν] in
/-- A 32-bit number is stored as one of the same size. -/
theorem compare_ofUInt32 (a b : UInt32) :
    compare (Int64.ofNat a.toNat) (Int64.ofNat b.toNat) = compare a.toNat b.toNat := by
  rw [compare_toInt, toInt_ofUInt32, toInt_ofUInt32]
  show compareOfLessAndEq (a.toNat : Int) b.toNat = compareOfLessAndEq a.toNat b.toNat
  simp only [compareOfLessAndEq, Int.ofNat_lt, Int.ofNat_inj]

omit [Scalar ν] in
/-- Whole dates compare in milliseconds as they do in nanoseconds. -/
theorem compare_millis {a b : Instant} (first : a.IsWhole) (second : b.IsWhole) :
    compare a.millis b.millis = compare a.nanos b.nanos := by
  have nanos {t : Instant} (whole : t.IsWhole) : t.nanos = t.millis.toInt * 1000000 := by
    rw [← Instant.nanos_ofMillis]
    exact congrArg Instant.nanos whole.isOfWord.symm
  have less {m n : Int} : m * 1000000 < n * 1000000 ↔ m < n := by omega
  have same {m n : Int} : m * 1000000 = n * 1000000 ↔ m = n := by omega
  rw [compare_toInt, nanos first, nanos second]
  show compareOfLessAndEq _ _ = compareOfLessAndEq (_ * 1000000) (_ * 1000000)
  simp only [compareOfLessAndEq, less, same]

/-- What is stored of two votes compares as the votes do. -/
theorem compareWith_stored {a b : Ranking} (first : a.IsWhole) (second : b.IsWhole)
    (field : QueryField) :
    (a.stored field : FieldValue ν).compareWith (b.stored field) = compareBy field a b := by
  cases field with
  | identifier | entityReference | entityType | userReference | managerId => rfl
  | vote => exact compare_ofUInt32 a.rank b.rank
  | scale => exact compare_ofUInt32 a.scale b.scale
  | createdDate => exact compare_millis first.1 second.1
  | updatedDate => exact compare_millis first.2 second.2

omit [Scalar ν] in
/-- A vote can be sorted on every field. -/
theorem sortKey?_toDocument (vote : Ranking) (field : QueryField) :
    (vote.toDocument : Document ν).sortKey? field.storedName = some (vote.stored field) := by
  unfold Document.sortKey?
  by_cases same : field = .identifier
  · subst same
    rw [if_pos (show QueryField.identifier.storedName = idField from rfl), id_toDocument]
    rfl
  · have other : field.storedName ≠ idField := fun named =>
      same (QueryField.storedName_injective (b := .identifier) named)
    rw [if_neg other, get?_toDocument vote same]

/-- **Order.** An index query that is sorted on a field compares the documents of votes as the votes
    compare in this field. -/
theorem compareDocuments_toDocument {query : IndexQuery ν} {field : QueryField} {ascending : Bool}
    (sort : query.sort = some (field.storedName, SortOrder.ofAscending ascending)) {a b : Ranking}
    (first : a.IsWhole) (second : b.IsWhole) :
    query.compareDocuments a.toDocument b.toDocument = compareIn field ascending a b := by
  rw [IndexQuery.compareDocuments, sort]
  show (SortOrder.ofAscending ascending).compareKeys _ _ = _
  rw [sortKey?_toDocument, sortKey?_toDocument]
  cases ascending with
  | true => exact compareWith_stored first second field
  | false =>
      show (FieldValue.compareWith _ _).swap = compareBy field b a
      rw [compareWith_stored first second, ← Std.OrientedCmp.eq_swap]

end Ranking

end RankLedger
