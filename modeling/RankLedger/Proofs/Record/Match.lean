import RankLedger.Manager.Read
import RankLedger.Proofs.Record.RoundTrip

/-!
# Which records answer a query

The filters of a manager's queries, read on records instead of documents.  A vote passes the
filters of a ranking query exactly when it belongs to the manager and has every value asked for
(`Manager.accepts_indexQuery`); what the query says about managers plays no part.  An average
passes the filters of a target exactly when it is the manager's average of that target
(`Manager.accepts_averageQuery`).

A date that is asked for has to have milliseconds.  A query whose dates have them (`RankingQuery.Fits`)
has the filters `Manager.indexQuery`, and any other has none (`Manager.indexQuery?_of_fits`,
`Manager.indexQuery?_of_not_fits`).
-/

namespace RankLedger

variable {ν : Type}

/-! ## 1. Filters -/

namespace FilterValue

def Fits : FilterValue → Prop
  | date instant => instant.toMillis?.isSome = true
  | _ => True

instance (value : FilterValue) : Decidable value.Fits :=
  match value with
  | date _ => inferInstanceAs (Decidable (_ = _))
  | text _ | integer _ | entity _ | entityType _ | user _ => inferInstanceAs (Decidable True)

def toFieldValue : FilterValue → FieldValue ν
  | text value => .text value
  | integer value => .integer value
  | date instant => .date instant.millis
  | entity reference => .text reference.reference
  | entityType kind => .text kind.name
  | user reference => .text reference.reference

theorem toFieldValue?_eq (value : FilterValue) :
    (value.toFieldValue? : Option (FieldValue ν)) =
      if value.Fits then some value.toFieldValue else none := by
  cases value with
  | date instant =>
      show instant.toMillis?.map _ = if instant.toMillis?.isSome = true then _ else _
      cases h : instant.toMillis? with
      | none => rfl
      | some m => rw [Instant.eq_millis_of_toMillis? h]; rfl
  | text | integer | entity | entityType | user => rfl

end FilterValue

/-- Every date that is asked for has milliseconds; what is asked of managers is not looked at. -/
def RankingQuery.Fits (query : RankingQuery) : Prop :=
  ∀ field value, field ≠ .managerId → query.value? field = some value → value.Fits

namespace RankingQuery

@[simp] theorem mem_toList {query : RankingQuery} {field : QueryField} {value : FilterValue} :
    (field, value) ∈ query.toList ↔ query.value? field = some value := by
  unfold toList
  rw [List.mem_filterMap]
  constructor
  · rintro ⟨other, _, h⟩
    obtain ⟨found, hfound, hpair⟩ := Option.map_eq_some_iff.1 h
    cases hpair
    exact hfound
  · intro h
    exact ⟨field, QueryField.mem_all field, by rw [h]; rfl⟩

theorem fits_empty : empty.Fits := by
  intro field value _ asked
  cases asked

theorem Fits.filter {query : RankingQuery} (h : query.Fits) (field : QueryField)
    (value : FilterValue) (fits : value.Fits) : (query.filter field value).Fits := by
  intro other asked own found
  by_cases same : other = field
  · subst same
    rw [value?_filter_self] at found
    exact Option.some.inj found ▸ fits
  · rw [value?_filter_of_ne _ _ same] at found
    exact h other asked own found

theorem fits_identifier (id : String) : (empty.filter .identifier (.text id)).Fits :=
  fits_empty.filter .identifier (.text id) trivial

theorem fits_target (target : EntityReference) : (empty.target target).Fits :=
  (fits_empty.filter .entityReference (.entity target) trivial).filter .entityType
    (.entityType target.entityType) trivial

theorem Fits.voter {query : RankingQuery} (h : query.Fits) (voter : UserReference) :
    (query.voter voter).Fits :=
  h.filter .userReference (.user voter) trivial

end RankingQuery

namespace Manager

def indexQuery (manager : Manager) (query : RankingQuery) : IndexQuery ν :=
  let others := query.toList.filter fun filter => filter.1 != .managerId
  { filters :=
      others.map (fun filter => (filter.1.storedName, filter.2.toFieldValue))
        ++ [(QueryField.managerId.storedName, .text manager.identifier)] }

/-- Filters are converted one by one. -/
theorem mapM_toFieldValue?_of_fits {filters : List (QueryField × FilterValue)}
    (fits : ∀ filter ∈ filters, filter.2.Fits) :
    (filters.mapM fun filter => do
        let value ← filter.2.toFieldValue?
        return (filter.1.storedName, value) : Option (List (String × FieldValue ν))) =
      some (filters.map fun filter => (filter.1.storedName, filter.2.toFieldValue)) := by
  induction filters with
  | nil => rfl
  | cons filter rest ih =>
      obtain ⟨first, others⟩ := List.forall_mem_cons.1 fits
      rw [List.mapM_cons, ih others, FilterValue.toFieldValue?_eq, if_pos first]
      rfl

/-- None of them is if there is one that cannot be converted. -/
theorem mapM_toFieldValue?_of_not_fits {filters : List (QueryField × FilterValue)}
    {filter : QueryField × FilterValue} (mem : filter ∈ filters) (unfit : ¬ filter.2.Fits) :
    (filters.mapM fun filter => do
        let value ← filter.2.toFieldValue?
        return (filter.1.storedName, value) : Option (List (String × FieldValue ν))) = none := by
  induction filters with
  | nil => cases mem
  | cons first rest ih =>
      rw [List.mapM_cons, FilterValue.toFieldValue?_eq]
      obtain rfl | mem := List.mem_cons.1 mem
      · rw [if_neg unfit]
        rfl
      · rw [ih mem]
        split <;> rfl

variable {manager : Manager} {query : RankingQuery}

theorem indexQuery?_of_fits (fits : query.Fits) :
    (manager.indexQuery? query : Option (IndexQuery ν)) = some (manager.indexQuery query) := by
  rw [indexQuery?, mapM_toFieldValue?_of_fits]
  · rfl
  · rintro ⟨field, value⟩ mem
    rw [List.mem_filter, RankingQuery.mem_toList, bne_iff_ne] at mem
    exact fits field value mem.2 mem.1

theorem indexQuery?_of_not_fits (unfit : ¬ query.Fits) :
    (manager.indexQuery? query : Option (IndexQuery ν)) = none := by
  obtain ⟨field, unfit⟩ := Classical.not_forall.1 unfit
  obtain ⟨value, unfit⟩ := Classical.not_forall.1 unfit
  obtain ⟨other, unfit⟩ := Classical.not_imp.1 unfit
  obtain ⟨asked, unfit⟩ := Classical.not_imp.1 unfit
  have mem : (field, value) ∈ query.toList.filter fun filter => filter.1 != .managerId := by
    rw [List.mem_filter, RankingQuery.mem_toList, bne_iff_ne]
    exact ⟨asked, other⟩
  rw [indexQuery?, mapM_toFieldValue?_of_not_fits mem unfit]
  rfl

end Manager

/-! ## 2. Votes -/

variable [Scalar ν]

namespace RankingQuery

variable (ν) in
def Matches (query : RankingQuery) (ranking : Ranking) : Prop :=
  ∀ field value, field ≠ .managerId → query.value? field = some value →
    (ranking.stored field : FieldValue ν).same value.toFieldValue = true

theorem matches_empty (ranking : Ranking) : empty.Matches ν ranking := by
  intro field value _ h
  cases h

theorem matches_identifier {id : String} {ranking : Ranking} :
    (empty.filter .identifier (.text id)).Matches ν ranking ↔ ranking.id = id := by
  constructor
  · intro h
    simpa [Ranking.stored, FilterValue.toFieldValue, FieldValue.same] using
      h .identifier (.text id) (by decide) (value?_filter_self ..)
  · rintro rfl field value _ h
    cases field <;> simp [filter, empty] at h
    subst h
    simp [Ranking.stored, FilterValue.toFieldValue, FieldValue.same]

theorem matches_target {target : EntityReference} {ranking : Ranking} :
    (empty.target target).Matches ν ranking ↔ ranking.target = target := by
  constructor
  · intro h
    -- a target is asked for by two fields, its reference and its type
    have hreference := h .entityReference (.entity target) (by decide)
      (by simp [RankingQuery.target, filter])
    have htype := h .entityType (.entityType target.entityType) (by decide)
      (by simp [RankingQuery.target, filter])
    simp only [Ranking.stored, FilterValue.toFieldValue, FieldValue.same,
      beq_iff_eq] at hreference htype
    have := EntityType.name_injective htype
    cases hr : ranking.target
    cases target
    simp_all
  · rintro rfl field value _ h
    cases field <;> simp [RankingQuery.target, filter, empty] at h
    all_goals
      subst h
      simp [Ranking.stored, FilterValue.toFieldValue, FieldValue.same]

theorem matches_voter {query : RankingQuery} (free : query.value? .userReference = none)
    {voter : UserReference} {ranking : Ranking} :
    (query.voter voter).Matches ν ranking ↔ query.Matches ν ranking ∧ ranking.voter = voter := by
  constructor
  · intro h
    -- asking for the voter as well overwrites nothing, as no voter was asked for
    refine ⟨fun field value hne asked => ?_, ?_⟩
    · apply h field value hne
      rw [RankingQuery.voter, value?_filter_of_ne]
      · exact asked
      · rintro rfl
        rw [free] at asked
        cases asked
    · have := h .userReference (.user voter) (by decide) (value?_filter_self ..)
      simp only [Ranking.stored, FilterValue.toFieldValue, FieldValue.same, beq_iff_eq] at this
      cases hv : ranking.voter
      cases voter
      simp_all
  · rintro ⟨h, rfl⟩ field value hne asked
    by_cases hf : field = .userReference
    · subst hf
      rw [RankingQuery.voter, value?_filter_self] at asked
      cases asked
      simp [Ranking.stored, FilterValue.toFieldValue, FieldValue.same]
    · rw [RankingQuery.voter, value?_filter_of_ne _ _ hf] at asked
      exact h field value hne asked

end RankingQuery

namespace Ranking

/-- A filter on a stored vote is a comparison with the field it names. -/
theorem passes_toDocument (ranking : Ranking) (field : QueryField) (value : FieldValue ν) :
    IndexQuery.passes ranking.toDocument (field.storedName, value) =
      (ranking.stored field).same value := by
  unfold IndexQuery.passes
  by_cases h : field = .identifier
  · subst h
    -- an identifier is compared with that of the document, not with a field
    rw [if_pos (show QueryField.identifier.storedName = idField from rfl), id_toDocument]
    cases value with
    | text text =>
        show (some text == some ranking.id) = (ranking.id == text)
        rw [Bool.eq_iff_iff, beq_iff_eq, beq_iff_eq, Option.some_inj]
        exact eq_comm
    | integer _ => rfl
    | double _ => rfl
    | date _ => rfl
  · have hname : field.storedName ≠ idField := fun same =>
      h (QueryField.storedName_injective (b := .identifier) same)
    rw [if_neg hname, get?_toDocument ranking h]

end Ranking

namespace Manager

/-- **Votes.** A query finds the manager's own votes that have the values asked for. -/
theorem accepts_indexQuery {manager : Manager} {query : RankingQuery} {ranking : Ranking} :
    (manager.indexQuery query : IndexQuery ν).accepts ranking.toDocument = true ↔
      ranking.manager = manager.identifier ∧ query.Matches ν ranking := by
  unfold IndexQuery.accepts indexQuery
  -- the filter on the manager comes last, and replaces what the query says of managers
  rw [List.all_append, Bool.and_eq_true, List.all_map, List.all_eq_true, List.all_cons,
    List.all_nil, Bool.and_true, Ranking.passes_toDocument, and_comm]
  refine and_congr ?_ ⟨fun h field value hne asked => ?_, ?_⟩
  · simp [Ranking.stored, FieldValue.same]
  · have := h (field, value) (by simp [asked, hne])
    rwa [Function.comp_apply, Ranking.passes_toDocument] at this
  · rintro h ⟨field, value⟩ mem
    rw [Function.comp_apply, Ranking.passes_toDocument]
    rw [List.mem_filter, RankingQuery.mem_toList] at mem
    exact h field value (by simpa using mem.2) mem.1

/-! ## 3. Averages -/

/-- **Averages.** The query for the average of a target finds the manager's own averages of this
    target. -/
theorem accepts_averageQuery {manager : Manager} {target : EntityReference}
    {average : AverageRank ν} :
    (manager.averageQuery target).accepts average.toDocument = true ↔
      average.manager = manager.identifier ∧ average.target = target := by
  have passes (field : AverageField) (value : FieldValue ν) (hne : field.storedName ≠ idField) :
      IndexQuery.passes average.toDocument (field.storedName, value) =
        (average.stored field).same value := by
    rw [IndexQuery.passes, if_neg hne, AverageRank.get?_toDocument]
  unfold IndexQuery.accepts averageQuery
  rw [List.all_cons, List.all_cons, List.all_cons, List.all_nil, passes _ _ (by decide),
    passes _ _ (by decide), passes _ _ (by decide)]
  simp only [AverageRank.stored, FieldValue.same, Bool.and_eq_true, beq_iff_eq, and_true]
  refine and_congr Iff.rfl ⟨fun h => ?_, ?_⟩
  · have := EntityType.name_injective h.2
    cases ha : average.target
    cases target
    simp_all
  · rintro rfl
    exact ⟨rfl, rfl⟩

end Manager

end RankLedger
