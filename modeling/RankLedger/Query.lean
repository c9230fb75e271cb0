import RankLedger.Entity
import RankLedger.Index.Query
import RankLedger.Instant

/-!
# Ranking queries

A ranking query asks for votes by the values of their fields: at most one value per field, and a
later value replaces an earlier one.  Each field has the name under which the votes are stored,
and each value turns into a stored value of one kind, so a value of the wrong kind matches
nothing.
-/

namespace RankLedger

/-! ## 1. Fields -/

inductive QueryField where
  | identifier
  | entityReference
  | entityType
  | userReference
  | vote
  | createdDate
  | updatedDate
  | managerId
  | scale
  deriving DecidableEq, Repr, Inhabited

namespace QueryField

def all : List QueryField :=
  [identifier, entityReference, entityType, userReference, vote, createdDate, updatedDate,
    managerId, scale]

def storedName : QueryField → String
  | identifier => idField
  | entityReference => "rankedElement"
  | entityType => "entityType"
  | userReference => "voter"
  | vote => "vote"
  | createdDate => "createdAt"
  | updatedDate => "updatedAt"
  | managerId => "managerId"
  | scale => "scale"

theorem mem_all (field : QueryField) : field ∈ all := by
  cases field <;> simp [all]

theorem storedName_injective {a b : QueryField} (h : a.storedName = b.storedName) : a = b := by
  cases a <;> cases b <;> simp_all [storedName, idField]

end QueryField

/-! ## 2. Values -/

inductive FilterValue where
  | text (value : String)
  | integer (value : Int64)
  | date (instant : Instant)
  | entity (reference : EntityReference)
  | entityType (kind : EntityType)
  | user (reference : UserReference)
  deriving DecidableEq, Repr, Inhabited

/-- The stored value to compare with.  Dates lose what is finer than a millisecond, and of an
    entity only the serialized reference is compared.  A date without milliseconds has none. -/
def FilterValue.toFieldValue? {ν : Type} : FilterValue → Option (FieldValue ν)
  | text value => some (.text value)
  | integer value => some (.integer value)
  | date instant => instant.toMillis?.map .date
  | entity reference => some (.text reference.reference)
  | entityType kind => some (.text kind.name)
  | user reference => some (.text reference.reference)

/-! ## 3. Queries -/

structure RankingQuery where
  value? : QueryField → Option FilterValue

namespace RankingQuery

def empty : RankingQuery := ⟨fun _ => none⟩

instance : Inhabited RankingQuery := ⟨empty⟩

def filter (query : RankingQuery) (field : QueryField) (value : FilterValue) : RankingQuery :=
  ⟨fun other => if other = field then some value else query.value? other⟩

def target (query : RankingQuery) (entity : EntityReference) : RankingQuery :=
  (query.filter .entityReference (.entity entity)).filter .entityType
    (.entityType entity.entityType)

def voter (query : RankingQuery) (user : UserReference) : RankingQuery :=
  query.filter .userReference (.user user)

def toList (query : RankingQuery) : List (QueryField × FilterValue) :=
  QueryField.all.filterMap fun field => (query.value? field).map fun value => (field, value)

def isEmpty (query : RankingQuery) : Bool :=
  query.toList.isEmpty

def same (a b : RankingQuery) : Bool :=
  a.toList == b.toList

@[simp] theorem value?_filter_self (query : RankingQuery) (field : QueryField)
    (value : FilterValue) : (query.filter field value).value? field = some value := by
  simp [filter]

theorem value?_filter_of_ne (query : RankingQuery) {field other : QueryField}
    (value : FilterValue) (h : other ≠ field) :
    (query.filter field value).value? other = query.value? other := by
  simp [filter, h]

end RankingQuery

end RankLedger
