import RankLedger.Average
import RankLedger.Error
import RankLedger.Query
import RankLedger.Ranking

/-!
# Records as documents

Votes and averages are stored as documents with fixed fields.  Reading a record back checks that
every field is there, of its kind and in its range, in a fixed order: of several faults the first
one is reported.  Other fields are ignored.
-/

namespace RankLedger

/-! ## 1. Cores -/

def rankingCore : String := "ranking"

def averageCore : String := "averageRank"

/-! ## 2. Reading fields -/

namespace Document

variable {ν : Type}

def text (document : Document ν) (field : String) : Except DocumentFault String :=
  match (document.get? field).bind FieldValue.asText? with
  | some value => .ok value
  | none => .error (.missing field document.id)

def integer (document : Document ν) (field : String) : Except DocumentFault Int64 :=
  match (document.get? field).bind FieldValue.asInteger? with
  | some value => .ok value
  | none => .error (.missing field document.id)

def unsigned (document : Document ν) (field : String) : Except DocumentFault UInt32 := do
  let value ← document.integer field
  if 0 ≤ value.toInt ∧ value.toInt < 4294967296 then
    return UInt32.ofNat value.toInt.toNat
  else throw (.outOfRange field value document.id)

def date (document : Document ν) (field : String) : Except DocumentFault Instant :=
  match (document.get? field).bind FieldValue.asDate? with
  | some millis => .ok (Instant.ofMillis millis)
  | none => .error (.missing field document.id)

def number [Scalar ν] (document : Document ν) (field : String) : Except DocumentFault ν :=
  match (document.get? field).bind FieldValue.asNumber? with
  | some value => .ok value
  | none => .error (.missing field document.id)

end Document

def FieldValue.ofUInt32 {ν : Type} (n : UInt32) : FieldValue ν :=
  .integer (Int64.ofNat n.toNat)

/-! ## 3. Votes -/

namespace Ranking

variable {ν : Type}

def fields (ranking : Ranking) (created updated : Int64) : List (String × FieldValue ν) :=
  [(QueryField.managerId.storedName, .text ranking.manager),
    (QueryField.entityReference.storedName, .text ranking.target.reference),
    (QueryField.entityType.storedName, .text ranking.target.entityType.name),
    (QueryField.userReference.storedName, .text ranking.voter.reference),
    (QueryField.vote.storedName, .ofUInt32 ranking.rank),
    (QueryField.scale.storedName, .ofUInt32 ranking.scale),
    (QueryField.createdDate.storedName, .date created),
    (QueryField.updatedDate.storedName, .date updated)]

def toDocument? (ranking : Ranking) : Option (Document ν) := do
  let created ← ranking.created.toMillis?
  let updated ← ranking.updated.toMillis?
  return Document.ofFields ranking.id (ranking.fields created updated)

def ofDocument (document : Document ν) : Except DocumentFault Ranking := do
  let typeName ← document.text QueryField.entityType.storedName
  let entityType ← match EntityType.ofName? typeName with
    | some entityType => pure entityType
    | none => throw (.unknownEntityType typeName)
  let manager ← document.text QueryField.managerId.storedName
  let reference ← document.text QueryField.entityReference.storedName
  let voter ← document.text QueryField.userReference.storedName
  let rank ← document.unsigned QueryField.vote.storedName
  let scale ← document.unsigned QueryField.scale.storedName
  let created ← document.date QueryField.createdDate.storedName
  let updated ← document.date QueryField.updatedDate.storedName
  return { id := document.id, manager, target := { entityType, reference },
           voter := { reference := voter }, rank, scale, created, updated }

end Ranking

/-! ## 4. Averages -/

inductive AverageField where
  | managerId
  | rankedElement
  | entityType
  | average
  | voteNumber
  | scale
  | updatedAt
  deriving DecidableEq, Repr, Inhabited

def AverageField.storedName : AverageField → String
  | managerId => "managerId"
  | rankedElement => "rankedElement"
  | entityType => "entityType"
  | average => "average"
  | voteNumber => "voteNumber"
  | scale => "scale"
  | updatedAt => "updatedAt"

namespace AverageRank

variable {ν : Type}

/-- The fields of a stored average, with the milliseconds of its date.  The number of votes is kept
    in a signed 64-bit word. -/
def fields (average : AverageRank ν) (updated : Int64) : List (String × FieldValue ν) :=
  [(AverageField.managerId.storedName, .text average.manager),
    (AverageField.rankedElement.storedName, .text average.target.reference),
    (AverageField.entityType.storedName, .text average.target.entityType.name),
    (AverageField.average.storedName, .double average.average),
    (AverageField.voteNumber.storedName, .integer (Int64.ofNat average.number)),
    (AverageField.scale.storedName, .ofUInt32 average.scale),
    (AverageField.updatedAt.storedName, .date updated)]

def toDocument? (average : AverageRank ν) : Option (Document ν) := do
  let updated ← average.updated.toMillis?
  return Document.ofFields average.id (average.fields updated)

/-- The average in a document.  The target is the one that was asked for; what the document says
    about it is not read. -/
def ofDocument [Scalar ν] (document : Document ν) (target : EntityReference) :
    Except DocumentFault (AverageRank ν) := do
  let average ← document.number AverageField.average.storedName
  let number ← document.integer AverageField.voteNumber.storedName
  if number.toInt < 0 then throw (.negativeCount number document.id)
  let manager ← document.text AverageField.managerId.storedName
  let scale ← document.unsigned AverageField.scale.storedName
  let updated ← document.date AverageField.updatedAt.storedName
  return { id := document.id, manager, target, average, number := number.toInt.toNat, scale,
           updated }

end AverageRank

end RankLedger
