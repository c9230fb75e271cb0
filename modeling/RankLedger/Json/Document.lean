import RankLedger.Index.Document
import RankLedger.Json.Read

/-!
# Documents in JSON

The written forms of field values and documents.  The kind of a field value is the only key of an
object around it; the fields of a document are written in the order of their names.
-/

namespace RankLedger

namespace FieldValue

variable {ν : Type} [JsonNumber ν]

def toJson : FieldValue ν → Json
  | text value => .ofMembers [("Text", .ofText value)]
  | integer value => .ofMembers [("Integer", .ofInt value.toInt)]
  | double value => .ofMembers [("Double", .ofNumber value)]
  | date millis => .ofMembers [("Date", .ofInt millis.toInt)]

def ofJson? : Json → Option (FieldValue ν)
  | .object [(some "Text", json)] => json.text?.map text
  | .object [(some "Integer", json)] => json.int64?.map integer
  | .object [(some "Double", json)] => json.number?.map double
  | .object [(some "Date", json)] => json.int64?.map date
  | _ => none

end FieldValue

namespace Document

variable {ν : Type} [JsonNumber ν]

def toJson (document : Document ν) : Json :=
  .ofMembers
    [("id", .ofText document.id),
      ("fields", .ofMembers (document.fields.map fun field => (field.1, field.2.toJson)))]

def fieldsOfJson? : Json → Option (List (String × FieldValue ν))
  | .object members => do
      let members ← Json.textMembers? members
      members.mapM fun member =>
        (FieldValue.ofJson? member.2).map fun value => (member.1, value)
  | _ => none

def ofJson? (json : Json) : Option (Document ν) := do
  match ← json.fields? ["id", "fields"] with
  | [id, fields] => return Document.ofFields (← id.bind Json.text?) (← fields.bind fieldsOfJson?)
  | _ => none

end Document

end RankLedger
