/-!
# Entities and users

What can be ranked, and by whom.  An entity is named by its *type*, one of ten fixed kinds, and
by a serialized reference, a free text that only its owner can read.  Two entities are the same
exactly when both parts are equal; two types never share a name (`EntityType.name_injective`),
so the name of a type can stand for it in stored documents.
-/

namespace RankLedger

/-! ## 1. Entity types -/

inductive EntityType where
  | wiki
  | space
  | document
  | attachment
  | object
  | objectProperty
  | classDefinition
  | classProperty
  | page
  | pageAttachment
  deriving DecidableEq, Repr, Inhabited

namespace EntityType

def all : List EntityType :=
  [wiki, space, document, attachment, object, objectProperty, classDefinition, classProperty,
    page, pageAttachment]

def name : EntityType → String
  | wiki => "WIKI"
  | space => "SPACE"
  | document => "DOCUMENT"
  | attachment => "ATTACHMENT"
  | object => "OBJECT"
  | objectProperty => "OBJECT_PROPERTY"
  | classDefinition => "CLASS"
  | classProperty => "CLASS_PROPERTY"
  | page => "PAGE"
  | pageAttachment => "PAGE_ATTACHMENT"

def ofName? (text : String) : Option EntityType :=
  all.find? fun entityType => entityType.name == text

theorem name_injective {a b : EntityType} (h : a.name = b.name) : a = b := by
  cases a <;> cases b <;> simp_all [name]

@[simp] theorem ofName?_name (entityType : EntityType) :
    ofName? entityType.name = some entityType := by
  cases entityType <;> rfl

theorem name_of_ofName? {text : String} {entityType : EntityType}
    (h : ofName? text = some entityType) : entityType.name = text := by
  have := List.find?_some h
  simpa using this

end EntityType

/-! ## 2. References -/

structure EntityReference where
  entityType : EntityType
  reference : String
  deriving DecidableEq, Repr, Inhabited

def EntityReference.display (entity : EntityReference) : String :=
  entity.entityType.name ++ " " ++ entity.reference

structure UserReference where
  reference : String
  deriving DecidableEq, Repr, Inhabited

end RankLedger
