import RankLedger.Scalar

/-!
# Documents

What an index stores: an identifier and named fields.  A field value is of one of four kinds, and
kinds do not mix: an integer is never equal to a date or to a double of the same size.  Only the
order of a sorted query looks across kinds (see `RankLedger.Index.Query`).
-/

namespace RankLedger

/-- The value of a document field.  Dates are milliseconds from the Unix epoch. -/
inductive FieldValue (ν : Type) where
  | text (value : String)
  | integer (value : Int64)
  | double (value : ν)
  | date (millis : Int64)
  deriving Repr, Inhabited

namespace FieldValue

variable {ν : Type}

def asText? : FieldValue ν → Option String
  | text value => some value
  | _ => none

def asInteger? : FieldValue ν → Option Int64
  | integer value => some value
  | _ => none

def asNumber? [Scalar ν] : FieldValue ν → Option ν
  | double value => some value
  | integer value => some (Scalar.ofInt64 value)
  | _ => none

def asDate? : FieldValue ν → Option Int64
  | date millis => some millis
  | _ => none

def same [Scalar ν] : FieldValue ν → FieldValue ν → Bool
  | text a, text b => a == b
  | integer a, integer b => a == b
  | double a, double b => Scalar.same a b
  | date a, date b => a == b
  | _, _ => false

def isStorable [Scalar ν] : FieldValue ν → Bool
  | double value => Scalar.isFinite value
  | _ => true

end FieldValue

/-- An indexed document.  Its fields stand in the order of their names, each name once. -/
structure Document (ν : Type) where
  id : String
  fields : List (String × FieldValue ν) := []
  deriving Repr, Inhabited

namespace Document

variable {ν : Type}

def insertField (name : String) (value : FieldValue ν) :
    List (String × FieldValue ν) → List (String × FieldValue ν)
  | [] => [(name, value)]
  | (other, old) :: rest =>
      if name = other then (name, value) :: rest
      else if name < other then (name, value) :: (other, old) :: rest
      else (other, old) :: insertField name value rest

def set (document : Document ν) (name : String) (value : FieldValue ν) : Document ν :=
  { document with fields := insertField name value document.fields }

def ofFields (id : String) (fields : List (String × FieldValue ν)) : Document ν :=
  fields.foldl (fun document field => document.set field.1 field.2) { id }

def get? (document : Document ν) (name : String) : Option (FieldValue ν) :=
  document.fields.lookup name

def isStorable [Scalar ν] (document : Document ν) : Bool :=
  document.fields.all fun field => field.2.isStorable

def same [Scalar ν] (a b : Document ν) : Bool :=
  a.id == b.id && a.fields.length == b.fields.length
    && (a.fields.zip b.fields).all fun pair => pair.1.1 == pair.2.1 && pair.1.2.same pair.2.2

theorem lookup_insertField_self (name : String) (value : FieldValue ν)
    (fields : List (String × FieldValue ν)) :
    (insertField name value fields).lookup name = some value := by
  induction fields with
  | nil => simp [insertField]
  | cons field rest ih =>
      obtain ⟨other, old⟩ := field
      unfold insertField
      split
      · simp
      · rename_i hne
        split
        · simp
        · simpa [List.lookup_cons, beq_eq_false_iff_ne.2 hne] using ih

theorem lookup_insertField_of_ne {name other : String} (value : FieldValue ν)
    (fields : List (String × FieldValue ν)) (h : other ≠ name) :
    (insertField name value fields).lookup other = fields.lookup other := by
  induction fields with
  | nil => simp [insertField, List.lookup_cons, beq_eq_false_iff_ne.2 h]
  | cons field rest ih =>
      obtain ⟨head, old⟩ := field
      unfold insertField
      split
      · rename_i heq
        subst heq
        simp [List.lookup_cons, beq_eq_false_iff_ne.2 h]
      · split
        · simp [List.lookup_cons, beq_eq_false_iff_ne.2 h]
        · simp only [List.lookup_cons, ih]

@[simp] theorem get?_set_self (document : Document ν) (name : String) (value : FieldValue ν) :
    (document.set name value).get? name = some value :=
  lookup_insertField_self name value document.fields

theorem get?_set_of_ne (document : Document ν) {name other : String} (value : FieldValue ν)
    (h : other ≠ name) : (document.set name value).get? other = document.get? other :=
  lookup_insertField_of_ne value document.fields h

@[simp] theorem id_set (document : Document ν) (name : String) (value : FieldValue ν) :
    (document.set name value).id = document.id := rfl

end Document

end RankLedger
