import RankLedger.Index.Document

/-!
# Index queries

A query keeps the documents that pass every filter, orders them on at most one field, and cuts a
page out of the result.  The name `"id"` stands for the identifier of a document, in filters and
in sorts, whatever field of that name the document may have.

**Order.** Documents that have the sort field come before those that lack it, in both
directions; only the values are reversed in a descending sort.  Values of one kind compare in
that kind.  Values of different kinds compare as numbers if both are numbers, and count as equal
otherwise.
-/

namespace RankLedger

inductive SortOrder where
  | ascending
  | descending
  deriving DecidableEq, Repr, Inhabited

def SortOrder.ofAscending (ascending : Bool) : SortOrder :=
  if ascending then .ascending else .descending

def idField : String := "id"

/-- A conjunction of filters, an optional sort on one field, and a page. -/
structure IndexQuery (ν : Type) where
  filters : List (String × FieldValue ν) := []
  start : Nat := 0
  /-- The length of the page; without it the page has no end. -/
  rows : Option Nat := none
  sort : Option (String × SortOrder) := none
  deriving Repr, Inhabited

structure IndexPage (ν : Type) where
  documents : List (Document ν)
  found : Nat
  deriving Repr, Inhabited

variable {ν : Type} [Scalar ν]

def FieldValue.compareWith : FieldValue ν → FieldValue ν → Ordering
  | .text a, .text b => compare a b
  | .integer a, .integer b => compare a b
  | .date a, .date b => compare a b
  | a, b =>
      match a.asNumber?, b.asNumber? with
      | some x, some y => (Scalar.compare? x y).getD .eq
      | _, _ => .eq

def Document.sortKey? (document : Document ν) (field : String) : Option (FieldValue ν) :=
  if field = idField then some (.text document.id) else document.get? field

/-- Puts present values before missing ones; a descending sort reverses only present values. -/
def SortOrder.compareKeys (order : SortOrder) :
    Option (FieldValue ν) → Option (FieldValue ν) → Ordering
  | some a, some b =>
      match order with
      | .ascending => a.compareWith b
      | .descending => (a.compareWith b).swap
  | some _, none => .lt
  | none, some _ => .gt
  | none, none => .eq

namespace IndexQuery

def passes (document : Document ν) (filter : String × FieldValue ν) : Bool :=
  if filter.1 = idField then filter.2.asText? == some document.id
  else
    match document.get? filter.1 with
    | some value => value.same filter.2
    | none => false

def accepts (query : IndexQuery ν) (document : Document ν) : Bool :=
  query.filters.all (passes document)

/-- The order of two documents under the sort of the query; without a sort all are equal. -/
def compareDocuments (query : IndexQuery ν) (a b : Document ν) : Ordering :=
  match query.sort with
  | none => .eq
  | some (field, order) => order.compareKeys (a.sortKey? field) (b.sortKey? field)

def page (query : IndexQuery ν) {α : Type} (results : List α) : List α :=
  match query.rows with
  | none => results.drop query.start
  | some rows => (results.drop query.start).take rows

end IndexQuery

end RankLedger
