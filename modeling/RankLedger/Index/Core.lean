import RankLedger.Index.Query
import RankLedger.Error

/-!
# Cores

A core is one partition of the index.  Writes wait in a buffer until a commit; queries see
committed documents only.  A commit has two steps that other users of the core may come between:
`drain` empties the buffer and `apply` carries the drained batch out.

**Insertion order.** A document keeps its place when it is written again, and loses it when it is
deleted: added anew it goes to the end.  Equal documents of a sorted query stand in this order.

**Unreadable documents.** A document with a double that is not finite can be written but not read
back.  As long as one is committed, every query of its core fails.

**Assumption.** Documents are kept as JSON text.  A finite double is taken to be read back from its
text unchanged, as it is by a reader that rounds to the nearest double.  A reader that trades this
for speed may miss some doubles by a unit in the last place (`1/11` is one of them); then what is
said of the doubles in stored documents holds up to this error, and nothing else changes.
-/

namespace RankLedger

inductive CoreWrite (ν : Type) where
  | add (document : Document ν)
  | delete (id : String)
  deriving Repr, Inhabited

structure StoredDocument (ν : Type) where
  place : Nat
  document : Document ν
  deriving Repr, Inhabited

def StoredDocument.renew {ν : Type} (document : Document ν) (stored : StoredDocument ν) :
    StoredDocument ν :=
  if stored.document.id = document.id then { stored with document } else stored

@[simp] theorem StoredDocument.id_renew {ν : Type} (document : Document ν)
    (stored : StoredDocument ν) : (stored.renew document).document.id = stored.document.id := by
  unfold renew
  split
  · rename_i h
    exact h.symm
  · rfl

structure Core (ν : Type) where
  /-- Writes that wait for a commit, the first one first. -/
  pending : List (CoreWrite ν) := []
  /-- The committed documents in insertion order. -/
  committed : List (StoredDocument ν) := []
  /-- The place of the next new document. -/
  nextPlace : Nat := 1
  deriving Repr, Inhabited

namespace Core

variable {ν : Type}

def push (core : Core ν) (write : CoreWrite ν) : Core ν :=
  { core with pending := core.pending ++ [write] }

def drain (core : Core ν) : List (CoreWrite ν) × Core ν :=
  (core.pending, { core with pending := [] })

def contains (core : Core ν) (id : String) : Bool :=
  core.committed.any fun stored => stored.document.id == id

def put (core : Core ν) (document : Document ν) : Core ν :=
  if core.contains document.id then
    { core with committed := core.committed.map (StoredDocument.renew document) }
  else
    { core with
      committed := core.committed ++ [{ place := core.nextPlace, document }]
      nextPlace := core.nextPlace + 1 }

/-- Takes a document away.  Nothing happens if it is not there. -/
def erase (core : Core ν) (id : String) : Core ν :=
  { core with committed := core.committed.filter fun stored => stored.document.id != id }

def carryOut (core : Core ν) : CoreWrite ν → Core ν
  | .add document => core.put document
  | .delete id => core.erase id

def apply (core : Core ν) (batch : List (CoreWrite ν)) : Core ν :=
  batch.foldl carryOut core

def commit (core : Core ν) : Core ν :=
  core.drain.2.apply core.drain.1

def size (core : Core ν) : Nat :=
  core.committed.length

/-- Whether two sorted documents may stand in this order: the first one is smaller, or equal and
    inserted earlier. -/
def inOrder [Scalar ν] (query : IndexQuery ν) (a b : StoredDocument ν) : Bool :=
  match query.compareDocuments a.document b.document with
  | .lt => true
  | .eq => decide (a.place ≤ b.place)
  | .gt => false

def search [Scalar ν] (core : Core ν) (query : IndexQuery ν) : List (Document ν) :=
  ((core.committed.filter fun stored => query.accepts stored.document).mergeSort
    (inOrder query)).map (·.document)

def isReadable [Scalar ν] (core : Core ν) : Bool :=
  core.committed.all fun stored => stored.document.isStorable

def query [Scalar ν] (core : Core ν) (query : IndexQuery ν) : Except IndexError (IndexPage ν) :=
  if core.isReadable then
    let results := core.search query
    .ok { documents := query.page results, found := results.length }
  else .error (.serialization "a stored number is not finite")

/-! ## Looking at one document -/

def find? (core : Core ν) (id : String) : Option (StoredDocument ν) :=
  core.committed.find? fun stored => stored.document.id == id

def placeFor (core : Core ν) (id : String) : Nat :=
  match core.find? id with
  | some stored => stored.place
  | none => core.nextPlace

theorem contains_eq_isSome_find? (core : Core ν) (id : String) :
    core.contains id = (core.find? id).isSome := by
  unfold contains find?
  induction core.committed with
  | nil => rfl
  | cons stored rest ih =>
      by_cases h : stored.document.id = id
      · simp [h]
      · simp only [List.any_cons, List.find?_cons, beq_eq_false_iff_ne.2 h, Bool.false_or]
        exact ih

theorem id_of_find? {core : Core ν} {id : String} {stored : StoredDocument ν}
    (h : core.find? id = some stored) : stored.document.id = id := by
  have := List.find?_some h
  simpa using this

/-- Renewing the stored documents changes none but the one that is written. -/
theorem find?_map_renew (committed : List (StoredDocument ν)) (document : Document ν)
    (id : String) :
    (committed.map (StoredDocument.renew document)).find?
        (fun stored => stored.document.id == id) =
      (committed.find? fun stored => stored.document.id == id).map
        (StoredDocument.renew document) := by
  rw [List.find?_map]
  congr 1
  have hcomp : (fun stored : StoredDocument ν => stored.document.id == id) ∘
      StoredDocument.renew document = fun stored => stored.document.id == id := by
    funext stored
    simp
  rw [hcomp]

/-- A written document is found in the place of its predecessor, or in the next one. -/
theorem find?_put_self (core : Core ν) (document : Document ν) :
    (core.put document).find? document.id =
      some { place := core.placeFor document.id, document } := by
  unfold put placeFor
  rw [contains_eq_isSome_find?]
  cases h : core.find? document.id with
  | none =>
      unfold find? at h
      simp [find?, List.find?_append, h]
  | some stored =>
      have hid := id_of_find? h
      unfold find? at h
      simp only [Option.isSome_some, if_true, find?, find?_map_renew, h, Option.map_some,
        StoredDocument.renew, hid]

/-- Writing a document changes no other one. -/
theorem find?_put_of_ne (core : Core ν) (document : Document ν) {id : String}
    (hne : id ≠ document.id) : (core.put document).find? id = core.find? id := by
  unfold put
  split
  · simp only [find?, find?_map_renew]
    cases h : core.committed.find? fun stored => stored.document.id == id with
    | none => rfl
    | some stored =>
        have hid : stored.document.id = id := id_of_find? h
        simp [StoredDocument.renew, hid, hne]
  · have hne' : ¬ document.id = id := fun h => hne h.symm
    simp [find?, List.find?_append, hne']

/-- A deleted document is not found. -/
theorem find?_erase_self (core : Core ν) (id : String) : (core.erase id).find? id = none := by
  simp [erase, find?, List.find?_filter]

/-- Deleting a document changes no other one. -/
theorem find?_erase_of_ne (core : Core ν) {id other : String} (hne : other ≠ id) :
    (core.erase id).find? other = core.find? other := by
  simp only [erase, find?, List.find?_filter]
  congr 1
  funext stored
  by_cases h : stored.document.id = other
  · simp [h, hne]
  · simp [h]

end Core

end RankLedger
