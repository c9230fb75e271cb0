/-!
# Lock tables

A lock table hands out one lock per key.  It does not keep a lock alive: a lock lives as long as
somebody holds a *reference* to it, and everyone who asks for its key meanwhile gets the same
lock.  Entries of dead locks are dropped whenever a new lock is made, so the table never has more
entries than live keys at that moment plus the new one.

Locks are plain: anyone with a reference may take or free one.  A guard is the orderly way, a
reference together with the duty to free the lock when the guard goes.
-/

namespace RankLedger

structure LockId where
  number : Nat
  deriving DecidableEq, Repr, Inhabited

/-- The locks handed out by key, who still refers to them, and which of them are taken. -/
structure LockTable where
  /-- The lock last made for each key, alive or dead. -/
  entries : List (String × LockId) := []
  /-- One occurrence for every reference that somebody holds. -/
  references : List LockId := []
  /-- The locks that are taken. -/
  held : List LockId := []
  /-- The number of the next lock. -/
  next : Nat := 0
  deriving DecidableEq, Repr, Inhabited

namespace LockTable

def isLive (table : LockTable) (lock : LockId) : Bool :=
  table.references.contains lock

def live? (table : LockTable) (key : String) : Option LockId :=
  (table.entries.lookup key).filter table.isLive

def retain (table : LockTable) (lock : LockId) : LockTable :=
  { table with references := lock :: table.references }

def drop (table : LockTable) (lock : LockId) : LockTable :=
  { table with references := table.references.erase lock }

def make (table : LockTable) : LockId × LockTable :=
  let lock : LockId := ⟨table.next⟩
  (lock, { table with references := lock :: table.references, next := table.next + 1 })

def prune (table : LockTable) : LockTable :=
  { table with entries := table.entries.filter fun entry => table.isLive entry.2 }

def get (table : LockTable) (key : String) : LockId × LockTable :=
  match table.live? key with
  | some lock => (lock, table.retain lock)
  | none =>
      let (lock, made) := table.prune.make
      (lock, { made with entries := (key, lock) :: made.entries })

def isHeld (table : LockTable) (lock : LockId) : Bool :=
  table.held.contains lock

def take (table : LockTable) (lock : LockId) : LockTable :=
  { table with held := if table.isHeld lock then table.held else lock :: table.held }

def tryTake (table : LockTable) (lock : LockId) : Bool × LockTable :=
  (!table.isHeld lock, table.take lock)

def free (table : LockTable) (lock : LockId) : LockTable :=
  { table with held := table.held.filter fun other => other != lock }

def dismiss (table : LockTable) (lock : LockId) : LockTable :=
  (table.free lock).drop lock

def size (table : LockTable) : Nat :=
  (table.entries.filter fun entry => table.isLive entry.2).length

def isEmpty (table : LockTable) : Bool :=
  table.size == 0

/-! ## The lock just handed out -/

/-- A lock that was handed out is the live lock of its key. -/
theorem live?_get (table : LockTable) (key : String) :
    (table.get key).2.live? key = some (table.get key).1 := by
  unfold get
  split
  · rename_i lock h
    unfold live? at h ⊢
    obtain ⟨hlookup, _⟩ := Option.filter_eq_some_iff.1 h
    simp [retain, hlookup, isLive]
  · simp [live?, make, prune, isLive]

/-- Whoever asks again while the lock is alive gets the same one. -/
theorem get_get (table : LockTable) (key : String) :
    ((table.get key).2.get key).1 = (table.get key).1 := by
  have h := live?_get table key
  generalize table.get key = first at h
  unfold get
  rw [h]

end LockTable

end RankLedger
