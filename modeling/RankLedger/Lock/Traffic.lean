import RankLedger.Lock.Table

/-!
# Traffic at a lock table

Several threads use one lock table.  A thread asks for the lock of a key, copies the references it
has and drops them.  Locks are taken and freed through guards only: a reference becomes a guard
when its lock is taken, and a guard that is given up frees the lock and drops the reference.
-/

namespace RankLedger

structure LockReference where
  key : String
  lock : LockId
  deriving DecidableEq, Repr, Inhabited

inductive LockStep where
  /-- Get a reference to the lock of a key. -/
  | get (key : String)
  | copy (reference : LockReference)
  | drop (reference : LockReference)
  /-- Take the lock with a guard, once it is free; the guard keeps the reference. -/
  | acquire (reference : LockReference)
  /-- Give a guard up. -/
  | release (guard : LockReference)
  deriving DecidableEq, Repr, Inhabited

structure LockTraffic (ι : Type) where
  table : LockTable := {}
  /-- The bare references that are alive, each with the thread that has it. -/
  references : List (ι × LockReference) := []
  /-- The guards that are alive, each with the thread that has it. -/
  guards : List (ι × LockReference) := []
  deriving DecidableEq, Repr

namespace LockTraffic

variable {ι : Type} [DecidableEq ι]

/-- A step of a thread.  A thread can only use what it has, and only take a lock that is free. -/
def take (traffic : LockTraffic ι) (thread : ι) : LockStep → Option (LockTraffic ι)
  | .get key =>
      let (lock, table) := traffic.table.get key
      some { traffic with table, references := (thread, ⟨key, lock⟩) :: traffic.references }
  | .copy reference =>
      if (thread, reference) ∈ traffic.references then
        some { traffic with
          table := traffic.table.retain reference.lock
          references := (thread, reference) :: traffic.references }
      else none
  | .drop reference =>
      if (thread, reference) ∈ traffic.references then
        some { traffic with
          table := traffic.table.drop reference.lock
          references := traffic.references.erase (thread, reference) }
      else none
  | .acquire reference =>
      if (thread, reference) ∈ traffic.references ∧
          traffic.table.isHeld reference.lock = false then
        some {
          table := traffic.table.take reference.lock
          references := traffic.references.erase (thread, reference)
          guards := (thread, reference) :: traffic.guards }
      else none
  | .release guard =>
      if (thread, guard) ∈ traffic.guards then
        some { traffic with
          table := traffic.table.dismiss guard.lock
          guards := traffic.guards.erase (thread, guard) }
      else none

def run (traffic : LockTraffic ι) : List (ι × LockStep) → Option (LockTraffic ι)
  | [] => some traffic
  | (thread, step) :: rest => (traffic.take thread step).bind fun next => next.run rest

def alive (traffic : LockTraffic ι) : List (ι × LockReference) :=
  traffic.references ++ traffic.guards

def makes (traffic : LockTraffic ι) : LockStep → Bool
  | .get key => (traffic.table.live? key).isNone
  | _ => false

end LockTraffic

end RankLedger
