import RankLedger.Lock.Table

/-!
# Lock desks

A lock desk is a lock table together with the references taken from it, kept under names: some
are bare locks, some are guards.  A name that is given something new lets go of what it had, after
the new thing was obtained.
-/

namespace RankLedger

structure Guard where
  lock : LockId
  key : String
  deriving DecidableEq, Repr, Inhabited

structure LockDesk where
  table : LockTable := {}
  names : List (String × LockId) := []
  guards : List (String × Guard) := []
  deriving DecidableEq, Repr, Inhabited

namespace LockDesk

def lock? (desk : LockDesk) (name : String) : Option LockId :=
  desk.names.lookup name

def namesOf (desk : LockDesk) (lock : LockId) : List String :=
  ((desk.names.filter fun entry => entry.2 == lock).map (·.1)).mergeSort
    fun a b => decide (a ≤ b)

def forget (desk : LockDesk) (name : String) : Bool × LockDesk :=
  match desk.lock? name with
  | none => (false, desk)
  | some lock =>
      (true, { desk with
        table := desk.table.drop lock
        names := desk.names.filter fun entry => entry.1 != name })

def assign (desk : LockDesk) (name : String) (lock : LockId) : LockDesk :=
  let cleared := (desk.forget name).2
  { cleared with names := (name, lock) :: cleared.names }

def get (desk : LockDesk) (name key : String) : List String × LockDesk :=
  let (lock, table) := desk.table.get key
  (desk.namesOf lock, { desk with table }.assign name lock)

def make (desk : LockDesk) (name : String) : LockDesk :=
  let (lock, table) := desk.table.make
  { desk with table }.assign name lock

def tryTake (desk : LockDesk) (name : String) : Bool × LockDesk :=
  match desk.lock? name with
  | none => (false, desk)
  | some lock =>
      let (taken, table) := desk.table.tryTake lock
      (taken, { desk with table })

def take (desk : LockDesk) (name : String) : LockDesk :=
  (desk.tryTake name).2

def free (desk : LockDesk) (name : String) : LockDesk :=
  match desk.lock? name with
  | none => desk
  | some lock => { desk with table := desk.table.free lock }

def release (desk : LockDesk) (guard : String) : Bool × LockDesk :=
  match desk.guards.lookup guard with
  | none => (false, desk)
  | some held =>
      (true, { desk with
        table := desk.table.dismiss held.lock
        guards := desk.guards.filter fun entry => entry.1 != guard })

/-- Takes the lock of a name with a guard and keeps the guard.  The guard is a reference of its
    own. -/
def acquire (desk : LockDesk) (guard name key : String) : LockDesk :=
  match desk.lock? name with
  | none => desk
  | some lock =>
      let taken := { desk with table := (desk.table.retain lock).take lock }
      let cleared := (taken.release guard).2
      { cleared with guards := (guard, { lock, key }) :: cleared.guards }

end LockDesk

end RankLedger
