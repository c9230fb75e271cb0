import RankLedger.Configuration
import RankLedger.Lock.Key
import RankLedger.Program
import RankLedger.Record

/-!
# Ranking managers

A manager keeps the votes of one namespace, named by its identifier, in an index: the votes in the
common core or in one of its own, the averages in the core of all averages.  This module says what
a manager is and how its work is written: as programs that may fail (`Attempt`), and as programs
that may fail and leave announcements behind (`Change`).

**Announcements.** Work under the lock of a target announces what it committed, and goes on.  The
announcements survive a later failure and are delivered in order once the lock is free, so a
listener may call the manager again for the same target (`Manager.locked`).
-/

namespace RankLedger

structure Manager where
  identifier : String
  configuration : Configuration
  /-- The service that guards the targets of this manager. -/
  locks : LockService
  deriving DecidableEq, Repr, Inhabited

/-! ## 1. Programs that may fail -/

abbrev Attempt (ν : Type) := ExceptT RankingError (Program ν)

namespace Attempt

variable {ν α : Type}

def freshId : Attempt ν String :=
  ExceptT.lift (Program.request .freshId)

def ofExcept (result : Except RankingError α) : Attempt ν α :=
  ExceptT.mk (.done result)

/-- Goes on with a result if the milliseconds of its dates fit, and breaks off if not. -/
def fitting (result : Option α) : Attempt ν α :=
  ofExcept (result.elim (.error .overflow) .ok)

def now : Attempt ν Instant := do
  let instant ← ExceptT.lift (Program.request .now)
  fitting instant.truncated?

/-- A part of a program that only the index can make fail, with what it was done for. -/
def inContext (context : String) (program : ExceptT IndexError (Program ν) α) : Attempt ν α :=
  ExceptT.mk (program.run.bind fun result => .done (result.mapError (.index context)))

def locking (program : Program ν (Except LockError α)) : Attempt ν α :=
  ExceptT.mk (program.bind fun result => .done (result.mapError .lock))

def ofDocument (record : Except DocumentFault α) : Attempt ν α :=
  ofExcept (record.mapError .invalidDocument)

/-- What follows runs if there is a result; an error ends the attempt. -/
theorem run_bind {β : Type} (attempt : Attempt ν α) (f : α → Attempt ν β) :
    (attempt >>= f).run = attempt.run.bind fun
      | .ok result => (f result).run
      | .error error => .done (.error error) := by
  show Program.bind _ _ = _
  congr 1
  funext result
  cases result <;> rfl

theorem fitting_some_bind {β : Type} (a : α) (f : α → Attempt ν β) :
    fitting (some a) >>= f = f a := rfl

theorem fitting_none_bind {β : Type} (f : α → Attempt ν β) :
    fitting none >>= f = ofExcept (.error .overflow) := rfl

end Attempt

/-! ## 2. Programs that announce what they did -/

/-- A program that gives a result or an error, and announcements in either case. -/
abbrev Change (ν : Type) := ExceptT RankingError (StateT (List (Notification ν)) (Program ν))

namespace Change

variable {ν α : Type}

def attempt (program : Attempt ν α) : Change ν α :=
  ExceptT.mk (StateT.lift program.run)

def announce (notification : Notification ν) : Change ν Unit :=
  modify (· ++ [notification])

/-- A program without announcements of its own keeps those that were made before it. -/
theorem run_attempt (program : Attempt ν α) (announced : List (Notification ν)) :
    (attempt program).run.run announced = program.run.bind fun result =>
      .done (result, announced) := rfl

/-- What follows runs with all announcements made so far; an error ends the change and keeps
    them. -/
theorem run_bind {β : Type} (change : Change ν α) (f : α → Change ν β)
    (announced : List (Notification ν)) :
    (change >>= f).run.run announced = (change.run.run announced).bind fun
      | (.ok result, announced) => (f result).run.run announced
      | (.error error, announced) => .done (.error error, announced) := by
  show Program.bind _ _ = _
  congr 1
  funext outcome
  obtain ⟨result, announced⟩ := outcome
  cases result <;> rfl

end Change

/-! ## 3. Managers -/

namespace Manager

variable {ν α : Type}

def isStoreName (name : String) : Bool :=
  name != "" && name != rankingCore && name != averageCore

def create? (identifier : String) (configuration : Configuration) (locks : LockService) :
    Except RankingError Manager :=
  if configuration.dedicatedStore && !isStoreName identifier then
    .error (.configuration (.reservedStoreName identifier))
  else .ok { identifier, configuration, locks }

def scale (manager : Manager) : UInt32 :=
  manager.configuration.scale

def voteCore (manager : Manager) : String :=
  if manager.configuration.dedicatedStore then manager.identifier else rankingCore

def validate (manager : Manager) (vote : Int) : Except RankingError UInt32 :=
  if 0 ≤ vote ∧ vote ≤ manager.scale.toNat then .ok (UInt32.ofNat vote.toNat)
  else .error (.outOfScale vote manager.scale manager.identifier)

def deliver : List (Notification ν) → Program ν Unit
  | [] => .done ()
  | notification :: rest => .step (.notify notification) fun _ => deliver rest

def locked (manager : Manager) (target : EntityReference) (work : Change ν α) : Attempt ν α := do
  let lock ← Attempt.locking
    (Program.request (.getLock manager.locks (lockKey manager.identifier target)))
  Attempt.locking (Program.request (.acquire manager.locks lock))
  let (result, announcements) ← ExceptT.lift (work.run.run [])
  ExceptT.lift (Program.request (.release manager.locks lock))
  ExceptT.lift (deliver announcements)
  Attempt.ofExcept result

end Manager

end RankLedger
