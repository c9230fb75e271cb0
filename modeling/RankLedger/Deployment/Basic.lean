import RankLedger.Deployment.Fault
import RankLedger.Deployment.IdSource
import RankLedger.Factory
import RankLedger.Manager.Write

/-!
# Deployments

A deployment is everything that managers run against: one index, one clock, a source of fresh
identifiers, lock services and a listener that records what it is told, together with the plan of
what will go wrong.  `Deployment.answer` says how each call of a program is answered.  Programs
run one after another, so a lock that is asked for is always free.

**Shared and private locks.** The managers set up by hand share one lock service; it notes the
keys it is asked for, and faults and rivals strike there only.  Each manager built by a factory
has a lock service of its own, in which nothing goes wrong.
-/

namespace RankLedger

/-! ## 1. The state of a deployment -/

structure Bot where
  /-- The position of the manager it votes with. -/
  manager : Nat
  /-- The channel it listens to. -/
  channel : String
  voter : UserReference
  vote : Int
  deriving DecidableEq, Repr, Inhabited

def Bot.provokedBy? {ν : Type} (bot : Bot) (notification : Notification ν) : Option Ranking :=
  match notification.data with
  | .average _ => none
  | .ranking ranking =>
      if notification.event.channel = bot.channel ∧ ranking.voter ≠ bot.voter then some ranking
      else none

inductive Builder where
  /-- Builds managers on the index of the deployment. -/
  | plain
  /-- Does the same, and notes that it was asked. -/
  | noted
  /-- Notes that it was asked, and fails. -/
  | failing
  deriving DecidableEq, Repr, Inhabited

structure Deployment (ν : Type) where
  index : Index ν := {}
  clock : Instant := Instant.ofMillis 1700000000000
  ids : IdSource := {}
  /-- What the listener was told, in order. -/
  heard : List (Notification ν) := []
  /-- The keys asked of the shared lock service, in order. -/
  keysAsked : List String := []
  /-- The locks of each service; a service that is not listed has none yet. -/
  lockTables : List (LockService × LockTable) := []
  /-- The number of the next private lock service. -/
  nextService : Nat := 1
  indexFaults : List IndexFault := []
  lockFaults : List LockAction := []
  rival : Option (Rival ν) := none
  bot : Option Bot := none
  /-- Whether a bot broke off while it voted. -/
  brokenOff : Bool := false
  /-- The managers set up by hand; a position can be one where the set-up failed. -/
  managers : List (Except RankingError Manager) := []
  factory : Option (Factory Builder Manager) := none
  /-- The hint and the scale of each build that was noted, in order. -/
  builds : List (String × UInt32) := []
  /-- The private lock services of the factory-built managers that were looked at, in order. -/
  instancesSeen : List LockService := []

namespace Deployment

def sharedLocks : LockService := ⟨0⟩

variable {ν : Type}

def lockTable (deployment : Deployment ν) (service : LockService) : LockTable :=
  (deployment.lockTables.lookup service).getD {}

def setLockTable (deployment : Deployment ν) (service : LockService) (table : LockTable) :
    Deployment ν :=
  { deployment with
    lockTables :=
      (service, table) :: deployment.lockTables.filter fun entry => entry.1 != service }

def hear (deployment : Deployment ν) (notification : Notification ν) : Deployment ν :=
  { deployment with heard := deployment.heard ++ [notification] }

/-! ## 2. Answering calls -/

def attempt {α : Type} (deployment : Deployment ν) (core : String) (action : IndexAction)
    (carryOut : Deployment ν → Except IndexError α × Deployment ν) :
    Except IndexError α × Deployment ν :=
  match IndexFault.strike core action deployment.indexFaults with
  | (some error, indexFaults) => (.error error, { deployment with indexFaults })
  | (none, indexFaults) => carryOut { deployment with indexFaults }

def failsLock (deployment : Deployment ν) (service : LockService) (action : LockAction) : Bool :=
  service == sharedLocks && deployment.lockFaults.contains action

def getLock (deployment : Deployment ν) (service : LockService) (key : String) :
    Except LockError LockId × Deployment ν :=
  let noted :=
    if service = sharedLocks then { deployment with keysAsked := deployment.keysAsked ++ [key] }
    else deployment
  if noted.failsLock service .get then (.error (.notAcquired key), noted)
  else
    let (lock, table) := (noted.lockTable service).get key
    (.ok lock, noted.setLockTable service table)

/-- Takes a lock with a guard.  If that fails the reference to the lock is dropped.  A rival waits
    for a lock of the shared service to be taken, and strikes once. -/
def acquire (deployment : Deployment ν) (service : LockService) (lock : LockId) :
    Except LockError Unit × Deployment ν :=
  let table := deployment.lockTable service
  if deployment.failsLock service .take then
    (.error (.poisoned "lock service"), deployment.setLockTable service (table.drop lock))
  else
    let taken := deployment.setLockTable service (table.take lock)
    if service = sharedLocks then
      match taken.rival with
      | none => (.ok (), taken)
      | some rival => (.ok (), { taken with index := rival.strike taken.index, rival := none })
    else (.ok (), taken)

def release (deployment : Deployment ν) (service : LockService) (lock : LockId) : Deployment ν :=
  deployment.setLockTable service ((deployment.lockTable service).dismiss lock)

def answer [Scalar ν] (listen : Notification ν → Deployment ν → Deployment ν) :
    Program.Handler ν (Deployment ν)
  | .openCore core, deployment =>
      deployment.attempt core .openCore fun deployment =>
        match deployment.index.openCore core with
        | .ok index => (.ok (), { deployment with index })
        | .error error => (.error error, deployment)
  | .add core document, deployment =>
      deployment.attempt core .add fun deployment =>
        (.ok (), { deployment with index := deployment.index.add core document })
  | .delete core id, deployment =>
      deployment.attempt core .delete fun deployment =>
        (.ok (), { deployment with index := deployment.index.delete core id })
  | .commit core, deployment =>
      deployment.attempt core .commit fun deployment =>
        (.ok (), { deployment with index := deployment.index.commit core })
  | .query core query, deployment =>
      deployment.attempt core .query fun deployment =>
        (deployment.index.query core query, deployment)
  | .getLock service key, deployment => deployment.getLock service key
  | .acquire service lock, deployment => deployment.acquire service lock
  | .release service lock, deployment => ((), deployment.release service lock)
  | .now, deployment => (deployment.clock, deployment)
  | .freshId, deployment =>
      let (id, ids) := deployment.ids.next
      (id, { deployment with ids })
  | .notify notification, deployment => ((), listen notification deployment)

/-! ## 3. The listener -/

def listenQuietly (notification : Notification ν) (deployment : Deployment ν) : Deployment ν :=
  deployment.hear notification

/-- A listener that records and then lets the bot vote.  What the bot does provokes no bot: its
    own votes are not those of another user, so they are only recorded. -/
def listen [Scalar ν] (notification : Notification ν) (deployment : Deployment ν) :
    Deployment ν :=
  let heard := deployment.hear notification
  match heard.bot with
  | none => heard
  | some bot =>
      match bot.provokedBy? notification, heard.managers[bot.manager]? with
      | some ranking, some (.ok manager) =>
          match (manager.save ranking.target bot.voter bot.vote).run.run (answer listenQuietly)
            heard with
          | (.error .overflow, voted) => { voted with brokenOff := true }
          | (_, voted) => voted
      | _, _ => heard

/-! ## 4. Running programs -/

def perform [Scalar ν] {α : Type} (deployment : Deployment ν) (program : Program ν α) :
    α × Deployment ν :=
  program.run (answer listen) deployment

def addManager (deployment : Deployment ν) (identifier : String) (configuration : Configuration) :
    Except RankingError Manager × Deployment ν :=
  let manager := Manager.create? identifier configuration sharedLocks
  (manager, { deployment with managers := deployment.managers ++ [manager] })

def build : Factory.Build Builder Manager (Deployment ν)
  | builder, hint, configuration, deployment =>
      let noted :=
        match builder with
        | .plain => deployment
        | .noted | .failing =>
            { deployment with builds := deployment.builds ++ [(hint, configuration.scale)] }
      match builder with
      | .failing => (.error (.configuration (.other ("no store for " ++ hint))), noted)
      | .plain | .noted =>
          (Manager.create? hint configuration ⟨noted.nextService⟩,
            { noted with nextService := noted.nextService + 1 })

def getInstance (deployment : Deployment ν) (hint : String) :
    Except RankingError Manager × Deployment ν :=
  match deployment.factory with
  | none => (.error (.managerLookup hint (.other "there is no factory")), deployment)
  | some factory =>
      let (manager, factory, deployment) := factory.getInstance build hint deployment
      (manager, { deployment with factory := some factory })

end Deployment

end RankLedger
