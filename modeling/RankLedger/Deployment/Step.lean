import RankLedger.Deployment.Basic
import RankLedger.Service

/-!
# Steps of a rehearsal

A rehearsal drives a deployment step by step: calls to its managers, its factory and its page
service, direct changes of the index past all planned faults, and the planning of faults itself.
`Deployment.carryOut` says what a step does and what comes out of it; `Deployment.rehearse` adds
what the listener heard, the lock keys that were asked for, and the sizes of all cores.
-/

namespace RankLedger

/-! ## 1. Steps and what comes out of them -/

inductive Addressee where
  /-- The manager set up by hand at this position. -/
  | position (number : Nat)
  /-- The manager that the factory has for this hint. -/
  | hint (hint : String)
  deriving DecidableEq, Repr, Inhabited

structure Series where
  target : EntityReference
  start : Int
  stop : Int
  first : Int
  period : Int
  deriving DecidableEq, Repr, Inhabited

namespace Series

def numbers (series : Series) : List Int :=
  (List.range (series.stop - series.start).toNat).map fun (n : Nat) => series.start + n

def vote (series : Series) (n : Int) : Int :=
  series.first + n.tmod series.period

def voter (n : Int) : UserReference :=
  ⟨"v" ++ toString n⟩

end Series

inductive Step (ν : Type) where
  | save (addressee : Addressee) (target : EntityReference) (voter : UserReference) (vote : Int)
  | rankings (addressee : Addressee) (query : RankingQuery) (offset : Nat) (limit : Option Nat)
      (order : QueryField) (ascending : Bool)
  | count (addressee : Addressee) (query : RankingQuery)
  | remove (addressee : Addressee) (id : String)
  | average (addressee : Addressee) (target : EntityReference)
  | recompute (position : Nat) (target : EntityReference)
  /-- Saves a series of votes; the clock shows `base + n * pace` milliseconds for the `n`-th. -/
  | saveSeries (addressee : Addressee) (series : Series) (base pace : Int)
  | addManager (identifier : String) (configuration : Configuration)
  | registerBuilder (storageHint : String) (builder : Builder)
  /-- The builds that were noted. -/
  | builds
  /-- The manager of a hint, and which instance it is. -/
  | lookAt (hint : String)
  /-- The hints that have an instance. -/
  | cachedHints
  /-- The configuration of a hint. -/
  | resolve (hint : String)
  | pageSave (hint : String) (target : EntityReference) (voter : UserReference) (vote : Int)
  | pageRankings (hint : String) (target : EntityReference) (offset : Nat) (limit : Option Nat)
  | pageAverage (hint : String) (target : EntityReference)
  /-- Does nothing. -/
  | wait
  | seed (core : String) (documents : List (Document ν)) (commit : Bool)
  /-- Adds a series of votes of a manager with this identifier and scale directly to a core. -/
  | seedSeries (core manager : String) (scale : Int64) (series : Series)
  | unseed (core id : String)
  | commit (core : String)
  /-- All committed documents of a core. -/
  | dump (core : String)
  | failIndex (fault : IndexFault)
  | failLocks (action : LockAction)
  /-- Takes all planned faults back. -/
  | heal
  | awaitRival (rival : Rival ν)
  | setBot (bot : Option Bot)

inductive Outcome (ν : Type) where
  | nothing
  | accepted
  | flag (value : Bool)
  | number (value : Nat)
  | ranking (record : Option Ranking)
  | rankings (records : List Ranking)
  | average (record : Option (AverageRank ν))
  | documents (documents : List (Document ν))
  /-- How many votes of a series were stored, and how many events there were. -/
  | series (stored events : Nat)
  | manager (manager : Manager) (cores : List String)
  | inspected (number : Nat) (manager : Manager)
  | builds (notes : List (String × UInt32))
  | hints (hints : List String)
  | configuration (own : Bool) (configuration : Configuration)
  | failed (error : RankingError)
  | indexFailed (error : IndexError)

structure Report (ν : Type) where
  outcome : Outcome ν
  heard : List (Notification ν)
  keysAsked : List String
  /-- Every core and the number of its committed documents. -/
  cores : List (String × Nat)

namespace Deployment

variable {ν : Type} [Scalar ν]

/-! ## 2. Carrying a step out -/

def managerOf (deployment : Deployment ν) : Addressee → Except RankingError Manager × Deployment ν
  | .position number =>
      (match deployment.managers[number]? with
        | some manager => manager
        | none => .error (.managerLookup (toString number) (.other "no manager at this position")),
        deployment)
  | .hint hint => deployment.getInstance hint

def ask {α : Type} (deployment : Deployment ν) (addressee : Addressee)
    (attempt : Manager → Attempt ν α) (outcome : α → Outcome ν) : Outcome ν × Deployment ν :=
  match deployment.managerOf addressee with
  | (.error error, deployment) => (.failed error, deployment)
  | (.ok manager, deployment) =>
      match deployment.perform (attempt manager).run with
      | (.ok result, deployment) => (outcome result, deployment)
      | (.error error, deployment) => (.failed error, deployment)

def serve {α : Type} (deployment : Deployment ν) (hint : String)
    (attempt : Except RankingError Manager → Attempt ν α) (outcome : α → Outcome ν) :
    Outcome ν × Deployment ν :=
  let (manager, deployment) := deployment.getInstance hint
  match deployment.perform (attempt manager).run with
  | (.ok result, deployment) => (outcome result, deployment)
  | (.error error, deployment) => (.failed error, deployment)

def saveEach (manager : Manager) (series : Series) (base pace : Int) :
    (numbers : List Int) → (stored : Nat) → Deployment ν →
      Except RankingError Nat × Deployment ν
  | [], stored, deployment => (.ok stored, deployment)
  | n :: rest, stored, deployment =>
      let clock := Instant.ofMillis (Int64.ofInt (base + n * pace))
      match { deployment with clock }.perform
          (manager.save series.target (Series.voter n) (series.vote n)).run with
      | (.error error, deployment) => (.error error, deployment)
      | (.ok (some _), deployment) =>
          saveEach manager series base pace rest (stored + 1) deployment
      | (.ok none, deployment) => saveEach manager series base pace rest stored deployment

def direct (deployment : Deployment ν) (core : String) (change : Index ν → Index ν) :
    Outcome ν × Deployment ν :=
  match deployment.index.openCore core with
  | .error _ => (.nothing, deployment)
  | .ok index => (.nothing, { deployment with index := change index })

def seriesDocument (manager : String) (scale : Int64) (series : Series) (n : Int) : Document ν :=
  Document.ofFields ("d" ++ toString n)
    [(QueryField.managerId.storedName, .text manager),
      (QueryField.entityReference.storedName, .text series.target.reference),
      (QueryField.entityType.storedName, .text series.target.entityType.name),
      (QueryField.userReference.storedName, .text (Series.voter n).reference),
      (QueryField.vote.storedName, .integer (Int64.ofInt (series.vote n))),
      (QueryField.scale.storedName, .integer scale),
      (QueryField.createdDate.storedName, .date (Int64.ofInt n)),
      (QueryField.updatedDate.storedName, .date (Int64.ofInt n))]

def withFactory (deployment : Deployment ν)
    (use : Factory Builder Manager → Outcome ν × Deployment ν) : Outcome ν × Deployment ν :=
  match deployment.factory with
  | none => (.nothing, deployment)
  | some factory => use factory

def instanceNumber (deployment : Deployment ν) (service : LockService) : Nat × Deployment ν :=
  match deployment.instancesSeen.idxOf? service with
  | some number => (number, deployment)
  | none =>
      (deployment.instancesSeen.length,
        { deployment with instancesSeen := deployment.instancesSeen ++ [service] })

def carryOut (deployment : Deployment ν) : Step ν → Outcome ν × Deployment ν
  | .save addressee target voter vote =>
      deployment.ask addressee (fun manager => manager.save target voter vote) .ranking
  | .rankings addressee query offset limit order ascending =>
      deployment.ask addressee (fun manager => manager.rankings query offset limit order ascending)
        .rankings
  | .count addressee query => deployment.ask addressee (fun manager => manager.count query) .number
  | .remove addressee id => deployment.ask addressee (fun manager => manager.remove id) .flag
  | .average addressee target =>
      deployment.ask addressee (fun manager => manager.average target) fun record =>
        .average (some record)
  | .recompute position target =>
      deployment.ask (.position position) (fun manager => manager.recompute target) fun record =>
        .average (some record)
  | .saveSeries addressee series base pace =>
      match deployment.managerOf addressee with
      | (.error error, deployment) => (.failed error, deployment)
      | (.ok manager, deployment) =>
          match saveEach manager series base pace series.numbers 0 deployment with
          | (.error error, deployment) => (.failed error, { deployment with keysAsked := [] })
          | (.ok stored, deployment) =>
              (.series stored deployment.heard.length,
                { deployment with heard := [], keysAsked := [] })
  | .addManager identifier configuration =>
      match deployment.addManager identifier configuration with
      | (.error error, deployment) => (.failed error, deployment)
      | (.ok manager, deployment) => (.manager manager deployment.index.names, deployment)
  | .registerBuilder storageHint builder =>
      deployment.withFactory fun factory =>
        match factory.registerBuilder storageHint builder with
        | .error error => (.failed error, deployment)
        | .ok factory => (.accepted, { deployment with factory := some factory })
  | .builds => (.builds deployment.builds, deployment)
  | .lookAt hint =>
      match deployment.getInstance hint with
      | (.error error, deployment) => (.failed error, deployment)
      | (.ok manager, deployment) =>
          let (number, deployment) := deployment.instanceNumber manager.locks
          (.inspected number manager, deployment)
  | .cachedHints =>
      deployment.withFactory fun factory => (.hints factory.cachedHints, deployment)
  | .resolve hint =>
      deployment.withFactory fun factory =>
        (.configuration (factory.registry.contains hint) (factory.registry.resolve hint),
          deployment)
  | .pageSave hint target voter vote =>
      deployment.serve hint (fun manager => Service.save manager target voter vote) .ranking
  | .pageRankings hint target offset limit =>
      deployment.serve hint (fun manager => Service.rankings manager target offset limit)
        .rankings
  | .pageAverage hint target =>
      deployment.serve hint (fun manager => Service.average manager target) .average
  | .wait => (.nothing, deployment)
  | .seed core documents commit =>
      deployment.direct core fun index =>
        let added := documents.foldl (fun index document => index.add core document) index
        if commit then added.commit core else added
  | .seedSeries core manager scale series =>
      deployment.direct core fun index =>
        (series.numbers.foldl
          (fun index n => index.add core (seriesDocument manager scale series n)) index).commit core
  | .unseed core id =>
      deployment.direct core fun index => (index.delete core id).commit core
  | .commit core => deployment.direct core fun index => index.commit core
  | .dump core =>
      match deployment.index.openCore core with
      | .error error => (.indexFailed error, deployment)
      | .ok index =>
          (match index.query core {} with
            | .error error => .indexFailed error
            | .ok page => .documents page.documents,
            { deployment with index })
  | .failIndex fault =>
      (.nothing, { deployment with indexFaults := deployment.indexFaults ++ [fault] })
  | .failLocks action =>
      (.nothing, { deployment with lockFaults := deployment.lockFaults ++ [action] })
  | .heal => (.nothing, { deployment with indexFaults := [], lockFaults := [], rival := none })
  | .awaitRival rival => (.nothing, { deployment with rival := some rival })
  | .setBot bot => (.nothing, { deployment with bot })

/-! ## 3. Reports -/

def coreSizes (deployment : Deployment ν) : List (String × Nat) :=
  deployment.index.names.map fun name => (name, deployment.index.size name)

/-- Sets the clock if the step says so, carries the step out, and reports what was seen since the
    last report.  A bot that breaks off takes the step with it. -/
def rehearse (deployment : Deployment ν) (clock : Option Instant) (step : Step ν) :
    Report ν × Deployment ν :=
  let (outcome, after) :=
    { deployment with clock := clock.getD deployment.clock, heard := [], keysAsked := [] }.carryOut
      step
  ({ outcome := if after.brokenOff then .failed .overflow else outcome
     heard := after.heard, keysAsked := after.keysAsked, cores := after.coreSizes },
    after)

/-! ## 4. Setting a deployment up -/

def addFactory (deployment : Deployment ν) (registry : ConfigurationRegistry)
    (registrations : Nat) : Except RankingError (Deployment ν) := do
  let factory ← (List.replicate registrations indexStorageHint).foldlM
    (fun (factory : Factory Builder Manager) hint => factory.registerBuilder hint .plain)
    { registry }
  return { deployment with factory := some factory }

end Deployment

end RankLedger
