import RankLedger.Average
import RankLedger.Json.Read
import RankLedger.Ranking

/-!
# Records in JSON

The written forms of entities, users, instants, votes and averages.  An instant is written as
seconds and nanoseconds since the epoch, so an instant before the epoch has no written form, and
neither has a record that holds one.  When an instant is read, a billion nanoseconds or more carry
over into the seconds.
-/

namespace RankLedger

/-! ## 1. Entities and users -/

def EntityType.toJson (entityType : EntityType) : Json :=
  .ofText entityType.name

/-- Reads an entity type: its name, or an object with its name as the only key and no value. -/
def EntityType.ofJson? : Json → Option EntityType
  | .string text => text.bind EntityType.ofName?
  | .object [(key, .null)] => key.bind EntityType.ofName?
  | _ => none

def EntityReference.toJson (entity : EntityReference) : Json :=
  .ofMembers
    [("entity_type", entity.entityType.toJson), ("reference", .ofText entity.reference)]

def EntityReference.ofJson? (json : Json) : Option EntityReference := do
  match ← json.fields? ["entity_type", "reference"] with
  | [entityType, reference] =>
      return { entityType := ← entityType.bind EntityType.ofJson?
               reference := ← reference.bind Json.text? }
  | _ => none

def UserReference.toJson (user : UserReference) : Json :=
  .ofText user.reference

def UserReference.ofJson? (json : Json) : Option UserReference :=
  json.text?.map UserReference.mk

/-! ## 2. Instants -/

def Instant.toJson? (instant : Instant) : Option Json :=
  instant.sinceEpoch?.map fun parts =>
    .ofMembers [("secs_since_epoch", .ofNat parts.1), ("nanos_since_epoch", .ofNat parts.2)]

def Instant.ofJson? (json : Json) : Option Instant := do
  match ← json.closedFields? ["secs_since_epoch", "nanos_since_epoch"] with
  | [seconds, nanoseconds] =>
      let seconds ← seconds.bind Json.count?
      let nanoseconds ← nanoseconds.bind Json.uint32?
      Instant.ofSinceEpoch? seconds nanoseconds.toNat
  | _ => none

/-! ## 3. Votes -/

def Ranking.toJson? (ranking : Ranking) : Option Json := do
  let created ← ranking.created.toJson?
  let updated ← ranking.updated.toJson?
  return .ofMembers
    [("id", .ofText ranking.id),
      ("manager_id", .ofText ranking.manager),
      ("ranked_element", ranking.target.toJson),
      ("voter", ranking.voter.toJson),
      ("rank", .ofNat ranking.rank.toNat),
      ("scale", .ofNat ranking.scale.toNat),
      ("created_at", created),
      ("updated_at", updated)]

def Ranking.ofJson? (json : Json) : Option Ranking := do
  match ← json.fields?
      ["id", "manager_id", "ranked_element", "voter", "rank", "scale", "created_at",
        "updated_at"] with
  | [id, manager, target, voter, rank, scale, created, updated] =>
      return { id := ← id.bind Json.text?
               manager := ← manager.bind Json.text?
               target := ← target.bind EntityReference.ofJson?
               voter := ← voter.bind UserReference.ofJson?
               rank := ← rank.bind Json.uint32?
               scale := ← scale.bind Json.uint32?
               created := ← created.bind Instant.ofJson?
               updated := ← updated.bind Instant.ofJson? }
  | _ => none

/-! ## 4. Averages -/

namespace AverageRank

variable {ν : Type} [JsonNumber ν]

def toJson? (average : AverageRank ν) : Option Json := do
  let updated ← average.updated.toJson?
  return .ofMembers
    [("id", .ofText average.id),
      ("manager_id", .ofText average.manager),
      ("ranked_element", average.target.toJson),
      ("average", .ofNumber average.average),
      ("ranking_number", .ofNat average.number),
      ("scale", .ofNat average.scale.toNat),
      ("updated_at", updated)]

def ofJson? (json : Json) : Option (AverageRank ν) := do
  match ← json.fields?
      ["id", "manager_id", "ranked_element", "average", "ranking_number", "scale",
        "updated_at"] with
  | [id, manager, target, average, number, scale, updated] =>
      return { id := ← id.bind Json.text?
               manager := ← manager.bind Json.text?
               target := ← target.bind EntityReference.ofJson?
               average := ← average.bind Json.number?
               number := ← number.bind Json.count?
               scale := ← scale.bind Json.uint32?
               updated := ← updated.bind Instant.ofJson? }
  | _ => none

end AverageRank

end RankLedger
