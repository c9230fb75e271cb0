import RankLedger.Configuration
import RankLedger.Error
import RankLedger.Json.Read

/-!
# Configurations in JSON

A configuration is read from a record in which every field may be missing: a missing field has its
default.  A registry is read from an object of configurations, one per hint; of two equal hints
the last one counts.
-/

namespace RankLedger

namespace Configuration

def fieldNames : List String :=
  ["scale", "store_zero", "store_average", "has_dedicated_store", "storage_hint"]

def toJson (configuration : Configuration) : Json :=
  .ofMembers
    [("scale", .ofNat configuration.scale.toNat),
      ("store_zero", .bool configuration.storeZero),
      ("store_average", .bool configuration.storeAverage),
      ("has_dedicated_store", .bool configuration.dedicatedStore),
      ("storage_hint", .ofText configuration.storageHint)]

def ofJson? (json : Json) : Option Configuration := do
  let defaults : Configuration := {}
  match ← json.fields? fieldNames with
  | [scale, storeZero, storeAverage, dedicatedStore, storageHint] =>
      return {
        scale := ← Json.orDefault scale Json.uint32? defaults.scale
        storeZero := ← Json.orDefault storeZero Json.bool? defaults.storeZero
        storeAverage := ← Json.orDefault storeAverage Json.bool? defaults.storeAverage
        dedicatedStore := ← Json.orDefault dedicatedStore Json.bool? defaults.dedicatedStore
        storageHint := ← Json.orDefault storageHint Json.text? defaults.storageHint }
  | _ => none

def ofText (text : String) : Except RankingError Configuration :=
  match (Json.parse? text).bind ofJson? with
  | some configuration => .ok configuration
  | none => .error (.configuration .malformed)

end Configuration

namespace ConfigurationRegistry

def entriesOfJson? : Json → Option (List (String × Configuration))
  | .object members => do
      let members ← Json.textMembers? members
      members.mapM fun member =>
        (Configuration.ofJson? member.2).map fun configuration => (member.1, configuration)
  | _ => none

def ofText (text : String) : Except RankingError ConfigurationRegistry :=
  match (Json.parse? text).bind entriesOfJson? with
  | some entries => .ok (({} : ConfigurationRegistry).registerAll entries)
  | none => .error (.configuration .malformed)

end ConfigurationRegistry

end RankLedger
