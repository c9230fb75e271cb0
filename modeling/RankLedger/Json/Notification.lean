import RankLedger.Event
import RankLedger.Json.Record

/-!
# Notifications in JSON

The written forms of events, of the records they are about, and of notifications.  The kind of an
event is a member of the event itself, `"type"`; the kind of a record is the only key of an object
around it.

**Reading events.** Because the kind may stand anywhere among the members of an event, the others
are read before it is known whether they mean anything.  So unlike elsewhere even members that
will be skipped have to be plain: texts, numbers that can be read, and limited nesting.
-/

namespace RankLedger

def maxOpen : Nat := 127

namespace RankingEvent

variable {ν : Type} [JsonNumber ν]

def toJson : RankingEvent ν → Json
  | created => .ofMembers [("type", .ofText "Created")]
  | updated oldRank =>
      .ofMembers [("type", .ofText "Updated"), ("old_rank", .ofNat oldRank.toNat)]
  | deleted => .ofMembers [("type", .ofText "Deleted")]
  | averageUpdated oldAverage oldCount =>
      .ofMembers
        [("type", .ofText "AverageUpdated"), ("old_average", .ofNumber oldAverage),
          ("old_count", .ofNat oldCount)]

def ofContent? (kind : String) (content : Json) : Option (RankingEvent ν) :=
  match kind with
  | "Created" => (content.fields? []).map fun _ => created
  | "Deleted" => (content.fields? []).map fun _ => deleted
  | "Updated" => do
      match ← content.fields? ["old_rank"] with
      | [oldRank] => return updated (← oldRank.bind Json.uint32?)
      | _ => none
  | "AverageUpdated" => do
      match ← content.fields? ["old_average", "old_count"] with
      | [oldAverage, oldCount] =>
          return averageUpdated (← oldAverage.bind Json.number?) (← oldCount.bind Json.count?)
      | _ => none
  | _ => none

def ofJson? (outside : Nat) (json : Json) : Option (RankingEvent ν) := do
  guard (json.isPlain ν (maxOpen - outside))
  match json with
  | .object members =>
      let members ← Json.textMembers? members
      let kind ← (← Json.field? members "type").bind Json.text?
      ofContent? kind (.ofMembers (members.filter fun member => member.1 != "type"))
  | .array (kind :: items) => ofContent? (← kind.text?) (.array items)
  | _ => none

end RankingEvent

namespace EventData

variable {ν : Type} [JsonNumber ν]

def toJson? : EventData ν → Option Json
  | ranking record => record.toJson?.map fun json => .ofMembers [("Ranking", json)]
  | average record => record.toJson?.map fun json => .ofMembers [("AverageRank", json)]

def ofJson? : Json → Option (EventData ν)
  | .object [(some "Ranking", json)] => (Ranking.ofJson? json).map ranking
  | .object [(some "AverageRank", json)] => (AverageRank.ofJson? json).map average
  | _ => none

end EventData

namespace Notification

variable {ν : Type} [JsonNumber ν]

def toJson? (notification : Notification ν) : Option Json := do
  let data ← notification.data.toJson?
  return .ofMembers
    [("event", notification.event.toJson), ("source", .ofText notification.source),
      ("data", data)]

def ofJson? (json : Json) : Option (Notification ν) := do
  match ← json.fields? ["event", "source", "data"] with
  | [event, source, data] =>
      return { event := ← event.bind (RankingEvent.ofJson? 1)
               source := ← source.bind Json.text?
               data := ← data.bind EventData.ofJson? }
  | _ => none

end Notification

end RankLedger
