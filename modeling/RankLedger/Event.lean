import RankLedger.Average
import RankLedger.Ranking

/-!
# Events

What a manager tells its listeners: what happened to a record, which manager says so, and the
record itself.  Events about a change carry the values from before it, so that a listener can
follow the store without reading it.
-/

namespace RankLedger

inductive RankingEvent (ν : Type) where
  /-- A voter's first vote on a target was stored. -/
  | created
  /-- A vote was changed from this rank. -/
  | updated (oldRank : UInt32)
  /-- A vote was removed. -/
  | deleted
  /-- An average changed from this value over this many votes. -/
  | averageUpdated (oldAverage : ν) (oldCount : Nat)
  deriving Repr, Inhabited

namespace RankingEvent

variable {ν : Type}

def channel : RankingEvent ν → String
  | created => "ranking:created"
  | updated _ => "ranking:updated"
  | deleted => "ranking:deleted"
  | averageUpdated _ _ => "average:updated"

def same [Scalar ν] : RankingEvent ν → RankingEvent ν → Bool
  | created, created => true
  | updated a, updated b => a == b
  | deleted, deleted => true
  | averageUpdated a m, averageUpdated b n => Scalar.same a b && m == n
  | _, _ => false

end RankingEvent

inductive EventData (ν : Type) where
  | ranking (record : Ranking)
  | average (record : AverageRank ν)
  deriving Repr

def EventData.same {ν : Type} [Scalar ν] : EventData ν → EventData ν → Bool
  | ranking a, ranking b => a == b
  | average a, average b => a.same b
  | _, _ => false

structure Notification (ν : Type) where
  event : RankingEvent ν
  /-- The manager that announces the event. -/
  source : String
  data : EventData ν
  deriving Repr

def Notification.same {ν : Type} [Scalar ν] (a b : Notification ν) : Bool :=
  a.event.same b.event && a.source == b.source && a.data.same b.data

end RankLedger
