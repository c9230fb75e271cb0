import RankLedger.Entity

/-!
# Lock keys

Changes to the votes on one target under one manager exclude each other.  The lock that does it
is found by a key: the identifier of the manager, the name of the entity type and the serialized
reference, joined by colons.
-/

namespace RankLedger

def lockKey (manager : String) (target : EntityReference) : String :=
  manager ++ ":" ++ target.entityType.name ++ ":" ++ target.reference

end RankLedger
