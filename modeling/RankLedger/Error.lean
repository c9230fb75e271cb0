/-!
# What can go wrong

Three families of errors, one per layer: the index that stores documents, the locks that guard
targets, and the rankings built on both.  Each error is its cause; the wording stands in one
function per family, `message`.
-/

namespace RankLedger

/-! ## 1. The index -/

inductive IndexError where
  /-- A stored document cannot be written or read back. -/
  | serialization (reason : String)
  /-- The storage below the index failed. -/
  | storage (reason : String)
  /-- Another user of the index broke off in the middle of an operation. -/
  | poisoned (operation : String)
  /-- There is no core of this name and none can be made. -/
  | unknownCore (name : String)
  deriving DecidableEq, Repr, Inhabited

def IndexError.message : IndexError → String
  | .serialization reason => "index serialization error: " ++ reason
  | .storage reason => "index storage error: " ++ reason
  | .poisoned operation => "index lock poisoned during " ++ operation
  | .unknownCore name => "unknown index core: " ++ name

/-! ## 2. Locks -/

inductive LockError where
  /-- Another user of the lock broke off while holding it. -/
  | poisoned (reason : String)
  /-- The lock of this key could not be acquired. -/
  | notAcquired (key : String)
  /-- The lock of this key could not be released. -/
  | notReleased (key : String)
  deriving DecidableEq, Repr, Inhabited

def LockError.message : LockError → String
  | .poisoned reason => "lock poisoned: " ++ reason
  | .notAcquired key => "could not lock [" ++ key ++ "]"
  | .notReleased key => "could not unlock [" ++ key ++ "]"

/-! ## 3. Rankings -/

inductive DocumentFault where
  /-- No entity type has this name. -/
  | unknownEntityType (name : String)
  /-- A field is absent or holds a value of another kind. -/
  | missing (field id : String)
  /-- A field holds a number that is negative or too large. -/
  | outOfRange (field : String) (value : Int64) (id : String)
  /-- The number of votes is negative. -/
  | negativeCount (value : Int64) (id : String)
  /-- Any other fault, in words. -/
  | other (reason : String)
  deriving DecidableEq, Repr, Inhabited

def DocumentFault.message : DocumentFault → String
  | .unknownEntityType name => "unknown entity type [" ++ name ++ "]"
  | .missing field id => "field [" ++ field ++ "] missing or of the wrong kind in [" ++ id ++ "]"
  | .outOfRange field value id =>
      "field [" ++ field ++ "] out of range [" ++ toString value.toInt ++ "] in [" ++ id ++ "]"
  | .negativeCount value id =>
      "negative vote number [" ++ toString value.toInt ++ "] in [" ++ id ++ "]"
  | .other reason => reason

inductive ConfigurationFault where
  /-- The text is not a configuration. -/
  | malformed
  /-- A dedicated store may not be called this. -/
  | reservedStoreName (name : String)
  /-- Any other fault, in words. -/
  | other (reason : String)
  deriving DecidableEq, Repr, Inhabited

def ConfigurationFault.message : ConfigurationFault → String
  | .malformed => "not a ranking configuration"
  | .reservedStoreName name =>
      "[" ++ name ++ "] cannot be used as the name of a dedicated ranking store"
  | .other reason => reason

inductive LookupFault where
  /-- Nobody builds managers for this kind of storage. -/
  | noBuilder (storageHint : String)
  /-- Any other fault, in words. -/
  | other (reason : String)
  deriving DecidableEq, Repr, Inhabited

def LookupFault.message : LookupFault → String
  | .noBuilder storageHint =>
      "no ranking manager registered for storage hint [" ++ storageHint ++ "]"
  | .other reason => reason

inductive RegistrationFault where
  /-- The storage hint is empty. -/
  | emptyHint
  /-- The storage hint has a builder already. -/
  | duplicateHint (storageHint : String)
  /-- Any other fault, in words. -/
  | other (reason : String)
  deriving DecidableEq, Repr, Inhabited

def RegistrationFault.message : RegistrationFault → String
  | .emptyHint => "empty storage hint"
  | .duplicateHint storageHint =>
      "a builder is already registered for storage hint [" ++ storageHint ++ "]"
  | .other reason => reason

inductive RankingError where
  /-- The vote is below zero or above the scale of the manager. -/
  | outOfScale (vote : Int) (scale : UInt32) (manager : String)
  /-- The index failed while doing what `context` describes. -/
  | index (context : String) (cause : IndexError)
  /-- The lock of the target could not be obtained. -/
  | lock (cause : LockError)
  /-- A stored document does not hold a record. -/
  | invalidDocument (fault : DocumentFault)
  /-- A configuration cannot be read or used. -/
  | configuration (fault : ConfigurationFault)
  /-- There is no manager for the hint. -/
  | managerLookup (hint : String) (fault : LookupFault)
  /-- A builder could not be registered. -/
  | registration (fault : RegistrationFault)
  /-- The program broke off, because the milliseconds of a date do not fit their word. -/
  | overflow
  deriving DecidableEq, Repr, Inhabited

namespace RankingError

def message : RankingError → String
  | outOfScale vote scale manager =>
      "the vote [" ++ toString vote ++ "] is out of scale [" ++ toString scale.toNat ++ "] for ["
        ++ manager ++ "] ranking manager"
  | index context cause => context ++ ": " ++ cause.message
  | lock cause => "ranking lock error: " ++ cause.message
  | invalidDocument fault => "invalid ranking document: " ++ fault.message
  | configuration fault => "ranking configuration error: " ++ fault.message
  | managerLookup hint fault =>
      "error when trying to get a ranking manager for [" ++ hint ++ "]: " ++ fault.message
  | registration fault => "ranking manager registration failed: " ++ fault.message
  | overflow => "attempt to negate with overflow"

def causeMessage? : RankingError → Option String
  | index _ cause => some cause.message
  | lock cause => some cause.message
  | _ => none

def ofIndex (cause : IndexError) : RankingError :=
  index "index operation failed" cause

end RankingError

end RankLedger
