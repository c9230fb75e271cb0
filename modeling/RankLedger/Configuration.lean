/-!
# Configurations

The policy of a ranking manager, and the registry that gives one to each hint.  A hint without a
configuration of its own has the default one.
-/

namespace RankLedger

def indexStorageHint : String := "index"

structure Configuration where
  /-- The highest vote; the lowest is zero. -/
  scale : UInt32 := 5
  /-- Whether a zero is a vote, or takes the vote away. -/
  storeZero : Bool := true
  /-- Whether averages are kept beside the votes. -/
  storeAverage : Bool := true
  /-- Whether the votes have a core of their own, named like the manager. -/
  dedicatedStore : Bool := false
  /-- Which kind of manager this configuration asks for. -/
  storageHint : String := indexStorageHint
  deriving DecidableEq, Repr, Inhabited

/-- The configurations of the hints that have one, the latest registration first, and the
    configuration of all other hints. -/
structure ConfigurationRegistry where
  fallback : Configuration := {}
  entries : List (String × Configuration) := []
  deriving DecidableEq, Repr, Inhabited

namespace ConfigurationRegistry

def register (registry : ConfigurationRegistry) (hint : String) (configuration : Configuration) :
    ConfigurationRegistry :=
  { registry with entries := (hint, configuration) :: registry.entries }

def registerAll (registry : ConfigurationRegistry) (entries : List (String × Configuration)) :
    ConfigurationRegistry :=
  entries.foldl (fun r entry => r.register entry.1 entry.2) registry

def find? (registry : ConfigurationRegistry) (hint : String) : Option Configuration :=
  registry.entries.lookup hint

def contains (registry : ConfigurationRegistry) (hint : String) : Bool :=
  (registry.find? hint).isSome

def resolve (registry : ConfigurationRegistry) (hint : String) : Configuration :=
  (registry.find? hint).getD registry.fallback

@[simp] theorem find?_register_self (registry : ConfigurationRegistry) (hint : String)
    (configuration : Configuration) :
    (registry.register hint configuration).find? hint = some configuration := by
  simp [find?, register]

theorem find?_register_of_ne (registry : ConfigurationRegistry) {hint other : String}
    (configuration : Configuration) (h : other ≠ hint) :
    (registry.register hint configuration).find? other = registry.find? other := by
  simp [find?, register, List.lookup_cons, beq_eq_false_iff_ne.2 h]

end ConfigurationRegistry

end RankLedger
