import RankLedger.Configuration
import RankLedger.Error

/-!
# Manager factories

A factory finds the manager of a hint.  The first request for a hint builds one: the configuration
of the hint names a storage hint, and whoever is registered as the builder for that storage hint
builds the manager.  Every later request gives the same instance.  A build that fails leaves no
trace in the factory, and the next request tries again.

What a builder is and how it builds is a parameter: `build` may read and change a world of its
own, and may answer differently each time.
-/

namespace RankLedger

structure Factory (β μ : Type) where
  registry : ConfigurationRegistry := {}
  /-- The builders, each under its storage hint. -/
  builders : List (String × β) := []
  /-- The instances, each under the hint it was built for. -/
  instances : List (String × μ) := []
  deriving Repr, Inhabited

namespace Factory

variable {β μ σ : Type}

/-- Registers who builds the managers of a storage hint.  The hint must not be empty and must not
    have a builder. -/
def registerBuilder (factory : Factory β μ) (storageHint : String) (builder : β) :
    Except RankingError (Factory β μ) :=
  if storageHint = "" then .error (.registration .emptyHint)
  else
    match factory.builders.lookup storageHint with
    | some _ => .error (.registration (.duplicateHint storageHint))
    | none => .ok { factory with builders := factory.builders ++ [(storageHint, builder)] }

abbrev Build (β μ σ : Type) := β → String → Configuration → σ → Except RankingError μ × σ

def build (run : Build β μ σ) (factory : Factory β μ) (hint : String) (world : σ) :
    Except RankingError μ × σ :=
  let configuration := factory.registry.resolve hint
  match factory.builders.lookup configuration.storageHint with
  | none => (.error (.managerLookup hint (.noBuilder configuration.storageHint)), world)
  | some builder => run builder hint configuration world

def getInstance (run : Build β μ σ) (factory : Factory β μ) (hint : String) (world : σ) :
    Except RankingError μ × Factory β μ × σ :=
  match factory.instances.lookup hint with
  | some manager => (.ok manager, factory, world)
  | none =>
      match factory.build run hint world with
      | (.error error, world) => (.error error, factory, world)
      | (.ok manager, world) =>
          (.ok manager, { factory with instances := factory.instances ++ [(hint, manager)] }, world)

def cachedHints (factory : Factory β μ) : List String :=
  (factory.instances.map (·.1)).mergeSort fun a b => decide (a ≤ b)

/-! ## What a request leaves behind -/

/-- Without a builder nobody is asked. -/
theorem build_of_lookup_eq_none (run : Build β μ σ) {factory : Factory β μ} {hint : String}
    (world : σ)
    (h : factory.builders.lookup (factory.registry.resolve hint).storageHint = none) :
    factory.build run hint world = (.error (.managerLookup hint
      (.noBuilder (factory.registry.resolve hint).storageHint)), world) := by
  simp only [build, h]

/-- The builder of the storage hint is asked. -/
theorem build_of_lookup (run : Build β μ σ) {factory : Factory β μ} {hint : String} {builder : β}
    (world : σ)
    (h : factory.builders.lookup (factory.registry.resolve hint).storageHint = some builder) :
    factory.build run hint world = run builder hint (factory.registry.resolve hint) world := by
  simp only [build, h]

/-- A hint that has an instance keeps it, and no builder is asked. -/
theorem getInstance_of_lookup (run : Build β μ σ) {factory : Factory β μ} {hint : String}
    {manager : μ} (world : σ) (h : factory.instances.lookup hint = some manager) :
    factory.getInstance run hint world = (.ok manager, factory, world) := by
  unfold getInstance
  rw [h]

/-- A build that fails leaves the factory as it was. -/
theorem getInstance_of_build_error (run : Build β μ σ) {factory : Factory β μ} {hint : String}
    {error : RankingError} {world left : σ} (absent : factory.instances.lookup hint = none)
    (failed : factory.build run hint world = (.error error, left)) :
    factory.getInstance run hint world = (.error error, factory, left) := by
  unfold getInstance
  rw [absent, failed]

/-- A manager that is built is the instance of its hint from then on. -/
theorem getInstance_of_build_ok (run : Build β μ σ) {factory : Factory β μ} {hint : String}
    {manager : μ} {world left : σ} (absent : factory.instances.lookup hint = none)
    (built : factory.build run hint world = (.ok manager, left)) :
    factory.getInstance run hint world =
      (.ok manager, { factory with instances := factory.instances ++ [(hint, manager)] }, left) := by
  unfold getInstance
  rw [absent, built]

end Factory

end RankLedger
