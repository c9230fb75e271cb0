import RankLedger.Factory

/-!
# Sessions with a factory

Whoever uses a factory registers builders, asks for the manager of a hint, and asks which hints have
one, in any order.  A session notes for each call what was answered, which builders were asked
meanwhile, and the factory before and after.

Nothing is assumed of the builders: each may succeed and fail as it likes, at each call anew.
-/

namespace RankLedger

/-! ## 1. Calls -/

inductive FactoryCall (β : Type) where
  | registerBuilder (storageHint : String) (builder : β)
  | getInstance (hint : String)
  | cachedHints
  deriving DecidableEq, Repr

inductive FactoryReply (μ : Type) where
  | registered (result : Except RankingError Unit)
  | manager (result : Except RankingError μ)
  | hints (hints : List String)
  deriving Repr

structure Building (β μ : Type) where
  builder : β
  hint : String
  configuration : Configuration
  result : Except RankingError μ
  deriving Repr

/-- A call to a factory, what was answered, which builders were asked meanwhile, and the factory
    before and after. -/
structure FactoryEvent (β μ : Type) where
  call : FactoryCall β
  reply : FactoryReply μ
  buildings : List (Building β μ) := []
  before : Factory β μ
  after : Factory β μ
  deriving Repr

/-! ## 2. Serving calls -/

namespace Factory

variable {β μ σ : Type}

def Build.noted (run : Build β μ σ) : Build β μ (σ × List (Building β μ))
  | builder, hint, configuration, (world, buildings) =>
      let (result, world) := run builder hint configuration world
      (result, world, buildings ++ [{ builder, hint, configuration, result }])

def answer (run : Build β μ σ) (factory : Factory β μ) (world : σ) :
    FactoryCall β → FactoryEvent β μ × σ
  | .registerBuilder storageHint builder =>
      match factory.registerBuilder storageHint builder with
      | .ok after =>
          ({ call := .registerBuilder storageHint builder, reply := .registered (.ok ()),
             before := factory, after }, world)
      | .error error =>
          ({ call := .registerBuilder storageHint builder, reply := .registered (.error error),
             before := factory, after := factory }, world)
  | .getInstance hint =>
      let (result, after, world, buildings) := factory.getInstance run.noted hint (world, [])
      ({ call := .getInstance hint, reply := .manager result, buildings, before := factory, after },
        world)
  | .cachedHints =>
      ({ call := .cachedHints, reply := .hints factory.cachedHints, before := factory,
         after := factory }, world)

def serve (run : Build β μ σ) (factory : Factory β μ) (world : σ) :
    List (FactoryCall β) → List (FactoryEvent β μ)
  | [] => []
  | call :: rest =>
      let (event, world) := factory.answer run world call
      event :: event.after.serve run world rest

theorem serve_cons (run : Build β μ σ) (factory : Factory β μ) (world : σ) (call : FactoryCall β)
    (rest : List (FactoryCall β)) : factory.serve run world (call :: rest) =
      (factory.answer run world call).1 ::
        (factory.answer run world call).1.after.serve run (factory.answer run world call).2 rest :=
  rfl

/-! ## 3. Noting changes nothing

What is answered, and what becomes of the factory and of the world, is the same whether the
builders are noted or not. -/

theorem build_noted (run : Build β μ σ) (factory : Factory β μ) (hint : String) (world : σ)
    (buildings : List (Building β μ)) :
    ((factory.build run.noted hint (world, buildings)).1,
      (factory.build run.noted hint (world, buildings)).2.1) = factory.build run hint world := by
  unfold build
  dsimp only
  split <;> rfl

theorem getInstance_noted (run : Build β μ σ) (factory : Factory β μ) (hint : String) (world : σ)
    (buildings : List (Building β μ)) :
    ((factory.getInstance run.noted hint (world, buildings)).1,
      (factory.getInstance run.noted hint (world, buildings)).2.1,
      (factory.getInstance run.noted hint (world, buildings)).2.2.1) =
    factory.getInstance run hint world := by
  have same := build_noted run factory hint world buildings
  unfold getInstance
  split
  · rfl
  · rw [← same]
    obtain ⟨result | manager, world, buildings⟩ :=
      factory.build run.noted hint (world, buildings) <;> rfl

end Factory

end RankLedger
