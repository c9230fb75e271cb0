import Mathlib.Logic.Function.Basic
import Mathlib.Logic.Relation
import RankLedger.Proofs.History

/-!
# Threads

Several threads make requests of one manager, and take turns in any way: between two calls of one
thread the others may make any number of calls.  Where a program runs alone it never has to wait
for a lock; here locks are handed out by the tables of their services, and a lock that is taken has
to be waited for.

`Workshop.Step` is a single step of some thread: it asks for the next thing, has one call answered,
or takes the answer to what it asked for.
-/

namespace RankLedger

variable {ν ι : Type} [Scalar ν] [DecidableEq ι]

/-! ## 1. What threads share -/

structure Commons (ν : Type) where
  world : World ν := {}
  locks : LockService → LockTable := fun _ => {}

namespace Commons

def setLocks (commons : Commons ν) (service : LockService) (table : LockTable) : Commons ν :=
  { commons with locks := Function.update commons.locks service table }

omit [Scalar ν] in
@[simp] theorem locks_setLocks (commons : Commons ν) (service : LockService) (table : LockTable) :
    (commons.setLocks service table).locks service = table :=
  Function.update_self ..

/-- How calls are answered where no call fails and locks have to be waited for. -/
def Answers : Program.Rules ν (Commons ν)
  | .getLock service key, before, reply, after =>
      reply = .ok ((before.locks service).get key).1 ∧
        after = before.setLocks service ((before.locks service).get key).2
  | .acquire service lock, before, reply, after =>
      reply = .ok () ∧ (before.locks service).isHeld lock = false ∧
        after = before.setLocks service ((before.locks service).take lock)
  | .release service lock, before, _, after =>
      after = before.setLocks service ((before.locks service).dismiss lock)
  | call, before, reply, after =>
      World.Answers World.reliable call before.world reply after.world ∧
        after.locks = before.locks

end Commons

/-! ## 2. Threads -/

abbrev Exchange (ν : Type) := Request × Response ν

def Turn.exchange (turn : Turn ν) : Exchange ν :=
  (turn.request, turn.response)

structure Thread (ν : Type) where
  answered : List (Exchange ν) := []
  current : Option (Request × Program ν (Response ν)) := none
  waiting : List Request := []

namespace Thread

def IsFinished (thread : Thread ν) : Prop :=
  thread.current = none ∧ thread.waiting = []

inductive Step (manager : Manager) : Thread ν → Commons ν → Thread ν → Commons ν → Prop
  | ask {answered : List (Exchange ν)} {request : Request} {rest : List Request}
      {commons : Commons ν} :
      Step manager ⟨answered, none, request :: rest⟩ commons
        ⟨answered, some (request, request.program manager), rest⟩ commons
  | call {answered : List (Exchange ν)} {request : Request} {call : Call ν}
      {next : call.Reply → Program ν (Response ν)} {waiting : List Request} {reply : call.Reply}
      {before after : Commons ν} : Commons.Answers call before reply after →
      Step manager ⟨answered, some (request, .step call next), waiting⟩ before
        ⟨answered, some (request, next reply), waiting⟩ after
  | answer {answered : List (Exchange ν)} {request : Request} {response : Response ν}
      {waiting : List Request} {commons : Commons ν} :
      Step manager ⟨answered, some (request, .done response), waiting⟩ commons
        ⟨answered ++ [(request, response)], none, waiting⟩ commons

end Thread

structure Workshop (ι ν : Type) where
  threads : ι → Thread ν
  commons : Commons ν

namespace Workshop

inductive Step (manager : Manager) (before : Workshop ι ν) : Workshop ι ν → Prop
  | thread {i : ι} {thread : Thread ν} {commons : Commons ν} :
      Thread.Step manager (before.threads i) before.commons thread commons →
      Step manager before ⟨Function.update before.threads i thread, commons⟩

abbrev Run (manager : Manager) : Workshop ι ν → Workshop ι ν → Prop :=
  Relation.ReflTransGen (Step manager)

def opening (requests : ι → List Request) (commons : Commons ν) : Workshop ι ν :=
  ⟨fun i => { waiting := requests i }, commons⟩

def IsFinished (workshop : Workshop ι ν) : Prop :=
  ∀ i, (workshop.threads i).IsFinished

end Workshop

end RankLedger
