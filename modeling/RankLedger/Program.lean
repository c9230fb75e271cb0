import RankLedger.Event
import RankLedger.Index.Query
import RankLedger.Error
import RankLedger.Lock.Table

/-!
# Programs

What a manager does is written as a *program*: a tree of single calls to the world around it, each
followed by what to do with the answer.  The index, the locks, the clock, the source of fresh
identifiers and the listeners are reached through calls only.  So a program says exactly where
others may come between and where it may be told of a failure, and whoever runs it decides how
each call is answered: at once, with planned faults, or interleaved with other programs.
-/

namespace RankLedger

/-! ## 1. Calls -/

/-- The service that hands out the locks of a manager.  Managers that share a service exclude each
    other, managers that do not share one do not. -/
structure LockService where
  number : Nat
  deriving DecidableEq, Repr, Inhabited

inductive Call (ν : Type) where
  /-- Make sure that a core exists. -/
  | openCore (core : String)
  /-- Let a document wait for the next commit of a core. -/
  | add (core : String) (document : Document ν)
  /-- Let a deletion wait for the next commit of a core. -/
  | delete (core id : String)
  /-- Make the waiting writes of a core visible. -/
  | commit (core : String)
  /-- Read a page of a core. -/
  | query (core : String) (query : IndexQuery ν)
  /-- Get a reference to the lock of a key. -/
  | getLock (service : LockService) (key : String)
  /-- Wait until the lock is free and take it with a guard. -/
  | acquire (service : LockService) (lock : LockId)
  /-- Give the guard up. -/
  | release (service : LockService) (lock : LockId)
  /-- Look at the clock. -/
  | now
  /-- Make an identifier that was never used. -/
  | freshId
  /-- Tell the listeners. -/
  | notify (notification : Notification ν)

abbrev Call.Reply {ν : Type} : Call ν → Type
  | openCore _ | add _ _ | delete _ _ | commit _ => Except IndexError Unit
  | query _ _ => Except IndexError (IndexPage ν)
  | getLock _ _ => Except LockError LockId
  | acquire _ _ => Except LockError Unit
  | release _ _ => Unit
  | now => Instant
  | freshId => String
  | notify _ => Unit

/-! ## 2. Programs -/

inductive Program (ν : Type) (α : Type) where
  | done (result : α)
  | step (call : Call ν) (next : call.Reply → Program ν α)

namespace Program

variable {ν α β : Type}

def bind : Program ν α → (α → Program ν β) → Program ν β
  | done result, f => f result
  | step call next, f => step call fun reply => (next reply).bind f

instance : Monad (Program ν) where
  pure := done
  bind := bind

def request (call : Call ν) : Program ν call.Reply :=
  step call done

abbrev Handler (ν σ : Type) := (call : Call ν) → σ → call.Reply × σ

def run {σ : Type} (handler : Handler ν σ) : Program ν α → σ → α × σ
  | done result, world => (result, world)
  | step call next, world =>
      (next (handler call world).1).run handler (handler call world).2

@[simp] theorem done_bind (result : α) (f : α → Program ν β) : (done result).bind f = f result :=
  rfl

@[simp] theorem step_bind (call : Call ν) (next : call.Reply → Program ν α)
    (f : α → Program ν β) :
    (step call next).bind f = step call fun reply => (next reply).bind f := rfl

theorem bind_done (program : Program ν α) : program.bind done = program := by
  induction program with
  | done result => rfl
  | step call next ih => simp [ih]

theorem bind_assoc {γ : Type} (program : Program ν α) (f : α → Program ν β)
    (g : β → Program ν γ) : (program.bind f).bind g = program.bind fun a => (f a).bind g := by
  induction program with
  | done result => rfl
  | step call next ih => simp [ih]

instance : LawfulMonad (Program ν) :=
  LawfulMonad.mk' (Program ν) bind_done (fun _ _ => rfl) bind_assoc

/-- Running one program after another runs the second in the world the first one left. -/
theorem run_bind {σ : Type} (handler : Handler ν σ) (program : Program ν α)
    (f : α → Program ν β) (world : σ) :
    (program.bind f).run handler world =
      (f (program.run handler world).1).run handler (program.run handler world).2 := by
  induction program generalizing world with
  | done result => rfl
  | step call next ih => simp [run, ih]

end Program

end RankLedger
