import RankLedger.Proofs.History
import RankLedger.Proofs.Manager.Working

/-!
# How a request takes its lock

A request that changes something does its work under a lock: it gets the lock, waits for it, works,
gives it back, and only then tells what it did (`Manager.guard`).  Saving and rebuilding begin with
the lock, unless a vote is beyond the scale.  Removing looks for the vote first, without the lock.

Alone in the world a request has the outcome of its work (`Request.yields_of_work`), so the lookup
that a removal makes without the lock does not matter there.
-/

namespace RankLedger

variable {ν α : Type}

/-! ## 1. Programs under a lock -/

namespace Manager

variable (manager : Manager)

def leave (lock : LockId) (outcome : α × List (Notification ν)) : Program ν α :=
  .step (.release manager.locks lock) fun _ => (deliver outcome.2).bind fun _ => .done outcome.1

def enter (refuse : LockError → α) (work : Program ν (α × List (Notification ν)))
    (lock : LockId) : Program ν α :=
  .step (.acquire manager.locks lock) fun
    | .ok _ => work.bind (manager.leave lock)
    | .error error => .done (refuse error)

def guard (target : EntityReference) (refuse : LockError → α)
    (work : Program ν (α × List (Notification ν))) : Program ν α :=
  .step (.getLock manager.locks (lockKey manager.identifier target)) fun
    | .ok lock => manager.enter refuse work lock
    | .error error => .done (refuse error)

theorem bind_locked {β : Type} {target : EntityReference} {work : Change ν α}
    {f : Except RankingError α → β} :
    ((manager.locked target work).run.bind fun result => .done (f result)) =
      manager.guard target (fun error => f (.error (.lock error)))
        ((work.run.run []).bind fun outcome => .done (f outcome.1, outcome.2)) := by
  refine congrArg (Program.step _) (funext fun reply => ?_)
  cases reply with
  | error error => rfl
  | ok lock =>
      refine congrArg (Program.step _) (funext fun reply => ?_)
      cases reply with
      | error error => rfl
      | ok _ =>
          -- the work is the same; what follows it only passes its outcome on
          show Program.bind (Program.bind (Program.bind (work.run.run []) _) _) _ =
            Program.bind (Program.bind (work.run.run []) _) _
          rw [Program.bind_assoc, Program.bind_assoc, Program.bind_assoc]
          refine congrArg _ (funext fun outcome => ?_)
          refine congrArg (Program.step _) (funext fun _ => ?_)
          show Program.bind (Program.bind (Program.bind (deliver outcome.2) _) _) _ = _
          rw [Program.bind_assoc, Program.bind_assoc]
          rfl

end Manager

/-! ## 2. Requests -/

variable [Scalar ν] {manager : Manager}

namespace Request

def refusal (error : LockError) : Request → Response ν
  | save _ _ _ => .saved (.error (.lock error))
  | remove _ => .removed (.error (.lock error))
  | recompute _ => .recomputed (.error (.lock error))

def work (manager : Manager) : Request → Program ν (Response ν × List (Notification ν))
  | save target voter vote =>
      match manager.validate vote with
      | .error error => .done (.saved (.error error), [])
      | .ok rank => ((manager.saveLocked target voter rank).run.run []).bind fun outcome =>
          .done (.saved outcome.1, outcome.2)
  | remove id => ((manager.removeLocked id).run.run []).bind fun outcome =>
      .done (.removed outcome.1, outcome.2)
  | recompute target => ((manager.recomputeLocked target).run.run []).bind fun outcome =>
      .done (.recomputed outcome.1, outcome.2)

def guarded (manager : Manager) (target : EntityReference) (request : Request) :
    Program ν (Response ν) :=
  manager.guard target (fun error => request.refusal error) (request.work manager)

theorem program_save {target : EntityReference} {voter : UserReference} {vote : Int}
    {rank : UInt32} (valid : manager.validate vote = .ok rank) :
    (save target voter vote).program manager =
      ((save target voter vote).guarded manager target : Program ν _) := by
  unfold guarded
  rw [work, valid, program, Manager.save, valid]
  exact manager.bind_locked

theorem program_save_of_invalid {target : EntityReference} {voter : UserReference} {vote : Int}
    {error : RankingError} (invalid : manager.validate vote = .error error) :
    (save target voter vote).program manager = .done (.saved (.error error) : Response ν) := by
  rw [program, Manager.save, invalid]
  rfl

theorem program_recompute {target : EntityReference} :
    (recompute target).program manager =
      ((recompute target).guarded manager target : Program ν _) :=
  manager.bind_locked

def proceed (manager : Manager) (id : String) :
    Except RankingError (Option Ranking) → Program ν (Response ν)
  | .ok (some seen) => (remove id).guarded manager seen.target
  | .ok none => .done (.removed (.ok false))
  | .error error => .done (.removed (.error error))

theorem program_remove {id : String} :
    (remove id).program manager =
      ((manager.find? id).run.bind (proceed manager id) : Program ν _) := by
  rw [program, Manager.remove, Attempt.run_bind, Program.bind_assoc]
  refine congrArg _ (funext fun found => ?_)
  cases found with
  | error error => rfl
  | ok found =>
      cases found with
      | none => rfl
      | some seen => exact manager.bind_locked

theorem works_work (apart : manager.voteCore ≠ averageCore) (request : Request) :
    (request.work manager : Program ν _).Works manager.voteCore 1 := by
  cases request with
  | save target voter vote =>
      rw [work]
      split
      · exact Program.works_done _
      · exact (Manager.works_saveLocked apart []).bind (m := 0) fun _ => Program.works_done _
  | remove id =>
      rw [work]
      exact (Manager.works_removeLocked apart []).bind (m := 0) fun _ => Program.works_done _
  | recompute target =>
      rw [work]
      exact (Manager.works_recomputeLocked apart []).bind (m := 0) fun _ => Program.works_done _

end Request

/-! ## 3. A request alone -/

variable {before after : World ν} {votes : List Ranking}

theorem Manager.yields_guard {faults : Call ν → Prop} {target : EntityReference}
    {refuse : LockError → α} {work : Program ν (α × List (Notification ν))}
    {outcome : α × List (Notification ν)}
    (h : work.Yields (World.Answers faults) before outcome after) :
    (manager.guard target refuse work).Yields (World.Answers faults) before outcome.1
      (after.hear outcome.2) := by
  have told : ((deliver outcome.2).bind fun _ => .done outcome.1).Yields (World.Answers faults)
      after outcome.1 (after.hear outcome.2) :=
    Program.yields_bind.2 ⟨(), _, World.yields_deliver.2 rfl, rfl, rfl⟩
  -- alone, a program gets every lock at once
  exact ⟨.ok default, before, rfl, .ok (), before, rfl,
    Program.yields_bind.2 ⟨outcome, after, h, (), after, rfl, told⟩⟩

/-- **Alone** a request answers what its work answers, and tells what there is to tell. -/
theorem Request.yields_of_work (placed : manager.IsPlaced)
    (holds : (before.core manager.voteCore).HoldsVotes votes) {request : Request}
    {outcome : Response ν × List (Notification ν)}
    (h : (request.work manager).Yields (World.Answers World.reliable) before outcome after) :
    (request.program manager).Yields (World.Answers World.reliable) before outcome.1
      (after.hear outcome.2) := by
  cases request with
  | save target voter vote =>
      cases valid : manager.validate vote with
      | ok rank =>
          rw [program_save valid]
          exact Manager.yields_guard h
      | error error =>
          rw [work, valid] at h
          obtain ⟨rfl, rfl⟩ := h
          rw [program_save_of_invalid valid]
          exact ⟨rfl, World.hear_nil _⟩
  | recompute target =>
      rw [program_recompute]
      exact Manager.yields_guard h
  | remove id =>
      obtain ⟨found, middle, looked⟩ := Program.exists_yields
        (World.exists_answers World.reliable) (manager.find? id).run before
      rw [program_remove, Program.yields_bind]
      cases Manager.yields_find? placed.named holds looked with
      | error reason => exact absurd reason.2 World.not_unreliable_reliable
      | @ok found _ right =>
          obtain ⟨rfl, answers⟩ := right
          cases found with
          | some seen => exact ⟨_, _, looked, Manager.yields_guard h⟩
          | none =>
              -- without the vote there is nothing to do under the lock either
              rw [work] at h
              obtain ⟨removal, worked, rfl⟩ := Program.yields_map.1 h
              obtain ⟨-, trouble, -⟩ | ⟨-, rfl, rfl⟩ | ⟨old, mem, own, -⟩ :=
                Manager.yields_removeLocked placed holds worked
              · exact absurd trouble World.not_unreliable_reliable
              · exact ⟨_, _, looked, rfl, World.hear_nil _⟩
              · exact absurd own (answers old mem)

/-! ## 4. Looking for a vote without the lock -/

def Manager.Looks (manager : Manager) (id : String)
    (program : Program ν (Except RankingError (Option Ranking))) : Prop :=
  ∃ query look, program = .step (.query manager.voteCore query) look ∧
    ∀ reply, ∃ result, look reply = .done result ∧ ∀ {faults : Call ν → Prop} {world : World ν},
      World.Answers faults (.query manager.voteCore query) world reply world →
        (manager.find? id).run.Yields (World.Answers faults) world result world

omit [Scalar ν] in
/-- A program without calls has its result in every state. -/
theorem Program.Makes.settles {program : Program ν α} (h : program.Makes fun _ => False) :
    ∃ result, program = .done result ∧
      ∀ {σ : Type} {rules : Program.Rules ν σ} (state : σ),
        program.Yields rules state result state := by
  cases program with
  | done result => exact ⟨result, rfl, fun _ => ⟨rfl, rfl⟩⟩
  | step call next => exact h.1.elim

theorem Manager.find?_eq (named : manager.voteCore ≠ "") (id : String) :
    ∃ next, (manager.find? id).run = .step (.openCore manager.voteCore) next ∧
      manager.Looks id (next (.ok ()) : Program ν _) := by
  refine ⟨_, rfl, _, _, rfl, fun reply => ?_⟩
  -- what is read is turned into votes without another call
  suffices silent : Program.Makes (fun _ => False) _ by
    obtain ⟨result, same, ends⟩ := silent.settles
    exact ⟨result, same, fun answered => ⟨.ok (), _, ⟨named, rfl⟩, reply, _, answered, ends _⟩⟩
  refine makes_bindCont (makes_bindCont (makes_bindCont ?_ fun page => ?_) fun _ => ?_) fun _ => ?_
  · exact Program.Makes.bind (Program.makes_done _) fun _ => Program.makes_done _
  · exact makes_exceptBind (Attempt.makes_mapM (fun _ => Program.makes_done _) _) fun _ =>
      Program.makes_done _
  · exact Program.makes_done _
  · exact Program.makes_done _

end RankLedger
