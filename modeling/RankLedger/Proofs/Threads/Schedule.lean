import Mathlib.Data.Fintype.Defs
import RankLedger.Proofs.Threads.Course

/-!
# Schedules

A schedule says whose turn it is, step by step.  Where nothing fails and the clock stands still, a
schedule leads to one run only, and that run can be computed (`Workshop.follow`).  A thread that has
nothing to do, or waits for a lock that is taken, lets its turn pass.
-/

namespace RankLedger

variable {ν ι : Type} [Scalar ν] [DecidableEq ι]

/-! ## 1. Answers -/

namespace World

def reply : Program.Handler ν (World ν)
  | .openCore core, world =>
      (if core = "" then .error (.unknownCore core) else .ok (), world)
  | .add core document, world => (.ok (), world.push core (.add document))
  | .delete core id, world => (.ok (), world.push core (.delete id))
  | .commit core, world => (.ok (), world.commit core)
  | .query core query, world => ((world.core core).query query, world)
  | .getLock _ _, world => (.ok default, world)
  | .acquire _ _, world => (.ok (), world)
  | .release _ _, world => ((), world)
  | .now, world => (default, { world with shown := world.shown ++ [default] })
  | .freshId, world =>
      let id := ((({} : IdSource).keepClear world.given).nth 0)
      (id, { world with given := world.given ++ [id] })
  | .notify notification, world => ((), world.hear [notification])

theorem answers_reply (call : Call ν) (world : World ν) :
    Answers reliable call world (reply call world).1 (reply call world).2 := by
  cases call with
  | openCore core =>
      dsimp only [reply]
      split
      · exact ⟨.inl ‹_›, rfl⟩
      · exact ⟨‹_›, rfl⟩
  | query core query =>
      dsimp only [reply]
      cases h : (world.core core).query query with
      | ok page => exact ⟨h, rfl⟩
      | error error => exact ⟨.inl h, rfl⟩
  | freshId => exact ⟨IdSource.nth_keepClear_notMem {} world.given 0, rfl⟩
  | now => exact ⟨(by decide : Instant.epoch.IsDate), rfl⟩
  | add | delete | commit | getLock | acquire | release | notify => rfl

end World

omit [Scalar ν] in
/-- A program that is run has the outcome of the run. -/
theorem Program.yields_run {α σ : Type} {rules : Program.Rules ν σ} {handler : Program.Handler ν σ}
    (sound : ∀ call state, rules call state (handler call state).1 (handler call state).2)
    (program : Program ν α) (state : σ) :
    program.Yields rules state (program.run handler state).1 (program.run handler state).2 := by
  induction program generalizing state with
  | done result => exact ⟨rfl, rfl⟩
  | step call next ih => exact ⟨_, _, sound call state, ih _ _⟩

namespace Commons

def reply? : (call : Call ν) → Commons ν → Option (call.Reply × Commons ν)
  | .getLock service key, commons =>
      let (lock, table) := (commons.locks service).get key
      some (.ok lock, commons.setLocks service table)
  | .acquire service lock, commons =>
      if (commons.locks service).isHeld lock then none
      else some (.ok (), commons.setLocks service ((commons.locks service).take lock))
  | .release service lock, commons =>
      some ((), commons.setLocks service ((commons.locks service).dismiss lock))
  | call, commons =>
      let (reply, world) := World.reply call commons.world
      some (reply, { commons with world })

theorem answers_of_reply? {call : Call ν} {before after : Commons ν} {reply : call.Reply}
    (h : reply? call before = some (reply, after)) : Answers call before reply after := by
  have sound := World.answers_reply call before.world
  cases call with
  | getLock service key =>
      cases h
      exact ⟨rfl, rfl⟩
  | acquire service lock =>
      rw [reply?] at h
      split at h
      · cases h
      · cases h
        exact ⟨rfl, Bool.eq_false_iff.2 ‹_›, rfl⟩
  | release service lock =>
      cases h
      exact rfl
  | openCore | add | delete | commit | query | now | freshId | notify =>
      cases h
      exact ⟨sound, rfl⟩

end Commons

/-! ## 2. Turns -/

def Thread.advance? (manager : Manager) : Thread ν → Commons ν → Option (Thread ν × Commons ν)
  | ⟨_, none, []⟩, _ => none
  | ⟨answered, none, request :: rest⟩, commons =>
      some (⟨answered, some (request, request.program manager), rest⟩, commons)
  | ⟨answered, some (request, .done response), waiting⟩, commons =>
      some (⟨answered ++ [(request, response)], none, waiting⟩, commons)
  | ⟨answered, some (request, .step call next), waiting⟩, commons =>
      (commons.reply? call).map fun (reply, after) =>
        (⟨answered, some (request, next reply), waiting⟩, after)

omit [Scalar ν] in
theorem Thread.isFinished_iff {thread : Thread ν} :
    thread.IsFinished ↔ thread.current.isNone = true ∧ thread.waiting = [] := by
  rw [Thread.IsFinished, Option.isNone_iff_eq_none]

instance (thread : Thread ν) : Decidable thread.IsFinished :=
  decidable_of_iff' _ Thread.isFinished_iff

namespace Workshop

instance [Fintype ι] (workshop : Workshop ι ν) : Decidable workshop.IsFinished :=
  inferInstanceAs (Decidable (∀ i, (workshop.threads i).IsFinished))

variable {manager : Manager}

def advance (manager : Manager) (workshop : Workshop ι ν) (i : ι) : Workshop ι ν :=
  match (workshop.threads i).advance? manager workshop.commons with
  | some (thread, commons) => ⟨Function.update workshop.threads i thread, commons⟩
  | none => workshop

def follow (manager : Manager) (workshop : Workshop ι ν) (schedule : List ι) : Workshop ι ν :=
  schedule.foldl (advance manager) workshop

omit [DecidableEq ι] in
theorem step_of_advance? {thread next : Thread ν} {before after : Commons ν}
    (h : thread.advance? manager before = some (next, after)) :
    Thread.Step manager thread before next after := by
  obtain ⟨answered, _ | ⟨request, _ | ⟨call, rest⟩⟩, waiting⟩ := thread
  · cases waiting with
    | nil => cases h
    | cons request rest =>
        cases h
        exact .ask
  · cases h
    exact .answer
  · obtain ⟨⟨reply, later⟩, answered, same⟩ := Option.map_eq_some_iff.1 h
    cases same
    exact .call (Commons.answers_of_reply? answered)

/-- **Schedules** lead to runs. -/
theorem run_follow (workshop : Workshop ι ν) (schedule : List ι) :
    Run manager workshop (workshop.follow manager schedule) := by
  induction schedule generalizing workshop with
  | nil => exact .refl
  | cons i rest ih =>
      refine Relation.ReflTransGen.trans ?_ (ih (workshop.advance manager i))
      unfold advance
      split
      · exact .single (.thread (step_of_advance? ‹_›))
      · exact .refl

def note (manager : Manager) (recorded : Journal ι ν × Workshop ι ν) (i : ι) :
    Journal ι ν × Workshop ι ν :=
  match (recorded.2.threads i).advance? manager recorded.2.commons with
  | some (thread, commons) =>
      (recorded.1 ++ [(i, (recorded.2.threads i).act recorded.2.commons.world)],
        ⟨Function.update recorded.2.threads i thread, commons⟩)
  | none => recorded

def record (manager : Manager) (workshop : Workshop ι ν) (schedule : List ι) :
    Journal ι ν × Workshop ι ν :=
  schedule.foldl (note manager) ([], workshop)

/-- **Schedules** that are noted lead to courses. -/
theorem course_record (workshop : Workshop ι ν) (schedule : List ι) :
    Course manager workshop (workshop.record manager schedule).1
      (workshop.record manager schedule).2 := by
  suffices goesOn : ∀ recorded : Journal ι ν × Workshop ι ν,
      Course manager workshop recorded.1 recorded.2 →
        Course manager workshop (schedule.foldl (note manager) recorded).1
          (schedule.foldl (note manager) recorded).2 from
    goesOn _ .opening
  induction schedule with
  | nil => exact fun _ course => course
  | cons i rest ih =>
      refine fun recorded course => ih _ ?_
      unfold note
      split
      · exact course.step (step_of_advance? ‹_›)
      · exact course

end Workshop

end RankLedger
