import RankLedger.Proofs.Threads.Course
import RankLedger.Proofs.Threads.Lookup

/-!
# What a thread does

To the other threads it matters only where a thread stands to the lock (`Stage`): it has nothing to
do with it, it waits for it, it works under it, or it has given it back and is left to answer.
`Thread.IsAt` ties the program of a thread to its stage, and `Deed` lists what a single step of a
thread is to the others.  Every step is one of these deeds (`Thread.IsAt.deed`).
-/

namespace RankLedger

variable {ν : Type} [Scalar ν]

/-! ## 1. Stages -/

inductive Stage (ν : Type) where
  /-- It does not refer to the lock. -/
  | out
  /-- It waits for the lock. -/
  | queued
  /-- It works under the lock on a request, and this is what is left of its work. -/
  | inside (request : Request) (rest : Program ν (Response ν × List (Notification ν)))
  /-- What it will answer is decided, and this is what it has yet to tell. -/
  | told (exchange : Exchange ν) (news : List (Notification ν))

namespace Stage

def IsUser : Stage ν → Prop
  | queued | inside _ _ => True
  | out | told _ _ => False

def decided : Stage ν → List (Exchange ν)
  | told exchange _ => [exchange]
  | out | queued | inside _ _ => []

def owed : Stage ν → List (Notification ν)
  | told _ news => news
  | out | queued | inside _ _ => []

end Stage

/-- The request is to save or rebuild on this target, or to remove a vote that is known to be on
    it. -/
def Request.IsAbout (target : EntityReference) (ids : String → Prop) : Request → Prop
  | save onTarget _ _ | recompute onTarget => onTarget = target
  | remove id => ids id

inductive Thread.IsAt (manager : Manager) (target : EntityReference) (ids : String → Prop)
    (lock : LockId) : Thread ν → Stage ν → Prop
  | idle {answered : List (Exchange ν)} {waiting : List Request} :
      IsAt manager target ids lock ⟨answered, none, waiting⟩ .out
  /-- It will look for the vote that is to be removed. -/
  | opening {answered : List (Exchange ν)} {id : String} {waiting : List Request} : ids id →
      IsAt manager target ids lock
        ⟨answered, some (.remove id, (Request.remove id).program manager), waiting⟩ .out
  /-- It is about to look for it. -/
  | looking {answered : List (Exchange ν)} {id : String} {waiting : List Request}
      {looks : Program ν (Except RankingError (Option Ranking))} : ids id →
      manager.Looks id looks →
      IsAt manager target ids lock
        ⟨answered, some (.remove id, looks.bind (Request.proceed manager id)), waiting⟩ .out
  /-- It is about to get the lock. -/
  | ready {answered : List (Exchange ν)} {request : Request} {waiting : List Request} :
      IsAt manager target ids lock
        ⟨answered, some (request, request.guarded manager target), waiting⟩ .out
  | queued {answered : List (Exchange ν)} {request : Request} {waiting : List Request} :
      IsAt manager target ids lock
        ⟨answered, some (request, manager.enter (fun error => request.refusal error)
          (request.work manager) lock), waiting⟩ .queued
  | inside {answered : List (Exchange ν)} {request : Request}
      {rest : Program ν (Response ν × List (Notification ν))} {waiting : List Request} :
      rest.Works manager.voteCore 1 →
      IsAt manager target ids lock
        ⟨answered, some (request, rest.bind (manager.leave lock)), waiting⟩ (.inside request rest)
  /-- It tells what it did, and answers. -/
  | told {answered : List (Exchange ν)} {request : Request} {response : Response ν}
      {news : List (Notification ν)} {waiting : List Request} :
      IsAt manager target ids lock
        ⟨answered, some (request, (Manager.deliver news).bind fun _ => .done response), waiting⟩
        (.told (request, response) news)

/-! ## 2. Deeds -/

inductive Exchange.IsBarren (manager : Manager) (ids : String → Prop) (world : World ν) :
    Exchange ν → Prop
  | refused {request : Request} {response : Response ν} :
      request.program manager = .done response → IsBarren manager ids world (request, response)
  | missed {id : String} : ids id → (world.core manager.voteCore).Lacks manager id →
      IsBarren manager ids world (.remove id, .removed (.ok false))

/-- Wherever others end their work, a barren exchange can come right after it. -/
theorem Exchange.IsBarren.yields {manager : Manager} {ids : String → Prop}
    {target : EntityReference} {tenants : Tenants} {α : Type} {rest : Program ν α} {outcome : α}
    {world after later : World ν} {exchange : Exchange ν}
    (barren : Exchange.IsBarren manager ids world exchange)
    (ends : world.EndsQuietly tenants manager ids target rest)
    (member : manager ∈ tenants.members)
    (h : rest.Yields (World.Answers World.reliable) world outcome after)
    (alike : later.Alike after) :
    (exchange.1.program manager).Yields (World.Answers World.reliable) later exchange.2 later := by
  cases barren with
  | refused done =>
      rw [done]
      exact ⟨rfl, rfl⟩
  | missed known lacks =>
      obtain ⟨quiet, gone⟩ := ends.ends outcome after h
      obtain ⟨votes, holds, -⟩ := quiet.places member
      rw [← alike.core] at holds gone
      exact Request.yields_remove_of_lacks (Tenants.isPlaced member).named holds
        (gone _ known lacks)

/-- What a step of a thread may be: how its stage and what it shares with others change, the lock
    that is referred to afterwards, what is decided by it, and what others may notice of it. -/
inductive Deed (manager : Manager) (key : String) (ids : String → Prop) (lock : LockId) :
    Stage ν → Commons ν → Stage ν → Commons ν → LockId → List (Exchange ν) → Act ν → Prop
  | silent {commons : Commons ν} :
      Deed manager key ids lock .out commons .out commons lock [] .silent
  | decides {exchange : Exchange ν} {commons : Commons ν} :
      exchange.IsBarren manager ids commons.world →
      Deed manager key ids lock .out commons (.told exchange []) commons lock [exchange] .silent
  | gets {commons : Commons ν} :
      Deed manager key ids lock .out commons .queued
        (commons.setLocks manager.locks ((commons.locks manager.locks).get key).2)
        ((commons.locks manager.locks).get key).1 [] .silent
  | enters {request : Request} {commons : Commons ν} :
      (commons.locks manager.locks).isHeld lock = false →
      Deed manager key ids lock .queued commons (.inside request (request.work manager))
        (commons.setLocks manager.locks ((commons.locks manager.locks).take lock)) lock [] .silent
  | works {request : Request} {call : Call ν}
      {next : call.Reply → Program ν (Response ν × List (Notification ν))} {reply : call.Reply}
      {before after : Commons ν} : (Program.step call next).Works manager.voteCore 1 →
      World.Answers World.reliable call before.world reply after.world →
      after.locks = before.locks →
      Deed manager key ids lock (.inside request (.step call next)) before
        (.inside request (next reply)) after lock [] (call.act before.world)
  | leaves {request : Request} {response : Response ν} {news : List (Notification ν)}
      {commons : Commons ν} :
      Deed manager key ids lock (.inside request (.done (response, news))) commons
        (.told (request, response) news)
        (commons.setLocks manager.locks ((commons.locks manager.locks).dismiss lock)) lock
        [(request, response)] .silent
  | tells {exchange : Exchange ν} {notification : Notification ν} {news : List (Notification ν)}
      {commons : Commons ν} :
      Deed manager key ids lock (.told exchange (notification :: news)) commons
        (.told exchange news) { commons with world := commons.world.hear [notification] } lock []
        (.tells notification)
  | answers {exchange : Exchange ν} {commons : Commons ν} :
      Deed manager key ids lock (.told exchange []) commons .out commons lock [] .silent

/-! ## 3. Steps are deeds -/

namespace Commons

variable {call : Call ν} {reply : call.Reply} {before after : Commons ν}

/-- Work is answered by the world, and leaves the locks alone. -/
theorem answers_of_isWork (work : call.IsWork) :
    Commons.Answers call before reply after ↔
      World.Answers World.reliable call before.world reply after.world ∧
        after.locks = before.locks := by
  cases call with
  | getLock | acquire | release | notify => exact work.elim
  | openCore | add | delete | commit | query | now | freshId => exact Iff.rfl

omit [Scalar ν] in
theorem eq_of {a b : Commons ν} (world : a.world = b.world) (locks : a.locks = b.locks) :
    a = b := by
  cases a
  cases b
  cases world
  cases locks
  rfl

end Commons

namespace Thread.Step

variable {manager : Manager} {answered : List (Exchange ν)} {request : Request}
  {waiting : List Request} {before after : Commons ν} {thread : Thread ν}

theorem of_idle (h : Step manager ⟨answered, none, waiting⟩ before thread after) :
    ∃ request rest, waiting = request :: rest ∧ after = before ∧
      thread = ⟨answered, some (request, request.program manager), rest⟩ := by
  cases h
  exact ⟨_, _, rfl, rfl, rfl⟩

theorem of_step {call : Call ν} {next : call.Reply → Program ν (Response ν)}
    (h : Step manager ⟨answered, some (request, .step call next), waiting⟩ before thread after) :
    ∃ reply, Commons.Answers call before reply after ∧
      thread = ⟨answered, some (request, next reply), waiting⟩ := by
  cases h
  exact ⟨_, ‹_›, rfl⟩

theorem of_done {response : Response ν}
    (h : Step manager ⟨answered, some (request, .done response), waiting⟩ before thread after) :
    after = before ∧ thread = ⟨answered ++ [(request, response)], none, waiting⟩ := by
  cases h
  exact ⟨rfl, rfl⟩

end Thread.Step

namespace Thread.IsAt

variable {manager : Manager} {target : EntityReference} {ids : String → Prop} {lock : LockId}
  {thread : Thread ν} {stage : Stage ν}

/-- A thread that has nothing to tell. -/
theorem answering {answered : List (Exchange ν)} {request : Request} {response : Response ν}
    {waiting : List Request} : IsAt manager target ids lock
      ⟨answered, some (request, .done response), waiting⟩ (.told (request, response) []) :=
  @IsAt.told _ _ _ _ _ _ _ _ _ [] _

/-- Whoever does not refer to the lock does not care which it is. -/
theorem of_not_isUser {other : LockId} (h : thread.IsAt manager target ids lock stage)
    (out : ¬ stage.IsUser) : thread.IsAt manager target ids other stage := by
  cases h with
  | idle => exact .idle
  | opening known => exact .opening known
  | looking known looks => exact .looking known looks
  | ready => exact .ready
  | queued => exact absurd trivial out
  | inside => exact absurd trivial out
  | told => exact .told

/-- Whoever is at no request has nothing to do with the lock. -/
theorem eq_out (h : thread.IsAt manager target ids lock stage) (idle : thread.current = none) :
    stage = .out := by
  cases h with
  | idle | opening | looking | ready => rfl
  | queued | inside | told => cases idle

def IsDeed (manager : Manager) (target : EntityReference) (ids : String → Prop) (lock : LockId)
    (stage : Stage ν) (thread : Thread ν) (before : Commons ν) (next : Thread ν)
    (after : Commons ν) : Prop :=
  ∃ stage' lock' decided,
    Deed manager (lockKey manager.identifier target) ids lock stage before stage' after lock'
      decided (thread.act before.world) ∧ next.IsAt manager target ids lock' stage' ∧
    next.answered ++ stage'.decided = thread.answered ++ stage.decided ++ decided ∧
    next.waiting <:+ thread.waiting

section Cases

variable {answered : List (Exchange ν)} {request : Request} {waiting : List Request}
  {before after : Commons ν} {next : Thread ν}

theorem isDeed_of_idle (about : ∀ request ∈ waiting, request.IsAbout target ids)
    (step : Thread.Step manager ⟨answered, none, waiting⟩ before next after) :
    IsDeed manager target ids lock .out ⟨answered, none, waiting⟩ before next after := by
  obtain ⟨request, rest, rfl, rfl, rfl⟩ := step.of_idle
  have mine := about request List.mem_cons_self
  have fewer : rest <:+ request :: rest := List.suffix_cons _ _
  cases request with
  | save onTarget voter vote =>
      obtain rfl : onTarget = target := mine
      cases valid : manager.validate vote with
      | ok rank =>
          rw [Request.program_save valid]
          exact ⟨_, _, _, .silent, .ready, (List.append_nil _).symm, fewer⟩
      | error error =>
          have refused : (Request.save onTarget voter vote).program manager =
              .done (.saved (.error error) : Response ν) :=
            Request.program_save_of_invalid valid
          rw [refused]
          exact ⟨_, _, _, .decides (.refused refused), .answering, by simp [Stage.decided],
            fewer⟩
  | remove id => exact ⟨_, _, _, .silent, .opening mine, (List.append_nil _).symm, fewer⟩
  | recompute onTarget =>
      obtain rfl : onTarget = target := mine
      rw [Request.program_recompute]
      exact ⟨_, _, _, .silent, .ready, (List.append_nil _).symm, fewer⟩

theorem isDeed_of_opening {id : String} (known : ids id) (named : manager.voteCore ≠ "")
    (step : Thread.Step manager
      ⟨answered, some (.remove id, (Request.remove id).program manager), waiting⟩ before next
      after) :
    IsDeed manager target ids lock .out
      ⟨answered, some (.remove id, (Request.remove id).program manager), waiting⟩ before next
      after := by
  obtain ⟨look, same, looks⟩ := manager.find?_eq (ν := ν) named id
  rw [Request.program_remove, same] at step ⊢
  obtain ⟨reply, answer, rfl⟩ := step.of_step
  cases reply with
  | error error =>
      obtain ⟨unnamed | fails, -⟩ := answer.1
      · exact absurd unnamed named
      · exact fails.elim
  | ok _ =>
      obtain rfl : after = before := Commons.eq_of answer.1.2 answer.2
      exact ⟨_, _, _, .silent, .looking known looks, (List.append_nil _).symm, List.suffix_rfl⟩

/-- A lookup finds the vote on the target, or decides that there is none. -/
theorem isDeed_of_looking {id : String} {looks : Program ν (Except RankingError (Option Ranking))}
    (known : ids id) (looking : manager.Looks id looks) (named : manager.voteCore ≠ "")
    (places : (before.world.core manager.voteCore).Places ids target)
    (step : Thread.Step manager
      ⟨answered, some (.remove id, looks.bind (Request.proceed manager id)), waiting⟩ before next
      after) :
    IsDeed manager target ids lock .out
      ⟨answered, some (.remove id, looks.bind (Request.proceed manager id)), waiting⟩ before next
      after := by
  obtain ⟨query, look, rfl, looks⟩ := looking
  obtain ⟨reply, answer, rfl⟩ := step.of_step
  have same : after.world = before.world := by
    cases reply <;> exact answer.1.2
  obtain rfl := Commons.eq_of same answer.2
  obtain ⟨result, ends, found⟩ := looks reply
  rw [ends]
  obtain ⟨seen, rfl, onTarget⟩ | ⟨rfl, lacks⟩ :=
    Manager.find?_of_places named places known (found answer.1)
  · rw [← onTarget]
    exact ⟨_, _, _, .silent, .ready, (List.append_nil _).symm, List.suffix_rfl⟩
  · exact ⟨_, _, _, .decides (.missed known lacks), .answering, by simp [Stage.decided],
      List.suffix_rfl⟩

theorem isDeed_of_ready
    (step : Thread.Step manager ⟨answered, some (request, request.guarded manager target),
      waiting⟩ before next after) :
    IsDeed manager target ids lock .out
      ⟨answered, some (request, request.guarded manager target), waiting⟩ before next after := by
  obtain ⟨_, ⟨rfl, rfl⟩, rfl⟩ := step.of_step
  exact ⟨_, _, _, .gets, .queued, (List.append_nil _).symm, List.suffix_rfl⟩

theorem isDeed_of_queued (separate : manager.voteCore ≠ averageCore)
    (step : Thread.Step manager ⟨answered, some (request, manager.enter
      (fun error => request.refusal error) (request.work manager) lock), waiting⟩ before next
      after) :
    IsDeed manager target ids lock .queued ⟨answered, some (request, manager.enter
      (fun error => request.refusal error) (request.work manager) lock), waiting⟩ before next
      after := by
  obtain ⟨_, ⟨rfl, free, rfl⟩, rfl⟩ := step.of_step
  exact ⟨_, _, _, .enters free, .inside (Request.works_work separate request),
    (List.append_nil _).symm, List.suffix_rfl⟩

theorem isDeed_of_inside {rest : Program ν (Response ν × List (Notification ν))}
    (works : rest.Works manager.voteCore 1)
    (step : Thread.Step manager ⟨answered, some (request, rest.bind (manager.leave lock)), waiting⟩
      before next after) :
    IsDeed manager target ids lock (.inside request rest)
      ⟨answered, some (request, rest.bind (manager.leave lock)), waiting⟩ before next after := by
  cases rest with
  | done outcome =>
      obtain ⟨_, rfl, rfl⟩ := step.of_step
      exact ⟨_, _, _, .leaves, .told, by simp [Stage.decided], List.suffix_rfl⟩
  | step call next =>
      obtain ⟨reply, answer, rfl⟩ := step.of_step
      obtain ⟨answer, locks⟩ := (Commons.answers_of_isWork works.1).1 answer
      have rest := (works.2.2 reply).mono (Nat.sub_le _ _)
      exact ⟨_, _, _, .works works answer locks, .inside rest, (List.append_nil _).symm,
        List.suffix_rfl⟩

theorem isDeed_of_told {response : Response ν} {news : List (Notification ν)}
    (step : Thread.Step manager ⟨answered, some (request, (Manager.deliver news).bind
      fun _ => .done response), waiting⟩ before next after) :
    IsDeed manager target ids lock (.told (request, response) news) ⟨answered,
      some (request, (Manager.deliver news).bind fun _ => .done response), waiting⟩ before next
      after := by
  cases news with
  | nil =>
      obtain ⟨rfl, rfl⟩ := step.of_done
      exact ⟨_, _, _, .answers, .idle, by simp [Stage.decided], List.suffix_rfl⟩
  | cons notification news =>
      obtain ⟨_, answer, rfl⟩ := step.of_step
      obtain rfl : after = { before with world := before.world.hear [notification] } :=
        Commons.eq_of answer.1 answer.2
      exact ⟨_, _, _, .tells, .told, (List.append_nil _).symm, List.suffix_rfl⟩

end Cases

/-- **Every step is a deed**, if lookups find votes on the target only. -/
theorem deed {before after : Commons ν} {next : Thread ν}
    (h : thread.IsAt manager target ids lock stage)
    (about : ∀ request ∈ thread.waiting, request.IsAbout target ids)
    (placed : manager.IsPlaced)
    (places : (before.world.core manager.voteCore).Places ids target)
    (step : Thread.Step manager thread before next after) :
    IsDeed manager target ids lock stage thread before next after := by
  cases h with
  | idle => exact isDeed_of_idle about step
  | opening known => exact isDeed_of_opening known placed.named step
  | looking known looking => exact isDeed_of_looking known looking placed.named places step
  | ready => exact isDeed_of_ready step
  | queued => exact isDeed_of_queued placed.separate step
  | inside works => exact isDeed_of_inside works step
  | told => exact isDeed_of_told step

end Thread.IsAt

/-! ## 4. Who can take a step -/

/-- Only the lock can be waited for. -/
theorem Commons.exists_answers (call : Call ν) (before : Commons ν)
    (free : ∀ service lock, call = .acquire service lock →
      (before.locks service).isHeld lock = false) :
    ∃ reply after, Commons.Answers call before reply after := by
  have answered := World.exists_answers World.reliable call before.world
  cases call with
  | getLock service key => exact ⟨_, _, rfl, rfl⟩
  | acquire service lock => exact ⟨_, _, rfl, free service lock rfl, rfl⟩
  | release service lock => exact ⟨(), _, rfl⟩
  | openCore | add | delete | commit | query | now | freshId | notify =>
      obtain ⟨reply, after, answered⟩ := answered
      exact ⟨reply, ⟨after, before.locks⟩, answered, rfl⟩

theorem Thread.exists_step {manager : Manager} {answered : List (Exchange ν)} {request : Request}
    {program : Program ν (Response ν)} {waiting : List Request} {before : Commons ν}
    (free : ∀ service lock next, program = .step (.acquire service lock) next →
      (before.locks service).isHeld lock = false) :
    ∃ next after,
      Thread.Step manager ⟨answered, some (request, program), waiting⟩ before next after := by
  cases program with
  | done response => exact ⟨_, _, .answer⟩
  | step call next =>
      obtain ⟨reply, after, answer⟩ := Commons.exists_answers call before
        fun service lock same => by
          cases same
          exact free service lock next rfl
      exact ⟨_, _, .call answer⟩

/-- **Nobody is stuck** but who waits for a lock that is taken. -/
theorem Thread.IsAt.exists_step {manager : Manager} {target : EntityReference}
    {ids : String → Prop} {lock : LockId} {thread : Thread ν} {stage : Stage ν}
    {before : Commons ν} (h : thread.IsAt manager target ids lock stage)
    (named : manager.voteCore ≠ "") (unfinished : ¬ thread.IsFinished)
    (free : stage = .queued → (before.locks manager.locks).isHeld lock = false) :
    ∃ next after, Thread.Step manager thread before next after := by
  cases h with
  | @idle answered waiting =>
      cases waiting with
      | nil => exact absurd ⟨rfl, rfl⟩ unfinished
      | cons request rest => exact ⟨_, _, .ask⟩
  | @opening answered id waiting known =>
      obtain ⟨look, same, -⟩ := manager.find?_eq (ν := ν) named id
      rw [Request.program_remove, same]
      exact Thread.exists_step nofun
  | looking known looks =>
      obtain ⟨query, look, rfl, -⟩ := looks
      exact Thread.exists_step nofun
  | ready => exact Thread.exists_step nofun
  | queued =>
      refine Thread.exists_step fun service other next same => ?_
      cases same
      exact free rfl
  | @inside answered request rest waiting works =>
      refine Thread.exists_step fun service other next same => ?_
      -- work keeps the lock and asks for no other
      cases rest with
      | done outcome => cases same
      | step call rest =>
          cases same
          exact works.1.elim
  | @told answered request response news waiting =>
      refine Thread.exists_step fun service other next same => ?_
      cases news with
      | nil => cases same
      | cons notification news => cases same

end RankLedger
