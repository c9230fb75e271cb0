import RankLedger.Proofs.Manager.Inquiry
import RankLedger.Proofs.Threads.Basic
import RankLedger.Proofs.Threads.Requests
import RankLedger.Proofs.World.Alike

/-!
# Orderly programs

A program is orderly if it takes one lock at a time, gives the lock back before it tells anybody
anything, and does nothing but tell once it began to (`Program.IsOrderly`).  Every errand that can
be run through a manager is orderly, whichever of its calls fail (`Errand.isOrderly`).

*Minutes* are what is shared by those who call, with every call but the notifications written down
beside its answer.  Nothing in them depends on what the listeners were told, so minutes that differ
in this alone are alike to every program.
-/

namespace RankLedger

variable {ν α β : Type}

/-! ## 1. Programs -/

def Call.tells : Call ν → Bool
  | .notify _ => true
  | _ => false

theorem Call.Reads.isWork {call : Call ν} (h : call.Reads) : call.IsWork := by
  cases call with
  | openCore | query | now | freshId => trivial
  | add | delete | commit | getLock | acquire | release | notify => exact h.elim

inductive Hold where
  /-- It holds no lock and waits for none. -/
  | free
  /-- It refers to a lock, and waits for it next. -/
  | waits (service : LockService) (lock : LockId)
  /-- It holds a lock. -/
  | holds (service : LockService) (lock : LockId)

namespace Program

def conclusion? : Program ν α → Option α
  | .done result => some result
  | .step (.notify _) next => (next ()).conclusion?
  | .step _ _ => none

theorem conclusion?_step {call : Call ν} {next : call.Reply → Program ν α}
    (h : call.tells = false) : (step call next).conclusion? = none := by
  cases call with
  | notify => cases h
  | _ => rfl

/-- However its calls are answered, the program takes one lock at a time, and when it begins to tell
    it holds none and does nothing else any more. -/
inductive IsOrderly : Program ν α → Hold → Prop
  | tells {program : Program ν α} {result : α} :
      program.conclusion? = some result → IsOrderly program .free
  | work {call : Call ν} {next : call.Reply → Program ν α} {hold : Hold} :
      call.IsWork → (∀ reply, IsOrderly (next reply) hold) → IsOrderly (.step call next) hold
  | getLock {service : LockService} {key : String}
      {next : Except LockError LockId → Program ν α} :
      (∀ lock, IsOrderly (next (.ok lock)) (.waits service lock)) →
      (∀ error, IsOrderly (next (.error error)) .free) →
      IsOrderly (.step (.getLock service key) next) .free
  | acquire {service : LockService} {lock : LockId} {next : Except LockError Unit → Program ν α} :
      IsOrderly (next (.ok ())) (.holds service lock) →
      (∀ error, IsOrderly (next (.error error)) .free) →
      IsOrderly (.step (.acquire service lock) next) (.waits service lock)
  | release {service : LockService} {lock : LockId} {next : Unit → Program ν α} :
      IsOrderly (next ()) .free →
      IsOrderly (.step (.release service lock) next) (.holds service lock)

/-- Finding something out before takes no lock. -/
theorem Makes.bind_isOrderly {program : Program ν α} {f : α → Program ν β} {hold : Hold}
    (reads : program.Makes Call.Reads) (next : ∀ result, (f result).IsOrderly hold) :
    (program.bind f).IsOrderly hold := by
  induction program with
  | done result => exact next result
  | step call rest ih => exact .work reads.1.isWork fun reply => ih reply (reads.2 reply)

/-- Work that is done under a lock takes none. -/
theorem Works.bind_isOrderly {core : String} {commits : Nat} {program : Program ν α}
    {f : α → Program ν β} {hold : Hold} (works : program.Works core commits)
    (next : ∀ result, (f result).IsOrderly hold) : (program.bind f).IsOrderly hold := by
  induction program generalizing commits with
  | done result => exact next result
  | step call rest ih => exact .work works.1 fun reply => ih reply (works.2.2 reply)

theorem conclusion?_bind {program : Program ν α} {result : α} {f : α → β}
    (h : program.conclusion? = some result) :
    (program.bind fun result => .done (f result)).conclusion? = some (f result) := by
  induction program with
  | done other =>
      cases h
      rfl
  | step call next ih =>
      cases call with
      | notify notification => exact ih () h
      | _ => cases h

/-- A result that is only passed on changes nothing. -/
theorem IsOrderly.map {program : Program ν α} {hold : Hold} (h : program.IsOrderly hold)
    (f : α → β) : (program.bind fun result => .done (f result)).IsOrderly hold := by
  induction h with
  | tells concludes => exact .tells (conclusion?_bind concludes)
  | work work _ ih => exact .work work ih
  | getLock _ _ got failed => exact .getLock got failed
  | acquire _ _ taken failed => exact .acquire taken failed
  | release _ freed => exact .release freed

end Program

/-! ## 2. Errands -/

namespace Manager

variable (manager : Manager)

theorem conclusion?_deliver (news : List (Notification ν)) (result : α) :
    ((deliver news).bind fun _ => .done result).conclusion? = some result := by
  induction news with
  | nil => rfl
  | cons notification rest ih => exact ih

/-- **Work under a lock** is orderly: what it announces is told when the lock is given back. -/
theorem isOrderly_guard {target : EntityReference} {refuse : LockError → α}
    {work : Program ν (α × List (Notification ν))} {core : String} {commits : Nat}
    (works : work.Works core commits) : (manager.guard target refuse work).IsOrderly .free := by
  refine .getLock (fun lock => .acquire ?_ fun error => .tells rfl) fun error => .tells rfl
  exact works.bind_isOrderly fun outcome => .release (.tells (conclusion?_deliver _ _))

end Manager

/-- What a manager can be called for: to change something, or to tell what it finds. -/
inductive Errand where
  | request (request : Request)
  | inquiry (inquiry : Inquiry)

inductive Errand.Answer (ν : Type) where
  | response (response : Response ν)
  | finding (finding : Finding ν)

variable [Scalar ν] {manager : Manager}

def Errand.program (manager : Manager) : Errand → Program ν (Answer ν)
  | .request asked => (asked.program manager).bind fun response => .done (.response response)
  | .inquiry asked => (asked.program manager).bind fun finding => .done (.finding finding)

theorem Request.isOrderly (apart : manager.voteCore ≠ averageCore) (request : Request) :
    (request.program manager : Program ν _).IsOrderly .free := by
  have guarded (target : EntityReference) :
      (request.guarded manager target : Program ν _).IsOrderly .free :=
    manager.isOrderly_guard (request.works_work apart)
  cases request with
  | save target voter vote =>
      cases valid : manager.validate vote with
      | ok rank =>
          rw [program_save valid]
          exact guarded target
      | error error =>
          rw [program_save_of_invalid valid]
          exact .tells rfl
  | recompute target =>
      rw [program_recompute]
      exact guarded target
  | remove id =>
      -- the vote is looked for without the lock first
      rw [program_remove]
      refine Manager.reads_oldest?.bind_isOrderly fun found => ?_
      cases found with
      | error error => exact .tells rfl
      | ok found =>
          cases found with
          | none => exact .tells rfl
          | some seen => exact guarded seen.target

theorem Inquiry.isOrderly (inquiry : Inquiry) :
    (inquiry.program manager : Program ν _).IsOrderly .free := by
  cases inquiry with
  | rankings => exact Manager.reads_rankings.bind_isOrderly fun _ => .tells rfl
  | count => exact Manager.reads_count.bind_isOrderly fun _ => .tells rfl
  | average => exact Manager.reads_average.bind_isOrderly fun _ => .tells rfl

/-- **Errands** are orderly. -/
theorem Errand.isOrderly (apart : manager.voteCore ≠ averageCore) (errand : Errand) :
    (errand.program manager : Program ν _).IsOrderly .free := by
  cases errand with
  | request asked => exact (asked.isOrderly apart).map _
  | inquiry asked => exact asked.isOrderly.map _

/-! ## 3. Minutes -/

namespace Commons

/-- How calls are answered where the calls that `faults` holds of may fail, and locks have to be
    waited for.  Whoever fails to take a lock refers to it no more. -/
def MayAnswer (faults : Call ν → Prop) : Program.Rules ν (Commons ν)
  | .getLock service key, before, .ok lock, after =>
      lock = ((before.locks service).get key).1 ∧
        after = before.setLocks service ((before.locks service).get key).2
  | .getLock service key, before, .error _, after => faults (.getLock service key) ∧ after = before
  | .acquire service lock, before, .ok _, after =>
      (before.locks service).isHeld lock = false ∧
        after = before.setLocks service ((before.locks service).take lock)
  | .acquire service lock, before, .error _, after =>
      faults (.acquire service lock) ∧
        after = before.setLocks service ((before.locks service).drop lock)
  | .release service lock, before, _, after =>
      after = before.setLocks service ((before.locks service).dismiss lock)
  | call, before, reply, after =>
      World.Answers faults call before.world reply after.world ∧ after.locks = before.locks

end Commons

/-- What is answered where nothing fails may be answered where something does. -/
theorem Commons.Answers.mayAnswer {call : Call ν} {reply : call.Reply} {before after : Commons ν}
    (h : Answers call before reply after) (faults : Call ν → Prop) :
    MayAnswer faults call before reply after := by
  have mono {call : Call ν} {reply : call.Reply}
      (h : World.Answers World.reliable call before.world reply after.world) :
      World.Answers faults call before.world reply after.world :=
    h.mono fun _ => False.elim
  cases call with
  | getLock service key =>
      obtain ⟨rfl, rfl⟩ := h
      exact ⟨rfl, rfl⟩
  | acquire service lock =>
      obtain ⟨rfl, free, rfl⟩ := h
      exact ⟨free, rfl⟩
  | release service lock => exact h
  | openCore | add | delete | commit | query | now | freshId | notify => exact ⟨mono h.1, h.2⟩

abbrev AnsweredCall (ν : Type) := (call : Call ν) × call.Reply

omit [Scalar ν] in
def Call.noted (call : Call ν) (reply : call.Reply) : List (AnsweredCall ν) :=
  if call.tells then [] else [⟨call, reply⟩]

/-- What those who call share, and the calls that were answered in it, in order. -/
structure Minutes (ν : Type) where
  commons : Commons ν := {}
  calls : List (AnsweredCall ν) := []

namespace Minutes

def MayAnswer (faults : Call ν → Prop) : Program.Rules ν (Minutes ν) :=
  fun call before reply after => Commons.MayAnswer faults call before.commons reply after.commons ∧
    after.calls = before.calls ++ call.noted reply

omit [Scalar ν] in
structure Alike (a b : Minutes ν) : Prop where
  world : a.commons.world.Alike b.commons.world
  locks : a.commons.locks = b.commons.locks
  calls : a.calls = b.calls

variable {faults : Call ν → Prop} {a b a' : Minutes ν}

omit [Scalar ν] in
theorem Alike.refl (a : Minutes ν) : a.Alike a := ⟨.refl _, rfl, rfl⟩

omit [Scalar ν] in
theorem Alike.symm (h : a.Alike b) : b.Alike a := ⟨h.world.symm, h.locks.symm, h.calls.symm⟩

omit [Scalar ν] in
theorem Alike.trans (h : a.Alike b) (h' : b.Alike a') : a.Alike a' :=
  ⟨h.world.trans h'.world, h.locks.trans h'.locks, h.calls.trans h'.calls⟩

end Minutes

variable {faults : Call ν → Prop} {a b a' : Minutes ν}

theorem Commons.MayAnswer.alike {call : Call ν} {reply : call.Reply} {a b a' : Commons ν}
    (h : MayAnswer faults call a reply a') (world : a.world.Alike b.world)
    (locks : a.locks = b.locks) :
    ∃ b', MayAnswer faults call b reply b' ∧ a'.world.Alike b'.world ∧ a'.locks = b'.locks := by
  -- a table of locks is put into the same state
  have setLocks (service : LockService) (table : LockTable) :
      (a.setLocks service table).world.Alike (b.setLocks service table).world ∧
        (a.setLocks service table).locks = (b.setLocks service table).locks :=
    ⟨world, by rw [Commons.setLocks, Commons.setLocks, locks]⟩
  cases call with
  | getLock service key =>
      cases reply with
      | ok lock =>
          obtain ⟨rfl, rfl⟩ := h
          rw [locks]
          exact ⟨_, ⟨rfl, rfl⟩, setLocks _ _⟩
      | error error =>
          obtain ⟨fails, rfl⟩ := h
          exact ⟨b, ⟨fails, rfl⟩, world, locks⟩
  | acquire service lock =>
      cases reply with
      | ok _ =>
          obtain ⟨free, rfl⟩ := h
          rw [locks] at free ⊢
          exact ⟨_, ⟨free, rfl⟩, setLocks _ _⟩
      | error error =>
          obtain ⟨fails, rfl⟩ := h
          rw [locks]
          exact ⟨_, ⟨fails, rfl⟩, setLocks _ _⟩
  | release service lock =>
      obtain rfl : a' = _ := h
      rw [locks]
      exact ⟨_, rfl, setLocks _ _⟩
  | openCore | add | delete | commit | query | now | freshId | notify =>
      obtain ⟨answered, same⟩ := h
      obtain ⟨world', answered', alike⟩ := answered.alike world
      exact ⟨⟨world', b.locks⟩, ⟨answered', rfl⟩, alike, same.trans locks⟩

namespace Minutes

theorem MayAnswer.alike {call : Call ν} {reply : call.Reply} (h : MayAnswer faults call a reply a')
    (alike : a.Alike b) : ∃ b', MayAnswer faults call b reply b' ∧ a'.Alike b' := by
  obtain ⟨commons, answered, world, locks⟩ := h.1.alike alike.world alike.locks
  refine ⟨⟨commons, b.calls ++ call.noted reply⟩, ⟨answered, rfl⟩, world, locks, ?_⟩
  rw [h.2, alike.calls]

/-- What is told leaves the minutes as they are. -/
theorem MayAnswer.alike_of_notify {notification : Notification ν}
    (h : MayAnswer faults (.notify notification) a () a') : a.Alike a' := by
  obtain ⟨⟨told, locks⟩, calls⟩ := h
  refine ⟨?_, locks.symm, (calls.trans (List.append_nil _)).symm⟩
  rw [show a'.commons.world = a.commons.world.hear [notification] from told]
  exact World.alike_hear _ _

/-- Every call has an answer, unless it waits for a lock that is taken. -/
theorem exists_mayAnswer (call : Call ν) (a : Minutes ν)
    (idle : ∀ service lock, call = .acquire service lock →
      (a.commons.locks service).isHeld lock = false) :
    ∃ reply a', MayAnswer faults call a reply a' := by
  suffices h : ∃ reply commons, Commons.MayAnswer faults call a.commons reply commons by
    obtain ⟨reply, commons, answered⟩ := h
    exact ⟨reply, ⟨commons, _⟩, answered, rfl⟩
  cases call with
  | getLock service key => exact ⟨.ok _, _, rfl, rfl⟩
  | acquire service lock => exact ⟨.ok (), _, idle service lock rfl, rfl⟩
  | release service lock => exact ⟨(), _, rfl⟩
  | openCore | add | delete | commit | query | now | freshId | notify =>
      obtain ⟨reply, world, answered⟩ := World.exists_answers faults _ a.commons.world
      exact ⟨reply, ⟨world, a.commons.locks⟩, answered, rfl⟩

theorem exists_mayAnswer_notify (notification : Notification ν) (a : Minutes ν) :
    ∃ a', MayAnswer faults (.notify notification) a () a' :=
  ⟨⟨⟨a.commons.world.hear [notification], a.commons.locks⟩, a.calls⟩, ⟨rfl, rfl⟩,
    (List.append_nil _).symm⟩

/-- A program that only tells comes to its conclusion. -/
theorem exists_yields_of_conclusion? {program : Program ν α} {result : α}
    (h : program.conclusion? = some result) (a : Minutes ν) :
    ∃ a', program.Yields (MayAnswer faults) a result a' ∧ a.Alike a' := by
  induction program generalizing a with
  | done other =>
      cases h
      exact ⟨a, ⟨rfl, rfl⟩, .refl a⟩
  | step call next ih =>
      cases call with
      | notify notification =>
          obtain ⟨told, answered⟩ : ∃ told, MayAnswer faults (.notify notification) a () told :=
            exists_mayAnswer_notify notification a
          obtain ⟨last, yields, alike⟩ := ih () h told
          exact ⟨last, ⟨(), told, answered, yields⟩, answered.alike_of_notify.trans alike⟩
      | _ => cases h

end Minutes

/-! ## 4. Locks -/

omit [Scalar ν] in
theorem LockTable.held_get (table : LockTable) (key : String) :
    (table.get key).2.held = table.held := by
  unfold get
  split <;> rfl

def Hold.Agrees (locks : LockService → LockTable) : Hold → Prop
  | .free | .waits _ _ => ∀ service, (locks service).held = []
  | .holds service lock =>
      (locks service).held = [lock] ∧ ∀ other, other ≠ service → (locks other).held = []

namespace Commons.MayAnswer

variable {before after : Commons ν} {service : LockService} {lock : LockId} {key : String}

/-- Work leaves the locks alone. -/
theorem locks_of_isWork {call : Call ν} {reply : call.Reply} (work : call.IsWork)
    (h : MayAnswer faults call before reply after) : after.locks = before.locks := by
  cases call with
  | openCore | add | delete | commit | query | now | freshId => exact h.2
  | getLock | acquire | release | notify => exact work.elim

omit [Scalar ν] in
/-- A table is put into a state in which the same locks are taken. -/
theorem held_setLocks {table : LockTable} (same : table.held = (before.locks service).held)
    (other : LockService) : ((before.setLocks service table).locks other).held =
      (before.locks other).held := by
  by_cases here : other = service
  · rw [here, locks_setLocks, same]
  · exact congrArg LockTable.held (Function.update_of_ne here ..)

theorem agrees_getLock {reply : Except LockError LockId}
    (h : MayAnswer faults (.getLock service key) before reply after)
    (free : Hold.free.Agrees before.locks) : Hold.free.Agrees after.locks := by
  cases reply with
  | ok lock =>
      obtain ⟨-, rfl⟩ := h
      exact fun other => (held_setLocks (LockTable.held_get _ _) other).trans (free other)
  | error error =>
      obtain ⟨-, rfl⟩ := h
      exact free

theorem agrees_acquire (h : MayAnswer faults (.acquire service lock) before (.ok ()) after)
    (free : Hold.free.Agrees before.locks) : (Hold.holds service lock).Agrees after.locks := by
  obtain ⟨idle, rfl⟩ := h
  refine ⟨?_, fun other apart => ?_⟩
  · rw [locks_setLocks, LockTable.take, idle, free service]
    rfl
  · exact (congrArg LockTable.held (Function.update_of_ne apart ..)).trans (free other)

theorem agrees_acquire_error {error : LockError}
    (h : MayAnswer faults (.acquire service lock) before (.error error) after)
    (free : Hold.free.Agrees before.locks) : Hold.free.Agrees after.locks := by
  obtain ⟨-, rfl⟩ := h
  have same : ((before.locks service).drop lock).held = (before.locks service).held := rfl
  exact fun other => (held_setLocks same other).trans (free other)

theorem agrees_release (h : MayAnswer faults (.release service lock) before () after)
    (holds : (Hold.holds service lock).Agrees before.locks) : Hold.free.Agrees after.locks := by
  obtain rfl : after = _ := h
  intro other
  by_cases here : other = service
  · rw [here, locks_setLocks, LockTable.dismiss]
    show (before.locks service).held.filter _ = []
    rw [holds.1]
    simp
  · exact (congrArg LockTable.held (Function.update_of_ne here ..)).trans (holds.2 other here)

end Commons.MayAnswer

end RankLedger
