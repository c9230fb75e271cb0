import RankLedger.Proofs.Manager.Calling

/-!
# Opening before writing

An index lets writes to a core that was never opened go astray.  A program that opens each core
before it writes to it does not notice (`Program.OpensFirst`), and the programs of managers are of
this kind: whatever they are answered, nobody writes to a core that was not opened by the same
program.
-/

namespace RankLedger

variable {ν α β ε : Type}

/-! ## 1. Programs -/

def Call.WritesTo : Call ν → String → Prop
  | .add written _, core => written = core
  | .delete written _, core => written = core
  | _, _ => False

def Call.Opens : (call : Call ν) → call.Reply → String → Prop
  | .openCore opened, .ok _, core => opened = core
  | _, _, _ => False

namespace Program

def OpensFirst : Program ν α → (String → Prop) → Prop
  | .done _, _ => True
  | .step call next, opened =>
      (∀ core, call.WritesTo core → opened core) ∧
        ∀ reply, (next reply).OpensFirst fun core => opened core ∨ call.Opens reply core

abbrev IsCareful (program : Program ν α) : Prop :=
  program.OpensFirst fun _ => False

variable {program : Program ν α} {opened others : String → Prop}

/-- It does no harm if more cores are open. -/
theorem OpensFirst.mono (h : program.OpensFirst opened)
    (more : ∀ core, opened core → others core) : program.OpensFirst others := by
  induction program generalizing opened others with
  | done result => trivial
  | step call next ih =>
      obtain ⟨written, rest⟩ := h
      -- what a call opens is open in addition, before and after
      refine ⟨fun core writes => more core (written core writes), fun reply => ?_⟩
      exact ih reply (rest reply) fun core => Or.imp_left (more core)

theorem OpensFirst.bind {f : α → Program ν β} (h : program.OpensFirst opened)
    (next : ∀ result, (f result).IsCareful) : (program.bind f).OpensFirst opened := by
  induction program generalizing opened with
  | done result => exact (next result).mono fun _ => False.elim
  | step call rest ih => exact ⟨h.1, fun reply => ih reply (h.2 reply)⟩

theorem isCareful_done (result : α) : (done result : Program ν α).IsCareful := trivial

/-- A call that writes nothing. -/
theorem isCareful_request {call : Call ν} (h : ∀ core, ¬ call.WritesTo core) :
    (request call).IsCareful :=
  ⟨h, fun _ => trivial⟩

/-- Whoever only reads does not write. -/
theorem Makes.isCareful (h : program.Makes Call.Reads) : program.IsCareful := by
  induction program with
  | done result => trivial
  | step call next ih =>
      refine ⟨fun core writes => ?_, fun reply => (ih reply (h.2 reply)).mono fun _ => False.elim⟩
      have reads := h.1
      cases call with
      | add | delete => exact reads
      | openCore | commit | query | getLock | acquire | release | now | freshId | notify =>
          exact writes

end Program

open Program (IsCareful isCareful_done isCareful_request)

/-! ## 2. Programs that may fail, and changes -/

theorem isCareful_exceptBind {program : ExceptT ε (Program ν) α}
    {f : α → ExceptT ε (Program ν) β} (h : program.run.IsCareful)
    (next : ∀ result, (f result).run.IsCareful) : (program >>= f).run.IsCareful := by
  refine Program.OpensFirst.bind h fun result => ?_
  cases result with
  | ok result => exact next result
  | error error => exact isCareful_done _

theorem isCareful_exceptLift {program : Program ν α} (h : program.IsCareful) :
    (ExceptT.lift program : ExceptT ε (Program ν) α).run.IsCareful :=
  Program.OpensFirst.bind h fun _ => isCareful_done _

namespace Attempt

theorem isCareful_inContext {context : String} {program : ExceptT IndexError (Program ν) α}
    (h : program.run.IsCareful) : (inContext context program).run.IsCareful :=
  Program.OpensFirst.bind h fun _ => isCareful_done _

theorem isCareful_locking {program : Program ν (Except LockError α)} (h : program.IsCareful) :
    (locking program).run.IsCareful :=
  Program.OpensFirst.bind h fun _ => isCareful_done _

end Attempt

namespace Change

def IsCareful (change : Change ν α) : Prop :=
  ∀ announced, (change.run.run announced).IsCareful

theorem isCareful_pure (result : α) : (pure result : Change ν α).IsCareful :=
  fun _ => isCareful_done _

theorem isCareful_announce (notification : Notification ν) :
    (announce notification).IsCareful :=
  fun _ => isCareful_done _

theorem isCareful_attempt {program : Attempt ν α} (h : program.run.IsCareful) :
    (attempt program).IsCareful :=
  fun _ => Program.OpensFirst.bind h fun _ => isCareful_done _

theorem IsCareful.bind {change : Change ν α} {f : α → Change ν β} (h : change.IsCareful)
    (next : ∀ result, (f result).IsCareful) : (change >>= f).IsCareful := by
  intro announced
  rw [run_bind]
  refine Program.OpensFirst.bind (h announced) ?_
  rintro ⟨result | error, said⟩
  · exact isCareful_done _
  · exact next _ said

end Change

/-! ## 3. Managers -/

namespace Manager

variable {manager : Manager}

section Writing

variable {context core : String}

/-- A write goes to the core that was opened right before it. -/
theorem isCareful_write {put : ExceptT IndexError (Program ν) Unit}
    (puts : put.run.OpensFirst (core = ·)) :
    (Attempt.inContext context do
      ExceptT.mk (Program.request (.openCore core))
      put
      ExceptT.mk (Program.request (.commit core))).run.IsCareful := by
  apply Attempt.isCareful_inContext
  refine ⟨fun _ => id, fun opened => ?_⟩
  cases opened with
  | error error => exact trivial
  | ok _ =>
      -- the core is open from here on
      show Program.OpensFirst (put.run.bind _) _
      refine Program.OpensFirst.bind (puts.mono fun _ => .inr) fun written => ?_
      cases written with
      | error error => exact trivial
      | ok _ => exact ⟨fun _ => False.elim, fun _ => trivial⟩

theorem isCareful_store {document : Option (Document ν)} :
    (store context core document).run.IsCareful := by
  cases document with
  | none =>
      exact isCareful_exceptBind (Attempt.isCareful_inContext (isCareful_request fun _ => id))
        fun _ => isCareful_done _
  | some document =>
      rw [store_some]
      exact isCareful_write ⟨fun _ => id, fun _ => trivial⟩

theorem isCareful_erase {id : String} : (erase context core id : Attempt ν Unit).run.IsCareful :=
  isCareful_write ⟨fun _ same => same, fun _ => trivial⟩

theorem isCareful_storeRanking {event : RankingEvent ν} {ranking : Ranking} :
    (manager.storeRanking context event ranking).IsCareful :=
  (Change.isCareful_attempt isCareful_store).bind fun _ => Change.isCareful_announce _

theorem isCareful_storeAverage {event : RankingEvent ν} {average : AverageRank ν} :
    (manager.storeAverage context event average).IsCareful :=
  (Change.isCareful_attempt isCareful_store).bind fun _ => Change.isCareful_announce _

theorem isCareful_storeChange {change : Option (AverageChange ν)} :
    (manager.storeChange context change).IsCareful := by
  cases change with
  | none => exact Change.isCareful_pure _
  | some change => exact isCareful_storeAverage

theorem isCareful_deliver {news : List (Notification ν)} : (deliver news).IsCareful := by
  induction news with
  | nil => exact isCareful_done _
  | cons notification rest ih =>
      exact ⟨fun _ => id, fun _ => ih.mono fun _ => .inl⟩

theorem isCareful_locked {target : EntityReference} {work : Change ν α} (h : work.IsCareful) :
    (manager.locked target work).run.IsCareful :=
  isCareful_exceptBind (Attempt.isCareful_locking (isCareful_request fun _ => id)) fun _ =>
    isCareful_exceptBind (Attempt.isCareful_locking (isCareful_request fun _ => id)) fun _ =>
      isCareful_exceptBind (isCareful_exceptLift (h [])) fun _ =>
        isCareful_exceptBind (isCareful_exceptLift (isCareful_request fun _ => id)) fun _ =>
          isCareful_exceptBind (isCareful_exceptLift isCareful_deliver) fun _ =>
            isCareful_done _

end Writing

variable [Scalar ν]

theorem isCareful_eraseLocked {ranking : Ranking} :
    (manager.eraseLocked ranking : Change ν Unit).IsCareful :=
  (Change.isCareful_attempt isCareful_erase).bind fun _ =>
    (Change.isCareful_announce _).bind fun _ =>
      (Change.isCareful_attempt reads_averageChange?.isCareful).bind fun _ => isCareful_storeChange

theorem isCareful_saveLocked {target : EntityReference} {voter : UserReference} {rank : UInt32} :
    (manager.saveLocked target voter rank : Change ν _).IsCareful := by
  -- both for a first vote and for a later one
  have written {context : String} {ranking : Ranking} {event : RankingEvent ν}
      {change : AverageRank ν → Instant → AverageRank ν} :
      (do
        let change ← Change.attempt (manager.averageChange? target change)
        manager.storeRanking context event ranking
        manager.storeChange context change
        return some ranking : Change ν (Option Ranking)).IsCareful :=
    (Change.isCareful_attempt reads_averageChange?.isCareful).bind fun _ =>
      isCareful_storeRanking.bind fun _ =>
        isCareful_storeChange.bind fun _ => Change.isCareful_pure _
  refine (Change.isCareful_attempt reads_oldest?.isCareful).bind fun found => ?_
  cases found with
  | none =>
      dsimp only
      split
      · exact Change.isCareful_pure _
      · exact (Change.isCareful_attempt Attempt.reads_now.isCareful).bind fun _ =>
          (Change.isCareful_attempt Attempt.reads_freshId.isCareful).bind fun _ => written
  | some existing =>
      dsimp only
      split
      · exact isCareful_eraseLocked.bind fun _ => Change.isCareful_pure _
      · exact (Change.isCareful_attempt Attempt.reads_now.isCareful).bind fun _ => written

theorem isCareful_removeLocked {id : String} :
    (manager.removeLocked id : Change ν Bool).IsCareful := by
  refine (Change.isCareful_attempt reads_oldest?.isCareful).bind fun found => ?_
  cases found with
  | none => exact Change.isCareful_pure _
  | some existing => exact isCareful_eraseLocked.bind fun _ => Change.isCareful_pure _

theorem isCareful_recomputeLocked {target : EntityReference} :
    (manager.recomputeLocked target : Change ν _).IsCareful := by
  refine (Change.isCareful_attempt reads_allRankings.isCareful).bind fun votes =>
    (Change.isCareful_attempt reads_average.isCareful).bind fun before =>
      (Change.isCareful_attempt Attempt.reads_now.isCareful).bind fun now => ?_
  dsimp only
  split
  · exact isCareful_storeAverage.bind fun _ => Change.isCareful_pure _
  · exact Change.isCareful_pure _

/-- **Every program of a manager opens a core before it writes to it.** -/
theorem isCareful_save {target : EntityReference} {voter : UserReference} {vote : Int} :
    (manager.save target voter vote : Attempt ν _).run.IsCareful :=
  isCareful_exceptBind (isCareful_done _) fun _ => isCareful_locked isCareful_saveLocked

theorem isCareful_remove {id : String} : (manager.remove id : Attempt ν _).run.IsCareful := by
  refine isCareful_exceptBind reads_oldest?.isCareful fun found => ?_
  cases found with
  | none => exact isCareful_done _
  | some ranking => exact isCareful_locked isCareful_removeLocked

theorem isCareful_recompute {target : EntityReference} :
    (manager.recompute target : Attempt ν _).run.IsCareful :=
  isCareful_locked isCareful_recomputeLocked

end Manager

end RankLedger
