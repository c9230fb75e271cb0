import RankLedger.Proofs.Manager.Calling

/-!
# Work under a lock

What a manager does under the lock of a target keeps the lock and tells nobody anything before it is
over, and it commits the core of the votes at most once (`Program.Works`).  So whoever looks at the
votes while it lasts sees them as they were before, or as they will be when it is over.
-/

namespace RankLedger

variable {ν α β ε : Type} {core : String}

/-! ## 1. Programs -/

def Call.IsWork : Call ν → Prop
  | .getLock _ _ | .acquire _ _ | .release _ _ | .notify _ => False
  | _ => True

def Call.commits (core : String) : Call ν → Nat
  | .commit committed => if committed = core then 1 else 0
  | _ => 0

namespace Program

def Works (core : String) : Program ν α → Nat → Prop
  | .done _, _ => True
  | .step call next, commits =>
      call.IsWork ∧ call.commits core ≤ commits ∧
        ∀ reply, (next reply).Works core (commits - call.commits core)

variable {program : Program ν α} {n m : Nat}

theorem works_done (result : α) : (done result : Program ν α).Works core n := trivial

/-- Fewer commits do no harm. -/
theorem Works.mono (h : program.Works core n) (le : n ≤ m) : program.Works core m := by
  induction program generalizing n m with
  | done result => trivial
  | step call next ih =>
      obtain ⟨work, enough, works⟩ := h
      exact ⟨work, Nat.le_trans enough le, fun reply =>
        ih reply (works reply) (Nat.sub_le_sub_right le _)⟩

theorem Works.bind {f : α → Program ν β} (h : program.Works core n)
    (next : ∀ result, (f result).Works core m) : (program.bind f).Works core (n + m) := by
  induction program generalizing n with
  | done result => exact (next result).mono (Nat.le_add_left m n)
  | step call rest ih =>
      obtain ⟨work, le, works⟩ := h
      refine ⟨work, Nat.le_trans le (Nat.le_add_right n m), fun reply => ?_⟩
      rw [Nat.sub_add_comm le]
      exact ih reply (works reply)

/-- Whoever only reads commits nothing. -/
theorem Makes.works (h : program.Makes Call.Reads) : program.Works core 0 := by
  induction program with
  | done result => trivial
  | step call next ih =>
      have reads := h.1
      cases call with
      | openCore | query | now | freshId =>
          exact ⟨trivial, Nat.le_refl 0, fun reply => ih reply (h.2 reply)⟩
      | add | delete | commit | getLock | acquire | release | notify => exact reads.elim

end Program

open Program (Works works_done)

/-! ## 2. Programs that may fail, and changes -/

variable {n m : Nat}

theorem works_exceptBind {program : ExceptT ε (Program ν) α}
    {f : α → ExceptT ε (Program ν) β} (h : program.run.Works core n)
    (next : ∀ result, (f result).run.Works core m) : (program >>= f).run.Works core (n + m) := by
  refine Works.bind h fun result => ?_
  cases result with
  | ok result => exact next result
  | error error => exact works_done _

namespace Change

def Works (core : String) (change : Change ν α) (commits : Nat) : Prop :=
  ∀ announced, (change.run.run announced).Works core commits

theorem works_pure (result : α) : (pure result : Change ν α).Works core 0 :=
  fun _ => works_done _

theorem works_announce (notification : Notification ν) : (announce notification).Works core 0 :=
  fun _ => works_done _

theorem works_attempt {program : Attempt ν α} (h : program.run.Works core n) :
    (attempt program).Works core n :=
  fun _ => Program.Works.bind (m := 0) h fun _ => works_done _

theorem Works.bind {change : Change ν α} {f : α → Change ν β} (h : change.Works core n)
    (next : ∀ result, (f result).Works core m) : (change >>= f).Works core (n + m) := by
  intro announced
  rw [run_bind]
  refine Program.Works.bind (h announced) ?_
  rintro ⟨result | error, said⟩
  · exact works_done _
  · exact next _ said

/-- Finding something out before the work costs no commit. -/
theorem works_readBind {program : Attempt ν α} {f : α → Change ν β}
    (h : program.run.Makes Call.Reads) (next : ∀ result, (f result).Works core n) :
    (attempt program >>= f).Works core n := by
  rw [← Nat.zero_add n]
  exact (works_attempt h.works).bind next

end Change

open Change (works_pure works_announce works_attempt works_readBind)

/-! ## 3. Managers -/

namespace Manager

variable {manager : Manager} {context written : String}

/-- A write commits the core that it writes to, and no other. -/
theorem works_write {put : ExceptT IndexError (Program ν) Unit} (puts : put.run.Works core 0)
    (enough : (if written = core then 1 else 0) ≤ n) :
    (Attempt.inContext context do
      ExceptT.mk (Program.request (.openCore written))
      put
      ExceptT.mk (Program.request (.commit written))).run.Works core n := by
  have opens : (Program.request (.openCore written) : Program ν _).Works core 0 :=
    ⟨trivial, Nat.le_refl 0, fun _ => works_done _⟩
  have commits : (Program.request (.commit written) : Program ν _).Works core n :=
    ⟨trivial, enough, fun _ => works_done _⟩
  have write := works_exceptBind (ε := IndexError) opens fun _ =>
    works_exceptBind puts fun _ => commits
  rw [Nat.zero_add, Nat.zero_add] at write
  exact write.bind (m := 0) fun _ => works_done _

theorem works_store {document : Option (Document ν)}
    (enough : (if written = core then 1 else 0) ≤ n) :
    (store context written document).run.Works core n := by
  cases document with
  | none =>
      have opens : (Attempt.inContext context (ExceptT.mk (Program.request (.openCore written))) :
          Attempt ν Unit).run.Makes Call.Reads :=
        Attempt.makes_inContext (Program.makes_request trivial)
      exact (makes_exceptBind opens fun _ => Program.makes_done _).works.mono (Nat.zero_le n)
  | some document =>
      rw [store_some]
      exact works_write ⟨trivial, Nat.le_refl 0, fun _ => trivial⟩ enough

theorem works_erase {id : String} (enough : (if written = core then 1 else 0) ≤ n) :
    (erase context written id : Attempt ν Unit).run.Works core n :=
  works_write ⟨trivial, Nat.le_refl 0, fun _ => trivial⟩ enough

theorem works_storeRanking {event : RankingEvent ν} {ranking : Ranking} :
    (manager.storeRanking context event ranking).Works manager.voteCore 1 :=
  (works_attempt (works_store (Nat.le_of_eq (if_pos rfl)))).bind fun _ => works_announce _

section Averages

variable (apart : core ≠ averageCore)
include apart

/-- Writing an average does not touch other cores. -/
theorem works_storeAverage {event : RankingEvent ν} {average : AverageRank ν} :
    (manager.storeAverage context event average).Works core 0 :=
  (works_attempt (works_store (Nat.le_of_eq (if_neg (Ne.symm apart))))).bind fun _ =>
    works_announce _

theorem works_storeChange {change : Option (AverageChange ν)} :
    (manager.storeChange context change).Works core 0 := by
  cases change with
  | none => exact works_pure _
  | some change => exact works_storeAverage apart

end Averages

variable [Scalar ν] (apart : manager.voteCore ≠ averageCore)
include apart

theorem works_eraseLocked {ranking : Ranking} :
    (manager.eraseLocked ranking : Change ν Unit).Works manager.voteCore 1 :=
  (works_attempt (works_erase (Nat.le_of_eq (if_pos rfl)))).bind fun _ =>
    (works_announce _).bind fun _ =>
      works_readBind reads_averageChange? fun _ => works_storeChange apart

theorem works_saveLocked {target : EntityReference} {voter : UserReference} {rank : UInt32} :
    (manager.saveLocked target voter rank : Change ν _).Works manager.voteCore 1 := by
  -- both for a first vote and for a later one
  have written {context : String} {ranking : Ranking} {event : RankingEvent ν}
      {change : AverageRank ν → Instant → AverageRank ν} :
      (do
        let change ← Change.attempt (manager.averageChange? target change)
        manager.storeRanking context event ranking
        manager.storeChange context change
        return some ranking : Change ν (Option Ranking)).Works manager.voteCore 1 :=
    works_readBind reads_averageChange? fun _ => works_storeRanking.bind fun _ =>
      (works_storeChange apart).bind fun _ => works_pure _
  refine works_readBind reads_oldest? fun found => ?_
  cases found with
  | none =>
      dsimp only
      split
      · exact fun _ => works_done _
      · exact works_readBind Attempt.reads_now fun _ =>
          works_readBind Attempt.reads_freshId fun _ => written
  | some existing =>
      dsimp only
      split
      · exact (works_eraseLocked apart).bind fun _ => works_pure _
      · exact works_readBind Attempt.reads_now fun _ => written

theorem works_removeLocked {id : String} :
    (manager.removeLocked id : Change ν Bool).Works manager.voteCore 1 := by
  refine works_readBind reads_oldest? fun found => ?_
  cases found with
  | none => exact fun _ => works_done _
  | some existing => exact (works_eraseLocked apart).bind fun _ => works_pure _

theorem works_recomputeLocked {target : EntityReference} :
    (manager.recomputeLocked target : Change ν _).Works manager.voteCore 1 := by
  refine works_readBind reads_allRankings fun votes => works_readBind reads_average fun before =>
    works_readBind Attempt.reads_now fun now => ?_
  dsimp only
  split
  · intro announced
    exact ((works_storeAverage apart).bind (fun _ => works_pure _) announced).mono (Nat.zero_le 1)
  · exact fun _ => works_done _

end Manager

end RankLedger
