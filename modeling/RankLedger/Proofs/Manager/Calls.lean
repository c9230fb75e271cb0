import RankLedger.Proofs.Manager.Edit

/-!
# What the calls of a manager do

`Manager.yields_save`, `Manager.yields_remove` and `Manager.yields_recompute` say, for any world
whose votes are known, which edit a call makes, if any, what it answers, and what it leaves.
Everything else in these programs is reading.
-/

namespace RankLedger

variable {ν : Type} [Scalar ν] {faults : Call ν → Prop} {before after : World ν}

namespace Manager

/-! ## 1. Where a manager keeps its votes -/

/-- The votes of the manager have a core that can be opened, apart from the averages. -/
structure IsPlaced (manager : Manager) : Prop where
  named : manager.voteCore ≠ ""
  separate : manager.voteCore ≠ averageCore

/-- Every manager that can be set up keeps its votes apart from the averages. -/
theorem isPlaced_of_create? {identifier : String} {configuration : Configuration}
    {locks : LockService} {manager : Manager}
    (h : create? identifier configuration locks = .ok manager) : manager.IsPlaced := by
  unfold create? at h
  split at h
  · cases h
  · rename_i allowed
    cases h
    -- a core of its own bears the name of the manager, which was checked for this
    cases hd : configuration.dedicatedStore with
    | true =>
        have core : ({ identifier, configuration, locks } : Manager).voteCore = identifier :=
          if_pos hd
        simp only [hd, isStoreName, Bool.true_and, Bool.not_eq_true', Bool.not_eq_false,
          Bool.and_eq_true, bne_iff_ne] at allowed
        constructor
        · rw [core]
          exact allowed.1.1
        · rw [core]
          exact allowed.2
    | false =>
        have core : ({ identifier, configuration, locks } : Manager).voteCore = rankingCore :=
          if_neg (by rw [hd]; exact Bool.false_ne_true)
        constructor
        · rw [core]
          decide
        · rw [core]
          decide

/-! ## 2. Saving -/

variable {manager : Manager}

def IsVoteOf (manager : Manager) (target : EntityReference) (voter : UserReference)
    (vote : Ranking) : Prop :=
  vote.manager = manager.identifier ∧ vote.target = target ∧ vote.voter = voter

/-- What saving a rank makes of the votes: nothing, or an edit.  A date is the first that the clock
    showed during the call, an identifier one that was handed out during the call. -/
inductive Saves (manager : Manager) (target : EntityReference) (voter : UserReference)
    (rank : UInt32) (votes : List Ranking) (before after : World ν) : Option Edit → Prop
  /-- A zero that is not stored, and no vote to take away. -/
  | ignored : (∀ vote ∈ votes, ¬ manager.IsVoteOf target voter vote) →
      manager.isNoVote rank = true → Saves manager target voter rank votes before after none
  | first {id : String} {instant : Instant} :
      (∀ vote ∈ votes, ¬ manager.IsVoteOf target voter vote) → manager.isNoVote rank = false →
      id ∉ before.given → id ∈ after.given → before.shown ++ [instant] <+: after.shown →
      Saves manager target voter rank votes before after (some (.create (Ranking.create id
        manager.identifier target voter rank manager.scale instant.truncated)))
  /-- A zero that is not stored takes the vote away. -/
  | withdrawn {old : Ranking} : old ∈ votes → manager.IsVoteOf target voter old →
      manager.isNoVote rank = true →
      Saves manager target voter rank votes before after (some (.erase old))
  | revised {old : Ranking} {instant : Instant} : old ∈ votes →
      manager.IsVoteOf target voter old → manager.isNoVote rank = false →
      before.shown ++ [instant] <+: after.shown →
      Saves manager target voter rank votes before after
        (some (.revise old rank instant.truncated))

/-- An edit takes its time, and nobody hears of it before it is over. -/
theorem Edited.meanwhile {edit : Edit} {done : Bool} {news : List (Notification ν)}
    (h : manager.Edited faults edit before done news after) :
    before.given <+: after.given ∧ before.shown <+: after.shown ∧ after.heard = before.heard := by
  cases h with
  | untouched _ idle => exact ⟨idle.given, idle.shown, idle.heard⟩
  | waiting _ idle => exact ⟨idle.given, idle.shown, idle.heard⟩
  | torn _ idle => exact ⟨idle.given, idle.shown, idle.heard⟩
  | tornWaiting _ idle => exact ⟨idle.given, idle.shown, idle.heard⟩
  | plain _ idle => exact ⟨idle.given, idle.shown, idle.heard⟩
  | full _ _ _ idle => exact ⟨idle.given, idle.shown, idle.heard⟩

inductive Decides (manager : Manager) (target : EntityReference) (voter : UserReference)
    (rank : UInt32) (before after : World ν) : Option Ranking → Option Edit → Prop
  | ignored : manager.isNoVote rank = true →
      Decides manager target voter rank before after none none
  | first {id : String} {instant : Instant} : manager.isNoVote rank = false →
      id ∉ before.given → id ∈ after.given → before.shown ++ [instant] <+: after.shown →
      Decides manager target voter rank before after none (some (.create (Ranking.create id
        manager.identifier target voter rank manager.scale instant.truncated)))
  | withdrawn {old : Ranking} : manager.isNoVote rank = true →
      Decides manager target voter rank before after (some old) (some (.erase old))
  | revised {old : Ranking} {instant : Instant} : manager.isNoVote rank = false →
      before.shown ++ [instant] <+: after.shown →
      Decides manager target voter rank before after (some old)
        (some (.revise old rank instant.truncated))

section Locked

variable (placed : manager.IsPlaced)
include placed

/-- **Deciding.** The vote of the user is looked up, and then at most one edit is made.  A vote that
    is found has to be one on the target, because the edit is on the vote's own.  If its first date
    cannot be stored again, the vote cannot be revised. -/
theorem decides_of_yields_saveLocked {target : EntityReference} {voter : UserReference}
    {rank : UInt32}
    (onTarget : ∀ old first, (manager.vote? target voter).run.Yields (World.Answers faults) before
      (.ok (some old)) first → old.target = target)
    {outcome : Except RankingError (Option Ranking) × List (Notification ν)}
    (h : ((manager.saveLocked target voter rank).run.run []).Yields (World.Answers faults) before
      outcome after) :
    (∃ error, (manager.vote? target voter).run.Yields (World.Answers faults) before
      (.error error) after ∧ outcome = (.error error, [])) ∨
    ∃ found first, (manager.vote? target voter).run.Yields (World.Answers faults) before
      (.ok found) first ∧
      ((manager.Decides target voter rank first after found none ∧ outcome = (.ok none, []) ∧
        after = first) ∨
      (∃ old error, found = some old ∧ ¬ old.created.IsDate ∧ outcome = (.error error, []) ∧
        first.Idle after) ∨
      ∃ edit done, manager.Decides target voter rank first after found (some edit) ∧
        manager.Edited faults edit first done outcome.2 after ∧
        Settles done edit.answer outcome.1) := by
  obtain ⟨error, failed, rfl⟩ | ⟨found, first, looked, deciding⟩ := Change.yields_attemptBind.1 h
  · exact .inl ⟨error, failed, rfl⟩
  · refine .inr ⟨found, first, looked, ?_⟩
    cases found with
    | none =>
        dsimp only at deciding
        split at deciding
        · rename_i noVote
          obtain ⟨rfl, rfl⟩ := deciding
          exact .inl ⟨.ignored noVote, rfl, rfl⟩
        · rename_i isVote
          obtain ⟨instant, -, making⟩ := World.yields_now_bindChange deciding
          obtain ⟨id, fresh, editing⟩ := World.yields_freshId_bindChange making
          have dated : (Ranking.create id manager.identifier target voter rank manager.scale
              instant.truncated).IsDated := ⟨instant.isDate_truncated, instant.isDate_truncated⟩
          obtain ⟨done, edited, settles⟩ := yields_edit placed.named (.create _) rfl
            (Ranking.toDocument?_eq_some dated) editing
          -- the clock was read and the identifier made before the edit began
          have later := edited.meanwhile
          refine .inr (.inr ⟨_, done, ?_, edited.of_idle ?_, settles⟩)
          · refine .first (Bool.eq_false_iff.2 isVote) fresh ?_ later.2.1
            exact later.1.subset (List.mem_append_right _ List.mem_cons_self)
          · exact ⟨rfl, rfl, List.prefix_append .., List.prefix_append ..⟩
    | some old =>
        right
        dsimp only at deciding
        split at deciding
        · rename_i noVote
          obtain ⟨result, erasing, same⟩ := Change.yields_bindPure.1 deciding
          obtain ⟨done, edited, settles⟩ :=
            yields_eraseLocked placed.named placed.separate.symm erasing
          rw [same]
          exact .inr ⟨_, done, .withdrawn noVote, edited, settles.map none⟩
        · rename_i isVote
          obtain ⟨instant, -, editing⟩ := World.yields_now_bindChange deciding
          -- the program speaks of the target it was asked for, the edit of the vote's own
          obtain rfl := onTarget old first looked
          have looking : first.Idle { first with shown := first.shown ++ [instant] } :=
            ⟨rfl, rfl, List.prefix_rfl, List.prefix_append ..⟩
          cases made : ((old.revise rank instant.truncated).toDocument? :
              Option (Document ν)) with
          | none =>
              obtain ⟨⟨error, same⟩, idle⟩ :=
                yields_edit_of_none (.revise old rank instant.truncated) made editing
              refine .inl ⟨old, error, rfl, fun created => ?_, same, looking.trans idle⟩
              have dated : (old.revise rank instant.truncated).IsDated :=
                ⟨created, instant.isDate_truncated⟩
              rw [Ranking.toDocument?_eq_some dated] at made
              cases made
          | some document =>
              obtain rfl := Ranking.eq_toDocument_of_toDocument? made
              obtain ⟨done, edited, settles⟩ :=
                yields_edit placed.named (.revise old rank instant.truncated) rfl made editing
              refine .inr ⟨_, done, ?_, edited.of_idle looking, settles⟩
              exact .revised (Bool.eq_false_iff.2 isVote) edited.meanwhile.2.1

variable {votes : List Ranking} (holds : (before.core manager.voteCore).HoldsVotes votes)
include holds

theorem yields_saveLocked {target : EntityReference} {voter : UserReference} {rank : UInt32}
    {outcome : Except RankingError (Option Ranking) × List (Notification ν)}
    (h : ((manager.saveLocked target voter rank).run.run []).Yields (World.Answers faults) before
      outcome after) :
    ((∃ error, outcome = (.error error, [])) ∧ World.Unreliable faults ∧ after = before) ∨
    (manager.Saves target voter rank votes before after none ∧ outcome = (.ok none, []) ∧
      after = before) ∨
    ∃ edit done, manager.Saves target voter rank votes before after (some edit) ∧
      manager.Edited faults edit before done outcome.2 after ∧
      Settles done edit.answer outcome.1 := by
  have looks {result : Except RankingError (Option Ranking)} {first : World ν}
      (looked : (manager.vote? target voter).run.Yields (World.Answers faults) before result first) :=
    yields_vote? placed.named holds looked
  have onTarget : ∀ old first, (manager.vote? target voter).run.Yields (World.Answers faults) before
      (.ok (some old)) first → old.target = target := by
    intro old first looked
    cases looks looked with
    | ok right => exact right.2.2.2.1
  obtain ⟨error, failed, rfl⟩ | ⟨found, first, looked, decided⟩ :=
    decides_of_yields_saveLocked placed onTarget h
  · cases looks failed with
    | error wrong => exact .inl ⟨⟨error, rfl⟩, wrong.2, wrong.1⟩
  · cases looks looked with
    | ok right =>
        obtain ⟨rfl, answers⟩ := right
        right
        obtain ⟨decides, right, rfl⟩ | ⟨old, _, rfl, undated, -⟩ |
          ⟨edit, done, decides, edited, settles⟩ := decided
        · cases decides with
          | ignored noVote => exact .inl ⟨.ignored answers noVote, right, rfl⟩
        · exact absurd (holds.whole old answers.1).1.isDate undated
        · refine .inr ⟨edit, done, ?_, edited, settles⟩
          cases decides with
          | first isVote fresh given shown => exact .first answers isVote fresh given shown
          | withdrawn noVote => exact .withdrawn answers.1 answers.2 noVote
          | revised isVote shown => exact .revised answers.1 answers.2 isVote shown

/-- **Saving** validates the vote, and then makes at most one edit. -/
theorem yields_save {target : EntityReference} {voter : UserReference} {vote : Int}
    {result : Except RankingError (Option Ranking)}
    (h : (manager.save target voter vote).run.Yields (World.Answers faults) before result after) :
    (∃ error, manager.validate vote = .error error ∧ result = .error error ∧ after = before) ∨
    ∃ rank, manager.validate vote = .ok rank ∧
      (((∃ error, result = .error error) ∧ World.Unreliable faults ∧ after = before) ∨
      (manager.Saves target voter rank votes before after none ∧ result = .ok none ∧
        after = before) ∨
      ∃ edit done news middle, manager.Saves target voter rank votes before middle (some edit) ∧
        manager.Edited faults edit before done news middle ∧ after = middle.hear news ∧
        Settles done edit.answer result) := by
  obtain ⟨error, invalid, rfl⟩ | ⟨rank, first, valid, locking⟩ := yields_exceptBind.1 h
  · obtain ⟨same, rfl⟩ := Attempt.yields_ofExcept.1 invalid
    exact .inl ⟨error, same.symm, rfl, rfl⟩
  · obtain ⟨same, rfl⟩ := Attempt.yields_ofExcept.1 valid
    -- a valid vote is saved under the lock of the target
    refine .inr ⟨rank, same.symm, ?_⟩
    obtain failed | ⟨news, middle, worked, rfl⟩ := yields_locked locking
    · exact .inl failed
    · obtain ⟨⟨error, wrong⟩, reason, rfl⟩ | ⟨ignored, right, rfl⟩ |
        ⟨edit, done, saves, edited, settles⟩ := yields_saveLocked placed holds worked
      · cases wrong
        exact .inl ⟨⟨_, rfl⟩, reason, World.hear_nil _⟩
      · cases right
        rw [World.hear_nil]
        exact .inr (.inl ⟨ignored, rfl, rfl⟩)
      · exact .inr (.inr ⟨edit, done, news, middle, saves, edited, rfl, settles⟩)

/-! ## 3. Removing -/

theorem yields_removeLocked {id : String}
    {outcome : Except RankingError Bool × List (Notification ν)}
    (h : ((manager.removeLocked id).run.run []).Yields (World.Answers faults) before outcome
      after) :
    ((∃ error, outcome = (.error error, [])) ∧ World.Unreliable faults ∧ after = before) ∨
    ((∀ vote ∈ votes, ¬ (vote.manager = manager.identifier ∧ vote.id = id)) ∧
      outcome = (.ok false, []) ∧ after = before) ∨
    ∃ old ∈ votes, (old.manager = manager.identifier ∧ old.id = id) ∧
      ∃ done, manager.Edited faults (.erase old) before done outcome.2 after ∧
        Settles done true outcome.1 := by
  obtain ⟨failed, rfl, reason⟩ | ⟨found, _, ⟨rfl, answers⟩, deciding⟩ :=
    Change.yields_attemptBind_of_ends (yields_find? placed.named holds) h
  · exact .inl ⟨failed, reason, rfl⟩
  · right
    cases found with
    | none =>
        obtain ⟨rfl, rfl⟩ := deciding
        exact .inl ⟨answers, rfl, rfl⟩
    | some old =>
        obtain ⟨result, erasing, same⟩ := Change.yields_bindPure.1 deciding
        obtain ⟨done, edited, settles⟩ :=
          yields_eraseLocked placed.named placed.separate.symm erasing
        rw [same]
        exact .inr ⟨old, answers.1, answers.2, done, edited, settles.map true⟩

/-- **Removing** erases the vote of an identifier, if the manager has it. -/
theorem yields_remove {id : String} {result : Except RankingError Bool}
    (h : (manager.remove id).run.Yields (World.Answers faults) before result after) :
    ((∃ error, result = .error error) ∧ World.Unreliable faults ∧ after = before) ∨
    ((∀ vote ∈ votes, ¬ (vote.manager = manager.identifier ∧ vote.id = id)) ∧
      result = .ok false ∧ after = before) ∨
    ∃ old ∈ votes, (old.manager = manager.identifier ∧ old.id = id) ∧
      ∃ done news middle, manager.Edited faults (.erase old) before done news middle ∧
        after = middle.hear news ∧ Settles done true result := by
  obtain ⟨failed, rfl, reason⟩ | ⟨found, _, ⟨rfl, answers⟩, locking⟩ :=
    yields_bind_of_ends (yields_find? placed.named holds) h
  · exact .inl ⟨failed, reason, rfl⟩
  · cases found with
    | none =>
        obtain ⟨rfl, rfl⟩ := locking
        exact .inr (.inl ⟨answers, rfl, rfl⟩)
    | some seen =>
        obtain failed | ⟨news, middle, worked, rfl⟩ := yields_locked locking
        · exact .inl failed
        · obtain ⟨⟨error, wrong⟩, reason, rfl⟩ | ⟨absent, -⟩ |
            ⟨old, mem, own, done, edited, settles⟩ := yields_removeLocked placed holds worked
          · cases wrong
            exact .inl ⟨⟨_, rfl⟩, reason, World.hear_nil _⟩
          · -- the vote that was seen without the lock is still there under it
            exact absurd answers.2 (absent seen answers.1)
          · exact .inr (.inr ⟨old, mem, own, done, news, middle, edited, rfl, settles⟩)

end Locked

/-! ## 4. Rebuilding -/

def counts (manager : Manager) (target : EntityReference) (vote : Ranking) : Bool :=
  decide (vote.manager = manager.identifier ∧ vote.target = target)

theorem counts_iff {target : EntityReference} {vote : Ranking} :
    manager.counts target vote = true ↔
      vote.manager = manager.identifier ∧ vote.target = target :=
  decide_eq_true_iff

theorem finds_target {target : EntityReference} :
    manager.finds ν (RankingQuery.empty.target target) = manager.counts target := by
  funext vote
  rw [Bool.eq_iff_iff, finds_iff, RankingQuery.matches_target, counts, decide_eq_true_iff]

inductive Rebuilt (faults : Call ν → Prop) (manager : Manager) (target : EntityReference)
    (votes : List Ranking) (before : World ν) :
    Except RankingError (AverageRank ν) → List (Notification ν) → World ν → Prop
  /-- Nothing was written. -/
  | untouched {error : RankingError} {after : World ν} :
      manager.Unread faults target (before.core averageCore) → before.Idle after →
      Rebuilt faults manager target votes before (.error error) [] after
  /-- The write of the average waits for another commit. -/
  | waiting {error : RankingError} {old : AverageRank ν} {sum number : Nat} {now : Instant}
      {after : World ν} : faults (.commit averageCore) →
      (before.push averageCore (.add (old.reset sum number now).toDocument)).Idle after →
      manager.ReadWithin target before old after →
      Rebuilt faults manager target votes before (.error error) [] after
  /-- The average was computed, and averages are not kept. -/
  | computed {old : AverageRank ν} {counted : List Ranking} {now : Instant} {after : World ν} :
      manager.configuration.storeAverage = false → before.Idle after →
      counted.Perm (votes.filter (manager.counts target)) →
      Rebuilt faults manager target votes before
        (.ok (old.reset (Ranking.rankSum counted) counted.length now)) [] after
  /-- The average was computed and written. -/
  | full {old : AverageRank ν} {counted : List Ranking} {now : Instant} {after : World ν} :
      manager.configuration.storeAverage = true → now.IsWhole →
      counted.Perm (votes.filter (manager.counts target)) →
      manager.ReadWithin target before old after →
      (before.carryOut averageCore (.add (old.reset (Ranking.rankSum counted) counted.length
        now).toDocument)).Idle after →
      Rebuilt faults manager target votes before
        (.ok (old.reset (Ranking.rankSum counted) counted.length now))
        [manager.tellsAverage old (old.reset (Ranking.rankSum counted) counted.length now)] after

/-- Rebuilding takes its time, and nobody hears of it before it is over. -/
theorem Rebuilt.meanwhile {target : EntityReference} {votes : List Ranking}
    {result : Except RankingError (AverageRank ν)} {news : List (Notification ν)}
    (h : manager.Rebuilt faults target votes before result news after) :
    before.given <+: after.given ∧ after.heard = before.heard := by
  cases h with
  | untouched _ idle => exact ⟨idle.given, idle.heard⟩
  | waiting _ idle _ => exact ⟨idle.given, idle.heard⟩
  | computed _ idle => exact ⟨idle.given, idle.heard⟩
  | full _ _ _ _ idle => exact ⟨idle.given, idle.heard⟩

section Rebuild

variable {votes : List Ranking} (placed : manager.IsPlaced)
  (holds : (before.core manager.voteCore).HoldsVotes votes)
include placed holds

theorem yields_recomputeLocked {target : EntityReference}
    {outcome : Except RankingError (AverageRank ν) × List (Notification ν)}
    (h : ((manager.recomputeLocked target).run.run []).Yields (World.Answers faults) before outcome
      after) :
    manager.Rebuilt faults target votes before outcome.1 outcome.2 after := by
  obtain ⟨⟨_, rfl⟩, rfl, reason⟩ | ⟨counted, first, ⟨rfl, rfl⟩, reading⟩ :=
    Change.yields_attemptBind_of_ends
      (yields_allRankings placed.named (RankingQuery.fits_target _) (holds.isLegible _)) h
  · exact .untouched (.inl reason) (World.Idle.refl _)
  · have perm := (manager.search_listing (RankingQuery.empty.target target) .createdDate true
      holds).2
    rw [finds_target] at perm
    obtain ⟨⟨_, rfl⟩, reason, rfl⟩ | ⟨old, second, reads, looking⟩ :=
      Change.yields_attemptBind_of_ends yields_average reading
    · exact .untouched reason (World.Idle.refl _)
    · obtain ⟨instant, -, storing⟩ := World.yields_now_bindChange looking
      -- up to here nothing was written
      have idle : first.Idle { second with shown := second.shown ++ [instant] } :=
        ⟨reads.idle.core, reads.idle.heard, reads.idle.given,
          reads.idle.shown.trans (List.prefix_append ..)⟩
      dsimp only at storing
      split at storing
      · rename_i on
        obtain ⟨_, said, rfl, rfl, lost⟩ | ⟨_, said, last, stored, rfl, rfl⟩ :=
          Change.yields_bind_of_ends (yields_storeAverage instant.isDate_truncated) storing
        · cases lost with
          | refused reason => exact .untouched (.inl reason) idle
          | waiting reason =>
              exact .waiting reason (idle.push _ _)
                ⟨first, second, rfl, List.prefix_rfl, reads, List.prefix_rfl⟩
        · cases stored
          exact .full on instant.isWhole_truncated perm
            ⟨first, second, rfl, List.prefix_rfl, reads, List.prefix_rfl⟩ (idle.carryOut _ _)
      · rename_i off
        obtain ⟨rfl, rfl⟩ := storing
        exact .computed (Bool.eq_false_iff.2 off) idle perm

/-- **Rebuilding** counts the votes on a target, whatever the stored average says. -/
theorem yields_recompute {target : EntityReference} {result : Except RankingError (AverageRank ν)}
    (h : (manager.recompute target).run.Yields (World.Answers faults) before result after) :
    ∃ news middle, manager.Rebuilt faults target votes before result news middle ∧
      after = middle.hear news := by
  obtain ⟨⟨error, rfl⟩, reason, rfl⟩ | ⟨news, middle, worked, rfl⟩ := yields_locked h
  · exact ⟨[], after, .untouched (.inl reason) (World.Idle.refl _), (World.hear_nil _).symm⟩
  · exact ⟨news, middle, yields_recomputeLocked placed holds worked, rfl⟩

end Rebuild

end Manager

end RankLedger
