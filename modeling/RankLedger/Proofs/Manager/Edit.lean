import RankLedger.Proofs.Manager.Writing

/-!
# Edits of the votes

Every change that a manager makes to its votes is one of three *edits*: a first vote is created, a
vote is revised, or a vote is erased.  An edit says which write it is, what is announced, and how
it changes the average.  What may become of an edit is listed once, for all three
(`Manager.Edited`): the write of the vote and the write of the average each can be refused, be
left waiting or be carried out, and the announcements tell of those carried out.
-/

namespace RankLedger

variable {ν : Type} [Scalar ν]

/-! ## 1. Edits -/

inductive Edit where
  | create (vote : Ranking)
  | revise (old : Ranking) (rank : UInt32) (now : Instant)
  | erase (old : Ranking)

namespace Edit

def record : Edit → Ranking
  | create vote => vote
  | revise old rank now => old.revise rank now
  | erase old => old

def write : Edit → CoreWrite ν
  | create vote => .add vote.toDocument
  | revise old rank now => .add (old.revise rank now).toDocument
  | erase old => .delete old.id

def event : Edit → RankingEvent ν
  | create _ => .created
  | revise old _ _ => .updated old.rank
  | erase _ => .deleted

def change : Edit → AverageRank ν → Instant → AverageRank ν
  | create vote, average, now => average.addVote vote.rank now
  | revise old rank _, average, now => average.exchangeVote old.rank rank now
  | erase old, average, now => average.removeVote old.rank now

/-- An average that was changed bears the date of the change. -/
theorem updated_change (edit : Edit) (average : AverageRank ν) (now : Instant) :
    (edit.change average now).updated = now := by
  cases edit with
  | create vote => rfl
  | revise old rank _ =>
      show (average.exchangeVote old.rank rank now).updated = now
      unfold AverageRank.exchangeVote
      split <;> rfl
  | erase old =>
      show (average.removeVote old.rank now).updated = now
      unfold AverageRank.removeVote
      split <;> rfl

def answer : Edit → Option Ranking
  | create vote => some vote
  | revise old rank now => some (old.revise rank now)
  | erase _ => none

/-- An edit that leaves a vote is about it. -/
theorem record_of_answer {edit : Edit} {vote : Ranking} (h : edit.answer = some vote) :
    edit.record = vote := by
  cases edit with
  | create _ => cases h; rfl
  | revise _ _ _ => cases h; rfl
  | erase _ => cases h

omit [Scalar ν] in
/-- An edit that leaves a vote writes it. -/
theorem write_of_answer {edit : Edit} {vote : Ranking} (h : edit.answer = some vote) :
    (edit.write : CoreWrite ν) = .add vote.toDocument := by
  cases edit with
  | create _ => cases h; rfl
  | revise _ _ _ => cases h; rfl
  | erase _ => cases h

end Edit

variable {faults : Call ν → Prop} {before after : World ν}

/-- An answer is given if the work was done, and an error if not. -/
def Settles {α : Type} (done : Bool) (answer : α) (result : Except RankingError α) : Prop :=
  if done then result = .ok answer else ∃ error, result = .error error

/-- Work that ended is done or not, whatever is answered after it. -/
theorem Settles.map {α β : Type} {done : Bool} {first : α} {result : Except RankingError α}
    (h : Settles done first result) (answer : β) :
    Settles done answer (result.map fun _ => answer) := by
  cases done with
  | true =>
      obtain rfl : result = .ok first := h
      rfl
  | false =>
      obtain ⟨error, rfl⟩ := h
      exact ⟨error, rfl⟩

namespace Manager

variable {manager : Manager}

/-! ## 2. What becomes of an edit -/

def ReadWithin (manager : Manager) (target : EntityReference) (before : World ν)
    (average : AverageRank ν) (after : World ν) : Prop :=
  ∃ first last, first.core averageCore = before.core averageCore ∧
    before.given <+: first.given ∧ manager.Reads target first average last ∧
    last.given <+: after.given

inductive Edited (faults : Call ν → Prop) (manager : Manager) (edit : Edit) (before : World ν) :
    Bool → List (Notification ν) → World ν → Prop
  /-- Nothing was written. -/
  | untouched {after : World ν} :
      manager.Unread faults edit.record.target (before.core averageCore) →
      before.Idle after → Edited faults manager edit before false [] after
  /-- The write of the vote waits for another commit. -/
  | waiting {after : World ν} : faults (.commit manager.voteCore) →
      (before.push manager.voteCore edit.write).Idle after →
      Edited faults manager edit before false [] after
  /-- The vote was written; nothing was written of the average. -/
  | torn {after : World ν} : manager.Unread faults edit.record.target (before.core averageCore) →
      (before.carryOut manager.voteCore edit.write).Idle after →
      Edited faults manager edit before false [manager.tells edit.event edit.record] after
  /-- The vote was written; the write of the average waits for another commit. -/
  | tornWaiting {old : AverageRank ν} {now : Instant} {after : World ν} :
      faults (.commit averageCore) →
      ((before.carryOut manager.voteCore edit.write).push averageCore
        (.add (edit.change old now).toDocument)).Idle after →
      manager.ReadWithin edit.record.target before old after →
      Edited faults manager edit before false [manager.tells edit.event edit.record] after
  /-- The vote was written, and no average is kept. -/
  | plain {after : World ν} : manager.configuration.storeAverage = false →
      (before.carryOut manager.voteCore edit.write).Idle after →
      Edited faults manager edit before true [manager.tells edit.event edit.record] after
  /-- The vote and the average were written. -/
  | full {old : AverageRank ν} {now : Instant} {after : World ν} :
      manager.configuration.storeAverage = true → now.IsWhole →
      manager.ReadWithin edit.record.target before old after →
      ((before.carryOut manager.voteCore edit.write).carryOut averageCore
        (.add (edit.change old now).toDocument)).Idle after →
      Edited faults manager edit before true
        [manager.tells edit.event edit.record, manager.tellsAverage old (edit.change old now)]
        after

/-- What was read after some idling was read after what went before. -/
theorem ReadWithin.of_idle {target : EntityReference} {average : AverageRank ν} {middle : World ν}
    (idle : before.Idle middle) (h : manager.ReadWithin target middle average after) :
    manager.ReadWithin target before average after := by
  obtain ⟨first, last, core, given, reads, given'⟩ := h
  exact ⟨first, last, core.trans (congrFun idle.core _), idle.given.trans given, reads, given'⟩

/-- What happens after some idling could have happened before it. -/
theorem Edited.of_idle {edit : Edit} {middle : World ν} (idle : before.Idle middle) {done : Bool}
    {news : List (Notification ν)} (h : manager.Edited faults edit middle done news after) :
    manager.Edited faults edit before done news after := by
  cases h with
  | untouched reason h => exact .untouched (idle.core ▸ reason) (idle.trans h)
  | waiting reason h => exact .waiting reason ((idle.push _ _).trans h)
  | torn reason h => exact .torn (idle.core ▸ reason) ((idle.carryOut _ _).trans h)
  | tornWaiting reason h read =>
      exact .tornWaiting reason (((idle.carryOut _ _).push _ _).trans h) (read.of_idle idle)
  | plain off h => exact .plain off ((idle.carryOut _ _).trans h)
  | full on whole read h =>
      exact .full on whole (read.of_idle idle) (((idle.carryOut _ _).carryOut _ _).trans h)

section Last

variable {context : String} {told said : List (Notification ν)} {result : Except RankingError Unit}

/-- The last part of an edit, if the average changes from `old` to `new`. -/
theorem yields_storeChange_some {old new : AverageRank ν} (dated : new.updated.IsDate)
    (h : ((manager.storeChange context (some
        { average := new, event := .averageUpdated old.average old.number })).run.run told).Yields
      (World.Answers faults) before (result, said) after) :
    Ends (fun _ state => state = (told ++ [manager.tellsAverage old new],
        before.carryOut averageCore (.add new.toDocument)))
      (fun state => state.1 = told ∧
        World.Lost faults averageCore (.add new.toDocument) before state.2)
      result (said, after) :=
  yields_storeAverage dated h

/-- The average is written when the vote has been.  It was read at some moment before, in a world
    that had the averages of `before`. -/
theorem Edited.of_change {edit : Edit} {change : Option (AverageChange ν)}
    {first last written : World ν}
    (averages : first.core averageCore = before.core averageCore)
    (given : before.given <+: first.given)
    (prepared : manager.Prepared edit.record.target edit.change first change last)
    (later : last.given <+: written.given)
    (idle : (before.carryOut manager.voteCore edit.write).Idle written)
    (h : ((manager.storeChange context change).run.run
        [manager.tells edit.event edit.record]).Yields
      (World.Answers faults) written (result, said) after) :
    ∃ done, manager.Edited faults edit before done said after ∧ Settles done () result := by
  -- without an average to keep, the vote is all there is to write
  cases prepared with
  | none off =>
      obtain ⟨same, rfl⟩ := h
      cases same
      exact ⟨true, .plain off idle, rfl⟩
  | @some old middle instant on reads =>
      have dated : (edit.change old instant.truncated).updated.IsDate := by
        rw [edit.updated_change]
        exact instant.isDate_truncated
      cases yields_storeChange_some dated h with
      | ok right =>
          cases right
          refine ⟨true, .full on instant.isWhole_truncated ?_ (idle.carryOut _ _), rfl⟩
          exact ⟨first, middle, averages, given, reads, later⟩
      | error lost =>
          obtain ⟨rfl, lost⟩ := lost
          cases lost with
          | refused reason => exact ⟨false, .torn (.inl reason) idle, _, rfl⟩
          | waiting reason =>
              exact ⟨false, .tornWaiting reason (idle.push _ _)
                ⟨first, middle, averages, given, reads, later⟩, _, rfl⟩

end Last

section Edits

variable {β : Type} {answer : β} {context : String} (named : manager.voteCore ≠ "")
include named

/-- **Writing a vote**, a first one or a revised one, and then the average that was worked out
    before. -/
theorem yields_edit (edit : Edit) {vote : Ranking} (leaves : edit.answer = some vote)
    (made : (vote.toDocument? : Option (Document ν)) = some vote.toDocument)
    {outcome : Except RankingError β × List (Notification ν)}
    (h : ((do
        let change ← Change.attempt (manager.averageChange? edit.record.target edit.change)
        manager.storeRanking context edit.event vote
        manager.storeChange context change
        pure answer : Change ν β).run.run []).Yields (World.Answers faults) before outcome after) :
    ∃ done, manager.Edited faults edit before done outcome.2 after ∧
      Settles done answer outcome.1 := by
  have write : (edit.write : CoreWrite ν) = _ := Edit.write_of_answer leaves
  obtain rfl := Edit.record_of_answer leaves
  obtain ⟨⟨_, rfl⟩, reason, rfl⟩ | ⟨change, first, prepared, storing⟩ :=
    Change.yields_attemptBind_of_ends yields_averageChange? h
  · exact ⟨false, .untouched reason (World.Idle.refl _), _, rfl⟩
  · obtain ⟨_, said, rfl, rfl, lost⟩ | ⟨_, said, second, stored, changing⟩ :=
      Change.yields_bind_of_ends (yields_storeRanking named made) storing
    · cases lost with
      | refused reason => exact ⟨false, .untouched (.inl reason) prepared.idle, _, rfl⟩
      | waiting reason =>
          refine ⟨false, .waiting reason ?_, _, rfl⟩
          rw [write]
          exact prepared.idle.push _ _
    · cases stored
      have written : (before.carryOut manager.voteCore edit.write).Idle
          (first.carryOut manager.voteCore (.add edit.record.toDocument)) := by
        rw [write]
        exact prepared.idle.carryOut _ _
      -- what the average was worked out from is from before the vote was written
      have later : first.given <+: (first.carryOut manager.voteCore
          (.add edit.record.toDocument)).given := List.prefix_rfl
      obtain ⟨result, last, same⟩ := Change.yields_bindPure.1 changing
      obtain ⟨done, edited, settles⟩ :=
        Edited.of_change rfl List.prefix_rfl prepared later written last
      rw [same]
      exact ⟨done, edited, settles.map answer⟩

omit named in
/-- A vote that has no document is not written.  Its average may have been looked up before. -/
theorem yields_edit_of_none (edit : Edit) {vote : Ranking}
    (unmade : (vote.toDocument? : Option (Document ν)) = none)
    {outcome : Except RankingError β × List (Notification ν)}
    (h : ((do
        let change ← Change.attempt (manager.averageChange? edit.record.target edit.change)
        manager.storeRanking context edit.event vote
        manager.storeChange context change
        pure answer : Change ν β).run.run []).Yields (World.Answers faults) before outcome after) :
    (∃ error, outcome = (.error error, [])) ∧ before.Idle after := by
  obtain ⟨⟨error, rfl⟩, -, rfl⟩ | ⟨change, first, prepared, storing⟩ :=
    Change.yields_attemptBind_of_ends yields_averageChange? h
  · exact ⟨⟨error, rfl⟩, World.Idle.refl _⟩
  · obtain ⟨error, said, stored, rfl⟩ | ⟨_, _, _, stored, -⟩ := Change.yields_bind.1 storing
    · obtain ⟨-, rfl, rfl⟩ := yields_storeRanking_of_none unmade stored
      exact ⟨⟨error, rfl⟩, prepared.idle⟩
    · obtain ⟨⟨_, wrong⟩, -⟩ := yields_storeRanking_of_none unmade stored
      cases wrong

/-- **Erasing a vote**, and then working out and writing its average. -/
theorem yields_eraseLocked {old : Ranking} {result : Except RankingError Unit}
    {said : List (Notification ν)} (separate : averageCore ≠ manager.voteCore)
    (h : ((manager.eraseLocked old).run.run []).Yields (World.Answers faults) before (result, said)
      after) :
    ∃ done, manager.Edited faults (.erase old) before done said after ∧
      Settles done () result := by
  obtain ⟨⟨_, same⟩, lost⟩ | ⟨_, _, rfl, telling⟩ :=
    Change.yields_attemptBind_of_ends (yields_erase named) h
  · cases same
    cases lost with
    | refused reason => exact ⟨false, .untouched (.inl reason) (World.Idle.refl _), _, rfl⟩
    | waiting reason => exact ⟨false, .waiting reason (World.Idle.refl _), _, rfl⟩
  · obtain ⟨_, _, wrong, -⟩ | ⟨_, told, second, announced, preparing⟩ :=
      Change.yields_bind.1 telling
    · cases (Change.yields_announce.1 wrong).1
    · obtain ⟨same, rfl⟩ := Change.yields_announce.1 announced
      cases same
      -- the vote is gone already, and the averages are still those from before
      obtain ⟨⟨_, same⟩, reason, rfl⟩ | ⟨change, third, prepared, changing⟩ :=
        Change.yields_attemptBind_of_ends yields_averageChange? preparing
      · cases same
        rw [World.core_carryOut_of_ne _ _ _ separate] at reason
        exact ⟨false, .torn reason (World.Idle.refl _), _, rfl⟩
      · exact Edited.of_change (World.core_carryOut_of_ne _ _ _ separate) List.prefix_rfl
          prepared List.prefix_rfl prepared.idle changing

end Edits

end Manager

end RankLedger
