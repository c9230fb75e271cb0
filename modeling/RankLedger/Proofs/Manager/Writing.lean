import RankLedger.Manager.Write
import RankLedger.Proofs.Manager.Reading

/-!
# What writing leaves behind

A write is opened, added to the buffer of a core and committed.  It can fail at each of the three
points, and the third is unlike the others: a write whose commit failed stays in the buffer and
becomes visible with the next commit of the core, whoever makes it (`World.Lost`).  A write that
succeeds is carried out together with everything that was waiting before it.

Work under the lock of a target announces what it did; the announcements are heard when the lock
is free, whatever became of the work (`Manager.yields_locked`).
-/

namespace RankLedger

variable {ν : Type} [Scalar ν] {faults : Call ν → Prop} {before after : World ν}

theorem averageCore_ne_empty : averageCore ≠ "" := by decide

/-! ## 1. Single writes -/

inductive World.Lost (faults : Call ν → Prop) (core : String) (write : CoreWrite ν)
    (before : World ν) : World ν → Prop
  | refused : Unreliable faults → Lost faults core write before before
  | waiting : faults (.commit core) → Lost faults core write before (before.push core write)

namespace Manager

section Single

variable {context core : String} (named : core ≠ "") {result : Except RankingError Unit}
include named

/-- Opening a core, letting a write wait and committing it. -/
theorem yields_write {context : String} {write : CoreWrite ν}
    {put : ExceptT IndexError (Program ν) Unit}
    (puts : ∀ {before after : World ν} {answer : Except IndexError Unit},
      put.run.Yields (World.Answers faults) before answer after →
        Ends (fun _ after => after = before.push core write)
          (fun after => World.Unreliable faults ∧ after = before) answer after)
    (h : (Attempt.inContext context do
        ExceptT.mk (Program.request (.openCore core))
        put
        ExceptT.mk (Program.request (.commit core))).run.Yields
      (World.Answers faults) before result after) :
    Ends (fun _ after => after = before.carryOut core write)
      (World.Lost faults core write before) result after := by
  obtain ⟨answer, tried, rfl⟩ := Attempt.yields_inContext.1 h
  obtain ⟨_, opened, rfl⟩ | ⟨_, first, opened, rest⟩ := yields_exceptBind.1 tried
  · obtain ⟨reason, rfl⟩ := Program.yields_request.1 opened
    exact .error (.refused ⟨_, reason.resolve_left named⟩)
  · obtain ⟨-, rfl⟩ := Program.yields_request.1 opened
    obtain ⟨⟨_, rfl⟩, reason, rfl⟩ | ⟨_, _, rfl, committed⟩ := yields_bind_of_ends puts rest
    · exact .error (.refused reason)
    · cases answer with
      | ok _ => exact .ok (Program.yields_request.1 committed)
      | error error =>
          obtain ⟨reason, rfl⟩ := Program.yields_request.1 committed
          exact .error (.waiting reason)

theorem yields_store {document : Document ν}
    (h : (store context core (some document)).run.Yields (World.Answers faults) before result
      after) :
    Ends (fun _ after => after = before.carryOut core (.add document))
      (World.Lost faults core (.add document) before) result after := by
  rw [store_some] at h
  refine yields_write named ?_ h
  intro before after answer put
  replace put := Program.yields_request.1 put
  cases answer with
  | ok _ => exact .ok put
  | error error => exact .error ⟨⟨_, put.1⟩, put.2⟩

omit named in
/-- A document that cannot be made is not written. -/
theorem yields_store_none (h : (store context core none).run.Yields (World.Answers faults) before
      result after) : (∃ error, result = .error error) ∧ after = before := by
  obtain ⟨error, opening, rfl⟩ | ⟨_, _, opening, fitted⟩ := yields_exceptBind.1 h
  · obtain ⟨reply, opened, same⟩ := Attempt.yields_inContext.1 opening
    cases reply with
    | ok _ => cases same
    | error _ => exact ⟨⟨error, rfl⟩, (Program.yields_request.1 opened).2⟩
  · obtain ⟨reply, opened, same⟩ := Attempt.yields_inContext.1 opening
    cases reply with
    | ok _ =>
        obtain ⟨-, rfl⟩ := Program.yields_request.1 opened
        obtain ⟨error, broken, rfl⟩ | ⟨_, _, wrong, -⟩ := yields_exceptBind.1 fitted
        · exact ⟨⟨error, rfl⟩, (Attempt.yields_ofExcept.1 broken).2⟩
        · cases (Attempt.yields_ofExcept.1 wrong).1
    | error _ => cases same

theorem yields_erase {id : String}
    (h : (erase context core id).run.Yields (World.Answers faults) before result after) :
    Ends (fun _ after => after = before.carryOut core (.delete id))
      (World.Lost faults core (.delete id) before) result after := by
  refine yields_write named ?_ h
  intro before after answer put
  replace put := Program.yields_request.1 put
  cases answer with
  | ok _ => exact .ok put
  | error error => exact .error ⟨⟨_, put.1⟩, put.2⟩

end Single

/-! ## 2. Writes that are announced -/

section Announced

variable {manager : Manager} {context : String} {event : RankingEvent ν}
  {announced said : List (Notification ν)} {result : Except RankingError Unit}

/-- Storing a document and announcing it. -/
theorem yields_storeAndTell {core : String} (named : core ≠ "") {document : Document ν}
    {notification : Notification ν}
    (h : ((do
        Change.attempt (store context core (some document))
        Change.announce notification : Change ν PUnit).run.run announced).Yields
      (World.Answers faults) before (result, said) after) :
    Ends (fun _ state => state = (announced ++ [notification],
        before.carryOut core (.add document)))
      (fun state => state.1 = announced ∧ World.Lost faults core (.add document) before state.2)
      result (said, after) := by
  obtain ⟨⟨_, same⟩, lost⟩ | ⟨_, _, rfl, told⟩ :=
    Change.yields_attemptBind_of_ends (yields_store named) h
  · cases same
    exact .error ⟨rfl, lost⟩
  · obtain ⟨same, rfl⟩ := Change.yields_announce.1 told
    cases same
    exact .ok rfl

def tells (manager : Manager) (event : RankingEvent ν) (vote : Ranking) : Notification ν :=
  { event, source := manager.identifier, data := .ranking vote }

def tellsAverage (manager : Manager) (old new : AverageRank ν) : Notification ν :=
  { event := .averageUpdated old.average old.number
    source := manager.identifier
    data := .average new }

theorem yields_storeRanking (named : manager.voteCore ≠ "") {vote : Ranking}
    (made : (vote.toDocument? : Option (Document ν)) = some vote.toDocument)
    (h : ((manager.storeRanking context event vote).run.run announced).Yields
      (World.Answers faults) before (result, said) after) :
    Ends (fun _ state => state = (announced ++ [manager.tells event vote],
        before.carryOut manager.voteCore (.add vote.toDocument)))
      (fun state => state.1 = announced ∧
        World.Lost faults manager.voteCore (.add vote.toDocument) before state.2)
      result (said, after) := by
  rw [storeRanking, made] at h
  exact yields_storeAndTell named h

/-- A vote that has no document is not written, and nobody hears of it. -/
theorem yields_storeRanking_of_none {vote : Ranking}
    (unmade : (vote.toDocument? : Option (Document ν)) = none)
    (h : ((manager.storeRanking context event vote).run.run announced).Yields
      (World.Answers faults) before (result, said) after) :
    (∃ error, result = .error error) ∧ said = announced ∧ after = before := by
  rw [storeRanking, unmade] at h
  obtain ⟨error, stored, same⟩ | ⟨_, _, stored, -⟩ := Change.yields_attemptBind.1 h
  · cases same
    exact ⟨⟨error, rfl⟩, rfl, (yields_store_none stored).2⟩
  · obtain ⟨⟨_, wrong⟩, -⟩ := yields_store_none stored
    cases wrong

theorem yields_storeAverage {old new : AverageRank ν} (dated : new.updated.IsDate)
    (h : ((manager.storeAverage context (.averageUpdated old.average old.number) new).run.run
      announced).Yields (World.Answers faults) before (result, said) after) :
    Ends (fun _ state => state = (announced ++ [manager.tellsAverage old new],
        before.carryOut averageCore (.add new.toDocument)))
      (fun state => state.1 = announced ∧
        World.Lost faults averageCore (.add new.toDocument) before state.2)
      result (said, after) := by
  rw [storeAverage, AverageRank.toDocument?_eq_some dated] at h
  exact yields_storeAndTell averageCore_ne_empty h

end Announced

/-! ## 3. Changes of averages -/

section Averages

variable {manager : Manager} {target : EntityReference}
  {change : AverageRank ν → Instant → AverageRank ν}

/-- What may be worked out as the change of an average: none if no average is kept, and otherwise
    the change of the one that is read. -/
inductive Prepared (manager : Manager) (target : EntityReference)
    (change : AverageRank ν → Instant → AverageRank ν) (before : World ν) :
    Option (AverageChange ν) → World ν → Prop
  | none : manager.configuration.storeAverage = false →
      Prepared manager target change before none before
  | some {old : AverageRank ν} {middle : World ν} {instant : Instant} :
      manager.configuration.storeAverage = true → manager.Reads target before old middle →
      Prepared manager target change before
        (some { average := change old instant.truncated
                event := .averageUpdated old.average old.number })
        { middle with shown := middle.shown ++ [instant] }

/-- Working out a change of the average writes nothing. -/
theorem Prepared.idle {prepared : Option (AverageChange ν)}
    (h : manager.Prepared target change before prepared after) : before.Idle after := by
  cases h with
  | none => exact World.Idle.refl _
  | some _ reads =>
      exact ⟨reads.idle.core, reads.idle.heard, reads.idle.given,
        reads.idle.shown.trans (List.prefix_append ..)⟩

/-- Working out the change of an average reads the average and looks at the clock. -/
theorem yields_averageChange? {result : Except RankingError (Option (AverageChange ν))}
    (h : (manager.averageChange? target change).run.Yields (World.Answers faults) before result
      after) :
    Ends (manager.Prepared target change before)
      (fun after => manager.Unread faults target (before.core averageCore) ∧ after = before)
      result after := by
  unfold averageChange? at h
  split at h
  · rename_i keeps
    obtain ⟨⟨_, rfl⟩, reason⟩ | ⟨old, middle, reads, rest⟩ := yields_bind_of_ends yields_average h
    · exact .error reason
    · obtain ⟨instant, date, rfl, rfl⟩ := World.yields_now_bind rest
      exact .ok (.some keeps reads)
  · rename_i off
    obtain ⟨rfl, rfl⟩ := h
    exact .ok (.none (Bool.eq_false_iff.2 off))

end Averages

/-! ## 4. Work under a lock -/

theorem yields_getLock {service : LockService} {key : String}
    {result : Except RankingError LockId}
    (h : (Attempt.locking (Program.request (.getLock service key)) : Attempt ν LockId).run.Yields
      (World.Answers faults) before result after) :
    Ends (fun _ after => after = before) (fun after => World.Unreliable faults ∧ after = before)
      result after := by
  obtain ⟨answer, asked, rfl⟩ := Attempt.yields_locking.1 h
  replace asked := Program.yields_request.1 asked
  cases answer with
  | ok lock => exact .ok asked
  | error error => exact .error ⟨⟨_, asked.1⟩, asked.2⟩

theorem yields_acquire {service : LockService} {lock : LockId}
    {result : Except RankingError Unit}
    (h : (Attempt.locking (Program.request (.acquire service lock)) : Attempt ν Unit).run.Yields
      (World.Answers faults) before result after) :
    Ends (fun _ after => after = before) (fun after => World.Unreliable faults ∧ after = before)
      result after := by
  obtain ⟨answer, asked, rfl⟩ := Attempt.yields_locking.1 h
  replace asked := Program.yields_request.1 asked
  cases answer with
  | ok _ => exact .ok asked
  | error error => exact .error ⟨⟨_, asked.1⟩, asked.2⟩

/-- **Locks.** Either the lock is not got and nothing happens, or the work is done and all that
    it announced is heard. -/
theorem yields_locked {α : Type} {manager : Manager} {target : EntityReference}
    {work : Change ν α} {result : Except RankingError α}
    (h : (manager.locked target work).run.Yields (World.Answers faults) before result after) :
    ((∃ error, result = .error error) ∧ World.Unreliable faults ∧ after = before) ∨
      ∃ news middle, (work.run.run []).Yields (World.Answers faults) before (result, news) middle ∧
        after = middle.hear news := by
  obtain failed | ⟨lock, _, rfl, waiting⟩ := yields_bind_of_ends yields_getLock h
  · exact .inl failed
  · obtain failed | ⟨_, _, rfl, holding⟩ := yields_bind_of_ends yields_acquire waiting
    · exact .inl failed
    · -- the work cannot keep its errors from the steps that follow it
      obtain ⟨⟨outcome, news⟩, middle, worked, releasing⟩ := yields_liftBind.1 holding
      obtain ⟨_, freed, released, telling⟩ := yields_liftBind.1 releasing
      obtain rfl : freed = middle := Program.yields_request.1 released
      obtain ⟨_, told, delivered, last⟩ := yields_liftBind.1 telling
      obtain ⟨rfl, rfl⟩ := Attempt.yields_ofExcept.1 last
      exact .inr ⟨news, freed, worked, World.yields_deliver.1 delivered⟩

end Manager

end RankLedger
