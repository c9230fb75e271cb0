import RankLedger.Proofs.Manager.Finding
import RankLedger.Proofs.Threads.Requests
import RankLedger.Proofs.World.Commits

/-!
# What a request commits

Nothing is assumed here of the documents that the cores hold, only that no write is waiting when a
request begins.  Then every commit that the request attempts is of a single write, the one that it
is about to announce.  What the work of a request may come to is listed once, as the commits it
attempted together with what it will tell (`Request.Commits`).
-/

namespace RankLedger

variable {ν : Type}

/-! ## 1. Attempted commits -/

def World.IsFlushed (world : World ν) : Prop :=
  ∀ core, (world.core core).pending = []

structure Observed.Attempts (before : Observed ν) (made : List (Commit ν)) (after : Observed ν) :
    Prop where
  commits : after.commits = before.commits ++ made
  heard : after.world.heard = before.world.heard
  waiting : ∀ core, (after.world.core core).pending = Commit.waiting core made

namespace Observed.Attempts

variable {before middle after : Observed ν} {first second : List (Commit ν)}

theorem none (flushed : before.world.IsFlushed) : before.Attempts [] before :=
  ⟨(List.append_nil _).symm, rfl, flushed⟩

/-- Nothing is left to make visible if no commit failed. -/
theorem flushed (h : before.Attempts first after)
    (succeeded : ∀ commit ∈ first, commit.succeeded = true) : after.world.IsFlushed :=
  fun core => (h.waiting core).trans (Commit.waiting_eq_nil succeeded core)

theorem trans (h : before.Attempts first middle) (h' : middle.Attempts second after)
    (succeeded : ∀ commit ∈ first, commit.succeeded = true) :
    before.Attempts (first ++ second) after := by
  refine ⟨?_, h'.heard.trans h.heard, fun core => ?_⟩
  · rw [h'.commits, h.commits, List.append_assoc]
  · rw [h'.waiting, Commit.waiting_append, Commit.waiting_eq_nil succeeded, List.nil_append]

/-- Whatever is attempted can be attempted a little later. -/
theorem idle_trans (idle : before.Attempts [] middle) (h : middle.Attempts second after) :
    before.Attempts second after :=
  idle.trans h (List.forall_mem_nil _)

end Observed.Attempts

variable [Scalar ν] {faults : Call ν → Prop} {before after : Observed ν}

/-- Reading attempts nothing. -/
theorem Program.Makes.attempts {α : Type} {program : Program ν α} {outcome : α}
    (reads : program.Makes Call.Reads) (flushed : before.world.IsFlushed)
    (h : program.Yields (Observed.Answers faults) before outcome after) :
    before.Attempts [] after := by
  have idle := reads.idle (Observed.yields_world h)
  refine ⟨?_, idle.heard, fun core => ?_⟩
  · rw [Observed.commits_of_silent (reads.mono fun _ => Call.Reads.isSilent) h, List.append_nil]
  · rw [idle.core]
    exact flushed core

/-- What follows a part that only reads starts where nothing was attempted yet. -/
theorem Change.yields_readBind {α β : Type} {program : Attempt ν α} {f : α → Change ν β}
    {announced : List (Notification ν)} {outcome : Except RankingError β × List (Notification ν)}
    (reads : program.run.Makes Call.Reads) (flushed : before.world.IsFlushed)
    (h : ((Change.attempt program >>= f).run.run announced).Yields (Observed.Answers faults) before
      outcome after) :
    (∃ error, program.run.Yields (Observed.Answers faults) before (.error error) after ∧
      outcome = (.error error, announced) ∧ before.Attempts [] after) ∨
    ∃ value middle, program.run.Yields (World.Answers faults) before.world (.ok value)
        middle.world ∧ before.Attempts [] middle ∧ middle.world.IsFlushed ∧
      ((f value).run.run announced).Yields (Observed.Answers faults) middle outcome after := by
  obtain ⟨error, failed, same⟩ | ⟨value, middle, read, rest⟩ := Change.yields_attemptBind.1 h
  · exact .inl ⟨error, failed, same, reads.attempts flushed failed⟩
  · have idle := reads.attempts flushed read
    exact .inr ⟨value, middle, Observed.yields_world read, idle,
      idle.flushed (List.forall_mem_nil _), rest⟩

/-! ## 2. Single writes -/

omit [Scalar ν] in
/-- Where nothing was waiting, a write waits alone. -/
theorem World.pending_push (world : World ν) (flushed : world.IsFlushed) (core : String)
    (write : CoreWrite ν) (name : String) :
    ((world.push core write).core name).pending = if core = name then [write] else [] := by
  by_cases same : name = core
  · subst same
    rw [World.core_push_self, if_pos rfl, Core.push, flushed]
    rfl
  · rw [World.core_push_of_ne _ _ _ same, if_neg (Ne.symm same), flushed]

inductive Commit.Fails (core : String) (write : CoreWrite ν) : List (Commit ν) → Prop
  | refused : Fails core write []
  | failed : Fails core write [⟨core, [write], false⟩]

namespace Manager

section Single

variable {context core : String} {result : Except RankingError Unit}
  (flushed : before.world.IsFlushed)
include flushed

/-- Opening a core, letting a write wait and committing it. -/
theorem commits_write {write : CoreWrite ν} {put : ExceptT IndexError (Program ν) Unit}
    (puts : ∀ {before after : Observed ν} {answer : Except IndexError Unit},
      put.run.Yields (Observed.Answers faults) before answer after →
        Ends (fun _ after => after = ⟨before.world.push core write, before.commits⟩)
          (fun after => after = before) answer after)
    (h : (Attempt.inContext context do
        ExceptT.mk (Program.request (.openCore core))
        put
        ExceptT.mk (Program.request (.commit core))).run.Yields
      (Observed.Answers faults) before result after) :
    Ends (fun _ after => before.Attempts [⟨core, [write], true⟩] after)
      (fun after => ∃ made, Commit.Fails core write made ∧ before.Attempts made after)
      result after := by
  obtain ⟨answer, tried, rfl⟩ := Attempt.yields_inContext.1 h
  have opens {reply : Except IndexError Unit} {after : Observed ν}
      (opened : (Program.request (.openCore core)).Yields (Observed.Answers faults) before reply
        after) : after = before := by
    obtain ⟨answered, counted⟩ := Program.yields_request.1 opened
    refine Observed.ext ?_ (counted.trans (List.append_nil _))
    cases reply <;> exact answered.2
  obtain ⟨_, opened, rfl⟩ | ⟨_, _, opened, rest⟩ := yields_exceptBind.1 tried
  · rw [opens opened]
    exact .error ⟨[], .refused, .none flushed⟩
  · rw [opens opened] at rest
    obtain ⟨⟨_, rfl⟩, rfl⟩ | ⟨_, _, rfl, committed⟩ := yields_bind_of_ends puts rest
    · exact .error ⟨[], .refused, .none flushed⟩
    · obtain ⟨answered, counted⟩ := Program.yields_request.1 committed
      -- nothing else was waiting, so the commit is about this write alone
      have pending := before.world.pending_push flushed core write
      cases answer with
      | ok _ =>
          have world : after.world = (before.world.push core write).commit core := answered
          refine .ok ⟨?_, ?_, fun name => ?_⟩
          · rw [counted, Call.attempted, pending, if_pos rfl]
          · rw [world]
            rfl
          · rw [world, World.commit]
            by_cases same : name = core
            · subst same
              rw [World.core_change_self, Core.pending_commit]
              rfl
            · rw [World.core_change_of_ne _ _ _ same, pending, if_neg (Ne.symm same)]
              rfl
      | error error =>
          obtain ⟨-, world⟩ := answered
          refine .error ⟨_, .failed, ?_, ?_, fun name => ?_⟩
          · rw [counted, Call.attempted, pending, if_pos rfl]
          · rw [world]
            rfl
          · rw [world, pending]
            simp [Commit.waiting]

/-- A document that cannot be made is not written. -/
theorem commits_store_none
    (h : (store context core none).run.Yields (Observed.Answers faults) before result after) :
    (∃ error, result = .error error) ∧ before.Attempts [] after := by
  have opens : (Attempt.inContext context (ExceptT.mk (Program.request (.openCore core))) :
      Attempt ν Unit).run.Makes Call.Reads :=
    Attempt.makes_inContext (Program.makes_request trivial)
  refine ⟨?_, (makes_exceptBind opens fun _ => Program.makes_done _).attempts flushed h⟩
  obtain ⟨error, -, rfl⟩ | ⟨_, _, -, fitted⟩ := yields_exceptBind.1 h
  · exact ⟨error, rfl⟩
  · rw [Attempt.fitting_none_bind] at fitted
    exact ⟨_, (Attempt.yields_ofExcept.1 fitted).1⟩

/-- Storing a document, if it can be made. -/
theorem commits_store {made : Option (Document ν)} {document : Document ν}
    (same : ∀ other, made = some other → other = document)
    (h : (store context core made).run.Yields (Observed.Answers faults) before result after) :
    Ends (fun _ after => before.Attempts [⟨core, [.add document], true⟩] after)
      (fun after => ∃ made, Commit.Fails core (.add document) made ∧ before.Attempts made after)
      result after := by
  cases made with
  | none =>
      obtain ⟨⟨_, rfl⟩, idle⟩ := commits_store_none flushed h
      exact .error ⟨[], .refused, idle⟩
  | some other =>
      obtain rfl := same other rfl
      rw [store_some] at h
      refine commits_write flushed ?_ h
      intro before after answer put
      obtain ⟨answered, counted⟩ := Program.yields_request.1 put
      cases answer with
      | ok _ => exact .ok (Observed.ext answered (counted.trans (List.append_nil _)))
      | error error => exact .error (Observed.ext answered.2 (counted.trans (List.append_nil _)))

theorem commits_erase {id : String}
    (h : (erase context core id).run.Yields (Observed.Answers faults) before result after) :
    Ends (fun _ after => before.Attempts [⟨core, [.delete id], true⟩] after)
      (fun after => ∃ made, Commit.Fails core (.delete id) made ∧ before.Attempts made after)
      result after := by
  refine commits_write flushed ?_ h
  intro before after answer put
  obtain ⟨answered, counted⟩ := Program.yields_request.1 put
  cases answer with
  | ok _ => exact .ok (Observed.ext answered (counted.trans (List.append_nil _)))
  | error error => exact .error (Observed.ext answered.2 (counted.trans (List.append_nil _)))

/-- Storing a document and announcing it. -/
theorem commits_storeAndTell {made : Option (Document ν)} {document : Document ν}
    (same : ∀ other, made = some other → other = document) {notification : Notification ν}
    {announced said : List (Notification ν)}
    (h : ((do
        Change.attempt (store context core made)
        Change.announce notification : Change ν PUnit).run.run announced).Yields
      (Observed.Answers faults) before (result, said) after) :
    Ends (fun _ state => state.1 = announced ++ [notification] ∧
        before.Attempts [⟨core, [.add document], true⟩] state.2)
      (fun state => state.1 = announced ∧
        ∃ made, Commit.Fails core (.add document) made ∧ before.Attempts made state.2)
      result (said, after) := by
  obtain ⟨⟨_, ended⟩, failed⟩ | ⟨_, _, stored, told⟩ :=
    Change.yields_attemptBind_of_ends (commits_store flushed same) h
  · cases ended
    exact .error ⟨rfl, failed⟩
  · obtain ⟨ended, rfl⟩ := Change.yields_announce.1 told
    cases ended
    exact .ok ⟨rfl, stored⟩

end Single

/-! ## 3. Edits -/

inductive Commits (manager : Manager) (edit : Edit) :
    Bool → List (Commit ν) → List (Notification ν) → Prop
  /-- The vote was not written. -/
  | lost {made : List (Commit ν)} : Commit.Fails manager.voteCore edit.write made →
      Commits manager edit false made []
  /-- The vote was written and the average was not. -/
  | torn {made : List (Commit ν)} : manager.configuration.storeAverage = true →
      (made = [] ∨ ∃ average : AverageRank ν,
        Commit.Fails averageCore (.add average.toDocument) made) →
      Commits manager edit false (⟨manager.voteCore, [edit.write], true⟩ :: made)
        [manager.tells edit.event edit.record]
  /-- The vote was written, and no average is kept. -/
  | plain : manager.configuration.storeAverage = false →
      Commits manager edit true [⟨manager.voteCore, [edit.write], true⟩]
        [manager.tells edit.event edit.record]
  /-- The vote and the average were written. -/
  | full {old new : AverageRank ν} : manager.configuration.storeAverage = true →
      Commits manager edit true
        [⟨manager.voteCore, [edit.write], true⟩, ⟨averageCore, [.add new.toDocument], true⟩]
        [manager.tells edit.event edit.record, manager.tellsAverage old new]

variable {manager : Manager} {context : String} {said : List (Notification ν)}

/-- The average comes last, and by then the vote is written. -/
theorem commits_storeChange (edit : Edit) (flushed : before.world.IsFlushed)
    {target : EntityReference} {f : AverageRank ν → Instant → AverageRank ν} {first last : World ν}
    {change : Option (AverageChange ν)} (prepared : manager.Prepared target f first change last)
    {result : Except RankingError Unit}
    (h : ((manager.storeChange context change).run.run
        [manager.tells edit.event edit.record]).Yields (Observed.Answers faults) before
      (result, said) after) :
    ∃ done made, manager.Commits edit done (⟨manager.voteCore, [edit.write], true⟩ :: made) said ∧
      before.Attempts made after ∧ Settles done () result := by
  cases prepared with
  | none off =>
      obtain ⟨same, rfl⟩ := h
      cases same
      exact ⟨true, [], .plain off, .none flushed, rfl⟩
  | some on _ =>
      cases commits_storeAndTell flushed (fun _ => AverageRank.eq_toDocument_of_toDocument?) h with
      | ok right =>
          obtain ⟨rfl, attempts⟩ := right
          exact ⟨true, _, .full on, attempts, rfl⟩
      | error wrong =>
          obtain ⟨rfl, made, fails, attempts⟩ := wrong
          exact ⟨false, made, .torn on (.inr ⟨_, fails⟩), attempts, _, rfl⟩

/-- Only an average that is kept can fail to be read. -/
theorem storeAverage_of_error {target : EntityReference}
    {f : AverageRank ν → Instant → AverageRank ν} {error : RankingError}
    (h : (manager.averageChange? target f).run.Yields (Observed.Answers faults) before
      (.error error) after) : manager.configuration.storeAverage = true := by
  unfold averageChange? at h
  split at h
  · assumption
  · cases h.1

/-- What can be worked out as the change of an average. -/
theorem prepared_of_yields {target : EntityReference} {f : AverageRank ν → Instant → AverageRank ν}
    {change : Option (AverageChange ν)} {first last : World ν}
    (h : (manager.averageChange? target f).run.Yields (World.Answers faults) first (.ok change)
      last) : manager.Prepared target f first change last := by
  cases yields_averageChange? h with
  | ok right => exact right

section Edits

variable {β : Type} {answer : β} (flushed : before.world.IsFlushed)
include flushed

/-- **Writing a vote** commits it, and then its average if one is kept. -/
theorem commits_edit (edit : Edit) {vote : Ranking} (leaves : edit.answer = some vote)
    {target : EntityReference} {f : AverageRank ν → Instant → AverageRank ν}
    {outcome : Except RankingError β × List (Notification ν)}
    (h : ((do
        let change ← Change.attempt (manager.averageChange? target f)
        manager.storeRanking context edit.event vote
        manager.storeChange context change
        pure answer : Change ν β).run.run []).Yields (Observed.Answers faults) before outcome
      after) :
    ∃ done made, manager.Commits edit done made outcome.2 ∧ before.Attempts made after ∧
      Settles done answer outcome.1 := by
  have write : (edit.write : CoreWrite ν) = _ := Edit.write_of_answer leaves
  obtain rfl := Edit.record_of_answer leaves
  obtain ⟨error, -, rfl, idle⟩ | ⟨change, first, prepared, idle, flushed, storing⟩ :=
    Change.yields_readBind reads_averageChange? flushed h
  · exact ⟨false, [], .lost .refused, idle, error, rfl⟩
  · obtain ⟨_, said, rfl, rfl, made, fails, attempts⟩ |
      ⟨_, said, second, ⟨rfl, stored⟩, changing⟩ :=
      Change.yields_bind_of_ends
        (commits_storeAndTell flushed fun _ => Ranking.eq_toDocument_of_toDocument?) storing
    · rw [← write] at fails
      exact ⟨false, made, .lost fails, idle.idle_trans attempts, _, rfl⟩
    · rw [← write] at stored
      have alone : ∀ commit ∈ [(⟨manager.voteCore, [edit.write], true⟩ : Commit ν)],
          commit.succeeded = true := List.forall_mem_singleton.2 rfl
      obtain ⟨result, last, same⟩ := Change.yields_bindPure.1 changing
      obtain ⟨done, made, commits, attempts, settles⟩ :=
        commits_storeChange edit (stored.flushed alone) (prepared_of_yields prepared) last
      rw [same]
      exact ⟨done, _, commits, idle.idle_trans (stored.trans attempts alone), settles.map answer⟩

/-- **Erasing a vote** commits its removal, and then its average if one is kept. -/
theorem commits_eraseLocked {old : Ranking} {result : Except RankingError Unit}
    (h : ((manager.eraseLocked old).run.run []).Yields (Observed.Answers faults) before
      (result, said) after) :
    ∃ done made, manager.Commits (.erase old) done made said ∧ before.Attempts made after ∧
      Settles done () result := by
  obtain ⟨⟨_, same⟩, made, fails, attempts⟩ | ⟨_, first, erased, telling⟩ :=
    Change.yields_attemptBind_of_ends (commits_erase flushed) h
  · cases same
    exact ⟨false, made, .lost fails, attempts, _, rfl⟩
  · have alone : ∀ commit ∈ [(⟨manager.voteCore, [.delete old.id], true⟩ : Commit ν)],
        commit.succeeded = true := List.forall_mem_singleton.2 rfl
    obtain ⟨_, _, wrong, -⟩ | ⟨_, told, _, announced, preparing⟩ := Change.yields_bind.1 telling
    · cases (Change.yields_announce.1 wrong).1
    · obtain ⟨same, rfl⟩ := Change.yields_announce.1 announced
      cases same
      obtain ⟨error, failed, same, idle⟩ | ⟨change, second, prepared, idle, flushed, changing⟩ :=
        Change.yields_readBind reads_averageChange? (erased.flushed alone) preparing
      · cases same
        exact ⟨false, _, .torn (storeAverage_of_error failed) (.inl rfl),
          erased.trans idle alone, error, rfl⟩
      · obtain ⟨done, made, commits, attempts, settles⟩ :=
          commits_storeChange (.erase old) flushed (prepared_of_yields prepared) changing
        exact ⟨done, _, commits,
          erased.trans (idle.idle_trans attempts) alone, settles⟩

end Edits

end Manager

/-! ## 4. Requests -/

def Edit.IsFounded (documents : List (Document ν)) : Edit → Prop
  | create _ => True
  | revise old _ _ | erase old => ∃ document ∈ documents, Ranking.ofDocument document = .ok old

/-- The edit is one that the request asks for: it makes this rank the vote of the user on the
    target, or takes that vote away, or it removes the vote under this identifier. -/
def Request.Asks (manager : Manager) : Request → Edit → Prop
  | save target voter vote, edit => manager.IsVoteOf target voter edit.record ∧
      ∀ saved, edit.answer = some saved → (saved.rank.toNat : Int) = vote
  | remove id, edit => ∃ old, edit = .erase old ∧ old.manager = manager.identifier ∧ old.id = id
  | recompute _, _ => False

def Response.isOk : Response ν → Bool
  | saved result => result.isOk
  | removed result => result.isOk
  | recomputed result => result.isOk

inductive Request.Commits (manager : Manager) (documents : List (Document ν)) :
    Request → Bool → List (Commit ν) → List (Notification ν) → Prop
  /-- Something failed before the first commit. -/
  | failed {request : Request} : Commits manager documents request false [] []
  /-- There was nothing to write. -/
  | needless {request : Request} :
      (∀ target, request = .recompute target → manager.configuration.storeAverage = false) →
      Commits manager documents request true [] []
  | edit {request : Request} (edit : Edit) {done : Bool} {made : List (Commit ν)}
      {news : List (Notification ν)} : request.Asks manager edit → edit.IsFounded documents →
      manager.Commits edit done made news → Commits manager documents request done made news
  /-- The average was not written. -/
  | lost {target : EntityReference} {average : AverageRank ν} {made : List (Commit ν)} :
      Commit.Fails averageCore (.add average.toDocument) made →
      Commits manager documents (.recompute target) false made []
  | rebuilt {target : EntityReference} {old new : AverageRank ν} :
      manager.configuration.storeAverage = true → new.target = target →
      Commits manager documents (.recompute target) true
        [⟨averageCore, [.add new.toDocument], true⟩] [manager.tellsAverage old new]

/-- An answer is given if the work was done, and an error if not. -/
theorem Settles.isOk {α : Type} {done : Bool} {answer : α} {result : Except RankingError α}
    (h : Settles done answer result) : result.isOk = done := by
  cases done with
  | true =>
      obtain rfl : result = .ok answer := h
      rfl
  | false =>
      obtain ⟨error, rfl⟩ := h
      rfl

namespace Manager

variable {manager : Manager} (named : manager.voteCore ≠ "") (flushed : before.world.IsFlushed)
include named flushed

theorem commits_saveLocked {target : EntityReference} {voter : UserReference} {vote : Int}
    {rank : UInt32} (valid : manager.validate vote = .ok rank)
    {outcome : Except RankingError (Option Ranking) × List (Notification ν)}
    (h : ((manager.saveLocked target voter rank).run.run []).Yields (Observed.Answers faults) before
      outcome after) :
    ∃ made, (Request.save target voter vote).Commits manager
        (before.world.core manager.voteCore).documents outcome.1.isOk made outcome.2 ∧
      before.Attempts made after := by
  have bound := (validate_eq_ok valid).1
  obtain ⟨error, -, rfl, idle⟩ | ⟨found, first, looked, idle, flushed, deciding⟩ :=
    Change.yields_readBind reads_oldest? flushed h
  · exact ⟨[], .failed, idle⟩
  · cases found with
    | none =>
        dsimp only at deciding
        split at deciding
        -- there is no vote, and none is to be made of a zero
        · obtain ⟨rfl, rfl⟩ := deciding
          exact ⟨[], .needless nofun, idle⟩
        · obtain ⟨error, -, rfl, idle'⟩ | ⟨now, second, -, idle', flushed, making⟩ :=
            Change.yields_readBind Attempt.reads_now flushed deciding
          · exact ⟨[], .failed, idle.idle_trans idle'⟩
          · obtain ⟨error, -, rfl, idle''⟩ | ⟨id, third, -, idle'', flushed, editing⟩ :=
              Change.yields_readBind Attempt.reads_freshId flushed making
            · exact ⟨[], .failed, (idle.idle_trans idle').idle_trans idle''⟩
            · have idle := (idle.idle_trans idle').idle_trans idle''
              obtain ⟨done, made, commits, attempts, settles⟩ := commits_edit flushed
                (.create (Ranking.create id manager.identifier target voter rank manager.scale now))
                rfl editing
              refine ⟨made, ?_, idle.idle_trans attempts⟩
              rw [settles.isOk]
              refine .edit (.create _) ⟨⟨rfl, rfl, rfl⟩, ?_⟩ trivial commits
              rintro _ ⟨⟩
              exact bound
    | some old =>
        -- there is a vote, which a zero that is not stored erases and anything else revises
        obtain ⟨held, own, matched⟩ := found_of_yields named looked
        have free : (RankingQuery.empty.target target).value? .userReference = none := rfl
        rw [RankingQuery.matches_voter free, RankingQuery.matches_target] at matched
        dsimp only at deciding
        split at deciding
        · obtain ⟨result, erasing, same⟩ := Change.yields_bindPure.1 deciding
          obtain ⟨done, made, commits, attempts, settles⟩ := commits_eraseLocked flushed erasing
          rw [same, (settles.map none).isOk]
          refine ⟨made, .edit (.erase old) ⟨⟨own, matched⟩, ?_⟩ held commits,
            idle.idle_trans attempts⟩
          rintro _ ⟨⟩
        · obtain ⟨error, -, rfl, idle'⟩ | ⟨now, second, -, idle', flushed, editing⟩ :=
            Change.yields_readBind Attempt.reads_now flushed deciding
          · exact ⟨[], .failed, idle.idle_trans idle'⟩
          · obtain ⟨done, made, commits, attempts, settles⟩ :=
              commits_edit flushed (.revise old rank now) rfl editing
            refine ⟨made, ?_,
              (idle.idle_trans idle').idle_trans attempts⟩
            rw [settles.isOk]
            refine .edit (.revise old rank now) ⟨⟨own, matched⟩, ?_⟩ held commits
            rintro _ ⟨⟩
            exact bound

theorem commits_removeLocked {id : String}
    {outcome : Except RankingError Bool × List (Notification ν)}
    (h : ((manager.removeLocked id).run.run []).Yields (Observed.Answers faults) before outcome
      after) :
    ∃ made, (Request.remove id).Commits manager (before.world.core manager.voteCore).documents
        outcome.1.isOk made outcome.2 ∧ before.Attempts made after := by
  obtain ⟨error, -, rfl, idle⟩ | ⟨found, first, looked, idle, flushed, deciding⟩ :=
    Change.yields_readBind reads_oldest? flushed h
  · exact ⟨[], .failed, idle⟩
  · cases found with
    | none =>
        obtain ⟨rfl, rfl⟩ := deciding
        exact ⟨[], .needless nofun, idle⟩
    | some old =>
        obtain ⟨held, own, matched⟩ := found_of_yields named looked
        obtain ⟨result, erasing, same⟩ := Change.yields_bindPure.1 deciding
        obtain ⟨done, made, commits, attempts, settles⟩ := commits_eraseLocked flushed erasing
        rw [same, (settles.map true).isOk]
        have asks : (Request.remove id).Asks manager (.erase old) :=
          ⟨old, rfl, own, RankingQuery.matches_identifier.1 matched⟩
        exact ⟨made, .edit (.erase old) asks held commits,
          idle.idle_trans attempts⟩

omit named flushed in
/-- The average of a target is read with this target. -/
theorem target_of_yields {target : EntityReference} {average : AverageRank ν} {first last : World ν}
    (h : (manager.average target).run.Yields (World.Answers faults) first (.ok average) last) :
    average.target = target := by
  cases yields_average h with
  | ok reads =>
      obtain ⟨_, -, read, -⟩ | ⟨-, made⟩ := reads
      · exact AverageRank.target_of_ofDocument read
      · obtain ⟨_, -, -, same⟩ := made.made
        rw [same]
        rfl

omit named in
theorem commits_recomputeLocked {target : EntityReference}
    {outcome : Except RankingError (AverageRank ν) × List (Notification ν)}
    (h : ((manager.recomputeLocked target).run.run []).Yields (Observed.Answers faults) before
      outcome after) (documents : List (Document ν)) :
    ∃ made, (Request.recompute target).Commits manager documents outcome.1.isOk made outcome.2 ∧
      before.Attempts made after := by
  obtain ⟨error, -, rfl, idle⟩ | ⟨votes, first, -, idle, flushed, reading⟩ :=
    Change.yields_readBind reads_allRankings flushed h
  · exact ⟨[], .failed, idle⟩
  · obtain ⟨error, -, rfl, idle'⟩ | ⟨old, second, read, idle', flushed, looking⟩ :=
      Change.yields_readBind reads_average flushed reading
    · exact ⟨[], .failed, idle.idle_trans idle'⟩
    · have idle := idle.idle_trans idle'
      obtain ⟨error, -, rfl, idle'⟩ | ⟨now, third, -, idle', flushed, storing⟩ :=
        Change.yields_readBind Attempt.reads_now flushed looking
      · exact ⟨[], .failed, idle.idle_trans idle'⟩
      · have idle := idle.idle_trans idle'
        dsimp only at storing
        split at storing
        · rename_i on
          obtain ⟨_, said, rfl, rfl, made, fails, attempts⟩ |
            ⟨_, said, last, ⟨rfl, stored⟩, rfl, rfl⟩ :=
            Change.yields_bind_of_ends
              (commits_storeAndTell flushed fun _ => AverageRank.eq_toDocument_of_toDocument?)
              storing
          · exact ⟨made, .lost fails, idle.idle_trans attempts⟩
          · exact ⟨_, .rebuilt on (show old.target = target from target_of_yields read),
              idle.idle_trans stored⟩
        · rename_i off
          obtain ⟨rfl, rfl⟩ := storing
          exact ⟨[], .needless fun _ _ => Bool.eq_false_iff.2 off, idle⟩

end Manager

/-- **The work of a request** comes to one of these, whatever calls fail. -/
theorem Request.commits_work {manager : Manager} (named : manager.voteCore ≠ "")
    (flushed : before.world.IsFlushed) {request : Request}
    {outcome : Response ν × List (Notification ν)}
    (h : (request.work manager).Yields (Observed.Answers faults) before outcome after) :
    ∃ made, request.Commits manager (before.world.core manager.voteCore).documents outcome.1.isOk
        made outcome.2 ∧ before.Attempts made after := by
  cases request with
  | save target voter vote =>
      rw [work] at h
      split at h
      · obtain ⟨rfl, rfl⟩ := h
        exact ⟨[], .failed, .none flushed⟩
      · rename_i rank valid
        obtain ⟨saving, worked, rfl⟩ := Program.yields_map.1 h
        exact Manager.commits_saveLocked named flushed valid worked
  | remove id =>
      obtain ⟨removal, worked, rfl⟩ := Program.yields_map.1 h
      exact Manager.commits_removeLocked named flushed worked
  | recompute target =>
      obtain ⟨rebuilding, worked, rfl⟩ := Program.yields_map.1 h
      exact Manager.commits_recomputeLocked flushed worked _

end RankLedger
