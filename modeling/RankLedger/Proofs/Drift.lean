import Mathlib.Data.Nat.Dist
import RankLedger.Proofs.Failures
import RankLedger.Proofs.InStep
import RankLedger.Proofs.Log

/-!
# How far an average can drift

Where calls fail, a vote may be committed and its average not, and from then on the average counts
one vote too many or too few.  It never gets further away from the votes than there were such
failures since it was last rebuilt (`History.drift_le_tears`): an edit that is done in full moves
both counts alike, and where an average has nothing left to take a vote from, that brings it nearer
to the votes.
-/

namespace RankLedger

variable {ν : Type} [Scalar ν]

/-! ## 1. Counting with an edit -/

def Edit.recount : Edit → Nat → Nat
  | create _, number => number + 1
  | revise _ _ _, number => number
  | erase _, number => number - 1

namespace Edit

variable {edit : Edit}

/-- An edit that both counts see brings them no further apart. -/
theorem dist_recount_recount (edit : Edit) (n m : Nat) :
    Nat.dist (edit.recount n) (edit.recount m) ≤ Nat.dist n m := by
  unfold Nat.dist
  cases edit <;> simp only [recount] <;> omega

/-- An edit that one of the counts does not see brings them apart by one at most. -/
theorem dist_recount (edit : Edit) (n m : Nat) :
    Nat.dist n (edit.recount m) ≤ Nat.dist n m + 1 := by
  unfold Nat.dist
  cases edit <;> simp only [recount] <;> omega

/-- An average is recounted. -/
theorem number_change (edit : Edit) (old : AverageRank ν) (now : Instant) :
    (edit.change old now).number = edit.recount old.number := by
  cases edit with
  | create vote => rfl
  | revise vote rank date =>
      show (old.exchangeVote _ _ now).number = old.number
      unfold AverageRank.exchangeVote
      split <;> rfl
  | erase vote =>
      show (old.removeVote _ now).number = old.number - 1
      unfold AverageRank.removeVote
      split <;> simp_all

/-- An edit recounts the votes on its target, too. -/
theorem length_filter_on {tenants : Tenants} {manager : Manager} {given given' : List String}
    {votes : List Ranking} (order : VotesInOrder tenants given votes)
    (may : manager.MayMake votes given given' edit) :
    ((edit.on votes).filter (manager.counts edit.record.target)).length =
      edit.recount (votes.filter (manager.counts edit.record.target)).length := by
  -- an average of the votes is one of the votes after the edit when it is changed by it
  have average := AverageRank.IsAverageOf.reset
    (.create "" "" edit.record.target 0 default : AverageRank Rat)
    (votes.filter (manager.counts edit.record.target)) default
  have changed : (edit.change _ default).IsAverageOf _ := edit.isAverageOf_change order may average
  rw [← changed.number, number_change]
  exact congrArg edit.recount average.number

end Edit

/-! ## 2. Books that are off -/

def Books.Reckons (books : Books ν) (manager : Manager) (target : EntityReference) (number : Nat) :
    Prop :=
  (∃ average ∈ books.averages, average.manager = manager.identifier ∧ average.target = target ∧
    average.number = number) ∨
  (∀ average ∈ books.averages, average.manager = manager.identifier → average.target ≠ target) ∧
    number = 0

def Books.IsOff (books : Books ν) (manager : Manager) (target : EntityReference) (bound : Nat) :
    Prop :=
  ∀ number, books.Reckons manager target number →
    Nat.dist number (books.votes.filter (manager.counts target)).length ≤ bound

variable {tenants : Tenants} {books : Books ν} {manager : Manager} {target : EntityReference}
  {given given' : List String} {bound : Nat}

/-- What is looked up counts what the books reckon. -/
theorem Manager.LooksUp.reckons {old : AverageRank ν}
    (looked : manager.LooksUp target books.averages given given' old) :
    books.Reckons manager target old.number := by
  obtain held | ⟨absent, -, -, -, none, -⟩ := looked.found
  · exact .inl ⟨old, held, looked.own, looked.onTarget, rfl⟩
  · exact .inr ⟨absent, none⟩

namespace Books.IsOff

omit [Scalar ν] in
theorem mono {more : Nat} (off : books.IsOff manager target bound) (le : bound ≤ more) :
    books.IsOff manager target more :=
  fun number reckons => (off number reckons).trans le

/-- An average that is written in the place of the one that was looked up is the one that counts. -/
theorem put (order : AveragesInOrder tenants given books.averages) {old new : AverageRank ν}
    (looked : manager.LooksUp target books.averages given given' old)
    (continues : new.Continues old) {votes : List Ranking}
    (near : Nat.dist new.number (votes.filter (manager.counts target)).length ≤ bound) :
    ({ votes, averages := Shelf.put (·.id) new books.averages } : Books ν).IsOff manager target
      bound := by
  have own : new.manager = manager.identifier := continues.manager.trans looked.own
  have onTarget : new.target = target := continues.target.trans looked.onTarget
  rintro number (⟨average, mem, byManager, onThis, rfl⟩ | ⟨absent, -⟩)
  · obtain rfl | ⟨-, elsewhere⟩ := (order.mem_put_iff looked continues).1 mem
    · exact near
    · exact absurd ⟨byManager, onThis⟩ elsewhere
  · exact absurd onTarget (absent new (Shelf.mem_put.2 (.inl rfl)) own)

/-- The averages of other targets count what they counted. -/
theorem put_of_ne (off : books.IsOff manager target bound)
    (order : AveragesInOrder tenants given books.averages) {other : Manager}
    {entity : EntityReference}
    (elsewhere : ¬ (manager.identifier = other.identifier ∧ target = entity))
    {old new : AverageRank ν} (looked : other.LooksUp entity books.averages given given' old)
    (continues : new.Continues old) {votes : List Ranking}
    (same : votes.filter (manager.counts target) = books.votes.filter (manager.counts target)) :
    ({ votes, averages := Shelf.put (·.id) new books.averages } : Books ν).IsOff manager target
      bound := by
  have own : new.manager = other.identifier := continues.manager.trans looked.own
  have onTarget : new.target = entity := continues.target.trans looked.onTarget
  intro number reckons
  show Nat.dist number (votes.filter _).length ≤ bound
  rw [same]
  apply off
  obtain ⟨average, mem, byManager, onThis, rfl⟩ | ⟨absent, none⟩ := reckons
  · obtain rfl | ⟨mem, -⟩ := (order.mem_put_iff looked continues).1 mem
    · exact absurd ⟨byManager.symm.trans own, onThis.symm.trans onTarget⟩ elsewhere
    · exact .inl ⟨average, mem, byManager, onThis, rfl⟩
  · refine .inr ⟨fun average mem byManager onThis => ?_, none⟩
    refine absent average ((order.mem_put_iff looked continues).2 (.inr ⟨mem, ?_⟩)) byManager onThis
    rintro ⟨byOther, onOther⟩
    exact elsewhere ⟨byManager.symm.trans byOther, onThis.symm.trans onOther⟩

end Books.IsOff

/-! ## 3. News -/

def Notification.isVoteOn (target : EntityReference) (notification : Notification ν) : Bool :=
  match notification.data with
  | .ranking vote => vote.target == target
  | .average _ => false

/-- **News** leave the average of a target as far off as it was, unless a vote on the target is all
    that they tell. -/
theorem Books.News.isOff {torn : Prop} {news : List (Notification ν)} {size next : Nat}
    (told : books.News torn tenants given given' news) (sound : books.Sound tenants given size)
    (member : manager ∈ tenants.members) (off : books.IsOff manager target bound)
    (le : bound ≤ next)
    (alone : ∀ n, news = [n] → n.source = manager.identifier → n.isVoteOn target = true →
      bound + 1 ≤ next) : (books.noteAll news).IsOff manager target next := by
  cases told with
  | nothing => exact off.mono le
  | @vote other edit member' may _ =>
      rw [noteAll_cons, noteAll_nil, note_tells]
      intro number reckons
      show Nat.dist number ((edit.on books.votes).filter _).length ≤ next
      have near := off number reckons
      by_cases here : manager.identifier = other.identifier ∧ target = edit.record.target
      · obtain ⟨same, rfl⟩ := here
        obtain rfl := Tenants.eq_of_identifier member member' same
        rw [Edit.length_filter_on sound.votes may]
        have apart := edit.dist_recount number
          (books.votes.filter (manager.counts edit.record.target)).length
        have := alone _ rfl rfl (beq_self_eq_true edit.record.target)
        omega
      · rw [Edit.filter_counts_of_ne sound.votes may here]
        exact near.trans le
  | @both other edit old now member' may on looked whole =>
      rw [noteAll_cons, noteAll_cons, noteAll_nil, note_tells, note_tellsAverage]
      have continues := edit.change_continues old now
      by_cases here : manager.identifier = other.identifier ∧ target = edit.record.target
      · obtain ⟨same, rfl⟩ := here
        obtain rfl := Tenants.eq_of_identifier member member' same
        -- both counts are recounted
        refine IsOff.put sound.averages looked continues ?_
        rw [Edit.number_change, Edit.length_filter_on sound.votes may]
        exact (edit.dist_recount_recount _ _).trans ((off _ looked.reckons).trans le)
      · exact (off.mono le).put_of_ne sound.averages here looked continues
          (Edit.filter_counts_of_ne sound.votes may here)
  | @rebuilt other entity old counted now member' on looked whole perm =>
      rw [noteAll_cons, noteAll_nil, note_tellsAverage]
      have continues := old.reset_continues (Ranking.rankSum counted) counted.length now
      by_cases here : manager.identifier = other.identifier ∧ target = entity
      · obtain ⟨same, rfl⟩ := here
        obtain rfl := Tenants.eq_of_identifier member member' same
        refine IsOff.put sound.averages looked continues ?_
        rw [← perm.length_eq]
        exact (Nat.dist_self counted.length).trans_le (Nat.zero_le next)
      · exact (off.mono le).put_of_ne sound.averages here looked continues rfl

/-- **Rebuilt**, an average counts exactly the votes. -/
theorem Books.News.isOff_zero {torn : Prop} {news : List (Notification ν)} {size : Nat}
    (told : books.News torn tenants given given' news) (sound : books.Sound tenants given size)
    (member : manager ∈ tenants.members) {old new : AverageRank ν}
    (rebuilt : news = [manager.tellsAverage old new]) :
    (books.noteAll news).IsOff manager new.target 0 := by
  cases told with
  | nothing => cases rebuilt
  | vote => cases congrArg Notification.data (List.singleton_inj.1 rebuilt)
  | both => cases (List.cons.inj rebuilt).2
  | @rebuilt other entity old' counted now member' on looked whole perm =>
      have same := List.singleton_inj.1 rebuilt
      obtain rfl := Tenants.eq_of_identifier member' member (congrArg Notification.source same)
      have new_eq : old'.reset (Ranking.rankSum counted) counted.length now = new :=
        EventData.average.inj (congrArg Notification.data same)
      rw [noteAll_cons, noteAll_nil, note_tellsAverage, ← new_eq]
      have onTarget : (old'.reset (Ranking.rankSum counted) counted.length now).target = entity :=
        looked.onTarget
      rw [onTarget]
      refine IsOff.put sound.averages looked (old'.reset_continues ..) ?_
      rw [← perm.length_eq]
      exact (Nat.dist_self counted.length).le

/-! ## 4. Turns -/

namespace Turn

def news (turn : Turn ν) : List (Notification ν) :=
  turn.after.heard.drop turn.before.heard.length

def rebuilds (manager : Manager) (target : EntityReference) (turn : Turn ν) : Bool :=
  turn.manager == manager && turn.request == .recompute target && turn.response.isOk

/-- The turn tore a vote on a target from its average: a vote was told of and so committed, and the
    answer is an error. -/
def tears (manager : Manager) (target : EntityReference) (turn : Turn ν) : Bool :=
  turn.manager == manager && !turn.response.isOk && turn.news.any (·.isVoteOn target)

def tearsSince (manager : Manager) (target : EntityReference) (turns : List (Turn ν)) : Nat :=
  turns.foldl (fun torn turn =>
    if turn.rebuilds manager target then 0
    else if turn.tears manager target then torn + 1
    else torn) 0

omit [Scalar ν] in
theorem tearsSince_concat (manager : Manager) (target : EntityReference) (turns : List (Turn ν))
    (turn : Turn ν) :
    tearsSince manager target (turns ++ [turn]) =
      if turn.rebuilds manager target then 0
      else if turn.tears manager target then tearsSince manager target turns + 1
      else tearsSince manager target turns :=
  List.foldl_concat ..

def IsObserved (faults : Call ν → Prop) (turn : Turn ν) (commits : List (Commit ν)) : Prop :=
  (turn.request.program turn.manager).Yields (Observed.Answers faults) { world := turn.before }
    turn.response { world := turn.after, commits }

/-- What is told in a turn is told of what it is observed to commit. -/
theorem IsObserved.commits {faults : Call ν → Prop} {turn : Turn ν} {commits : List (Commit ν)}
    (observed : turn.IsObserved faults commits) (named : turn.manager.voteCore ≠ "")
    (flushed : turn.before.IsFlushed) :
    turn.request.Commits turn.manager (turn.before.core turn.manager.voteCore).documents
      turn.response.isOk commits turn.news := by
  obtain ⟨made, news, came⟩ := Request.exists_came named flushed observed
  have heard : turn.after.heard = turn.before.heard ++ news := came.heard
  have told : turn.news = news := by rw [Turn.news, heard, List.drop_left]
  obtain rfl : commits = made := came.counted
  rw [told]
  exact came.commits

/-- **Torn.** A turn tears a vote on a target from its average exactly if it answers with an error
    after the commit of that vote, and of nothing else, succeeded. -/
theorem IsObserved.tears_iff {faults : Call ν → Prop} {turn : Turn ν} {commits : List (Commit ν)}
    (observed : turn.IsObserved faults commits) (named : turn.manager.voteCore ≠ "")
    (flushed : turn.before.IsFlushed) :
    turn.tears manager target = true ↔
      turn.manager = manager ∧ turn.response.isOk = false ∧ ∃ edit : Edit,
        edit.record.target = target ∧
        commits.filter (·.succeeded) = [⟨manager.voteCore, [edit.write], true⟩] ∧
        turn.news = [manager.tells edit.event edit.record] := by
  have commits := observed.commits named flushed
  rw [tears, Bool.and_eq_true, Bool.and_eq_true, Bool.not_eq_true', beq_iff_eq, and_assoc]
  refine and_congr_right fun same => and_congr_right fun error => ?_
  rw [error, same] at commits
  constructor
  · intro told
    generalize turn.news = news at commits told ⊢
    have torn := commits.isTorn
    generalize List.filter _ _ = done at torn ⊢
    cases torn with
    | nothing => cases told
    | vote edit _ _ _ =>
        rw [List.any_cons, List.any_nil, Bool.or_false] at told
        exact ⟨edit, beq_iff_eq.1 told, rfl, rfl⟩
  · rintro ⟨edit, rfl, -, news⟩
    rw [news, List.any_cons, List.any_nil, Bool.or_false]
    exact beq_self_eq_true edit.record.target

end Turn

namespace Request.Commits

variable {request : Request} {documents : List (Document ν)} {answered : Bool}
  {made : List (Commit ν)} {news : List (Notification ν)}
  (keeps : manager.configuration.storeAverage = true)
include keeps

omit [Scalar ν] in
/-- Whoever keeps averages and tells of nothing but a vote did not get to its average. -/
theorem answered_of_vote (h : request.Commits manager documents answered made news)
    {n : Notification ν} (alone : news = [n]) (vote : n.isVoteOn target = true) :
    answered = false := by
  cases h with
  | failed | lost => rfl
  | needless => cases alone
  | rebuilt =>
      rw [← List.singleton_inj.1 alone] at vote
      cases vote
  | edit _ _ _ commits =>
      cases commits with
      | lost | torn => rfl
      | plain off =>
          rw [keeps] at off
          cases off
      | full => cases (List.cons.inj alone).2

omit [Scalar ν] in
/-- Whoever keeps averages and rebuilds one tells of it. -/
theorem exists_rebuilt (h : (Request.recompute target).Commits manager documents true made news) :
    ∃ old new : AverageRank ν, news = [manager.tellsAverage old new] ∧ new.target = target := by
  cases h with
  | needless off =>
      have off := off target rfl
      rw [keeps] at off
      cases off
  | edit _ asks => exact asks.elim
  | rebuilt _ onTarget => exact ⟨_, _, rfl, onTarget⟩

end Request.Commits

omit [Scalar ν] in
/-- What a request tells, it tells as the manager that it was asked of. -/
theorem Request.Commits.source {request : Request} {documents : List (Document ν)}
    {answered : Bool} {made : List (Commit ν)} {news : List (Notification ν)}
    (h : request.Commits manager documents answered made news) {n : Notification ν}
    (mem : n ∈ news) : n.source = manager.identifier := by
  have told := h.told
  generalize List.filter _ _ = done at told
  clear h
  induction told with
  | nil => cases mem
  | cons this _ ih =>
      obtain rfl | mem := List.mem_cons.1 mem
      · cases this <;> rfl
      · exact ih mem

/-! ## 5. Histories -/

variable {faults : Call ν → Prop} {turns : List (Turn ν)} {world : World ν}

/-- Where no commit fails, no write is waiting when a turn begins. -/
theorem History.turns_flushed (history : History faults tenants turns world)
    (steady : ∀ core, ¬ faults (.commit core)) (short : turns.length < 9223372036854775808) :
    ∀ turn ∈ turns, turn.manager ∈ tenants.members ∧ turn.before.IsFlushed ∧
      (turn.request.program turn.manager).Yields (World.Answers faults) turn.before turn.response
        turn.after := by
  induction history with
  | start => exact List.forall_mem_nil _
  | @turn turns before after manager request response history member yields ih =>
      rw [List.length_append, List.length_singleton] at short
      have short : turns.length < 9223372036854775808 := by omega
      intro turn mem
      obtain mem | mem := List.mem_append.1 mem
      · exact ih short turn mem
      · obtain rfl := List.mem_singleton.1 mem
        exact ⟨member, (history.bookkeeping steady short fun _ => trivial).2.settled, yields⟩

/-- **Drift.** Where no commit fails, the average of a target is no further off than the number of
    turns that tore a vote on the target from it. -/
theorem History.isOff (history : History faults tenants turns world)
    (steady : ∀ core, ¬ faults (.commit core)) (short : turns.length < 9223372036854775808)
    (member : manager ∈ tenants.members) (keeps : manager.configuration.storeAverage = true) :
    (Books.replay world.heard).IsOff manager target (Turn.tearsSince manager target turns) := by
  induction history with
  | start =>
      rintro number (⟨_, mem, -⟩ | ⟨-, rfl⟩)
      · cases mem
      · exact Nat.zero_le _
  | @turn turns before after other request response history member' yields ih =>
      rw [List.length_append, List.length_singleton] at short
      have short : turns.length < 9223372036854775808 := by omega
      obtain ⟨chronicle, kept⟩ := history.bookkeeping steady short fun _ => trivial
      have sound := chronicle.sound
      obtain ⟨news, heard, later, told, -⟩ :=
        (kept.votes.moves member' sound.votes yields).news steady member' kept sound short
      let turn : Turn ν := ⟨other, request, response, before, after⟩
      obtain ⟨commits, observed⟩ : ∃ commits, turn.IsObserved faults commits :=
        Observed.yields_iff.2 yields
      have commits := observed.commits (Tenants.isPlaced member').named kept.settled
      have news_eq : turn.news = news := by
        show after.heard.drop before.heard.length = news
        rw [heard, List.drop_left]
      rw [news_eq] at commits
      rw [heard, Books.replay_append, Turn.tearsSince_concat]
      split
      · -- the average was rebuilt, and that was told
        rename_i rebuilds
        rw [Turn.rebuilds, Bool.and_eq_true, Bool.and_eq_true, beq_iff_eq, beq_iff_eq] at rebuilds
        obtain ⟨⟨rfl, rfl⟩, ok⟩ := rebuilds
        rw [show turn.response.isOk = true from ok] at commits
        obtain ⟨old, new, rebuilt, rfl⟩ := commits.exists_rebuilt keeps
        exact told.isOff_zero sound member rebuilt
      · split
        · exact told.isOff sound member (ih short) (Nat.le_succ _) fun _ _ _ _ => le_refl _
        · rename_i untorn
          refine told.isOff sound member (ih short) (le_refl _) fun n alone source vote => ?_
          -- a vote that was told of alone would have been torn from its average
          have same : other.identifier = manager.identifier :=
            (commits.source (alone ▸ List.mem_singleton.2 rfl)).symm.trans source
          obtain rfl := Tenants.eq_of_identifier member' member same
          refine absurd ?_ untorn
          rw [Turn.tears, news_eq, alone, commits.answered_of_vote keeps alone vote, List.any_cons,
            vote]
          exact (Bool.and_true _).trans ((Bool.and_true _).trans (beq_self_eq_true other))

/-- **The drift of an average is bounded by the failures.** Take a history in which any call may
    fail but a commit, and a manager that keeps averages, all of them finite.  Asked for its average
    of a target, the manager shows a count that differs from the number of votes that it shows by at
    most the number of turns that tore a vote on the target from the average since it was last
    rebuilt, and so not at all if that was the last turn.  A turn tears a vote from its average
    exactly if it answers with an error after the commit of this vote, and of nothing else,
    succeeded. -/
theorem History.drift_le_tears (history : History faults tenants turns world)
    (steady : ∀ core, ¬ faults (.commit core)) (short : turns.length < 9223372036854775808)
    (finite : world.AveragesFinite) (member : manager ∈ tenants.members)
    (keeps : manager.configuration.storeAverage = true) (target : EntityReference) :
    (∃ votes, manager.ShowsVotes world target votes ∧
      (manager.average target).run.Ensures (World.Answers World.reliable) world
        fun result after => world.Idle after ∧ ∃ average, result = .ok average ∧
          Nat.dist average.number votes.length ≤ Turn.tearsSince manager target turns) ∧
    (∀ turn, turns.getLast? = some turn → turn.rebuilds manager target = true →
      Turn.tearsSince manager target turns = 0) ∧
    ∀ turn ∈ turns, (∃ commits, turn.IsObserved faults commits) ∧
      ∀ commits, turn.IsObserved faults commits →
        (turn.tears manager target = true ↔
          turn.manager = manager ∧ turn.response.isOk = false ∧
            ∃ edit : Edit, edit.record.target = target ∧
              commits.filter (·.succeeded) = [⟨manager.voteCore, [edit.write], true⟩] ∧
              turn.news = [manager.tells edit.event edit.record]) := by
  obtain ⟨chronicle, kept⟩ := history.bookkeeping steady short fun _ => trivial
  have holds := kept.holdsAverages chronicle.sound short
  have off : (Books.replay world.heard).IsOff manager target _ :=
    history.isOff steady short member keeps
  refine ⟨⟨(Books.replay world.heard).votes.filter (manager.counts target),
    fun order ascending => ?_, ?_⟩, fun turn last rebuilds => ?_, fun turn mem => ?_⟩
  · have listed := kept.votes.ensures_rankings member (RankingQuery.fits_target target) order
      ascending
    rwa [Manager.finds_target] at listed
  · rw [World.ensures_iff]
    intro result after yields
    cases Manager.yields_average yields with
    | ok reads =>
        have read : manager.ReadWithin target world _ after :=
          ⟨world, after, rfl, List.prefix_rfl, reads, List.prefix_rfl⟩
        exact ⟨reads.idle, _, rfl, off _ (read.looksUp holds).reckons⟩
    | error unread =>
        exact absurd unread.1
          (Manager.not_unread holds finite.books World.not_unreliable_reliable)
  · obtain ⟨earlier, rfl⟩ := List.getLast?_eq_some_iff.1 last
    rw [Turn.tearsSince_concat, if_pos rebuilds]
  · obtain ⟨member', flushed, yields⟩ := history.turns_flushed steady short turn mem
    exact ⟨Observed.yields_iff.2 yields, fun commits observed =>
      observed.tears_iff (Tenants.isPlaced member').named flushed⟩

/-- After a torn day the stars show two votes and count one, so the day tore a vote from their
    average. -/
theorem drift_of_tornDay :
    ∃ (faults : Call Rat → Prop) (turns : List (Turn Rat)) (world : World Rat),
      History faults Tenants.starsAndLikes turns world ∧ (∀ core, ¬ faults (.commit core)) ∧
      turns.map Turn.visit = Shift.tornDay.flatMap (·.visits) ∧
      turns.length < 9223372036854775808 ∧ world.AveragesFinite ∧
      1 ≤ Turn.tearsSince Manager.stars ⟨.document, "Main.WebHome"⟩ turns := by
  obtain ⟨faults, turns, world, shows, history, steady, visits⟩ := History.exists_tornDay
  have short : turns.length < 9223372036854775808 := by
    rw [← List.length_map Turn.visit, visits]
    decide
  have finite : world.AveragesFinite := fun _ _ _ _ => rfl
  refine ⟨faults, turns, world, history, steady, visits, short, finite, ?_⟩
  obtain ⟨⟨votes, shown, -, read⟩, -⟩ :=
    history.drift_le_tears steady short finite (by decide : Manager.stars ∈ _) rfl
      ⟨.document, "Main.WebHome"⟩
  -- they show the votes in the books, and these are two
  obtain ⟨-, kept⟩ := history.bookkeeping steady short fun _ => trivial
  have listed := kept.votes.ensures_rankings (by decide : Manager.stars ∈ _)
    (RankingQuery.fits_target ⟨.document, "Main.WebHome"⟩) .createdDate true
  rw [Manager.finds_target] at listed
  obtain ⟨_, _, yields⟩ := listed.1
  obtain ⟨-, _, right, perm⟩ := listed.2 _ _ yields
  obtain ⟨-, _, right', perm'⟩ := (shown .createdDate true).2 _ _ yields
  rw [Except.ok.inj (right'.symm.trans right)] at perm'
  have heard : world.heard = (({} : Deployment Rat).serveShifts Shift.tornDay).heard := shows.heard
  have two : ((Books.replay world.heard).votes.filter
      (Manager.stars.counts ⟨.document, "Main.WebHome"⟩)).length = 2 := by
    rw [heard]
    decide +kernel
  -- their average counts one
  have calm := shows.calm (by decide +kernel) (by decide +kernel)
  have reading : ((Manager.stars.average ⟨.document, "Main.WebHome"⟩ :
      Attempt Rat _).run).IsCareful := Manager.reads_average.isCareful
  obtain ⟨_, yields, -⟩ := calm.run reading fun _ => False.elim
  obtain ⟨-, average, same, near⟩ := read _ _ yields
  have one : ((({} : Deployment Rat).serveShifts Shift.tornDay).perform
      (Manager.stars.average ⟨.document, "Main.WebHome"⟩).run).1.map (·.number) = .ok 1 := by
    decide +kernel
  rw [same] at one
  have one : average.number = 1 := Except.ok.inj one
  rw [(perm'.symm.trans perm).length_eq, two, one] at near
  exact near

end RankLedger
