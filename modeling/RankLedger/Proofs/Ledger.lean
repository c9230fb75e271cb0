import RankLedger.Proofs.Bookkeeping
import RankLedger.Proofs.Deployment

/-!
# The ledger

What tenants do to their votes, told without an index: a *ledger* has at most one entry for each
voter, target and manager, and each turn makes one entry or takes one away (`Ledger.Step`).  The
index refines the ledger: after every history in which no call fails, the votes that a tenant
shows are its entries of the ledger that followed the same turns
(`History.visible_votes_are_ledger_entries`).

The ledger of a world is read off the books of its listeners.  A lookup by key in the books is a
lookup in the index, because a voter never has two votes.
-/

namespace RankLedger

variable {ν : Type}

/-! ## 1. Ledgers -/

abbrev Ledger := VoteKey → Option Ranking

namespace Ledger

def empty : Ledger := fun _ => none

def set (ledger : Ledger) (key : VoteKey) (entry : Option Ranking) : Ledger :=
  fun other => if other = key then entry else ledger other

/-- What one turn makes of the ledger, and what is answered.  A date is the first that the clock
    showed in the turn, an identifier one that was handed out in the turn and never before. -/
inductive Step (manager : Manager) (before after : World ν) (ledger : Ledger) :
    Request → Response ν → Ledger → Prop
  /-- A vote beyond the scale is refused. -/
  | outOfScale {target : EntityReference} {voter : UserReference} {vote : Int} :
      ¬ (0 ≤ vote ∧ vote ≤ manager.scale.toNat) →
      Step manager before after ledger (.save target voter vote)
        (.saved (.error (.outOfScale vote manager.scale manager.identifier))) ledger
  /-- A first vote makes an entry, created and updated now. -/
  | create {target : EntityReference} {voter : UserReference} {rank : UInt32} {id : String}
      {now : Instant} : rank.toNat ≤ manager.scale.toNat → manager.isNoVote rank = false →
      ledger { manager := manager.identifier, target, voter } = none →
      id ∉ before.given → id ∈ after.given → before.shown ++ [now] <+: after.shown →
      Step manager before after ledger (.save target voter rank.toNat)
        (.saved (.ok (some (Ranking.create id manager.identifier target voter rank manager.scale
          now.truncated))))
        (ledger.set { manager := manager.identifier, target, voter } (some
          (Ranking.create id manager.identifier target voter rank manager.scale now.truncated)))
  /-- A later vote changes the rank and the date of the entry, and nothing else. -/
  | revise {target : EntityReference} {voter : UserReference} {rank : UInt32} {old : Ranking}
      {now : Instant} : rank.toNat ≤ manager.scale.toNat → manager.isNoVote rank = false →
      ledger { manager := manager.identifier, target, voter } = some old →
      before.shown ++ [now] <+: after.shown →
      Step manager before after ledger (.save target voter rank.toNat)
        (.saved (.ok (some { old with rank, updated := now.truncated })))
        (ledger.set { manager := manager.identifier, target, voter }
          (some { old with rank, updated := now.truncated }))
  /-- A zero that is not stored leaves no entry, whether there was one or not. -/
  | withdraw {target : EntityReference} {voter : UserReference} {rank : UInt32} :
      manager.isNoVote rank = true →
      Step manager before after ledger (.save target voter rank.toNat) (.saved (.ok none))
        (ledger.set { manager := manager.identifier, target, voter } none)
  /-- A vote of the manager is removed by its identifier. -/
  | remove {key : VoteKey} {old : Ranking} : key.manager = manager.identifier →
      ledger key = some old →
      Step manager before after ledger (.remove old.id) (.removed (.ok true))
        (ledger.set key none)
  /-- No vote of the manager has this identifier. -/
  | miss {id : String} : (∀ key old, key.manager = manager.identifier → ledger key = some old →
        old.id ≠ id) →
      Step manager before after ledger (.remove id) (.removed (.ok false)) ledger
  /-- Rebuilding an average changes no vote. -/
  | recompute {target : EntityReference} {average : AverageRank ν} :
      Step manager before after ledger (.recompute target) (.recomputed (.ok average)) ledger

inductive Run : List (Turn ν) → Ledger → Prop
  | start : Run [] empty
  | turn {turns : List (Turn ν)} {turn : Turn ν} {ledger next : Ledger} : Run turns ledger →
      Step turn.manager turn.before turn.after ledger turn.request turn.response next →
      Run (turns ++ [turn]) next

def Lists (ledger : Ledger) (votes : List Ranking) : Prop :=
  ∀ key vote, ledger key = some vote ↔ vote ∈ votes ∧ vote.key = key

variable {ledger : Ledger} {votes : List Ranking}

theorem Lists.eq_none_iff (lists : ledger.Lists votes) {key : VoteKey} :
    ledger key = none ↔ ∀ vote ∈ votes, vote.key ≠ key := by
  rw [Option.eq_none_iff_forall_ne_some]
  constructor
  · intro absent vote mem same
    exact absent vote ((lists key vote).2 ⟨mem, same⟩)
  · intro absent vote found
    obtain ⟨mem, same⟩ := (lists key vote).1 found
    exact absent vote mem same

theorem set_self {key : VoteKey} {entry : Option Ranking} (h : ledger key = entry) :
    ledger.set key entry = ledger := by
  funext other
  unfold set
  split
  · rename_i same
    rw [same, h]
  · rfl

/-- **Edits.** An edit of the votes sets one entry of the ledger. -/
theorem Lists.on (lists : ledger.Lists votes) {tenants : Tenants} {given given' : List String}
    {manager : Manager} {edit : Edit} (order : VotesInOrder tenants given votes)
    (one : OnePerVoter votes) (may : manager.MayMake votes given given' edit) :
    (ledger.set edit.record.key edit.answer).Lists (edit.on votes) := by
  -- a vote that was there before is the one that is edited if it has the key of the edit
  have same {vote : Ranking} (mem : vote ∈ votes) :
      vote.key = edit.record.key ↔ vote.id = edit.record.id := by
    have held (old : Ranking) (held : old ∈ votes) : vote.key = old.key ↔ vote.id = old.id := by
      constructor
      · intro key
        rw [one vote mem old held key]
      · intro id
        rw [order.eq_of_id mem held id]
    cases may with
    | create _ _ absent fresh =>
        constructor
        · intro key
          exact absurd key (absent vote mem)
        · intro id
          exact absurd (id ▸ order.given vote mem) fresh
    | @revise old _ _ mem => exact held old mem
    | @erase old mem => exact held old mem
  have written {vote : Ranking} (answer : edit.answer = some vote) :
      vote.key = edit.record.key := by
    rw [Edit.record_of_answer answer]
  intro key vote
  unfold set
  split
  · rename_i here
    rw [here, Edit.mem_on]
    constructor
    · intro answer
      exact ⟨.inl answer, written answer⟩
    · rintro ⟨answer | ⟨mem, differs⟩, key⟩
      · exact answer
      · exact absurd ((same mem).1 key) differs
  · rename_i elsewhere
    rw [lists key vote, Edit.mem_on]
    constructor
    · rintro ⟨mem, rfl⟩
      exact ⟨.inr ⟨mem, fun id => elsewhere ((same mem).2 id)⟩, rfl⟩
    · rintro ⟨answer | ⟨mem, -⟩, rfl⟩
      · exact absurd (written answer) elsewhere
      · exact ⟨mem, rfl⟩

end Ledger

/-! ## 2. Turns in which nothing fails -/

variable [Scalar ν] {before after : World ν} {manager : Manager}

namespace Manager

/-- Where no call fails and the average can be read, an edit is done. -/
theorem Edited.done_of_reliable {edit : Edit} {done : Bool} {news : List (Notification ν)}
    (readable : ¬ manager.Unread World.reliable edit.record.target (before.core averageCore))
    (h : manager.Edited World.reliable edit before done news after) : done = true := by
  cases h with
  | untouched unread => exact absurd unread readable
  | waiting fails => exact fails.elim
  | torn unread => exact absurd unread readable
  | tornWaiting fails => exact fails.elim
  | plain => rfl
  | full => rfl

/-- What is told of an edit that was done makes it in the books. -/
theorem Edited.noted {faults : Call ν → Prop} {edit : Edit} {news : List (Notification ν)}
    (h : manager.Edited faults edit before true news after) (books : Books ν) :
    (books.noteAll news).votes = edit.on books.votes := by
  cases h with
  | plain => rw [Books.noteAll_cons, Books.noteAll_nil, Books.note_tells]
  | full =>
      rw [Books.noteAll_cons, Books.noteAll_cons, Books.noteAll_nil, Books.note_tells,
        Books.note_tellsAverage]

theorem Rebuilt.noted {faults : Call ν → Prop} {target : EntityReference} {votes : List Ranking}
    {result : Except RankingError (AverageRank ν)} {news : List (Notification ν)}
    (h : manager.Rebuilt faults target votes before result news after) (books : Books ν) :
    (books.noteAll news).votes = books.votes := by
  cases h with
  | untouched => rfl
  | waiting => rfl
  | computed => rfl
  | full => rw [Books.noteAll_cons, Books.noteAll_nil, Books.note_tellsAverage]

/-- Where no call fails and the average can be read, rebuilding gives an average. -/
theorem Rebuilt.ok_of_reliable {target : EntityReference} {votes : List Ranking}
    {result : Except RankingError (AverageRank ν)} {news : List (Notification ν)}
    (readable : ¬ manager.Unread World.reliable target (before.core averageCore))
    (h : manager.Rebuilt World.reliable target votes before result news after) :
    ∃ average, result = .ok average := by
  cases h with
  | untouched unread => exact absurd unread readable
  | waiting fails => exact fails.elim
  | computed => exact ⟨_, rfl⟩
  | full => exact ⟨_, rfl⟩

end Manager

section Lookup

variable {tenants : Tenants} {votes : List Ranking} {ledger : Ledger} (lists : ledger.Lists votes)
  {target : EntityReference} {voter : UserReference}
include lists

omit [Scalar ν] in
/-- Votes are looked up in the core of the manager as in the ledger. -/
theorem Ledger.eq_none_of_absent (member : manager ∈ tenants.members)
    (absent : ∀ vote ∈ votes.filter (tenants.keepsIn manager.voteCore),
      ¬ manager.IsVoteOf target voter vote) :
    ledger { manager := manager.identifier, target, voter } = none := by
  rw [lists.eq_none_iff]
  intro vote mem same
  have own := Manager.isVoteOf_iff_key.2 same
  exact absent vote ((Tenants.mem_filter_keepsIn member own.1).2 mem) own

omit [Scalar ν] in
theorem Ledger.eq_some_of_held {old : Ranking}
    (mem : old ∈ votes.filter (tenants.keepsIn manager.voteCore))
    (own : manager.IsVoteOf target voter old) :
    ledger { manager := manager.identifier, target, voter } = some old :=
  (lists _ old).2 ⟨(List.mem_filter.1 mem).1, Manager.isVoteOf_iff_key.1 own⟩

end Lookup

section Turn

variable {tenants : Tenants} {books : Books ν} {ledger : Ledger}
  (member : manager ∈ tenants.members) (holds : before.HoldsVotes tenants books.votes)
  (order : VotesInOrder tenants before.given books.votes) (one : OnePerVoter books.votes)
  (readable : ∀ target, ¬ manager.Unread World.reliable target (before.core averageCore))
  (lists : ledger.Lists books.votes)

include member holds order one readable lists

/-- **Saving** follows the ledger. -/
theorem Ledger.step_save {target : EntityReference} {voter : UserReference} {vote : Int}
    {result : Except RankingError (Option Ranking)}
    (h : (manager.save target voter vote).run.Yields (World.Answers World.reliable) before result
      after) :
    ∃ next news, after.heard = before.heard ++ news ∧
      Step manager before after ledger (.save target voter vote) (.saved result) next ∧
      next.Lists (books.noteAll news).votes := by
  have held := holds manager.voteCore (Tenants.isPlaced member).separate
  obtain ⟨error, invalid, rfl, rfl⟩ | ⟨rank, valid, trouble | ⟨ignored, rfl, rfl⟩ |
    ⟨edit, done, news, middle, saves, edited, rfl, settles⟩⟩ :=
      Manager.yields_save (Tenants.isPlaced member) held h
  · refine ⟨ledger, [], (List.append_nil _).symm, ?_, lists⟩
    -- the vote was beyond the scale
    unfold Manager.validate at invalid
    split at invalid
    · cases invalid
    · rename_i beyond
      cases invalid
      exact .outOfScale beyond
  · exact absurd trouble.2.1 World.not_unreliable_reliable
  · obtain ⟨rfl, -⟩ := Manager.validate_eq_ok valid
    refine ⟨ledger, [], (List.append_nil _).symm, ?_, lists⟩
    cases ignored with
    | ignored absent noVote =>
        -- the entry that is taken away was not there
        have free := Ledger.eq_none_of_absent lists member absent
        have step : Step manager after after ledger (.save target voter rank.toNat)
            (.saved (.ok none)) (ledger.set _ none) := .withdraw noVote
        rwa [Ledger.set_self free] at step
  · obtain rfl := edited.done_of_reliable (readable _)
    obtain rfl : result = .ok edit.answer := settles
    -- an edit was made: the ledger makes it too
    have may := (saves.mayMake valid fun vote mem own =>
      order.admits member (List.mem_filter.1 mem).1 own).widen member
    have next := lists.on order one may
    obtain ⟨later, shown, quiet⟩ := edited.meanwhile
    obtain ⟨rfl, bound⟩ := Manager.validate_eq_ok valid
    refine ⟨ledger.set edit.record.key edit.answer, news, ?_, ?_, ?_⟩
    · rw [World.hear, quiet]
    · cases saves with
      | first absent isVote fresh given looked =>
          exact .create bound isVote (Ledger.eq_none_of_absent lists member absent) fresh given
            looked
      | @withdrawn old mem own noVote =>
          show Step manager before (middle.hear news) ledger _ _ (ledger.set old.key none)
          rw [Manager.isVoteOf_iff_key.1 own]
          exact .withdraw noVote
      | @revised old instant mem own isVote looked =>
          show Step manager before (middle.hear news) ledger _ _
            (ledger.set old.key (some (old.revise rank instant.truncated)))
          rw [Manager.isVoteOf_iff_key.1 own]
          exact .revise bound isVote (Ledger.eq_some_of_held lists mem own) looked
    · rw [edited.noted]
      exact next

/-- **Removing** follows the ledger. -/
theorem Ledger.step_remove {id : String} {result : Except RankingError Bool}
    (h : (manager.remove id).run.Yields (World.Answers World.reliable) before result after) :
    ∃ next news, after.heard = before.heard ++ news ∧
      Step manager before after ledger (.remove id) (.removed result) next ∧
      next.Lists (books.noteAll news).votes := by
  have held := holds manager.voteCore (Tenants.isPlaced member).separate
  obtain trouble | ⟨absent, rfl, rfl⟩ |
    ⟨old, mem, own, done, news, middle, edited, rfl, settles⟩ :=
      Manager.yields_remove (Tenants.isPlaced member) held h
  · exact absurd trouble.2.1 World.not_unreliable_reliable
  · refine ⟨ledger, [], (List.append_nil _).symm, .miss ?_, lists⟩
    rintro key vote mine found same
    obtain ⟨mem, rfl⟩ := (lists key vote).1 found
    exact absent vote ((Tenants.mem_filter_keepsIn member mine).2 mem) ⟨mine, same⟩
  · obtain rfl := edited.done_of_reliable (readable _)
    obtain rfl : result = .ok true := settles
    -- the vote with this identifier is an entry of the ledger
    have mem := (List.mem_filter.1 mem).1
    obtain ⟨own, rfl⟩ := own
    have may : manager.MayMake books.votes before.given before.given (.erase old) :=
      .erase mem own
    refine ⟨ledger.set old.key none, news, ?_, ?_, ?_⟩
    · rw [World.hear, edited.meanwhile.2.2]
    · exact .remove own ((lists old.key old).2 ⟨mem, rfl⟩)
    · rw [edited.noted]
      exact lists.on order one may

omit order one in
/-- **Rebuilding an average** follows the ledger. -/
theorem Ledger.step_recompute {target : EntityReference}
    {result : Except RankingError (AverageRank ν)}
    (h : (manager.recompute target).run.Yields (World.Answers World.reliable) before result
      after) :
    ∃ next news, after.heard = before.heard ++ news ∧
      Step manager before after ledger (.recompute target) (.recomputed result) next ∧
      next.Lists (books.noteAll news).votes := by
  have held := holds manager.voteCore (Tenants.isPlaced member).separate
  obtain ⟨news, middle, rebuilt, rfl⟩ :=
    Manager.yields_recompute (Tenants.isPlaced member) held h
  obtain ⟨average, rfl⟩ := rebuilt.ok_of_reliable (readable target)
  refine ⟨ledger, news, ?_, .recompute, ?_⟩
  · rw [World.hear, rebuilt.meanwhile.2]
  · rw [rebuilt.noted]
    exact lists

/-- **Turns.** Whatever is asked of a tenant, the ledger takes the same turn. -/
theorem Ledger.step_request {request : Request} {response : Response ν}
    (h : (request.program manager).Yields (World.Answers World.reliable) before response after) :
    ∃ next news, after.heard = before.heard ++ news ∧
      Step manager before after ledger request response next ∧
      next.Lists (books.noteAll news).votes := by
  cases request with
  | save target voter vote =>
      obtain ⟨result, yields, rfl⟩ := Request.yields_save.1 h
      exact step_save member holds order one readable lists yields
  | remove id =>
      obtain ⟨result, yields, rfl⟩ := Request.yields_remove.1 h
      exact step_remove member holds order one readable lists yields
  | recompute target =>
      obtain ⟨result, yields, rfl⟩ := Request.yields_recompute.1 h
      exact step_recompute member holds readable lists yields

end Turn

/-! ## 3. Histories in which nothing fails -/

variable {tenants : Tenants} {turns : List (Turn ν)} {world : World ν}

def World.AveragesFinite (world : World ν) : Prop :=
  ∀ n ∈ world.heard, ∀ average, n.data = .average average →
    Scalar.isFinite average.average = true

theorem World.AveragesFinite.books (finite : world.AveragesFinite) :
    ∀ average ∈ (Books.replay world.heard).averages, Scalar.isFinite average.average = true := by
  intro average mem
  obtain wrong | ⟨n, mem, data⟩ := Books.mem_averages_noteAll mem
  · cases wrong
  · exact finite n mem average data

/-- Where nothing fails, finite averages can be read. -/
theorem History.not_unread (history : History World.reliable tenants turns world)
    (short : turns.length < 9223372036854775808) (finite : world.AveragesFinite)
    {target : EntityReference} :
    ¬ manager.Unread World.reliable target (world.core averageCore) := by
  obtain ⟨chronicle, kept⟩ := history.bookkeeping (fun _ fails => fails) short fun _ => trivial
  exact Manager.not_unread (kept.holdsAverages chronicle.sound short) finite.books
    World.not_unreliable_reliable

/-- The ledger that followed the turns lists the votes in the books. -/
theorem History.exists_ledger (history : History World.reliable tenants turns world)
    (short : turns.length < 9223372036854775808) (finite : world.AveragesFinite) :
    ∃ ledger, Ledger.Run turns ledger ∧ ledger.Lists (Books.replay world.heard).votes := by
  induction history with
  | start =>
      refine ⟨Ledger.empty, .start, fun key vote => ⟨fun found => ?_, fun ⟨mem, _⟩ => ?_⟩⟩
      · cases found
      · cases mem
  | @turn turns before after manager request response history member yields ih =>
      rw [List.length_append, List.length_singleton] at short
      have short : turns.length < 9223372036854775808 := by omega
      have steady : ∀ core, ¬ World.reliable (.commit core : Call ν) := fun _ fails => fails
      obtain ⟨chronicle, kept⟩ := history.bookkeeping steady short fun _ => trivial
      have sound := chronicle.sound
      obtain ⟨told, heard, -, -, -⟩ := Manager.Moves.news steady member kept sound short
        (kept.votes.moves member sound.votes yields)
      -- what was announced before this turn was announced in the end
      have finite' : before.AveragesFinite := by
        intro n mem
        apply finite n
        rw [heard]
        exact List.mem_append_left _ mem
      obtain ⟨ledger, run, lists⟩ := ih short finite'
      obtain ⟨next, news, heard, step, lists⟩ := Ledger.step_request member kept.votes sound.votes
        sound.one (fun _ => history.not_unread short finite') lists yields
      refine ⟨next, .turn run step, ?_⟩
      rw [heard, Books.replay_append]
      exact lists

/-- The votes that a manager shows, in whatever order they are asked for, are its entries of the
    ledger, each once.  Showing them changes nothing. -/
def Ledger.IsShownBy (ledger : Ledger) (manager : Manager) (world : World ν) : Prop :=
  ∀ order ascending,
    (manager.rankings RankingQuery.empty 0 none order ascending).run.Ensures
      (World.Answers World.reliable) world fun result after => after = world ∧
        ∃ votes : List Ranking, result = .ok votes ∧ votes.Nodup ∧ ∀ vote, vote ∈ votes ↔
          vote.manager = manager.identifier ∧ ledger vote.key = some vote

/-- **The index refines the ledger.** Whatever tenants do in a history in which no call fails, and
    as long as the averages are finite, there is a ledger that followed the same turns, and the
    votes that a tenant shows are its entries.  Every further request is answered.  (A count of
    votes is stored as a signed 64-bit number, which is why there must be fewer turns than that.) -/
theorem History.visible_votes_are_ledger_entries
    (history : History World.reliable tenants turns world)
    (short : turns.length < 9223372036854775808) (finite : world.AveragesFinite) :
    ∃ ledger, Ledger.Run turns ledger ∧ ∀ manager ∈ tenants.members,
      ledger.IsShownBy manager world ∧ ∀ request : Request, ∃ response after,
        (request.program manager).Yields (World.Answers World.reliable) world response after := by
  obtain ⟨ledger, run, lists⟩ := history.exists_ledger short finite
  obtain ⟨chronicle, kept⟩ := history.bookkeeping (fun _ fails => fails) short fun _ => trivial
  refine ⟨ledger, run, fun manager member => ⟨fun order ascending => ?_, fun request => ?_⟩⟩
  · obtain ⟨exists_outcome, listed⟩ :=
      kept.votes.ensures_rankings member RankingQuery.fits_empty order ascending
    refine ⟨exists_outcome, fun result after yields => ?_⟩
    obtain ⟨same, shown, right, perm⟩ := listed result after yields
    refine ⟨same, shown, right, ?_, fun vote => ?_⟩
    · have distinct := List.Nodup.of_map _ chronicle.sound.votes.ids
      exact perm.nodup_iff.2 (distinct.filter _)
    · rw [perm.mem_iff, List.mem_filter, Manager.finds_iff, lists]
      constructor
      · rintro ⟨mem, own, -⟩
        exact ⟨own, mem, rfl⟩
      · rintro ⟨own, mem, -⟩
        exact ⟨mem, own, RankingQuery.matches_empty _⟩
  · exact Program.exists_yields (World.exists_answers _) _ _

/-- After a busy day the stars have one entry left, the second vote of the second user. -/
theorem ledger_of_busyDay :
    ∃ (turns : List (Turn Rat)) (world : World Rat) (ledger : Ledger),
      History World.reliable Tenants.starsAndLikes turns world ∧
      turns.map Turn.visit = Deployment.busyDay ∧
      turns.length < 9223372036854775808 ∧ world.AveragesFinite ∧ Ledger.Run turns ledger ∧
      ∃ vote, ledger vote.key = some vote ∧ vote.rank = 3 ∧
        vote.key = ⟨"stars", ⟨.document, "Main.WebHome"⟩, ⟨"bob"⟩⟩ := by
  obtain ⟨turns, world, shows, history, visits⟩ := History.exists_busyDay
  have short : turns.length < 9223372036854775808 := by
    rw [← List.length_map Turn.visit, visits]
    decide
  have finite : world.AveragesFinite := fun _ _ _ _ => rfl
  obtain ⟨ledger, run, shown⟩ := history.visible_votes_are_ledger_entries short finite
  refine ⟨turns, world, ledger, history, visits, short, finite, run, ?_⟩
  -- what the stars show at the end of the day
  have listing : ((Manager.stars.rankings RankingQuery.empty 0 none .createdDate true :
      Attempt Rat _).run).IsCareful := Manager.reads_rankings.isCareful
  obtain ⟨after, yields, -⟩ := shows.run listing fun _ => False.elim
  obtain ⟨-, votes, right, -, entries⟩ :=
    ((shown Manager.stars (by decide)).1 .createdDate true).2 _ _ yields
  have served : ((({} : Deployment Rat).serveAll Deployment.busyDay).perform
      (Manager.stars.rankings RankingQuery.empty 0 none .createdDate true).run).1 =
        .ok [Ranking.create (({} : IdSource).nth 3) "stars" ⟨.document, "Main.WebHome"⟩ ⟨"bob"⟩ 3 5
          (Instant.ofMillis 1700000000000)] := by
    decide +kernel
  rw [served] at right
  cases right
  exact ⟨_, ((entries _).1 List.mem_cons_self).2, rfl, rfl⟩

end RankLedger
