import RankLedger.Proofs.InStep
import RankLedger.Proofs.Merge
import RankLedger.Proofs.Settled

/-!
# Contests

Several threads save votes on one target through one manager, and no voter votes in two threads.
However the threads take turns, the totals are the same, because each of them is told by the votes
of every voter taken alone: the rank that is left of them (`Manager.rankLeft`), the events that
they cause (`Manager.channels`), and the average, which is rebuilt from the ranks that are left
(`History.contest_totals`).

What carries this through a run is that a save reads and writes the entry of its own voter in the
ledger of all votes, and nothing else that is counted here.
-/

namespace RankLedger

variable {ν : Type}

/-! ## 1. The votes of one voter -/

namespace Manager

variable (manager : Manager)

/-- The rank that stands after a vote, if one stood before: a vote beyond the scale changes nothing,
    and a zero that is not stored leaves none. -/
def rankAfter (standing : Option UInt32) (vote : Int) : Option UInt32 :=
  match manager.validate vote with
  | .error _ => standing
  | .ok rank => if manager.isNoVote rank then none else some rank

def rankLeft (votes : List Int) : Option UInt32 :=
  votes.foldl manager.rankAfter none

def withAverage (channel : String) : List String :=
  channel :: if manager.configuration.storeAverage then ["average:updated"] else []

def channelsOf (standing : Option UInt32) (vote : Int) : List String :=
  match manager.validate vote with
  | .error _ => []
  | .ok rank =>
      match standing, manager.isNoVote rank with
      | none, true => []
      | none, false => manager.withAverage "ranking:created"
      | some _, true => manager.withAverage "ranking:deleted"
      | some _, false => manager.withAverage "ranking:updated"

def channels (standing : Option UInt32) : List Int → List String
  | [] => []
  | vote :: rest =>
      manager.channelsOf standing vote ++ channels (manager.rankAfter standing vote) rest

theorem rankLeft_concat (votes : List Int) (vote : Int) :
    manager.rankLeft (votes ++ [vote]) = manager.rankAfter (manager.rankLeft votes) vote := by
  rw [rankLeft, List.foldl_append]
  rfl

theorem channels_concat (standing : Option UInt32) (votes : List Int) (vote : Int) :
    manager.channels standing (votes ++ [vote]) = manager.channels standing votes ++
      manager.channelsOf (votes.foldl manager.rankAfter standing) vote := by
  induction votes generalizing standing with
  | nil => rw [List.nil_append, channels, channels, channels, List.append_nil]; rfl
  | cons first rest ih =>
      rw [List.cons_append, channels, channels, ih, List.append_assoc, List.foldl_cons]

end Manager

abbrev Ballot := UserReference × Int

def votesOf (voter : UserReference) (ballots : List Ballot) : List Int :=
  (ballots.filter fun ballot => ballot.1 == voter).map (·.2)

section Ballots

variable {voter : UserReference} {ballots : List Ballot} {ballot : Ballot}

theorem votesOf_concat_self :
    votesOf ballot.1 (ballots ++ [ballot]) = votesOf ballot.1 ballots ++ [ballot.2] := by
  simp [votesOf]

theorem votesOf_concat_of_ne (other : ballot.1 ≠ voter) :
    votesOf voter (ballots ++ [ballot]) = votesOf voter ballots := by
  simp [votesOf, other]

/-- Whoever is not among the voters has no votes. -/
theorem votesOf_eq_nil (absent : ∀ ballot ∈ ballots, ballot.1 ≠ voter) :
    votesOf voter ballots = [] := by
  rw [votesOf, List.map_eq_nil_iff, List.filter_eq_nil_iff]
  intro ballot mem same
  exact absent ballot mem (beq_iff_eq.1 same)

end Ballots

/-! ## 2. One save -/

/-- The request of a turn did not fail: the answer is no error, except that a vote beyond the scale
    is refused. -/
def Turn.IsServed (turn : Turn ν) : Prop :=
  match turn.request, turn.response with
  | .save _ _ vote, .saved (.error error) => turn.manager.validate vote = .error error
  | _, .removed (.error _) => False
  | _, .recomputed (.error _) => False
  | _, _ => True

variable {tenants : Tenants} {votes : List Ranking} {ledger : Ledger} {before after : World ν}
  {manager : Manager} {target : EntityReference} {voter : UserReference} {turns : List (Turn ν)}

/-- A turn that the ledger takes did not fail. -/
theorem Ledger.Step.isServed {request : Request} {response : Response ν} {next : Ledger}
    (step : Step manager before after ledger request response next) :
    ({ manager, request, response, before, after } : Turn ν).IsServed := by
  cases step with
  | outOfScale beyond => exact if_neg beyond
  | create => trivial
  | revise => trivial
  | withdraw => trivial
  | remove => trivial
  | miss => trivial
  | recompute => trivial

theorem Ledger.Run.isServed (run : Ledger.Run turns ledger) : ∀ turn ∈ turns, turn.IsServed := by
  induction run with
  | start => exact List.forall_mem_nil _
  | turn _ step ih =>
      intro turn mem
      obtain mem | mem := List.mem_append.1 mem
      · exact ih turn mem
      · obtain rfl := List.mem_singleton.1 mem
        exact step.isServed

variable [Scalar ν]

/-- An edit that was done is announced, and with it the average that it changed. -/
theorem Manager.Edited.channels {faults : Call ν → Prop} {edit : Edit}
    {news : List (Notification ν)} (h : manager.Edited faults edit before true news after) :
    news.map (·.event.channel) = manager.withAverage (edit.event : RankingEvent ν).channel := by
  cases h with
  | plain off =>
      rw [withAverage, off]
      rfl
  | full on =>
      rw [withAverage, on]
      rfl

section Save

variable (member : manager ∈ tenants.members) (lists : ledger.Lists votes) {vote : Int}
include member lists

omit [Scalar ν] in
/-- A save without an edit finds no rank and leaves none. -/
theorem Manager.Saves.standing_of_none {rank : UInt32} (valid : manager.validate vote = .ok rank)
    (saves : manager.Saves target voter rank (votes.filter (tenants.keepsIn manager.voteCore))
      before after none) :
    let standing := (ledger ⟨manager.identifier, target, voter⟩).map (·.rank)
    standing = none ∧ manager.rankAfter standing vote = none ∧
      manager.channelsOf standing vote = [] := by
  intro standing
  unfold rankAfter channelsOf
  rw [valid]
  dsimp only
  cases saves with
  | ignored absent noVote =>
      have free : standing = none :=
        congrArg (Option.map _) (Ledger.eq_none_of_absent lists member absent)
      rw [free, noVote]
      exact ⟨rfl, rfl, rfl⟩

omit [Scalar ν] in
/-- Which edit is made of the votes is told by the rank that stood before. -/
theorem Manager.Saves.standing {rank : UInt32} (valid : manager.validate vote = .ok rank)
    {edit : Edit} (saves : manager.Saves target voter rank
      (votes.filter (tenants.keepsIn manager.voteCore)) before after (some edit)) :
    let standing := (ledger ⟨manager.identifier, target, voter⟩).map (·.rank)
    edit.record.key = ⟨manager.identifier, target, voter⟩ ∧
      manager.rankAfter standing vote = edit.answer.map (·.rank) ∧
      manager.channelsOf standing vote =
        manager.withAverage (edit.event : RankingEvent ν).channel := by
  intro standing
  unfold rankAfter channelsOf
  rw [valid]
  dsimp only
  have held {old : Ranking} (mem : old ∈ votes.filter (tenants.keepsIn manager.voteCore))
      (own : manager.IsVoteOf target voter old) : standing = some old.rank :=
    congrArg (Option.map _) (Ledger.eq_some_of_held lists mem own)
  cases saves with
  | first absent isVote =>
      have free : standing = none :=
        congrArg (Option.map _) (Ledger.eq_none_of_absent lists member absent)
      rw [free, isVote]
      exact ⟨rfl, rfl, rfl⟩
  | withdrawn mem own noVote =>
      rw [held mem own, noVote]
      exact ⟨isVoteOf_iff_key.1 own, rfl, rfl⟩
  | revised mem own isVote =>
      rw [held mem own, isVote]
      exact ⟨isVoteOf_iff_key.1 own, rfl, rfl⟩

/-- **One save** reads and writes one entry of the ledger: the rank in it becomes that after the
    vote, and the events are told by the rank that stood before. -/
theorem World.Settled.save (settled : before.Settled tenants votes)
    {result : Except RankingError (Option Ranking)}
    (h : (manager.save target voter vote).run.Yields (World.Answers World.reliable) before result
      after)
    (served : ∀ error, result = .error error → manager.validate vote = .error error) :
    let key : VoteKey := ⟨manager.identifier, target, voter⟩
    let standing := (ledger key).map (·.rank)
    ∃ votes' entry news, after.Settled tenants votes' ∧ (ledger.set key entry).Lists votes' ∧
      manager.rankAfter standing vote = entry.map (·.rank) ∧
      after.heard = before.heard ++ news ∧
      manager.channelsOf standing vote = news.map (·.event.channel) := by
  intro key standing
  have placed := Tenants.isPlaced member
  have unchanged : (ledger.set key (ledger key)).Lists votes := by
    rwa [Ledger.set_self rfl]
  obtain ⟨error, invalid, rfl, rfl⟩ | ⟨rank, valid, trouble | ⟨ignored, rfl, rfl⟩ |
    ⟨edit, done, news, middle, saves, edited, rfl, settles⟩⟩ :=
      Manager.yields_save placed (settled.holds _ placed.separate) h
  · -- the vote is beyond the scale
    refine ⟨votes, _, [], settled, unchanged, ?_, (List.append_nil _).symm, ?_⟩
    · rw [Manager.rankAfter, invalid]
    · rw [Manager.channelsOf, invalid]
      rfl
  · exact absurd trouble.2.1 World.not_unreliable_reliable
  · obtain ⟨free, left, told⟩ := ignored.standing_of_none member lists valid
    exact ⟨votes, _, [], settled, unchanged, left.trans free.symm, (List.append_nil _).symm, told⟩
  · obtain ⟨here, left, told⟩ := saves.standing member lists valid
    have may := (saves.mayMake valid fun vote mem own =>
      settled.order.admits member (List.mem_filter.1 mem).1 own).widen member
    -- a valid vote was not refused, so the edit was done
    obtain rfl : done = true := by
      cases done with
      | true => rfl
      | false =>
          obtain ⟨error, rfl⟩ := settles
          cases valid.symm.trans (served error rfl)
    have made := (settled.edited member edited may).resolve_left fun wrong => by cases wrong.2
    refine ⟨_, edit.answer, news, made.of_core (fun _ _ => rfl) List.prefix_rfl, ?_, left, ?_, ?_⟩
    · have next := lists.on settled.order settled.one may
      rwa [here] at next
    · rw [World.hear, edited.meanwhile.2.2]
    · rw [told, edited.channels]

end Save

/-! ## 3. Many saves -/

omit [Scalar ν] in
/-- A sum changes as much as its one summand that does. -/
theorem sum_map_change {α : Type} {f g : α → Nat} {list : List α} (distinct : list.Nodup) {a : α}
    (mem : a ∈ list) {n : Nat} (here : g a = f a + n)
    (elsewhere : ∀ b ∈ list, b ≠ a → g b = f b) : (list.map g).sum = (list.map f).sum + n := by
  induction list with
  | nil => cases mem
  | cons first rest ih =>
      obtain ⟨absent, distinct⟩ := List.nodup_cons.1 distinct
      rw [List.map_cons, List.sum_cons, List.map_cons, List.sum_cons]
      obtain rfl | mem := List.mem_cons.1 mem
      · have same : rest.map g = rest.map f := by
          apply List.map_congr_left
          intro b mem
          exact elsewhere b (List.mem_cons_of_mem _ mem) fun same => absent (same ▸ mem)
        rw [same, here]
        omega
      · rw [ih distinct mem fun b mem => elsewhere b (List.mem_cons_of_mem _ mem),
          elsewhere first List.mem_cons_self fun same => absent (same ▸ mem)]
        omega

variable {world : World ν}

/-- **Many saves.** After any saves of one manager on one target, the ledger has the rank that is
    left of the votes of each voter, and the events are those that the voters cause, each taken
    alone. -/
theorem History.tally (history : History World.reliable tenants turns world)
    (member : manager ∈ tenants.members) {ballots : List Ballot}
    (asked : turns.map Turn.visit =
      ballots.map fun ballot => (manager, .save target ballot.1 ballot.2))
    (served : ∀ turn ∈ turns, turn.IsServed) {voters : List UserReference}
    (distinct : voters.Nodup) (known : ∀ ballot ∈ ballots, ballot.1 ∈ voters) :
    ∃ votes ledger, world.Settled tenants votes ∧ Ledger.Lists ledger votes ∧
      (∀ voter, (ledger ⟨manager.identifier, target, voter⟩).map (·.rank) =
        manager.rankLeft (votesOf voter ballots)) ∧
      ∀ channel, (world.heard.map (·.event.channel)).count channel =
        (voters.map fun voter =>
          (manager.channels none (votesOf voter ballots)).count channel).sum := by
  induction history generalizing ballots with
  | start =>
      obtain rfl := List.map_eq_nil_iff.1 asked.symm
      refine ⟨[], Ledger.empty, .start, fun key vote => ?_, fun voter => rfl, fun channel => ?_⟩
      · exact ⟨nofun, nofun⟩
      · simp [votesOf, Manager.channels]
  | @turn turns before after other request response history member' yields ih =>
      -- the last turn saves the last vote
      rw [List.map_append] at asked
      obtain ⟨earlier, last, rfl, first, now⟩ := List.map_eq_append_iff.1 asked.symm
      obtain ⟨ballot, rfl, same⟩ := List.map_eq_singleton_iff.1 now
      obtain ⟨rfl, rfl⟩ : manager = other ∧ .save target ballot.1 ballot.2 = request :=
        Prod.mk.inj same
      obtain ⟨result, saved, rfl⟩ := Request.yields_save.1 yields
      obtain ⟨votes, ledger, settled, lists, ranks, events⟩ := ih first.symm
        (fun turn mem => served turn (List.mem_append_left _ mem))
        fun ballot mem => known ballot (List.mem_append_left _ mem)
      have answered : ∀ error, result = .error error →
          manager.validate ballot.2 = .error error := by
        rintro error rfl
        exact served _ (List.mem_append_right _ List.mem_cons_self)
      obtain ⟨votes', entry, news, settled', lists', left, heard, told⟩ :=
        settled.save member lists saved answered
      rw [ranks] at left told
      refine ⟨votes', _, settled', lists', fun voter => ?_, fun channel => ?_⟩
      · by_cases here : ballot.1 = voter
        · subst here
          rw [votesOf_concat_self, Manager.rankLeft_concat, left, Ledger.set, if_pos rfl]
        · rw [votesOf_concat_of_ne here, ← ranks, Ledger.set, if_neg]
          rintro ⟨⟩
          exact here rfl
      · rw [heard, List.map_append, List.count_append, events, ← told]
        symm
        refine sum_map_change distinct (known ballot (List.mem_append_right _ List.mem_cons_self))
          ?_ fun voter _ elsewhere => ?_
        · rw [votesOf_concat_self, Manager.channels_concat, List.count_append]
          rfl
        · rw [votesOf_concat_of_ne (Ne.symm elsewhere)]

/-! ## 4. The totals -/

section Counted

/-- What counts on a target has a place in the ledger. -/
theorem Ledger.Lists.rank_iff (lists : ledger.Lists votes) {rank : UInt32} :
    (∃ vote ∈ votes.filter (manager.counts target), vote.voter = voter ∧ vote.rank = rank) ↔
      (ledger ⟨manager.identifier, target, voter⟩).map (·.rank) = some rank := by
  rw [Option.map_eq_some_iff]
  refine exists_congr fun vote => ?_
  rw [lists, List.mem_filter, Manager.counts_iff, ← Manager.isVoteOf_iff_key]
  constructor
  · rintro ⟨⟨mem, own, onTarget⟩, byVoter, same⟩
    exact ⟨⟨mem, own, onTarget, byVoter⟩, same⟩
  · rintro ⟨⟨mem, own, onTarget, byVoter⟩, same⟩
    exact ⟨⟨mem, own, onTarget⟩, byVoter, same⟩

theorem OnePerVoter.nodup_voters (one : OnePerVoter votes) (distinct : votes.Nodup) :
    ((votes.filter (manager.counts target)).map (·.voter)).Nodup := by
  apply List.Nodup.map_on _ (distinct.filter _)
  intro a ha b hb same
  obtain ⟨memA, countsA⟩ := List.mem_filter.1 ha
  obtain ⟨memB, countsB⟩ := List.mem_filter.1 hb
  obtain ⟨ownA, onA⟩ := Manager.counts_iff.1 countsA
  obtain ⟨ownB, onB⟩ := Manager.counts_iff.1 countsB
  apply one a memA b memB
  rw [Ranking.key, Ranking.key, ownA, ownB, onA, onB, same]

/-- The ranks of votes, one for each voter, are those that are left of the voters. -/
theorem ranks_perm {counted : List Ranking} (once : (counted.map (·.voter)).Nodup)
    {left : UserReference → Option UInt32}
    (ranks : ∀ voter rank, (∃ vote ∈ counted, vote.voter = voter ∧ vote.rank = rank) ↔
      left voter = some rank)
    {voters : List UserReference} (distinct : voters.Nodup)
    (known : ∀ voter, (left voter).isSome → voter ∈ voters) :
    (counted.map (·.rank)).Perm (voters.filterMap left) := by
  have same : counted.map (·.rank) = (counted.map (·.voter)).filterMap left := by
    rw [List.filterMap_map, ← List.filterMap_eq_map]
    apply List.filterMap_congr
    intro vote mem
    exact ((ranks vote.voter vote.rank).1 ⟨vote, mem, rfl, rfl⟩).symm
  have perm : (counted.map (·.voter)).Perm (voters.filter fun voter => (left voter).isSome) := by
    rw [List.perm_ext_iff_of_nodup once (distinct.filter _)]
    intro voter
    rw [List.mem_map, List.mem_filter, Option.isSome_iff_exists]
    constructor
    · rintro ⟨vote, mem, rfl⟩
      have some := (ranks _ _).1 ⟨vote, mem, rfl, rfl⟩
      exact ⟨known _ (Option.isSome_iff_exists.2 ⟨_, some⟩), _, some⟩
    · rintro ⟨-, rank, some⟩
      obtain ⟨vote, mem, rfl, -⟩ := (ranks _ _).2 some
      exact ⟨vote, mem, rfl⟩
  -- voters who are left without a rank do not count anyway
  have counted_voters : voters.filterMap left =
      (voters.filter fun voter => (left voter).isSome).filterMap left := by
    rw [List.filterMap_filter]
    apply List.filterMap_congr
    intro voter _
    cases left voter <;> rfl
  rw [same, counted_voters]
  exact perm.filterMap left

/-- An average rebuilt from votes is told by their ranks, in whatever order. -/
theorem AverageRank.reset_of_ranks {counted : List Ranking} {ranks : List UInt32}
    (perm : (counted.map (·.rank)).Perm ranks) (old : AverageRank ν) (now : Instant) :
    let average := old.reset (Ranking.rankSum counted) counted.length now
    average.number = ranks.length ∧
      (average.average = if ranks = [] then Scalar.zero
        else Scalar.ofCount (ranks.map UInt32.toNat).sum / Scalar.ofCount ranks.length) ∧
      (ranks.length < 4294967296 → (ranks.map UInt32.toNat).sum < 18446744073709551616) := by
  have length : counted.length = ranks.length := by
    rw [← perm.length_eq, List.length_map]
  have sum : Ranking.rankSum counted = (ranks.map UInt32.toNat).sum := by
    rw [Ranking.rankSum_eq_sum, (perm.map _).sum_nat]
  refine ⟨length, ?_, fun few => ?_⟩
  · show (old.reset _ counted.length now).average = _
    rw [length, sum]
    cases ranks <;> rfl
  · rw [← sum]
    exact Ranking.rankSum_lt (length ▸ few)

end Counted

/-- **The totals of a contest.** Let threads save votes on one target through one manager, no voter
    in two threads, and no save fail.  However the threads take turns, each voter is left with the
    rank that is left of the votes of that voter alone; there are as many events of each kind as
    the voters cause alone; and the average, rebuilt from the votes, is of as many ranks as are
    left, and their sum divided by their number, where fewer than 2^32 ranks sum up to a word of 64
    bits.  (Rebuilding fails only if the stored average cannot be read.) -/
theorem History.contest_totals {ι : Type} [DecidableEq ι] {threads : ι → List Ballot}
    {home : UserReference → ι}
    (apart : ∀ thread, ∀ ballot ∈ threads thread, home ballot.1 = thread) {ballots : List Ballot}
    (merges : Merges threads ballots) (history : History World.reliable tenants turns world)
    (member : manager ∈ tenants.members)
    (asked : turns.map Turn.visit =
      ballots.map fun ballot => (manager, .save target ballot.1 ballot.2))
    (served : ∀ turn ∈ turns, turn.IsServed) {voters : List UserReference}
    (distinct : voters.Nodup)
    (known : ∀ thread, ∀ ballot ∈ threads thread, ballot.1 ∈ voters) :
    let own (voter : UserReference) : List Int := votesOf voter (threads (home voter))
    let ranks : List UInt32 := voters.filterMap fun voter => manager.rankLeft (own voter)
    (∃ votes, manager.ShowsVotes world target votes ∧ (votes.map (·.voter)).Nodup ∧
      ∀ voter rank, (∃ vote ∈ votes, vote.voter = voter ∧ vote.rank = rank) ↔
        manager.rankLeft (own voter) = some rank) ∧
    (∀ channel, (world.heard.map (·.event.channel)).count channel =
      (voters.map fun voter => (manager.channels none (own voter)).count channel).sum) ∧
    (manager.recompute target).run.Ensures (World.Answers World.reliable) world fun result _ =>
      (∃ error, result = .error error) ∧
          manager.Unread World.reliable target (world.core averageCore) ∨
        ∃ average, result = .ok average ∧ average.number = ranks.length ∧
          (average.average = if ranks = [] then Scalar.zero
            else Scalar.ofCount (ranks.map UInt32.toNat).sum / Scalar.ofCount ranks.length) ∧
          (ranks.length < 4294967296 → (ranks.map UInt32.toNat).sum < 18446744073709551616) := by
  intro own ranks
  have known' : ∀ ballot ∈ ballots, ballot.1 ∈ voters := by
    intro ballot mem
    obtain ⟨thread, mem⟩ := merges.mem_iff.1 mem
    exact known thread ballot mem
  -- the votes of a voter stand in the merge as they stand in the thread of the voter
  have alone (voter : UserReference) : votesOf voter ballots = own voter := by
    unfold votesOf own
    rw [merges.filter_eq]
    · rfl
    · intro thread ballot mem same
      rw [← apart thread ballot mem, beq_iff_eq.1 same]
  obtain ⟨votes, ledger, settled, lists, left, events⟩ :=
    history.tally member asked served distinct known'
  simp only [alone] at left events
  have ids : votes.Nodup := List.Nodup.of_map _ settled.order.ids
  have once : ((votes.filter (manager.counts target)).map (·.voter)).Nodup :=
    settled.one.nodup_voters ids
  have rank_iff (voter : UserReference) (rank : UInt32) :
      (∃ vote ∈ votes.filter (manager.counts target), vote.voter = voter ∧ vote.rank = rank) ↔
        manager.rankLeft (own voter) = some rank := by
    rw [lists.rank_iff, left]
  refine ⟨⟨_, fun order ascending => ?_, once, rank_iff⟩, events, ?_⟩
  · have listed := settled.holds.ensures_rankings member (RankingQuery.fits_target target) order
      ascending
    rwa [Manager.finds_target] at listed
  · have perm := ranks_perm once rank_iff distinct fun voter some => by
      -- whoever is left with a rank has voted
      apply Classical.byContradiction
      intro unknown
      have none : own voter = [] := votesOf_eq_nil fun ballot mem same =>
        unknown (same ▸ known _ ballot mem)
      rw [none] at some
      cases some
    have total {counted : List Ranking}
        (same : counted.Perm (votes.filter (manager.counts target))) (old : AverageRank ν)
        (now : Instant) :=
      old.reset_of_ranks ((same.map _).trans perm) now
    rw [World.ensures_iff]
    intro result after yields
    have placed := Tenants.isPlaced member
    obtain ⟨news, middle, rebuilt, rfl⟩ :=
      Manager.yields_recompute placed (settled.holds _ placed.separate) yields
    cases rebuilt.widen member with
    | untouched unread => exact .inl ⟨⟨_, rfl⟩, unread⟩
    | waiting fails => exact fails.elim
    | computed _ _ counted => exact .inr ⟨_, rfl, total counted _ _⟩
    | full _ _ counted => exact .inr ⟨_, rfl, total counted _ _⟩

/-- Two threads take turns.  One saves a vote, one beyond the scale, and one of another voter; the
    other saves a vote and then another one in its place. -/
theorem contest_totals_of_two_threads :
    ∃ (threads : Bool → List Ballot) (ballots : List Ballot) (turns : List (Turn Rat))
      (world : World Rat), Merges threads ballots ∧
      ballots = [(⟨"alice"⟩, 4), (⟨"bob"⟩, 5), (⟨"alice"⟩, 9), (⟨"bob"⟩, 3), (⟨"carol"⟩, 2)] ∧
      History World.reliable Tenants.starsAndLikes turns world ∧
      (turns.map Turn.visit = ballots.map fun ballot =>
        (.stars, .save ⟨.document, "Main.WebHome"⟩ ballot.1 ballot.2)) ∧
      (∀ turn ∈ turns, turn.IsServed) ∧
      (world.heard.map (·.event.channel)).count "ranking:created" = 3 ∧
      (world.heard.map (·.event.channel)).count "ranking:updated" = 1 ∧
      (world.heard.map (·.event.channel)).count "average:updated" = 4 ∧
      ∃ average after, (Manager.stars.recompute ⟨.document, "Main.WebHome"⟩).run.Yields
        (World.Answers World.reliable) world (.ok average) after ∧ average.number = 3 ∧
        average.average = 3 := by
  let threads : Bool → List Ballot
    | false => [(⟨"alice"⟩, 4), (⟨"alice"⟩, 9), (⟨"carol"⟩, 2)]
    | true => [(⟨"bob"⟩, 5), (⟨"bob"⟩, 3)]
  let ballots : List Ballot :=
    [(⟨"alice"⟩, 4), (⟨"bob"⟩, 5), (⟨"alice"⟩, 9), (⟨"bob"⟩, 3), (⟨"carol"⟩, 2)]
  have merges : Merges threads ballots := by
    refine @Merges.next _ _ _ _ false _ _ _ rfl ?_
    refine @Merges.next _ _ _ _ true _ _ _ rfl ?_
    refine @Merges.next _ _ _ _ false _ _ _ rfl ?_
    refine @Merges.next _ _ _ _ true _ _ _ rfl ?_
    refine @Merges.next _ _ _ _ false _ _ _ rfl ?_
    exact .done fun thread => by cases thread <;> rfl
  let visits : List (Manager × Request) := ballots.map fun ballot =>
    (.stars, .save ⟨.document, "Main.WebHome"⟩ ballot.1 ballot.2)
  have members : ∀ visit ∈ visits, visit.1 ∈ Tenants.starsAndLikes.members := by decide
  have beginning : History World.reliable Tenants.starsAndLikes [] ({} : World Rat) := .start
  obtain ⟨turns, world, -, history, asked⟩ :=
    beginning.serveAll Deployment.Shows.start members
  rw [List.nil_append] at history
  have short : turns.length < 9223372036854775808 := by
    rw [← List.length_map Turn.visit, asked]
    decide
  have finite : world.AveragesFinite := fun _ _ _ _ => rfl
  obtain ⟨_, run, -⟩ := history.exists_ledger short finite
  have stars : Manager.stars ∈ Tenants.starsAndLikes.members := by decide
  let home (voter : UserReference) : Bool := voter == ⟨"bob"⟩
  have apart : ∀ thread, ∀ ballot ∈ threads thread, home ballot.1 = thread := by decide
  have distinct : [⟨"alice"⟩, ⟨"bob"⟩, (⟨"carol"⟩ : UserReference)].Nodup := by decide
  have known : ∀ thread, ∀ ballot ∈ threads thread,
      ballot.1 ∈ [⟨"alice"⟩, ⟨"bob"⟩, (⟨"carol"⟩ : UserReference)] := by decide
  obtain ⟨-, events, ensures⟩ :=
    history.contest_totals apart merges stars asked run.isServed distinct known
  refine ⟨threads, ballots, turns, world, merges, rfl, history, asked, run.isServed, ?_, ?_, ?_, ?_⟩
  · rw [events]
    decide +kernel
  · rw [events]
    decide +kernel
  · rw [events]
    decide +kernel
  · obtain ⟨⟨result, after, yields⟩, rebuilt⟩ := ensures
    obtain ⟨-, unread⟩ | ⟨average, rfl, number, value, -⟩ := rebuilt _ _ yields
    · exact absurd unread (history.not_unread short finite)
    · refine ⟨average, after, yields, number.trans (by decide +kernel), value.trans ?_⟩
      decide +kernel

end RankLedger
