import RankLedger.Proofs.Books

/-!
# Histories

A history is what the tenants of an index went through, call by call, from the empty world on:
votes are saved and removed and averages rebuilt, in any order and by any of the tenants.  Each
call is answered by the rules of `World.Answers`, so a history says nothing of the time, of the
identifiers that are handed out, and of the calls to the index that fail, beyond what the rules
say.

Whatever is asked, a tenant does one of three things (`Manager.Moves`): nothing that lasts, one
edit of its votes, or one rebuilding of an average.
-/

namespace RankLedger

variable {ν : Type} [Scalar ν]

/-! ## 1. Requests and turns -/

inductive Request where
  | save (target : EntityReference) (voter : UserReference) (vote : Int)
  | remove (id : String)
  | recompute (target : EntityReference)
  deriving DecidableEq, Repr

inductive Response (ν : Type) where
  | saved (result : Except RankingError (Option Ranking))
  | removed (result : Except RankingError Bool)
  | recomputed (result : Except RankingError (AverageRank ν))

def Request.program (manager : Manager) : Request → Program ν (Response ν)
  | save target voter vote =>
      (manager.save target voter vote).run.bind fun result => .done (.saved result)
  | remove id => (manager.remove id).run.bind fun result => .done (.removed result)
  | recompute target => (manager.recompute target).run.bind fun result => .done (.recomputed result)

/-- One request to one tenant, what it answered, and the world before and after. -/
structure Turn (ν : Type) where
  manager : Manager
  request : Request
  response : Response ν
  before : World ν
  after : World ν

/-- The turns that tenants take, one after another, from the empty world to this one. -/
inductive History (faults : Call ν → Prop) (tenants : Tenants) : List (Turn ν) → World ν → Prop
  | start : History faults tenants [] {}
  | turn {turns : List (Turn ν)} {before after : World ν} {manager : Manager} {request : Request}
      {response : Response ν} :
      History faults tenants turns before → manager ∈ tenants.members →
      (request.program manager).Yields (World.Answers faults) before response after →
      History faults tenants (turns ++ [⟨manager, request, response, before, after⟩]) after

/-! ## 2. What a turn does -/

variable {faults : Call ν → Prop} {before after : World ν}

theorem Request.yields_save {manager : Manager} {target : EntityReference} {voter : UserReference}
    {vote : Int} {response : Response ν} :
    ((save target voter vote).program manager).Yields (World.Answers faults) before response after ↔
      ∃ result, (manager.save target voter vote).run.Yields (World.Answers faults) before result
        after ∧ response = .saved result :=
  Program.yields_map

theorem Request.yields_remove {manager : Manager} {id : String} {response : Response ν} :
    ((remove id).program manager).Yields (World.Answers faults) before response after ↔
      ∃ result, (manager.remove id).run.Yields (World.Answers faults) before result after ∧
        response = .removed result :=
  Program.yields_map

theorem Request.yields_recompute {manager : Manager} {target : EntityReference}
    {response : Response ν} :
    ((recompute target).program manager).Yields (World.Answers faults) before response after ↔
      ∃ result, (manager.recompute target).run.Yields (World.Answers faults) before result after ∧
        response = .recomputed result :=
  Program.yields_map

namespace Manager

inductive Moves (faults : Call ν → Prop) (manager : Manager) (votes : List Ranking)
    (before : World ν) : World ν → Prop
  | idle {after : World ν} : before.Idle after → Moves faults manager votes before after
  | edit {edit : Edit} {done : Bool} {news : List (Notification ν)} {middle : World ν} :
      manager.MayMake votes before.given middle.given edit →
      manager.Edited faults edit before done news middle →
      Moves faults manager votes before (middle.hear news)
  | rebuild {target : EntityReference} {result : Except RankingError (AverageRank ν)}
      {news : List (Notification ν)} {middle : World ν} :
      manager.Rebuilt faults target votes before result news middle →
      Moves faults manager votes before (middle.hear news)

end Manager

section Moves

variable {votes : List Ranking} {manager : Manager}

omit [Scalar ν] in
/-- The edit that saving makes is one that the manager may make. -/
theorem Manager.Saves.mayMake {target : EntityReference} {voter : UserReference} {vote : Int}
    {rank : UInt32} {edit : Edit} (valid : manager.validate vote = .ok rank)
    (saves : manager.Saves target voter rank votes before after (some edit))
    (admitted : ∀ vote ∈ votes, vote.manager = manager.identifier → manager.Admits vote) :
    manager.MayMake votes before.given after.given edit := by
  have bound := (validate_eq_ok valid).2
  cases saves with
  | first absent isVote fresh given _ =>
      refine .create ⟨rfl, rfl, bound, isVote⟩ ?_ ?_ fresh given
      · exact ⟨Instant.isWhole_truncated _, Instant.isWhole_truncated _⟩
      · intro other mem same
        exact absent other mem (isVoteOf_iff_key.2 same)
  | withdrawn mem own _ => exact .erase mem own.1
  | revised mem own isVote _ =>
      -- a revised vote keeps the scale of the vote before it
      have admits := admitted _ mem own.1
      exact .revise mem ⟨own.1, admits.scale, bound, isVote⟩ (Instant.isWhole_truncated _)

/-- **Turns.** Whatever is asked of a manager, it makes one of three moves among the votes of its
    core. -/
theorem Request.moves (placed : manager.IsPlaced)
    (held : (before.core manager.voteCore).HoldsVotes votes)
    (admitted : ∀ vote ∈ votes, vote.manager = manager.identifier → manager.Admits vote)
    {request : Request} {response : Response ν}
    (h : (request.program manager).Yields (World.Answers faults) before response after) :
    manager.Moves faults votes before after := by
  cases request with
  | save target voter vote =>
      obtain ⟨result, h, -⟩ := Request.yields_save.1 h
      -- a refusal, a failure and an ignored zero leave nothing behind
      obtain ⟨_, _, _, rfl⟩ | ⟨rank, valid, ⟨_, _, rfl⟩ | ⟨_, _, rfl⟩ |
        ⟨edit, done, news, middle, saves, edited, rfl, _⟩⟩ := Manager.yields_save placed held h
      · exact .idle (World.Idle.refl _)
      · exact .idle (World.Idle.refl _)
      · exact .idle (World.Idle.refl _)
      · exact .edit (saves.mayMake valid admitted) edited
  | remove id =>
      obtain ⟨result, h, -⟩ := Request.yields_remove.1 h
      obtain ⟨_, _, rfl⟩ | ⟨_, _, rfl⟩ |
        ⟨old, mem, own, done, news, middle, edited, rfl, _⟩ := Manager.yields_remove placed held h
      · exact .idle (World.Idle.refl _)
      · exact .idle (World.Idle.refl _)
      · exact .edit (.erase mem own.1) edited
  | recompute target =>
      obtain ⟨result, h, -⟩ := Request.yields_recompute.1 h
      obtain ⟨news, middle, rebuilt, rfl⟩ := Manager.yields_recompute placed held h
      exact .rebuild rebuilt

end Moves

/-! ## 3. Votes of many tenants -/

/-- The votes of each core are those of the tenants that keep theirs there. -/
def World.HoldsVotes (world : World ν) (tenants : Tenants) (votes : List Ranking) : Prop :=
  ∀ core, core ≠ averageCore →
    (world.core core).HoldsVotes (votes.filter (tenants.keepsIn core))

section Share

variable {tenants : Tenants} {votes : List Ranking} {manager : Manager}
  (member : manager ∈ tenants.members)
include member

theorem Tenants.mem_filter_keepsIn {vote : Ranking} (own : vote.manager = manager.identifier) :
    vote ∈ votes.filter (tenants.keepsIn manager.voteCore) ↔ vote ∈ votes := by
  rw [List.mem_filter, keepsIn_iff member own]
  exact and_iff_left rfl

/-- What a manager looks for among its own votes it finds in its core. -/
theorem Tenants.filter_keepsIn {p : Ranking → Bool}
    (own : ∀ vote, p vote = true → vote.manager = manager.identifier) :
    (votes.filter (tenants.keepsIn manager.voteCore)).filter p = votes.filter p := by
  rw [List.filter_filter]
  apply List.filter_congr
  intro vote _
  cases h : p vote with
  | true => exact (keepsIn_iff member (own vote h)).2 rfl
  | false => exact Bool.false_and _

/-- What a manager may do with the votes of its core it may do with all votes. -/
theorem Manager.MayMake.widen {given given' : List String} {edit : Edit}
    (h : manager.MayMake (votes.filter (tenants.keepsIn manager.voteCore)) given given' edit) :
    manager.MayMake votes given given' edit := by
  cases h with
  | create admits whole absent fresh made =>
      refine .create admits whole (fun other mem same => ?_) fresh made
      -- a vote with this key is one of the manager, and so in its core
      have own : other.manager = manager.identifier :=
        (congrArg VoteKey.manager same).trans admits.own
      exact absent other ((Tenants.mem_filter_keepsIn member own).2 mem) same
  | revise mem admits whole => exact .revise (List.mem_filter.1 mem).1 admits whole
  | erase mem own => exact .erase (List.mem_filter.1 mem).1 own

theorem Manager.Rebuilt.widen {target : EntityReference}
    {result : Except RankingError (AverageRank ν)} {news : List (Notification ν)}
    (h : manager.Rebuilt faults target (votes.filter (tenants.keepsIn manager.voteCore)) before
      result news after) : manager.Rebuilt faults target votes before result news after := by
  have counted : (votes.filter (tenants.keepsIn manager.voteCore)).filter (manager.counts target) =
      votes.filter (manager.counts target) :=
    Tenants.filter_keepsIn member fun _ counted => (counts_iff.1 counted).1
  cases h with
  | untouched reason idle => exact .untouched reason idle
  | waiting reason idle read => exact .waiting reason idle read
  | computed off idle perm => exact .computed off idle (counted ▸ perm)
  | full on whole perm read idle => exact .full on whole (counted ▸ perm) read idle

theorem Manager.Moves.widen
    (h : manager.Moves faults (votes.filter (tenants.keepsIn manager.voteCore)) before after) :
    manager.Moves faults votes before after := by
  cases h with
  | idle idle => exact .idle idle
  | edit may edited => exact .edit (may.widen member) edited
  | @rebuild target result news middle rebuilt => exact .rebuild (rebuilt.widen member)

omit [Scalar ν] in
/-- A vote in order under the identifier of a tenant is one that the tenant admits. -/
theorem VotesInOrder.admits {given : List String} (order : VotesInOrder tenants given votes)
    {vote : Ranking} (mem : vote ∈ votes) (own : vote.manager = manager.identifier) :
    manager.Admits vote := by
  obtain ⟨other, member', admits⟩ := order.admitted vote mem
  rwa [← Tenants.eq_of_identifier member' member (admits.own.symm.trans own)]

/-- The votes of the tenants being in order, every turn of a tenant is a move among them. -/
theorem World.HoldsVotes.moves (holds : before.HoldsVotes tenants votes)
    (order : VotesInOrder tenants before.given votes) {request : Request} {response : Response ν}
    (h : (request.program manager).Yields (World.Answers faults) before response after) :
    manager.Moves faults votes before after := by
  have placed := Tenants.isPlaced member
  refine (Request.moves placed (holds _ placed.separate) ?_ h).widen member
  intro vote mem own
  exact order.admits member (List.mem_filter.1 mem).1 own

/-- **Listing.** Where nothing fails, the votes that a tenant shows are those of all votes that are
    its own and answer the query, each once. -/
theorem World.HoldsVotes.ensures_rankings {world : World ν} (holds : world.HoldsVotes tenants votes)
    {query : RankingQuery} (fits : query.Fits) (order : QueryField) (ascending : Bool) :
    (manager.rankings query 0 none order ascending).run.Ensures (World.Answers World.reliable) world
      fun result after => after = world ∧
        ∃ shown, result = .ok shown ∧ shown.Perm (votes.filter (manager.finds ν query)) := by
  have placed := Tenants.isPlaced member
  have held := holds manager.voteCore placed.separate
  have perm := (manager.search_listing query order ascending held).2
  rw [Tenants.filter_keepsIn member fun vote found => (Manager.finds_iff.1 found).1] at perm
  rw [World.ensures_iff]
  intro result after yields
  cases Manager.yields_rankings placed.named fits (held.isLegible _) yields with
  | ok right =>
      obtain ⟨rfl, rfl⟩ := right
      exact ⟨rfl, _, rfl, perm⟩
  | error wrong => exact absurd wrong.2 World.not_unreliable_reliable

end Share

end RankLedger
