import RankLedger.Proofs.Bookkeeping
import RankLedger.Proofs.OneVote

/-!
# Settled votes

Where no call fails, every write of a vote is committed by the request that made it.  So between
requests the votes of the tenants are all committed (`World.Settled`), each voter has at most one,
and this does not depend on the averages: nothing here asks whether they are finite, or how many
votes they count.
-/

namespace RankLedger

variable {ν : Type}

/-- A vote under an identifier that was handed out before continues one of the votes that were
    there: it is of the same voter, on the same target, and under the same manager. -/
def Ranking.Continues (vote : Ranking) (given : List String) (votes : List Ranking) : Prop :=
  vote.id ∈ given → ∃ old ∈ votes, old.id = vote.id ∧ old.key = vote.key

/-- Edits bring no other votes than new ones. -/
theorem Manager.MayMake.continues {manager : Manager} {votes : List Ranking}
    {given given' : List String} {edit : Edit} (may : manager.MayMake votes given given' edit)
    {vote : Ranking} (mem : vote ∈ edit.on votes) : vote.Continues given votes := by
  intro known
  obtain written | ⟨mem, -⟩ := Edit.mem_on.1 mem
  · cases may with
    | create _ _ _ fresh =>
        cases written
        exact absurd known fresh
    | revise held =>
        cases written
        exact ⟨_, held, rfl, rfl⟩
    | erase => cases written
  · exact ⟨vote, mem, rfl, rfl⟩

/-- Where nothing fails, an edit is made of the votes and told, whatever becomes of the average, or
    nothing was done. -/
theorem Manager.Edited.made [Scalar ν] {manager : Manager} {edit : Edit} {done : Bool}
    {news : List (Notification ν)} {before after : World ν}
    (h : manager.Edited World.reliable edit before done news after) :
    done = false ∧ news = [] ∧ after.core = before.core ∨
    (∃ rest, news = manager.tells edit.event edit.record :: rest ∧
      ∀ n ∈ rest, ∃ old new, n = manager.tellsAverage old new) ∧
      ∀ core, core ≠ averageCore →
        after.core core = (before.carryOut manager.voteCore edit.write).core core := by
  cases h with
  | untouched _ idle => exact .inl ⟨rfl, rfl, idle.core⟩
  | waiting fails | tornWaiting fails => exact fails.elim
  | torn _ idle | plain _ idle =>
      exact .inr ⟨⟨[], rfl, List.forall_mem_nil _⟩, fun core _ => by rw [idle.core]⟩
  | full _ _ _ idle =>
      refine .inr ⟨⟨_, rfl, List.forall_mem_singleton.2 ⟨_, _, rfl⟩⟩, fun core apart => ?_⟩
      rw [idle.core, World.core_carryOut_of_ne _ _ _ apart]

structure World.Settled (world : World ν) (tenants : Tenants) (votes : List Ranking) : Prop where
  holds : world.HoldsVotes tenants votes
  order : VotesInOrder tenants world.given votes
  one : OnePerVoter votes
  quiet : ∀ core, core ≠ averageCore → (world.core core).pending = []

namespace World.Settled

variable {tenants : Tenants} {votes : List Ranking} {before after : World ν} {manager : Manager}

theorem start : ({} : World ν).Settled tenants [] := by
  refine ⟨fun _ _ => ⟨rfl, List.forall_mem_nil _⟩, .nil, ?_, fun _ _ => rfl⟩
  intro _ mem
  cases mem

/-- What happens to the averages does no harm. -/
theorem of_core (settled : before.Settled tenants votes)
    (same : ∀ core, core ≠ averageCore → after.core core = before.core core)
    (later : before.given <+: after.given) : after.Settled tenants votes := by
  refine ⟨fun core apart => ?_, settled.order.mono later, settled.one, fun core apart => ?_⟩
  · rw [same core apart]
    exact settled.holds core apart
  · rw [same core apart]
    exact settled.quiet core apart

/-- An edit that was carried out was made of the votes. -/
theorem of_carryOut (settled : before.Settled tenants votes) (member : manager ∈ tenants.members)
    (later : before.given <+: after.given) {edit : Edit}
    (may : manager.MayMake votes before.given after.given edit)
    (same : ∀ core, core ≠ averageCore →
      after.core core = (before.carryOut manager.voteCore edit.write).core core) :
    after.Settled tenants (edit.on votes) := by
  have placed := Tenants.isPlaced member
  have holds := settled.holds.carryOut member settled.order may
    (settled.quiet _ placed.separate) later
  refine ⟨fun core apart => ?_, settled.order.on member later may, settled.one.on may,
    fun core apart => ?_⟩
  · rw [same core apart]
    exact holds core apart
  · rw [same core apart]
    by_cases here : core = manager.voteCore
    · rw [here, World.core_carryOut_self, Core.pending_commit]
    · rw [World.core_carryOut_of_ne _ _ _ here]
      exact settled.quiet core apart

variable [Scalar ν] {edit : Edit} {done : Bool} {news : List (Notification ν)}

variable (settled : before.Settled tenants votes) (member : manager ∈ tenants.members)
include settled member

/-- After an edit the votes are settled, as they were or edited. -/
theorem edited (h : manager.Edited World.reliable edit before done news after)
    (may : manager.MayMake votes before.given after.given edit) :
    after.Settled tenants votes ∧ done = false ∨ after.Settled tenants (edit.on votes) := by
  have later := h.meanwhile.1
  obtain ⟨undone, -, same⟩ | ⟨-, same⟩ := h.made
  · exact .inl ⟨settled.of_core (fun core _ => by rw [same]) later, undone⟩
  · exact .inr (settled.of_carryOut member later may same)

/-- What a manager may do with the votes of its core, it does among all votes. -/
theorem moves {request : Request} {response : Response ν}
    (h : (request.program manager).Yields (World.Answers World.reliable) before response after) :
    before.given <+: after.given ∧ ∃ votes', after.Settled tenants votes' ∧
      ∀ vote ∈ votes', vote.Continues before.given votes := by
  have same : ∀ vote ∈ votes, vote.Continues before.given votes :=
    fun vote mem _ => ⟨vote, mem, rfl, rfl⟩
  cases settled.holds.moves member settled.order h with
  | idle idle =>
      exact ⟨idle.given, votes, settled.of_core (fun core _ => by rw [idle.core]) idle.given, same⟩
  | @edit edit done news middle may edited =>
      refine ⟨edited.meanwhile.1, ?_⟩
      obtain ⟨settled, -⟩ | settled := settled.edited member edited may
      · exact ⟨votes, settled.of_core (fun _ _ => rfl) List.prefix_rfl, same⟩
      · exact ⟨_, settled.of_core (fun _ _ => rfl) List.prefix_rfl, fun _ => may.continues⟩
  | @rebuild target result news middle rebuilt =>
      have later := rebuilt.meanwhile.1
      refine ⟨later, votes, settled.of_core (fun core apart => ?_) later, same⟩
      exact rebuilt.core_eq apart

end World.Settled

/-- **Settled votes.** After every history in which nothing fails the votes are settled. -/
theorem History.settled [Scalar ν] {tenants : Tenants} {turns : List (Turn ν)} {world : World ν}
    (history : History World.reliable tenants turns world) :
    ∃ votes, world.Settled tenants votes := by
  induction history with
  | start => exact ⟨[], .start⟩
  | turn _ member yields ih =>
      obtain ⟨votes, settled⟩ := ih
      obtain ⟨-, votes', settled', -⟩ := settled.moves member yields
      exact ⟨votes', settled'⟩

end RankLedger
