import RankLedger.Proofs.Settled

/-!
# Removing a vote once

Identifiers are never handed out twice, so a vote that is gone does not come back under its
identifier.  Where no call fails, then, of all removals of one vote only one finds it, and the
others leave the averages alone (`History.removes_once`).
-/

namespace RankLedger

variable {ν : Type} [Scalar ν] {manager : Manager} {before after : World ν}

def Turn.Removes (turn : Turn ν) (id : String) : Prop :=
  turn.request = .remove id ∧ turn.response = .removed (.ok true)

/-- Only an edit that was done in full changes an average. -/
theorem Manager.Edited.core_average {edit : Edit} {news : List (Notification ν)}
    (h : manager.Edited World.reliable edit before false news after)
    (placed : manager.IsPlaced) : after.core averageCore = before.core averageCore := by
  cases h with
  | untouched _ idle => rw [idle.core]
  | waiting fails => exact fails.elim
  | torn _ idle => rw [idle.core, World.core_carryOut_of_ne _ _ _ placed.separate.symm]
  | tornWaiting fails => exact fails.elim

section Remove

variable {tenants : Tenants} {votes : List Ranking} {id : String}

/-- **Removals.** A vote that is removed was there and is gone; otherwise the averages stay. -/
theorem World.Settled.remove (settled : before.Settled tenants votes)
    (member : manager ∈ tenants.members) {result : Except RankingError Bool}
    (h : (manager.remove id).run.Yields (World.Answers World.reliable) before result after) :
    ∃ votes', after.Settled tenants votes' ∧ (∀ vote ∈ votes', vote ∈ votes) ∧
      (result = .ok true → (∃ old ∈ votes, old.id = id) ∧ ∀ vote ∈ votes', vote.id ≠ id) ∧
      (result ≠ .ok true → after.core averageCore = before.core averageCore) := by
  have placed := Tenants.isPlaced member
  obtain ⟨-, fails, -⟩ | ⟨-, rfl, rfl⟩ |
    ⟨old, mem, own, done, news, middle, edited, rfl, settles⟩ :=
    Manager.yields_remove placed (settled.holds _ placed.separate) h
  · exact absurd fails World.not_unreliable_reliable
  · exact ⟨votes, settled, fun _ mem => mem, nofun, fun _ => rfl⟩
  · replace mem := (List.mem_filter.1 mem).1
    have left {vote : Ranking} (left : vote ∈ (Edit.erase old).on votes) :
        vote ∈ votes ∧ vote.id ≠ id := by
      obtain ⟨⟨⟩⟩ | ⟨mem, other⟩ := Edit.mem_on.1 left
      exact ⟨mem, fun same => other (same.trans own.2.symm)⟩
    cases done with
    | true =>
        obtain rfl : result = .ok true := settles
        obtain ⟨-, ⟨⟩⟩ | settled := settled.edited member edited (.erase mem own.1)
        exact ⟨_, settled.of_core (fun _ _ => rfl) List.prefix_rfl, fun _ mem => (left mem).1,
          fun _ => ⟨⟨old, mem, own.2⟩, fun _ mem => (left mem).2⟩, fun untrue => absurd rfl untrue⟩
    | false =>
        obtain ⟨error, rfl⟩ := settles
        have same := edited.core_average placed
        obtain ⟨settled, -⟩ | settled := settled.edited member edited (.erase mem own.1)
        · exact ⟨votes, settled.of_core (fun _ _ => rfl) List.prefix_rfl, fun _ mem => mem,
            nofun, fun _ => same⟩
        · exact ⟨_, settled.of_core (fun _ _ => rfl) List.prefix_rfl, fun _ mem => (left mem).1,
            nofun, fun _ => same⟩

/-- A turn that removes a vote, or was to remove one and does not, among all turns. -/
theorem World.Settled.turn (settled : before.Settled tenants votes)
    (member : manager ∈ tenants.members) {request : Request} {response : Response ν}
    (h : (request.program manager).Yields (World.Answers World.reliable) before response after) :
    ∃ votes', after.Settled tenants votes' ∧
      (∀ vote ∈ votes', vote.Continues before.given votes) ∧
      ∀ id, request = .remove id →
        (response = .removed (.ok true) →
          (∃ old ∈ votes, old.id = id) ∧ ∀ vote ∈ votes', vote.id ≠ id) ∧
        (response ≠ .removed (.ok true) → after.core averageCore = before.core averageCore) := by
  cases request with
  | save | recompute =>
      obtain ⟨-, votes', settled', continues⟩ := settled.moves member h
      exact ⟨votes', settled', continues, nofun⟩
  | remove id =>
      obtain ⟨result, removing, rfl⟩ := Request.yields_remove.1 h
      obtain ⟨votes', settled', fewer, removed, spared⟩ := settled.remove member removing
      refine ⟨votes', settled', fun vote mem _ => ⟨vote, fewer vote mem, rfl, rfl⟩, ?_⟩
      rintro _ ⟨⟩
      exact ⟨fun same => removed (Response.removed.inj same),
        fun untrue => spared fun same => untrue (congrArg _ same)⟩

end Remove

namespace History

variable {tenants : Tenants} {turns : List (Turn ν)} {world : World ν}

/-- **Removing once.** Of the turns of a history in which nothing fails, no two remove the same
    vote, and one that was to remove a vote and did not leaves the averages as they are. -/
theorem removes_once (history : History World.reliable tenants turns world) :
    (turns.Pairwise fun earlier later => ∀ id, earlier.Removes id → ¬ later.Removes id) ∧
      ∀ turn ∈ turns, ∀ id, turn.request = .remove id → ¬ turn.Removes id →
        turn.after.core averageCore = turn.before.core averageCore := by
  -- what was removed is not among the votes any more, and its identifier is not given again
  suffices h : ∃ votes, world.Settled tenants votes ∧
      (∀ turn ∈ turns, ∀ id, turn.Removes id → id ∈ world.given ∧ ∀ vote ∈ votes, vote.id ≠ id) ∧
      _ from h.choose_spec.2.2
  induction history with
  | start => exact ⟨[], .start, List.forall_mem_nil _, .nil, List.forall_mem_nil _⟩
  | @turn turns before after manager request response history member yields ih =>
      obtain ⟨votes, settled, gone, once, spared⟩ := ih
      have later := (settled.moves member yields).1
      obtain ⟨votes', settled', continues, now⟩ := settled.turn member yields
      refine ⟨votes', settled', fun turn mem id removes => ?_, ?_,
        fun turn mem id asked untrue => ?_⟩
      · obtain mem | mem := List.mem_append.1 mem
        · obtain ⟨given, absent⟩ := gone turn mem id removes
          refine ⟨later.subset given, fun vote mem same => ?_⟩
          obtain ⟨old, mem, sameId, -⟩ := continues vote mem (same ▸ given)
          exact absent old mem (sameId.trans same)
        · obtain rfl := List.mem_singleton.1 mem
          obtain ⟨⟨old, mem, same⟩, absent⟩ := (now id removes.1).1 removes.2
          exact ⟨later.subset (same ▸ settled.order.given old mem), absent⟩
      · refine List.pairwise_append.2 ⟨once, List.pairwise_singleton _ _, ?_⟩
        intro turn mem last isLast id removes again
        obtain rfl := List.mem_singleton.1 isLast
        obtain ⟨⟨old, held, same⟩, -⟩ := (now id again.1).1 again.2
        exact (gone turn mem id removes).2 old held same
      · obtain mem | mem := List.mem_append.1 mem
        · exact spared turn mem id asked untrue
        · obtain rfl := List.mem_singleton.1 mem
          exact (now id asked).2 fun answered => untrue ⟨asked, answered⟩

end History

end RankLedger
