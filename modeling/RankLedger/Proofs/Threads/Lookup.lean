import RankLedger.Proofs.Removal
import RankLedger.Proofs.Threads.Requests
import RankLedger.Proofs.World.Alike

/-!
# Looking for votes while others work

A removal looks for its vote without the lock, so it may look while somebody else is at work.  Of
votes on one target this does no harm.  If the vote is found, it is on the target, so the right
lock is taken, and under the lock the removal looks again.  If it is not found, the vote is gone
for good: whoever is at work will not bring it back (`World.EndsQuietly`), and the removal may as
well come after that work.
-/

namespace RankLedger

variable {ν α : Type}

/-! ## 1. What a lookup may find -/

namespace Core

def Places (core : Core ν) (ids : String → Prop) (target : EntityReference) : Prop :=
  ∃ votes, core.HoldsVotes votes ∧ ∀ vote ∈ votes, ids vote.id → vote.target = target

def Lacks (core : Core ν) (manager : Manager) (id : String) : Prop :=
  ∀ vote, core.Keeps vote → ¬ (vote.manager = manager.identifier ∧ vote.id = id)

variable {a b : Core ν}

theorem Places.of_documents {ids : String → Prop} {target : EntityReference}
    (h : a.Places ids target) (same : b.documents = a.documents) : b.Places ids target := by
  obtain ⟨votes, holds, placed⟩ := h
  exact ⟨votes, ⟨same.trans holds.documents, holds.whole⟩, placed⟩

theorem lacks_of_documents {manager : Manager} {id : String}
    (same : b.documents = a.documents) : a.Lacks manager id ↔ b.Lacks manager id := by
  unfold Lacks Keeps
  rw [same]

end Core

variable [Scalar ν] {manager : Manager} {ids : String → Prop} {target : EntityReference}
  {id : String} {world after : World ν}

/-- A vote that is found is on the target, and one that is not found is not there. -/
theorem Manager.find?_of_places (named : manager.voteCore ≠ "")
    (places : (world.core manager.voteCore).Places ids target) (known : ids id)
    {result : Except RankingError (Option Ranking)}
    (h : (manager.find? id).run.Yields (World.Answers World.reliable) world result after) :
    (∃ seen, result = .ok (some seen) ∧ seen.target = target) ∨
      result = .ok none ∧ (world.core manager.voteCore).Lacks manager id := by
  obtain ⟨votes, holds, placed⟩ := places
  cases Manager.yields_find? named holds h with
  | error reason => exact absurd reason.2 World.not_unreliable_reliable
  | @ok found _ right =>
      obtain ⟨-, answers⟩ := right
      cases found with
      | some seen => exact .inl ⟨seen, rfl, placed seen answers.1 (answers.2.2 ▸ known)⟩
      | none => exact .inr ⟨rfl, fun vote keeps => answers vote (holds.keeps_iff.1 keeps)⟩

/-- Without its vote a removal does nothing. -/
theorem Request.yields_remove_of_lacks {votes : List Ranking} (named : manager.voteCore ≠ "")
    (holds : (world.core manager.voteCore).HoldsVotes votes)
    (lacks : (world.core manager.voteCore).Lacks manager id) :
    ((remove id).program manager).Yields (World.Answers World.reliable) world
      (.removed (.ok false)) world := by
  obtain ⟨result, after, looked⟩ := Program.exists_yields
    (World.exists_answers World.reliable) (manager.find? id).run world
  rw [program_remove, Program.yields_bind]
  cases Manager.yields_find? named holds looked with
  | error reason => exact absurd reason.2 World.not_unreliable_reliable
  | @ok found _ right =>
      obtain ⟨rfl, answers⟩ := right
      cases found with
      | some seen => exact absurd answers.2 (lacks seen (holds.keeps_iff.2 answers.1))
      | none => exact ⟨_, _, looked, rfl, rfl⟩

/-! ## 2. Between requests -/

structure World.IsQuiet (world : World ν) (tenants : Tenants) (ids : String → Prop)
    (target : EntityReference) : Prop where
  settled : ∃ votes, world.Settled tenants votes ∧
    ∀ vote ∈ votes, ids vote.id → vote.target = target
  known : ∀ id, ids id → id ∈ world.given

namespace World.IsQuiet

variable {tenants : Tenants}

omit [Scalar ν] in
theorem alike (quiet : world.IsQuiet tenants ids target) (alike : world.Alike after) :
    after.IsQuiet tenants ids target := by
  obtain ⟨⟨votes, settled, placed⟩, known⟩ := quiet
  refine ⟨⟨votes, settled.of_core (fun core _ => ?_) (alike.given ▸ List.prefix_rfl), placed⟩, ?_⟩
  · rw [alike.core]
  · rwa [← alike.given]

variable (quiet : world.IsQuiet tenants ids target) (member : manager ∈ tenants.members)
include quiet member

omit [Scalar ν] in
theorem places : (world.core manager.voteCore).Places ids target := by
  obtain ⟨votes, settled, placed⟩ := quiet.settled
  refine ⟨_, settled.holds _ (Tenants.isPlaced member).separate, fun vote mem => ?_⟩
  exact placed vote (List.mem_filter.1 mem).1

/-- **Turns.** After a request it is quiet again, and no vote came back. -/
theorem turn {request : Request} {response : Response ν}
    (h : (request.program manager).Yields (World.Answers World.reliable) world response after) :
    after.IsQuiet tenants ids target ∧ ∀ id, ids id →
      (world.core manager.voteCore).Lacks manager id →
        (after.core manager.voteCore).Lacks manager id := by
  have separate := (Tenants.isPlaced member).separate
  obtain ⟨votes, settled, placed⟩ := quiet.settled
  obtain ⟨later, votes', settled', continues⟩ := settled.moves member h
  refine ⟨⟨⟨votes', settled', fun vote mem known => ?_⟩, fun id known => ?_⟩,
    fun id known lacks vote keeps own => ?_⟩
  · obtain ⟨old, held, same, key⟩ := continues vote mem (quiet.known _ known)
    exact (congrArg VoteKey.target key).symm.trans (placed old held (same ▸ known))
  · exact later.subset (quiet.known id known)
  · have mem := (List.mem_filter.1 ((settled'.holds _ separate).keeps_iff.1 keeps)).1
    obtain ⟨old, held, same, key⟩ := continues vote mem (own.2 ▸ quiet.known id known)
    -- the vote was there before, under the same manager
    have ownOld : old.manager = manager.identifier := (congrArg VoteKey.manager key).trans own.1
    refine lacks old ((settled.holds _ separate).keeps_iff.2 ?_) ⟨ownOld, same.trans own.2⟩
    exact (Tenants.mem_filter_keepsIn member ownOld).2 held

end World.IsQuiet

/-! ## 3. While somebody is at work -/

/-- Somebody is in the middle of a program: a lookup may come at any time, it will be quiet when
    the program is over, and no vote that is gone comes back until then. -/
structure World.EndsQuietly (world : World ν) (tenants : Tenants) (manager : Manager)
    (ids : String → Prop) (target : EntityReference) (rest : Program ν α) : Prop where
  places : (world.core manager.voteCore).Places ids target
  ends : ∀ outcome after, rest.Yields (World.Answers World.reliable) world outcome after →
    after.IsQuiet tenants ids target ∧ ∀ id, ids id →
      (world.core manager.voteCore).Lacks manager id →
        (after.core manager.voteCore).Lacks manager id

namespace World.EndsQuietly

variable {tenants : Tenants} {rest : Program ν α}

theorem done (quiet : world.IsQuiet tenants ids target) (member : manager ∈ tenants.members)
    (result : α) : world.EndsQuietly tenants manager ids target (.done result) := by
  refine ⟨quiet.places member, ?_⟩
  rintro _ _ ⟨-, rfl⟩
  exact ⟨quiet, fun _ _ lacks => lacks⟩

theorem quiet {result : α} (h : world.EndsQuietly tenants manager ids target (.done result)) :
    world.IsQuiet tenants ids target :=
  (h.ends result world ⟨rfl, rfl⟩).1

theorem alike (h : world.EndsQuietly tenants manager ids target rest)
    (alike : world.Alike after) : after.EndsQuietly tenants manager ids target rest := by
  refine ⟨alike.core ▸ h.places, fun outcome last yields => ?_⟩
  obtain ⟨last', yields', alike'⟩ := yields.alike alike.symm
  rw [← alike.core, alike'.core]
  exact (h.ends outcome last' yields').imp_left fun quiet => quiet.alike alike'.symm

/-- **Work.** Each call of work under the lock leaves its core as it was, or as it will be at the
    end. -/
theorem work {call : Call ν} {next : call.Reply → Program ν α} {reply : call.Reply}
    (h : world.EndsQuietly tenants manager ids target (.step call next))
    (works : (Program.step call next).Works manager.voteCore 1)
    (member : manager ∈ tenants.members)
    (answered : World.Answers World.reliable call world reply after) :
    after.EndsQuietly tenants manager ids target (next reply) := by
  have ends {outcome : α} {last : World ν}
      (yields : (next reply).Yields (World.Answers World.reliable) after outcome last) :=
    h.ends outcome last ⟨reply, after, answered, yields⟩
  by_cases commits : call.commits manager.voteCore = 0
  · have same := answered.documents commits
    refine ⟨h.places.of_documents same, fun outcome last yields => ?_⟩
    refine (ends yields).imp_right fun gone id known lacks => gone id known ?_
    exact (Core.lacks_of_documents same).2 lacks
  · -- it commits now, so it will not commit again
    have settles : (next reply).Works manager.voteCore 0 := by
      have := works.2.2 reply
      rwa [Nat.sub_eq_zero_of_le (Nat.one_le_iff_ne_zero.2 commits)] at this
    obtain ⟨outcome, last, yields⟩ :=
      Program.exists_yields (World.exists_answers World.reliable) (next reply) after
    refine ⟨((ends yields).1.places member).of_documents (settles.documents yields).symm, ?_⟩
    intro outcome last yields
    refine ⟨(ends yields).1, fun id _ lacks => ?_⟩
    exact (Core.lacks_of_documents (settles.documents yields)).1 lacks

/-- **Requests.** Whoever begins to work under the lock while it is quiet ends quietly. -/
theorem enter (quiet : world.IsQuiet tenants ids target) (member : manager ∈ tenants.members)
    (request : Request) :
    world.EndsQuietly tenants manager ids target (request.work manager) := by
  refine ⟨quiet.places member, fun outcome last yields => ?_⟩
  have placed := Tenants.isPlaced member
  obtain ⟨votes, settled, -⟩ := quiet.settled
  have turn := quiet.turn member
    (Request.yields_of_work placed (settled.holds _ placed.separate) yields)
  exact turn.imp_left fun later => later.alike (World.alike_hear _ _).symm

theorem map {β : Type} {f : α → β} (h : world.EndsQuietly tenants manager ids target rest) :
    world.EndsQuietly tenants manager ids target (rest.bind fun outcome => .done (f outcome)) := by
  refine ⟨h.places, fun _ last yields => ?_⟩
  obtain ⟨outcome, yields, -⟩ := Program.yields_map.1 yields
  exact h.ends outcome last yields

end World.EndsQuietly

end RankLedger
