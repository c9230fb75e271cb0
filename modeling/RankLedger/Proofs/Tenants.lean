import Mathlib.Data.List.Nodup
import RankLedger.Proofs.Manager.Calls

/-!
# Tenants

The managers that share one index are its *tenants*: any number of them, each set up with any
configuration it can have, no two under one identifier.  The votes of a tenant lie in one core
among those of others, and are told apart by the identifier of their manager.

An edit that a tenant may make (`Manager.MayMake`) keeps the votes in order (`VotesInOrder.on`):
no identifier occurs twice, and each vote belongs to a tenant that admits it.  That a voter has at
most one vote on a target (`OnePerVoter`) is a property of its own, because it needs more: the
votes that the manager looked at must be all the votes there are.
-/

namespace RankLedger

variable {ν : Type}

/-! ## 1. Managers that share an index -/

structure Tenants where
  members : List Manager
  valid : ∀ manager ∈ members,
    Manager.create? manager.identifier manager.configuration manager.locks = .ok manager
  distinct : (members.map (·.identifier)).Nodup

namespace Tenants

variable {tenants : Tenants}

theorem isPlaced {manager : Manager} (h : manager ∈ tenants.members) : manager.IsPlaced :=
  Manager.isPlaced_of_create? (tenants.valid manager h)

theorem eq_of_identifier {a b : Manager} (ha : a ∈ tenants.members) (hb : b ∈ tenants.members)
    (same : a.identifier = b.identifier) : a = b :=
  List.inj_on_of_nodup_map tenants.distinct ha hb same

def keepsIn (tenants : Tenants) (core : String) (vote : Ranking) : Bool :=
  tenants.members.any fun manager =>
    manager.identifier == vote.manager && manager.voteCore == core

theorem keepsIn_iff {manager : Manager} (member : manager ∈ tenants.members) {vote : Ranking}
    (own : vote.manager = manager.identifier) {core : String} :
    tenants.keepsIn core vote = true ↔ manager.voteCore = core := by
  unfold keepsIn
  rw [List.any_eq_true]
  constructor
  · rintro ⟨other, mem, h⟩
    rw [Bool.and_eq_true, beq_iff_eq, beq_iff_eq] at h
    -- the one member with this identifier is the manager itself
    rw [eq_of_identifier member mem (own.symm.trans h.1.symm)]
    exact h.2
  · rintro rfl
    refine ⟨manager, member, ?_⟩
    rw [own, beq_self_eq_true, beq_self_eq_true]
    rfl

end Tenants

/-! ## 2. Votes in order -/

structure VoteKey where
  manager : String
  target : EntityReference
  voter : UserReference
  deriving DecidableEq, Repr

def Ranking.key (vote : Ranking) : VoteKey :=
  { manager := vote.manager, target := vote.target, voter := vote.voter }

def OnePerVoter (votes : List Ranking) : Prop :=
  ∀ a ∈ votes, ∀ b ∈ votes, a.key = b.key → a = b

namespace Manager

theorem isVoteOf_iff_key {manager : Manager} {target : EntityReference} {voter : UserReference}
    {vote : Ranking} :
    manager.IsVoteOf target voter vote ↔
      vote.key = { manager := manager.identifier, target, voter } := by
  rw [IsVoteOf, Ranking.key, VoteKey.mk.injEq]

/-- A vote that the manager could have stored: its own, with the scale of its configuration, a rank
    on that scale, and no zero if zeros are not stored. -/
structure Admits (manager : Manager) (vote : Ranking) : Prop where
  own : vote.manager = manager.identifier
  scale : vote.scale = manager.scale
  rank : vote.rank.toNat ≤ manager.scale.toNat
  isVote : manager.isNoVote vote.rank = false

/-- Where zeros are not stored, every vote is positive. -/
theorem Admits.rank_pos {manager : Manager} {vote : Ranking} (h : manager.Admits vote)
    (off : manager.configuration.storeZero = false) : 0 < vote.rank.toNat := by
  apply Nat.pos_of_ne_zero
  intro zero
  have noVote : manager.isNoVote vote.rank = true := by
    rw [isNoVote, UInt32.toNat_inj.1 (zero.trans UInt32.toNat_zero.symm), off]
    rfl
  exact Bool.false_ne_true (h.isVote.symm.trans noVote)

/-- An edit that the manager may make of these votes.  A first vote needs a voter without one, and
    an identifier that was handed out in the meantime. -/
inductive MayMake (manager : Manager) (votes : List Ranking) (before after : List String) :
    Edit → Prop
  | create {vote : Ranking} : manager.Admits vote → vote.IsWhole →
      (∀ other ∈ votes, other.key ≠ vote.key) → vote.id ∉ before → vote.id ∈ after →
      MayMake manager votes before after (.create vote)
  | revise {old : Ranking} {rank : UInt32} {now : Instant} : old ∈ votes →
      manager.Admits (old.revise rank now) → now.IsWhole →
      MayMake manager votes before after (.revise old rank now)
  | erase {old : Ranking} : old ∈ votes → old.manager = manager.identifier →
      MayMake manager votes before after (.erase old)

theorem MayMake.own {manager : Manager} {votes : List Ranking} {before after : List String}
    {edit : Edit} (h : manager.MayMake votes before after edit) :
    edit.record.manager = manager.identifier := by
  cases h with
  | create admits => exact admits.own
  | revise _ admits => exact admits.own
  | erase _ own => exact own

/-- A vote that an edit leaves is one that the manager admits. -/
theorem MayMake.admits {manager : Manager} {votes : List Ranking} {before after : List String}
    {edit : Edit} (h : manager.MayMake votes before after edit) {vote : Ranking}
    (answer : edit.answer = some vote) : manager.Admits vote := by
  cases h with
  | create admits => cases answer; exact admits
  | revise _ admits => cases answer; exact admits
  | erase => cases answer

theorem validate_eq_ok {manager : Manager} {vote : Int} {rank : UInt32}
    (h : manager.validate vote = .ok rank) :
    (rank.toNat : Int) = vote ∧ rank.toNat ≤ manager.scale.toNat := by
  unfold validate at h
  split at h
  · rename_i bounds
    cases h
    -- a vote on the scale fits the 32 bits of the scale
    have small : vote.toNat < UInt32.size := by
      have := manager.scale.toNat_lt
      show vote.toNat < 4294967296
      omega
    rw [UInt32.toNat_ofNat_of_lt' small]
    omega
  · cases h

end Manager

def Edit.on : Edit → List Ranking → List Ranking
  | .create vote, votes => Shelf.put (·.id) vote votes
  | .revise old rank now, votes => Shelf.put (·.id) (old.revise rank now) votes
  | .erase old, votes => Shelf.erase (·.id) old.id votes

/-- The documents of votes are edited like the votes. -/
theorem Edit.write_on (edit : Edit) (votes : List Ranking) :
    edit.write.on (votes.map Ranking.toDocument) =
      (edit.on votes).map (Ranking.toDocument (ν := ν)) := by
  cases edit with
  | create vote => exact (Shelf.map_put Ranking.id_toDocument).symm
  | revise old rank now =>
      symm
      apply Shelf.map_put
      exact Ranking.id_toDocument
  | erase old => exact (Shelf.map_erase Ranking.id_toDocument).symm

/-- A vote after an edit is the one that was written, or one of another identifier. -/
theorem Edit.mem_on {edit : Edit} {votes : List Ranking} {vote : Ranking} :
    vote ∈ edit.on votes ↔ edit.answer = some vote ∨ vote ∈ votes ∧ vote.id ≠ edit.record.id := by
  cases edit with
  | create new =>
      rw [answer, Option.some_inj, eq_comm]
      exact Shelf.mem_put
  | revise old rank now =>
      rw [answer, Option.some_inj, eq_comm]
      exact Shelf.mem_put
  | erase old =>
      rw [answer, or_iff_right (Option.some_ne_none _).symm]
      exact Shelf.mem_erase

/-- No identifier occurs twice after an edit if none did before. -/
theorem Edit.nodup_on (edit : Edit) {votes : List Ranking} (h : (votes.map (·.id)).Nodup) :
    ((edit.on votes).map (·.id)).Nodup := by
  cases edit with
  | create vote => exact Shelf.nodup_put h
  | revise old rank now => exact Shelf.nodup_put h
  | erase old => exact Shelf.nodup_erase h

section Part

variable {edit : Edit} {votes : List Ranking} {p : Ranking → Bool}

/-- The part of the votes that a vote belongs to before and after an edit is edited. -/
theorem Edit.filter_on_of_pos (record : p edit.record = true)
    (whole : ∀ old ∈ votes, old.id = edit.record.id → p old = true) :
    (edit.on votes).filter p = edit.on (votes.filter p) := by
  cases edit with
  | create vote => exact Shelf.filter_put_of_pos record whole
  | revise old rank now => exact Shelf.filter_put_of_pos record whole
  | erase old => exact Shelf.filter_erase

/-- The other parts of the votes stay as they are. -/
theorem Edit.filter_on_of_neg (record : p edit.record = false)
    (whole : ∀ old ∈ votes, old.id = edit.record.id → p old = false) :
    (edit.on votes).filter p = votes.filter p := by
  cases edit with
  | create vote => exact Shelf.filter_put_of_neg record whole
  | revise old rank now => exact Shelf.filter_put_of_neg record whole
  | erase old =>
      rw [Edit.on, Shelf.filter_erase]
      apply Shelf.erase_of_notMem
      intro mem
      -- the vote that is erased is not in this part
      obtain ⟨other, mem, same⟩ := List.mem_map.1 mem
      obtain ⟨held, counted⟩ := List.mem_filter.1 mem
      rw [whole other held same] at counted
      exact Bool.false_ne_true counted

end Part

structure VotesInOrder (tenants : Tenants) (given : List String) (votes : List Ranking) : Prop where
  ids : (votes.map (·.id)).Nodup
  given : ∀ vote ∈ votes, vote.id ∈ given
  whole : ∀ vote ∈ votes, vote.IsWhole
  admitted : ∀ vote ∈ votes, ∃ manager ∈ tenants.members, manager.Admits vote

namespace VotesInOrder

variable {tenants : Tenants} {given given' : List String} {votes : List Ranking}
  {manager : Manager} {edit : Edit}

theorem nil : VotesInOrder tenants given [] :=
  ⟨List.nodup_nil, List.forall_mem_nil _, List.forall_mem_nil _, List.forall_mem_nil _⟩

theorem eq_of_id (h : VotesInOrder tenants given votes) {a b : Ranking} (ha : a ∈ votes)
    (hb : b ∈ votes) (same : a.id = b.id) : a = b :=
  List.inj_on_of_nodup_map h.ids ha hb same

theorem mono (h : VotesInOrder tenants given votes) (later : given <+: given') :
    VotesInOrder tenants given' votes :=
  ⟨h.ids, fun vote mem => later.subset (h.given vote mem), h.whole, h.admitted⟩

/-- What an edit writes is in order too. -/
theorem answer (h : VotesInOrder tenants given' votes)
    (may : manager.MayMake votes given given' edit) {vote : Ranking}
    (answer : edit.answer = some vote) : vote.id ∈ given' ∧ vote.IsWhole := by
  cases may with
  | create _ whole _ _ made => cases answer; exact ⟨made, whole⟩
  | @revise old _ _ held _ now =>
      cases answer
      exact ⟨h.given old held, (h.whole old held).1, now⟩
  | erase => cases answer

/-- **Edits keep the votes in order.** -/
theorem on (h : VotesInOrder tenants given votes) (member : manager ∈ tenants.members)
    (later : given <+: given') (may : manager.MayMake votes given given' edit) :
    VotesInOrder tenants given' (edit.on votes) := by
  replace h := h.mono later
  refine ⟨edit.nodup_on h.ids, fun vote mem => ?_, fun vote mem => ?_, fun vote mem => ?_⟩
  · obtain written | ⟨mem, -⟩ := Edit.mem_on.1 mem
    · exact (h.answer may written).1
    · exact h.given vote mem
  · obtain written | ⟨mem, -⟩ := Edit.mem_on.1 mem
    · exact (h.answer may written).2
    · exact h.whole vote mem
  · obtain written | ⟨mem, -⟩ := Edit.mem_on.1 mem
    · exact ⟨manager, member, may.admits written⟩
    · exact h.admitted vote mem

end VotesInOrder

/-- **One vote per voter.** If the manager saw all votes, an edit leaves no voter with two. -/
theorem OnePerVoter.on {votes : List Ranking} {given given' : List String} {manager : Manager}
    {edit : Edit} (one : OnePerVoter votes) (may : manager.MayMake votes given given' edit) :
    OnePerVoter (edit.on votes) := by
  -- a vote that was written has another key than all votes under other identifiers
  have other : ∀ a b, b ∈ votes → b.id ≠ edit.record.id → edit.answer = some a →
      a.key ≠ b.key := by
    intro a b hb differs written same
    cases may with
    | create _ _ absent => cases written; exact absent b hb same.symm
    | revise held =>
        cases written
        have := one b hb _ held same.symm
        rw [this] at differs
        exact differs rfl
    | erase => cases written
  intro a ha b hb same
  obtain wa | ⟨ma, ida⟩ := Edit.mem_on.1 ha <;> obtain wb | ⟨mb, idb⟩ := Edit.mem_on.1 hb
  · exact Option.some_inj.1 (wa.symm.trans wb)
  · exact absurd same (other a b mb idb wa)
  · exact absurd same.symm (other b a ma ida wb)
  · exact one a ma b mb same

end RankLedger
