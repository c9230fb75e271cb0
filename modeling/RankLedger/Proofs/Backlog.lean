import RankLedger.Proofs.History

/-!
# Backlogs

Where commits fail, the writes that were accepted before them wait in the core, and the next commit
carries them all out, whoever makes it.  The waiting writes are edits, and each of them is one that
its manager may make of the votes that are *committed*, because these are all that a manager sees:
a manager does not see its own waiting writes.  So a core is described by its committed votes and
its backlog (`Core.Backlog`), and a turn adds one edit to the backlog, and may then work it off
(`Manager.Advances`, `Core.Backlog.push`, `Core.Backlog.commit`).

Identifiers stay distinct whatever fails.  Voters do not: two first votes of one voter can be in
the backlog at once, because neither is seen when the other is made.  That is the only way in which
a voter gets two votes (`Core.Backlog.onePerVoter`).
-/

namespace RankLedger

variable {ν : Type}

/-! ## 1. Several edits -/

def Edit.onAll (edits : List Edit) (votes : List Ranking) : List Ranking :=
  edits.foldl (fun votes edit => edit.on votes) votes

namespace Edit

variable {edits : List Edit} {edit : Edit} {votes : List Ranking} {vote : Ranking}

theorem onAll_cons : onAll (edit :: edits) votes = onAll edits (edit.on votes) := rfl

/-- The documents of votes are edited like the votes. -/
theorem writes_onAll :
    (edits.map write).foldl (fun shelf write => write.on shelf) (votes.map Ranking.toDocument) =
      (onAll edits votes).map (Ranking.toDocument (ν := ν)) := by
  induction edits generalizing votes with
  | nil => rfl
  | cons edit rest ih => rw [List.map_cons, List.foldl_cons, write_on, ih, onAll_cons]

theorem nodup_onAll (h : (votes.map (·.id)).Nodup) : ((onAll edits votes).map (·.id)).Nodup := by
  induction edits generalizing votes with
  | nil => exact h
  | cons edit rest ih => exact ih (edit.nodup_on h)

/-- A vote after several edits was there before, or one of them wrote it. -/
theorem mem_or_answer_of_mem_onAll (mem : vote ∈ onAll edits votes) :
    vote ∈ votes ∨ ∃ edit ∈ edits, edit.answer = some vote := by
  induction edits generalizing votes with
  | nil => exact .inl mem
  | cons edit rest ih =>
      obtain mem | ⟨other, later, answer⟩ := ih mem
      · obtain answer | ⟨mem, -⟩ := mem_on.1 mem
        · exact .inr ⟨edit, List.mem_cons_self, answer⟩
        · exact .inl mem
      · exact .inr ⟨other, List.mem_cons_of_mem _ later, answer⟩

/-- A vote stays if no edit with its identifier leaves anything else. -/
theorem mem_onAll_of_mem (alone : ∀ edit ∈ edits, edit.record.id = vote.id →
    edit.answer = some vote) (mem : vote ∈ votes ∨ ∃ edit ∈ edits, edit.answer = some vote) :
    vote ∈ onAll edits votes := by
  induction edits generalizing votes with
  | nil =>
      obtain mem | ⟨_, wrong, -⟩ := mem
      · exact mem
      · cases wrong
  | cons edit rest ih =>
      refine ih (fun other later => alone other (List.mem_cons_of_mem _ later)) ?_
      obtain mem | ⟨other, later, answer⟩ := mem
      · left
        -- either the edit writes this very vote, or it is about another one
        by_cases same : edit.record.id = vote.id
        · exact mem_on.2 (.inl (alone edit List.mem_cons_self same))
        · exact mem_on.2 (.inr ⟨mem, Ne.symm same⟩)
      · obtain rfl | later := List.mem_cons.1 later
        · exact .inl (mem_on.2 (.inl answer))
        · exact .inr ⟨other, later, answer⟩

end Edit

/-! ## 2. Votes in cores -/

namespace Core

variable {core : Core ν} {votes : List Ranking} {vote : Ranking}

def Keeps (core : Core ν) (vote : Ranking) : Prop :=
  ∃ document ∈ core.documents, Ranking.ofDocument document = .ok vote

def Awaits (core : Core ν) (vote : Ranking) : Prop :=
  ∃ document, .add document ∈ core.pending ∧ Ranking.ofDocument document = .ok vote

def OneVotePerVoter (core : Core ν) : Prop :=
  ∃ votes, core.HoldsVotes votes ∧ (votes.map Ranking.key).Nodup

theorem HoldsVotes.keeps_iff (holds : core.HoldsVotes votes) : core.Keeps vote ↔ vote ∈ votes := by
  unfold Keeps
  rw [holds.documents]
  constructor
  · rintro ⟨document, mem, read⟩
    obtain ⟨other, held, rfl⟩ := List.mem_map.1 mem
    rw [Ranking.ofDocument_toDocument (holds.whole other held)] at read
    cases read
    exact held
  · intro mem
    exact ⟨_, List.mem_map_of_mem mem, Ranking.ofDocument_toDocument (holds.whole vote mem)⟩

/-- Votes that are read from the documents of a core are committed. -/
theorem keeps_of_read (read : (core.documents.map fun document =>
    (Ranking.ofDocument document).toOption) = votes.map some) (mem : vote ∈ votes) :
    core.Keeps vote := by
  have mem : some vote ∈ votes.map some := List.mem_map_of_mem mem
  rw [← read] at mem
  obtain ⟨document, mem, right⟩ := List.mem_map.1 mem
  refine ⟨document, mem, ?_⟩
  cases h : Ranking.ofDocument document with
  | ok other =>
      rw [h] at right
      cases right
      rfl
  | error _ =>
      rw [h] at right
      cases right

theorem OneVotePerVoter.eq_of_key (one : core.OneVotePerVoter) {first again : Ranking}
    (keeps : core.Keeps first) (keeps' : core.Keeps again) (same : first.key = again.key) :
    first = again := by
  obtain ⟨votes, holds, distinct⟩ := one
  exact List.inj_on_of_nodup_map distinct (holds.keeps_iff.1 keeps) (holds.keeps_iff.1 keeps') same

end Core

/-! ## 3. Committed votes and waiting edits -/

/-- The core of this name holds these votes, and these edits wait in it, each of which a tenant may
    make of the votes that are committed.  No two first votes have one identifier. -/
structure Core.Backlog (core : Core ν) (tenants : Tenants) (name : String) (given : List String)
    (votes : List Ranking) (waiting : List Edit) : Prop where
  documents : core.documents = votes.map Ranking.toDocument
  pending : core.pending = waiting.map Edit.write
  order : VotesInOrder tenants given votes
  placed : ∀ vote ∈ votes, tenants.keepsIn name vote = true
  waits : ∀ edit ∈ waiting, ∃ manager ∈ tenants.members, manager.voteCore = name ∧
    manager.MayMake votes (votes.map (·.id)) given edit
  distinct : ∀ a b, .create a ∈ waiting → .create b ∈ waiting → a.id = b.id → a = b

/-- First votes that can be told apart by `f` still can if one more is told apart from the
    others. -/
theorem Edit.injOn_push {β : Type} {f : Ranking → β} {waiting : List Edit} {edit : Edit}
    (inj : ∀ a b, .create a ∈ waiting → .create b ∈ waiting → f a = f b → a = b)
    (new : ∀ a b, .create a ∈ waiting → .create b = edit → f a ≠ f b) :
    ∀ a b, .create a ∈ waiting ++ [edit] → .create b ∈ waiting ++ [edit] → f a = f b → a = b := by
  intro a b ha hb same
  obtain ha | ha := List.mem_append.1 ha <;> obtain hb | hb := List.mem_append.1 hb
  · exact inj a b ha hb same
  · exact absurd same (new a b ha (List.mem_singleton.1 hb))
  · exact absurd same.symm (new b a hb (List.mem_singleton.1 ha))
  · cases (List.mem_singleton.1 ha).trans (List.mem_singleton.1 hb).symm
    rfl

def OneFirstVoteEach (waiting : List Edit) : Prop :=
  ∀ a b, .create a ∈ waiting → .create b ∈ waiting → a.key = b.key → a = b

namespace Core.Backlog

variable {core : Core ν} {tenants : Tenants} {name : String} {given given' : List String}
  {votes : List Ranking} {waiting : List Edit} {vote : Ranking}

theorem holds (h : core.Backlog tenants name given votes waiting) : core.HoldsVotes votes :=
  ⟨h.documents, h.order.whole⟩

/-- What happens to the identifiers elsewhere does no harm. -/
theorem mono (h : core.Backlog tenants name given votes waiting) (later : given <+: given') :
    core.Backlog tenants name given' votes waiting := by
  refine ⟨h.documents, h.pending, h.order.mono later, h.placed, fun edit mem => ?_, h.distinct⟩
  obtain ⟨manager, member, here, may⟩ := h.waits edit mem
  refine ⟨manager, member, here, ?_⟩
  cases may with
  | create admits whole absent fresh made =>
      exact .create admits whole absent fresh (later.subset made)
  | revise held admits whole => exact .revise held admits whole
  | erase held own => exact .erase held own

/-- A first vote that waits is of a voter without a committed vote, under a new identifier. -/
theorem of_create (h : core.Backlog tenants name given votes waiting)
    (mem : .create vote ∈ waiting) :
    (∀ old ∈ votes, old.key ≠ vote.key) ∧ vote.id ∉ votes.map (·.id) ∧ vote.id ∈ given := by
  obtain ⟨_, _, _, may⟩ := h.waits _ mem
  cases may with
  | create _ _ absent fresh made => exact ⟨absent, fresh, made⟩

/-- **Waiting.** One more edit of the committed votes waits. -/
theorem push (h : core.Backlog tenants name given votes waiting) (later : given <+: given')
    {manager : Manager} (member : manager ∈ tenants.members) (here : manager.voteCore = name)
    {edit : Edit} (may : manager.MayMake votes given given' edit) :
    (core.push edit.write).Backlog tenants name given' votes (waiting ++ [edit]) := by
  refine ⟨h.documents, ?_, h.order.mono later, h.placed, fun other mem => ?_, ?_⟩
  · rw [List.map_append, ← h.pending]
    rfl
  · obtain mem | mem := List.mem_append.1 mem
    · exact (h.mono later).waits other mem
    · rw [List.mem_singleton] at mem
      subst mem
      refine ⟨manager, member, here, ?_⟩
      cases may with
      | create admits whole absent fresh made =>
          refine .create admits whole absent (fun used => fresh ?_) made
          -- committed votes have identifiers that were handed out before
          obtain ⟨old, mem, same⟩ := List.mem_map.1 used
          exact same ▸ h.order.given old mem
      | revise held admits whole => exact .revise held admits whole
      | erase held own => exact .erase held own
  · refine Edit.injOn_push h.distinct fun a b waits new same => ?_
    subst new
    cases may with
    | create _ _ _ fresh _ => exact fresh (same ▸ (h.of_create waits).2.2)

/-- What a waiting edit leaves is a vote that a tenant of the core admits. -/
theorem answer (h : core.Backlog tenants name given votes waiting) {edit : Edit}
    (mem : edit ∈ waiting) (answer : edit.answer = some vote) :
    vote.id ∈ given ∧ vote.IsWhole ∧ ∃ manager ∈ tenants.members, manager.voteCore = name ∧
      manager.Admits vote := by
  obtain ⟨manager, member, here, may⟩ := h.waits edit mem
  obtain ⟨made, whole⟩ := h.order.answer may answer
  exact ⟨made, whole, manager, member, here, may.admits answer⟩

/-- **Committing.** The backlog is worked off, and leaves votes in order. -/
theorem commit (h : core.Backlog tenants name given votes waiting) :
    core.commit.Backlog tenants name given (Edit.onAll waiting votes) [] := by
  refine ⟨?_, ?_, ⟨Edit.nodup_onAll h.order.ids, fun vote mem => ?_, fun vote mem => ?_,
    fun vote mem => ?_⟩, fun vote mem => ?_, fun _ mem => absurd mem List.not_mem_nil,
    fun _ _ mem => absurd mem List.not_mem_nil⟩
  · rw [documents_commit, h.pending, h.documents, Edit.writes_onAll]
  · rw [pending_commit, List.map_nil]
  · obtain mem | ⟨edit, mem, answer⟩ := Edit.mem_or_answer_of_mem_onAll mem
    · exact h.order.given vote mem
    · exact (h.answer mem answer).1
  · obtain mem | ⟨edit, mem, answer⟩ := Edit.mem_or_answer_of_mem_onAll mem
    · exact h.order.whole vote mem
    · exact (h.answer mem answer).2.1
  · obtain mem | ⟨edit, mem, answer⟩ := Edit.mem_or_answer_of_mem_onAll mem
    · exact h.order.admitted vote mem
    · obtain ⟨-, -, manager, member, -, admits⟩ := h.answer mem answer
      exact ⟨manager, member, admits⟩
  · obtain mem | ⟨edit, mem, answer⟩ := Edit.mem_or_answer_of_mem_onAll mem
    · exact h.placed vote mem
    · obtain ⟨-, -, manager, member, here, admits⟩ := h.answer mem answer
      exact (Tenants.keepsIn_iff member admits.own).2 here

/-- A vote that the next commit leaves is a first vote of the backlog, or has the identifier and the
    voter of a committed one. -/
theorem origin (h : core.Backlog tenants name given votes waiting)
    (mem : vote ∈ Edit.onAll waiting votes) :
    .create vote ∈ waiting ∨ ∃ old ∈ votes, old.id = vote.id ∧ old.key = vote.key := by
  obtain mem | ⟨edit, mem, answer⟩ := Edit.mem_or_answer_of_mem_onAll mem
  · exact .inr ⟨vote, mem, rfl, rfl⟩
  · cases edit with
    | create first => cases answer; exact .inl mem
    | revise old rank now =>
        obtain ⟨_, _, _, may⟩ := h.waits _ mem
        cases may with
        | revise held => cases answer; exact .inr ⟨old, held, rfl, rfl⟩
    | erase old => cases answer

/-- **One vote per voter.** If no voter has two committed votes, and none has two first votes in the
    backlog, then the next commit leaves no voter with two votes. -/
theorem onePerVoter (h : core.Backlog tenants name given votes waiting) (one : OnePerVoter votes)
    (first : OneFirstVoteEach waiting) : OnePerVoter (Edit.onAll waiting votes) := by
  intro a ha b hb same
  obtain newA | ⟨oldA, memA, idA, keyA⟩ := h.origin ha <;>
    obtain newB | ⟨oldB, memB, idB, keyB⟩ := h.origin hb
  · exact first a b newA newB same
  · exact absurd (keyB.trans same.symm) ((h.of_create newA).1 oldB memB)
  · exact absurd (keyA.trans same) ((h.of_create newB).1 oldA memA)
  · -- both continue committed votes, and these are one
    have committed := one oldA memA oldB memB (keyA.trans (same.trans keyB.symm))
    rw [committed] at idA
    exact h.commit.order.eq_of_id ha hb (idA.symm.trans idB)

/-- A first vote in the backlog is there after the next commit. -/
theorem mem_onAll_of_create (h : core.Backlog tenants name given votes waiting)
    (mem : .create vote ∈ waiting) : vote ∈ Edit.onAll waiting votes := by
  have unused := (h.of_create mem).2.1
  refine Edit.mem_onAll_of_mem (fun edit other same => ?_) (.inr ⟨_, mem, rfl⟩)
  cases edit with
  | create first => rw [h.distinct first vote other mem same]; rfl
  | revise old _ _ =>
      obtain ⟨_, _, _, may⟩ := h.waits _ other
      cases may with
      | revise held => exact absurd (List.mem_map.2 ⟨old, held, same⟩) unused
  | erase old =>
      obtain ⟨_, _, _, may⟩ := h.waits _ other
      cases may with
      | erase held => exact absurd (List.mem_map.2 ⟨old, held, same⟩) unused

/-- What waits was written by an edit of the backlog. -/
theorem awaits_iff (h : core.Backlog tenants name given votes waiting) :
    core.Awaits vote ↔ ∃ edit ∈ waiting, edit.answer = some vote := by
  unfold Awaits
  rw [h.pending]
  constructor
  · rintro ⟨document, written, read⟩
    obtain ⟨edit, mem, write⟩ := List.mem_map.1 written
    -- a write that adds a document is of an edit that leaves a vote
    cases hanswer : edit.answer with
    | none => cases edit <;> cases hanswer; cases write
    | some other =>
        rw [Edit.write_of_answer hanswer] at write
        cases write
        rw [Ranking.ofDocument_toDocument (h.answer mem hanswer).2.1] at read
        cases read
        exact ⟨edit, mem, hanswer⟩
  · rintro ⟨edit, mem, answer⟩
    refine ⟨_, ?_, Ranking.ofDocument_toDocument (h.answer mem answer).2.1⟩
    rw [← Edit.write_of_answer answer]
    exact List.mem_map_of_mem mem

end Core.Backlog

end RankLedger
