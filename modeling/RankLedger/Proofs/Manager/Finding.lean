import RankLedger.Proofs.Manager.Inquiry

/-!
# What a lookup finds in any core

A core may hold documents that no manager wrote.  A vote that a lookup finds there was read from a
committed document, and it is one that was looked for: a document that can be read as a vote passes
the same filters as the document of that vote (`Ranking.passes_of_ofDocument`).
-/

namespace RankLedger

variable {ν : Type}

/-! ## 1. Documents that can be read as votes -/

namespace Ranking

variable {document : Document ν} {vote : Ranking}

/-- A document that can be read as a vote passes the filters that the document of the vote
    passes. -/
theorem passes_of_ofDocument [Scalar ν] (h : ofDocument document = .ok vote) (field : QueryField)
    (value : FieldValue ν) :
    IndexQuery.passes document (field.storedName, value) =
      IndexQuery.passes vote.toDocument (field.storedName, value) := by
  obtain ⟨same, -, stored⟩ := ofDocument_eq_ok_iff.1 h
  have ids : (vote.toDocument : Document ν).id = document.id := by rw [id_toDocument, same]
  unfold IndexQuery.passes
  rw [ids]
  by_cases identifier : field = .identifier
  · subst identifier
    exact (if_pos rfl).trans (if_pos rfl).symm
  · rw [stored field identifier, get?_toDocument vote identifier]

end Ranking

namespace AverageRank

variable [Scalar ν] {document : Document ν} {target : EntityReference} {average : AverageRank ν}
  (h : ofDocument document target = .ok average)
include h

theorem id_of_ofDocument : average.id = document.id :=
  (ofDocument_eq_ok_iff.1 h).2.id

theorem target_of_ofDocument : average.target = target :=
  (ofDocument_eq_ok_iff.1 h).1

end AverageRank

/-! ## 2. Lookups -/

namespace Manager

variable [Scalar ν] {manager : Manager} {query : RankingQuery} {faults : Call ν → Prop}
  {before after : World ν}

theorem accepts_of_ofDocument {document : Document ν} {vote : Ranking}
    (h : Ranking.ofDocument document = .ok vote) :
    (manager.indexQuery query : IndexQuery ν).accepts document = true ↔
      vote.manager = manager.identifier ∧ query.Matches ν vote := by
  rw [← accepts_indexQuery, IndexQuery.accepts, IndexQuery.accepts, List.all_eq_true,
    List.all_eq_true]
  -- every filter is on a field of votes
  refine forall₂_congr fun filter mem => ?_
  obtain mem | mem := List.mem_append.1 mem
  · obtain ⟨_, -, rfl⟩ := List.mem_map.1 mem
    rw [Ranking.passes_of_ofDocument h]
  · rw [List.mem_singleton.1 mem, Ranking.passes_of_ofDocument h]

/-- **Lookups.** A vote that is found is one that was looked for, read from a committed document. -/
theorem found_of_yields (named : manager.voteCore ≠ "") {vote : Ranking}
    (h : (manager.oldest? query).run.Yields (World.Answers faults) before (.ok (some vote)) after) :
    (∃ document ∈ (before.core manager.voteCore).documents,
      Ranking.ofDocument document = .ok vote) ∧
      vote.manager = manager.identifier ∧ query.Matches ν vote := by
  obtain ⟨_, _, wrong⟩ | ⟨votes, middle, listed, last⟩ := yields_exceptBind.1 h
  · cases wrong
  · have fits : query.Fits := by
      apply Classical.byContradiction
      intro unfit
      rw [rankings_of_not_fits unfit] at listed
      cases listed.1
    rw [rankings_eq fits] at listed
    obtain ⟨_, _, wrong⟩ | ⟨page, _, read, looked⟩ := yields_exceptBind.1 listed
    · cases wrong
    · obtain ⟨votesOf, rfl⟩ := Attempt.yields_ofExcept.1 looked
      have mem : vote ∈ votes := List.mem_of_getLast? (Except.ok.inj last.1).symm
      obtain ⟨document, onPage, same⟩ := exists_of_mem_votesOf votesOf.symm mem
      cases yields_readPage named read with
      | ok right =>
          obtain ⟨rfl, rfl⟩ := right
          dsimp only at onPage
          have found := (Core.search_perm _ _).subset (IndexQuery.mem_of_mem_page onPage)
          obtain ⟨held, accepted⟩ := List.mem_filter.1 found
          exact ⟨⟨document, held, same⟩, (accepts_of_ofDocument same).1 accepted⟩

end Manager

end RankLedger
