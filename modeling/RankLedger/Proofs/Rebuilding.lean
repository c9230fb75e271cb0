import RankLedger.Proofs.AverageOf
import RankLedger.Proofs.Repair

/-!
# Rebuilding an average from any content

The cores may hold documents that no manager wrote.  As long as they can be read, and the documents
that bear the marks of a vote on the target are votes, rebuilding counts each of those documents
once (`Manager.recompute_counts_vote_documents`).  It reads them page by page; how many there are,
when they were created and where they stand makes no difference.

**Rounds.** `Manager.allRankings` goes on until a page is not full, for at most one round more than
there are full pages among as many votes as were found at first.  More rounds would make no
difference (`Manager.yields_allRankings_add`): it is always a page that is not full that ends the
reading.  `Manager.readPages` is the loop that has no result where its rounds run out.

**Sums.** The ranks are summed up as natural numbers.  Fewer than 2^32 of them never leave a word of
64 bits (`Ranking.rankSum_lt`).
-/

namespace RankLedger

variable {ν : Type}

/-! ## 1. Documents that count -/

def Document.text? (document : Document ν) (field : String) : Option String :=
  (document.get? field).bind FieldValue.asText?

def Manager.isVoteOn (manager : Manager) (target : EntityReference) (document : Document ν) :
    Bool :=
  document.text? QueryField.managerId.storedName == some manager.identifier &&
    document.text? QueryField.entityReference.storedName == some target.reference &&
    document.text? QueryField.entityType.storedName == some target.entityType.name

def Manager.isAverageOf (manager : Manager) (target : EntityReference) (document : Document ν) :
    Bool :=
  document.text? AverageField.managerId.storedName == some manager.identifier &&
    document.text? AverageField.rankedElement.storedName == some target.reference &&
    document.text? AverageField.entityType.storedName == some target.entityType.name

variable [Scalar ν] {faults : Call ν → Prop} {before after : World ν} {manager : Manager}
  {target : EntityReference}

/-- A filter on a text compares the text in the field. -/
theorem IndexQuery.passes_text (document : Document ν) {field : String} (other : field ≠ idField)
    (text : String) :
    passes document (field, .text text) = (document.text? field == some text) := by
  rw [passes, if_neg other, Document.text?]
  cases document.get? field with
  | none => rfl
  | some value => cases value <;> rfl

namespace Manager

theorem accepts_indexQuery_target (document : Document ν) :
    (manager.indexQuery (RankingQuery.empty.target target)).accepts document =
      manager.isVoteOn target document := by
  show List.all [(QueryField.entityReference.storedName, FieldValue.text target.reference),
    (QueryField.entityType.storedName, FieldValue.text target.entityType.name),
    (QueryField.managerId.storedName, FieldValue.text manager.identifier)]
    (IndexQuery.passes document) = _
  rw [List.all_cons, List.all_cons, List.all_cons, List.all_nil, Bool.and_true,
    IndexQuery.passes_text _ (by decide), IndexQuery.passes_text _ (by decide),
    IndexQuery.passes_text _ (by decide), ← Bool.and_assoc, Bool.and_comm, ← Bool.and_assoc,
    isVoteOn]

theorem accepts_averageQuery_eq (document : Document ν) :
    (manager.averageQuery target).accepts document = manager.isAverageOf target document := by
  show List.all [(AverageField.managerId.storedName, FieldValue.text manager.identifier),
    (AverageField.rankedElement.storedName, FieldValue.text target.reference),
    (AverageField.entityType.storedName, FieldValue.text target.entityType.name)]
    (IndexQuery.passes document) = _
  rw [List.all_cons, List.all_cons, List.all_cons, List.all_nil, Bool.and_true,
    IndexQuery.passes_text _ (by decide), IndexQuery.passes_text _ (by decide),
    IndexQuery.passes_text _ (by decide), ← Bool.and_assoc, isAverageOf]

section Hydrates

variable {core : Core ν} {votes : List Ranking}
  (hydrates : (core.documents.filter (manager.isVoteOn target)).map Ranking.ofDocument =
    votes.map .ok)
include hydrates

/-- If the documents that bear the marks of votes are votes, these are what is found. -/
theorem isLegible_of_hydrates (readable : core.isReadable = true) :
    core.IsLegible (manager.indexQuery (RankingQuery.empty.target target)) := by
  refine ⟨readable, fun document mem accepted => ?_⟩
  rw [accepts_indexQuery_target] at accepted
  have read := List.mem_map_of_mem (f := Ranking.ofDocument)
    (List.mem_filter.2 ⟨mem, accepted⟩)
  rw [hydrates] at read
  obtain ⟨vote, -, same⟩ := List.mem_map.1 read
  exact ⟨vote, same.symm⟩

theorem found_perm_of_hydrates :
    (manager.found (RankingQuery.empty.target target) .createdDate true core).Perm votes := by
  rw [← filterMap_of_map_ofDocument hydrates]
  refine List.Perm.filterMap _ ((core.search_perm _).trans (List.Perm.of_eq ?_))
  congr 1
  funext document
  exact accepts_indexQuery_target document

end Hydrates

/-! ## 2. Page after page -/

omit [Scalar ν] in
/-- Reads page after page until one is not full, in so many rounds at most; there is no result if
    they were not enough. -/
def readPages (manager : Manager) (query : RankingQuery) :
    (rounds offset : Nat) → Attempt ν (Option (List Ranking))
  | 0, _ => return none
  | rounds + 1, offset => do
      let page ← manager.rankings query offset (some batch) .createdDate true
      if page.length < batch then return some page
      else
        let rest ← manager.readPages query rounds (offset + batch)
        return rest.map (page ++ ·)

/-- **Rounds.** Each full page takes one round, and one more is taken to see that there is no full
    page left. -/
theorem yields_readPages (named : manager.voteCore ≠ "") {query : RankingQuery}
    (fits : query.Fits)
    (legible : (before.core manager.voteCore).IsLegible (manager.indexQuery query))
    {rounds offset : Nat} {result : Except RankingError (Option (List Ranking))}
    (h : (manager.readPages query rounds offset).run.Yields (World.Answers faults) before result
      after) :
    let left := (manager.found query .createdDate true (before.core manager.voteCore)).drop offset
    Ends (fun votes after => after = before ∧
        votes = if left.length / batch < rounds then some left else none)
      (fun after => after = before ∧ World.Unreliable faults) result after := by
  -- the found votes stay the same while the offset moves on through them
  generalize hfound : manager.found query .createdDate true (before.core manager.voteCore) = found
  induction rounds generalizing offset result after with
  | zero =>
      obtain ⟨rfl, rfl⟩ := h
      exact .ok ⟨rfl, (if_neg (Nat.not_lt_zero _)).symm⟩
  | succ rounds ih =>
      rw [readPages] at h
      obtain ⟨⟨_, rfl⟩, reason⟩ | ⟨_, _, ⟨rfl, rfl⟩, rest⟩ :=
        yields_bind_of_ends (yields_rankings named fits legible) h
      · exact .error reason
      · rw [hfound, show IndexQuery.page _ found = (found.drop offset).take batch from rfl,
          List.length_take] at rest
        generalize hleft : found.drop offset = left at rest
        split at rest
        · -- what is left is less than a page
          obtain ⟨rfl, rfl⟩ := rest
          have short : left.length < batch := by omega
          refine .ok ⟨rfl, ?_⟩
          rw [Nat.div_eq_of_lt short, if_pos rounds.succ_pos,
            List.take_of_length_le (Nat.le_of_lt short)]
        · have full : batch ≤ left.length := by omega
          have fewer : (left.drop batch).length / batch < rounds ↔
              left.length / batch < rounds + 1 := by
            rw [List.length_drop, Nat.div_eq_sub_div (by decide) full, Nat.add_lt_add_iff_right]
          obtain ⟨⟨_, rfl⟩, reason⟩ | ⟨_, _, ⟨rfl, rfl⟩, rfl, rfl⟩ := yields_bind_of_ends ih rest
          · exact .error reason
          · refine .ok ⟨rfl, ?_⟩
            rw [← List.drop_drop, hleft]
            by_cases enough : left.length / batch < rounds + 1
            · rw [if_pos enough, if_pos (fewer.2 enough), Option.map_some, List.take_append_drop]
            · rw [if_neg enough, if_neg (mt fewer.1 enough), Option.map_none]

/-! ## 3. Whatever the cores hold -/

/-- What becomes of the documents of averages when an average is stored that was made from the one
    that was read: it is stored instead of that one, or, if the target had none, after all others
    under an identifier of its own. -/
inductive Replaces (manager : Manager) (target : EntityReference) (old new : AverageRank ν)
    (documents : List (Document ν)) : List (Document ν) → Prop
  | renewed {document : Document ν} : document ∈ documents →
      manager.isAverageOf target document = true → document.id = new.id →
      AverageRank.ofDocument document target = .ok old →
      Replaces manager target old new documents
        (documents.map fun other => if other.id = new.id then new.toDocument else other)
  | created : (∀ document ∈ documents, manager.isAverageOf target document = false) →
      (∀ document ∈ documents, document.id ≠ new.id) → old.average = Scalar.zero →
      old.number = 0 → Replaces manager target old new documents (documents ++ [new.toDocument])

/-- Storing an average under the identifier of the one that was read replaces that one. -/
theorem replaces_of_reads {old new : AverageRank ν} {seen : World ν}
    (reads : manager.Reads target before old seen) (same : new.id = old.id)
    (known : ∀ document ∈ (before.core averageCore).documents, document.id ∈ before.given) :
    manager.Replaces target old new (before.core averageCore).documents
      (Shelf.put (·.id) new.toDocument (before.core averageCore).documents) := by
  have key : (new.toDocument : Document ν).id = new.id := AverageRank.id_toDocument new
  obtain ⟨document, first, read, -⟩ | ⟨absent, made⟩ := reads
  · have found := (Core.search_perm _ _).subset (List.mem_of_mem_head? first)
    obtain ⟨mem, accepted⟩ := List.mem_filter.1 found
    rw [accepts_averageQuery_eq] at accepted
    have id : document.id = new.id := (AverageRank.id_of_ofDocument read).symm.trans same.symm
    rw [Shelf.put_of_mem (key ▸ id ▸ List.mem_map_of_mem mem)]
    simp only [key]
    exact .renewed mem accepted id read
  · have apart : ∀ document ∈ (before.core averageCore).documents, document.id ≠ new.id := by
      rintro document mem clash
      exact made.fresh (same ▸ clash ▸ known document mem)
    rw [Shelf.put_of_notMem]
    · obtain ⟨_, -, -, empty⟩ := made.made
      refine .created (fun document mem => ?_) apart (by rw [empty]; rfl) (by rw [empty]; rfl)
      have missed : document ∉ (before.core averageCore).search (manager.averageQuery target) := by
        rw [absent]
        exact List.not_mem_nil
      rw [(Core.search_perm _ _).mem_iff, List.mem_filter, accepts_averageQuery_eq] at missed
      exact Bool.eq_false_iff.2 fun marked => missed ⟨mem, marked⟩
    · intro clash
      obtain ⟨document, mem, id⟩ := List.mem_map.1 clash
      exact apart document mem (id.trans key)

/-- Where nothing fails, an average can be read if the first one is one. -/
theorem average_ne_error (readable : (before.core averageCore).isReadable = true)
    (hydrates : ∀ document,
      ((before.core averageCore).search (manager.averageQuery target)).head? = some document →
        ∃ average, AverageRank.ofDocument document target = .ok average)
    (error : RankingError) (after : World ν) : ¬ (manager.average target).run.Yields
      (World.Answers World.reliable) before (.error error) after := by
  intro failed
  cases yields_firstAverage failed with
  | error wrong =>
      obtain ⟨fails | unreadable | ⟨document, fault, first, faulty⟩, -⟩ := wrong
      · exact World.not_unreliable_reliable fails
      · rw [readable] at unreadable
        cases unreadable
      · obtain ⟨average, hydrated⟩ := hydrates document first
        rw [hydrated] at faulty
        cases faulty

/-- The mean is told by the votes, in whatever order they were counted. -/
theorem reset_of_perm {counted votes : List Ranking} (perm : counted.Perm votes)
    (old : AverageRank ν) (now : Instant) :
    old.reset (Ranking.rankSum counted) counted.length now =
      { old with
        average :=
          if votes.length = 0 then Scalar.zero
          else Scalar.ofCount (Ranking.rankSum votes) / Scalar.ofCount votes.length
        number := votes.length
        updated := now } := by
  rw [Ranking.rankSum_eq_sum, ((perm.map _).map _).sum_nat, ← Ranking.rankSum_eq_sum,
    perm.length_eq]
  cases votes <;> rfl

/-- What rebuilding does once votes and average can be read: it answers with the average of the
    votes, and stores and announces it if averages are kept. -/
theorem rebuilds_of_yields (named : manager.voteCore ≠ "")
    (legible : (before.core manager.voteCore).IsLegible
      (manager.indexQuery (RankingQuery.empty.target target)))
    (averages : ∀ error after, ¬ (manager.average target).run.Yields (World.Answers World.reliable)
      before (.error error) after)
    {result : Except RankingError (AverageRank ν)} {news : List (Notification ν)}
    (h : ((manager.recomputeLocked target).run.run []).Yields (World.Answers World.reliable) before
      (result, news) after) :
    let counted := manager.found (RankingQuery.empty.target target) .createdDate true
      (before.core manager.voteCore)
    ∃ (old : AverageRank ν) (seen : World ν) (now : Instant),
      (manager.average target).run.Yields (World.Answers World.reliable) before (.ok old) seen ∧
      manager.Reads target before old seen ∧
      let new := old.reset (Ranking.rankSum counted) counted.length now
      result = .ok new ∧
      if manager.configuration.storeAverage then
        news = [manager.tellsAverage old new] ∧
          (before.carryOut averageCore (.add new.toDocument)).Idle after
      else news = [] ∧ before.Idle after := by
  obtain ⟨-, -, fails⟩ | ⟨_, _, ⟨rfl, rfl⟩, reading⟩ :=
    Change.yields_attemptBind_of_ends
      (yields_allRankings named (RankingQuery.fits_target target) legible) h
  · exact absurd fails World.not_unreliable_reliable
  · obtain ⟨_, failed, -⟩ | ⟨old, seen, read, looking⟩ := Change.yields_attemptBind.1 reading
    · exact absurd failed (averages _ _)
    · obtain ⟨instant, -, storing⟩ := World.yields_now_bindChange looking
      cases yields_firstAverage read with
      | ok reads =>
          -- up to here nothing was written
          have idle := reads.idle
          have later : World.Idle _ { seen with shown := seen.shown ++ [instant] } :=
            ⟨idle.core, idle.heard, idle.given, idle.shown.trans (List.prefix_append ..)⟩
          dsimp only at storing
          split at storing
          · rename_i keeps
            obtain ⟨_, _, -, -, lost⟩ | ⟨_, _, _, stored, same, rfl⟩ :=
              Change.yields_bind_of_ends (yields_storeAverage instant.isDate_truncated) storing
            · cases lost with
              | refused fails => exact absurd fails World.not_unreliable_reliable
              | waiting fails => exact fails.elim
            · cases stored
              cases same
              refine ⟨old, seen, instant.truncated, read, reads, rfl, ?_⟩
              rw [if_pos keeps]
              exact ⟨rfl, later.carryOut _ _⟩
          · rename_i off
            obtain ⟨same, rfl⟩ := storing
            cases same
            refine ⟨old, seen, instant.truncated, read, reads, rfl, ?_⟩
            rw [if_neg off]
            exact ⟨rfl, later⟩

/-- **Rebuilding counts the documents of votes.** Let the cores hold any documents that can be read,
    with nothing waiting to be committed, and let the documents that bear the marks of a vote on a
    target be votes, and the first average of the target an average.  Then, where nothing fails,
    reading page after page until one is not full gives those votes, in one round more than there
    are full pages, and rebuilding the average of the target answers with their number and mean,
    where the sum of their ranks fits 64 bits if there are fewer than 2^32 of them.  If averages are
    kept, the answer replaces the average that is read, and one notification tells what that one
    was; otherwise nothing is written and nobody is told anything.  No other core is written to in
    either case. -/
theorem recompute_counts_vote_documents (placed : manager.IsPlaced) {votes : List Ranking}
    (readable : (before.core manager.voteCore).isReadable = true)
    (averagesReadable : (before.core averageCore).isReadable = true)
    (settled : (before.core averageCore).pending = [])
    (hydrates : ((before.core manager.voteCore).documents.filter (manager.isVoteOn target)).map
      Ranking.ofDocument = votes.map .ok)
    (averageHydrates : ∀ document,
      ((before.core averageCore).search (manager.averageQuery target)).head? = some document →
        ∃ average, AverageRank.ofDocument document target = .ok average)
    (known : ∀ document ∈ (before.core averageCore).documents, document.id ∈ before.given) :
    (∃ read : List Ranking, read.Perm votes ∧ ∀ rounds,
      (manager.readPages (RankingQuery.empty.target target) rounds 0).run.Ensures
        (World.Answers World.reliable) before fun result after => after = before ∧
          result = .ok (if votes.length / batch < rounds then some read else none)) ∧
    (votes.length < 4294967296 → Ranking.rankSum votes < 18446744073709551616) ∧
    (manager.recompute target).run.Ensures (World.Answers World.reliable) before
      fun result after => ∃ (old new : AverageRank ν) (seen : World ν) (now : Instant),
        (manager.average target).run.Yields (World.Answers World.reliable) before (.ok old) seen ∧
        result = .ok new ∧
        new = { old with
          average :=
            if votes.length = 0 then Scalar.zero
            else Scalar.ofCount (Ranking.rankSum votes) / Scalar.ofCount votes.length
          number := votes.length
          updated := now } ∧
        (∀ core, core ≠ averageCore → after.core core = before.core core) ∧
        if manager.configuration.storeAverage then
          manager.Replaces target old new (before.core averageCore).documents
              (after.core averageCore).documents ∧
            after.heard = before.heard ++ [manager.tellsAverage old new]
        else after.core = before.core ∧ after.heard = before.heard := by
  have legible := isLegible_of_hydrates hydrates readable
  have perm := found_perm_of_hydrates hydrates
  have averages := average_ne_error averagesReadable averageHydrates
  refine ⟨⟨_, perm, fun rounds => World.ensures_iff.2 fun result after h => ?_⟩,
    Ranking.rankSum_lt, World.ensures_iff.2 fun result after h => ?_⟩
  · cases yields_readPages placed.named (RankingQuery.fits_target target) legible h with
    | error wrong => exact absurd wrong.2 World.not_unreliable_reliable
    | ok right =>
        obtain ⟨rfl, rfl⟩ := right
        rw [List.drop_zero, perm.length_eq]
        exact ⟨rfl, rfl⟩
  · obtain ⟨-, fails, -⟩ | ⟨news, middle, worked, rfl⟩ := yields_locked h
    · exact absurd fails World.not_unreliable_reliable
    · obtain ⟨old, seen, now, read, reads, rfl, done⟩ :=
        rebuilds_of_yields placed.named legible averages worked
      -- number and sum do not depend on the order in which the votes were read
      rw [reset_of_perm perm] at done ⊢
      refine ⟨old, _, seen, now, read, rfl, rfl, ?_⟩
      split at done
      · rename_i keeps
        obtain ⟨rfl, idle⟩ := done
        refine ⟨fun core other => ?_, ?_⟩
        · show middle.core core = _
          rw [idle.core, World.core_carryOut_of_ne _ _ _ other]
        · rw [if_pos keeps]
          refine ⟨?_, by rw [World.hear, idle.heard]; rfl⟩
          show manager.Replaces _ _ _ _ (middle.core averageCore).documents
          rw [idle.core, World.core_carryOut_self, Core.documents_commit_push,
            Core.documents_commit_of_pending _ settled]
          exact replaces_of_reads reads rfl known
      · rename_i off
        obtain ⟨rfl, idle⟩ := done
        rw [if_neg off, World.hear_nil, idle.core]
        exact ⟨fun _ _ => rfl, rfl, idle.heard⟩

/-! ## 4. Cores with nothing but records

What managers write can be read: in cores that hold votes and averages the documents that bear the
marks of votes are the votes that count, and every average is one. -/

theorem isVoteOn_toDocument (vote : Ranking) :
    manager.isVoteOn target (vote.toDocument : Document ν) = manager.counts target vote := by
  rw [← accepts_indexQuery_target, Bool.eq_iff_iff, accepts_indexQuery,
    RankingQuery.matches_target, counts_iff]

theorem hydrates_of_holds {core : Core ν} {votes : List Ranking} (holds : core.HoldsVotes votes) :
    (core.documents.filter (manager.isVoteOn target)).map Ranking.ofDocument =
      (votes.filter (manager.counts target)).map .ok := by
  rw [holds.documents, List.filter_map, List.map_map,
    show manager.isVoteOn target ∘ Ranking.toDocument = manager.counts target from
      funext (isVoteOn_toDocument (ν := ν))]
  exact List.map_congr_left fun vote mem =>
    Ranking.ofDocument_toDocument (holds.whole vote (List.mem_filter.1 mem).1)

theorem averageHydrates_of_holds {averages : List (AverageRank ν)}
    (holds : (before.core averageCore).HoldsAverages averages) {document : Document ν}
    (first : ((before.core averageCore).search (manager.averageQuery target)).head? =
      some document) : ∃ average, AverageRank.ofDocument document target = .ok average := by
  obtain ⟨average, mem, -, rfl, rfl⟩ :=
    (mem_search_averageQuery holds).1 (List.mem_of_mem_head? first)
  exact ⟨average, AverageRank.ofDocument_toDocument (holds.fits average mem)⟩

end Manager

def Ranking.fullPage : List Ranking :=
  (List.range Manager.batch).map fun i =>
    Ranking.create (toString i) "stars" .home ⟨toString i⟩ (UInt32.ofNat (i % 5 + 1)) 5
      (Instant.ofMillis (Int64.ofNat (i % 7)))

def AverageRank.stale : AverageRank Rat :=
  .create "old" "stars" .home 5 .epoch

def World.fullPage : World Rat where
  core name :=
    if name = rankingCore then
      { committed := Ranking.fullPage.map fun vote => ⟨0, vote.toDocument⟩ }
    else if name = averageCore then { committed := [⟨0, AverageRank.stale.toDocument⟩] }
    else {}
  given := ["old"]

/-- A full page is followed by one that is empty, and the votes are counted. -/
theorem Manager.recompute_counts_full_page :
    ∃ (read : List Ranking) (old new : AverageRank Rat) (after : World Rat),
      (stars.readPages (RankingQuery.empty.target .home) 1 0).run.Ensures
        (World.Answers World.reliable) World.fullPage (fun result _ => result = .ok none) ∧
      (stars.readPages (RankingQuery.empty.target .home) 2 0).run.Ensures
        (World.Answers World.reliable) World.fullPage (fun result _ => result = .ok (some read)) ∧
      read.Perm Ranking.fullPage ∧
      (stars.recompute .home).run.Yields (World.Answers World.reliable) World.fullPage (.ok new)
        after ∧ new.number = 100 ∧ new.average = 3 ∧
      stars.Replaces .home old new (World.fullPage.core averageCore).documents
        (after.core averageCore).documents ∧
      after.heard = [stars.tellsAverage old new] := by
  have holds : (World.fullPage.core stars.voteCore).HoldsVotes Ranking.fullPage := by
    constructor
    · show List.map _ (List.map _ _) = _
      rw [List.map_map]
      rfl
    · intro vote mem
      obtain ⟨i, -, rfl⟩ := List.mem_map.1 mem
      have few : Int64.ofNat (i % 7) ≠ Int64.minValue := by
        have word : (Int64.ofNat (i % 7)).toInt = (i % 7 : Nat) := Int64.toInt_ofNat_of_lt (by omega)
        rw [ne_eq, eq_minValue_iff, word]
        omega
      exact ⟨Instant.truncated_ofMillis few, Instant.truncated_ofMillis few⟩
  have averages : (World.fullPage.core averageCore).HoldsAverages [.stale] :=
    ⟨rfl, List.forall_mem_singleton.2 ⟨by decide, Instant.isOfWord_ofMillis 0⟩⟩
  have counted : Ranking.fullPage.filter (stars.counts .home) = Ranking.fullPage := by
    refine List.filter_eq_self.2 fun vote mem => ?_
    obtain ⟨i, -, rfl⟩ := List.mem_map.1 mem
    exact counts_iff.2 ⟨rfl, rfl⟩
  have hydrates : ((World.fullPage.core stars.voteCore).documents.filter
      (stars.isVoteOn .home)).map Ranking.ofDocument = Ranking.fullPage.map .ok := by
    rw [hydrates_of_holds holds, counted]
  obtain ⟨⟨read, perm, rounds⟩, -, ⟨result, after, yields⟩, ensures⟩ :=
    recompute_counts_vote_documents
      (Tenants.isPlaced (by decide : stars ∈ Tenants.starsAndLikes.members)) holds.isReadable
      (averages.isReadable fun _ _ => rfl) rfl hydrates
      (fun _ first => averageHydrates_of_holds averages first) (by decide +kernel)
  obtain ⟨old, new, seen, now, -, rfl, same, -, stored⟩ := ensures result after yields
  rw [if_pos (show stars.configuration.storeAverage = true from rfl)] at stored
  have length : Ranking.fullPage.length = 100 := by decide +kernel
  have sum : Ranking.rankSum Ranking.fullPage = 300 := by decide +kernel
  rw [length] at rounds same
  rw [sum] at same
  refine ⟨read, old, new, after, World.ensures_iff.2 fun result after h => ?_,
    World.ensures_iff.2 fun result after h => ?_, perm, yields, ?_, ?_, stored.1, stored.2⟩
  · exact ((rounds 1).2 result after h).2
  · exact ((rounds 2).2 result after h).2
  · rw [same]
  · rw [same]
    show (300 : Rat) / 100 = 3
    norm_num

end RankLedger
