import RankLedger.Proofs.Index.Shelf
import RankLedger.Proofs.Record.Match
import RankLedger.Proofs.World.Basic

/-!
# What reading finds

Reading goes through three layers: a page of documents, the records in it, and the list of all
pages.  None of them changes a core.  If a core holds certain votes (`Core.HoldsVotes`), then what
is read from it is exactly those of them that answer the query, however the pages are cut
(`Manager.yields_rankings`, `Manager.yields_allRankings`); and the average of a target is the one
that is held, or an empty one under an identifier that was never used (`Manager.Reads.of_holds`).

Each specification says what happens in any world: if the read fails, some call of the world may
fail, or the core is not readable.
-/

namespace RankLedger

variable {ν : Type} [Scalar ν]

def World.Unreliable (faults : Call ν → Prop) : Prop :=
  ∃ call, faults call

omit [Scalar ν] in
theorem World.not_unreliable_reliable : ¬ Unreliable (reliable : Call ν → Prop) := by
  rintro ⟨_, fails⟩
  exact fails

variable {faults : Call ν → Prop} {before after : World ν}

/-! ## 1. What a core holds -/

structure Core.HoldsVotes (core : Core ν) (votes : List Ranking) : Prop where
  documents : core.documents = votes.map Ranking.toDocument
  whole : ∀ vote ∈ votes, vote.IsWhole

structure Core.IsLegible (core : Core ν) (query : IndexQuery ν) : Prop where
  readable : core.isReadable = true
  votes : ∀ document ∈ core.documents, query.accepts document = true →
    ∃ vote, Ranking.ofDocument document = .ok vote

structure Core.HoldsAverages (core : Core ν) (averages : List (AverageRank ν)) : Prop where
  documents : core.documents = averages.map AverageRank.toDocument
  fits : ∀ average ∈ averages, average.Fits

namespace Core

variable {core : Core ν} {votes : List Ranking} {averages : List (AverageRank ν)}

theorem HoldsVotes.isReadable (holds : core.HoldsVotes votes) : core.isReadable = true := by
  rw [isReadable_iff, holds.documents]
  intro document mem
  obtain ⟨vote, _, rfl⟩ := List.mem_map.1 mem
  exact vote.isStorable_toDocument

theorem HoldsVotes.isLegible (holds : core.HoldsVotes votes) (query : IndexQuery ν) :
    core.IsLegible query := by
  refine ⟨holds.isReadable, fun document mem _ => ?_⟩
  rw [holds.documents] at mem
  obtain ⟨vote, held, rfl⟩ := List.mem_map.1 mem
  exact ⟨vote, Ranking.ofDocument_toDocument (holds.whole vote held)⟩

theorem HoldsAverages.isReadable (holds : core.HoldsAverages averages)
    (finite : ∀ average ∈ averages, Scalar.isFinite average.average = true) :
    core.isReadable = true := by
  rw [isReadable_iff, holds.documents]
  intro document mem
  obtain ⟨average, held, rfl⟩ := List.mem_map.1 mem
  exact AverageRank.isStorable_toDocument (finite average held)

end Core

/-! ## 2. Pages -/

omit [Scalar ν] in
theorem IndexQuery.page_map (query : IndexQuery ν) {α β : Type} (f : α → β) (results : List α) :
    query.page (results.map f) = (query.page results).map f := by
  unfold page
  split
  · rw [List.map_drop]
  · rw [List.map_take, List.map_drop]

omit [Scalar ν] in
theorem IndexQuery.mem_of_mem_page {query : IndexQuery ν} {α : Type} {results : List α} {x : α}
    (h : x ∈ query.page results) : x ∈ results := by
  unfold page at h
  split at h
  · exact List.mem_of_mem_drop h
  · exact List.mem_of_mem_drop (List.mem_of_mem_take h)

namespace Manager

/-- A page is what the core says, or an error with a reason; nothing changes. -/
theorem yields_readPage {context core : String} (named : core ≠ "") {query : IndexQuery ν}
    {result : Except RankingError (IndexPage ν)}
    (h : (readPage context core query).run.Yields (World.Answers faults) before result after) :
    Ends (fun page after => after = before ∧ page =
        { documents := query.page ((before.core core).search query),
          found := ((before.core core).search query).length })
      (fun after => after = before ∧
        (World.Unreliable faults ∨ (before.core core).isReadable = false)) result after := by
  rw [readPage, Attempt.yields_inContext] at h
  obtain ⟨answer, h, rfl⟩ := h
  rw [yields_exceptBind] at h
  rcases h with ⟨error, opened, rfl⟩ | ⟨_, middle, opened, asked⟩
  · obtain ⟨reason, rfl⟩ := Program.yields_request.1 opened
    exact .error ⟨rfl, .inl ⟨_, reason.resolve_left named⟩⟩
  · obtain ⟨_, rfl⟩ := Program.yields_request.1 opened
    -- the core itself refuses a query exactly if it is not readable
    by_cases readable : (middle.core core).isReadable = true
    · cases answer with
      | ok page =>
          obtain ⟨answered, rfl⟩ := Program.yields_request.1 asked
          rw [Core.query_of_isReadable readable] at answered
          cases answered
          exact .ok ⟨rfl, rfl⟩
      | error error =>
          obtain ⟨reason, rfl⟩ := Program.yields_request.1 asked
          rw [Core.query_of_isReadable readable] at reason
          exact .error ⟨rfl, .inl ⟨_, reason.resolve_left nofun⟩⟩
    · cases answer with
      | ok page =>
          obtain ⟨answered, -⟩ := Program.yields_request.1 asked
          rw [Core.query, if_neg readable] at answered
          cases answered
      | error error =>
          obtain ⟨-, rfl⟩ := Program.yields_request.1 asked
          exact .error ⟨rfl, .inr (Bool.eq_false_iff.2 readable)⟩

/-! ## 3. Votes -/

variable (manager : Manager) (query : RankingQuery) (order : QueryField) (ascending : Bool)

variable (ν) in
def finds (ranking : Ranking) : Bool :=
  (manager.indexQuery query : IndexQuery ν).accepts ranking.toDocument

variable {manager query} in
@[simp] theorem finds_iff {ranking : Ranking} :
    manager.finds ν query ranking = true ↔
      ranking.manager = manager.identifier ∧ query.Matches ν ranking :=
  accepts_indexQuery

def listing : IndexQuery ν :=
  { manager.indexQuery query with
    sort := some (order.storedName, SortOrder.ofAscending ascending) }

omit [Scalar ν] in
/-- Documents that are votes can be read one by one. -/
theorem exists_map_ofDocument {documents : List (Document ν)}
    (read : ∀ document ∈ documents, ∃ vote, Ranking.ofDocument document = .ok vote) :
    ∃ votes : List Ranking, documents.map Ranking.ofDocument = votes.map .ok := by
  induction documents with
  | nil => exact ⟨[], rfl⟩
  | cons document rest ih =>
      obtain ⟨vote, first⟩ := read document List.mem_cons_self
      obtain ⟨votes, others⟩ := ih fun other mem => read other (List.mem_cons_of_mem _ mem)
      exact ⟨vote :: votes, by rw [List.map_cons, List.map_cons, first, others]⟩

omit [Scalar ν] in
/-- Reading documents that are votes gives the votes. -/
theorem filterMap_of_map_ofDocument {documents : List (Document ν)} {votes : List Ranking}
    (read : documents.map Ranking.ofDocument = votes.map .ok) :
    (documents.filterMap fun document => (Ranking.ofDocument document).toOption) = votes := by
  show documents.filterMap (Except.toOption ∘ Ranking.ofDocument) = votes
  rw [← List.filterMap_map, read, List.filterMap_map]
  exact List.filterMap_some

omit [Scalar ν] in
/-- The documents of votes are such documents. -/
theorem filterMap_ofDocument {votes : List Ranking} (whole : ∀ vote ∈ votes, vote.IsWhole) :
    ((votes.map Ranking.toDocument).filterMap fun document =>
      (Ranking.ofDocument (ν := ν) document).toOption) = votes := by
  apply filterMap_of_map_ofDocument
  rw [List.map_map]
  exact List.map_congr_left fun vote mem => Ranking.ofDocument_toDocument (whole vote mem)

omit [Scalar ν] in
/-- A program that stops at a document that is no vote does not stop at them. -/
theorem mapM_ofDocument {documents : List (Document ν)} {votes : List Ranking}
    (read : documents.map Ranking.ofDocument = votes.map .ok) :
    (documents.mapM fun document =>
      (Attempt.ofDocument (Ranking.ofDocument document) : Attempt ν Ranking)) = pure votes := by
  induction documents generalizing votes with
  | nil =>
      obtain rfl : votes = [] := by simpa using read.symm
      rfl
  | cons document rest ih =>
      cases votes with
      | nil => cases read
      | cons vote others =>
          obtain ⟨first, read⟩ := List.cons.inj read
          rw [List.mapM_cons, first, ih read]
          rfl

def found (core : Core ν) : List Ranking :=
  (core.search (manager.listing query order ascending)).filterMap fun document =>
    (Ranking.ofDocument document).toOption

section Found

variable {core : Core ν} {votes : List Ranking}

/-- The documents of a search are read as the votes found. -/
theorem map_ofDocument_search (legible : core.IsLegible (manager.indexQuery query)) :
    (core.search (manager.listing query order ascending)).map Ranking.ofDocument =
      (manager.found query order ascending core).map .ok := by
  obtain ⟨votes, read⟩ := exists_map_ofDocument fun document mem => by
    have found := (core.search_perm (manager.listing query order ascending)).subset mem
    exact legible.votes document (List.mem_filter.1 found).1 (List.mem_filter.1 found).2
  rw [read, found, filterMap_of_map_ofDocument read]

variable (holds : core.HoldsVotes votes)
include holds

/-- The documents of a search are those of the votes found. -/
theorem search_listing :
    core.search (manager.listing query order ascending) =
      (manager.found query order ascending core).map Ranking.toDocument ∧
    (manager.found query order ascending core).Perm (votes.filter (manager.finds ν query)) := by
  -- up to their order these are the documents of the votes that pass, so they come from votes
  have perm := core.search_perm (manager.listing query order ascending)
  rw [holds.documents, List.filter_map] at perm
  obtain ⟨sorted, perm, search⟩ := exists_perm_of_perm_map perm
  suffices same : manager.found query order ascending core = sorted by
    rw [same]
    exact ⟨search, perm⟩
  rw [found, search]
  apply filterMap_ofDocument
  intro vote mem
  exact holds.whole vote (List.mem_filter.1 (perm.subset mem)).1

/-- Exactly the manager's own votes that answer the query are found. -/
theorem mem_found {vote : Ranking} :
    vote ∈ manager.found query order ascending core ↔
      vote ∈ votes ∧ vote.manager = manager.identifier ∧ query.Matches ν vote := by
  rw [(manager.search_listing query order ascending holds).2.mem_iff, List.mem_filter, finds_iff]

end Found

def IsAnswer (votes : List Ranking) (wanted : Ranking → Prop) : Option Ranking → Prop
  | some vote => vote ∈ votes ∧ wanted vote
  | none => ∀ vote ∈ votes, ¬ wanted vote

section Rankings

variable {manager query order ascending} {votes : List Ranking} {offset : Nat} {limit : Option Nat}
variable (named : manager.voteCore ≠ "") (fits : query.Fits)
include named fits

section Legible

variable (legible : (before.core manager.voteCore).IsLegible (manager.indexQuery query))
include legible

/-- **A page of votes** is cut out of the votes found, and comes with their number. -/
theorem yields_rankingPage {result : Except RankingError (List Ranking × Nat)}
    (h : (manager.rankingPage query offset limit order ascending).run.Yields
      (World.Answers faults) before result after) :
    let found := manager.found query order ascending (before.core manager.voteCore)
    Ends (fun page after => after = before ∧
        page = (({ start := offset, rows := limit } : IndexQuery ν).page found, found.length))
      (fun after => after = before ∧ World.Unreliable faults) result after := by
  have search := manager.map_ofDocument_search query order ascending legible
  intro found
  rw [rankingPage, indexQuery?_of_fits fits] at h
  obtain ⟨⟨_, rfl⟩, rfl, reason⟩ | ⟨page, middle, ⟨rfl, same⟩, rest⟩ :=
    yields_bind_of_ends (yields_readPage named) h
  · rw [legible.readable] at reason
    exact .error ⟨rfl, reason.resolve_right nofun⟩
  · have documents : page.documents.map Ranking.ofDocument =
        (({ start := offset, rows := limit } : IndexQuery ν).page found).map .ok := by
      rw [← IndexQuery.page_map, ← search, IndexQuery.page_map, same]
      rfl
    have number : page.found = found.length := by
      rw [← List.length_map Except.ok, ← search, List.length_map, same]
      rfl
    rw [mapM_ofDocument documents, number, pure_bind, yields_exceptPure] at rest
    obtain ⟨rfl, rfl⟩ := rest
    exact .ok ⟨rfl, rfl⟩

/-- A page is read without the number in the same way. -/
theorem yields_rankings {result : Except RankingError (List Ranking)}
    (h : (manager.rankings query offset limit order ascending).run.Yields
      (World.Answers faults) before result after) :
    Ends (fun votes after => after = before ∧
        votes = ({ start := offset, rows := limit } : IndexQuery ν).page
          (manager.found query order ascending (before.core manager.voteCore)))
      (fun after => after = before ∧ World.Unreliable faults) result after := by
  obtain ⟨⟨_, rfl⟩, reason⟩ | ⟨_, _, ⟨rfl, rfl⟩, rfl, rfl⟩ :=
    yields_bind_of_ends (yields_rankingPage named fits legible) h
  · exact .error reason
  · exact .ok ⟨rfl, rfl⟩

end Legible

section Holds

variable (holds : (before.core manager.voteCore).HoldsVotes votes)
include holds

/-- The oldest vote that answers a query is one that does, and is missed only if there is none. -/
theorem yields_oldest? {result : Except RankingError (Option Ranking)}
    (h : (manager.oldest? query).run.Yields (World.Answers faults) before result after) :
    Ends (fun answer after => after = before ∧ IsAnswer votes
        (fun vote => vote.manager = manager.identifier ∧ query.Matches ν vote) answer)
      (fun after => after = before ∧ World.Unreliable faults) result after := by
  obtain ⟨⟨_, rfl⟩, reason⟩ | ⟨_, _, ⟨rfl, rfl⟩, rfl, rfl⟩ :=
    yields_bind_of_ends (yields_rankings named fits (holds.isLegible _)) h
  · exact .error reason
  · refine .ok ⟨rfl, ?_⟩
    -- the page has the first of the votes found, which is missing only if none was found
    have mem {vote : Ranking} : vote ∈ _ ↔ _ :=
      manager.mem_found query .createdDate true holds
    cases hfound : manager.found query .createdDate true (after.core manager.voteCore) with
    | nil =>
        intro vote held answers
        have := mem.2 ⟨held, answers⟩
        rw [hfound] at this
        cases this
    | cons vote rest =>
        apply mem.1
        rw [hfound]
        exact List.mem_cons_self

omit fits in
/-- **The vote of a user on a target** is found if there is one. -/
theorem yields_vote? {target : EntityReference} {voter : UserReference}
    {result : Except RankingError (Option Ranking)}
    (h : (manager.vote? target voter).run.Yields (World.Answers faults) before result after) :
    Ends (fun answer after => after = before ∧ IsAnswer votes (fun vote =>
        vote.manager = manager.identifier ∧ vote.target = target ∧ vote.voter = voter) answer)
      (fun after => after = before ∧ World.Unreliable faults) result after := by
  have free : (RankingQuery.empty.target target).value? .userReference = none := rfl
  have := yields_oldest? named ((RankingQuery.fits_target target).voter voter) holds h
  simpa only [RankingQuery.matches_voter free,
    RankingQuery.matches_target] using this

omit fits in
/-- **The vote of an identifier** is found if the manager has it. -/
theorem yields_find? {id : String} {result : Except RankingError (Option Ranking)}
    (h : (manager.find? id).run.Yields (World.Answers faults) before result after) :
    Ends (fun answer after => after = before ∧ IsAnswer votes
        (fun vote => vote.manager = manager.identifier ∧ vote.id = id) answer)
      (fun after => after = before ∧ World.Unreliable faults) result after := by
  have := yields_oldest? named (RankingQuery.fits_identifier id) holds h
  simpa only [RankingQuery.matches_identifier] using this

end Holds

/-! ## 4. All votes on a target -/

variable (legible : (before.core manager.voteCore).IsLegible (manager.indexQuery query))
include legible

/-- The pages that follow an offset are together all that follows it, if there are pages enough. -/
theorem yields_followingPages {further offset : Nat}
    {result : Except RankingError (List Ranking)}
    (enough : (manager.found query .createdDate true (before.core manager.voteCore)).length <
      offset + (further + 1) * batch)
    (h : (manager.followingPages query further offset
      (((manager.found query .createdDate true (before.core manager.voteCore)).drop offset).take
        batch)).run.Yields (World.Answers faults) before result after) :
    Ends (fun votes after => after = before ∧ votes =
        (manager.found query .createdDate true (before.core manager.voteCore)).drop offset)
      (fun after => after = before ∧ World.Unreliable faults) result after := by
  -- the found votes stay the same while the offset moves on through them
  generalize hfound : manager.found query .createdDate true (before.core manager.voteCore) =
    found at enough h ⊢
  have all {offset : Nat} (last : (found.drop offset).length ≤ batch)
      {result : Except RankingError (List Ranking)} {after : World ν}
      (h : (pure ((found.drop offset).take batch) : Attempt ν _).run.Yields (World.Answers faults)
        before result after) :
      Ends (fun votes after => after = before ∧ votes = found.drop offset)
        (fun after => after = before ∧ World.Unreliable faults) result after := by
    rw [List.take_of_length_le last] at h
    obtain ⟨rfl, rfl⟩ := h
    exact .ok ⟨rfl, rfl⟩
  induction further generalizing offset result after with
  | zero =>
      apply all ?_ h
      rw [List.length_drop]
      omega
  | succ further ih =>
      rw [followingPages] at h
      split at h
      · -- a page that is not full holds everything that was left
        rename_i short
        rw [List.length_take] at short
        exact all (by omega) h
      · have enough : found.length < offset + batch + (further + 1) * batch := by
          unfold batch at enough ⊢
          omega
        obtain ⟨⟨_, rfl⟩, reason⟩ | ⟨_, _, ⟨rfl, rfl⟩, rest⟩ :=
          yields_bind_of_ends (yields_rankings named fits legible) h
        · exact .error reason
        · rw [hfound] at rest
          obtain ⟨⟨_, rfl⟩, reason⟩ | ⟨_, _, ⟨rfl, rfl⟩, rfl, rfl⟩ :=
            yields_bind_of_ends (ih enough) rest
          · exact .error reason
          · refine .ok ⟨rfl, ?_⟩
            rw [← List.drop_drop, List.take_append_drop]

/-- Pages enough are as good as more: a page that is not full comes before they run out. -/
theorem yields_followingPages_add {further offset : Nat} (extra : Nat)
    {result : Except RankingError (List Ranking)}
    (enough : (manager.found query .createdDate true (before.core manager.voteCore)).length <
      offset + (further + 1) * batch) :
    (manager.followingPages query (further + extra) offset
        (((manager.found query .createdDate true (before.core manager.voteCore)).drop offset).take
          batch)).run.Yields (World.Answers faults) before result after ↔
      (manager.followingPages query further offset
        (((manager.found query .createdDate true (before.core manager.voteCore)).drop offset).take
          batch)).run.Yields (World.Answers faults) before result after := by
  generalize hfound : manager.found query .createdDate true (before.core manager.voteCore) =
    found at enough ⊢
  induction further generalizing offset result after with
  | zero =>
      have short : ((found.drop offset).take batch).length < batch := by
        rw [List.length_take, List.length_drop]
        unfold batch at enough ⊢
        omega
      cases extra with
      | zero => exact Iff.rfl
      | succ extra => rw [Nat.zero_add, followingPages, followingPages, if_pos short]
  | succ further ih =>
      rw [Nat.succ_add, followingPages, followingPages]
      split
      · exact Iff.rfl
      · have enough : found.length < offset + batch + (further + 1) * batch := by
          unfold batch at enough ⊢
          omega
        -- what was read next is the next page, and the world is still the same
        refine yields_exceptBind_congr fun next middle read => ?_
        cases yields_rankings named fits legible read with
        | ok right =>
            obtain ⟨rfl, rfl⟩ := right
            rw [hfound, yields_exceptBind, yields_exceptBind]
            exact or_congr (exists_congr fun _ => and_congr_left fun _ => ih enough)
              (exists_congr fun _ => exists_congr fun _ => and_congr_left fun _ => ih enough)

/-- **All votes.** Page by page, all votes found are read, each once. -/
theorem yields_allRankings {result : Except RankingError (List Ranking)}
    (h : (manager.allRankings query).run.Yields (World.Answers faults) before result after) :
    Ends (fun votes after => after = before ∧
        votes = manager.found query .createdDate true (before.core manager.voteCore))
      (fun after => after = before ∧ World.Unreliable faults) result after := by
  obtain ⟨⟨_, rfl⟩, reason⟩ | ⟨_, middle, ⟨rfl, rfl⟩, rest⟩ :=
    yields_bind_of_ends (yields_rankingPage named fits legible) h
  · exact .error reason
  · -- the number that came with the first page says how many pages are enough
    refine yields_followingPages named fits legible ?_ rest
    have := Nat.div_add_mod
      (manager.found query .createdDate true (middle.core manager.voteCore)).length batch
    unfold batch at this ⊢
    omega

/-- **Pages.** No more pages are asked for than there are: with a higher bound on their number the
    outcomes are the same. -/
theorem yields_allRankings_add (extra : Nat) {result : Except RankingError (List Ranking)} :
    (do
      let (first, found) ← manager.rankingPage query 0 (some batch) .createdDate true
      manager.followingPages query (found / batch + 1 + extra) 0 first :
        Attempt ν (List Ranking)).run.Yields (World.Answers faults) before result after ↔
      (manager.allRankings query).run.Yields (World.Answers faults) before result after := by
  refine yields_exceptBind_congr fun page middle read => ?_
  cases yields_rankingPage named fits legible read with
  | ok right =>
      obtain ⟨rfl, rfl⟩ := right
      refine yields_followingPages_add named fits legible extra ?_
      have := Nat.div_add_mod
        (manager.found query .createdDate true (middle.core manager.voteCore)).length batch
      unfold batch at this ⊢
      omega

end Rankings

/-! ## 5. Averages -/

variable {manager : Manager} {target : EntityReference}
  {result : Except RankingError (AverageRank ν)}

structure MadeUp (manager : Manager) (target : EntityReference) (before : World ν)
    (average : AverageRank ν) (after : World ν) : Prop where
  fresh : average.id ∉ before.given
  made : ∃ instant : Instant, instant.IsDate ∧ after =
    { before with given := before.given ++ [average.id], shown := before.shown ++ [instant] } ∧
      average = AverageRank.create average.id manager.identifier target manager.scale
        instant.truncated

theorem MadeUp.idle {average : AverageRank ν} (h : manager.MadeUp target before average after) :
    before.Idle after := by
  obtain ⟨_, -, rfl, -⟩ := h.made
  exact ⟨rfl, rfl, List.prefix_append .., List.prefix_append ..⟩

def Reads (manager : Manager) (target : EntityReference) (before : World ν)
    (average : AverageRank ν) (after : World ν) : Prop :=
  (∃ document, ((before.core averageCore).search (manager.averageQuery target)).head? =
      some document ∧
    AverageRank.ofDocument document target = .ok average ∧ after = before) ∨
  (before.core averageCore).search (manager.averageQuery target) = [] ∧
    manager.MadeUp target before average after

/-- Why an average may not be read: calls may fail, a stored number is not finite, or a document
    is no average. -/
def Unread (faults : Call ν → Prop) (manager : Manager) (target : EntityReference)
    (core : Core ν) : Prop :=
  World.Unreliable faults ∨ core.isReadable = false ∨
    ∃ document ∈ core.search (manager.averageQuery target),
      ∃ fault, AverageRank.ofDocument document target = .error fault

/-- The document that is found first decides whether there is an average. -/
theorem yields_firstAverage
    (h : (manager.average target).run.Yields (World.Answers faults) before result after) :
    Ends (fun average after => manager.Reads target before average after)
      (fun after => (World.Unreliable faults ∨ (before.core averageCore).isReadable = false ∨
        ∃ document fault, ((before.core averageCore).search (manager.averageQuery target)).head? =
          some document ∧ AverageRank.ofDocument document target = .error fault) ∧ after = before)
      result after := by
  obtain ⟨⟨_, rfl⟩, rfl, reason⟩ | ⟨page, middle, ⟨rfl, same⟩, rest⟩ :=
    yields_bind_of_ends (yields_readPage (by decide)) h
  · exact .error ⟨reason.imp_right .inl, rfl⟩
  · have documents : page.documents =
        ((middle.core averageCore).search (manager.averageQuery target)).take 1 := by
      rw [same]
      rfl
    rw [documents] at rest
    -- at most one document is read, and it alone decides
    cases hsearch : (middle.core averageCore).search (manager.averageQuery target) with
    | cons document others =>
        rw [hsearch] at rest
        obtain ⟨rfl, rfl⟩ := Attempt.yields_ofExcept.1 rest
        have first : ((after.core averageCore).search (manager.averageQuery target)).head? =
            some document := by
          rw [hsearch]
          rfl
        cases hread : AverageRank.ofDocument document target with
        | ok average => exact .ok (.inl ⟨document, first, hread, rfl⟩)
        | error fault =>
            exact .error ⟨.inr (.inr ⟨document, fault, rfl, hread⟩), rfl⟩
    | nil =>
        rw [hsearch] at rest
        obtain ⟨id, fresh, rest⟩ := World.yields_freshId_bind rest
        obtain ⟨instant, date, rfl, rfl⟩ := World.yields_now_bind rest
        exact .ok (.inr ⟨hsearch, fresh, instant, date, rfl, rfl⟩)

theorem yields_average
    (h : (manager.average target).run.Yields (World.Answers faults) before result after) :
    Ends (fun average after => manager.Reads target before average after)
      (fun after => manager.Unread faults target (before.core averageCore) ∧ after = before)
      result after := by
  cases yields_firstAverage h with
  | ok reads => exact .ok reads
  | error failed =>
      obtain ⟨reason, rfl⟩ := failed
      refine .error ⟨reason.imp_right (.imp_right ?_), rfl⟩
      rintro ⟨document, fault, first, read⟩
      exact ⟨document, List.mem_of_mem_head? first, fault, read⟩

variable {average : AverageRank ν}

/-- Reading an average writes nothing. -/
theorem Reads.idle (h : manager.Reads target before average after) : before.Idle after := by
  rcases h with ⟨_, _, _, rfl⟩ | ⟨_, made⟩
  · exact World.Idle.refl after
  · exact made.idle

/-- A number of votes that was read fits a signed word, so one vote more can be counted. -/
theorem Reads.addVote?_eq (h : manager.Reads target before average after) (vote : UInt32)
    (now : Instant) : average.addVote? vote now = some (average.addVote vote now) := by
  have few : average.number < 9223372036854775808 := by
    rcases h with ⟨_, _, read, _⟩ | ⟨_, made⟩
    · exact (AverageRank.ofDocument_eq_ok_iff.1 read).2.fits.number
    · obtain ⟨_, -, -, new⟩ := made.made
      rw [new]
      show 0 < 9223372036854775808
      omega
  exact if_pos (by omega)

section Holds

variable {averages : List (AverageRank ν)}
  (holds : (before.core averageCore).HoldsAverages averages)
include holds

/-- The documents found for a target are those of its averages. -/
theorem mem_search_averageQuery {document : Document ν} :
    document ∈ (before.core averageCore).search (manager.averageQuery target) ↔
      ∃ average ∈ averages, average.manager = manager.identifier ∧ average.target = target ∧
        average.toDocument = document := by
  have perm := (before.core averageCore).search_perm (manager.averageQuery target)
  rw [holds.documents, List.filter_map] at perm
  rw [perm.mem_iff, List.mem_map]
  refine exists_congr fun average => ?_
  rw [List.mem_filter, Function.comp_apply, accepts_averageQuery, and_assoc, and_assoc]

/-- **The average of a target** is the one that is held, or one made up if none is. -/
theorem Reads.of_holds (h : manager.Reads target before average after) :
    (average ∈ averages ∧ average.manager = manager.identifier ∧ average.target = target) ∨
      (∀ other ∈ averages, other.manager = manager.identifier → other.target ≠ target) ∧
        manager.MadeUp target before average after := by
  rcases h with ⟨_, first, read, rfl⟩ | ⟨absent, made⟩
  · have found := List.mem_of_mem_head? first
    obtain ⟨held, mem, own, rfl, rfl⟩ := (mem_search_averageQuery holds).1 found
    rw [AverageRank.ofDocument_toDocument (holds.fits held mem)] at read
    cases read
    exact .inl ⟨mem, own, rfl⟩
  · refine .inr ⟨fun other mem own same => ?_, made⟩
    have found := (mem_search_averageQuery holds).2 ⟨other, mem, own, same, rfl⟩
    rw [absent] at found
    cases found

/-- Held averages that are finite can be read where calls do not fail. -/
theorem not_unread (finite : ∀ average ∈ averages, Scalar.isFinite average.average = true)
    (steady : ¬ World.Unreliable faults) :
    ¬ manager.Unread faults target (before.core averageCore) := by
  rintro (fails | unreadable | ⟨document, found, fault, read⟩)
  · exact steady fails
  · rw [holds.isReadable finite] at unreadable
    cases unreadable
  · obtain ⟨held, mem, -, rfl, rfl⟩ := (mem_search_averageQuery holds).1 found
    rw [AverageRank.ofDocument_toDocument (holds.fits held mem)] at read
    cases read

end Holds

end Manager

end RankLedger
