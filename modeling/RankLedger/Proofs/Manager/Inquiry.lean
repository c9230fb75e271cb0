import RankLedger.Proofs.Index.Writes
import RankLedger.Proofs.Manager.Calling
import RankLedger.Proofs.Manager.Reading

/-!
# What a manager tells when it is asked

There are three inquiries: for a page of votes, for their number, and for the average of a target.
Each asks one query of one core, and the query is restricted to the manager's own documents
whatever the inquiry says of managers.  So an inquiry tells of no other manager
(`Inquiry.tells_own`), and where two worlds answer the manager's queries alike it tells the same
in both (`Inquiry.yields_congr`).
-/

namespace RankLedger

variable {ν : Type} [Scalar ν]

/-! ## 1. Inquiries -/

inductive Inquiry where
  | rankings (query : RankingQuery) (offset : Nat) (limit : Option Nat) (order : QueryField)
      (ascending : Bool)
  | count (query : RankingQuery)
  | average (target : EntityReference)

inductive Finding (ν : Type) where
  | rankings (result : Except RankingError (List Ranking))
  | count (result : Except RankingError Nat)
  | average (result : Except RankingError (AverageRank ν))

def Inquiry.program (manager : Manager) : Inquiry → Program ν (Finding ν)
  | rankings query offset limit order ascending =>
      (manager.rankings query offset limit order ascending).run.bind fun result =>
        .done (.rankings result)
  | count query => (manager.count query).run.bind fun result => .done (.count result)
  | average target => (manager.average target).run.bind fun result => .done (.average result)

omit [Scalar ν] in
def Finding.IsOf (identifier : String) : Finding ν → Prop
  | .rankings (.ok votes) => ∀ vote ∈ votes, vote.manager = identifier
  | .average (.ok known) => known.manager = identifier
  | _ => True

/-- Two worlds in which these identifiers were handed out tell the same: the findings are equal, or
    both make up an average for want of a stored one, each under an identifier of its own. -/
inductive Finding.Agrees (given given' : List String) : Finding ν → Finding ν → Prop
  | same (finding : Finding ν) : Agrees given given' finding finding
  | madeUp {average : AverageRank ν} {id : String} : average.id ∉ given → id ∉ given' →
      Agrees given given' (.average (.ok average)) (.average (.ok { average with id }))

/-! ## 2. Own documents -/

def Document.isOf (identifier : String) (document : Document ν) : Bool :=
  (document.get? QueryField.managerId.storedName).bind FieldValue.asText? == some identifier

section Own

variable {identifier : String} {document : Document ν}

omit [Scalar ν] in
theorem Document.text_of_isOf (h : document.isOf identifier = true) :
    document.text QueryField.managerId.storedName = .ok identifier := by
  rw [Document.text, beq_iff_eq.1 h]

omit [Scalar ν] in
/-- No document is of two managers. -/
theorem Document.not_isOf {other : String} (h : document.isOf identifier = true)
    (differs : identifier ≠ other) : document.isOf other = false := by
  rw [Document.isOf, beq_iff_eq.1 h, beq_eq_false_iff_ne]
  rintro ⟨⟩
  exact differs rfl

/-- The filter on the manager lets only its own documents pass. -/
theorem Document.isOf_of_passes
    (h : IndexQuery.passes document (QueryField.managerId.storedName, .text identifier) = true) :
    document.isOf identifier = true := by
  rw [IndexQuery.passes, if_neg (show QueryField.managerId.storedName ≠ idField by decide)] at h
  unfold Document.isOf
  cases hget : document.get? QueryField.managerId.storedName with
  | none =>
      rw [hget] at h
      cases h
  | some value =>
      rw [hget] at h
      cases value with
      | text value =>
          rw [beq_iff_eq.1 (show (value == identifier) = true from h)]
          exact beq_self_eq_true _
      | integer _ => cases h
      | double _ => cases h
      | date _ => cases h

variable {manager : Manager}

theorem Manager.isOf_of_accepts_indexQuery {query : RankingQuery} {page : IndexQuery ν}
    (filters : page.filters = (manager.indexQuery query : IndexQuery ν).filters)
    (h : page.accepts document = true) : document.isOf manager.identifier = true := by
  rw [IndexQuery.accepts, filters, List.all_eq_true] at h
  exact Document.isOf_of_passes (h _ (List.mem_append_right _ List.mem_cons_self))

theorem Manager.isOf_of_accepts_averageQuery {target : EntityReference}
    (h : (manager.averageQuery target).accepts document = true) :
    document.isOf manager.identifier = true := by
  rw [IndexQuery.accepts, List.all_eq_true] at h
  exact Document.isOf_of_passes (h _ List.mem_cons_self)

omit [Scalar ν] in
/-- A record is of the manager that its document names. -/
theorem Ranking.manager_of_ofDocument {vote : Ranking} (own : document.isOf identifier = true)
    (h : Ranking.ofDocument document = .ok vote) : vote.manager = identifier := by
  have named := Document.text_eq_ok_iff.2
    ((Ranking.ofDocument_eq_ok_iff.1 h).2.2 .managerId (by decide))
  rw [Document.text_of_isOf own] at named
  cases named
  rfl

theorem AverageRank.of_ofDocument {target : EntityReference} {average : AverageRank ν}
    (own : document.isOf identifier = true)
    (h : AverageRank.ofDocument document target = .ok average) :
    average.id = document.id ∧ average.manager = identifier := by
  obtain ⟨-, stored⟩ := AverageRank.ofDocument_eq_ok_iff.1 h
  have named := Document.text_eq_ok_iff.2 (stored.others .managerId (by decide))
  rw [show AverageField.managerId.storedName = QueryField.managerId.storedName from rfl,
    Document.text_of_isOf own] at named
  cases named
  exact ⟨stored.id, rfl⟩

end Own

/-! ## 3. One query each -/

section Alike

variable {faults : Call ν → Prop} {before after other : World ν}

/-- A page depends on nothing but the answer of the core. -/
theorem Manager.yields_readPage_congr {context core : String} {query : IndexQuery ν}
    {result : Except RankingError (IndexPage ν)}
    (same : (other.core core).query query = (before.core core).query query)
    (h : (readPage context core query).run.Yields (World.Answers faults) before result after) :
    after = before ∧
      (readPage context core query).run.Yields (World.Answers faults) other result other := by
  rw [readPage, Attempt.yields_inContext] at h ⊢
  obtain ⟨answer, h, rfl⟩ := h
  obtain ⟨error, opened, rfl⟩ | ⟨_, middle, opened, asked⟩ := yields_exceptBind.1 h
  · obtain ⟨reason, rfl⟩ := Program.yields_request.1 opened
    have opened' : (Program.request (.openCore core)).Yields (World.Answers faults) other
        (.error error) other := Program.yields_request.2 ⟨reason, rfl⟩
    exact ⟨rfl, _, yields_exceptBind.2 (.inl ⟨error, opened', rfl⟩), rfl⟩
  · obtain ⟨named, rfl⟩ := Program.yields_request.1 opened
    have opened' : (Program.request (.openCore core)).Yields (World.Answers faults) other
        (.ok ()) other := Program.yields_request.2 ⟨named, rfl⟩
    have asked' : after = middle ∧ (Program.request (.query core query)).Yields
        (World.Answers faults) other answer other := by
      cases answer with
      | ok page =>
          obtain ⟨answered, rfl⟩ := Program.yields_request.1 asked
          exact ⟨rfl, Program.yields_request.2 ⟨same.trans answered, rfl⟩⟩
      | error error =>
          obtain ⟨reason, rfl⟩ := Program.yields_request.1 asked
          exact ⟨rfl, Program.yields_request.2 ⟨reason.imp_left same.trans, rfl⟩⟩
    exact ⟨asked'.1, _, yields_exceptBind.2 (.inr ⟨(), other, opened', asked'.2⟩), rfl⟩

/-- The answer is also the same if the page is only looked at afterwards. -/
theorem Manager.yields_read_congr {α : Type} {context core : String} {query : IndexQuery ν}
    {look : IndexPage ν → Except RankingError α} {result : Except RankingError α}
    (same : (other.core core).query query = (before.core core).query query)
    (h : (readPage context core query >>= fun page => Attempt.ofExcept (look page)).run.Yields
      (World.Answers faults) before result after) :
    after = before ∧
      (readPage context core query >>= fun page => Attempt.ofExcept (look page)).run.Yields
        (World.Answers faults) other result other := by
  obtain ⟨error, read, rfl⟩ | ⟨page, middle, read, looked⟩ := yields_exceptBind.1 h
  · obtain ⟨rfl, there⟩ := yields_readPage_congr same read
    exact ⟨rfl, yields_exceptBind.2 (.inl ⟨error, there, rfl⟩)⟩
  · obtain ⟨rfl, there⟩ := yields_readPage_congr same read
    obtain ⟨rfl, rfl⟩ := Attempt.yields_ofExcept.1 looked
    refine ⟨rfl, yields_exceptBind.2 (.inr ⟨page, other, there, ?_⟩)⟩
    exact Attempt.yields_ofExcept.2 ⟨rfl, rfl⟩

end Alike

namespace Manager

variable {manager : Manager}

/-- The votes in the documents of a page, or the fault of the first one that is no vote. -/
def votesOf (page : IndexPage ν) : Except RankingError (List Ranking) :=
  page.documents.mapM fun document => (Ranking.ofDocument document).mapError .invalidDocument

omit [Scalar ν] in
theorem mapM_ofDocument_eq (documents : List (Document ν)) :
    (documents.mapM fun document =>
        (Attempt.ofDocument (Ranking.ofDocument document) : Attempt ν Ranking)) =
      Attempt.ofExcept (documents.mapM fun document =>
        (Ranking.ofDocument document).mapError .invalidDocument) := by
  induction documents with
  | nil => rfl
  | cons document rest ih =>
      rw [List.mapM_cons, List.mapM_cons, ih]
      cases Ranking.ofDocument document with
      | error _ => rfl
      | ok vote =>
          cases rest.mapM fun document =>
            (Ranking.ofDocument document).mapError RankingError.invalidDocument with
          | error _ => rfl
          | ok _ => rfl

/-! Votes and their number are a page that is looked at, if there is a query to ask. -/

section Page

variable {query : RankingQuery}

omit [Scalar ν] in
theorem rankings_eq (fits : query.Fits) (offset : Nat) (limit : Option Nat)
    (order : QueryField) (ascending : Bool) :
    (manager.rankings query offset limit order ascending : Attempt ν (List Ranking)) =
      readPage "error while trying to get rankings" manager.voteCore
        { manager.indexQuery query with
          start := offset
          rows := limit
          sort := some (order.storedName, SortOrder.ofAscending ascending) } >>= fun page =>
      Attempt.ofExcept (votesOf page) := by
  rw [rankings, rankingPage, indexQuery?_of_fits fits, Attempt.fitting_some_bind, bind_assoc]
  congr 1
  funext page
  rw [mapM_ofDocument_eq, votesOf]
  cases page.documents.mapM fun document =>
      (Ranking.ofDocument document).mapError RankingError.invalidDocument with
  | error _ => rfl
  | ok _ => rfl

omit [Scalar ν] in
theorem count_eq (fits : query.Fits) :
    (manager.count query : Attempt ν Nat) =
      readPage "error while trying to get count of rankings" manager.voteCore
        { manager.indexQuery query with rows := some 0 } >>= fun page =>
      Attempt.ofExcept (.ok page.found) := by
  rw [count, indexQuery?_of_fits fits, Attempt.fitting_some_bind]
  rfl

omit [Scalar ν] in
/-- A query with a date that has no milliseconds is never asked. -/
theorem rankings_of_not_fits (unfit : ¬ query.Fits) (offset : Nat) (limit : Option Nat)
    (order : QueryField) (ascending : Bool) :
    (manager.rankings query offset limit order ascending : Attempt ν (List Ranking)) =
      Attempt.ofExcept (.error .overflow) := by
  rw [rankings, rankingPage, indexQuery?_of_not_fits unfit, Attempt.fitting_none_bind]
  rfl

omit [Scalar ν] in
theorem count_of_not_fits (unfit : ¬ query.Fits) :
    (manager.count query : Attempt ν Nat) = Attempt.ofExcept (.error .overflow) := by
  rw [count, indexQuery?_of_not_fits unfit, Attempt.fitting_none_bind]

end Page

omit [Scalar ν] in
/-- The votes of a page come from its documents. -/
theorem exists_of_mem_votesOf {page : IndexPage ν} {votes : List Ranking} {vote : Ranking}
    (h : votesOf page = .ok votes) (mem : vote ∈ votes) :
    ∃ document ∈ page.documents, Ranking.ofDocument document = .ok vote := by
  unfold votesOf at h
  generalize page.documents = documents at h ⊢
  induction documents generalizing votes with
  | nil =>
      cases h
      cases mem
  | cons document rest ih =>
      rw [List.mapM_cons] at h
      obtain ⟨first, read, h⟩ := ok_of_bind h
      obtain ⟨others, all, h⟩ := ok_of_bind h
      cases h
      obtain rfl | mem := List.mem_cons.1 mem
      · cases hread : Ranking.ofDocument document with
        | error fault =>
            rw [hread] at read
            cases read
        | ok vote =>
            rw [hread] at read
            cases read
            exact ⟨document, List.mem_cons_self, hread⟩
      · obtain ⟨other, mem, read⟩ := ih mem all
        exact ⟨other, List.mem_cons_of_mem _ mem, read⟩

end Manager

section Tells

variable {manager : Manager} {faults : Call ν → Prop} {before after other : World ν}

structure World.AlikeFor (manager : Manager) (before other : World ν) : Prop where
  votes : ∀ query : IndexQuery ν,
    (∀ document, query.accepts document = true → document.isOf manager.identifier = true) →
    (other.core manager.voteCore).query query = (before.core manager.voteCore).query query
  averages : ∀ query : IndexQuery ν,
    (∀ document, query.accepts document = true → document.isOf manager.identifier = true) →
    (other.core averageCore).query query = (before.core averageCore).query query

def Manager.makeUp (manager : Manager) (target : EntityReference) : Attempt ν (AverageRank ν) := do
  let id ← Attempt.freshId
  let now ← Attempt.now
  return AverageRank.create id manager.identifier target manager.scale now

/-- Any new identifier can be made up, at any time. -/
theorem Manager.yields_makeUp {target : EntityReference} {id : String} (fresh : id ∉ before.given)
    {instant : Instant} (date : instant.IsDate) :
    (manager.makeUp target).run.Yields (World.Answers faults) before
      (.ok (.create id manager.identifier target manager.scale instant.truncated))
      { before with given := before.given ++ [id], shown := before.shown ++ [instant] } := by
  refine yields_exceptBind.2 (.inr ⟨id, { before with given := before.given ++ [id] }, ?_, ?_⟩)
  · exact yields_exceptLift.2 ⟨id, Program.yields_request.2 ⟨fresh, rfl⟩, rfl⟩
  · refine yields_exceptBind.2 (.inr ⟨instant.truncated, _, ?_, rfl, rfl⟩)
    refine yields_liftBind.2 ⟨instant, _, Program.yields_request.2 ⟨date, rfl⟩, ?_⟩
    rw [Instant.truncated?_of_isDate date]
    exact ⟨rfl, rfl⟩

/-- The average told is the same, unless one is made up. -/
theorem Manager.yields_average_congr {target : EntityReference}
    {result : Except RankingError (AverageRank ν)}
    (same : (other.core averageCore).query (manager.averageQuery target) =
      (before.core averageCore).query (manager.averageQuery target))
    (h : (manager.average target).run.Yields (World.Answers faults) before result after) :
    ∃ result' after', (manager.average target).run.Yields (World.Answers faults) other result'
      after' ∧ Finding.Agrees before.given other.given (.average result) (.average result') := by
  obtain ⟨error, read, rfl⟩ | ⟨page, middle, read, looked⟩ := yields_exceptBind.1 h
  · obtain ⟨rfl, there⟩ := yields_readPage_congr same read
    exact ⟨_, other, yields_exceptBind.2 (.inl ⟨error, there, rfl⟩), .same _⟩
  · obtain ⟨rfl, there⟩ := yields_readPage_congr same read
    cases hhead : page.documents.head? with
    | some document =>
        rw [hhead] at looked
        obtain ⟨rfl, rfl⟩ := Attempt.yields_ofExcept.1 looked
        refine ⟨_, other, yields_exceptBind.2 (.inr ⟨page, other, there, ?_⟩), .same _⟩
        rw [hhead]
        exact Attempt.yields_ofExcept.2 ⟨rfl, rfl⟩
    | none =>
        rw [hhead] at looked
        obtain ⟨id, fresh, looked⟩ := World.yields_freshId_bind looked
        obtain ⟨instant, date, rfl, rfl⟩ := World.yields_now_bind looked
        -- the other world makes up the same average at the same time, under its own identifier
        have fresh' := IdSource.nth_keepClear_notMem {} other.given 0
        obtain ⟨after', made⟩ : ∃ after', (manager.makeUp target).run.Yields (World.Answers faults)
            other (.ok _) after' :=
          ⟨_, manager.yields_makeUp fresh' date⟩
        refine ⟨_, after', yields_exceptBind.2 (.inr ⟨page, other, there, ?_⟩),
          .madeUp fresh fresh'⟩
        rw [hhead]
        exact made

/-- **Alike worlds.** Where two worlds answer a manager's queries alike, every inquiry tells the
    same in both, up to the identifier of an average that is made up. -/
theorem Inquiry.yields_congr (alike : World.AlikeFor manager before other) {inquiry : Inquiry}
    {finding : Finding ν}
    (h : (inquiry.program manager).Yields (World.Answers faults) before finding after) :
    ∃ finding' after', (inquiry.program manager).Yields (World.Answers faults) other finding'
      after' ∧ finding.Agrees before.given other.given finding' := by
  cases inquiry with
  | rankings query offset limit order ascending =>
      obtain ⟨result, told, rfl⟩ := Program.yields_map.1 h
      -- the answer is the same one, so it suffices to find it in the other world
      suffices there : (manager.rankings query offset limit order ascending).run.Yields
          (World.Answers faults) other result other from
        ⟨_, other, Program.yields_map.2 ⟨result, there, rfl⟩, .same _⟩
      by_cases fits : query.Fits
      · rw [Manager.rankings_eq fits] at told ⊢
        exact (Manager.yields_read_congr (alike.votes _ fun _ accepted =>
          Manager.isOf_of_accepts_indexQuery (by rfl) accepted) told).2
      · rw [Manager.rankings_of_not_fits fits] at told ⊢
        exact ⟨told.1, rfl⟩
  | count query =>
      obtain ⟨result, told, rfl⟩ := Program.yields_map.1 h
      suffices there : (manager.count query).run.Yields (World.Answers faults) other result other
        from ⟨_, other, Program.yields_map.2 ⟨result, there, rfl⟩, .same _⟩
      by_cases fits : query.Fits
      · rw [Manager.count_eq fits] at told ⊢
        exact (Manager.yields_read_congr (alike.votes _ fun _ accepted =>
          Manager.isOf_of_accepts_indexQuery (by rfl) accepted) told).2
      · rw [Manager.count_of_not_fits fits] at told ⊢
        exact ⟨told.1, rfl⟩
  | average target =>
      obtain ⟨result, told, rfl⟩ := Program.yields_map.1 h
      obtain ⟨result', after', there, agrees⟩ := Manager.yields_average_congr
        (alike.averages _ fun _ accepted => Manager.isOf_of_accepts_averageQuery accepted) told
      exact ⟨_, after', Program.yields_map.2 ⟨result', there, rfl⟩, agrees⟩

/-- **Own records.** An inquiry tells of no other manager, in any world. -/
theorem Inquiry.tells_own (named : manager.voteCore ≠ "") {inquiry : Inquiry} {finding : Finding ν}
    (h : (inquiry.program manager).Yields (World.Answers faults) before finding after) :
    finding.IsOf manager.identifier := by
  cases inquiry with
  | count query =>
      obtain ⟨result, -, rfl⟩ := Program.yields_map.1 h
      trivial
  | rankings query offset limit order ascending =>
      obtain ⟨result, told, rfl⟩ := Program.yields_map.1 h
      cases result with
      | error _ => trivial
      | ok votes =>
          by_cases fits : query.Fits
          · rw [Manager.rankings_eq fits] at told
            obtain ⟨⟨_, wrong⟩, -⟩ | ⟨page, middle, ⟨rfl, rfl⟩, looked⟩ :=
              yields_bind_of_ends (Manager.yields_readPage named) told
            · cases wrong
            · -- the votes come from documents that passed the filters of the query
              obtain ⟨read, -⟩ := Attempt.yields_ofExcept.1 looked
              intro vote mem
              obtain ⟨document, mem, read⟩ := Manager.exists_of_mem_votesOf read.symm mem
              have mem := (Core.search_perm _ _).subset (IndexQuery.mem_of_mem_page mem)
              exact Ranking.manager_of_ofDocument
                (Manager.isOf_of_accepts_indexQuery rfl (List.mem_filter.1 mem).2) read
          · rw [Manager.rankings_of_not_fits fits] at told
            cases told.1
  | average target =>
      obtain ⟨result, told, rfl⟩ := Program.yields_map.1 h
      cases Manager.yields_average told with
      | error _ => trivial
      | ok reads =>
          obtain ⟨document, first, read, -⟩ | ⟨-, made⟩ := reads
          · have mem := (Core.search_perm _ _).subset (List.mem_of_mem_head? first)
            exact (AverageRank.of_ofDocument
              (Manager.isOf_of_accepts_averageQuery (List.mem_filter.1 mem).2) read).2
          · obtain ⟨instant, -, -, same⟩ := made.made
            show AverageRank.manager _ = _
            rw [same]
            rfl

/-- Whoever only reads writes nothing. -/
theorem Program.Makes.idle {α : Type} {program : Program ν α} {outcome : α}
    (reads : program.Makes Call.Reads)
    (h : program.Yields (World.Answers faults) before outcome after) : before.Idle after := by
  induction program generalizing before with
  | done result =>
      rw [h.2]
      exact World.Idle.refl _
  | step call next ih =>
      obtain ⟨reads, rest⟩ := reads
      obtain ⟨reply, middle, answered, yields⟩ := h
      refine World.Idle.trans ?_ (ih reply (rest reply) yields)
      cases call with
      | openCore | query =>
          cases reply <;> exact answered.2 ▸ World.Idle.refl _
      | now =>
          obtain ⟨-, rfl⟩ := answered
          exact ⟨rfl, rfl, List.prefix_rfl, List.prefix_append ..⟩
      | freshId =>
          obtain ⟨-, rfl⟩ := answered
          exact ⟨rfl, rfl, List.prefix_append .., List.prefix_rfl⟩
      | add | delete | commit | getLock | acquire | release | notify => exact reads.elim

/-- **Inquiries write nothing.** -/
theorem Inquiry.idle {inquiry : Inquiry} {finding : Finding ν}
    (h : (inquiry.program manager).Yields (World.Answers faults) before finding after) :
    before.Idle after := by
  have told {α : Type} {program : Program ν α} {f : α → Finding ν}
      (reads : program.Makes Call.Reads) :
      (program.bind fun result => .done (f result)).Makes Call.Reads :=
    reads.bind fun _ => Program.makes_done _
  cases inquiry with
  | rankings => exact (told Manager.reads_rankings).idle h
  | count => exact (told Manager.reads_count).idle h
  | average => exact (told Manager.reads_average).idle h

end Tells

end RankLedger
