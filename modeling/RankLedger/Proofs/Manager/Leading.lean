import Mathlib.Data.Prod.Lex
import RankLedger.Proofs.Index.Sorting
import RankLedger.Proofs.Manager.Finding

/-!
# Which average is read

There should be one average for a target, but a core may hold several.  Then a manager reads the
one that was updated first, and of those updated at the same time the one that stands in the lowest
place.  An average *leads* if it is this one (`Manager.Leads`).  If it leads, it is read back as it
was stored (`Manager.yields_average_of_leads`), and if the averages of the target carry dates, no
other one is ever read (`Manager.leads_of_yields`).
-/

namespace RankLedger

variable {ν : Type}

/-! ## 1. Dates of averages -/

def Document.updated? (document : Document ν) : Option Int64 :=
  (document.get? AverageField.updatedAt.storedName).bind FieldValue.asDate?

theorem Document.get?_of_updated? {document : Document ν} {date : Int64}
    (h : document.updated? = some date) :
    document.get? AverageField.updatedAt.storedName = some (.date date) := by
  obtain ⟨value, stored, dated⟩ := Option.bind_eq_some_iff.1 h
  cases value with
  | date millis =>
      cases dated
      exact stored
  | _ => cases dated

@[simp] theorem AverageRank.updated?_toDocument (average : AverageRank ν) :
    average.toDocument.updated? = some average.updated.millis := by
  rw [Document.updated?, get?_toDocument]
  rfl

namespace Manager

variable [Scalar ν] {manager : Manager} {target : EntityReference}

/-- Averages are compared by their dates, and one without a date comes last. -/
theorem compareDocuments_averageQuery (a b : Document ν) :
    (manager.averageQuery target).compareDocuments a b = SortOrder.ascending.compareKeys
      (a.get? AverageField.updatedAt.storedName) (b.get? AverageField.updatedAt.storedName) := by
  have field : AverageField.updatedAt.storedName ≠ idField := by decide
  show SortOrder.ascending.compareKeys (a.sortKey? _) (b.sortKey? _) = _
  rw [Document.sortKey?, if_neg field, Document.sortKey?, if_neg field]

/-- A date compares with whatever it is compared with the other way round. -/
theorem compareKeys_date (date : Int64) (key : Option (FieldValue ν)) :
    SortOrder.ascending.compareKeys key (some (.date date)) =
      (SortOrder.ascending.compareKeys (some (.date date)) key).swap := by
  cases key with
  | none => rfl
  | some value =>
      cases value with
      | date other =>
          show compare other date = (compare date other).swap
          exact Std.OrientedCmp.eq_swap
      | text _ => rfl
      | integer _ => rfl
      | double _ => rfl

variable {a b : StoredDocument ν} {date other : Int64}

/-- Two averages with dates stand in the order of their dates and then of their places. -/
theorem inOrder_iff_of_updated? (first : a.document.updated? = some date)
    (second : b.document.updated? = some other) :
    Core.inOrder (manager.averageQuery target) a b = true ↔
      date < other ∨ date = other ∧ a.place ≤ b.place := by
  have compared : (manager.averageQuery target).compareDocuments a.document b.document =
      compare date other := by
    rw [compareDocuments_averageQuery, Document.get?_of_updated? first,
      Document.get?_of_updated? second]
    rfl
  rw [Core.inOrder, compared]
  cases ordering : compare date other with
  | lt =>
      have := Std.compare_eq_lt.1 ordering
      simp [this]
  | eq =>
      have := Std.LawfulEqCmp.eq_of_compare ordering
      simp [this]
  | gt =>
      have later := Int64.lt_iff_toInt_lt.1 (Std.compare_eq_gt.1 ordering)
      refine iff_of_false Bool.false_ne_true ?_
      rintro (earlier | ⟨rfl, -⟩)
      · exact absurd (Int64.lt_iff_toInt_lt.1 earlier) later.asymm
      · exact absurd later (lt_irrefl _)

/-- What stands behind an average with a date does not stand before it. -/
theorem inOrder_swap (dated : a.document.updated? = some date) (apart : a.place ≠ b.place)
    (before : Core.inOrder (manager.averageQuery target) a b = true) :
    Core.inOrder (manager.averageQuery target) b a = false := by
  have swap : (manager.averageQuery target).compareDocuments b.document a.document =
      ((manager.averageQuery target).compareDocuments a.document b.document).swap := by
    rw [compareDocuments_averageQuery, compareDocuments_averageQuery,
      Document.get?_of_updated? dated, compareKeys_date]
  rw [Core.inOrder] at before ⊢
  rw [swap]
  cases ordering : (manager.averageQuery target).compareDocuments a.document b.document with
  | lt => rfl
  | eq =>
      rw [ordering] at before
      simp at before ⊢
      omega
  | gt =>
      rw [ordering] at before
      cases before

/-! ## 2. The average that leads -/

/-- An average leads in a core if the core can be read and no other average of its target stands
    before it. -/
structure Leads (manager : Manager) (average : AverageRank ν) (core : Core ν) : Prop where
  readable : core.isReadable = true
  first : ∀ own ∈ core.committed, own.document.id = average.id → ∀ other ∈ core.committed,
    (manager.averageQuery average.target).accepts other.document = true →
    other.document.id ≠ average.id →
    Core.inOrder (manager.averageQuery average.target) own other = true

/-- The only average of its target leads. -/
theorem leads_of_alone {average : AverageRank ν} {core : Core ν} (readable : core.isReadable = true)
    (alone : ∀ stored ∈ core.committed,
      (manager.averageQuery average.target).accepts stored.document = true →
        stored.document.id = average.id) : manager.Leads average core :=
  ⟨readable, fun _ _ _ other among passes differs => absurd (alone other among passes) differs⟩

def AreDated (manager : Manager) (target : EntityReference) (core : Core ν) : Prop :=
  ∀ stored ∈ core.committed, (manager.averageQuery target).accepts stored.document = true →
    stored.document.updated?.isSome

variable {average : AverageRank ν} {core : Core ν}

structure Stores (manager : Manager) (average : AverageRank ν) (core : Core ν) : Prop where
  distinct : core.IsDistinct
  order : core.IsInOrder
  stored : core.document? average.id = some average.toDocument
  own : average.manager = manager.identifier

namespace Stores

variable (stores : manager.Stores average core)
include stores

omit [Scalar ν] in
/-- The document of the average, in its place; no other one has its identifier. -/
theorem exists_own : ∃ own ∈ core.committed, own.document = average.toDocument ∧
    ∀ other ∈ core.committed, other.document.id = average.id → other = own := by
  obtain ⟨own, found, same⟩ := Option.map_eq_some_iff.1 stores.stored
  have mem : own ∈ core.committed := List.mem_of_find?_eq_some found
  refine ⟨own, mem, same, fun other among equal => ?_⟩
  have distinct : (core.committed.map fun stored => stored.document.id).Nodup := by
    have := stores.distinct
    rwa [Core.IsDistinct, Core.documents, List.map_map] at this
  exact List.inj_on_of_nodup_map distinct among mem (equal.trans (Core.id_of_find? found).symm)

theorem accepts :
    (manager.averageQuery average.target).accepts average.toDocument = true :=
  accepts_averageQuery.2 ⟨stores.own, rfl⟩

/-- **Leading averages** are found first. -/
theorem head?_search (leads : manager.Leads average core) :
    (core.search (manager.averageQuery average.target)).head? = some average.toDocument := by
  obtain ⟨own, mem, same, alone⟩ := stores.exists_own
  have dated : own.document.updated? = some average.updated.millis := by
    rw [same, AverageRank.updated?_toDocument]
  have places : (core.committed.map (·.place)).Nodup :=
    List.pairwise_map.2 (stores.order.ascending.imp Nat.ne_of_lt)
  rw [← same]
  refine Core.head?_search mem (same ▸ stores.accepts) fun other among accepted differs => ?_
  have before : Core.inOrder (manager.averageQuery average.target) own other = true := by
    refine leads.first own mem ?_ other among accepted fun equal => differs (alone other among equal)
    rw [same, AverageRank.id_toDocument]
  refine ⟨before, inOrder_swap dated (fun place => differs ?_) before⟩
  exact (List.inj_on_of_nodup_map places mem among place).symm

/-- The average that is found first leads, if the averages can be told apart by their dates. -/
theorem leads_of_head? (dated : manager.AreDated average.target core) {document : Document ν}
    (head : (core.search (manager.averageQuery average.target)).head? = some document)
    (same : document.id = average.id) (readable : core.isReadable = true) :
    manager.Leads average core := by
  let query : IndexQuery ν := manager.averageQuery average.target
  -- sorting by date and then by place is sorting by one key
  let key (stored : StoredDocument ν) : Int ×ₗ Nat :=
    toLex ((stored.document.updated?.getD 0).toInt, stored.place)
  have agrees : ∀ a ∈ core.committed.filter (fun stored => query.accepts stored.document),
      ∀ b ∈ core.committed.filter (fun stored => query.accepts stored.document),
        Core.inOrder query a b = decide (key a ≤ key b) := by
    intro a first b second
    obtain ⟨first, passes⟩ := List.mem_filter.1 first
    obtain ⟨second, passes'⟩ := List.mem_filter.1 second
    obtain ⟨date, hdate⟩ := Option.isSome_iff_exists.1 (dated a first passes)
    obtain ⟨other, hother⟩ := Option.isSome_iff_exists.1 (dated b second passes')
    rw [Bool.eq_iff_iff, inOrder_iff_of_updated? hdate hother, decide_eq_true_iff,
      Prod.Lex.toLex_le_toLex, hdate, hother, Option.getD_some, Option.getD_some,
      Int64.lt_iff_toInt_lt, Int64.toInt_inj]
  rw [Core.search, List.head?_map] at head
  obtain ⟨first, least, rfl⟩ := Option.map_eq_some_iff.1 head
  obtain ⟨found, before⟩ := of_head?_mergeSort agrees least
  -- what was found is what is stored of the average
  obtain ⟨stored, -, -, alone⟩ := stores.exists_own
  refine ⟨readable, fun own held equal other among passes _ => ?_⟩
  rw [(alone own held equal).trans (alone first (List.mem_filter.1 found).1 same).symm]
  exact before other (List.mem_filter.2 ⟨among, passes⟩)

end Stores

/-! ## 3. Reading -/

variable {faults : Call ν → Prop} {before after : World ν}
  {result : Except RankingError (AverageRank ν)}

/-- The document that is found first decides what is read. -/
theorem yields_average_of_head? {document : Document ν}
    (readable : (before.core averageCore).isReadable = true)
    (first : ((before.core averageCore).search (manager.averageQuery target)).head? =
      some document)
    (h : (manager.average target).run.Yields (World.Answers faults) before result after) :
    Ends (fun value after => AverageRank.ofDocument document target = .ok value ∧ after = before)
      (fun after => (World.Unreliable faults ∨
        ∃ fault, AverageRank.ofDocument document target = .error fault) ∧ after = before)
      result after := by
  obtain ⟨⟨_, rfl⟩, rfl, reason⟩ | ⟨page, middle, ⟨rfl, same⟩, rest⟩ :=
    yields_bind_of_ends (yields_readPage (by decide)) h
  · rw [readable] at reason
    exact .error ⟨.inl (reason.resolve_right nofun), rfl⟩
  · have documents : page.documents.head? = some document := by
      rw [same, ← first]
      show (((middle.core averageCore).search _).take 1).head? = _
      cases (middle.core averageCore).search (manager.averageQuery target) <;> rfl
    rw [documents] at rest
    obtain ⟨rfl, rfl⟩ := Attempt.yields_ofExcept.1 rest
    cases read : AverageRank.ofDocument document target with
    | ok average => exact .ok ⟨rfl, rfl⟩
    | error fault => exact .error ⟨.inr ⟨fault, rfl⟩, rfl⟩

/-- **A leading average** is read as it was stored. -/
theorem yields_average_of_leads (stores : manager.Stores average (before.core averageCore))
    (fits : average.Fits) (leads : manager.Leads average (before.core averageCore))
    (h : (manager.average average.target).run.Yields (World.Answers faults) before result after) :
    Ends (fun value after => value = average ∧ after = before)
      (fun after => World.Unreliable faults ∧ after = before) result after := by
  have read := AverageRank.ofDocument_toDocument fits
  cases yields_average_of_head? leads.readable (stores.head?_search leads) h with
  | ok right =>
      rw [read] at right
      exact .ok ⟨(Except.ok.inj right.1).symm, right.2⟩
  | error wrong =>
      obtain ⟨unreliable | ⟨_, fault⟩, rfl⟩ := wrong
      · exact .error ⟨unreliable, rfl⟩
      · rw [read] at fault
        cases fault

/-- Only a core that can be read gives a page. -/
theorem isReadable_of_yields {context core : String} {query : IndexQuery ν} {page : IndexPage ν}
    (h : (readPage context core query).run.Yields (World.Answers faults) before (.ok page) after) :
    (before.core core).isReadable = true := by
  rw [readPage, Attempt.yields_inContext] at h
  obtain ⟨answer, h, same⟩ := h
  cases answer with
  | error error => cases same
  | ok answer =>
      obtain ⟨_, -, wrong⟩ | ⟨_, middle, opened, asked⟩ := yields_exceptBind.1 h
      · cases wrong
      · obtain ⟨-, rfl⟩ := Program.yields_request.1 opened
        obtain ⟨answered, -⟩ := Program.yields_request.1 asked
        unfold Core.query at answered
        split at answered
        · assumption
        · cases answered

/-- **Only a leading average** is read, if the averages of its target carry dates. -/
theorem leads_of_yields (stores : manager.Stores average (before.core averageCore))
    (dated : manager.AreDated average.target (before.core averageCore))
    (h : (manager.average average.target).run.Yields (World.Answers faults) before (.ok average)
      after) : manager.Leads average (before.core averageCore) := by
  have perm := (before.core averageCore).search_perm (manager.averageQuery average.target)
  cases yields_average h with
  | ok reads =>
      obtain ⟨document, first, read, rfl⟩ | ⟨nothing, -⟩ := reads
      · obtain ⟨-, passes⟩ := List.mem_filter.1 (perm.subset (List.mem_of_mem_head? first))
        have same := (AverageRank.of_ofDocument (isOf_of_accepts_averageQuery passes) read).1
        obtain ⟨_, _, wrong⟩ | ⟨page, middle, paged, -⟩ := yields_exceptBind.1 h
        · cases wrong
        · exact stores.leads_of_head? dated first same.symm (isReadable_of_yields paged)
      · -- what is stored of the average passes
        obtain ⟨own, mem, same, -⟩ := stores.exists_own
        have found : average.toDocument ∈
            (before.core averageCore).documents.filter (manager.averageQuery _).accepts :=
          List.mem_filter.2 ⟨same ▸ List.mem_map_of_mem mem, stores.accepts⟩
        rw [nothing] at perm
        cases perm.symm.subset found

end Manager

end RankLedger
