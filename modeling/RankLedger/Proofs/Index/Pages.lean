import RankLedger.Proofs.Index.Arrangement

/-!
# Pages of one arrangement

Where the values of a sort are of one kind, no three documents clash: values that the sort does not
tell apart are equal (`Core.SortsOneKind.ties_iff`).  So there is one arrangement of what a query
finds, however the core lists its documents, and the answer is a page of it
(`Core.query_is_page_of_arrangement`).
-/

namespace RankLedger

namespace IndexQuery

variable {query : IndexQuery Float}

def key? (query : IndexQuery Float) (document : Document Float) : Option (FieldValue Float) :=
  query.sort.bind fun sort => document.sortKey? sort.1

theorem getElem?_page {α : Type} (results : List α) (i : Nat) :
    ((∀ rows ∈ query.rows, i < rows) → (query.page results)[i]? = results[query.start + i]?) ∧
      ∀ rows ∈ query.rows, rows ≤ i → (query.page results)[i]? = none := by
  unfold page
  cases query.rows with
  | none => exact ⟨fun _ => List.getElem?_drop, nofun⟩
  | some rows =>
      simp only [Option.mem_some_iff, forall_eq', List.getElem?_take, List.getElem?_drop]
      exact ⟨fun less => if_pos less, fun le => if_neg (Nat.not_lt.2 le)⟩

theorem page_eq_nil {α : Type} {results : List α}
    (empty : results.length ≤ query.start ∨ query.rows = some 0) : query.page results = [] := by
  unfold page
  obtain pastEnd | noRows := empty
  · rw [List.drop_eq_nil_of_le pastEnd]
    cases query.rows <;> simp only [List.take_nil]
  · rw [noRows]
    rfl

end IndexQuery

namespace Core

variable {core : Core Float} {query : IndexQuery Float}

/-- The values that the query sorts the documents found on are of one kind. -/
def SortsOneKind (core : Core Float) (query : IndexQuery Float) : Prop :=
  ∀ a b u v, core.Finds query a → core.Finds query b → query.key? a.document = some u →
    query.key? b.document = some v → u.kind = v.kind

theorem SortsOneKind.not_hasClash (oneKind : core.SortsOneKind query) : ¬ core.HasClash query := by
  rintro ⟨a, b, c, foundA, foundB, -, -, field, order, u, v, w, sort, keyA, keyB, -, -, blurs⟩
  have key (stored : StoredDocument Float) :
      query.key? stored.document = stored.document.sortKey? field := by
    rw [IndexQuery.key?, sort]
    rfl
  have kind := oneKind b a v u foundB foundA ((key b).trans keyB) ((key a).trans keyA)
  cases blurs with
  | foreign first =>
      rw [kind, FieldValue.Kind.compares, beq_self_eq_true] at first
      cases first
  | rounded => cases kind

/-- Where the values are of one kind, the sort puts neither of two documents first exactly if both
    have no value or their values are equal. -/
theorem SortsOneKind.ties_iff (oneKind : core.SortsOneKind query)
    (readable : core.isReadable = true) {a b : StoredDocument Float}
    (foundA : core.Finds query a) (foundB : core.Finds query b) :
    (¬ query.Puts a.document b.document ∧ ¬ query.Puts b.document a.document) ↔
      Option.Rel FieldValue.Is (query.key? a.document) (query.key? b.document) := by
  have kinds := oneKind a b
  cases sort : query.sort with
  | none =>
      -- without a sort no document has a key, and none is put before another one
      have never (a b : Document Float) : ¬ query.Puts a b := fun ⟨_, _, sort', _⟩ =>
        nomatch sort.symm.trans sort'
      rw [IndexQuery.key?, IndexQuery.key?, sort]
      exact iff_of_true ⟨never _ _, never _ _⟩ .none
  | some sort' =>
      obtain ⟨field, order⟩ := sort'
      have key (stored : StoredDocument Float) :
          query.key? stored.document = stored.document.sortKey? field := by
        rw [IndexQuery.key?, sort]
        rfl
      rw [IndexQuery.puts_iff sort, IndexQuery.puts_iff sort, key a, key b]
      rw [key a, key b] at kinds
      have storable {stored : StoredDocument Float} (found : core.Finds query stored)
          (value : FieldValue Float) (held : stored.document.sortKey? field = some value) :
          value.isStorable = true :=
        Document.isStorable_of_sortKey? (isStorable_of_mem readable found.1) value held
      cases keyA : a.document.sortKey? field <;> cases keyB : b.document.sortKey? field
      case none.none => exact iff_of_true ⟨nofun, nofun⟩ .none
      case none.some => exact iff_of_false (fun ties => ties.2 .missing) nofun
      case some.none => exact iff_of_false (fun ties => ties.1 .missing) nofun
      case some.some u v =>
        have ties : u.Ties v ↔ u.Is v := FieldValue.ties_iff_is (storable foundA u keyA)
          (storable foundB v keyB) (kinds u v foundA foundB keyA keyB)
        simp only [SortOrder.putsKey_some_iff]
        refine Iff.trans ?_ (ties.trans ⟨.some, fun | .some equal => equal⟩)
        cases order with
        | ascending => exact Iff.rfl
        | descending => exact and_comm

/-- **Pages.** Where the values of the sort are of one kind, there is one arrangement of what a
    query finds, in which equal and missing values keep insertion order, and the answer is a page
    of it with the number of all documents found. -/
theorem query_is_page_of_arrangement (reached : core.IsReached) (readable : core.isReadable = true)
    (oneKind : core.SortsOneKind query) :
    ∃ list, core.IsArrangement query list ∧
      (∀ other, core.IsArrangement query other → other = list) ∧
      (∀ a b, core.Finds query a → core.Finds query b →
        ((¬ query.Puts a.document b.document ∧ ¬ query.Puts b.document a.document) ↔
          Option.Rel FieldValue.Is (query.key? a.document) (query.key? b.document))) ∧
      ∀ listing, listing.Perm core.committed → ∃ page,
        ({ core with committed := listing } : Core Float).query query = .ok page ∧
        page.found = list.length ∧
        (∀ i, (∀ rows ∈ query.rows, i < rows) →
          page.documents[i]? = list[query.start + i]?.map (·.document)) ∧
        (∀ i, ∀ rows ∈ query.rows, rows ≤ i → page.documents[i]? = none) ∧
        (list.length ≤ query.start ∨ query.rows = some 0 → page.documents = []) := by
  have order := reached.isInOrder
  have fits := oneKind.not_hasClash
  have arranged := isArrangement_of_perm order readable fits (.refl _)
  refine ⟨_, arranged, fun other => (·.unique arranged), fun a b => oneKind.ties_iff readable,
    fun listing perm => ⟨_, query_of_perm order readable fits arranged perm, rfl, ?_, ?_, ?_⟩⟩
  · intro i within
    rw [(IndexQuery.getElem?_page _ i).1 within, List.getElem?_map]
  · exact fun i => (IndexQuery.getElem?_page _ i).2
  · intro empty
    exact IndexQuery.page_eq_nil (by rwa [List.length_map])

/-- Of two equal values and a missing one, the largest first: the second one is the equal one that
    was added last, and the missing one follows. -/
theorem page_of_three_documents :
    let core := ofValues [some (.integer 3), none, some (.integer 3)]
    let query : IndexQuery Float :=
      { start := 1, rows := some 1, sort := some ("x", .descending) }
    core.IsReached ∧ core.isReadable = true ∧ core.SortsOneKind query ∧
      ∃ page, core.query query = .ok page ∧ page.found = 3 ∧
        page.documents[0]? = some (inPlace 3 (some (.integer 3))).document ∧
        page.documents[1]? = none := by
  intro core query
  have reached : core.IsReached := .apply .empty _
  have committed : core.committed =
      [inPlace 1 (some (.integer 3)), inPlace 2 none, inPlace 3 (some (.integer 3))] := rfl
  have integers : ∀ stored ∈ core.committed, ∀ value, query.key? stored.document = some value →
      value.kind = .integer := by
    intro stored mem value key
    rw [committed] at mem
    simp only [List.mem_cons, List.not_mem_nil, or_false] at mem
    obtain rfl | rfl | rfl := mem <;> cases key <;> rfl
  have oneKind : core.SortsOneKind query := fun a b u v foundA foundB keyA keyB =>
    (integers a foundA.1 u keyA).trans (integers b foundB.1 v keyB).symm
  have arranged : core.IsArrangement query
      [inPlace 1 (some (.integer 3)), inPlace 3 (some (.integer 3)), inPlace 2 none] := by
    have missing (place : Nat) :
        query.Precedes (inPlace place (some (.integer 3))) (inPlace 2 none) :=
      .inl ⟨"x", .descending, rfl, .missing⟩
    have equal :
        query.Precedes (inPlace 1 (some (.integer 3))) (inPlace 3 (some (.integer 3))) := by
      refine .inr ⟨?_, by decide⟩
      rintro ⟨_, _, ⟨⟩, puts⟩
      exact SortOrder.Puts.irrefl _ (SortOrder.putsKey_some_iff.1 puts)
    refine ⟨List.Nodup.of_map (·.place) (by decide), fun stored => ?_, ?_⟩
    · have all : query.Matches stored.document := nofun
      rw [Finds, committed, and_iff_left all]
      simp only [List.mem_cons, List.not_mem_nil, or_false]
      exact or_congr_right or_comm
    · exact .cons (by simpa using ⟨equal, missing 1⟩) (List.pairwise_pair.2 (missing 3))
  obtain ⟨list, -, unique, -, pages⟩ := query_is_page_of_arrangement reached rfl oneKind
  obtain ⟨page, answer, found, within, beyond, -⟩ := pages core.committed (.refl _)
  obtain rfl := unique _ arranged
  exact ⟨reached, rfl, oneKind, page, answer, found, within 0 (by decide),
    beyond 1 1 rfl (Nat.le_refl 1)⟩

end Core

end RankLedger
