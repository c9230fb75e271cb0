import RankLedger.Proofs.Index.Order
import RankLedger.Proofs.Index.Sorting

/-!
# Arrangements

What a query finds is arranged by its sort, and by insertion order where the sort puts neither of
two documents first (`IndexQuery.Precedes`).  Such an arrangement exists, is the only one, and does
not depend on how the core lists its documents, unless three of the documents clash
(`IndexQuery.Clash`): the last one inserted comes before the first one, and one inserted between
them ties with both.  Then the three precede each other in a circle, and no list has them in order
(`Core.is_arranged_unless_values_clash`).
-/

namespace RankLedger

/-! ## 1. Which of two documents comes first -/

namespace IndexQuery

variable {query : IndexQuery Float} {a b c : StoredDocument Float}

def Precedes (query : IndexQuery Float) (a b : StoredDocument Float) : Prop :=
  query.Puts a.document b.document ∨ ¬ query.Puts b.document a.document ∧ a.place < b.place

theorem Precedes.asymm (ab : query.Precedes a b) : ¬ query.Precedes b a := by
  obtain puts | ⟨notPut, earlier⟩ := ab
  · rintro (puts' | ⟨notPut', -⟩)
    · exact Puts.irrefl _ (puts.trans puts')
    · exact notPut' puts
  · rintro (puts' | ⟨-, earlier'⟩)
    · exact notPut puts'
    · exact Nat.lt_asymm earlier earlier'

theorem precedes_or_precedes (places : a.place ≠ b.place) :
    query.Precedes a b ∨ query.Precedes b a := by
  by_cases ab : query.Puts a.document b.document
  · exact .inl (.inl ab)
  by_cases ba : query.Puts b.document a.document
  · exact .inr (.inl ba)
  obtain earlier | later := Nat.lt_or_gt_of_ne places
  · exact .inl (.inr ⟨ba, earlier⟩)
  · exact .inr (.inr ⟨ab, later⟩)

/-! ## 2. Clashes -/

structure Clash (query : IndexQuery Float) (first middle last : StoredDocument Float) : Prop where
  places : first.place < middle.place ∧ middle.place < last.place
  values : ∃ field order u v w, query.sort = some (field, order) ∧
    first.document.sortKey? field = some u ∧ middle.document.sortKey? field = some v ∧
    last.document.sortKey? field = some w ∧ order.Puts w u ∧ v.Blurs u w

end IndexQuery

namespace SortOrder

variable {order : SortOrder} {u v w : FieldValue Float}

theorem putsKey_some_iff : order.PutsKey (some u) (some v) ↔ order.Puts u v :=
  ⟨fun | .values before => before, .values⟩

/-- In both directions, what ties with two values in order blurs them. -/
theorem blurs_iff_of_puts (puts : order.Puts w u) (storable : v.isStorable = true) :
    v.Blurs u w ↔
      (¬ order.Puts u v ∧ ¬ order.Puts v u) ∧ ¬ order.Puts v w ∧ ¬ order.Puts w v := by
  cases order with
  | ascending =>
      have ties : v.Blurs w u ↔ v.Ties w ∧ v.Ties u := FieldValue.blurs_iff_ties puts storable
      exact ⟨fun blurs => ⟨(ties.1 blurs.symm).2.symm, (ties.1 blurs.symm).1⟩,
        fun apart => (ties.2 ⟨apart.2, apart.1.symm⟩).symm⟩
  | descending =>
      have ties : v.Blurs u w ↔ v.Ties u ∧ v.Ties w := FieldValue.blurs_iff_ties puts storable
      exact ⟨fun blurs => ⟨(ties.1 blurs).1, (ties.1 blurs).2.symm⟩,
        fun apart => ties.2 ⟨apart.1, apart.2.symm⟩⟩

end SortOrder

namespace IndexQuery

variable {query : IndexQuery Float} {a b c : StoredDocument Float}

theorem puts_iff {field : String} {order : SortOrder} (sort : query.sort = some (field, order))
    (a b : Document Float) :
    query.Puts a b ↔ order.PutsKey (a.sortKey? field) (b.sortKey? field) := by
  refine ⟨fun ⟨_, _, sort', puts⟩ => ?_, fun puts => ⟨field, order, sort, puts⟩⟩
  cases sort.symm.trans sort'
  exact puts

/-- Documents clash exactly if the last one comes before the first one and the one inserted between
    them ties with both. -/
theorem clash_iff (storable : b.document.isStorable = true) : query.Clash a b c ↔
    (a.place < b.place ∧ b.place < c.place) ∧ query.Puts c.document a.document ∧
      (¬ query.Puts a.document b.document ∧ ¬ query.Puts b.document a.document) ∧
      ¬ query.Puts b.document c.document ∧ ¬ query.Puts c.document b.document := by
  constructor
  · rintro ⟨places, field, order, u, v, w, sort, keyA, keyB, keyC, puts, blurs⟩
    have storableV := Document.isStorable_of_sortKey? storable v keyB
    simp only [puts_iff sort, keyA, keyB, keyC, SortOrder.putsKey_some_iff]
    exact ⟨places, puts, (SortOrder.blurs_iff_of_puts puts storableV).1 blurs⟩
  · rintro ⟨places, ⟨field, order, sort, puts⟩, ties⟩
    refine ⟨places, field, order, ?_⟩
    simp only [puts_iff sort] at ties
    cases keyC : c.document.sortKey? field with
    | none =>
        rw [keyC] at puts
        cases puts
    | some w =>
        cases keyB : b.document.sortKey? field with
        | none =>
            -- a missing value comes after the last one
            rw [keyB, keyC] at ties
            exact absurd .missing ties.2.2
        | some v =>
            have storableV := Document.isStorable_of_sortKey? storable v keyB
            rw [keyB, keyC] at ties
            rw [keyC] at puts
            cases keyA : a.document.sortKey? field with
            | none =>
                rw [keyA] at ties
                exact absurd .missing ties.1.2
            | some u =>
                rw [keyA] at puts ties
                simp only [SortOrder.putsKey_some_iff] at puts ties
                exact ⟨u, v, w, sort, rfl, rfl, rfl, puts,
                  (SortOrder.blurs_iff_of_puts puts storableV).2 ties⟩

/-- If a sort puts the first document first and the other two steps of a circle are by place, the
    three clash. -/
theorem clash_of_circle (storable : c.document.isStorable = true)
    (puts : query.Puts a.document b.document)
    (bc : ¬ query.Puts c.document b.document ∧ b.place < c.place)
    (ca : ¬ query.Puts a.document c.document ∧ c.place < a.place) : query.Clash b c a :=
  (clash_iff storable).2 ⟨⟨bc.2, ca.2⟩, puts,
    ⟨fun puts' => ca.1 (puts.trans puts'), bc.1⟩, fun puts' => bc.1 (puts'.trans puts), ca.1⟩

/-- **Circles.** Documents that precede each other in a circle clash. -/
theorem clash_of_precedes (storableA : a.document.isStorable = true)
    (storableB : b.document.isStorable = true) (storableC : c.document.isStorable = true)
    (ab : query.Precedes a b) (bc : query.Precedes b c) (ca : query.Precedes c a) :
    query.Clash a b c ∨ query.Clash b c a ∨ query.Clash c a b := by
  obtain putsAB | ab := ab <;> obtain putsBC | bc := bc <;> obtain putsCA | ca := ca
  · exact absurd ((putsAB.trans putsBC).trans putsCA) (Puts.irrefl _)
  · exact absurd (putsAB.trans putsBC) ca.1
  · exact absurd (putsCA.trans putsAB) bc.1
  · exact .inr (.inl (clash_of_circle storableC putsAB bc ca))
  · exact absurd (putsBC.trans putsCA) ab.1
  · exact .inr (.inr (clash_of_circle storableA putsBC ca ab))
  · exact .inl (clash_of_circle storableB putsCA ab bc)
  · exact absurd (ab.2.trans (bc.2.trans ca.2)) (Nat.lt_irrefl _)

end IndexQuery

/-! ## 3. What a query finds -/

/-- The document has what a filter asks for: its identifier, or an equal value in a field. -/
inductive Document.Has (document : Document Float) : String × FieldValue Float → Prop where
  | id : Has document (idField, .text document.id)
  | field {name : String} {value expected : FieldValue Float} (other : name ≠ idField)
      (held : document.get? name = some value) (equal : value.Is expected) :
      Has document (name, expected)

namespace IndexQuery

def Matches (query : IndexQuery Float) (document : Document Float) : Prop :=
  ∀ filter ∈ query.filters, document.Has filter

theorem passes_iff {document : Document Float} (storable : document.isStorable = true)
    (filter : String × FieldValue Float) :
    passes document filter = true ↔ document.Has filter := by
  obtain ⟨name, expected⟩ := filter
  unfold passes
  by_cases own : name = idField
  · rw [if_pos own, beq_iff_eq]
    constructor
    · intro text
      cases expected <;> cases text
      exact own ▸ .id
    · intro has
      cases has with
      | id => rfl
      | field other => exact absurd own other
  · rw [if_neg own]
    constructor
    · intro passed
      cases held : document.get? name with
      | none =>
          rw [held] at passed
          exact absurd passed Bool.false_ne_true
      | some value =>
          rw [held] at passed
          have storable : value.isStorable = true := List.all_eq_true.1 storable _
            (mem_of_lookup held)
          exact .field own held ((FieldValue.same_iff_is storable).1 passed)
    · intro has
      cases has with
      | id => exact absurd rfl own
      | field _ held equal =>
          have storable := List.all_eq_true.1 storable _ (mem_of_lookup held)
          dsimp only
          rw [held]
          exact (FieldValue.same_iff_is storable).2 equal

theorem accepts_iff {query : IndexQuery Float} {document : Document Float}
    (storable : document.isStorable = true) :
    query.accepts document = true ↔ query.Matches document := by
  rw [accepts, List.all_eq_true]
  exact forall₂_congr fun filter _ => passes_iff storable filter

end IndexQuery

namespace Core

/-- The core has come about by its operations: writes that wait, buffers that are emptied, and
    batches that are carried out, by whomever. -/
inductive IsReached {ν : Type} : Core ν → Prop where
  | empty : IsReached {}
  | push {core : Core ν} (reached : IsReached core) (write : CoreWrite ν) :
      IsReached (core.push write)
  | drain {core : Core ν} (reached : IsReached core) : IsReached core.drain.2
  | apply {core : Core ν} (reached : IsReached core) (batch : List (CoreWrite ν)) :
      IsReached (core.apply batch)

theorem IsReached.isInOrder {ν : Type} {core : Core ν} (reached : core.IsReached) :
    core.IsInOrder := by
  induction reached with
  | empty => exact .empty
  | push _ write order => exact order.push write
  | drain _ order => exact ⟨order.ascending, order.below⟩
  | apply _ batch order => exact order.apply batch

variable {core : Core Float} {query : IndexQuery Float} {a b c : StoredDocument Float}

def Finds (core : Core Float) (query : IndexQuery Float) (stored : StoredDocument Float) : Prop :=
  stored ∈ core.committed ∧ query.Matches stored.document

/-- The list has all documents that a query finds, once and in order. -/
structure IsArrangement (core : Core Float) (query : IndexQuery Float)
    (list : List (StoredDocument Float)) : Prop where
  nodup : list.Nodup
  mem : ∀ stored, stored ∈ list ↔ core.Finds query stored
  ordered : list.Pairwise query.Precedes

def HasClash (core : Core Float) (query : IndexQuery Float) : Prop :=
  ∃ first middle last, core.Finds query first ∧ core.Finds query middle ∧
    core.Finds query last ∧ query.Clash first middle last

/-! ## 4. Arrangements -/

theorem isStorable_of_mem (readable : core.isReadable = true) (mem : a ∈ core.committed) :
    a.document.isStorable = true :=
  List.all_eq_true.1 readable a mem

theorem place_ne_of_ne (order : core.IsInOrder) (memA : a ∈ core.committed)
    (memB : b ∈ core.committed) (differs : a ≠ b) : a.place ≠ b.place := by
  have places : (core.committed.map (·.place)).Nodup :=
    List.pairwise_map.2 (order.ascending.imp Nat.ne_of_lt)
  exact fun same => differs (List.inj_on_of_nodup_map places memA memB same)

theorem inOrder_iff_puts (storableA : a.document.isStorable = true)
    (storableB : b.document.isStorable = true) : inOrder query a b = true ↔
      query.Puts a.document b.document ∨
        ¬ query.Puts b.document a.document ∧ a.place ≤ b.place := by
  have less : query.compareDocuments a.document b.document = .lt ↔ _ :=
    IndexQuery.compareDocuments_eq_lt_iff storableA storableB
  have greater : query.compareDocuments b.document a.document = .lt ↔ _ :=
    IndexQuery.compareDocuments_eq_lt_iff storableB storableA
  rw [← IndexQuery.compareDocuments_swap] at greater
  rw [← less, ← greater]
  unfold inOrder
  cases query.compareDocuments a.document b.document <;> simp

/-- The comparison of a search puts the committed documents in the order in which they precede each
    other. -/
theorem inOrder_iff (order : core.IsInOrder) (readable : core.isReadable = true)
    (memA : a ∈ core.committed) (memB : b ∈ core.committed) :
    inOrder query a b = true ↔ a = b ∨ query.Precedes a b := by
  rw [inOrder_iff_puts (isStorable_of_mem readable memA) (isStorable_of_mem readable memB)]
  by_cases same : a = b
  · subst same
    exact iff_of_true (.inr ⟨IndexQuery.Puts.irrefl _, Nat.le_refl _⟩) (.inl rfl)
  · have places := place_ne_of_ne order memA memB same
    have strict : a.place ≤ b.place ↔ a.place < b.place :=
      ⟨fun le => Nat.lt_of_le_of_ne le places, Nat.le_of_lt⟩
    rw [or_iff_right same, strict]
    rfl

theorem precedes_trans (order : core.IsInOrder) (readable : core.isReadable = true)
    (fits : ¬ core.HasClash query) (foundA : core.Finds query a) (foundB : core.Finds query b)
    (foundC : core.Finds query c) (ab : query.Precedes a b) (bc : query.Precedes b c) :
    query.Precedes a c := by
  have differs : a ≠ c := by
    rintro rfl
    exact ab.asymm bc
  refine (IndexQuery.precedes_or_precedes
    (place_ne_of_ne order foundA.1 foundC.1 differs)).resolve_right fun ca => fits ?_
  obtain clash | clash | clash := IndexQuery.clash_of_precedes
    (isStorable_of_mem readable foundA.1) (isStorable_of_mem readable foundB.1)
    (isStorable_of_mem readable foundC.1) ab bc ca
  · exact ⟨a, b, c, foundA, foundB, foundC, clash⟩
  · exact ⟨b, c, a, foundB, foundC, foundA, clash⟩
  · exact ⟨c, a, b, foundC, foundA, foundB, clash⟩

/-- Documents that clash precede each other in a circle. -/
theorem circle_of_clash (storable : b.document.isStorable = true) (clash : query.Clash a b c) :
    query.Precedes a b ∧ query.Precedes b c ∧ query.Precedes c a := by
  obtain ⟨⟨ab, bc⟩, puts, tieAB, tieBC⟩ := (IndexQuery.clash_iff storable).1 clash
  exact ⟨.inr ⟨tieAB.2, ab⟩, .inr ⟨tieBC.2, bc⟩, .inl puts⟩

end Core

/-- In a list that is in order, what comes before something comes before what that comes before. -/
theorem trans_of_pairwise {α : Type} {r : α → α → Prop} (asymm : ∀ a b, r a b → ¬ r b a)
    {list : List α} (ordered : list.Pairwise r) {a b c : α} (memA : a ∈ list) (memB : b ∈ list)
    (memC : c ∈ list) (ab : r a b) (bc : r b c) : r a c := by
  obtain ⟨i, hi, rfl⟩ := List.getElem_of_mem memA
  obtain ⟨j, hj, rfl⟩ := List.getElem_of_mem memB
  obtain ⟨k, hk, rfl⟩ := List.getElem_of_mem memC
  have ordered := List.pairwise_iff_getElem.1 ordered
  have before {m n : Nat} (hm : m < list.length) (hn : n < list.length)
      (mn : r list[m] list[n]) : m < n := by
    obtain less | same | greater := Nat.lt_trichotomy m n
    · exact less
    · subst same
      exact absurd mn (asymm _ _ mn)
    · exact absurd (ordered n m hn hm greater) (asymm _ _ mn)
  exact ordered i k hi hk ((before hi hj ab).trans (before hj hk bc))

/-- Sorting needs an order on what is sorted only. -/
theorem pairwise_mergeSort_of_mem {α : Type} {le : α → α → Bool} {list : List α}
    (trans : ∀ a ∈ list, ∀ b ∈ list, ∀ c ∈ list, le a b = true → le b c = true → le a c = true)
    (total : ∀ a ∈ list, ∀ b ∈ list, (le a b || le b a) = true) :
    (list.mergeSort le).Pairwise fun a b => le a b = true := by
  let within (a b : { x // x ∈ list }) : Bool := le a.1 b.1
  have sorted : (list.attach.mergeSort within).Pairwise fun a b => le a.1 b.1 = true :=
    List.pairwise_mergeSort (fun a b c => trans a.1 a.2 b.1 b.2 c.1 c.2)
      (fun a b => total a.1 a.2 b.1 b.2) list.attach
  have same : (list.attach.mergeSort within).map Subtype.val = list.mergeSort le := by
    rw [List.map_mergeSort (s := le) (fun _ _ _ _ => rfl), List.attach_map_subtype_val]
  rw [← same]
  exact List.pairwise_map.2 sorted

namespace Core

variable {core : Core Float} {query : IndexQuery Float}

def arrangement (core : Core Float) (query : IndexQuery Float) : List (StoredDocument Float) :=
  (core.committed.filter fun stored => query.accepts stored.document).mergeSort (inOrder query)

theorem mem_arrangement_iff (readable : core.isReadable = true) (stored : StoredDocument Float) :
    stored ∈ core.arrangement query ↔ core.Finds query stored := by
  rw [arrangement, List.mem_mergeSort, List.mem_filter, Finds]
  exact and_congr_right fun mem =>
    IndexQuery.accepts_iff (isStorable_of_mem readable mem)

theorem pairwise_precedes_mergeSort (order : core.IsInOrder) (readable : core.isReadable = true)
    (fits : ¬ core.HasClash query) {found : List (StoredDocument Float)}
    (finds : ∀ stored ∈ found, core.Finds query stored) (distinct : found.Nodup) :
    (found.mergeSort (inOrder query)).Pairwise query.Precedes := by
  have le {a b : StoredDocument Float} (memA : a ∈ found) (memB : b ∈ found) :
      inOrder query a b = true ↔ a = b ∨ query.Precedes a b :=
    inOrder_iff order readable (finds a memA).1 (finds b memB).1
  have sorted : (found.mergeSort (inOrder query)).Pairwise fun a b => inOrder query a b = true := by
    refine pairwise_mergeSort_of_mem ?_ ?_
    · intro a memA b memB c memC
      rw [le memA memB, le memB memC, le memA memC]
      rintro (rfl | ab) (rfl | bc)
      · exact .inl rfl
      · exact .inr bc
      · exact .inr ab
      · exact .inr (precedes_trans order readable fits (finds a memA) (finds b memB)
          (finds c memC) ab bc)
    · intro a memA b memB
      rw [Bool.or_eq_true, le memA memB, le memB memA]
      by_cases same : a = b
      · exact .inl (.inl same)
      · have places := place_ne_of_ne order (finds a memA).1 (finds b memB).1 same
        exact (IndexQuery.precedes_or_precedes places).imp .inr .inr
  have nodup : (found.mergeSort (inOrder query)).Nodup :=
    (List.mergeSort_perm _ _).nodup_iff.2 distinct
  refine (nodup.and sorted).imp_of_mem fun memA memB before => ?_
  exact ((le (List.mem_mergeSort.1 memA) (List.mem_mergeSort.1 memB)).1
    before.2).resolve_left before.1

theorem finds_of_perm {listing : List (StoredDocument Float)} (perm : listing.Perm core.committed)
    (stored : StoredDocument Float) :
    ({ core with committed := listing } : Core Float).Finds query stored ↔
      core.Finds query stored :=
  and_congr_left fun _ => perm.mem_iff

theorem isReadable_of_perm (readable : core.isReadable = true)
    {listing : List (StoredDocument Float)} (perm : listing.Perm core.committed) :
    ({ core with committed := listing } : Core Float).isReadable = true := by
  rw [isReadable, perm.all_eq]
  exact readable

/-- **Arrangements.** If nothing clashes, a search arranges what it finds, in whatever way the core
    lists its documents. -/
theorem isArrangement_of_perm (order : core.IsInOrder) (readable : core.isReadable = true)
    (fits : ¬ core.HasClash query) {listing : List (StoredDocument Float)}
    (perm : listing.Perm core.committed) :
    core.IsArrangement query ({ core with committed := listing }.arrangement query) := by
  have distinct : core.committed.Nodup :=
    order.ascending.imp fun less same => Nat.ne_of_lt less (congrArg _ same)
  have mem (stored : StoredDocument Float) :
      stored ∈ ({ core with committed := listing } : Core Float).arrangement query ↔
        core.Finds query stored :=
    (mem_arrangement_iff (isReadable_of_perm readable perm) stored).trans
      (finds_of_perm perm stored)
  have nodup := (perm.nodup_iff.2 distinct).filter fun stored => query.accepts stored.document
  refine ⟨(List.mergeSort_perm _ _).nodup_iff.2 nodup, mem, ?_⟩
  exact pairwise_precedes_mergeSort order readable fits
    (fun stored among => (mem stored).1 (List.mem_mergeSort.2 among)) nodup

theorem IsArrangement.unique {list other : List (StoredDocument Float)}
    (first : core.IsArrangement query list) (second : core.IsArrangement query other) :
    list = other := by
  have perm : list.Perm other :=
    (List.perm_ext_iff_of_nodup first.nodup second.nodup).2 fun stored =>
      (first.mem stored).trans (second.mem stored).symm
  exact perm.eq_of_pairwise (fun a b _ _ ab ba => absurd ba ab.asymm) first.ordered second.ordered

/-- Documents that clash cannot be arranged. -/
theorem IsArrangement.not_hasClash (readable : core.isReadable = true)
    {list : List (StoredDocument Float)} (arranged : core.IsArrangement query list) :
    ¬ core.HasClash query := by
  rintro ⟨a, b, c, foundA, foundB, foundC, clash⟩
  obtain ⟨ab, bc, ca⟩ := circle_of_clash (isStorable_of_mem readable foundB.1) clash
  have ac := trans_of_pairwise (fun _ _ => IndexQuery.Precedes.asymm) arranged.ordered
    ((arranged.mem a).2 foundA) ((arranged.mem b).2 foundB) ((arranged.mem c).2 foundC) ab bc
  exact ac.asymm ca

/-! ## 5. Answers -/

/-- The answer of a query does not depend on how the core lists its documents, if none clash. -/
theorem query_of_perm (order : core.IsInOrder) (readable : core.isReadable = true)
    (fits : ¬ core.HasClash query) {list listing : List (StoredDocument Float)}
    (arranged : core.IsArrangement query list) (perm : listing.Perm core.committed) :
    ({ core with committed := listing } : Core Float).query query =
      .ok { documents := query.page (list.map (·.document)), found := list.length } := by
  have same := (isArrangement_of_perm order readable fits perm).unique arranged
  rw [query_of_isReadable (isReadable_of_perm readable perm)]
  have search : ({ core with committed := listing } : Core Float).search query =
      list.map (·.document) := by
    rw [← same]
    rfl
  rw [search, List.length_map]

/-- **Orders.** A sort puts any two of the documents found in one order.  It puts any three in a
    consistent order, and all of them in a list, exactly if none of them clash; then the answer of
    the query does not depend on how the core lists its documents. -/
theorem is_arranged_unless_values_clash (reached : core.IsReached)
    (readable : core.isReadable = true) (query : IndexQuery Float) :
    (∀ a b, core.Finds query a → core.Finds query b → a ≠ b →
      (inOrder query a b = true ↔ ¬ inOrder query b a = true)) ∧
    ((∀ a b c, core.Finds query a → core.Finds query b → core.Finds query c →
      inOrder query a b = true → inOrder query b c = true → inOrder query a c = true) ↔
        ¬ core.HasClash query) ∧
    ((∃ list, core.IsArrangement query list) ↔ ¬ core.HasClash query) ∧
    (¬ core.HasClash query → ∀ listing, listing.Perm core.committed →
      ({ core with committed := listing } : Core Float).query query = core.query query) := by
  have order := reached.isInOrder
  have le {a b : StoredDocument Float} (foundA : core.Finds query a)
      (foundB : core.Finds query b) : inOrder query a b = true ↔ a = b ∨ query.Precedes a b :=
    inOrder_iff order readable foundA.1 foundB.1
  refine ⟨fun a b foundA foundB differs => ?_, ⟨fun trans clash => ?_, fun fits => ?_⟩,
    ⟨fun ⟨_, arranged⟩ => arranged.not_hasClash readable, fun fits =>
      ⟨_, isArrangement_of_perm order readable fits (.refl _)⟩⟩, fun fits listing perm => ?_⟩
  · rw [le foundA foundB, le foundB foundA, or_iff_right differs, or_iff_right differs.symm]
    exact ⟨IndexQuery.Precedes.asymm, (IndexQuery.precedes_or_precedes
      (place_ne_of_ne order foundA.1 foundB.1 differs)).resolve_right⟩
  · obtain ⟨a, b, c, foundA, foundB, foundC, clash⟩ := clash
    -- three documents that clash precede each other in a circle
    obtain ⟨ab, bc, ca⟩ := circle_of_clash (isStorable_of_mem readable foundB.1) clash
    have ac := trans a b c foundA foundB foundC ((le foundA foundB).2 (.inr ab))
      ((le foundB foundC).2 (.inr bc))
    obtain rfl | ac := (le foundA foundC).1 ac
    · exact ca.asymm ca
    · exact ac.asymm ca
  · intro a b c foundA foundB foundC ab bc
    rw [le foundA foundB] at ab
    rw [le foundB foundC] at bc
    rw [le foundA foundC]
    obtain rfl | ab := ab
    · exact bc
    obtain rfl | bc := bc
    · exact .inr ab
    · exact .inr (precedes_trans order readable fits foundA foundB foundC ab bc)
  · have arranged := isArrangement_of_perm order readable fits (.refl _)
    rw [query_of_perm order readable fits arranged perm]
    exact (query_of_perm order readable fits arranged (.refl _)).symm

def inPlace (place : Nat) (value : Option (FieldValue Float)) : StoredDocument Float where
  place
  document := { id := toString place, fields := value.toList.map (("x", ·)) }

def ofValues (values : List (Option (FieldValue Float))) : Core Float :=
  ({} : Core Float).apply
    (values.mapIdx fun i value => .add (inPlace (i + 1) value).document)

/-- Five comes before a word and the word before three, as they were added in this order, but five
    does not come before three. -/
theorem not_in_order_among_kinds : ¬ ∀ (query : IndexQuery Float) (a b c : StoredDocument Float),
    a.document.isStorable = true → b.document.isStorable = true → c.document.isStorable = true →
    a.place ≠ b.place → b.place ≠ c.place → a.place ≠ c.place →
    inOrder query a b = true → inOrder query b c = true → inOrder query a c = true := by
  intro consistent
  have before := consistent { sort := some ("x", .ascending) } (inPlace 1 (some (.integer 5)))
    (inPlace 2 (some (.text "word"))) (inPlace 3 (some (.integer 3))) rfl rfl rfl (by decide)
    (by decide) (by decide) (by decide) (by decide)
  exact absurd before (by decide)

-- Numbers alone may do the same: two integers beyond `2 ^ 53` may have the same nearest double.
example :
    let query : IndexQuery Float := { sort := some ("x", .ascending) }
    let larger := inPlace 1 (some (.integer 9007199254740993))
    let double := inPlace 2 (some (.double (Scalar.ofInt64 9007199254740992)))
    let smaller := inPlace 3 (some (.integer 9007199254740992))
    inOrder query larger double = true ∧ inOrder query double smaller = true ∧
      inOrder query larger smaller = false := by
  decide +kernel

/-- A word among integers leaves them without an arrangement. -/
theorem no_arrangement_of_word_among_integers :
    let core := ofValues [some (.integer 5), some (.text "word"), some (.integer 3)]
    core.IsReached ∧ core.isReadable = true ∧
      ¬ ∃ list, core.IsArrangement { sort := some ("x", .ascending) } list := by
  have reached : (ofValues [some (.integer 5), some (.text "word"), some (.integer 3)]).IsReached :=
    .apply .empty _
  refine ⟨reached, rfl, fun arranged => ?_⟩
  refine (is_arranged_unless_values_clash reached rfl _).2.2.1.1 arranged
    ⟨inPlace 1 (some (.integer 5)), inPlace 2 (some (.text "word")), inPlace 3 (some (.integer 3)),
      ⟨.head _, nofun⟩, ⟨.tail _ (.head _), nofun⟩, ⟨.tail _ (.tail _ (.head _)), nofun⟩, ?_⟩
  exact ⟨by decide, "x", .ascending, _, _, _, rfl, rfl, rfl, rfl, .integer (by decide),
    .foreign rfl rfl⟩

end Core

end RankLedger
