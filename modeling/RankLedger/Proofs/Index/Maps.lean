import Mathlib.Data.List.DropRight
import RankLedger.Proofs.Index.Sorting
import RankLedger.Proofs.Index.Writes

/-!
# Cores are ordered maps

What a core shows is told by the writes that were carried out on it.  They leave a map: under each
identifier stands the document added last, unless it was deleted since (`CoreWrite.fold`).  The
documents of the map stand in the order in which their identifiers came in: an identifier comes in
with the first write that adds it after its last deletion (`CoreWrite.arrival?`), and later
additions do not move it.  A query depends on these documents and their order only
(`Core.search_eq`).
-/

namespace RankLedger

variable {ν : Type}

/-! ## 1. What writes leave -/

namespace CoreWrite

def fold (writes : List (CoreWrite ν)) : String → Option (Document ν) :=
  writes.foldl (fun map write => Function.update map write.id write.leaves) fun _ => none

def adds (id : String) : CoreWrite ν → Bool
  | .add document => document.id == id
  | .delete _ => false

def deletes (id : String) : CoreWrite ν → Bool
  | .add _ => false
  | .delete gone => gone == id

def arrival? (writes : List (CoreWrite ν)) (id : String) : Option Nat :=
  ((writes.zipIdx.rtakeWhile fun entry => !entry.1.deletes id).find? fun entry =>
    entry.1.adds id).map (·.2)

/-- The documents are those that the writes leave, in the order in which their identifiers came
    in. -/
structure Leave (writes : List (CoreWrite ν)) (documents : List (Document ν)) : Prop where
  held : ∀ document, document ∈ documents ↔ fold writes document.id = some document
  distinct : (documents.map (·.id)).Nodup
  ordered : (documents.map (·.id)).Pairwise fun a b => ∃ m n,
    arrival? writes a = some m ∧ arrival? writes b = some n ∧ m < n

variable {writes : List (CoreWrite ν)} {write : CoreWrite ν} {id : String}

theorem fold_concat : fold (writes ++ [write]) = Function.update (fold writes) write.id
    write.leaves := by
  rw [fold, List.foldl_append, List.foldl_cons, List.foldl_nil, fold]

/-- One more write changes the arrival of its own identifier only, and only if it deletes it or is
    the first one to add it. -/
theorem arrival?_concat : arrival? (writes ++ [write]) id =
    if write.deletes id then none
    else (arrival? writes id).or (if write.adds id then some writes.length else none) := by
  unfold arrival?
  rw [List.zipIdx_append, List.zipIdx_singleton, Nat.zero_add]
  by_cases gone : write.deletes id = true
  · rw [List.rtakeWhile_concat_neg _ _ _ (by simp [gone]), if_pos gone]
    rfl
  · rw [List.rtakeWhile_concat_pos _ _ _ (by simpa using gone), if_neg gone, List.find?_append]
    cases List.find? _ (List.rtakeWhile _ writes.zipIdx) with
    | some entry => rfl
    | none =>
        cases adds : write.adds id <;> simp [adds]

theorem arrival?_concat_of_ne (other : write.id ≠ id) :
    arrival? (writes ++ [write]) id = arrival? writes id := by
  rw [arrival?_concat]
  cases write with
  | add document =>
      have : document.id ≠ id := other
      simp [deletes, adds, this]
  | delete gone =>
      have : gone ≠ id := other
      simp [deletes, adds, this]

/-- An identifier came in with one of the writes, and did so exactly if something stands under
    it. -/
theorem lt_of_arrival? {n : Nat} (h : arrival? writes id = some n) : n < writes.length := by
  obtain ⟨⟨write, place⟩, found, rfl⟩ := Option.map_eq_some_iff.1 h
  have mem := (List.rtakeWhile_suffix _ _).subset (List.mem_of_find?_eq_some found)
  simpa using List.snd_lt_of_mem_zipIdx mem

theorem isSome_arrival? : (arrival? writes id).isSome = (fold writes id).isSome := by
  induction writes using List.reverseRecOn with
  | nil => rfl
  | append_singleton writes write ih =>
      by_cases same : write.id = id
      · subst same
        rw [arrival?_concat, fold_concat, Function.update_self]
        cases write with
        | add document => simp [deletes, adds, CoreWrite.id, leaves]
        | delete gone => simp [deletes, CoreWrite.id, leaves]
      · rw [arrival?_concat_of_ne same, fold_concat, Function.update_of_ne (Ne.symm same), ih]

/-- Adding what is there already moves nothing. -/
theorem arrival?_add_of_fold {document : Document ν} (there : (fold writes document.id).isSome) :
    arrival? (writes ++ [.add document]) id = arrival? writes id := by
  by_cases same : document.id = id
  · subst same
    rw [← isSome_arrival?, Option.isSome_iff_exists] at there
    obtain ⟨n, came⟩ := there
    rw [arrival?_concat, came]
    rfl
  · exact arrival?_concat_of_ne same

/-- What stands under an identifier has it. -/
theorem id_of_fold {document : Document ν} (h : fold writes id = some document) :
    document.id = id := by
  induction writes using List.reverseRecOn with
  | nil => cases h
  | append_singleton writes write ih =>
      rw [fold_concat] at h
      by_cases same : id = write.id
      · subst same
        rw [Function.update_self] at h
        exact (write.id_of_leaves h).symm
      · rw [Function.update_of_ne same] at h
        exact ih h

namespace Leave

variable {documents : List (Document ν)}

theorem isSome_fold (leave : Leave writes documents) :
    (fold writes id).isSome ↔ id ∈ documents.map (·.id) := by
  rw [Option.isSome_iff_exists, List.mem_map]
  constructor
  · rintro ⟨document, held⟩
    have same := id_of_fold held
    subst same
    exact ⟨document, (leave.held document).2 held, rfl⟩
  · rintro ⟨document, mem, rfl⟩
    exact ⟨document, (leave.held document).1 mem⟩

theorem nil : Leave ([] : List (CoreWrite ν)) [] :=
  ⟨fun _ => by simp [fold], .nil, .nil⟩

/-- A document that is added takes the place of its predecessor, or comes in last. -/
theorem add (leave : Leave writes documents) (new : Document ν) :
    Leave (writes ++ [.add new]) (Shelf.put (·.id) new documents) := by
  refine ⟨fun document => ?_, Shelf.nodup_put leave.distinct, ?_⟩
  · rw [fold_concat]
    show document ∈ Shelf.put (·.id) new documents ↔
      Function.update (fold writes) new.id (some new) document.id = some document
    rw [Shelf.mem_put]
    by_cases same : document.id = new.id
    · rw [same, Function.update_self, Option.some_inj, eq_comm]
      simp
    · rw [Function.update_of_ne same, ← leave.held]
      constructor
      · rintro (rfl | ⟨mem, -⟩)
        · exact absurd rfl same
        · exact mem
      · exact fun mem => .inr ⟨mem, same⟩
  · show ((Shelf.put (·.id) new documents).map (·.id)).Pairwise _
    by_cases mem : new.id ∈ documents.map (·.id)
    · -- the new document takes a place that its identifier has already
      simp only [Shelf.keys_put_of_mem mem, arrival?_add_of_fold (leave.isSome_fold.2 mem)]
      exact leave.ordered
    · -- the new identifier comes in last
      have absent : arrival? writes new.id = none := by
        rw [← Option.not_isSome_iff_eq_none, isSome_arrival?, leave.isSome_fold]
        exact mem
      have last : arrival? (writes ++ [.add new]) new.id = some writes.length := by
        rw [arrival?_concat, absent]
        simp [deletes, adds]
      have kept {id : String} (old : id ∈ documents.map (·.id)) :
          arrival? (writes ++ [.add new]) id = arrival? writes id :=
        arrival?_concat_of_ne fun (same : new.id = id) => mem (same ▸ old)
      rw [Shelf.put_of_notMem mem, List.map_append, List.map_singleton, List.pairwise_append]
      refine ⟨leave.ordered.imp_of_mem fun first second before => ?_,
        List.pairwise_singleton _ _, fun id old other only => ?_⟩
      · rwa [kept first, kept second]
      · rw [List.mem_singleton.1 only, kept old, last]
        obtain ⟨n, came⟩ := Option.isSome_iff_exists.1
          (isSome_arrival?.trans (leave.isSome_fold.2 old))
        exact ⟨n, writes.length, came, rfl, lt_of_arrival? came⟩

/-- The documents that are not deleted keep their places. -/
theorem delete (leave : Leave writes documents) (gone : String) :
    Leave (writes ++ [.delete gone]) (Shelf.erase (·.id) gone documents) := by
  have kept : (Shelf.erase (·.id) gone documents).map (·.id) =
      (documents.map (·.id)).filter (· != gone) := by
    rw [List.filter_map]
    rfl
  refine ⟨fun document => ?_, Shelf.nodup_erase leave.distinct, ?_⟩
  · rw [fold_concat]
    show document ∈ Shelf.erase (·.id) gone documents ↔
      Function.update (fold writes) gone none document.id = some document
    rw [Shelf.mem_erase, leave.held]
    by_cases same : document.id = gone
    · rw [same, Function.update_self]
      simp
    · rw [Function.update_of_ne same]
      exact and_iff_left same
  · show ((Shelf.erase (·.id) gone documents).map (·.id)).Pairwise _
    rw [kept]
    refine (leave.ordered.filter _).imp_of_mem fun {a b} first second before => ?_
    have other {id : String} (mem : id ∈ (documents.map (·.id)).filter (· != gone)) :
        (CoreWrite.delete gone : CoreWrite ν).id ≠ id :=
      (bne_iff_ne.1 (List.mem_filter.1 mem).2).symm
    rwa [arrival?_concat_of_ne (other first), arrival?_concat_of_ne (other second)]

/-- Carrying one more write out keeps the documents and the writes in step. -/
theorem concat (leave : Leave writes documents) (write : CoreWrite ν) :
    Leave (writes ++ [write]) (write.on documents) := by
  cases write with
  | add new => exact leave.add new
  | delete gone => exact leave.delete gone

/-- The writes say all there is to say about the documents. -/
theorem unique {other : List (Document ν)} (leave : Leave writes documents)
    (leave' : Leave writes other) : documents = other := by
  have perm : documents.Perm other := by
    rw [List.perm_ext_iff_of_nodup leave.distinct.of_map leave'.distinct.of_map]
    exact fun document => (leave.held document).trans (leave'.held document).symm
  refine perm.eq_of_pairwise ?_ (List.pairwise_map.1 leave.ordered)
    (List.pairwise_map.1 leave'.ordered)
  -- no two identifiers can come in before each other
  rintro a b - - ⟨m, n, first, second, less⟩ ⟨n', m', second', first', more⟩
  cases first.symm.trans first'
  cases second.symm.trans second'
  exact absurd less more.asymm

end Leave

/-- **Cores are ordered maps.** What is committed to a core that these writes were carried out on is
    what they leave. -/
theorem leave_apply (writes : List (CoreWrite ν)) :
    Leave writes (({} : Core ν).apply writes).documents := by
  induction writes using List.reverseRecOn with
  | nil => exact .nil
  | append_singleton writes write ih =>
      rw [Core.apply, List.foldl_append, List.foldl_cons, List.foldl_nil, Core.documents_carryOut]
      exact ih.concat write

end CoreWrite

/-! ## 2. Queries -/

section Queries

variable [Scalar ν]

def IndexQuery.results (query : IndexQuery ν) (documents : List (Document ν)) :
    List (Document ν) :=
  (((documents.mapIdx Prod.mk).filter fun entry => query.accepts entry.2).mergeSort
    (byPlace query.compareDocuments)).map (·.2)

omit [Scalar ν] in
/-- Without their positions, the entries of a list are the list. -/
theorem map_snd_mapIdx {α : Type} (list : List α) : (list.mapIdx Prod.mk).map (·.2) = list :=
  List.ext_getElem (by simp) fun _ _ _ => by simp

omit [Scalar ν] in
theorem mapIdx_map {α β : Type} (f : α → β) (list : List α) :
    (list.map f).mapIdx Prod.mk = (list.mapIdx Prod.mk).map (Prod.map id f) :=
  List.ext_getElem (by simp) fun _ _ _ => by simp

/-- **Ties.** Documents that a query does not tell apart stay in the order in which they stand. -/
theorem IndexQuery.results_of_eq {query : IndexQuery ν} {documents : List (Document ν)}
    (equal : ∀ a ∈ documents, ∀ b ∈ documents, query.compareDocuments a b = .eq) :
    query.results documents = documents.filter query.accepts := by
  have ascending : (documents.mapIdx Prod.mk).Pairwise fun a b =>
      byPlace query.compareDocuments a b = true := by
    rw [List.pairwise_iff_getElem]
    intro i j hi hj less
    rw [List.length_mapIdx] at hi hj
    rw [List.getElem_mapIdx, List.getElem_mapIdx, byPlace_iff]
    exact .inr ⟨equal _ (List.getElem_mem hi) _ (List.getElem_mem hj), less.le⟩
  rw [results, List.mergeSort_of_pairwise (ascending.filter _)]
  conv_rhs => rw [← map_snd_mapIdx documents, List.filter_map]
  rfl

/-- **Searches.** What a core finds is told by the documents that it holds, in insertion order. -/
theorem Core.search_eq {core : Core ν} (order : core.IsInOrder) (query : IndexQuery ν) :
    core.search query = query.results core.documents := by
  -- what is committed is sorted by place, and of two positions the lower one has the lower place
  let entries := (core.committed.mapIdx Prod.mk).filter fun entry => query.accepts entry.2.document
  let before (a b : Nat × StoredDocument ν) : Bool :=
    byPlace (fun a b => query.compareDocuments a.document b.document) a b
  have places {a b : Nat × StoredDocument ν} (first : a ∈ core.committed.mapIdx Prod.mk)
      (second : b ∈ core.committed.mapIdx Prod.mk) : a.1 ≤ b.1 ↔ a.2.place ≤ b.2.place := by
    obtain ⟨i, hi, rfl⟩ := List.mem_mapIdx.1 first
    obtain ⟨j, hj, rfl⟩ := List.mem_mapIdx.1 second
    have ascending := List.pairwise_iff_getElem.1 order.ascending
    show i ≤ j ↔ core.committed[i].place ≤ core.committed[j].place
    obtain less | rfl | more := Nat.lt_trichotomy i j
    · exact iff_of_true less.le (ascending i j hi hj less).le
    · exact iff_of_true le_rfl le_rfl
    · exact iff_of_false more.not_ge (ascending j i hj hi more).not_ge
  have stored : core.committed.filter (fun stored => query.accepts stored.document) =
      entries.map (·.2) := by
    conv_lhs => rw [← map_snd_mapIdx core.committed, List.filter_map]
    rfl
  have held : (core.documents.mapIdx Prod.mk).filter (fun entry => query.accepts entry.2) =
      entries.map (Prod.map id (·.document)) := by
    rw [Core.documents, mapIdx_map, List.filter_map]
    rfl
  rw [search, IndexQuery.results, stored, held, ← List.map_mergeSort (r := before),
    ← List.map_mergeSort (r := before), List.map_map, List.map_map]
  · rfl
  · exact fun a _ b _ => rfl
  · intro a first b second
    have same := places (List.mem_filter.1 first).1 (List.mem_filter.1 second).1
    show byPlace _ a b = inOrder query a.2 b.2
    unfold byPlace inOrder
    dsimp only
    cases query.compareDocuments a.2.document b.2.document with
    | lt => rfl
    | eq => exact decide_eq_decide.2 same
    | gt => rfl

end Queries

end RankLedger
