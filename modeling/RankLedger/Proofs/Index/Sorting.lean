import Mathlib.Data.List.Sort
import RankLedger.Proofs.Index.Shelf

/-!
# Searches are stable sorts

A core sorts what a search finds by the sort field and then by place.  As long as its documents
stand in the order of their places (`Core.IsInOrder`), which no write changes, documents that the
sort field does not tell apart keep the order that they have in the core.  So if the documents stand
for records, a search is the stable sort of the records that pass (`Core.search_sorted`).  What
stands before everything else is found first even where the others cannot be put in order
(`Core.head?_search`).
-/

namespace RankLedger

/-! ## 1. Lists in order -/

/-- Of two things in a list that is in order the smaller one comes first. -/
theorem sublist_pair_of_pairwise {α : Type} {r : α → α → Prop} (asymm : ∀ a b, r a b → ¬ r b a)
    {list : List α} (ascending : list.Pairwise r) {a b : α} (first : a ∈ list) (second : b ∈ list)
    (before : r a b) : [a, b].Sublist list := by
  have : Std.Antisymm r := ⟨fun a b ab ba => absurd ba (asymm a b ab)⟩
  have differs : a ≠ b := by
    rintro rfl
    exact asymm a a before before
  refine List.sublist_of_subperm_of_pairwise (List.subperm_of_subset ?_ ?_)
    (List.pairwise_pair.2 before) ascending
  · exact List.nodup_cons.2 ⟨mt List.mem_singleton.1 differs, List.nodup_singleton b⟩
  · exact List.cons_subset.2 ⟨first, List.cons_subset.2 ⟨second, List.nil_subset list⟩⟩

def byPlace {α : Type} (compare : α → α → Ordering) (a b : Nat × α) : Bool :=
  match compare a.2 b.2 with
  | .lt => true
  | .eq => decide (a.1 ≤ b.1)
  | .gt => false

section ByPlace

variable {α : Type} {compare : α → α → Ordering} {a b c : Nat × α}

theorem byPlace_iff : byPlace compare a b = true ↔
    compare a.2 b.2 = .lt ∨ compare a.2 b.2 = .eq ∧ a.1 ≤ b.1 := by
  unfold byPlace
  cases compare a.2 b.2 <;> simp

variable [Std.TransCmp compare]

theorem byPlace_trans (ab : byPlace compare a b = true) (bc : byPlace compare b c = true) :
    byPlace compare a c = true := by
  rw [byPlace_iff] at ab bc ⊢
  obtain ab | ⟨ab, le⟩ := ab
  · obtain bc | ⟨bc, -⟩ := bc
    · exact .inl (Std.TransCmp.lt_trans ab bc)
    · exact .inl (Std.TransCmp.lt_of_lt_of_eq ab bc)
  · obtain bc | ⟨bc, le'⟩ := bc
    · exact .inl (Std.TransCmp.lt_of_eq_of_lt ab bc)
    · exact .inr ⟨Std.TransCmp.eq_trans ab bc, le.trans le'⟩

theorem byPlace_total (a b : Nat × α) :
    (byPlace compare a b || byPlace compare b a) = true := by
  have swap : compare a.2 b.2 = (compare b.2 a.2).swap := Std.OrientedCmp.eq_swap
  rw [Bool.or_eq_true, byPlace_iff, byPlace_iff, swap]
  cases compare b.2 a.2 with
  | lt => simp
  | gt => simp
  | eq => simpa using Nat.le_total a.1 b.1

/-- Sorted in this way, things that compare equal keep the order in which they stood. -/
theorem pairwise_byPlace {entries part : List (Nat × α)}
    (ascending : entries.Pairwise fun a b => a.1 < b.1) (sub : part.Sublist entries) :
    (part.mergeSort (byPlace compare)).Pairwise fun a b =>
      compare a.2 b.2 = .lt ∨ compare a.2 b.2 = .eq ∧ [a, b].Sublist entries := by
  have perm := List.mergeSort_perm part (byPlace compare)
  have places : (entries.map Prod.fst).Nodup := List.pairwise_map.2 (ascending.imp Nat.ne_of_lt)
  have distinct : (part.mergeSort (byPlace compare)).Nodup :=
    perm.nodup_iff.2 ((List.Nodup.of_map _ places).sublist sub)
  have sorted : (part.mergeSort (byPlace compare)).Pairwise fun a b => byPlace compare a b = true :=
    List.pairwise_mergeSort (fun _ _ _ => byPlace_trans) byPlace_total part
  refine (distinct.and sorted).imp_of_mem fun {a b} first second before => ?_
  have first : a ∈ entries := sub.subset (perm.subset first)
  have second : b ∈ entries := sub.subset (perm.subset second)
  obtain ⟨differs, before⟩ := before
  obtain less | ⟨equal, le⟩ := byPlace_iff.1 before
  · exact .inl less
  · -- no two things stand in one place
    have apart : a.1 ≠ b.1 := fun same =>
      differs (List.inj_on_of_nodup_map places first second same)
    exact .inr ⟨equal, sublist_pair_of_pairwise (fun _ _ => Nat.lt_asymm) ascending first second
      (Nat.lt_of_le_of_ne le apart)⟩

end ByPlace

/-! ## 2. Places -/

namespace Core

variable {ν : Type} {core : Core ν}

/-- The committed documents stand in the order of their places, and the next place is free. -/
structure IsInOrder (core : Core ν) : Prop where
  ascending : core.committed.Pairwise fun a b => a.place < b.place
  below : ∀ stored ∈ core.committed, stored.place < core.nextPlace

namespace IsInOrder

theorem empty : ({} : Core ν).IsInOrder :=
  ⟨.nil, List.forall_mem_nil _⟩

theorem push (order : core.IsInOrder) (write : CoreWrite ν) : (core.push write).IsInOrder :=
  ⟨order.ascending, order.below⟩

/-- A renewed document stays in its place, a new one gets the next, and erasing moves nothing. -/
theorem carryOut (order : core.IsInOrder) (write : CoreWrite ν) :
    (core.carryOut write).IsInOrder := by
  have place (document : Document ν) (stored : StoredDocument ν) :
      (stored.renew document).place = stored.place := by
    unfold StoredDocument.renew
    split <;> rfl
  cases write with
  | add document =>
      show (core.put document).IsInOrder
      unfold put
      split
      -- the document is there and is renewed in its place
      · refine ⟨List.pairwise_map.2 ?_, fun stored mem => ?_⟩
        · simpa only [place] using order.ascending
        · obtain ⟨old, held, rfl⟩ := List.mem_map.1 mem
          rw [place]
          exact order.below old held
      · constructor
        -- the document is new, and the next place is behind all others
        · refine List.pairwise_append.2 ⟨order.ascending, List.pairwise_singleton _ _, ?_⟩
          intro old mem new last
          rw [List.mem_singleton.1 last]
          exact order.below old mem
        · intro stored mem
          obtain mem | mem := List.mem_append.1 mem
          · exact (order.below stored mem).trans (Nat.lt_succ_self _)
          · rw [List.mem_singleton.1 mem]
            exact Nat.lt_succ_self _
  | delete id =>
      exact ⟨order.ascending.filter _,
        fun stored mem => order.below stored (List.mem_filter.1 mem).1⟩

theorem apply (order : core.IsInOrder) (batch : List (CoreWrite ν)) :
    (core.apply batch).IsInOrder := by
  unfold Core.apply
  induction batch generalizing core with
  | nil => exact order
  | cons write rest ih => exact ih (order.carryOut write)

theorem commit (order : core.IsInOrder) : core.commit.IsInOrder := by
  have drained : core.drain.2.IsInOrder := ⟨order.ascending, order.below⟩
  exact drained.apply core.pending

end IsInOrder

/-! ## 3. Searches -/

variable [Scalar ν] {α : Type} {document : α → Document ν} {compare : α → α → Ordering}
  [Std.TransCmp compare] {records : List α} {query : IndexQuery ν}

omit [Scalar ν] [Std.TransCmp compare] in
/-- What is committed is, in the same order, what is stored of each record in its place. -/
theorem committed_eq_map {committed : List (StoredDocument ν)}
    (documents : committed.map (·.document) = records.map document) :
    committed = ((committed.map (·.place)).zip records).map fun entry =>
      ⟨entry.1, document entry.2⟩ := by
  induction committed generalizing records with
  | nil => rfl
  | cons stored rest ih =>
      cases records with
      | nil => cases documents
      | cons record records =>
          obtain ⟨same, documents⟩ := List.cons.inj documents
          rw [List.map_cons, List.zip_cons_cons, List.map_cons, ← ih documents, ← same]

/-- **Stable sorts.** If the documents of a core stand for records, and the query compares them
    like this, then a search gives the records that pass, sorted; of records that compare equal the
    one that stands first in the core comes first. -/
theorem search_sorted (order : core.IsInOrder) (documents : core.documents = records.map document)
    (agrees : ∀ a ∈ records, ∀ b ∈ records,
      query.compareDocuments (document a) (document b) = compare a b) :
    ∃ sorted : List α, core.search query = sorted.map document ∧
      sorted.Perm (records.filter fun record => query.accepts (document record)) ∧
      sorted.Pairwise fun a b =>
        compare a b = .lt ∨ compare a b = .eq ∧ [a, b].Sublist records := by
  -- each record with the place of its document
  let entries := (core.committed.map (·.place)).zip records
  let store (entry : Nat × α) : StoredDocument ν := ⟨entry.1, document entry.2⟩
  have length : core.committed.length = records.length := by
    rw [← List.length_map document, ← documents, Core.documents, List.length_map]
  have places : entries.map Prod.fst = core.committed.map (·.place) :=
    List.map_fst_zip (by rw [List.length_map, length])
  have record : entries.map Prod.snd = records :=
    List.map_snd_zip (by rw [List.length_map, length])
  have stored : core.committed = entries.map store := committed_eq_map documents
  have ascending : entries.Pairwise fun a b => a.1 < b.1 := by
    rw [← List.pairwise_map, places]
    exact List.pairwise_map.2 order.ascending
  -- sorting the documents is sorting the records
  let found := entries.filter fun entry => query.accepts (document entry.2)
  have held {entry : Nat × α} (mem : entry ∈ found) : entry.2 ∈ records := by
    rw [← record]
    exact List.mem_map_of_mem (List.mem_filter.1 mem).1
  have sorts : (core.committed.filter fun stored => query.accepts stored.document).mergeSort
      (inOrder query) = (found.mergeSort (byPlace compare)).map store := by
    rw [List.map_mergeSort (s := inOrder query), stored, List.filter_map]
    · rfl
    · intro a first b second
      have same := agrees a.2 (held first) b.2 (held second)
      cases ordering : compare a.2 b.2 <;> simp only [byPlace, inOrder, store, same, ordering]
  refine ⟨(found.mergeSort (byPlace compare)).map Prod.snd, ?_, ?_, ?_⟩
  · rw [search, sorts, List.map_map, List.map_map]
    rfl
  · refine ((List.mergeSort_perm _ _).map Prod.snd).trans ?_
    rw [← record, List.filter_map]
    rfl
  · rw [List.pairwise_map]
    refine (pairwise_byPlace ascending List.filter_sublist).imp fun {a b} before => ?_
    refine before.imp_right fun tie => ⟨tie.1, ?_⟩
    rw [← record]
    exact tie.2.map Prod.snd

end Core

/-! ## 4. What comes first -/

section First

variable {α : Type} {le : α → α → Bool} {first : α}

/-- Two lists that are merged begin with what stands before everything else, if each begins with it
    or lacks it. -/
theorem head?_merge {left right : List α} (mem : first ∈ left ++ right)
    (least : ∀ other ∈ left ++ right, other ≠ first →
      le first other = true ∧ le other first = false)
    (inLeft : first ∈ left → left.head? = some first)
    (inRight : first ∈ right → right.head? = some first) :
    (left.merge right le).head? = some first := by
  cases left with
  | nil =>
      rw [List.nil_merge]
      exact inRight mem
  | cons a left =>
      cases right with
      | nil =>
          rw [List.merge_right]
          rw [List.append_nil] at mem
          exact inLeft mem
      | cons b right =>
          have heads : a = first ∨ b = first := by
            obtain mem | mem := List.mem_append.1 mem
            · exact .inl (Option.some_inj.1 (inLeft mem))
            · exact .inr (Option.some_inj.1 (inRight mem))
          rw [List.cons_merge_cons]
          split
          · -- the left one comes first, so the right one is not what stands before it
            rename_i before
            refine congrArg some (Classical.byContradiction fun differs => ?_)
            have after := (least a (by simp) differs).2
            rw [← heads.resolve_left differs, before] at after
            cases after
          · rename_i after
            refine congrArg some (Classical.byContradiction fun differs => after ?_)
            rw [heads.resolve_right differs]
            exact (least b (by simp) differs).1

/-- **First things.** What stands before everything else comes first when a list is sorted, in
    whatever way the others compare. -/
theorem head?_mergeSort {list : List α} (mem : first ∈ list)
    (least : ∀ other ∈ list, other ≠ first → le first other = true ∧ le other first = false) :
    (list.mergeSort le).head? = some first := by
  induction list, le using List.mergeSort.induct with
  | case1 le => cases mem
  | case2 le a =>
      rw [List.mem_singleton.1 mem, List.mergeSort_singleton]
      rfl
  | case3 a b rest le halves _ _ ihLeft ihRight =>
      have parts : halves.1.1 ++ halves.2.1 = a :: b :: rest :=
        List.MergeSort.Internal.splitInTwo_fst_append_splitInTwo_snd ⟨a :: b :: rest, rfl⟩
      rw [List.mergeSort]
      rw [← parts] at mem least
      have inOne {half : List α} (sub : half ⊆ halves.1.1 ++ halves.2.1) :
          ∀ other ∈ half, other ≠ first → le first other = true ∧ le other first = false :=
        fun other among => least other (sub among)
      refine head?_merge ?_ (fun other among => least other ?_)
        (fun half => ihLeft (List.mem_mergeSort.1 half) (inOne (List.subset_append_left _ _)))
        (fun half => ihRight (List.mem_mergeSort.1 half) (inOne (List.subset_append_right _ _)))
      · simpa only [List.mem_append, List.mem_mergeSort] using mem
      · simpa only [List.mem_append, List.mem_mergeSort] using among

/-- What a sort by a key puts first stands before everything that was sorted. -/
theorem of_head?_mergeSort {κ : Type} [LinearOrder κ] {key : α → κ} {items : List α}
    (agrees : ∀ a ∈ items, ∀ b ∈ items, le a b = decide (key a ≤ key b))
    (head : (items.mergeSort le).head? = some first) :
    first ∈ items ∧ ∀ other ∈ items, le first other = true := by
  let byKey (a b : α) : Bool := decide (key a ≤ key b)
  have sorts : items.mergeSort le = items.mergeSort byKey := by
    have congr := List.map_mergeSort (r := le) (s := byKey) (f := id) agrees
    rwa [List.map_id, List.map_id] at congr
  have sorted : (items.mergeSort byKey).Pairwise fun a b => key a ≤ key b := by
    refine (List.pairwise_mergeSort (fun a b c => ?_) (fun a b => ?_) items).imp of_decide_eq_true
    · simpa only [byKey, decide_eq_true_eq] using le_trans
    · simpa only [byKey, Bool.or_eq_true, decide_eq_true_eq] using le_total (key a) (key b)
  have perm := List.mergeSort_perm items byKey
  obtain ⟨rest, list⟩ := List.head?_eq_some_iff.1 (sorts ▸ head)
  rw [list] at sorted perm
  have mem : first ∈ items := perm.subset List.mem_cons_self
  refine ⟨mem, fun other among => ?_⟩
  rw [agrees first mem other among, decide_eq_true_iff]
  obtain rfl | behind := List.mem_cons.1 (perm.symm.subset among)
  · exact le_refl _
  · exact List.rel_of_pairwise_cons sorted behind

end First

/-- **First documents.** A search finds a document first that stands before all others that pass. -/
theorem Core.head?_search {ν : Type} [Scalar ν] {core : Core ν} {query : IndexQuery ν}
    {own : StoredDocument ν} (mem : own ∈ core.committed)
    (accepted : query.accepts own.document = true)
    (first : ∀ other ∈ core.committed, query.accepts other.document = true → other ≠ own →
      inOrder query own other = true ∧ inOrder query other own = false) :
    (core.search query).head? = some own.document := by
  rw [search, List.head?_map, head?_mergeSort (List.mem_filter.2 ⟨mem, accepted⟩)]
  · rfl
  · intro other among
    obtain ⟨among, passes⟩ := List.mem_filter.1 among
    exact first other among passes

end RankLedger
