import RankLedger.Proofs.Index.Shelf

/-!
# What a write leaves

A write of a core is about one document: it leaves that document there, or takes it away, and
changes no other one.  A core *reflects* a write if every query shows what the write leaves.

A write outside a part of a core leaves that part as it is, places included, and a query that only
accepts documents of the part cannot tell that anything was written (`Core.query_congr`).
-/

namespace RankLedger

variable {ν : Type}

/-! ## 1. One document -/

namespace CoreWrite

def id : CoreWrite ν → String
  | .add document => document.id
  | .delete gone => gone

def leaves : CoreWrite ν → Option (Document ν)
  | .add document => some document
  | .delete _ => none

theorem id_of_leaves (write : CoreWrite ν) {document : Document ν}
    (h : write.leaves = some document) : write.id = document.id := by
  cases write with
  | add new =>
      cases h
      rfl
  | delete gone => cases h

end CoreWrite

namespace Core

def document? (core : Core ν) (id : String) : Option (Document ν) :=
  (core.find? id).map (·.document)

theorem document?_carryOut_self (core : Core ν) (write : CoreWrite ν) :
    (core.carryOut write).document? write.id = write.leaves := by
  cases write with
  | add document =>
      show ((core.put document).find? document.id).map _ = _
      rw [find?_put_self]
      rfl
  | delete id =>
      show ((core.erase id).find? id).map _ = _
      rw [find?_erase_self]
      rfl

/-- A commit carries the last write out after everything that was waiting. -/
theorem commit_push_eq_carryOut (core : Core ν) (write : CoreWrite ν) :
    (core.push write).commit = core.commit.carryOut write := by
  show apply core.drain.2 (core.pending ++ [write]) = _
  rw [apply, List.foldl_append]
  rfl

/-- The last write is what stands under its identifier after the commit. -/
theorem document?_commit_push_self (core : Core ν) (write : CoreWrite ν) :
    (core.push write).commit.document? write.id = write.leaves := by
  rw [commit_push_eq_carryOut, document?_carryOut_self]

theorem document?_carryOut_of_ne (core : Core ν) {write : CoreWrite ν} {id : String}
    (h : write.id ≠ id) : (core.carryOut write).document? id = core.document? id := by
  cases write with
  | add document => exact congrArg (Option.map _) (core.find?_put_of_ne document h.symm)
  | delete gone => exact congrArg (Option.map _) (core.find?_erase_of_ne h.symm)

/-- Under an identifier stands what was there before a batch, or what a write of the batch left. -/
theorem document?_apply {core : Core ν} {batch : List (CoreWrite ν)} {id : String}
    {Known : CoreWrite ν → Prop}
    (known : ∃ last, Known last ∧ last.id = id ∧ core.document? id = last.leaves)
    (all : ∀ write ∈ batch, write.id = id → Known write) :
    ∃ last, Known last ∧ last.id = id ∧ (core.apply batch).document? id = last.leaves := by
  induction batch generalizing core with
  | nil => exact known
  | cons write rest ih =>
      refine ih ?_ fun other mem => all other (List.mem_cons_of_mem _ mem)
      by_cases same : write.id = id
      · subst same
        exact ⟨write, all write List.mem_cons_self rfl, rfl, core.document?_carryOut_self write⟩
      · rwa [document?_carryOut_of_ne core same]

theorem mem_documents_carryOut {core : Core ν} {write : CoreWrite ν} {document : Document ν}
    (mem : document ∈ (core.carryOut write).documents) :
    document ∈ core.documents ∨ write.leaves = some document := by
  rw [documents_carryOut] at mem
  cases write with
  | add new =>
      rcases Shelf.mem_put.1 mem with rfl | ⟨mem, -⟩
      · exact .inr rfl
      · exact .inl mem
  | delete gone => exact .inl (Shelf.mem_erase.1 mem).1

theorem mem_documents_apply {core : Core ν} {batch : List (CoreWrite ν)} {document : Document ν}
    (mem : document ∈ (core.apply batch).documents) :
    document ∈ core.documents ∨ ∃ write ∈ batch, write.leaves = some document := by
  induction batch generalizing core with
  | nil => exact .inl mem
  | cons write rest ih =>
      rcases ih mem with mem | ⟨other, among, left⟩
      · exact (mem_documents_carryOut mem).imp_right fun left =>
          ⟨write, List.mem_cons_self, left⟩
      · exact .inr ⟨other, List.mem_cons_of_mem _ among, left⟩

def IsDistinct (core : Core ν) : Prop :=
  (core.documents.map (·.id)).Nodup

theorem IsDistinct.apply {core : Core ν} (h : core.IsDistinct) (batch : List (CoreWrite ν)) :
    (core.apply batch).IsDistinct := by
  induction batch generalizing core with
  | nil => exact h
  | cons write rest ih =>
      refine ih ?_
      unfold IsDistinct
      rw [documents_carryOut]
      cases write with
      | add document => exact Shelf.nodup_put h
      | delete gone => exact Shelf.nodup_erase h

theorem IsDistinct.commit {core : Core ν} (h : core.IsDistinct) : core.commit.IsDistinct := by
  have drained : core.drain.2.IsDistinct := h
  exact drained.apply core.pending

/-- Then one look at an identifier sees all that stands under it. -/
theorem IsDistinct.filter_documents {core : Core ν} (h : core.IsDistinct) (id : String) :
    core.documents.filter (·.id == id) = (core.document? id).toList := by
  have found : core.document? id = core.documents.find? (·.id == id) := by
    rw [document?, find?, documents, List.find?_map]
    rfl
  rw [found]
  unfold IsDistinct at h
  generalize core.documents = documents at h ⊢
  induction documents with
  | nil => rfl
  | cons document rest ih =>
      rw [List.map_cons, List.nodup_cons] at h
      by_cases same : document.id = id
      · have others : rest.filter (·.id == id) = [] := by
          rw [List.filter_eq_nil_iff]
          intro other mem equal
          exact h.1 (List.mem_map.2 ⟨other, mem, (beq_iff_eq.1 equal).trans same.symm⟩)
        rw [List.filter_cons_of_pos (by simpa using same), others,
          List.find?_cons_of_pos (by simpa using same)]
        rfl
      · rw [List.filter_cons_of_neg (by simpa using same),
          List.find?_cons_of_neg (by simpa using same), ih h.2]

/-- One thing at most cannot stand in another order. -/
theorem eq_toList_of_perm {α : Type} {things : List α} {thing : Option α}
    (h : things.Perm thing.toList) : things = thing.toList := by
  cases thing with
  | none => exact h.eq_nil
  | some thing => exact List.perm_singleton.1 h

/-! ## 2. Reflected writes -/

variable [Scalar ν]

def Reflects (core : Core ν) (write : CoreWrite ν) : Prop :=
  ∀ query : IndexQuery ν, ∃ found,
    core.query query = .ok { documents := query.page found, found := found.length } ∧
    found.filter (·.id == write.id) = write.leaves.toList.filter query.accepts

theorem reflects_of_document? {core : Core ν} {write : CoreWrite ν} (h : core.IsDistinct)
    (readable : core.isReadable = true) (left : core.document? write.id = write.leaves) :
    core.Reflects write := by
  intro query
  refine ⟨core.search query, query_of_isReadable readable query, ?_⟩
  have perm : ((core.search query).filter (·.id == write.id)).Perm
      (write.leaves.toList.filter query.accepts) := by
    refine ((core.search_perm query).filter _).trans (List.Perm.of_eq ?_)
    rw [List.filter_filter, ← left, ← h.filter_documents, List.filter_filter]
    congr 1
    funext document
    rw [Bool.and_comm]
  rw [← Option.toList_filter] at perm ⊢
  exact eq_toList_of_perm perm

/-- A core that reflects a write can be read, and holds what the write leaves. -/
theorem Reflects.isReadable {core : Core ν} {write : CoreWrite ν} (h : core.Reflects write) :
    core.isReadable = true := by
  obtain ⟨found, answer, -⟩ := h {}
  unfold Core.query at answer
  split at answer
  · assumption
  · cases answer

theorem Reflects.mem_documents {core : Core ν} {write : CoreWrite ν} {document : Document ν}
    (h : core.Reflects write) (left : write.leaves = some document) :
    document ∈ core.documents := by
  obtain ⟨found, answer, shows⟩ := h {}
  rw [query_of_isReadable h.isReadable] at answer
  -- without a window the page is all that is found
  have same : core.search {} = found := congrArg IndexPage.documents (Except.ok.inj answer)
  have mem : document ∈ found.filter (·.id == write.id) := by
    rw [shows, left]
    simp [IndexQuery.accepts]
  rw [← same] at mem
  exact (List.mem_filter.1 ((core.search_perm {}).subset (List.mem_filter.1 mem).1)).1

/-! ## 3. Parts of a core -/

section Part

variable {core other : Core ν} {p : Document ν → Bool}

def part (core : Core ν) (p : Document ν → Bool) : List (StoredDocument ν) :=
  core.committed.filter fun stored => p stored.document

omit [Scalar ν] in
theorem part_carryOut {write : CoreWrite ν}
    (leaves : ∀ document, write.leaves = some document → p document = false)
    (whole : ∀ document ∈ core.documents, document.id = write.id → p document = false) :
    (core.carryOut write).part p = core.part p := by
  have outside : ∀ stored ∈ core.committed, stored.document.id = write.id →
      p stored.document = false := fun stored mem =>
    whole stored.document (List.mem_map_of_mem mem)
  cases write with
  | delete gone =>
      show (core.committed.filter _).filter _ = core.committed.filter _
      rw [List.filter_filter]
      apply List.filter_congr
      intro stored mem
      -- what is deleted did not belong to the part
      by_cases same : stored.document.id = gone
      · rw [outside stored mem same, Bool.false_and]
      · rw [bne_iff_ne.2 same, Bool.and_true]
  | add document =>
      have new : p document = false := leaves document rfl
      show (core.put document).committed.filter _ = core.committed.filter _
      unfold put
      split
      · -- a place that is taken over belongs to the other part before and after
        show (core.committed.map _).filter _ = _
        clear whole
        generalize core.committed = committed at outside ⊢
        induction committed with
        | nil => rfl
        | cons stored rest ih =>
            have ih := ih fun other mem => outside other (List.mem_cons_of_mem _ mem)
            have old := outside stored List.mem_cons_self
            rw [List.map_cons, List.filter_cons, List.filter_cons, ih]
            unfold StoredDocument.renew
            split
            · rename_i same
              rw [old same, new]
              rfl
            · rfl
      · rw [List.filter_append, List.filter_cons_of_neg (by simp [new]), List.filter_nil,
          List.append_nil]

/-- A query that only accepts documents of the part sees nothing else. -/
theorem query_congr {query : IndexQuery ν} (own : ∀ document, query.accepts document = true →
    p document = true) (same : core.part p = other.part p)
    (readable : core.isReadable = other.isReadable) : core.query query = other.query query := by
  have accepted (core : Core ν) : core.committed.filter (fun stored =>
      query.accepts stored.document) =
      (core.part p).filter fun stored => query.accepts stored.document := by
    rw [part, List.filter_filter]
    apply List.filter_congr
    intro stored _
    cases h : query.accepts stored.document with
    | true => rw [own _ h, Bool.and_true]
    | false => rw [Bool.false_and]
  have found : core.search query = other.search query := by
    rw [search, search, accepted core, accepted other, same]
  rw [Core.query, Core.query, readable, found]

end Part

end Core

end RankLedger
