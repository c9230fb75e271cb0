import RankLedger.Index.Core

/-!
# Shelves

A core keeps its documents like a shelf keeps books: each has a key, a new one takes the place of
the one with the same key or stands at the end, and the others stay where they are.  The laws are
stated for lists of anything with a key, because the votes and the averages that the documents
stand for are kept in the same way: putting a record on the shelf of records and putting its
document on the shelf of documents is one and the same thing (`Shelf.map_put`).

What a core holds and what its queries find is then said in terms of its shelf
(`Core.documents_carryOut`, `Core.search_perm`).
-/

namespace RankLedger

/-! ## 1. Lists with keys -/

namespace Shelf

variable {α β κ : Type} [DecidableEq κ] {key : α → κ} {new : α} {gone : κ} {shelf : List α}

def put (key : α → κ) (new : α) (shelf : List α) : List α :=
  if shelf.any fun old => key old == key new then
    shelf.map fun old => if key old = key new then new else old
  else shelf ++ [new]

def erase (key : α → κ) (gone : κ) (shelf : List α) : List α :=
  shelf.filter fun old => key old != gone

@[simp] theorem mem_erase {x : α} : x ∈ erase key gone shelf ↔ x ∈ shelf ∧ key x ≠ gone := by
  simp [erase]

theorem put_of_notMem (h : key new ∉ shelf.map key) : put key new shelf = shelf ++ [new] := by
  unfold put
  rw [if_neg]
  simpa [List.mem_map] using h

theorem put_of_mem (h : key new ∈ shelf.map key) :
    put key new shelf = shelf.map fun old => if key old = key new then new else old := by
  unfold put
  rw [if_pos]
  simpa [List.mem_map] using h

@[simp] theorem mem_put {x : α} :
    x ∈ put key new shelf ↔ x = new ∨ x ∈ shelf ∧ key x ≠ key new := by
  by_cases h : key new ∈ shelf.map key
  · -- the new one took the place of another
    rw [put_of_mem h, List.mem_map]
    constructor
    · rintro ⟨old, mem, rfl⟩
      by_cases same : key old = key new
      · rw [if_pos same]
        exact .inl rfl
      · rw [if_neg same]
        exact .inr ⟨mem, same⟩
    · rintro (rfl | ⟨mem, differs⟩)
      · obtain ⟨old, mem, same⟩ := List.mem_map.1 h
        exact ⟨old, mem, if_pos same⟩
      · exact ⟨x, mem, if_neg differs⟩
  · -- the new one stands at the end, and nothing has its key
    rw [put_of_notMem h, List.mem_append, List.mem_singleton, or_comm]
    refine or_congr Iff.rfl ⟨fun mem => ⟨mem, fun same => h ?_⟩, And.left⟩
    exact List.mem_map.2 ⟨x, mem, same⟩

theorem erase_of_notMem (h : gone ∉ shelf.map key) : erase key gone shelf = shelf := by
  apply List.filter_eq_self.2
  intro old mem
  rw [bne_iff_ne]
  rintro rfl
  exact h (List.mem_map_of_mem mem)

/-- **Distinct keys.** No key occurs twice if none did before. -/
theorem nodup_erase (h : (shelf.map key).Nodup) : ((erase key gone shelf).map key).Nodup :=
  h.sublist (List.filter_sublist.map key)

/-- What takes the place of something else has its key. -/
theorem keys_put_of_mem (h : key new ∈ shelf.map key) :
    (put key new shelf).map key = shelf.map key := by
  rw [put_of_mem h, List.map_map]
  apply List.map_congr_left
  intro old _
  show key (if key old = key new then new else old) = key old
  split
  · rename_i same
    exact same.symm
  · rfl

theorem nodup_put (h : (shelf.map key).Nodup) : ((put key new shelf).map key).Nodup := by
  by_cases mem : key new ∈ shelf.map key
  · rwa [keys_put_of_mem mem]
  · rw [put_of_notMem mem, List.map_append, List.map_singleton, List.nodup_append]
    refine ⟨h, by simp, ?_⟩
    rintro k hk _ hnew rfl
    rw [List.mem_singleton] at hnew
    exact mem (hnew ▸ hk)

/-- A book in its place is a book beside all others. -/
theorem perm_cons_erase (h : (shelf.map key).Nodup) {x : α} (mem : x ∈ shelf) :
    shelf.Perm (x :: erase key (key x) shelf) := by
  induction shelf with
  | nil => cases mem
  | cons old rest ih =>
      rw [List.map_cons, List.nodup_cons] at h
      rcases List.mem_cons.1 mem with rfl | mem
      · -- the key does not occur in the rest, so only the head goes
        have : erase key (key x) (x :: rest) = rest := by
          rw [← erase_of_notMem h.1]
          simp [erase]
        rw [this]
      · have differs : key old ≠ key x := fun same => h.1 (same ▸ List.mem_map_of_mem mem)
        have : erase key (key x) (old :: rest) = old :: erase key (key x) rest := by
          simp [erase, differs]
        rw [this]
        exact ((ih h.2 mem).cons old).trans (List.Perm.swap x old _)

/-- Up to their order, putting replaces what had the key by what has it now. -/
theorem put_perm (h : (shelf.map key).Nodup) :
    (put key new shelf).Perm (new :: erase key (key new) shelf) := by
  -- apart from the new one nothing changed
  have kept : erase key (key new) (put key new shelf) = erase key (key new) shelf := by
    by_cases mem : key new ∈ shelf.map key
    · rw [put_of_mem mem]
      unfold erase
      clear h mem
      induction shelf with
      | nil => rfl
      | cons old rest ih =>
          by_cases same : key old = key new
          · simp [same, ih]
          · simp [same, ih]
    · rw [put_of_notMem mem]
      simp [erase]
  have mem : new ∈ put key new shelf := mem_put.2 (.inl rfl)
  have := perm_cons_erase (nodup_put h) mem
  rwa [kept] at this

theorem length_put_le : (put key new shelf).length ≤ shelf.length + 1 := by
  by_cases mem : key new ∈ shelf.map key
  · rw [put_of_mem mem, List.length_map]
    omega
  · have appended : (put key new shelf).length = shelf.length + 1 := by
      rw [put_of_notMem mem, List.length_append, List.length_singleton]
    exact Nat.le_of_eq appended

variable {f : α → β} {keyOf : β → κ}

/-- What stands for the things on a shelf is put in the same way. -/
theorem map_put (same : ∀ x, keyOf (f x) = key x) :
    (put key new shelf).map f = put keyOf (f new) (shelf.map f) := by
  have keys : (shelf.map f).map keyOf = shelf.map key := by
    rw [List.map_map]
    exact List.map_congr_left fun x _ => same x
  by_cases mem : key new ∈ shelf.map key
  · have mem' : keyOf (f new) ∈ (shelf.map f).map keyOf := by rwa [keys, same]
    rw [put_of_mem mem, put_of_mem mem', List.map_map, List.map_map]
    apply List.map_congr_left
    intro old _
    rw [Function.comp_apply, Function.comp_apply, same, same, apply_ite f]
  · have mem' : keyOf (f new) ∉ (shelf.map f).map keyOf := by rwa [keys, same]
    rw [put_of_notMem mem, put_of_notMem mem', List.map_append, List.map_singleton]

theorem map_erase (same : ∀ x, keyOf (f x) = key x) :
    (erase key gone shelf).map f = erase keyOf gone (shelf.map f) := by
  unfold erase
  rw [List.filter_map]
  simp only [Function.comp_def, same]

/-! Part of a shelf is a shelf of its own, as long as what has one key lies in one part. -/

variable {p : α → Bool}

theorem filter_put_of_pos (h : p new = true)
    (whole : ∀ old ∈ shelf, key old = key new → p old = true) :
    (put key new shelf).filter p = put key new (shelf.filter p) := by
  by_cases mem : key new ∈ shelf.map key
  · -- the place that is taken lies in this part of the shelf
    have mem' : key new ∈ (shelf.filter p).map key := by
      obtain ⟨old, mem, same⟩ := List.mem_map.1 mem
      exact List.mem_map.2 ⟨old, List.mem_filter.2 ⟨mem, whole old mem same⟩, same⟩
    rw [put_of_mem mem, put_of_mem mem', List.filter_map]
    congr 1
    apply List.filter_congr
    intro old mem
    rw [Function.comp_apply]
    split
    · rename_i same
      rw [h, whole old mem same]
    · rfl
  · have mem' : key new ∉ (shelf.filter p).map key := fun other =>
      mem ((List.filter_sublist.map key).subset other)
    rw [put_of_notMem mem, put_of_notMem mem', List.filter_append, List.filter_cons_of_pos h,
      List.filter_nil]

theorem filter_put_of_neg (h : p new = false)
    (whole : ∀ old ∈ shelf, key old = key new → p old = false) :
    (put key new shelf).filter p = shelf.filter p := by
  by_cases mem : key new ∈ shelf.map key
  · rw [put_of_mem mem]
    clear mem
    induction shelf with
    | nil => rfl
    | cons old rest ih =>
        -- a place that is taken lies in the other part, and so does the new one
        have ih := ih fun other mem => whole other (List.mem_cons_of_mem _ mem)
        have hold := whole old List.mem_cons_self
        rw [List.map_cons]
        by_cases same : key old = key new
        · rw [if_pos same, List.filter_cons_of_neg (by simp [h]),
            List.filter_cons_of_neg (by simp [hold same]), ih]
        · rw [if_neg same, List.filter_cons, List.filter_cons, ih]
  · rw [put_of_notMem mem, List.filter_append, List.filter_cons_of_neg (by simp [h]),
      List.filter_nil, List.append_nil]

/-- A book may also be put in front of the part of the shelf that it belongs to. -/
theorem filter_perm_cons_erase (h : (shelf.map key).Nodup) {x : α} (mem : x ∈ shelf)
    (hx : p x = true) : (shelf.filter p).Perm (x :: (erase key (key x) shelf).filter p) := by
  have := (perm_cons_erase h mem).filter p
  rwa [List.filter_cons_of_pos hx] at this

theorem filter_put_perm (h : (shelf.map key).Nodup) (hnew : p new = true) :
    ((put key new shelf).filter p).Perm (new :: (erase key (key new) shelf).filter p) := by
  have := List.Perm.filter p (put_perm h : (put key new shelf).Perm _)
  rwa [List.filter_cons_of_pos hnew] at this

theorem filter_erase : (erase key gone shelf).filter p = erase key gone (shelf.filter p) := by
  unfold erase
  rw [List.filter_filter, List.filter_filter]
  congr 1
  funext old
  rw [Bool.and_comm]

end Shelf

/-- What has the same things standing for it in another order can itself be put in that order. -/
theorem exists_perm_of_perm_map {α β : Type} {f : α → β} {records : List α} {results : List β}
    (h : results.Perm (records.map f)) :
    ∃ sorted : List α, sorted.Perm records ∧ results = sorted.map f := by
  induction records generalizing results with
  | nil =>
      rw [List.map_nil, List.perm_nil] at h
      exact ⟨[], List.Perm.refl _, h⟩
  | cons record rest ih =>
      -- take one image of the first record out, put the others in order, and put it back
      have mem : f record ∈ results := h.symm.subset List.mem_cons_self
      obtain ⟨first, last, rfl⟩ := List.append_of_mem mem
      have h' : (first ++ last).Perm (rest.map f) :=
        (List.perm_middle.symm.trans h).cons_inv
      obtain ⟨sorted, perm, split⟩ := ih h'
      obtain ⟨before, after, rfl, rfl, rfl⟩ := List.append_eq_map_iff.1 split
      refine ⟨before ++ record :: after, List.perm_middle.trans (perm.cons record), ?_⟩
      rw [List.map_append, List.map_cons]

/-! ## 2. The shelf of a core -/

def CoreWrite.on {ν : Type} : CoreWrite ν → List (Document ν) → List (Document ν)
  | .add document, shelf => Shelf.put (·.id) document shelf
  | .delete id, shelf => Shelf.erase (·.id) id shelf

namespace Core

variable {ν : Type} (core : Core ν)

def documents : List (Document ν) :=
  core.committed.map (·.document)

@[simp] theorem documents_carryOut (write : CoreWrite ν) :
    (core.carryOut write).documents = write.on core.documents := by
  cases write with
  | add document =>
      show (core.put document).documents = Shelf.put (·.id) document core.documents
      -- the two look for the identifier in the same list, one with sequence numbers and one without
      have known : core.contains document.id =
          core.documents.any fun old => old.id == document.id := by
        rw [contains, documents, List.any_map]
        rfl
      unfold put Shelf.put
      rw [known]
      split
      · simp only [documents, List.map_map]
        congr 1
        funext stored
        rw [Function.comp_apply, Function.comp_apply, StoredDocument.renew,
          apply_ite StoredDocument.document]
      · simp [documents]
  | delete id =>
      show (core.erase id).documents = Shelf.erase (·.id) id core.documents
      rw [documents, documents, erase, Shelf.erase, List.filter_map]
      rfl

theorem documents_apply (batch : List (CoreWrite ν)) :
    (core.apply batch).documents =
      batch.foldl (fun shelf write => write.on shelf) core.documents := by
  unfold apply
  induction batch generalizing core with
  | nil => rfl
  | cons write rest ih => rw [List.foldl_cons, List.foldl_cons, ih, documents_carryOut]

@[simp] theorem pending_apply (batch : List (CoreWrite ν)) :
    (core.apply batch).pending = core.pending := by
  unfold apply
  induction batch generalizing core with
  | nil => rfl
  | cons write rest ih =>
      rw [List.foldl_cons, ih]
      cases write with
      | add document =>
          show (core.put document).pending = _
          unfold put
          split <;> rfl
      | delete id => rfl

@[simp] theorem pending_commit : core.commit.pending = [] :=
  pending_apply _ _

/-- A commit carries out what was waiting, in order. -/
theorem documents_commit :
    core.commit.documents =
      core.pending.foldl (fun shelf write => write.on shelf) core.documents :=
  documents_apply _ _

theorem documents_commit_push (write : CoreWrite ν) :
    (core.push write).commit.documents = write.on core.commit.documents := by
  rw [documents_commit, documents_commit]
  show (core.pending ++ [write]).foldl _ _ = _
  rw [List.foldl_append, List.foldl_cons, List.foldl_nil]
  rfl

/-- If nothing is waiting, a commit makes nothing visible. -/
theorem documents_commit_of_pending (h : core.pending = []) :
    core.commit.documents = core.documents := by
  rw [documents_commit, h, List.foldl_nil]

variable [Scalar ν]

theorem isReadable_iff : core.isReadable = true ↔ ∀ document ∈ core.documents,
    document.isStorable = true := by
  simp [isReadable, documents]

/-- A search finds the documents that pass the filters, in some order. -/
theorem search_perm (query : IndexQuery ν) :
    (core.search query).Perm (core.documents.filter query.accepts) := by
  rw [search, documents, List.filter_map]
  exact (List.mergeSort_perm _ _).map _

variable {core} in
theorem query_of_isReadable (h : core.isReadable = true) (query : IndexQuery ν) :
    core.query query = .ok
      { documents := query.page (core.search query), found := (core.search query).length } := by
  rw [Core.query, if_pos h]

end Core

end RankLedger
