import RankLedger.Record

/-!
# Records survive being stored

A document can be read as a vote or an average exactly if it holds what is stored of that record
(`Ranking.ofDocument_eq_ok_iff`, `AverageRank.ofDocument_eq_ok_iff`).  So a record that is written
as a document and read back is the same record (`Ranking.ofDocument_toDocument`,
`AverageRank.ofDocument_toDocument`).  Two things can be lost on the way, and are excluded by
hypotheses: what is finer than a millisecond in a date, and the sign of a number of votes that does
not fit a signed 64-bit word.

A record whose dates have no milliseconds has no document.  `Ranking.toDocument` and
`AverageRank.toDocument` are the documents of all others (`Ranking.toDocument?_eq_some`).
-/

namespace RankLedger

variable {ν : Type}

/-! ## 1. Fields of a document -/

namespace Document

@[simp] theorem id_ofFields (id : String) (fields : List (String × FieldValue ν)) :
    (ofFields id fields).id = id := by
  suffices h : ∀ document : Document ν,
      (fields.foldl (fun document field => document.set field.1 field.2) document).id =
        document.id from h _
  induction fields with
  | nil => intro document; rfl
  | cons field rest ih => intro document; rw [List.foldl_cons, ih, id_set]

/-- A field keeps its value if no later one has its name. -/
theorem get?_ofFields_append (id name : String) (value : FieldValue ν)
    (first rest : List (String × FieldValue ν)) (h : ∀ field ∈ rest, field.1 ≠ name) :
    (ofFields id (first ++ (name, value) :: rest)).get? name = some value := by
  unfold ofFields
  rw [List.foldl_append, List.foldl_cons]
  generalize List.foldl _ _ first = start
  suffices h : ∀ document : Document ν, document.get? name = some value →
      (rest.foldl (fun document field => document.set field.1 field.2) document).get? name =
        some value from h _ (get?_set_self start name value)
  clear start
  induction rest with
  | nil => intro document found; exact found
  | cons field rest ih =>
      intro document found
      rw [List.foldl_cons]
      apply ih fun other mem => h other (List.mem_cons_of_mem _ mem)
      rw [get?_set_of_ne _ _ (h field List.mem_cons_self).symm, found]

/-- Fields of different names are found under their names. -/
theorem get?_ofFields {id : String} {fields : List (String × FieldValue ν)}
    (distinct : (fields.map (·.1)).Nodup) {name : String} {value : FieldValue ν}
    (h : (name, value) ∈ fields) : (ofFields id fields).get? name = some value := by
  obtain ⟨first, rest, rfl⟩ := List.append_of_mem h
  apply get?_ofFields_append
  intro field mem same
  simp only [List.map_append, List.map_cons, List.nodup_append, List.nodup_cons] at distinct
  exact distinct.2.1.1 (same ▸ List.mem_map_of_mem mem)

variable [Scalar ν]

theorem isStorable_set {document : Document ν} {name : String} {value : FieldValue ν}
    (h : document.isStorable) (hv : value.isStorable) : (document.set name value).isStorable := by
  -- the fields are in the order of their names, so the new one may come anywhere among them
  show (insertField name value document.fields).all (fun field => field.2.isStorable) = true
  replace h : document.fields.all (fun field => field.2.isStorable) = true := h
  generalize document.fields = fields at h
  induction fields with
  | nil => simp [insertField, hv]
  | cons field rest ih =>
      obtain ⟨other, old⟩ := field
      simp only [List.all_cons, Bool.and_eq_true] at h
      unfold insertField
      split
      · simp [hv, h.2]
      · split
        · simp [hv, h.1, h.2]
        · simp [h.1, ih h.2]

/-- A document is storable if all values put into it are. -/
theorem isStorable_ofFields {id : String} {fields : List (String × FieldValue ν)}
    (h : ∀ field ∈ fields, field.2.isStorable) : (ofFields id fields).isStorable := by
  suffices h' : ∀ document : Document ν, document.isStorable →
      (fields.foldl (fun document field => document.set field.1 field.2) document).isStorable
    from h' _ rfl
  induction fields with
  | nil => intro document start; exact start
  | cons field rest ih =>
      intro document start
      rw [List.foldl_cons]
      exact ih (fun other mem => h other (List.mem_cons_of_mem _ mem)) _
        (isStorable_set start (h field List.mem_cons_self))

end Document

/-! ## 2. Reading fields -/

def Instant.IsWhole (t : Instant) : Prop :=
  t.truncated = t

def Instant.IsOfWord (t : Instant) : Prop :=
  ofMillis t.millis = t

theorem Instant.isWhole_truncated (t : Instant) : t.truncated.IsWhole :=
  truncated_truncated t

theorem Instant.IsWhole.isDate {t : Instant} (h : t.IsWhole) : t.IsDate := by
  rw [← h]
  exact isDate_truncated t

theorem Instant.IsWhole.isOfWord {t : Instant} (h : t.IsWhole) : t.IsOfWord := by
  rw [IsOfWord, ← truncated_of_isDate h.isDate]
  exact h

theorem Instant.isOfWord_ofMillis (m : Int64) : (ofMillis m).IsOfWord := by
  rw [IsOfWord, millis_ofMillis]

theorem toInt_ofUInt32 (n : UInt32) : (Int64.ofNat n.toNat).toInt = n.toNat := by
  have h := n.toNat_lt
  rw [Int64.toInt_ofNat_of_lt (by omega)]

theorem ofNat_toNat_toInt {number : Int64} (positive : 0 ≤ number.toInt) :
    Int64.ofNat number.toInt.toNat = number := by
  have bound := number.toInt_lt
  apply Int64.toInt_inj.1
  rw [Int64.toInt_ofNat_of_lt (by omega)]
  omega

/-- A signed 64-bit word within the bounds of 32 bits is such a number. -/
theorem FieldValue.integer_eq_ofUInt32 {number : Int64} (low : 0 ≤ number.toInt)
    (high : number.toInt < 4294967296) :
    (integer number : FieldValue ν) = .ofUInt32 (UInt32.ofNat number.toInt.toNat) := by
  have small : number.toInt.toNat < UInt32.size := by
    unfold UInt32.size
    omega
  rw [ofUInt32, UInt32.toNat_ofNat_of_lt' small, ofNat_toNat_toInt low]

/-- What a sequence gives comes from what its first part gave. -/
theorem ok_of_bind {ε α β : Type} {first : Except ε α} {next : α → Except ε β} {outcome : β}
    (h : first >>= next = .ok outcome) : ∃ value, first = .ok value ∧ next value = .ok outcome := by
  cases first with
  | ok value => exact ⟨value, rfl, h⟩
  | error _ => cases h

namespace Document

variable {document : Document ν} {field : String}

theorem text_eq_ok_iff {value : String} :
    document.text field = .ok value ↔ document.get? field = some (.text value) := by
  unfold text
  cases document.get? field with
  | none => simp
  | some found => cases found <;> simp [FieldValue.asText?]

theorem integer_eq_ok_iff {value : Int64} :
    document.integer field = .ok value ↔ document.get? field = some (.integer value) := by
  unfold integer
  cases document.get? field with
  | none => simp
  | some found => cases found <;> simp [FieldValue.asInteger?]

theorem unsigned_eq_ok_iff {value : UInt32} :
    document.unsigned field = .ok value ↔ document.get? field = some (.ofUInt32 value) := by
  constructor
  · intro h
    obtain ⟨number, read, h⟩ := ok_of_bind h
    split at h
    · rename_i bounds
      cases h
      rw [integer_eq_ok_iff.1 read, FieldValue.integer_eq_ofUInt32 bounds.1 bounds.2]
    · cases h
  · intro h
    have bound := value.toNat_lt
    show (document.integer field >>= _) = _
    rw [integer_eq_ok_iff.2 h]
    show (if 0 ≤ (Int64.ofNat value.toNat).toInt ∧ (Int64.ofNat value.toNat).toInt < 4294967296 then
      (pure (UInt32.ofNat (Int64.ofNat value.toNat).toInt.toNat) : Except DocumentFault UInt32)
        else _) = _
    -- a 32-bit number is neither negative nor too large as a signed 64-bit one
    rw [toInt_ofUInt32, if_pos (by omega), Int.toNat_natCast, UInt32.ofNat_toNat]
    rfl

theorem date_eq_ok_iff {value : Instant} : document.date field = .ok value ↔
    document.get? field = some (.date value.millis) ∧ value.IsOfWord := by
  unfold date
  constructor
  · intro h
    cases held : document.get? field with
    | none => simp [held] at h
    | some found =>
        cases found with
        | date millis =>
            rw [held] at h
            cases h
            rw [Instant.millis_ofMillis]
            exact ⟨rfl, Instant.isOfWord_ofMillis millis⟩
        | text | integer | double => simp [held, FieldValue.asDate?] at h
  · rintro ⟨held, whole⟩
    rw [held]
    exact congrArg Except.ok whole

theorem number_eq_ok_iff [Scalar ν] {value : ν} : document.number field = .ok value ↔
    ∃ held, document.get? field = some held ∧ held.asNumber? = some value := by
  unfold number
  cases document.get? field with
  | none => simp
  | some found => cases found <;> simp [FieldValue.asNumber?]

end Document

/-! ## 3. Votes -/

namespace Ranking

def stored (ranking : Ranking) : QueryField → FieldValue ν
  | .identifier => .text ranking.id
  | .entityReference => .text ranking.target.reference
  | .entityType => .text ranking.target.entityType.name
  | .userReference => .text ranking.voter.reference
  | .vote => .ofUInt32 ranking.rank
  | .createdDate => .date ranking.created.millis
  | .updatedDate => .date ranking.updated.millis
  | .managerId => .text ranking.manager
  | .scale => .ofUInt32 ranking.scale

def IsWhole (ranking : Ranking) : Prop :=
  ranking.created.IsWhole ∧ ranking.updated.IsWhole

def IsDated (ranking : Ranking) : Prop :=
  ranking.created.IsDate ∧ ranking.updated.IsDate

theorem IsWhole.isDated {ranking : Ranking} (h : ranking.IsWhole) : ranking.IsDated :=
  ⟨h.1.isDate, h.2.isDate⟩

def IsOfWords (ranking : Ranking) : Prop :=
  ranking.created.IsOfWord ∧ ranking.updated.IsOfWord

theorem IsWhole.isOfWords {ranking : Ranking} (h : ranking.IsWhole) : ranking.IsOfWords :=
  ⟨h.1.isOfWord, h.2.isOfWord⟩

def toDocument (ranking : Ranking) : Document ν :=
  Document.ofFields ranking.id (ranking.fields ranking.created.millis ranking.updated.millis)

/-- A vote whose dates can be stored has its document. -/
theorem toDocument?_eq_some {ranking : Ranking} (dated : ranking.IsDated) :
    (ranking.toDocument? : Option (Document ν)) = some ranking.toDocument := by
  rw [toDocument?, Instant.toMillis?_of_isDate dated.1, Instant.toMillis?_of_isDate dated.2]
  rfl

/-- A vote has no document, or its own. -/
theorem eq_toDocument_of_toDocument? {ranking : Ranking} {document : Document ν}
    (h : ranking.toDocument? = some document) : document = ranking.toDocument := by
  obtain ⟨created, first, h⟩ := Option.bind_eq_some_iff.1 h
  obtain ⟨updated, last, h⟩ := Option.bind_eq_some_iff.1 h
  rw [← Option.some.inj h, Instant.eq_millis_of_toMillis? first,
    Instant.eq_millis_of_toMillis? last]
  rfl

@[simp] theorem id_toDocument (ranking : Ranking) :
    (ranking.toDocument : Document ν).id = ranking.id :=
  Document.id_ofFields _ _

theorem get?_toDocument (ranking : Ranking) {field : QueryField} (h : field ≠ .identifier) :
    (ranking.toDocument : Document ν).get? field.storedName = some (ranking.stored field) := by
  apply Document.get?_ofFields
  · show List.Nodup ["managerId", "rankedElement", "entityType", "voter", "vote", "scale",
      "createdAt", "updatedAt"]
    decide
  · cases field <;> simp [fields, stored] at h ⊢

theorem isStorable_toDocument [Scalar ν] (ranking : Ranking) :
    (ranking.toDocument : Document ν).isStorable := by
  apply Document.isStorable_ofFields
  intro field mem
  simp only [fields, List.mem_cons, List.not_mem_nil, or_false] at mem
  rcases mem with rfl | rfl | rfl | rfl | rfl | rfl | rfl | rfl <;> rfl

/-- **Votes in documents.** A document can be read as a vote exactly if it has the identifier of
    the vote and stores under every other field what is stored of the vote, and the dates of the
    vote have nothing that is not stored. -/
theorem ofDocument_eq_ok_iff {document : Document ν} {vote : Ranking} :
    ofDocument document = .ok vote ↔ vote.id = document.id ∧ vote.IsOfWords ∧
      ∀ field, field ≠ .identifier →
        document.get? field.storedName = some (vote.stored field) := by
  constructor
  · intro h
    obtain ⟨typeName, kind, h⟩ := ok_of_bind h
    split at h
    · rename_i entityType named
      -- the fields are read one after another, and each of them succeeded
      obtain ⟨_, ⟨⟩, h⟩ := ok_of_bind h
      obtain ⟨manager, own, h⟩ := ok_of_bind h
      obtain ⟨reference, on, h⟩ := ok_of_bind h
      obtain ⟨voter, by', h⟩ := ok_of_bind h
      obtain ⟨rank, ranked, h⟩ := ok_of_bind h
      obtain ⟨scale, scaled, h⟩ := ok_of_bind h
      obtain ⟨created, first, h⟩ := ok_of_bind h
      obtain ⟨updated, last, h⟩ := ok_of_bind h
      cases h
      obtain ⟨first, wholeFirst⟩ := Document.date_eq_ok_iff.1 first
      obtain ⟨last, wholeLast⟩ := Document.date_eq_ok_iff.1 last
      refine ⟨rfl, ⟨wholeFirst, wholeLast⟩, fun field other => ?_⟩
      cases field with
      | identifier => exact absurd rfl other
      | entityReference => exact Document.text_eq_ok_iff.1 on
      | entityType =>
          rw [Document.text_eq_ok_iff.1 kind, ← EntityType.name_of_ofName? named]
          rfl
      | userReference => exact Document.text_eq_ok_iff.1 by'
      | vote => exact Document.unsigned_eq_ok_iff.1 ranked
      | createdDate => exact first
      | updatedDate => exact last
      | managerId => exact Document.text_eq_ok_iff.1 own
      | scale => exact Document.unsigned_eq_ok_iff.1 scaled
    · cases h
  · rintro ⟨id, whole, stored⟩
    have entityType := Document.text_eq_ok_iff.2 (stored .entityType (by decide))
    have manager := Document.text_eq_ok_iff.2 (stored .managerId (by decide))
    have reference := Document.text_eq_ok_iff.2 (stored .entityReference (by decide))
    have voter := Document.text_eq_ok_iff.2 (stored .userReference (by decide))
    have rank := Document.unsigned_eq_ok_iff.2 (stored .vote (by decide))
    have scale := Document.unsigned_eq_ok_iff.2 (stored .scale (by decide))
    have created := Document.date_eq_ok_iff.2 ⟨stored .createdDate (by decide), whole.1⟩
    have updated := Document.date_eq_ok_iff.2 ⟨stored .updatedDate (by decide), whole.2⟩
    simp only [ofDocument, entityType, EntityType.ofName?_name, manager, reference, voter, rank,
      scale, created, updated, ← id, bind, Except.bind, pure, Except.pure]

/-- **Votes survive being stored.** -/
theorem ofDocument_toDocument {ranking : Ranking} (h : ranking.IsWhole) :
    ofDocument (ranking.toDocument : Document ν) = .ok ranking :=
  ofDocument_eq_ok_iff.2
    ⟨ranking.id_toDocument.symm, h.isOfWords, fun _ => get?_toDocument ranking⟩

end Ranking

/-! ## 4. Averages -/

namespace AverageRank

/-- The number of votes fits the stored word, and the date is that of a word. -/
structure Fits (average : AverageRank ν) : Prop where
  number : average.number < 9223372036854775808
  updated : average.updated.IsOfWord

def toDocument (average : AverageRank ν) : Document ν :=
  Document.ofFields average.id (average.fields average.updated.millis)

theorem toDocument?_eq_some {average : AverageRank ν} (updated : average.updated.IsDate) :
    average.toDocument? = some average.toDocument := by
  rw [toDocument?, Instant.toMillis?_of_isDate updated]
  rfl

/-- An average has no document, or its own. -/
theorem eq_toDocument_of_toDocument? {average : AverageRank ν} {document : Document ν}
    (h : average.toDocument? = some document) : document = average.toDocument := by
  obtain ⟨updated, last, h⟩ := Option.bind_eq_some_iff.1 h
  rw [← Option.some.inj h, Instant.eq_millis_of_toMillis? last]
  rfl

def stored (average : AverageRank ν) : AverageField → FieldValue ν
  | .managerId => .text average.manager
  | .rankedElement => .text average.target.reference
  | .entityType => .text average.target.entityType.name
  | .average => .double average.average
  | .voteNumber => .integer (Int64.ofNat average.number)
  | .scale => .ofUInt32 average.scale
  | .updatedAt => .date average.updated.millis

@[simp] theorem id_toDocument (average : AverageRank ν) : average.toDocument.id = average.id :=
  Document.id_ofFields _ _

theorem get?_toDocument (average : AverageRank ν) (field : AverageField) :
    average.toDocument.get? field.storedName = some (average.stored field) := by
  apply Document.get?_ofFields
  · show List.Nodup ["managerId", "rankedElement", "entityType", "average", "voteNumber", "scale",
      "updatedAt"]
    decide
  · cases field <;> simp [fields, stored]

theorem isStorable_toDocument [Scalar ν] {average : AverageRank ν}
    (h : Scalar.isFinite average.average) : average.toDocument.isStorable := by
  apply Document.isStorable_ofFields
  intro field mem
  simp only [fields, List.mem_cons, List.not_mem_nil, or_false] at mem
  rcases mem with rfl | rfl | rfl | rfl | rfl | rfl | rfl
  all_goals first | rfl | exact h

/-- What a document has to hold of an average.  Its number may also be stored as an integer, and
    what it says of the target is not looked at. -/
structure IsStoredIn [Scalar ν] (average : AverageRank ν) (document : Document ν) : Prop where
  id : average.id = document.id
  fits : average.Fits
  value : ∃ held, document.get? AverageField.average.storedName = some held ∧
    held.asNumber? = some average.average
  others : ∀ field ∈ [AverageField.managerId, .voteNumber, .scale, .updatedAt],
    document.get? field.storedName = some (average.stored field)

/-- **Averages in documents.** A document can be read as an average exactly if it holds what is
    stored of the average. -/
theorem ofDocument_eq_ok_iff [Scalar ν] {document : Document ν} {target : EntityReference}
    {average : AverageRank ν} : ofDocument document target = .ok average ↔
      average.target = target ∧ average.IsStoredIn document := by
  constructor
  · intro h
    obtain ⟨value, worth, h⟩ := ok_of_bind h
    obtain ⟨number, counted, h⟩ := ok_of_bind h
    split at h
    · cases h
    · rename_i positive
      obtain ⟨manager, own, h⟩ := ok_of_bind h
      obtain ⟨scale, scaled, h⟩ := ok_of_bind h
      obtain ⟨updated, last, h⟩ := ok_of_bind h
      cases h
      have bound := number.toInt_lt
      have small : number.toInt.toNat < 9223372036854775808 := by omega
      obtain ⟨last, whole⟩ := Document.date_eq_ok_iff.1 last
      refine ⟨rfl, rfl, ⟨small, whole⟩, Document.number_eq_ok_iff.1 worth, fun field among => ?_⟩
      simp only [List.mem_cons, List.not_mem_nil, or_false] at among
      obtain rfl | rfl | rfl | rfl := among
      · exact Document.text_eq_ok_iff.1 own
      · show _ = some (FieldValue.integer (Int64.ofNat number.toInt.toNat))
        rw [ofNat_toNat_toInt (Int.not_lt.1 positive)]
        exact Document.integer_eq_ok_iff.1 counted
      · exact Document.unsigned_eq_ok_iff.1 scaled
      · exact last
  · rintro ⟨rfl, id, fits, worth, others⟩
    have value := Document.number_eq_ok_iff.2 worth
    have number := Document.integer_eq_ok_iff.2 (others .voteNumber (by decide))
    have manager := Document.text_eq_ok_iff.2 (others .managerId (by decide))
    have scale := Document.unsigned_eq_ok_iff.2 (others .scale (by decide))
    have updated := Document.date_eq_ok_iff.2 ⟨others .updatedAt (by decide), fits.updated⟩
    have same : (Int64.ofNat average.number).toInt = average.number :=
      Int64.toInt_ofNat_of_lt fits.number
    -- the number is checked before the other fields are read
    simp only [ofDocument, value, number, bind, Except.bind]
    rw [if_neg (by omega)]
    simp only [manager, scale, updated, same, Int.toNat_natCast, ← id, pure, Except.pure]

/-- **Averages survive being stored.** -/
theorem ofDocument_toDocument [Scalar ν] {average : AverageRank ν} (h : average.Fits) :
    ofDocument average.toDocument average.target = .ok average :=
  ofDocument_eq_ok_iff.2 ⟨rfl, average.id_toDocument.symm, h,
    ⟨_, get?_toDocument average .average, rfl⟩, fun field _ => get?_toDocument average field⟩

end AverageRank

end RankLedger
