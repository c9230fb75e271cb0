import RankLedger.Proofs.Record.RoundTrip

/-!
# Records and documents correspond

Every vote and every average whose dates are whole milliseconds is read back from its own document,
and what a document needs for this are a few fields of the right kinds (`Document.DescribesVote`,
`Document.DescribesAverage`).  The document of a vote that was read from another one has the
identifier and the eight fields of that one, and none of its other fields
(`records_correspond_to_documents`).
-/

namespace RankLedger

variable {ν : Type}

/-- A whole number of milliseconds from the epoch that fits a signed 64-bit word and can be negated
    in it. -/
def Instant.IsMillis (t : Instant) : Prop :=
  ∃ millis : Int, -9223372036854775808 < millis ∧ millis < 9223372036854775808 ∧
    t.nanos = millis * 1000000

theorem Instant.IsMillis.isWhole {t : Instant} (h : t.IsMillis) : t.IsWhole := by
  obtain ⟨millis, low, high, nanos⟩ := h
  have word : (Int64.ofInt millis).toInt = millis := Int64.toInt_ofInt_of_le (by omega) (by omega)
  have same : t = ofMillis (Int64.ofInt millis) :=
    eq_of_nanos_eq (by rw [nanos_ofMillis, word, nanos])
  rw [same]
  refine truncated_ofMillis ?_
  rw [ne_eq, eq_minValue_iff, word]
  omega

/-! ## 1. What a document needs -/

namespace Document

variable {document : Document ν} {name : String}

def HasText (document : Document ν) (name : String) : Prop :=
  ∃ value, document.get? name = some (.text value)

def HasUnsigned (document : Document ν) (name : String) : Prop :=
  ∃ value : Int64, document.get? name = some (.integer value) ∧
    0 ≤ value.toInt ∧ value.toInt < 4294967296

def HasDate (document : Document ν) (name : String) : Prop :=
  ∃ millis, document.get? name = some (.date millis)

structure DescribesVote (document : Document ν) : Prop where
  manager : document.HasText "managerId"
  reference : document.HasText "rankedElement"
  entityType : ∃ entityType : EntityType, document.get? "entityType" = some (.text entityType.name)
  voter : document.HasText "voter"
  rank : document.HasUnsigned "vote"
  scale : document.HasUnsigned "scale"
  created : document.HasDate "createdAt"
  updated : document.HasDate "updatedAt"

/-- The document has the fields of an average, but for its target, which is asked for. -/
structure DescribesAverage (document : Document ν) : Prop where
  value : (∃ value, document.get? "average" = some (.double value)) ∨
    ∃ value, document.get? "average" = some (.integer value)
  number : ∃ value : Int64, document.get? "voteNumber" = some (.integer value) ∧ 0 ≤ value.toInt
  manager : document.HasText "managerId"
  scale : document.HasUnsigned "scale"
  updated : document.HasDate "updatedAt"

theorem hasUnsigned_iff :
    document.HasUnsigned name ↔ ∃ n : UInt32, document.get? name = some (.ofUInt32 n) := by
  constructor
  · rintro ⟨value, held, low, high⟩
    exact ⟨_, held.trans (congrArg some (FieldValue.integer_eq_ofUInt32 low high))⟩
  · rintro ⟨n, held⟩
    have bound := n.toNat_lt
    refine ⟨Int64.ofNat n.toNat, held, ?_⟩
    rw [toInt_ofUInt32]
    omega

theorem hasDate_iff : document.HasDate name ↔
    ∃ t : Instant, t.IsOfWord ∧ document.get? name = some (.date t.millis) := by
  constructor
  · rintro ⟨millis, held⟩
    exact ⟨.ofMillis millis, Instant.isOfWord_ofMillis millis,
      by rw [held, Instant.millis_ofMillis]⟩
  · rintro ⟨t, -, held⟩
    exact ⟨_, held⟩

end Document

/-! ## 2. Which documents are records -/

theorem Ranking.exists_ofDocument_iff {document : Document ν} :
    (∃ vote, ofDocument document = .ok vote) ↔ document.DescribesVote := by
  constructor
  · rintro ⟨vote, read⟩
    obtain ⟨-, whole, stored⟩ := ofDocument_eq_ok_iff.1 read
    exact
      { manager := ⟨_, stored .managerId (by decide)⟩
        reference := ⟨_, stored .entityReference (by decide)⟩
        entityType := ⟨_, stored .entityType (by decide)⟩
        voter := ⟨_, stored .userReference (by decide)⟩
        rank := Document.hasUnsigned_iff.2 ⟨_, stored .vote (by decide)⟩
        scale := Document.hasUnsigned_iff.2 ⟨_, stored .scale (by decide)⟩
        created := ⟨_, stored .createdDate (by decide)⟩
        updated := ⟨_, stored .updatedDate (by decide)⟩ }
  · intro describes
    obtain ⟨manager, own⟩ := describes.manager
    obtain ⟨reference, on⟩ := describes.reference
    obtain ⟨entityType, kind⟩ := describes.entityType
    obtain ⟨voter, by'⟩ := describes.voter
    obtain ⟨rank, ranked⟩ := Document.hasUnsigned_iff.1 describes.rank
    obtain ⟨scale, scaled⟩ := Document.hasUnsigned_iff.1 describes.scale
    obtain ⟨created, wholeFirst, first⟩ := Document.hasDate_iff.1 describes.created
    obtain ⟨updated, wholeLast, last⟩ := Document.hasDate_iff.1 describes.updated
    refine ⟨{ id := document.id, manager, target := { entityType, reference },
              voter := { reference := voter }, rank, scale, created, updated },
      ofDocument_eq_ok_iff.2 ⟨rfl, ⟨wholeFirst, wholeLast⟩, fun field other => ?_⟩⟩
    cases field with
    | identifier => exact absurd rfl other
    | entityReference => exact on
    | entityType => exact kind
    | userReference => exact by'
    | vote => exact ranked
    | createdDate => exact first
    | updatedDate => exact last
    | managerId => exact own
    | scale => exact scaled

theorem AverageRank.exists_ofDocument_iff [Scalar ν] {document : Document ν}
    {target : EntityReference} :
    (∃ average, ofDocument document target = .ok average) ↔ document.DescribesAverage := by
  constructor
  · rintro ⟨average, read⟩
    obtain ⟨-, stored⟩ := ofDocument_eq_ok_iff.1 read
    have number := Int64.toInt_ofNat_of_lt stored.fits.number
    obtain ⟨held, value, worth⟩ := stored.value
    exact
      { value := by
          cases held with
          | double value' => exact .inl ⟨value', value⟩
          | integer value' => exact .inr ⟨value', value⟩
          | text | date => cases worth
        number := ⟨_, stored.others .voteNumber (by decide), by omega⟩
        manager := ⟨_, stored.others .managerId (by decide)⟩
        scale := Document.hasUnsigned_iff.2 ⟨_, stored.others .scale (by decide)⟩
        updated := ⟨_, stored.others .updatedAt (by decide)⟩ }
  · intro describes
    obtain ⟨value, held, stored, worth⟩ : ∃ value : ν, ∃ held,
        document.get? AverageField.average.storedName = some held ∧
          held.asNumber? = some value := by
      obtain ⟨value, held⟩ | ⟨value, held⟩ := describes.value
      · exact ⟨_, _, held, rfl⟩
      · exact ⟨_, _, held, rfl⟩
    obtain ⟨number, counted, positive⟩ := describes.number
    obtain ⟨manager, own⟩ := describes.manager
    obtain ⟨scale, scaled⟩ := Document.hasUnsigned_iff.1 describes.scale
    obtain ⟨updated, whole, last⟩ := Document.hasDate_iff.1 describes.updated
    have small : number.toInt.toNat < 9223372036854775808 := by
      have bound := number.toInt_lt
      omega
    refine ⟨{ id := document.id, manager, target, average := value,
              number := number.toInt.toNat, scale, updated }, ofDocument_eq_ok_iff.2 ⟨rfl, ?_⟩⟩
    refine ⟨rfl, ⟨small, whole⟩, ⟨held, stored, worth⟩, fun field among => ?_⟩
    simp only [List.mem_cons, List.not_mem_nil, or_false] at among
    obtain rfl | rfl | rfl | rfl := among
    · exact own
    · rw [← ofNat_toNat_toInt positive] at counted
      exact counted
    · exact scaled
    · exact last

/-! ## 3. The correspondence -/

theorem Ranking.names_toDocument (vote : Ranking) :
    (vote.toDocument : Document ν).fields.map (·.1) = ["createdAt", "entityType", "managerId",
      "rankedElement", "scale", "updatedAt", "vote", "voter"] := by
  simp only [toDocument, Document.ofFields, Document.set, Document.insertField, fields,
    QueryField.storedName, List.foldl_cons, List.foldl_nil, String.reduceEq, String.reduceLT,
    ↓reduceIte, List.map_cons, List.map_nil]

/-- A vote that was read from a document stores the fields that were read. -/
theorem Ranking.get?_toDocument_of_ofDocument {document : Document ν} {vote : Ranking}
    (read : ofDocument document = .ok vote) {name : String}
    (mem : name ∈ (vote.toDocument : Document ν).fields.map (·.1)) :
    (vote.toDocument : Document ν).get? name = document.get? name := by
  have same (field : QueryField) (other : field ≠ .identifier) :
      (vote.toDocument : Document ν).get? field.storedName = document.get? field.storedName :=
    (get?_toDocument vote other).trans ((ofDocument_eq_ok_iff.1 read).2.2 field other).symm
  rw [names_toDocument] at mem
  simp only [List.mem_cons, List.not_mem_nil, or_false] at mem
  obtain rfl | rfl | rfl | rfl | rfl | rfl | rfl | rfl := mem
  · exact same .createdDate (by decide)
  · exact same .entityType (by decide)
  · exact same .managerId (by decide)
  · exact same .entityReference (by decide)
  · exact same .scale (by decide)
  · exact same .updatedDate (by decide)
  · exact same .vote (by decide)
  · exact same .userReference (by decide)

/-- **Records and documents.**

  1. A vote with dates of whole milliseconds has a document and is read back from it.
  2. Exactly the documents with the fields of a vote can be read as votes.
  3. A vote that was read from a document has a document again if its dates can be negated in their
     words.  This has the identifier and the eight fields of that one, and no others.
  4. An average whose number fits the stored word and whose date is whole milliseconds has a
     document and is read back from it.
  5. Exactly the documents with the fields of an average can be read as averages. -/
theorem records_correspond_to_documents (ν : Type) [Scalar ν] :
    (∀ vote : Ranking, vote.created.IsMillis → vote.updated.IsMillis →
      vote.toDocument? = some (vote.toDocument : Document ν) ∧
        Ranking.ofDocument (vote.toDocument : Document ν) = .ok vote) ∧
    (∀ document : Document ν,
      (∃ vote, Ranking.ofDocument document = .ok vote) ↔ document.DescribesVote) ∧
    (∀ (document : Document ν) (vote : Ranking), Ranking.ofDocument document = .ok vote →
      let stored : Document ν := vote.toDocument
      (vote.IsDated → vote.toDocument? = some stored) ∧
        stored.id = document.id ∧
        stored.fields.map (·.1) = ["createdAt", "entityType", "managerId", "rankedElement",
          "scale", "updatedAt", "vote", "voter"] ∧
        ∀ name ∈ stored.fields.map (·.1), stored.get? name = document.get? name) ∧
    (∀ average : AverageRank ν, average.number < 9223372036854775808 → average.updated.IsMillis →
      average.toDocument? = some average.toDocument ∧
        AverageRank.ofDocument average.toDocument average.target = .ok average) ∧
    ∀ (document : Document ν) (target : EntityReference),
      (∃ average, AverageRank.ofDocument document target = .ok average) ↔
        document.DescribesAverage := by
  refine ⟨fun vote created updated => ?_, fun document => Ranking.exists_ofDocument_iff,
    fun document vote read => ⟨Ranking.toDocument?_eq_some, ?_, vote.names_toDocument,
      fun name => ?_⟩,
    fun average number updated => ?_, fun document target => AverageRank.exists_ofDocument_iff⟩
  · have whole : vote.IsWhole := ⟨created.isWhole, updated.isWhole⟩
    exact ⟨Ranking.toDocument?_eq_some whole.isDated, Ranking.ofDocument_toDocument whole⟩
  · rw [Ranking.id_toDocument, (Ranking.ofDocument_eq_ok_iff.1 read).1]
  · exact Ranking.get?_toDocument_of_ofDocument read
  · have whole := updated.isWhole
    exact ⟨AverageRank.toDocument?_eq_some whole.isDate,
      AverageRank.ofDocument_toDocument ⟨number, whole.isOfWord⟩⟩

/-- A vote of long before the epoch, and an average of it. -/
theorem records_of_old_vote :
    let before : Instant := .ofMillis (-1500)
    let vote : Ranking := .create "v" "stars" ⟨.page, "Main.WebHome"⟩ ⟨"alice"⟩ 4 5 before
    let average : AverageRank Rat :=
      (AverageRank.create "a" "stars" ⟨.page, "Main.WebHome"⟩ 5 before).addVote 4 before
    vote.toDocument? = some (vote.toDocument : Document Rat) ∧
      Ranking.ofDocument (vote.toDocument : Document Rat) = .ok vote ∧
      AverageRank.ofDocument average.toDocument average.target = .ok average ∧
      average.toDocument.DescribesAverage := by
  intro before vote average
  have millis : before.IsMillis := ⟨-1500, by decide, by decide, by decide⟩
  have one : average.number < 9223372036854775808 := by decide
  obtain ⟨votes, -, -, averages, describes⟩ := records_correspond_to_documents Rat
  obtain ⟨made, read⟩ := votes vote millis millis
  have known := (averages average one millis).2
  exact ⟨made, read, known, (describes _ _).1 ⟨average, known⟩⟩

end RankLedger
