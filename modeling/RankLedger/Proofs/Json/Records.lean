import RankLedger.Json.Record
import RankLedger.Proofs.Json.Fields

/-!
# Entities, votes and averages in JSON

What is written of an entity, a vote or an average is read as the same entity, vote or average.  A
vote or an average can be written if its dates are at or after the epoch.

**Shape.** The object is taken apart into its fields, and each field has a reader that gives back
what its writer was given.  The 64-bit bounds of counts and dates are numbers the kernel should not
count up to, so equations between readers are used as rewrites, not by evaluation
(`-implicitDefEqProofs`).
-/

namespace RankLedger

variable {ν : Type}

/-! ## 1. Entities, users and instants -/

namespace EntityReference

theorem isWritten_toJson (entity : EntityReference) : entity.toJson.IsWritten := by
  refine Json.isWritten_ofMembers ?_
  simp only [List.forall_mem_cons]
  exact ⟨Json.isWritten_ofText _, Json.isWritten_ofText _, List.forall_mem_nil _⟩

theorem ofJson?_toJson (entity : EntityReference) : ofJson? entity.toJson = some entity := by
  have named : EntityType.ofJson? entity.entityType.toJson = some entity.entityType :=
    EntityType.ofName?_name _
  rw [ofJson?, toJson, Json.fields?_ofMembers]
  case named => rfl
  case distinct => simp
  simp [named, Json.text?_ofText]

def format (ν : Type) : Json.Format ν EntityReference where
  toJson? entity := some entity.toJson
  ofJson? := ofJson?
  contents _ := {}

theorem isLawful_format [Scalar ν] : (format ν).IsLawful where
  isSome_iff _ := iff_of_true rfl (List.forall_mem_nil _)
  isWritten {entity _} same _ := Option.some.inj same ▸ entity.isWritten_toJson
  reads {entity _} same _ := Option.some.inj same ▸ entity.ofJson?_toJson

end EntityReference

theorem UserReference.ofJson?_toJson (user : UserReference) : ofJson? user.toJson = some user :=
  rfl

namespace Instant

theorem isSome_toJson?_iff (instant : Instant) :
    instant.toJson?.isSome = true ↔ epoch.nanos ≤ instant.nanos := by
  rw [toJson?, Option.isSome_map, isSome_sinceEpoch?_iff]
  rfl

theorem isWritten_of_toJson? {instant : Instant} {json : Json} (h : instant.toJson? = some json) :
    json.IsWritten := by
  obtain ⟨parts, -, rfl⟩ := Option.map_eq_some_iff.1 h
  refine Json.isWritten_ofMembers ?_
  simp only [List.forall_mem_cons]
  exact ⟨Json.isWritten_ofNat _, Json.isWritten_ofNat _, List.forall_mem_nil _⟩

theorem ofJson?_of_toJson? {instant : Instant} {json : Json} (h : instant.toJson? = some json) :
    ofJson? json = some instant := by
  obtain ⟨⟨seconds, nanoseconds⟩, since, rfl⟩ := Option.map_eq_some_iff.1 h
  obtain ⟨fits, small⟩ : seconds < 2 ^ 64 ∧ nanoseconds < 2 ^ 32 := by
    have := instant.bounded
    unfold sinceEpoch? at since
    split at since
    · cases since
      omega
    · cases since
  have back : ofSinceEpoch? seconds (UInt32.ofNat nanoseconds).toNat = some instant := by
    rw [UInt32.toNat_ofNat_of_lt' small]
    exact ofSinceEpoch?_of_sinceEpoch? since
  rw [ofJson?, Json.closedFields?_ofMembers]
  case named => rfl
  case distinct => simp
  simp -implicitDefEqProofs only [List.map_cons, List.map_nil, Option.bind_eq_bind,
    Option.bind_some, Json.count?_ofNat fits, Json.uint32?_ofNat small, back]

end Instant

/-! ## 2. Votes -/

namespace Ranking

theorem toJson?_eq_some_iff {ranking : Ranking} {json : Json} :
    ranking.toJson? = some json ↔ ∃ created, ranking.created.toJson? = some created ∧
      ∃ updated, ranking.updated.toJson? = some updated ∧ json = .ofMembers
        [("id", .ofText ranking.id), ("manager_id", .ofText ranking.manager),
          ("ranked_element", ranking.target.toJson), ("voter", ranking.voter.toJson),
          ("rank", .ofNat ranking.rank.toNat), ("scale", .ofNat ranking.scale.toNat),
          ("created_at", created), ("updated_at", updated)] := by
  simp only [toJson?, Option.bind_eq_bind, Option.bind_eq_some_iff, Option.pure_def,
    Option.some.injEq, eq_comm (b := json)]

def format (ν : Type) : Json.Format ν Ranking where
  toJson? := toJson?
  ofJson? := ofJson?
  contents ranking := { instants := [ranking.created, ranking.updated] }

theorem isLawful_format [Scalar ν] : (format ν).IsLawful where
  isSome_iff ranking := by
    show ranking.toJson?.isSome = true ↔ ∀ instant ∈ [ranking.created, ranking.updated], _
    simp only [List.forall_mem_cons, ← Instant.isSome_toJson?_iff]
    cases h : ranking.created.toJson? <;> cases h' : ranking.updated.toJson? <;>
      simp [toJson?, h, h']
  isWritten {ranking json} h _ := by
    obtain ⟨created, hc, updated, hu, rfl⟩ := toJson?_eq_some_iff.1 h
    refine Json.isWritten_ofMembers ?_
    simp only [List.forall_mem_cons]
    exact ⟨Json.isWritten_ofText _, Json.isWritten_ofText _, ranking.target.isWritten_toJson,
      Json.isWritten_ofText _, Json.isWritten_ofNat _, Json.isWritten_ofNat _,
      Instant.isWritten_of_toJson? hc, Instant.isWritten_of_toJson? hu, List.forall_mem_nil _⟩
  reads {ranking json} h _ := by
    obtain ⟨created, hc, updated, hu, rfl⟩ := toJson?_eq_some_iff.1 h
    show ofJson? _ = _
    rw [ofJson?, Json.fields?_ofMembers]
    case named => rfl
    case distinct => simp
    simp -implicitDefEqProofs only [List.map_cons, List.map_nil, Option.bind_eq_bind,
      Option.bind_some, Option.pure_def, Json.text?_ofText, EntityReference.ofJson?_toJson,
      UserReference.ofJson?_toJson, Json.uint32?_ofNat_toNat, Instant.ofJson?_of_toJson? hc,
      Instant.ofJson?_of_toJson? hu]

end Ranking

/-! ## 3. Averages -/

namespace AverageRank

variable [JsonNumber ν]

theorem toJson?_eq_some_iff {average : AverageRank ν} {json : Json} :
    average.toJson? = some json ↔ ∃ updated, average.updated.toJson? = some updated ∧
      json = .ofMembers
        [("id", .ofText average.id), ("manager_id", .ofText average.manager),
          ("ranked_element", average.target.toJson), ("average", .ofNumber average.average),
          ("ranking_number", .ofNat average.number), ("scale", .ofNat average.scale.toNat),
          ("updated_at", updated)] := by
  simp only [toJson?, Option.bind_eq_bind, Option.bind_eq_some_iff, Option.pure_def,
    Option.some.injEq, eq_comm (b := json)]

def format (ν : Type) [JsonNumber ν] : Json.Format ν (AverageRank ν) where
  toJson? := toJson?
  ofJson? := ofJson?
  contents average :=
    { instants := [average.updated], numbers := [average.average], counts := [average.number] }

theorem isLawful_format [Scalar ν] [LawfulJsonNumber ν] (back : JsonNumber.ReadsBack ν) :
    (format ν).IsLawful where
  isSome_iff average := by
    show average.toJson?.isSome = true ↔ ∀ instant ∈ [average.updated], _
    rw [List.forall_mem_singleton, ← Instant.isSome_toJson?_iff]
    cases h : average.updated.toJson? <;> simp [toJson?, h]
  isWritten {average json} h finite := by
    obtain ⟨updated, hu, rfl⟩ := toJson?_eq_some_iff.1 h
    refine Json.isWritten_ofMembers ?_
    simp only [List.forall_mem_cons]
    exact ⟨Json.isWritten_ofText _, Json.isWritten_ofText _, average.target.isWritten_toJson,
      Json.isWritten_ofNumber (finite.1 _ (List.mem_singleton_self _)), Json.isWritten_ofNat _,
      Json.isWritten_ofNat _, Instant.isWritten_of_toJson? hu, List.forall_mem_nil _⟩
  reads {average json} h finite := by
    obtain ⟨updated, hu, rfl⟩ := toJson?_eq_some_iff.1 h
    have hnumber := Json.number?_ofNumber back (finite.1 _ (List.mem_singleton_self _))
    have hcount := Json.count?_ofNat (finite.2 _ (List.mem_singleton_self _))
    show ofJson? _ = _
    rw [ofJson?, Json.fields?_ofMembers]
    case named => rfl
    case distinct => simp
    simp -implicitDefEqProofs only [List.map_cons, List.map_nil, Option.bind_eq_bind,
      Option.bind_some, Option.pure_def, Json.text?_ofText, EntityReference.ofJson?_toJson,
      hnumber, hcount, Json.uint32?_ofNat_toNat, Instant.ofJson?_of_toJson? hu]

end AverageRank

end RankLedger
