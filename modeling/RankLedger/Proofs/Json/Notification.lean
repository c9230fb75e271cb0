import RankLedger.Emitter
import RankLedger.Proofs.Json.Records

/-!
# Notifications survive being sent

A notification that is written as a text and read from it is the same notification, and so are its
parts: events, records with their kind, votes, averages and entities (`notifications_round_trip`).
It has a text exactly if all its instants are at or after the epoch, and every listener on the
channel of its event can read what it receives (`Emitter.listeners_can_read`).

**Kinds.** The text of an event begins with its kind (`RankingEvent.exists_write?_eq`), and the text
of a record stands in an object that has the kind as its only key (`EventData.write?_ranking`,
`EventData.write?_average`).

**Reading ahead.** The kind of an event is found before the rest of it is looked at, and everything
inside of the event has to be plain for that.  What is written of an event is: counts stay integers,
and a number is one that was written by its own type.
-/

namespace RankLedger

variable {ν : Type} [Scalar ν] [JsonNumber ν]

/-! ## 1. Events -/

omit [Scalar ν] in
theorem Json.isPlainNumber_ofNat {n : Nat} (fits : n < 2 ^ 64) :
    isPlainNumber ν (NumberText.ofNat n) = true := by
  have whole : (ofNat n).integer? (-0x8000000000000000) 0x10000000000000000 = some (n : Int) :=
    integer?_ofNat (by omega) (by omega)
  rw [isPlainNumber, Bool.or_eq_true]
  exact .inl (Option.isSome_iff_exists.2 ⟨_, whole⟩)

theorem Json.isPlain_ofNumber (back : JsonNumber.ReadsBack ν) {x : ν}
    (finite : Scalar.isFinite x = true) (depth : Nat) : (ofNumber x).isPlain ν depth = true := by
  obtain ⟨written, same, read⟩ := Option.bind_eq_some_iff.1 (back x finite)
  simp [ofNumber, same, isPlain, isPlainNumber, read]

omit [Scalar ν] in
theorem Json.isPlain_ofMembers {depth : Nat} {members : List (String × Json)}
    (h : ∀ member ∈ members, member.2.isPlain ν depth = true) :
    (ofMembers members).isPlain ν (depth + 1) = true := by
  rw [ofMembers, isPlain, List.all_eq_true]
  intro written mem
  obtain ⟨member, inside, rfl⟩ := List.mem_map.1 mem
  exact h member inside

namespace RankingEvent

omit [Scalar ν] in
/-- The kind stands first and is taken away before the other members are looked at. -/
theorem ofJson?_ofMembers {outside : Nat} {kind : String} {members : List (String × Json)}
    (plain : (Json.ofMembers (("type", .ofText kind) :: members)).isPlain ν (maxOpen - outside))
    (untyped : ∀ member ∈ members, member.1 ≠ "type") :
    (ofJson? outside (.ofMembers (("type", .ofText kind) :: members)) : Option (RankingEvent ν)) =
      ofContent? kind (.ofMembers members) := by
  have kept : (("type", Json.ofText kind) :: members).filter (fun member => member.1 != "type") =
      members := by
    rw [List.filter_cons, if_neg (by simp)]
    exact List.filter_eq_self.2 fun member mem => bne_iff_ne.2 (untyped member mem)
  have found : Json.field? (("type", Json.ofText kind) :: members) "type" =
      some (some (.ofText kind)) := by
    rw [Json.field?, List.filter_cons, if_pos (beq_self_eq_true _),
      List.filter_eq_nil_iff.2 fun member mem same => untyped member mem (beq_iff_eq.1 same)]
  unfold ofJson?
  rw [guard, if_pos plain]
  show ((Json.textMembers? _).bind _) = _
  rw [Json.textMembers?_ofMembers]
  simp -implicitDefEqProofs only [Option.bind_eq_bind, Option.bind_some, found, Json.text?_ofText,
    kept]

def contents : RankingEvent ν → Contents ν
  | averageUpdated oldAverage oldCount => { numbers := [oldAverage], counts := [oldCount] }
  | _ => {}

theorem isWritten_toJson [LawfulJsonNumber ν] {event : RankingEvent ν}
    (finite : event.contents.AreFinite) : event.toJson.IsWritten := by
  cases event with
  | created | deleted =>
      exact Json.isWritten_ofMembers (List.forall_mem_singleton.2 (Json.isWritten_ofText _))
  | updated oldRank =>
      refine Json.isWritten_ofMembers ?_
      simp only [List.forall_mem_cons]
      exact ⟨Json.isWritten_ofText _, Json.isWritten_ofNat _, List.forall_mem_nil _⟩
  | averageUpdated oldAverage oldCount =>
      refine Json.isWritten_ofMembers ?_
      simp only [List.forall_mem_cons]
      exact ⟨Json.isWritten_ofText _,
        Json.isWritten_ofNumber (finite.1 _ (List.mem_singleton_self _)), Json.isWritten_ofNat _,
        List.forall_mem_nil _⟩

/-- An event is read as what it was, wherever nesting is not yet exhausted. -/
theorem ofJson?_toJson (back : JsonNumber.ReadsBack ν) {outside : Nat} (inside : outside < maxOpen)
    {event : RankingEvent ν} (finite : event.contents.AreFinite) :
    ofJson? outside event.toJson = some event := by
  -- members are read ahead inside the object of the event, which is one level deeper
  obtain ⟨depth, same⟩ : ∃ depth, maxOpen - outside = depth + 1 :=
    Nat.exists_eq_add_one.2 (Nat.sub_pos_of_lt inside)
  have kind : ∀ text, (Json.ofText text).isPlain ν depth = true := fun text => by
    simp [Json.ofText, Json.isPlain]
  have count : ∀ {n : Nat}, n < 2 ^ 64 → (Json.ofNat n).isPlain ν depth = true := fun fits => by
    simp [Json.ofNat, Json.isPlain, Json.isPlainNumber_ofNat fits]
  cases event with
  | created | deleted =>
      rw [toJson, ofJson?_ofMembers, ofContent?, Json.fields?_ofMembers]
      case named => rfl
      case distinct => exact List.nodup_nil
      case plain =>
        rw [same]
        exact Json.isPlain_ofMembers (List.forall_mem_singleton.2 (kind _))
      case untyped => exact List.forall_mem_nil _
      rfl
  | updated oldRank =>
      have small := oldRank.toNat_lt
      rw [toJson, ofJson?_ofMembers, ofContent?, Json.fields?_ofMembers]
      case named => rfl
      case distinct => simp
      case plain =>
        rw [same]
        refine Json.isPlain_ofMembers ?_
        simp only [List.forall_mem_cons]
        exact ⟨kind _, count (by omega), List.forall_mem_nil _⟩
      case untyped => simp
      simp -implicitDefEqProofs only [List.map_cons, List.map_nil, Option.bind_eq_bind,
        Option.bind_some, Option.pure_def, Json.uint32?_ofNat_toNat]
  | averageUpdated oldAverage oldCount =>
      have measured := finite.1 _ (List.mem_singleton_self _)
      have fits := finite.2 _ (List.mem_singleton_self _)
      rw [toJson, ofJson?_ofMembers, ofContent?, Json.fields?_ofMembers]
      case named => rfl
      case distinct => simp
      case plain =>
        rw [same]
        refine Json.isPlain_ofMembers ?_
        simp only [List.forall_mem_cons]
        exact ⟨kind _, Json.isPlain_ofNumber back measured depth, count fits,
          List.forall_mem_nil _⟩
      case untyped => simp
      simp -implicitDefEqProofs only [List.map_cons, List.map_nil, Option.bind_eq_bind,
        Option.bind_some, Option.pure_def, Json.number?_ofNumber back measured,
        Json.count?_ofNat fits]

def kind : RankingEvent ν → String
  | created => "Created"
  | updated _ => "Updated"
  | deleted => "Deleted"
  | averageUpdated _ _ => "AverageUpdated"

def format (ν : Type) [JsonNumber ν] : Json.Format ν (RankingEvent ν) where
  toJson? event := some event.toJson
  ofJson? := ofJson? 0
  contents := contents

theorem isLawful_format [LawfulJsonNumber ν] (back : JsonNumber.ReadsBack ν) :
    (format ν).IsLawful where
  isSome_iff event := by
    refine iff_of_true rfl ?_
    cases event <;> exact List.forall_mem_nil _
  isWritten {event _} same finite := Option.some.inj same ▸ isWritten_toJson finite
  reads {event _} same finite := Option.some.inj same ▸ ofJson?_toJson back (by decide) finite

omit [Scalar ν] in
/-- The kind of an event stands inside of the event, before everything else. -/
theorem exists_write?_eq (event : RankingEvent ν) : ∃ rest, (format ν).write? event =
    some ("\x7b\"type\":\"" ++ event.kind ++ "\"" ++ rest) := by
  have plain : Json.IsPlainText event.kind := by
    cases event <;> rw [kind] <;> decide
  obtain ⟨others, same⟩ : ∃ others,
      event.toJson = .ofMembers (("type", .ofText event.kind) :: others) := by
    cases event <;> exact ⟨_, rfl⟩
  obtain ⟨rest, text⟩ :=
    Json.exists_text_ofMembers (show Json.IsPlainText "type" from rfl) (.ofText event.kind) others
  refine ⟨rest, congrArg some ?_⟩
  rw [same, text, Json.text_ofText plain, ← String.toList_inj]
  simp

end RankingEvent

/-! ## 2. Notifications -/

namespace EventData

def format (ν : Type) [JsonNumber ν] : Json.Format ν (EventData ν) where
  toJson? := toJson?
  ofJson? := ofJson?
  contents
    | ranking record => (Ranking.format ν).contents record
    | average record => (AverageRank.format ν).contents record

theorem isLawful_format [LawfulJsonNumber ν] (back : JsonNumber.ReadsBack ν) :
    (format ν).IsLawful where
  isSome_iff data := by
    cases data with
    | ranking record =>
        exact Option.isSome_map.symm ▸ Ranking.isLawful_format.isSome_iff record
    | average record =>
        exact Option.isSome_map.symm ▸ (AverageRank.isLawful_format back).isSome_iff record
  isWritten {data json} h finite := by
    cases data with
    | ranking record =>
        obtain ⟨written, same, rfl⟩ := Option.map_eq_some_iff.1 h
        exact Json.isWritten_ofMembers
          (List.forall_mem_singleton.2 (Ranking.isLawful_format.isWritten same finite))
    | average record =>
        obtain ⟨written, same, rfl⟩ := Option.map_eq_some_iff.1 h
        exact Json.isWritten_ofMembers
          (List.forall_mem_singleton.2 ((AverageRank.isLawful_format back).isWritten same finite))
  reads {data json} h finite := by
    cases data with
    | ranking record =>
        obtain ⟨written, same, rfl⟩ := Option.map_eq_some_iff.1 h
        exact congrArg (Option.map ranking) (Ranking.isLawful_format.reads same finite)
    | average record =>
        obtain ⟨written, same, rfl⟩ := Option.map_eq_some_iff.1 h
        exact congrArg (Option.map average)
          ((AverageRank.isLawful_format back).reads same finite)

omit [Scalar ν] in
/-- The kind of a record stands around the record. -/
theorem write?_ranking (record : Ranking) : (format ν).write? (.ranking record) =
    ((Ranking.format ν).write? record).map fun text => "\x7b\"Ranking\":" ++ text ++ "\x7d" :=
  Json.map_text_ofMembers_singleton (show Json.IsPlainText "Ranking" from rfl) record.toJson?

omit [Scalar ν] in
theorem write?_average (record : AverageRank ν) : (format ν).write? (.average record) =
    ((AverageRank.format ν).write? record).map fun text =>
      "\x7b\"AverageRank\":" ++ text ++ "\x7d" :=
  Json.map_text_ofMembers_singleton (show Json.IsPlainText "AverageRank" from rfl) record.toJson?

end EventData

namespace Notification

omit [Scalar ν] in
theorem toJson?_eq_some_iff {notification : Notification ν} {json : Json} :
    notification.toJson? = some json ↔ ∃ data, notification.data.toJson? = some data ∧
      json = .ofMembers [("event", notification.event.toJson),
        ("source", .ofText notification.source), ("data", data)] := by
  simp only [toJson?, Option.bind_eq_bind, Option.bind_eq_some_iff, Option.pure_def,
    Option.some.injEq, eq_comm (b := json)]

def format (ν : Type) [JsonNumber ν] : Json.Format ν (Notification ν) where
  toJson? := toJson?
  ofJson? := ofJson?
  contents notification :=
    notification.event.contents.append ((EventData.format ν).contents notification.data)

theorem isLawful_format [LawfulJsonNumber ν] (back : JsonNumber.ReadsBack ν) :
    (format ν).IsLawful where
  isSome_iff notification := by
    have event : notification.event.contents.AreDated :=
      ((RankingEvent.isLawful_format back).isSome_iff notification.event).1 rfl
    have data := (EventData.isLawful_format back).isSome_iff notification.data
    show notification.toJson?.isSome = true ↔ Contents.AreDated (.append _ _)
    rw [Contents.areDated_append, and_iff_right event, ← data]
    show _ ↔ notification.data.toJson?.isSome = true
    cases h : notification.data.toJson? <;> simp [toJson?, h]
  isWritten {notification json} h finite := by
    obtain ⟨data, hd, rfl⟩ := toJson?_eq_some_iff.1 h
    obtain ⟨event, record⟩ := Contents.areFinite_append.1 finite
    refine Json.isWritten_ofMembers ?_
    simp only [List.forall_mem_cons]
    exact ⟨RankingEvent.isWritten_toJson event, Json.isWritten_ofText _,
      (EventData.isLawful_format back).isWritten hd record, List.forall_mem_nil _⟩
  reads {notification json} h finite := by
    obtain ⟨data, hd, rfl⟩ := toJson?_eq_some_iff.1 h
    obtain ⟨event, record⟩ := Contents.areFinite_append.1 finite
    have hevent := RankingEvent.ofJson?_toJson back (by decide : 1 < maxOpen) event
    have hdata : EventData.ofJson? data = some notification.data :=
      (EventData.isLawful_format back).reads hd record
    show ofJson? _ = _
    rw [ofJson?, Json.fields?_ofMembers]
    case named => rfl
    case distinct => simp
    simp -implicitDefEqProofs only [List.map_cons, List.map_nil, Option.bind_eq_bind,
      Option.bind_some, Option.pure_def, Json.text?_ofText, hevent, hdata]

end Notification

/-! ## 3. Listeners -/

namespace Emitter

/-- **Listeners can read what they receive.**  Everyone who listens to the channel of the event
    receives one text more, the same for all, from which the notification can be read. -/
theorem listeners_can_read [LawfulJsonNumber ν] (back : JsonNumber.ReadsBack ν) (emitter : Emitter)
    {notification : Notification ν}
    (dated : ((Notification.format ν).contents notification).AreDated)
    (finite : ((Notification.format ν).contents notification).AreFinite) :
    ∃ text, (Notification.format ν).read? text = some notification ∧
      (emitter.emit notification).listeners = emitter.listeners.map fun listener =>
        if listener.channel = notification.event.channel then
          { listener with received := listener.received ++ [text] }
        else listener := by
  have lawful := Notification.isLawful_format back
  obtain ⟨json, same⟩ := Option.isSome_iff_exists.1 ((lawful.isSome_iff notification).2 dated)
  have written : (Notification.format ν).write? notification = some json.text :=
    congrArg (Option.map Json.text) same
  obtain ⟨received, read, equal, -⟩ := lawful.roundTrips.returns _ _ written finite
  have sent : notification.toJson? = some json := same
  refine ⟨json.text, equal ▸ read, ?_⟩
  rw [emit, sent]
  rfl

/-- A notification that has no text is not sent. -/
theorem emit_of_undated [LawfulJsonNumber ν] (back : JsonNumber.ReadsBack ν) (emitter : Emitter)
    {notification : Notification ν}
    (undated : ¬ ((Notification.format ν).contents notification).AreDated) :
    emitter.emit notification = emitter := by
  have unsent : Notification.toJson? notification = none := by
    rw [← Option.not_isSome_iff_eq_none]
    exact fun sent => undated (((Notification.isLawful_format back).isSome_iff _).1 sent)
  rw [emit, unsent]

end Emitter

/-! ## 4. Round trips -/

/-- **Notifications survive being sent**, and so do their parts: each has a text exactly if all its
    instants are at or after the epoch, and if its numbers are finite, too, its text is read as an
    equal value, which is written as the same text.  Nothing is asked of the texts it holds, and of
    the number type only that it reads back what it writes; doubles are written lawfully.

    An event names its kind inside of itself, and a record has the name of its kind around it. -/
theorem notifications_round_trip [LawfulJsonNumber ν] (back : JsonNumber.ReadsBack ν) :
    (Notification.format ν).RoundTrips ∧ (RankingEvent.format ν).RoundTrips ∧
      (EventData.format ν).RoundTrips ∧ (Ranking.format ν).RoundTrips ∧
      (AverageRank.format ν).RoundTrips ∧ (EntityReference.format ν).RoundTrips ∧
      (∀ event, ∃ rest, (RankingEvent.format ν).write? event =
        some ("\x7b\"type\":\"" ++ event.kind ++ "\"" ++ rest)) ∧
      (∀ record, (EventData.format ν).write? (.ranking record) =
        ((Ranking.format ν).write? record).map fun text =>
          "\x7b\"Ranking\":" ++ text ++ "\x7d") ∧
      ∀ record, (EventData.format ν).write? (.average record) =
        ((AverageRank.format ν).write? record).map fun text =>
          "\x7b\"AverageRank\":" ++ text ++ "\x7d" :=
  ⟨(Notification.isLawful_format back).roundTrips, (RankingEvent.isLawful_format back).roundTrips,
    (EventData.isLawful_format back).roundTrips, Ranking.isLawful_format.roundTrips,
    (AverageRank.isLawful_format back).roundTrips, EntityReference.isLawful_format.roundTrips,
    RankingEvent.exists_write?_eq, EventData.write?_ranking, EventData.write?_average⟩

structure WholeDouble where
  value : Nat
  deriving DecidableEq, Repr

namespace WholeDouble

instance : Scalar WholeDouble where
  add a b := ⟨a.value + b.value⟩
  sub a b := ⟨a.value - b.value⟩
  mul a b := ⟨a.value * b.value⟩
  div a b := ⟨a.value / b.value⟩
  ofCount n := ⟨n⟩
  ofInt64 n := ⟨n.toInt.toNat⟩
  same a b := a == b
  compare? a b := some (compare a.value b.value)
  isFinite a := decide (a.value < 10 ^ 16)

instance : JsonNumber WholeDouble where
  write? a :=
    if a.value < 10 ^ 16 then some { whole := Digits.ofNat a.value, fraction := [Digit.zero] }
    else none
  read? written :=
    if written.negative = false ∧ written.exponent = none ∧ written.fraction = [Digit.zero] then
      some ⟨Digits.value written.whole⟩
    else none

instance : LawfulJsonNumber WholeDouble where
  write? _ finite :=
    ⟨_, if_pos (of_decide_eq_true finite), Digits.isNumeral_ofNat _,
      fun _ written => nomatch written⟩

theorem readsBack : JsonNumber.ReadsBack WholeDouble := by
  intro a finite
  have written : JsonNumber.write? a = some
      { whole := Digits.ofNat a.value, fraction := [Digit.zero] : NumberText } :=
    if_pos (of_decide_eq_true finite)
  rw [written, Option.bind_some]
  show some (WholeDouble.mk (Digits.value (Digits.ofNat a.value))) = some a
  rw [Digits.value_ofNat]

end WholeDouble

def Notification.firstStars : Notification WholeDouble where
  event := .averageUpdated ⟨0⟩ 0
  source := "\"stars\"\n★"
  data := .average
    { id := "a", manager := "stars", target := ⟨.document, "xwiki:Main.WebHome"⟩, average := ⟨3⟩,
      number := 1, scale := 5, updated := ⟨1700000000123456789, by decide⟩ }

theorem firstStars_round_trip :
    ∃ text back, (Notification.format WholeDouble).write? .firstStars = some text ∧
      (Notification.format WholeDouble).read? text = some back ∧ back = .firstStars ∧
      (Notification.format WholeDouble).write? back = some text := by
  have trips := (notifications_round_trip WholeDouble.readsBack).1
  have dated : ((Notification.format WholeDouble).contents .firstStars).AreDated :=
    List.forall_mem_singleton.2 (by decide)
  obtain ⟨text, written⟩ := Option.isSome_iff_exists.1 ((trips.written_iff _).2 dated)
  have finite : ((Notification.format WholeDouble).contents .firstStars).AreFinite :=
    ⟨List.forall_mem_cons.2 ⟨rfl, List.forall_mem_singleton.2 rfl⟩,
      List.forall_mem_cons.2 ⟨by decide, List.forall_mem_singleton.2 (by decide)⟩⟩
  obtain ⟨back, read, same, again⟩ := trips.returns _ _ written finite
  exact ⟨text, back, written, read, same, again⟩

end RankLedger
