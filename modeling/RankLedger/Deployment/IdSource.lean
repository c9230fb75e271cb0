/-!
# Sources of fresh identifiers

A source numbers the identifiers it makes and writes each number behind a stem of its own.  So no
identifier is made twice (`nth_inj`), an identifier tells whether the source made it
(`hasMade_iff`), and a source can be set up to keep clear of any texts that are already in use as
identifiers (`nth_keepClear_notMem`).
-/

namespace RankLedger

structure IdSource where
  /-- What every identifier of the source begins with. -/
  stem : String := "7fb3c9a5-1d84-4e6b-9c05-"
  /-- How many identifiers were made. -/
  made : Nat := 0
  deriving DecidableEq, Repr, Inhabited

namespace IdSource

/-! ## 1. Making identifiers -/

def nth (source : IdSource) (n : Nat) : String :=
  source.stem ++ toString n

def next (source : IdSource) : String × IdSource :=
  (source.nth source.made, { source with made := source.made + 1 })

theorem toList_nth (source : IdSource) (n : Nat) :
    (source.nth n).toList = source.stem.toList ++ Nat.toDigits 10 n := by
  simp [nth, String.toList_append]

/-! ## 2. Recognizing identifiers -/

def numberIn (source : IdSource) (id : String) : Nat :=
  Nat.ofDigitChars 10 (id.toList.drop source.stem.length) 0

def hasMade (source : IdSource) (id : String) : Bool :=
  decide (source.numberIn id < source.made) && source.nth (source.numberIn id) == id

@[simp] theorem numberIn_nth (source : IdSource) (n : Nat) :
    source.numberIn (source.nth n) = n := by
  simp [numberIn, toList_nth, ← String.length_toList]

theorem nth_inj (source : IdSource) {m n : Nat} : source.nth m = source.nth n ↔ m = n := by
  constructor
  · intro h
    simpa using congrArg source.numberIn h
  · rintro rfl
    rfl

theorem hasMade_iff (source : IdSource) (id : String) :
    source.hasMade id = true ↔ ∃ n, n < source.made ∧ source.nth n = id := by
  simp only [hasMade, Bool.and_eq_true, decide_eq_true_eq, beq_iff_eq]
  constructor
  · intro h
    exact ⟨_, h⟩
  · rintro ⟨n, hn, rfl⟩
    simpa using hn

/-- What was made remains made, and the next identifier is the only one that joins it. -/
theorem hasMade_next (source : IdSource) (id : String) :
    source.next.2.hasMade id = true ↔ id = source.next.1 ∨ source.hasMade id = true := by
  have stays : ∀ n, source.next.2.nth n = source.nth n := fun _ => rfl
  simp only [hasMade_iff, stays]
  constructor
  · rintro ⟨n, hn, rfl⟩
    rcases Nat.lt_or_eq_of_le (Nat.le_of_lt_succ hn) with lt | rfl
    · exact .inr ⟨n, lt, rfl⟩
    · exact .inl rfl
  · rintro (rfl | ⟨n, hn, rfl⟩)
    · exact ⟨source.made, Nat.lt_succ_self _, rfl⟩
    · exact ⟨n, Nat.lt_succ_of_lt hn, rfl⟩

/-! ## 3. Keeping clear of texts in use -/

def longestBehind (stem : String) (texts : List String) : Nat :=
  ((texts.filter fun text => decide (stem.toList <+: text.toList)).map String.length).max?.getD 0

theorem length_le_longestBehind {stem text : String} {texts : List String} (mem : text ∈ texts)
    (begins : stem.toList <+: text.toList) : text.length ≤ longestBehind stem texts :=
  List.le_max?_getD_of_mem
    (List.mem_map_of_mem (List.mem_filter.2 ⟨mem, decide_eq_true begins⟩))

def keepClear (source : IdSource) (texts : List String) : IdSource :=
  { source with
    stem := source.stem ++
      String.ofList (List.replicate (longestBehind source.stem texts) '0') }

theorem nth_keepClear_notMem (source : IdSource) (texts : List String) (n : Nat) :
    (source.keepClear texts).nth n ∉ texts := by
  intro used
  have begins : source.stem.toList <+: ((source.keepClear texts).nth n).toList := by
    rw [toList_nth]
    simp only [keepClear, String.toList_append, List.append_assoc]
    exact List.prefix_append ..
  have short := length_le_longestBehind used begins
  rw [← String.length_toList, toList_nth] at short
  simp only [keepClear, String.toList_append, String.toList_ofList, List.length_append,
    List.length_replicate] at short
  have : 0 < (Nat.toDigits 10 n).length := Nat.length_toDigits_pos
  omega

end IdSource

end RankLedger
