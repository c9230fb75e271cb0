/-!
# Instants

A point in time is a number of nanoseconds counted from the Unix epoch, negative before it.
Its whole seconds fit a signed 64-bit word (`Instant.bounded`).  Stored dates are coarser: whole
milliseconds in a signed 64-bit word.  Going to milliseconds drops the fraction *toward the
epoch*, on either side of it; an instant too far away for the word wraps around.

**Overflow.** Before the epoch the distance is narrowed to the word and then negated in it.  The
smallest word has no negative, so an instant whose distance narrows to it has no milliseconds
(`Instant.toMillis?`), and a program that asks for them breaks off.  `Instant.millis` is the number
itself, without the steps: where there are milliseconds, they are this number
(`Instant.toMillis?_eq`).
-/

namespace RankLedger

structure Instant where
  nanos : Int
  bounded : -9223372036854775808000000000 ≤ nanos ∧ nanos < 9223372036854775808000000000
  deriving DecidableEq, Repr

/-- The negative of a word.  The smallest one has none. -/
def negated? (word : Int64) : Option Int64 :=
  if word = Int64.minValue then none else some (-word)

theorem neg_eq_minValue_iff {word : Int64} : -word = Int64.minValue ↔ word = Int64.minValue := by
  have smallest : -Int64.minValue = Int64.minValue := by decide
  constructor
  · intro h
    rw [← @Int64.neg_neg word, h, smallest]
  · rintro rfl
    exact smallest

theorem eq_minValue_iff {word : Int64} :
    word = Int64.minValue ↔ word.toInt = -9223372036854775808 := by
  rw [← Int64.toInt_inj, Int64.toInt_minValue]
  exact Iff.rfl

namespace Instant

/-- Two instants are equal when they are equally far from the epoch. -/
theorem eq_of_nanos_eq {a b : Instant} (h : a.nanos = b.nanos) : a = b := by
  cases a; cases b; simp_all

def epoch : Instant := ⟨0, by decide⟩

instance : Inhabited Instant := ⟨epoch⟩

/-! ## 1. Milliseconds -/

def millisAway (t : Instant) : Nat :=
  t.nanos.natAbs / 1000000

/-- Whole milliseconds from the epoch, truncated toward it, in a 64-bit word: the distance is
    narrowed to the word first and then, before the epoch, negated in it, if it can be. -/
def toMillis? (t : Instant) : Option Int64 :=
  if 0 ≤ t.nanos then some (Int64.ofNat t.millisAway) else negated? (Int64.ofNat t.millisAway)

def ofMillisAndNanos (m : Int64) (nanos : UInt64) : Instant :=
  ⟨m.toInt * 1000000 + nanos.toNat, by
    have h₁ := m.le_toInt
    have h₂ := m.toInt_lt
    have h₃ := nanos.toNat_lt
    omega⟩

def ofMillis (m : Int64) : Instant :=
  ofMillisAndNanos m 0

/-- The instant as it is stored: the fraction of its last millisecond is dropped. -/
def truncated? (t : Instant) : Option Instant :=
  t.toMillis?.map ofMillis

def millis (t : Instant) : Int64 :=
  Int64.ofInt (t.nanos.tdiv 1000000)

/-- The instant can be stored, and once more after it was read back.  The largest distance before
    the epoch cannot, and what wraps around to it only once. -/
def IsDate (t : Instant) : Prop :=
  t.millis ≠ Int64.minValue

instance (t : Instant) : Decidable t.IsDate :=
  inferInstanceAs (Decidable (_ ≠ _))

/-- A date as it is stored.  The epoch stands in for an instant that is none. -/
def truncated (t : Instant) : Instant :=
  if t.IsDate then ofMillis t.millis else epoch

@[simp] theorem nanos_ofMillis (m : Int64) : (ofMillis m).nanos = m.toInt * 1000000 := by
  simp [ofMillis, ofMillisAndNanos]

theorem tdiv_eq (t : Instant) :
    t.nanos.tdiv 1000000 = if 0 ≤ t.nanos then (t.millisAway : Int) else -t.millisAway := by
  unfold millisAway
  split
  · next after =>
    rw [Int.tdiv_eq_ediv_of_nonneg after]
    omega
  · next before =>
    have distance : t.nanos = -(t.nanos.natAbs : Int) := by omega
    rw [distance, Int.neg_tdiv, Int.tdiv_eq_ediv_of_nonneg (by omega), Int.natAbs_neg,
      Int.natAbs_natCast]
    rfl

/-- **Milliseconds** are the quotient toward zero, wrapped around to 64 bits; an instant before the
    epoch has none if they are the smallest word. -/
theorem toMillis?_eq (t : Instant) :
    t.toMillis? = if t.nanos < 0 ∧ t.millis = Int64.minValue then none else some t.millis := by
  rw [toMillis?, millis, tdiv_eq]
  by_cases after : 0 ≤ t.nanos
  · rw [if_pos after, if_pos after, if_neg (by omega), Int64.ofInt_eq_ofNat]
  · rw [if_neg after, if_neg after, negated?, Int64.ofInt_neg, Int64.ofInt_eq_ofNat]
    simp only [neg_eq_minValue_iff, Int.not_le.1 after, true_and]

theorem toMillis?_of_isDate {t : Instant} (h : t.IsDate) : t.toMillis? = some t.millis := by
  rw [toMillis?_eq, if_neg fun smallest => h smallest.2]

/-- Milliseconds that are found are those of the quotient. -/
theorem eq_millis_of_toMillis? {t : Instant} {m : Int64} (h : t.toMillis? = some m) :
    m = t.millis := by
  rw [toMillis?_eq] at h
  split at h
  · cases h
  · exact (Option.some.inj h).symm

@[simp] theorem millis_ofMillis (m : Int64) : (ofMillis m).millis = m := by
  simp [millis, Int.mul_tdiv_cancel]

@[simp] theorem isDate_ofMillis {m : Int64} : (ofMillis m).IsDate ↔ m ≠ Int64.minValue := by
  rw [IsDate, millis_ofMillis]

/-- Every word but the smallest comes back from its instant. -/
theorem toMillis?_ofMillis (m : Int64) :
    (ofMillis m).toMillis? = if m = Int64.minValue then none else some m := by
  by_cases smallest : m = Int64.minValue
  · subst smallest
    decide
  · rw [toMillis?_of_isDate (isDate_ofMillis.2 smallest), if_neg smallest, millis_ofMillis]

theorem truncated_of_isDate {t : Instant} (h : t.IsDate) : t.truncated = ofMillis t.millis :=
  if_pos h

theorem truncated?_of_isDate {t : Instant} (h : t.IsDate) : t.truncated? = some t.truncated := by
  rw [truncated?, toMillis?_of_isDate h, truncated_of_isDate h]
  rfl

theorem isDate_truncated (t : Instant) : t.truncated.IsDate := by
  unfold truncated
  split
  · next h => exact isDate_ofMillis.2 h
  · decide

theorem truncated_ofMillis {m : Int64} (h : m ≠ Int64.minValue) :
    (ofMillis m).truncated = ofMillis m := by
  rw [truncated_of_isDate (isDate_ofMillis.2 h), millis_ofMillis]

@[simp] theorem truncated_truncated (t : Instant) : t.truncated.truncated = t.truncated := by
  by_cases h : t.IsDate
  · rw [truncated_of_isDate h, truncated_ofMillis h]
  · have standIn : t.truncated = epoch := if_neg h
    rw [standIn]
    decide

/-! ## 2. Seconds -/

def sinceEpoch? (t : Instant) : Option (Nat × Nat) :=
  if 0 ≤ t.nanos then some (t.nanos.toNat / 1000000000, t.nanos.toNat % 1000000000) else none

/-- The instant that many seconds and nanoseconds after the epoch, if it is not too far away.
    A billion nanoseconds or more carry over into the seconds. -/
def ofSinceEpoch? (seconds nanoseconds : Nat) : Option Instant :=
  if h : seconds * 1000000000 + nanoseconds < 9223372036854775808000000000 then
    some ⟨(seconds * 1000000000 + nanoseconds : Nat), by omega⟩
  else none

theorem ofSinceEpoch?_of_sinceEpoch? {t : Instant} {seconds nanoseconds : Nat}
    (h : t.sinceEpoch? = some (seconds, nanoseconds)) :
    ofSinceEpoch? seconds nanoseconds = some t := by
  have hb := t.bounded
  unfold sinceEpoch? at h
  split at h
  · simp only [Option.some.injEq, Prod.mk.injEq] at h
    have hn : seconds * 1000000000 + nanoseconds = t.nanos.toNat := by omega
    unfold ofSinceEpoch?
    rw [dif_pos (by omega)]
    exact congrArg some (eq_of_nanos_eq (by simp only [hn]; omega))
  · simp at h

theorem isSome_sinceEpoch?_iff (t : Instant) : t.sinceEpoch?.isSome ↔ 0 ≤ t.nanos := by
  unfold sinceEpoch?
  split <;> simp_all

end Instant

end RankLedger
