import RankLedger.Instant

/-!
# Milliseconds are exact

Every signed 64-bit word is the milliseconds of an instant, and every word but the smallest comes
back from it.  An instant whose milliseconds fit the word loses only the fraction of its last one,
toward the epoch, and stored dates are ordered like the instants they are dates of
(`Instant.millis_are_exact`).

**Overflow.** The conversions are made in words of 64 bits.  From milliseconds every step fits its
word: `Instant.ofMillis?` is `Instant.ofMillis` without a result where a step does not fit, and it
always has one.  To milliseconds every step fits but one: before the epoch the distance is negated
after it was narrowed, and the smallest word has no negative (`negated?_eq`).
-/

namespace RankLedger

/-! ## 1. Steps that have to fit -/

def signedWord? (n : Int) : Option Int64 :=
  if -9223372036854775808 ≤ n ∧ n < 9223372036854775808 then some (.ofInt n) else none

def unsignedWord? (n : Int) : Option UInt64 :=
  if 0 ≤ n ∧ n < 18446744073709551616 then some (.ofNat n.toNat) else none

/-- The smallest word is the only one without a negative. -/
theorem negated?_eq (word : Int64) : negated? word = signedWord? (-word.toInt) := by
  have low := word.le_toInt
  have high := word.toInt_lt
  unfold negated? signedWord?
  by_cases h : word = Int64.minValue
  · have := eq_minValue_iff.1 h
    rw [if_pos h, if_neg (by omega)]
  · have := mt eq_minValue_iff.2 h
    rw [if_neg h, if_pos (by omega), Int64.ofInt_neg, Int64.ofInt_toInt]

theorem unsignedWord?_natCast {n : Nat} (fits : n < 18446744073709551616) :
    ∃ word : UInt64, unsignedWord? n = some word ∧ word.toNat = n :=
  ⟨.ofNat n, if_pos ⟨by omega, by omega⟩, UInt64.toNat_ofNat_of_lt' fits⟩

namespace Instant

def ofNanos? (nanos : Int) : Option Instant :=
  if h : -9223372036854775808000000000 ≤ nanos ∧ nanos < 9223372036854775808000000000 then
    some ⟨nanos, h⟩
  else none

/-- `ofMillis` step by step: an unsigned word says how far the instant is away from the epoch, and
    is added to it or taken from it. -/
def ofMillis? (m : Int64) : Option Instant :=
  if 0 ≤ m.toInt then
    (unsignedWord? m.toInt).bind fun away => ofNanos? (epoch.nanos + away.toNat * 1000000)
  else
    (unsignedWord? (-m.toInt)).bind fun away => ofNanos? (epoch.nanos - away.toNat * 1000000)

theorem ofNanos?_nanos (t : Instant) : ofNanos? t.nanos = some t :=
  dif_pos t.bounded

/-- Every step from milliseconds fits. -/
theorem ofMillis?_eq (m : Int64) : ofMillis? m = some (ofMillis m) := by
  have low := m.le_toInt
  have high := m.toInt_lt
  have origin : epoch.nanos = 0 := rfl
  rw [← ofNanos?_nanos, nanos_ofMillis]
  unfold ofMillis?
  split
  · next after =>
    obtain ⟨away, fits, same⟩ := unsignedWord?_natCast (n := m.toInt.toNat) (by omega)
    rw [Int.toNat_of_nonneg after] at fits
    rw [fits, Option.bind_some, same, origin]
    congr 1
    omega
  · next before =>
    obtain ⟨away, fits, same⟩ := unsignedWord?_natCast (n := (-m.toInt).toNat) (by omega)
    rw [Int.toNat_of_nonneg (by omega)] at fits
    rw [fits, Option.bind_some, same, origin]
    congr 1
    omega

/-! ## 2. Truncation -/

/-- The milliseconds of the instant fit a signed 64-bit word. -/
def FitsMillis (t : Instant) : Prop :=
  -9223372036854775808 ≤ t.nanos.tdiv 1000000 ∧ t.nanos.tdiv 1000000 < 9223372036854775808

/-- What is left of the instant without the fraction of its last millisecond: it lies on the same
    side of the epoch, less than a millisecond nearer to it. -/
structure IsTruncatedTo (t u : Instant) : Prop where
  whole : ∃ millis : Int, u.nanos = millis * 1000000
  sameSide : 0 ≤ t.nanos ∧ 0 ≤ u.nanos ∨ t.nanos ≤ 0 ∧ u.nanos ≤ 0
  notFarther : u.nanos.natAbs ≤ t.nanos.natAbs
  near : t.nanos.natAbs < u.nanos.natAbs + 1000000

theorem toInt_millis {t : Instant} (h : t.FitsMillis) : t.millis.toInt = t.nanos.tdiv 1000000 :=
  Int64.toInt_ofInt_of_le h.1 h.2

theorem isTruncatedTo_ofMillis {t : Instant} (h : t.FitsMillis) :
    t.IsTruncatedTo (ofMillis t.millis) := by
  have nanos : (ofMillis t.millis).nanos = t.nanos.tdiv 1000000 * 1000000 := by
    rw [nanos_ofMillis, toInt_millis h]
  rw [tdiv_eq, millisAway] at nanos
  refine ⟨⟨_, nanos_ofMillis _⟩, ?_, ?_, ?_⟩ <;> split at nanos <;> omega

/-- An instant whose milliseconds fit has none only if they are the smallest word. -/
theorem toMillis?_eq_none_iff {t : Instant} (h : t.FitsMillis) :
    t.toMillis? = none ↔ t.nanos.tdiv 1000000 = -9223372036854775808 := by
  have smallest : t.millis = Int64.minValue ↔ t.nanos.tdiv 1000000 = -9223372036854775808 := by
    rw [eq_minValue_iff, toInt_millis h]
  rw [toMillis?_eq, ← smallest]
  constructor
  · intro fits
    split at fits
    · next negative => exact negative.2
    · cases fits
  · intro word
    -- after the epoch no milliseconds are the smallest word
    have quotient := smallest.1 word
    rw [tdiv_eq] at quotient
    refine if_pos ⟨?_, word⟩
    split at quotient <;> omega

/-! ## 3. The whole range -/

/-- Later instants have no smaller milliseconds. -/
theorem millis_le_millis {s t : Instant} (hs : s.FitsMillis) (ht : t.FitsMillis)
    (le : s.nanos ≤ t.nanos) : s.millis ≤ t.millis := by
  rw [Int64.le_iff_toInt_le, toInt_millis hs, toInt_millis ht]
  exact Int.tdiv_le_tdiv (by decide) le

/-- A date that was truncated can be truncated again, and is the same then. -/
theorem truncated?_truncated? {t u : Instant} (h : t.FitsMillis) (truncated : t.truncated? = some u) :
    t.IsTruncatedTo u ∧ u.truncated? = some u := by
  obtain ⟨word, converted, rfl⟩ := Option.map_eq_some_iff.1 truncated
  obtain rfl := eq_millis_of_toMillis? converted
  refine ⟨isTruncatedTo_ofMillis h, ?_⟩
  have date : t.IsDate := by
    intro smallest
    have none := (toMillis?_eq_none_iff h).2
      ((toInt_millis h).symm.trans (eq_minValue_iff.1 smallest))
    rw [none] at converted
    cases converted
  rw [truncated?, toMillis?_ofMillis, if_neg date]
  rfl

/-- **Milliseconds are exact on the whole stored range**, but at its end.

  1. A word is the milliseconds of an instant, and every step fits on the way there.  Every word but
     the smallest comes back from its instant.
  2. An instant whose milliseconds fit the word has them unless they are the smallest word.  It is
     truncated to whole ones, toward the epoch, and a second time nothing changes.
  3. Of two such instants the later one has no smaller milliseconds, so the one with the greater
     milliseconds is the later one. -/
theorem millis_are_exact (m : Int64) {s t : Instant} (hs : s.FitsMillis) (ht : t.FitsMillis) :
    (ofMillis? m = some (ofMillis m) ∧
      (ofMillis m).toMillis? = if m = Int64.minValue then none else some m) ∧
    ((t.toMillis? = none ↔ t.nanos.tdiv 1000000 = -9223372036854775808) ∧
      ∀ u, t.truncated? = some u → t.IsTruncatedTo u ∧ u.truncated? = some u) ∧
    ∀ a b, s.toMillis? = some a → t.toMillis? = some b →
      (s.nanos ≤ t.nanos → a ≤ b) ∧ (a < b → s.nanos < t.nanos) := by
  refine ⟨⟨ofMillis?_eq m, toMillis?_ofMillis m⟩, ⟨toMillis?_eq_none_iff ht,
    fun u => truncated?_truncated? ht⟩, fun a b first second => ?_⟩
  obtain rfl := eq_millis_of_toMillis? first
  obtain rfl := eq_millis_of_toMillis? second
  refine ⟨millis_le_millis hs ht, fun less => Int.not_le.1 fun le => ?_⟩
  have back := millis_le_millis ht hs le
  rw [Int64.le_iff_toInt_le] at back
  rw [Int64.lt_iff_toInt_lt] at less
  omega

/-- A microsecond before the smallest word, one before the next word, and one after the epoch. -/
theorem millis_at_smallest_word :
    let first : Instant := ⟨-9223372036854775808001000, by decide⟩
    let second : Instant := ⟨-9223372036854775807001000, by decide⟩
    let last : Instant := ⟨1000, by decide⟩
    first.FitsMillis ∧ second.FitsMillis ∧ last.FitsMillis ∧ first.toMillis? = none ∧
      second.IsTruncatedTo (ofMillis (-9223372036854775807)) ∧
      second.toMillis? = some (-9223372036854775807) ∧ last.toMillis? = some 0 ∧
      (-9223372036854775807 : Int64) ≤ 0 := by
  intro first second last
  have hfirst : first.FitsMillis := ⟨by decide, by decide⟩
  have hsecond : second.FitsMillis := ⟨by decide, by decide⟩
  have hlast : last.FitsMillis := ⟨by decide, by decide⟩
  have converted : second.toMillis? = some (-9223372036854775807) := by decide
  have converted' : last.toMillis? = some 0 := by decide
  obtain ⟨-, ⟨none, -⟩, -⟩ := millis_are_exact 0 hlast hfirst
  obtain ⟨-, ⟨-, truncates⟩, -⟩ := millis_are_exact 0 hlast hsecond
  obtain ⟨-, -, ordered⟩ := millis_are_exact 0 hsecond hlast
  exact ⟨hfirst, hsecond, hlast, none.2 (by decide), (truncates _ (by decide)).1, converted,
    converted', (ordered _ _ converted converted').1 (by decide)⟩

/-- Not every step to milliseconds fits its word: the smallest word cannot be negated. -/
theorem not_every_step_fits : ¬ ∀ m : Int64, (ofMillis m).toMillis? = some m := by
  intro fits
  have smallest : (ofMillis Int64.minValue).toMillis? = none := by decide
  rw [fits Int64.minValue] at smallest
  cases smallest

end Instant

end RankLedger
