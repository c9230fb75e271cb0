import Mathlib.Algebra.Order.Ring.Nat
import Mathlib.Data.List.Basic
import RankLedger.Proofs.Json.Text
import RankLedger.Proofs.Number.Value

/-!
# Doubles as texts

Every finite double has a written form, and it is written as numbers have to be
(`LawfulJsonNumber Float`).  What has to be shown is that its first digit is not zero: a decimal
with a zero in front of other digits could not be read back.  That the double nearest to its own
decimal is the double itself (`JsonNumber.ReadsBack`) no proof can see, as the arithmetic of doubles
is not part of the logic.

**The search.** A point of a grid that lies in the interval of a double is not zero, because the
interval does not reach down to zero.  If no grid has such a point, the digits below the middle are
taken, and the finest grid is fine enough that there are some
(`RoundingInterval.unit_le_middle_onGrid`).
-/

namespace RankLedger

/-- A number type whose finite members are written as numbers have to be. -/
class LawfulJsonNumber (ν : Type) [Scalar ν] [JsonNumber ν] : Prop where
  write? : ∀ x : ν, Scalar.isFinite x = true →
    ∃ written, JsonNumber.write? x = some written ∧ written.IsWellFormed

def JsonNumber.ReadsBack (ν : Type) [Scalar ν] [JsonNumber ν] : Prop :=
  ∀ x : ν, Scalar.isFinite x = true → (write? x).bind read? = some x

/-! ## 1. Digits -/

namespace Digits

theorem lt_pow_length_ofNat (n : Nat) : n < 10 ^ (ofNat n).length := by
  induction n using Nat.strongRecOn with
  | ind n ih =>
      unfold ofNat
      split
      next small => simpa using small
      next large =>
        have := ih (n / 10) (by omega)
        rw [List.length_append, List.length_singleton, Nat.pow_succ]
        omega

theorem pow_length_ofNat_le {n : Nat} (positive : 0 < n) : 10 ^ ((ofNat n).length - 1) ≤ n := by
  induction n using Nat.strongRecOn with
  | ind n ih =>
      unfold ofNat
      split
      next small => exact positive
      next large =>
        have shorter := ih (n / 10) (by omega) (by omega)
        obtain ⟨digits, filled⟩ : ∃ digits, (ofNat (n / 10)).length = digits + 1 :=
          Nat.exists_eq_succ_of_ne_zero (List.length_pos_iff.2 (ofNat_ne_nil _)).ne'
        rw [filled, Nat.add_sub_cancel] at shorter
        rw [List.length_append, List.length_singleton, Nat.add_sub_cancel, filled, Nat.pow_succ]
        omega

theorem lt_pow_length (n : Nat) : n < 10 ^ length n := by
  unfold length
  split
  next zero => rw [zero]; decide
  next => exact lt_pow_length_ofNat n

theorem pow_length_le {n : Nat} (positive : 0 < n) : 10 ^ (length n - 1) ≤ n := by
  rw [length, if_neg (by omega)]
  exact pow_length_ofNat_le positive

theorem exists_trim_cons {first : Digit} (positive : first ≠ Digit.zero) (rest : List Digit) :
    ∃ others, trim (first :: rest) = first :: others := by
  have kept : [first].dropWhile (· == Digit.zero) = [first] :=
    List.dropWhile_cons_of_neg (by simpa using positive)
  obtain ⟨others, dropped⟩ :
      ∃ others, (rest.reverse ++ [first]).dropWhile (· == Digit.zero) = others ++ [first] := by
    rw [List.dropWhile_append, kept]
    split
    · exact ⟨[], rfl⟩
    · exact ⟨_, rfl⟩
  refine ⟨others.reverse, ?_⟩
  rw [trim, List.reverse_cons, dropped, List.reverse_append]
  rfl

end Digits

/-! ## 2. Decimals -/

def Decimal.IsScientific (decimal : Decimal) : Prop :=
  (∃ first rest, decimal.digits = first :: rest ∧ first ≠ Digit.zero) ∨
    decimal.digits = [Digit.zero] ∧ decimal.exponent = 0

theorem Decimal.isScientific_ofScaled (negative : Bool) {n : Nat} (positive : n ≠ 0) (place : Int) :
    (ofScaled negative n place).IsScientific := by
  obtain ⟨first, rest, same, alone⟩ := Digits.isNumeral_ofNat n
  have leads : first ≠ Digit.zero := by
    intro zero
    have value := Digits.value_ofNat n
    rw [same, alone zero, zero] at value
    exact positive value.symm
  obtain ⟨others, trimmed⟩ := Digits.exists_trim_cons leads rest
  exact .inl ⟨first, others, by rw [ofScaled, same]; exact trimmed, leads⟩

theorem NumberText.isWellFormed_ofDecimal {decimal : Decimal} (h : decimal.IsScientific) :
    (ofDecimal decimal).IsWellFormed := by
  obtain ⟨negative, digits, place⟩ := decimal
  unfold ofDecimal
  by_cases right : 0 ≤ place ∧ place < 16
  · simp only [if_pos right]
    refine ⟨?_, fun _ written => nomatch written⟩
    rcases h with ⟨first, rest, rfl, leads⟩ | ⟨rfl, rfl⟩
    · exact ⟨first, _, by rw [List.take_succ_cons, List.cons_append], fun zero => absurd zero leads⟩
    · exact ⟨Digit.zero, [], rfl, fun _ => rfl⟩
  by_cases left : -5 ≤ place ∧ place < 0
  · simp only [if_neg right, if_pos left]
    exact ⟨⟨Digit.zero, [], rfl, fun _ => rfl⟩, fun _ written => nomatch written⟩
  · simp only [if_neg right, if_neg left]
    rcases h with ⟨first, rest, rfl, leads⟩ | ⟨rfl, rfl⟩
    · refine ⟨⟨first, [], rfl, fun _ => rfl⟩, fun exponent written => ?_⟩
      cases written
      exact Digits.ofNat_ne_nil _
    · exact absurd ⟨Int.le_refl 0, by decide⟩ right

/-! ## 3. The search -/

namespace RoundingInterval

variable {interval : RoundingInterval}

theorem contains_of_nearest? {n : Nat} (h : interval.nearest? = some n) :
    interval.contains n = true := by
  unfold nearest? at h
  simp only at h
  split at h
  · split_ifs at h <;> cases h <;> assumption
  · cases h; assumption
  · cases h; assumption
  · cases h

theorem pos_of_contains (low : 0 < interval.low) {n : Nat} (h : interval.contains n = true) :
    0 < n := by
  refine Nat.pos_of_ne_zero fun zero => ?_
  rw [contains, zero, Nat.zero_mul] at h
  split at h <;> have := of_decide_eq_true h <;> omega

/-- The finest grid that is tried has a point between zero and the middle. -/
theorem unit_le_middle_onGrid (middle : 0 < interval.middle) (unit : 0 < interval.unit)
    {finer : Nat} :
    (interval.onGrid (interval.leadingPlace - finer)).unit ≤
      (interval.onGrid (interval.leadingPlace - finer)).middle := by
  show interval.unit * 10 ^ (interval.leadingPlace - finer).toNat ≤
    interval.middle * 10 ^ (-(interval.leadingPlace - finer)).toNat
  unfold leadingPlace
  split
  next large =>
    -- the middle has so many digits before the point
    set quotient := interval.middle / interval.unit with quotient_def
    have positive : 0 < quotient := Nat.div_pos large unit
    calc interval.unit * 10 ^ ((Digits.length quotient : Int) - 1 - finer).toNat
        ≤ interval.unit * 10 ^ (Digits.length quotient - 1) :=
          Nat.mul_le_mul_left _ (Nat.pow_le_pow_right (by decide) (by omega))
      _ ≤ interval.unit * quotient := Nat.mul_le_mul_left _ (Digits.pow_length_le positive)
      _ ≤ interval.middle := Nat.mul_div_le _ _
      _ ≤ interval.middle * 10 ^ (-((Digits.length quotient : Int) - 1 - finer)).toNat :=
          Nat.le_mul_of_pos_right _ (Nat.pow_pos (by decide))
  next small =>
    -- the middle is below the unit, so the first digit is behind the point
    set times := (interval.unit + interval.middle - 1) / interval.middle with times_def
    have covers : interval.unit ≤ interval.middle * times := by
      have := Nat.lt_mul_div_succ (interval.unit + interval.middle - 1) middle
      rw [← times_def, Nat.mul_add, Nat.mul_one] at this
      omega
    have few : times ≤ 10 ^ Digits.length (times - 1) := by
      have := Digits.lt_pow_length (times - 1)
      omega
    have whole : (-(Digits.length (times - 1) : Int) - finer).toNat = 0 := by omega
    rw [whole, Nat.pow_zero, Nat.mul_one]
    calc interval.unit
        ≤ interval.middle * times := covers
      _ ≤ interval.middle * 10 ^ Digits.length (times - 1) := Nat.mul_le_mul_left _ few
      _ ≤ interval.middle * 10 ^ (-(-(Digits.length (times - 1) : Int) - finer)).toNat :=
          Nat.mul_le_mul_left _ (Nat.pow_le_pow_right (by decide) (by omega))

theorem search_pos (low : 0 < interval.low) {finer : Nat} {place : Int}
    (unit : 0 < interval.unit)
    (last : (interval.onGrid (place - finer)).unit ≤ (interval.onGrid (place - finer)).middle) :
    0 < (interval.search finer place).1 := by
  have lowOnGrid : ∀ place, 0 < (interval.onGrid place).low := fun place =>
    Nat.mul_pos low (Nat.pow_pos (by decide))
  have found : ∀ place n, (interval.onGrid place).nearest? = some n → 0 < n := fun place n h =>
    pos_of_contains (lowOnGrid place) (contains_of_nearest? h)
  induction finer generalizing place with
  | zero =>
      unfold search
      simp only
      cases h : (interval.onGrid place).nearest? with
      | some n => exact found place n h
      | none =>
          rw [Int.natCast_zero, Int.sub_zero] at last
          exact Nat.div_pos last (Nat.mul_pos unit (Nat.pow_pos (by decide)))
  | succ finer ih =>
      unfold search
      split
      next n h => exact found place n h
      next => exact ih (by rwa [show place - 1 - finer = place - (finer + 1 : Nat) by omega])

end RoundingInterval

/-! ## 4. Doubles -/

theorem Dyadic.isScientific_shortest (d : Dyadic) : d.shortest.IsScientific := by
  unfold shortest
  split
  next => exact .inr ⟨rfl, rfl⟩
  next nonzero =>
    have positive : ∀ {k}, 0 < k → 0 < k * Nat.pow 2 (d.exponent - 2).toNat := fun h =>
      Nat.mul_pos h (Nat.pow_pos (by decide))
    have unit : 0 < (RoundingInterval.ofDyadic d).unit := Nat.pow_pos (by decide)
    have low : 0 < (RoundingInterval.ofDyadic d).low := by
      refine positive ?_
      split <;> omega
    have middle : 0 < (RoundingInterval.ofDyadic d).middle := positive (by omega)
    have found : 0 < ((RoundingInterval.ofDyadic d).search 16
        (RoundingInterval.ofDyadic d).leadingPlace).1 :=
      RoundingInterval.search_pos low unit (RoundingInterval.unit_le_middle_onGrid middle unit)
    exact Decimal.isScientific_ofScaled _ (Nat.ne_of_gt found) _

/-- **Every finite double has a well-formed text.** -/
instance : LawfulJsonNumber Float where
  write? x finite := by
    obtain ⟨d, same⟩ := Option.isSome_iff_exists.1 ((Double.isSome_ofFloat?_iff x).2 finite)
    refine ⟨.ofDecimal d.shortest, ?_, NumberText.isWellFormed_ofDecimal d.isScientific_shortest⟩
    show (Decimal.ofFloat? x).map NumberText.ofDecimal = _
    rw [Decimal.ofFloat?, same]
    rfl

end RankLedger
