import Mathlib.Algebra.Order.Field.Basic
import Mathlib.Algebra.Order.Field.Power
import Mathlib.Algebra.Order.Field.Rat
import Mathlib.Tactic.Ring
import RankLedger.Decimal.Shortest
import RankLedger.Scalar

/-!
# What doubles are worth

The order of doubles is that of their places on the number line, which are read off their bits.  It
is also the order of their values, which are rational numbers (`Double.place_lt_place_iff`).  Every
value is a multiple of the smallest positive one, and how often it contains it (`Double.grains`)
grows with the place.  So finite doubles are the same number exactly when they have the same value
(`Double.same_iff_value?`).
-/

namespace RankLedger

def Dyadic.value (d : Dyadic) : Rat :=
  (if d.negative then -1 else 1) * d.mantissa * 2 ^ d.exponent

namespace Double

theorem isFinite_iff_steps (x : Float) : Scalar.isFinite x = true ↔ steps x < infinitySteps :=
  decide_eq_true_iff

/-! ## 1. Grains -/

def grains (steps : Nat) : Nat :=
  if steps / 2 ^ 52 = 0 then steps
  else (steps % 2 ^ 52 + 2 ^ 52) * 2 ^ (steps / 2 ^ 52 - 1)

theorem grains_lt (steps : Nat) : grains steps < 2 ^ (steps / 2 ^ 52 + 52) := by
  unfold grains
  split
  · rename_i small
    rw [small]
    omega
  · have power : 2 ^ (steps / 2 ^ 52 + 52) = 2 ^ 53 * 2 ^ (steps / 2 ^ 52 - 1) := by
      rw [← Nat.pow_add]
      congr 1
      omega
    rw [power]
    exact Nat.mul_lt_mul_of_pos_right (by omega) (Nat.two_pow_pos _)

theorem le_grains {steps : Nat} (h : steps / 2 ^ 52 ≠ 0) :
    2 ^ (steps / 2 ^ 52 + 51) ≤ grains steps := by
  have power : 2 ^ (steps / 2 ^ 52 + 51) = 2 ^ 52 * 2 ^ (steps / 2 ^ 52 - 1) := by
    rw [← Nat.pow_add]
    congr 1
    omega
  rw [grains, if_neg h, power]
  exact Nat.mul_le_mul_right _ (Nat.le_add_left _ _)

theorem grains_strictMono : StrictMono grains := by
  intro s t h
  have exponents : s / 2 ^ 52 ≤ t / 2 ^ 52 := Nat.div_le_div_right h.le
  obtain less | same := exponents.lt_or_eq
  · calc
      grains s < 2 ^ (s / 2 ^ 52 + 52) := grains_lt s
      _ ≤ 2 ^ (t / 2 ^ 52 + 51) := Nat.pow_le_pow_right (by decide) (by omega)
      _ ≤ grains t := le_grains (by omega)
  · unfold grains
    rw [same]
    split
    · exact h
    · exact Nat.mul_lt_mul_of_pos_right (by omega) (Nat.two_pow_pos _)

def signedGrains (place : Int) : Int :=
  if 0 ≤ place then grains place.natAbs else -(grains place.natAbs : Int)

theorem signedGrains_natCast (n : Nat) : signedGrains n = grains n :=
  if_pos (Int.natCast_nonneg n)

theorem signedGrains_neg_natCast (n : Nat) : signedGrains (-n) = -grains n := by
  cases n with
  | zero => rfl
  | succ n =>
      rw [signedGrains, if_neg (by omega), Int.natAbs_neg]
      rfl

theorem signedGrains_lt {m n : Int} (h : m < n) : signedGrains m < signedGrains n := by
  have zero : grains 0 = 0 := rfl
  unfold signedGrains
  split
  · rw [if_pos (by omega)]
    exact Int.ofNat_lt.2 (grains_strictMono (by omega))
  · have away : grains 0 < grains m.natAbs := grains_strictMono (by omega)
    split
    · omega
    · have less : grains n.natAbs < grains m.natAbs := grains_strictMono (by omega)
      omega

theorem signedGrains_lt_iff {m n : Int} : signedGrains m < signedGrains n ↔ m < n := by
  refine ⟨fun less => ?_, signedGrains_lt⟩
  obtain below | rfl | above := Int.lt_trichotomy m n
  · exact below
  · exact absurd less (Int.lt_irrefl _)
  · exact absurd less (Int.lt_asymm (signedGrains_lt above))

/-! ## 2. Values -/

/-- Exactly the finite doubles are dyadic numbers. -/
theorem isSome_ofFloat?_iff (x : Float) :
    (Dyadic.ofFloat? x).isSome = true ↔ Scalar.isFinite x = true := by
  have exponent : x.toBits.toNat / Dyadic.implicitBit % 0x800 = 0x7ff ↔
      ¬ steps x < infinitySteps := by
    have bits := x.toBits.toNat_lt
    unfold steps infinitySteps Dyadic.implicitBit
    omega
  rw [isFinite_iff_steps, Dyadic.ofFloat?]
  by_cases finite : steps x < infinitySteps
  · rw [if_neg (by rwa [exponent, not_not])]
    split <;> exact iff_of_true rfl finite
  · rw [if_pos (exponent.2 finite)]
    exact iff_of_false Bool.false_ne_true finite

/-- The distance from zero is counted in grains. -/
theorem mantissa_mul_eq {x : Float} {d : Dyadic} (valued : Dyadic.ofFloat? x = some d) :
    (d.mantissa : Rat) * 2 ^ d.exponent = grains (steps x) * 2 ^ (-1074 : Int) := by
  have exponent : steps x / 2 ^ 52 = x.toBits.toNat / Dyadic.implicitBit % 0x800 := by
    unfold steps Dyadic.implicitBit
    omega
  have fraction : steps x % 2 ^ 52 = x.toBits.toNat % Dyadic.implicitBit := by
    unfold steps Dyadic.implicitBit
    omega
  unfold Dyadic.ofFloat? at valued
  simp only [← exponent, ← fraction] at valued
  unfold grains
  split at valued
  · cases valued
  · split at valued
    · rename_i small
      cases valued
      rw [if_pos small, Nat.mod_eq_of_lt ((Nat.div_eq_zero_iff_lt (by decide)).1 small)]
    · rename_i large
      cases valued
      have split : ((steps x / 2 ^ 52 : Nat) : Int) - 1075 =
          ((steps x / 2 ^ 52 - 1 : Nat) : Int) + -1074 := by
        omega
      rw [if_neg large, split, zpow_add₀ two_ne_zero, zpow_natCast, Nat.cast_mul, Nat.cast_pow,
        mul_assoc]
      rfl

theorem negative_eq_of_ofFloat? {x : Float} {d : Dyadic} (valued : Dyadic.ofFloat? x = some d) :
    d.negative = decide (x.toBits.toNat / 0x8000000000000000 = 1) := by
  unfold Dyadic.ofFloat? at valued
  dsimp only at valued
  split at valued
  · cases valued
  · split at valued
    · cases valued
      rfl
    · cases valued
      rfl

/-- A double that has a value has a place, and its value is counted in grains. -/
theorem value_eq_of_place? {x : Float} {d : Dyadic} {place : Int}
    (valued : Dyadic.ofFloat? x = some d) (placed : place? x = some place) :
    d.value = signedGrains place * 2 ^ (-1074 : Int) := by
  have bits := x.toBits.toNat_lt
  unfold Dyadic.value
  rw [negative_eq_of_ofFloat? valued, mul_assoc, mantissa_mul_eq valued]
  unfold place? at placed
  split at placed
  · cases placed
  · split at placed
    · have positive : ¬ x.toBits.toNat / 0x8000000000000000 = 1 := by omega
      cases placed
      rw [decide_eq_false positive, if_neg Bool.false_ne_true, one_mul, signedGrains_natCast,
        Int.cast_natCast]
    · have negative : x.toBits.toNat / 0x8000000000000000 = 1 := by omega
      cases placed
      rw [decide_eq_true negative, if_pos rfl, neg_one_mul, signedGrains_neg_natCast, Int.cast_neg,
        Int.cast_natCast, neg_mul]

/-- **Order.** Doubles stand on the number line in the order of their values. -/
theorem place_lt_place_iff {a b : Float} {d e : Dyadic} {m n : Int}
    (valueA : Dyadic.ofFloat? a = some d) (valueB : Dyadic.ofFloat? b = some e)
    (placeA : place? a = some m) (placeB : place? b = some n) : m < n ↔ d.value < e.value := by
  have positive : (0 : Rat) < 2 ^ (-1074 : Int) := zpow_pos (by norm_num) _
  rw [value_eq_of_place? valueA placeA, value_eq_of_place? valueB placeB,
    mul_lt_mul_iff_left₀ positive, Int.cast_lt, signedGrains_lt_iff]

/-! ## 3. Finite doubles -/

def value? (x : Float) : Option Rat :=
  (Dyadic.ofFloat? x).map Dyadic.value

theorem isSome_value?_iff (x : Float) : (value? x).isSome = true ↔ Scalar.isFinite x = true := by
  rw [value?, Option.isSome_map, isSome_ofFloat?_iff]

/-- A double that has a value has a place. -/
theorem exists_place {x : Float} {q : Rat} (h : value? x = some q) :
    ∃ d place, Dyadic.ofFloat? x = some d ∧ d.value = q ∧ place? x = some place := by
  obtain ⟨d, valued, rfl⟩ := Option.map_eq_some_iff.1 h
  have finite : steps x < infinitySteps :=
    (isFinite_iff_steps x).1 ((isSome_value?_iff x).1 (Option.isSome_of_eq_some h))
  obtain ⟨place, placed⟩ := Option.isSome_iff_exists.1 (isSome_place?_of_lt finite)
  exact ⟨d, place, valued, rfl, placed⟩

/-- Finite doubles compare as their values do. -/
theorem compare?_eq_lt_iff {a b : Float} {q r : Rat} (valueA : value? a = some q)
    (valueB : value? b = some r) : compare? a b = some .lt ↔ q < r := by
  obtain ⟨d, m, dyadicA, rfl, placeA⟩ := exists_place valueA
  obtain ⟨e, n, dyadicB, rfl, placeB⟩ := exists_place valueB
  rw [compare?_of_place? placeA placeB, ← place_lt_place_iff dyadicA dyadicB placeA placeB,
    Option.some_inj, Std.compare_eq_lt]

theorem natAbs_place {x : Float} {place : Int} (h : place? x = some place) :
    place.natAbs = steps x := by
  unfold place? at h
  split at h
  · cases h
  · split at h <;> cases h
    · rfl
    · exact Int.natAbs_neg _

/-- **Equality.** Nothing is the same number as a finite double but the doubles of its value. -/
theorem same_iff_value? {a b : Float} {q : Rat} (h : value? a = some q) :
    same a b = true ↔ value? b = some q := by
  obtain ⟨d, m, dyadicA, rfl, placeA⟩ := exists_place h
  have finite : steps a < infinitySteps :=
    (isFinite_iff_steps a).1 ((isSome_value?_iff a).1 (Option.isSome_of_eq_some h))
  have same_iff : same a b = true ↔ place? b = some m := by
    unfold same
    cases placeB : place? b with
    | none =>
        have undefined : compare? a b = none := by
          rw [compare?, placeA, placeB]
          rfl
        rw [undefined]
        exact iff_of_false Bool.false_ne_true (Option.some_ne_none m).symm
    | some n =>
        rw [compare?_of_place? placeA placeB, beq_iff_eq, Option.some_inj, Option.some_inj,
          Std.compare_eq_iff_eq, eq_comm]
  rw [same_iff]
  constructor
  · intro placeB
    -- doubles in one place are equally far from zero, so this one is finite as well
    have steps : steps b = steps a := by
      rw [← natAbs_place placeB, natAbs_place placeA]
    obtain ⟨r, valueB⟩ := Option.isSome_iff_exists.1
      ((isSome_value?_iff b).2 ((isFinite_iff_steps b).2 (steps ▸ finite)))
    obtain ⟨e, n, dyadicB, rfl, placeB'⟩ := exists_place valueB
    rw [placeB] at placeB'
    cases placeB'
    rw [valueB, value_eq_of_place? dyadicA placeA, value_eq_of_place? dyadicB placeB]
  · intro valueB
    obtain ⟨e, n, dyadicB, same, placeB⟩ := exists_place valueB
    -- places stand in the order of the values
    have below := place_lt_place_iff dyadicA dyadicB placeA placeB
    have above := place_lt_place_iff dyadicB dyadicA placeB placeA
    rw [same] at below above
    have equal : m = n := le_antisymm (not_lt.1 fun less => lt_irrefl _ (above.1 less))
      (not_lt.1 fun less => lt_irrefl _ (below.1 less))
    rw [placeB, equal]

end Double

end RankLedger
