import Mathlib.Algebra.Order.Ring.Int
import RankLedger.Scalar

/-!
# Integers as doubles

An integer that is converted to a double is rounded to 53 leading bits, halves to the even
neighbour.  So it has a place on the number line (`Double.place?_ofInt64`), and a larger integer
never has a lower place (`Double.nearestPlace_mono`).  It may have the same one: from `2 ^ 53` on
there are more integers than doubles.

The conversion shifts the integer until 53 bits are left, keeps two bits to say what was dropped,
rounds, and shifts once more if rounding has carried into a new bit.  The sections follow these
steps.
-/

namespace RankLedger.Double

open Float.Model (Format UnpackedFloat totalExponent)
open Float.Model.UnpackedFloat (Sign ExtendedMantissa Accuracy packComponents
  shiftToTargetExponent shiftToExponent)

/-! ## 1. Dropping bits -/

def roundedShift (n k : Nat) : Nat :=
  if 2 * (n % 2 ^ k) < 2 ^ k then n / 2 ^ k
  else if 2 ^ k < 2 * (n % 2 ^ k) then n / 2 ^ k + 1
  else n / 2 ^ k + n / 2 ^ k % 2

theorem le_roundedShift (n k : Nat) : n / 2 ^ k ≤ roundedShift n k := by
  unfold roundedShift
  split
  · exact Nat.le_refl _
  · split
    · exact Nat.le_succ _
    · exact Nat.le_add_right _ _

theorem roundedShift_le (n k : Nat) : roundedShift n k ≤ n / 2 ^ k + 1 := by
  unfold roundedShift
  split
  · exact Nat.le_succ _
  · split
    · exact Nat.le_refl _
    · omega

theorem roundedShift_mono {m n : Nat} (h : m ≤ n) (k : Nat) :
    roundedShift m k ≤ roundedShift n k := by
  have quotients : m / 2 ^ k ≤ n / 2 ^ k := Nat.div_le_div_right h
  obtain less | same := quotients.lt_or_eq
  · exact (roundedShift_le m k).trans (Nat.le_trans less (le_roundedShift n k))
  · -- of two numbers with one quotient the larger one has the larger rest
    have splitM := Nat.div_add_mod m (2 ^ k)
    have splitN := Nat.div_add_mod n (2 ^ k)
    rw [same] at splitM
    have rests : m % 2 ^ k ≤ n % 2 ^ k := by omega
    unfold roundedShift
    rw [same]
    split
    · split
      · exact Nat.le_refl _
      · split <;> omega
    · rw [if_neg (by omega : ¬ 2 * (n % 2 ^ k) < 2 ^ k)]
      split
      · rw [if_pos (by omega)]
      · split <;> omega

/-- The highest of the bits that are dropped says whether they come to one half, and the others
    whether they are more than that. -/
theorem shiftRight_succ (m k : Nat) :
    ExtendedMantissa.mk m false false >>> (k + 1) =
      ⟨m / 2 ^ (k + 1), m / 2 ^ k % 2 != 0, m % 2 ^ k != 0⟩ := by
  induction k with
  | zero => simp [HShiftRight.hShiftRight, Nat.repeat, ExtendedMantissa.shiftRightOne, Nat.mod_one]
  | succ k ih =>
      show ExtendedMantissa.shiftRightOne (ExtendedMantissa.mk m false false >>> (k + 1)) = _
      have dropped : (m / 2 ^ k % 2 != 0 || m % 2 ^ k != 0) = (m % 2 ^ (k + 1) != 0) := by
        rw [Nat.mod_pow_succ]
        obtain bit | bit := Nat.mod_two_eq_zero_or_one (m / 2 ^ k) <;> simp [bit]
      rw [ih, ExtendedMantissa.shiftRightOne, dropped, Nat.div_div_eq_div_mul, ← Nat.pow_succ]

theorem roundedMantissa_shiftRight (m k : Nat) :
    (ExtendedMantissa.mk m false false >>> k).roundedMantissa = roundedShift m k := by
  cases k with
  | zero => simp [HShiftRight.hShiftRight, Nat.repeat, roundedShift, Nat.mod_one,
      ExtendedMantissa.roundedMantissa, ExtendedMantissa.accuracy, Accuracy.roundToNearestEven]
  | succ k =>
      have power : 2 ^ (k + 1) = 2 * 2 ^ k := Nat.pow_succ'
      have below : m % 2 ^ k < 2 ^ k := Nat.mod_lt _ (Nat.two_pow_pos k)
      have dropped : m % 2 ^ (k + 1) = m % 2 ^ k + 2 ^ k * (m / 2 ^ k % 2) := Nat.mod_pow_succ
      rw [shiftRight_succ, roundedShift]
      obtain bit | bit := Nat.mod_two_eq_zero_or_one (m / 2 ^ k)
      · -- less than one half is dropped
        rw [bit] at dropped
        rw [bit, if_pos (by omega)]
        cases m % 2 ^ k != 0 <;> rfl
      · rw [bit] at dropped
        rw [bit, if_neg (by omega)]
        by_cases rest : m % 2 ^ k = 0
        · rw [if_neg (by omega), rest]
          rfl
        · rw [if_pos (by omega), bne_iff_ne.2 rest]
          rfl

/-! ## 2. The nearest double -/

def significand (n : Nat) : Nat :=
  roundedShift (n * 2 ^ (52 - n.log2)) (n.log2 - 52)

def nearestSteps (n : Nat) : Nat :=
  if n = 0 then 0 else (n.log2 + 1022) * 2 ^ 52 + significand n

theorem log2_mul_two_pow {n : Nat} (h : 0 < n) (k : Nat) : (n * 2 ^ k).log2 = n.log2 + k := by
  obtain ⟨low, high⟩ := (Nat.log2_eq_iff (Nat.ne_of_gt h)).1 rfl
  rw [Nat.log2_eq_iff (Nat.ne_of_gt (Nat.mul_pos h (Nat.two_pow_pos k))), Nat.pow_add,
    Nat.add_right_comm, Nat.pow_add]
  exact ⟨Nat.mul_le_mul_right _ low, Nat.mul_lt_mul_of_pos_right high (Nat.two_pow_pos k)⟩

theorem significand_bounds {n : Nat} (h : 0 < n) :
    2 ^ 52 ≤ significand n ∧ significand n ≤ 2 ^ 53 := by
  have positive : 0 < n * 2 ^ (52 - n.log2) := Nat.mul_pos h (Nat.two_pow_pos _)
  have length : (n * 2 ^ (52 - n.log2)).log2 = 52 + (n.log2 - 52) := by
    rw [log2_mul_two_pow h]
    omega
  obtain ⟨low, high⟩ := (Nat.log2_eq_iff (Nat.ne_of_gt positive)).1 length
  have lower : 2 ^ 52 ≤ n * 2 ^ (52 - n.log2) / 2 ^ (n.log2 - 52) := by
    rwa [Nat.le_div_iff_mul_le (Nat.two_pow_pos _), ← Nat.pow_add]
  have upper : n * 2 ^ (52 - n.log2) / 2 ^ (n.log2 - 52) < 2 ^ 53 := by
    rwa [Nat.div_lt_iff_lt_mul (Nat.two_pow_pos _), ← Nat.pow_add, Nat.add_right_comm 52 1]
  exact ⟨lower.trans (le_roundedShift _ _), (roundedShift_le _ _).trans upper⟩

theorem significand_mono {m n : Nat} (h : m ≤ n) (same : m.log2 = n.log2) :
    significand m ≤ significand n := by
  unfold significand
  rw [same]
  exact roundedShift_mono (Nat.mul_le_mul_right _ h) _

theorem nearestSteps_mono {m n : Nat} (h : m ≤ n) : nearestSteps m ≤ nearestSteps n := by
  unfold nearestSteps
  obtain rfl | positive := Nat.eq_zero_or_pos m
  · exact Nat.zero_le _
  have above : 0 < n := Nat.lt_of_lt_of_le positive h
  rw [if_neg (Nat.ne_of_gt positive), if_neg (Nat.ne_of_gt above)]
  have lengths : m.log2 ≤ n.log2 := by
    rw [Nat.le_log2 (Nat.ne_of_gt above)]
    exact (Nat.log2_self_le (Nat.ne_of_gt positive)).trans h
  obtain shorter | same := lengths.lt_or_eq
  · -- rounding a shorter number gives at most the next power of two
    have first := (significand_bounds positive).2
    have second := (significand_bounds above).1
    omega
  · have bits := significand_mono h same
    omega

theorem nearestSteps_lt {n : Nat} (h : n.log2 < 64) : nearestSteps n < infinitySteps := by
  unfold nearestSteps infinitySteps
  split
  · decide
  · have bits := (significand_bounds (Nat.pos_of_ne_zero ‹_›)).2
    omega

/-! ## 3. Its bits -/

theorem targetExponent_totalExponent (m : Nat) (e : Int) :
    Format.binary64.targetExponent (totalExponent m e) = max (m.log2 + e - 52) (-1074) := by
  show max ((m.log2 : Int) + 1 + e - 53) (-1074) = _
  omega

theorem shiftToTargetExponent_exact (m : Nat) (e : Int) :
    shiftToTargetExponent Format.binary64 m e .exact =
      (ExtendedMantissa.mk m false false >>> (max (m.log2 + e - 52) (-1074) - e).toNat,
        e + (max (m.log2 + e - 52) (-1074) - e).toNat) := by
  unfold shiftToTargetExponent shiftToExponent
  rw [targetExponent_totalExponent]
  rfl

def assemble (sign : Sign) (parts : ExtendedMantissa × Int) : UnpackedFloat :=
  if h : parts.1.mantissa = 0 then .zero sign
  else .finite sign parts.1.mantissa parts.2 (Nat.pos_of_ne_zero h)

/-- What is rounded is shifted into place twice: before and after it is rounded. -/
theorem round_eq_assemble (sign : Sign) (n : Nat) :
    UnpackedFloat.round Format.binary64 sign n 0 =
      let target := Format.binary64.targetExponent (totalExponent n 0)
      let filled := shiftToTargetExponent Format.binary64 (n <<< (0 - target).toNat)
        (0 - ((0 - target).toNat : Int)) .exact
      assemble sign (shiftToTargetExponent Format.binary64 filled.1.roundedMantissa filled.2
        .exact) := rfl

theorem toNat_packComponents (sign : Sign) (e : BitVec 11) (m : BitVec 52) :
    (packComponents Format.binary64 sign e m).toNat =
      sign.toBitVec.toNat * 2 ^ 63 + (e.toNat * 2 ^ 52 + m.toNat) := by
  unfold packComponents
  rw [BitVec.toNat_append, BitVec.toNat_append, ← Nat.shiftLeft_add_eq_or_of_lt m.isLt,
    ← Nat.shiftLeft_add_eq_or_of_lt e.isLt, Nat.shiftLeft_eq, Nat.shiftLeft_eq]
  omega

theorem toNat_pack_assemble (sign : Sign) {m e : Nat} (normal : m.log2 = 52) (small : e < 1024) :
    (UnpackedFloat.pack Format.binary64
      (assemble sign (ExtendedMantissa.mk m false false, (e : Int) - 52))).toNat =
        sign.toBitVec.toNat * 2 ^ 63 + ((e + 1022) * 2 ^ 52 + m) := by
  have nonzero : m ≠ 0 := by
    rintro rfl
    exact absurd normal (by decide)
  obtain ⟨low, high⟩ := (Nat.log2_eq_iff nonzero).1 normal
  have biased : ((e : Int) - 52 + (Format.binary64.exponentBias : Int) +
      (Format.binary64.mantissaBitsWithoutImplicit : Int)).toNat = e + 1023 := by
    show ((e : Int) - 52 + 1023 + 52).toNat = e + 1023
    omega
  rw [assemble, dif_neg nonzero]
  unfold UnpackedFloat.pack
  dsimp only
  rw [biased, if_neg (by show ¬ 2048 ≤ e + 1023 + 1; omega), if_pos (by rw [normal]; rfl),
    toNat_packComponents, BitVec.toNat_ofNat, BitVec.toNat_ofNat, Nat.mod_eq_of_lt (by omega)]
  omega

/-- What is rounded has 53 bits, or is the next power of two and is shifted once more; the bits of
    the double are the same sum in both cases. -/
theorem toNat_pack_carried (sign : Sign) {r e : Nat} (low : 2 ^ 52 ≤ r) (high : r ≤ 2 ^ 53)
    (small : e < 1023) :
    (UnpackedFloat.pack Format.binary64 (assemble sign
      (shiftToTargetExponent Format.binary64 r ((e : Int) - 52) .exact))).toNat =
        sign.toBitVec.toNat * 2 ^ 63 + ((e + 1022) * 2 ^ 52 + r) := by
  obtain less | rfl := high.lt_or_eq
  · have length : r.log2 = 52 := (Nat.log2_eq_iff (by omega)).2 ⟨low, less⟩
    have stays : shiftToTargetExponent Format.binary64 r ((e : Int) - 52) .exact =
        (ExtendedMantissa.mk r false false, (e : Int) - 52) := by
      have none : (max (((52 : Nat) : Int) + ((e : Int) - 52) - 52) (-1074) -
          ((e : Int) - 52)).toNat = 0 := by omega
      rw [shiftToTargetExponent_exact, length, none]
      exact Prod.ext rfl (Int.add_zero _)
    rw [stays, toNat_pack_assemble sign length (by omega)]
  · have shifted : shiftToTargetExponent Format.binary64 (2 ^ 53) ((e : Int) - 52) .exact =
        (ExtendedMantissa.mk (2 ^ 52) false false, ((e + 1 : Nat) : Int) - 52) := by
      have once : (max (((53 : Nat) : Int) + ((e : Int) - 52) - 52) (-1074) -
          ((e : Int) - 52)).toNat = 1 := by omega
      rw [shiftToTargetExponent_exact, Nat.log2_two_pow, once]
      exact Prod.ext rfl (by show (e : Int) - 52 + 1 = _; omega)
    rw [shifted, toNat_pack_assemble sign Nat.log2_two_pow (by omega)]
    omega

theorem toNat_pack_round (sign : Sign) {n : Nat} (h : 0 < n) (small : n.log2 < 1023) :
    (UnpackedFloat.pack Format.binary64 (UnpackedFloat.round Format.binary64 sign n 0)).toNat =
      sign.toBitVec.toNat * 2 ^ 63 + nearestSteps n := by
  have target : Format.binary64.targetExponent (totalExponent n 0) = (n.log2 : Int) - 52 := by
    rw [targetExponent_totalExponent]
    omega
  have filled : n <<< (0 - ((n.log2 : Int) - 52)).toNat = n * 2 ^ (52 - n.log2) := by
    rw [Nat.shiftLeft_eq]
    congr 2
    omega
  have shifted : shiftToTargetExponent Format.binary64 (n * 2 ^ (52 - n.log2))
      (0 - ((0 - ((n.log2 : Int) - 52)).toNat : Int)) .exact =
        (ExtendedMantissa.mk (n * 2 ^ (52 - n.log2)) false false >>> (n.log2 - 52),
          (n.log2 : Int) - 52) := by
    rw [shiftToTargetExponent_exact, log2_mul_two_pow h]
    congr 2
    all_goals omega
  have rounded : (ExtendedMantissa.mk (n * 2 ^ (52 - n.log2)) false false >>>
      (n.log2 - 52)).roundedMantissa = significand n := roundedMantissa_shiftRight _ _
  obtain ⟨low, high⟩ := significand_bounds h
  rw [round_eq_assemble, target]
  dsimp only
  rw [filled, shifted]
  dsimp only
  rw [rounded, toNat_pack_carried sign low high small, nearestSteps, if_neg (Nat.ne_of_gt h)]

/-! ## 4. The order of integers -/

def nearestPlace (n : Int) : Int :=
  if 0 ≤ n then nearestSteps n.natAbs else -(nearestSteps n.natAbs : Int)

/-- **Order.** A larger integer never has a lower place. -/
theorem nearestPlace_mono {m n : Int} (h : m ≤ n) : nearestPlace m ≤ nearestPlace n := by
  unfold nearestPlace
  split
  · rw [if_pos (by omega)]
    exact Int.ofNat_le.2 (nearestSteps_mono (by omega))
  · split
    · omega
    · have steps : nearestSteps n.natAbs ≤ nearestSteps m.natAbs := nearestSteps_mono (by omega)
      omega

theorem log2_natAbs_lt (n : Int64) : n.toInt.natAbs.log2 < 64 := by
  have low := n.le_toInt
  have high := n.toInt_lt
  by_cases zero : n.toInt.natAbs = 0
  · rw [zero]
    decide
  · rw [Nat.log2_lt zero]
    omega

/-- The bits of a converted integer hold its sign and how far it is away from zero. -/
theorem bits_ofInt64 (n : Int64) : ∃ sign : Sign,
    (Scalar.ofInt64 n : Float).toBits.toNat =
        sign.toBitVec.toNat * 2 ^ 63 + nearestSteps n.toInt.natAbs ∧
      sign.apply (nearestSteps n.toInt.natAbs) = nearestPlace n.toInt := by
  have low := n.le_toInt
  have high := n.toInt_lt
  have length : n.toInt.natAbs.log2 < 1023 := by
    have := log2_natAbs_lt n
    omega
  have bits : (Scalar.ofInt64 n : Float).toBits.toNat = (UnpackedFloat.pack Format.binary64
      (UnpackedFloat.normalize Format.binary64 n.toInt 0 .positive)).toNat := rfl
  unfold UnpackedFloat.normalize at bits
  unfold nearestPlace
  obtain negative | zero | positive := lt_trichotomy n.toInt 0
  · have away : (-n.toInt).toNat = n.toInt.natAbs := by omega
    rw [Std.compare_eq_lt.2 negative, away] at bits
    dsimp only at bits
    rw [toNat_pack_round _ (by omega) length] at bits
    exact ⟨.negative, bits, (if_neg (by omega)).symm⟩
  · rw [zero] at bits ⊢
    exact ⟨.positive, bits, rfl⟩
  · have away : n.toInt.toNat = n.toInt.natAbs := by omega
    rw [Std.compare_eq_gt.2 positive, away] at bits
    dsimp only at bits
    rw [toNat_pack_round _ (by omega) length] at bits
    exact ⟨.positive, bits, (if_pos (by omega)).symm⟩

theorem steps_ofInt64 (n : Int64) :
    steps (Scalar.ofInt64 n : Float) = nearestSteps n.toInt.natAbs := by
  have small := nearestSteps_lt (log2_natAbs_lt n)
  obtain ⟨sign, bits, -⟩ := bits_ofInt64 n
  unfold infinitySteps at small
  unfold steps
  rw [bits]
  omega

/-- **Integers are finite doubles.** -/
theorem isFinite_ofInt64 (n : Int64) : Scalar.isFinite (Scalar.ofInt64 n : Float) = true := by
  refine decide_eq_true ?_
  rw [steps_ofInt64]
  exact nearestSteps_lt (log2_natAbs_lt n)

/-- **Integers have places.** -/
theorem place?_ofInt64 (n : Int64) :
    place? (Scalar.ofInt64 n) = some (nearestPlace n.toInt) := by
  have small := nearestSteps_lt (log2_natAbs_lt n)
  obtain ⟨sign, bits, signed⟩ := bits_ofInt64 n
  unfold place?
  rw [steps_ofInt64, bits, if_neg (by omega), ← signed]
  unfold infinitySteps at small
  cases sign with
  | negative => exact if_neg (by show ¬ 1 * 2 ^ 63 + _ < _; omega)
  | positive => exact if_pos (by show 0 * 2 ^ 63 + _ < _; omega)

end RankLedger.Double
