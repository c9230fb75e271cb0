/-!
# The numbers of averages

Averages and stored numeric fields are written over any number type with the operations below.
The program runs on IEEE doubles; over exact rationals the same definitions say what an average
is worth without rounding.  Equality and order are the number type's own: a NaN equals nothing
and compares with nothing.
-/

namespace RankLedger

class Scalar (ν : Type) extends Add ν, Sub ν, Mul ν, Div ν where
  /-- The number nearest to a count. -/
  ofCount : Nat → ν
  /-- The number nearest to a signed 64-bit integer. -/
  ofInt64 : Int64 → ν
  /-- Numeric equality, which tells no zero from another and holds of no NaN. -/
  same : ν → ν → Bool
  /-- Numeric order, absent if one side is no number. -/
  compare? : ν → ν → Option Ordering
  /-- Whether the number can be stored. -/
  isFinite : ν → Bool

def Scalar.zero {ν : Type} [Scalar ν] : ν := Scalar.ofCount 0

/-! ## 1. Doubles -/

namespace Double

def steps (x : Float) : Nat :=
  x.toBits.toNat % 0x8000000000000000

/-- The distance of the infinities from zero.  Only a NaN has more. -/
def infinitySteps : Nat := 0x7ff0000000000000

def place? (x : Float) : Option Int :=
  if infinitySteps < steps x then none
  else if x.toBits.toNat < 0x8000000000000000 then some (steps x)
  else some (-(steps x : Int))

def compare? (a b : Float) : Option Ordering := do
  let m ← place? a
  let n ← place? b
  return compare m n

def same (a b : Float) : Bool :=
  compare? a b == some .eq

theorem compare?_of_place? {a b : Float} {m n : Int} (ha : place? a = some m)
    (hb : place? b = some n) : compare? a b = some (compare m n) := by
  simp [compare?, ha, hb]

/-- The order from the other side is the opposite one. -/
theorem compare?_swap (a b : Float) : (compare? a b).map Ordering.swap = compare? b a := by
  cases ha : place? a <;> cases hb : place? b <;> simp [compare?, ha, hb, Int.compare_swap]

/-- A finite double has a place. -/
theorem isSome_place?_of_lt {x : Float} (h : steps x < infinitySteps) : (place? x).isSome := by
  unfold place?
  rw [if_neg (Nat.lt_asymm h)]
  split <;> rfl

end Double

instance : Scalar Float where
  ofCount n := n.toUInt64.toFloat
  ofInt64 n := .ofModel (.ofInt64 n)
  same := Double.same
  compare? := Double.compare?
  isFinite a := decide (Double.steps a < Double.infinitySteps)

/-! ## 2. Rationals -/

instance : Scalar Rat where
  ofCount n := n
  ofInt64 n := n.toInt
  same a b := a == b
  compare? a b :=
    if a < b then some .lt
    else if b < a then some .gt
    else some .eq
  isFinite _ := true

end RankLedger
