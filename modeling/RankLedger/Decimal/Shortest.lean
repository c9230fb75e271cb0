import RankLedger.Decimal.Digits

/-!
# Shortest decimals of doubles

A finite double is a signed integer times a power of two.  Many decimals round to the same double;
this module finds the one with the fewest digits, and among those the one nearest to the double
itself.  All of it is exact integer arithmetic.

**Method.** The decimals that round to a double form an interval around it; its ends belong to it
exactly when the integer is even.  On the grid of multiples of a power of ten, a member of the
interval can only be one of the two neighbours of the double.  So the grids are tried from coarse
to fine, and the first one with a member decides.
-/

namespace RankLedger

/-! ## 1. Doubles as integers times powers of two -/

structure Dyadic where
  negative : Bool
  mantissa : Nat
  exponent : Int
  deriving DecidableEq, Repr, Inhabited

namespace Dyadic

def implicitBit : Nat := 0x10000000000000

def ofFloat? (x : Float) : Option Dyadic :=
  let bits := x.toBits.toNat
  let negative := decide (bits / 0x8000000000000000 = 1)
  let biased : Nat := bits / implicitBit % 0x800
  let rest := bits % implicitBit
  if biased = 0x7ff then none
  else if biased = 0 then some { negative, mantissa := rest, exponent := -1074 }
  else some { negative, mantissa := rest + implicitBit, exponent := (biased : Int) - 1075 }

/-- Whether the next smaller double is only half as far away as the next larger one: the double is
    a power of two, and not one of the smallest. -/
def hasNarrowGapBelow (d : Dyadic) : Bool :=
  d.mantissa == implicitBit && decide (-1074 < d.exponent)

end Dyadic

/-! ## 2. Decimals -/

structure Decimal where
  negative : Bool
  digits : List Digit
  exponent : Int
  deriving DecidableEq, Repr, Inhabited

def Digits.trim (digits : List Digit) : List Digit :=
  match (digits.reverse.dropWhile (· == Digit.zero)).reverse with
  | [] => [Digit.zero]
  | trimmed => trimmed

def Decimal.ofScaled (negative : Bool) (n : Nat) (place : Int) : Decimal :=
  let digits := Digits.ofNat n
  { negative, digits := Digits.trim digits, exponent := place + (digits.length - 1 : Nat) }

/-! ## 3. The search -/

/-- The interval of a double, as `low / unit`, `middle / unit` and `high / unit` in units of
    `scale / unit`, where `closed` says whether its ends belong to it. -/
structure RoundingInterval where
  low : Nat
  middle : Nat
  high : Nat
  unit : Nat
  closed : Bool
  deriving DecidableEq, Repr

namespace RoundingInterval

def ofDyadic (d : Dyadic) : RoundingInterval :=
  let quarters := 4 * d.mantissa
  let below := if d.hasNarrowGapBelow then 1 else 2
  let scale := Nat.pow 2 (d.exponent - 2).toNat
  { low := (quarters - below) * scale
    middle := quarters * scale
    high := (quarters + 2) * scale
    unit := Nat.pow 2 (2 - d.exponent).toNat
    closed := d.mantissa % 2 == 0 }

/-- The same interval with everything multiplied by a power of ten, so that the grid of
    `10 ^ place` becomes the grid of multiples of the new unit. -/
def onGrid (interval : RoundingInterval) (place : Int) : RoundingInterval :=
  let up := Nat.pow 10 (-place).toNat
  { interval with
    low := interval.low * up
    middle := interval.middle * up
    high := interval.high * up
    unit := interval.unit * Nat.pow 10 place.toNat }

def contains (interval : RoundingInterval) (n : Nat) : Bool :=
  let point := n * interval.unit
  if interval.closed then decide (interval.low ≤ point ∧ point ≤ interval.high)
  else decide (interval.low < point ∧ point < interval.high)

def nearest? (interval : RoundingInterval) : Option Nat :=
  let n := interval.middle / interval.unit
  let rest := interval.middle % interval.unit
  match interval.contains n, interval.contains (n + 1) with
  | true, true =>
      if 2 * rest < interval.unit then some n
      else if interval.unit < 2 * rest then some (n + 1)
      else if n % 2 = 0 then some n
      else some (n + 1)
  | true, false => some n
  | false, true => some (n + 1)
  | false, false => none

def leadingPlace (interval : RoundingInterval) : Int :=
  if interval.unit ≤ interval.middle then
    (Digits.length (interval.middle / interval.unit) : Int) - 1
  else
    -(Digits.length ((interval.unit + interval.middle - 1) / interval.middle - 1) : Int)

/-- Tries the grids of `place` and up to `finer` finer ones; on the last grid the digits below the
    middle are taken. -/
def search (interval : RoundingInterval) : (finer : Nat) → (place : Int) → Nat × Int
  | 0, place =>
      let grid := interval.onGrid place
      ((grid.nearest?).getD (grid.middle / grid.unit), place)
  | finer + 1, place =>
      match (interval.onGrid place).nearest? with
      | some n => (n, place)
      | none => interval.search finer (place - 1)

end RoundingInterval

def Dyadic.shortest (d : Dyadic) : Decimal :=
  if d.mantissa = 0 then { negative := d.negative, digits := [Digit.zero], exponent := 0 }
  else
    let interval := RoundingInterval.ofDyadic d
    let (n, place) := interval.search 16 interval.leadingPlace
    Decimal.ofScaled d.negative n place

def Decimal.ofFloat? (x : Float) : Option Decimal :=
  (Dyadic.ofFloat? x).map Dyadic.shortest

end RankLedger
