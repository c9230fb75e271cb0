import RankLedger.Decimal.Shortest

/-!
# JSON numbers

A JSON number is kept as it is written: sign, digits before and after the point, exponent.  What
number it stands for depends on who reads it.  An integer has to be written as one: neither a
point nor an exponent nor a negative zero.

**How doubles are written.** With the fewest digits that identify them; positionally from `10⁻⁵`
up to below `10¹⁶`, always with a digit after the point; otherwise with an exponent that has a
sign.
-/

namespace RankLedger

/-! ## 1. Written numbers -/

inductive ExponentSign where
  | unsigned
  | plus
  | minus
  deriving DecidableEq, Repr, Inhabited

structure Exponent where
  sign : ExponentSign
  digits : List Digit
  deriving DecidableEq, Repr, Inhabited

/-- A number as it is written.  Without digits after the point there is no point. -/
structure NumberText where
  negative : Bool := false
  whole : List Digit
  fraction : List Digit := []
  exponent : Option Exponent := none
  deriving DecidableEq, Repr, Inhabited

def ExponentSign.toChars : ExponentSign → List Char
  | unsigned => []
  | plus => ['+']
  | minus => ['-']

def Exponent.value (exponent : Exponent) : Int :=
  match exponent.sign with
  | .minus => -(Digits.value exponent.digits : Int)
  | _ => Digits.value exponent.digits

namespace NumberText

def toChars (number : NumberText) : List Char :=
  (if number.negative then ['-'] else [])
    ++ Digits.toChars number.whole
    ++ (if number.fraction.isEmpty then [] else '.' :: Digits.toChars number.fraction)
    ++ (match number.exponent with
      | none => []
      | some exponent => 'e' :: exponent.sign.toChars ++ Digits.toChars exponent.digits)

def ofNat (n : Nat) : NumberText :=
  { whole := Digits.ofNat n }

def ofInt (n : Int) : NumberText :=
  { negative := decide (n < 0), whole := Digits.ofNat n.natAbs }

/-- The value of a number that is written as an integer.  A negative zero is not an integer. -/
def integer? (number : NumberText) : Option Int :=
  if number.fraction.isEmpty && number.exponent.isNone then
    match number.negative, Digits.value number.whole with
    | false, n => some n
    | true, 0 => none
    | true, n + 1 => some (Int.negSucc n)
  else none

def scaled (number : NumberText) : Nat × Int :=
  (Digits.value (number.whole ++ number.fraction),
    (number.exponent.map Exponent.value).getD 0 - number.fraction.length)

/-! ## 2. Decimals -/

def ofDecimal (decimal : Decimal) : NumberText :=
  let place := decimal.exponent
  if 0 ≤ place ∧ place < 16 then
    let width := place.toNat + 1
    let whole := decimal.digits.take width
    let fraction := decimal.digits.drop width
    { negative := decimal.negative
      whole := whole ++ List.replicate (width - whole.length) Digit.zero
      fraction := if fraction.isEmpty then [Digit.zero] else fraction }
  else if -5 ≤ place ∧ place < 0 then
    { negative := decimal.negative
      whole := [Digit.zero]
      fraction := List.replicate (-place - 1).toNat Digit.zero ++ decimal.digits }
  else
    { negative := decimal.negative
      whole := decimal.digits.take 1
      fraction := decimal.digits.drop 1
      exponent := some
        { sign := if place < 0 then .minus else .plus
          digits := Digits.ofNat place.natAbs } }

end NumberText

/-! ## 3. Number types -/

/-- A number type whose members can be written in JSON and read from it. -/
class JsonNumber (ν : Type) where
  /-- How a number is written, unless it has no decimal form. -/
  write? : ν → Option NumberText
  /-- What a written number stands for, unless it is too large. -/
  read? : NumberText → Option ν

/-- The double nearest to `± m * 10 ^ e`, unless that is too large for a double.  If `m` has the
    binary logarithm `b`, it has more than `b / 4` and at most `b / 3 + 1` decimal digits: so a
    power of ten that can only lead to zero or to too much is never formed. -/
def nearestDouble? (negative : Bool) (m : Nat) (e : Int) : Option Float :=
  let magnitude :=
    if m = 0 ∨ ((m.log2 / 3 + 1 : Nat) : Int) + e < -400 then some 0.0
    else if 400 < ((m.log2 / 4 : Nat) : Int) + e then none
    else
      let x := Float.ofScientific m (decide (e < 0)) e.natAbs
      if x.isFinite then some x else none
  magnitude.map fun x => if negative then -x else x

instance : JsonNumber Float where
  write? x := (Decimal.ofFloat? x).map NumberText.ofDecimal
  read? number := nearestDouble? number.negative number.scaled.1 number.scaled.2

end RankLedger
