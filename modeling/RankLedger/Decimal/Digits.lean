/-!
# Decimal digits

Sequences of decimal digits, the most significant one first, and the numbers they stand for.
-/

namespace RankLedger

abbrev Digit := Fin 10

namespace Digit

def zero : Digit := ⟨0, by decide⟩

def toChar (digit : Digit) : Char :=
  Char.ofNat (48 + digit.val)

def ofChar? (c : Char) : Option Digit :=
  if h : 48 ≤ c.toNat ∧ c.toNat < 58 then some ⟨c.toNat - 48, by omega⟩ else none

@[simp] theorem ofChar?_toChar (digit : Digit) : ofChar? digit.toChar = some digit := by
  revert digit
  decide

end Digit

namespace Digits

def value (digits : List Digit) : Nat :=
  digits.foldl (fun n digit => 10 * n + digit.val) 0

def ofNat (n : Nat) : List Digit :=
  if h : n < 10 then [⟨n, h⟩] else ofNat (n / 10) ++ [⟨n % 10, Nat.mod_lt _ (by decide)⟩]
termination_by n
decreasing_by omega

def length (n : Nat) : Nat :=
  if n = 0 then 0 else (ofNat n).length

def toChars (digits : List Digit) : List Char :=
  digits.map Digit.toChar

theorem value_append_singleton (digits : List Digit) (digit : Digit) :
    value (digits ++ [digit]) = 10 * value digits + digit.val := by
  simp [value]

theorem value_ofNat (n : Nat) : value (ofNat n) = n := by
  induction n using Nat.strongRecOn with
  | ind n ih =>
      unfold ofNat
      split
      · simp [value]
      · rename_i h
        rw [value_append_singleton, ih (n / 10) (by omega)]
        simp only
        omega

theorem ofNat_ne_nil (n : Nat) : ofNat n ≠ [] := by
  unfold ofNat
  split <;> simp

end Digits

end RankLedger
