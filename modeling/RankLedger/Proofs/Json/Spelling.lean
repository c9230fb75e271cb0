import Mathlib.Algebra.Order.Ring.Nat
import Mathlib.Tactic.SplitIfs
import RankLedger.Json.Basic

/-!
# Spellings of JSON values

A value has tokens, in one order (`Json.tokens`), but many texts.  Blanks may stand around every
token.  In a string every character may stand for itself or be escaped, some of them in more than
one way.  The exponent of a number may be marked by a letter of either case.  `Json.Spells` says
which texts are texts of a value: it is the grammar of JSON, and does not mention the reader.

**Strings without a text.** An escape may spell half of a surrogate pair.  Only if its other half
follows, the two together stand for a character; otherwise the string is well formed but is no
text.  `textOfCodes` finds the text of every string that has one (`isTextOf_iff`).
-/

namespace RankLedger

inductive SpellsAll {α : Type} (spells : α → List Char → Prop) : List α → List Char → Prop
  | nil : SpellsAll spells [] []
  | cons {first : α} {rest : List α} {chars others : List Char} :
      spells first chars → SpellsAll spells rest others →
      SpellsAll spells (first :: rest) (chars ++ others)

namespace SpellsAll

variable {α : Type} {spells : α → List Char → Prop} {before after : List α}

theorem append {chars others : List Char} (h : SpellsAll spells before chars)
    (rest : SpellsAll spells after others) :
    SpellsAll spells (before ++ after) (chars ++ others) := by
  induction h with
  | nil => exact rest
  | cons first _ ih =>
      rw [List.cons_append, List.append_assoc]
      exact .cons first ih

theorem single {x : α} {chars : List Char} (h : spells x chars) : SpellsAll spells [x] chars :=
  List.append_nil chars ▸ .cons h .nil

theorem exists_of_append {text : List Char} (h : SpellsAll spells (before ++ after) text) :
    ∃ chars others, text = chars ++ others ∧ SpellsAll spells before chars ∧
      SpellsAll spells after others := by
  induction before generalizing text with
  | nil => exact ⟨[], text, rfl, .nil, h⟩
  | cons first rest ih =>
      obtain _ | ⟨spelled, h⟩ := h
      obtain ⟨chars, others, rfl, left, right⟩ := ih h
      exact ⟨_, others, (List.append_assoc ..).symm, .cons spelled left, right⟩

theorem flatMap {β : Type} {thing : β → α} {spell : β → List Char} {all : List β}
    (h : ∀ x ∈ all, spells (thing x) (spell x)) :
    SpellsAll spells (all.map thing) (all.flatMap spell) := by
  induction all with
  | nil => exact .nil
  | cons first rest ih =>
      rw [List.forall_mem_cons] at h
      exact .cons h.1 (ih h.2)

end SpellsAll

/-! ## 1. Strings -/

def shortEscapes : List (Char × Nat) :=
  [('"', 34), ('\\', 92), ('/', 47), ('b', 8), ('f', 12), ('n', 10), ('r', 13), ('t', 9)]

def addHexDigit? (value : Nat) (c : Char) : Option Nat :=
  (hexValue? c).map (16 * value + ·)

def hexNumber? (digits : List Char) : Option Nat :=
  digits.foldlM addHexDigit? 0

inductive CodeSpelling : Nat → List Char → Prop
  /-- By its character, unless this has to be escaped. -/
  | plain {c : Char} : c ≠ '"' → c ≠ '\\' → 32 ≤ c.toNat → CodeSpelling c.toNat [c]
  | short {c : Char} {code : Nat} : (c, code) ∈ shortEscapes → CodeSpelling code ['\\', c]
  /-- By four hexadecimal digits. -/
  | digits {digits : List Char} {code : Nat} : digits.length = 4 → hexNumber? digits = some code →
      CodeSpelling code ('\\' :: 'u' :: digits)

inductive Encodes : List Nat → List Char → Prop
  | nil : Encodes [] []
  | char {codes : List Nat} {text : List Char} (c : Char) :
      Encodes codes text → Encodes (c.toNat :: codes) (c :: text)
  | pair {codes : List Nat} {text : List Char} (c : Char) (offset : Nat) :
      c.toNat = 0x10000 + offset → Encodes codes text →
      Encodes ((0xD800 + offset / 0x400) :: (0xDC00 + offset % 0x400) :: codes) (c :: text)

def IsTextOf (codes : List Nat) : Option String → Prop
  | some text => Encodes codes text.toList
  | none => ∀ text, ¬ Encodes codes text

/-! ## 2. Tokens -/

def Digits.IsNumeral (digits : List Digit) : Prop :=
  ∃ first rest, digits = first :: rest ∧ (first = Digit.zero → rest = [])

structure NumberText.IsWellFormed (number : NumberText) : Prop where
  whole : Digits.IsNumeral number.whole
  exponent : ∀ exponent, number.exponent = some exponent → exponent.digits ≠ []

def smallMark (c : Char) : Char :=
  if c = 'E' then 'e' else c

/-- A spelling of a number; its exponent is marked by a letter of either case. -/
def NumberText.Spells (number : NumberText) (chars : List Char) : Prop :=
  number.IsWellFormed ∧ chars.map smallMark = number.toChars

def Token.Spells : Token → List Char → Prop
  | .number written, chars => written.Spells chars
  | .string text, chars => ∃ codes body, SpellsAll CodeSpelling codes body ∧ IsTextOf codes text ∧
      chars = '"' :: body ++ ['"']
  | token, chars => chars = token.toChars

def IsBlank (c : Char) : Prop :=
  c ∈ [' ', '\n', '\t', '\r']

def Token.SpellsPadded (token : Token) (chars : List Char) : Prop :=
  ∃ blanks written, (∀ c ∈ blanks, IsBlank c) ∧ token.Spells written ∧ chars = blanks ++ written

def Token.SpellsText (tokens : List Token) (text : List Char) : Prop :=
  ∃ written blanks, SpellsAll SpellsPadded tokens written ∧ (∀ c ∈ blanks, IsBlank c) ∧
    text = written ++ blanks

/-! ## 3. Values -/

def Json.Spells (value : Json) (text : String) : Prop :=
  Token.SpellsText value.tokens text.toList

/-! ## 4. Decoding -/

/-- No character is half of a surrogate pair. -/
theorem toNat_lt_or_le (c : Char) :
    c.toNat < 0xD800 ∨ 0xE000 ≤ c.toNat ∧ c.toNat < 0x110000 := by
  have := c.valid
  unfold UInt32.isValidChar Nat.isValidChar at this
  unfold Char.toNat
  omega

theorem toNat_ofNat_of_valid {n : Nat} (valid : n.isValidChar) : (Char.ofNat n).toNat = n := by
  rw [Char.ofNat, dif_pos valid]
  rfl

theorem textOfCodes_of_encodes {codes : List Nat} {text : List Char} (h : Encodes codes text) :
    textOfCodes codes = some text := by
  induction h with
  | nil => rfl
  | char c _ ih =>
      have valid := toNat_lt_or_le c
      rw [textOfCodes.eq_def]
      simp only
      rw [if_neg (by omega), if_neg (by omega), ih, Option.map_some, Char.ofNat_toNat]
  | pair c offset place _ ih =>
      have valid := toNat_lt_or_le c
      have whole : 0x10000 + (0xD800 + offset / 0x400 - 0xD800) * 0x400 +
          (0xDC00 + offset % 0x400 - 0xDC00) = c.toNat := by omega
      rw [textOfCodes.eq_def]
      simp only
      rw [if_pos (by omega), if_pos (by omega), whole, ih, Option.map_some, Char.ofNat_toNat]

theorem encodes_of_textOfCodes {codes : List Nat} (small : ∀ code ∈ codes, code < 0x110000)
    {text : List Char} (h : textOfCodes codes = some text) : Encodes codes text := by
  fun_induction textOfCodes codes generalizing text with
  | case1 =>
      cases h
      exact .nil
  | case2 high isHigh low rest isLow ih =>
      simp only [List.forall_mem_cons] at small
      obtain ⟨after, read, rfl⟩ := Option.map_eq_some_iff.1 h
      have place : (Char.ofNat (0x10000 + (high - 0xD800) * 0x400 + (low - 0xDC00))).toNat =
          0x10000 + ((high - 0xD800) * 0x400 + (low - 0xDC00)) := by
        rw [toNat_ofNat_of_valid (.inr (by omega)), Nat.add_assoc]
      have pair := Encodes.pair _ _ place (ih small.2.2 read)
      rwa [show 0xD800 + ((high - 0xD800) * 0x400 + (low - 0xDC00)) / 0x400 = high by omega,
        show 0xDC00 + ((high - 0xD800) * 0x400 + (low - 0xDC00)) % 0x400 = low by omega] at pair
  | case3 | case4 | case5 => cases h
  | case6 code rest notHigh notLow ih =>
      rw [List.forall_mem_cons] at small
      obtain ⟨after, read, rfl⟩ := Option.map_eq_some_iff.1 h
      have valid : code.isValidChar := by
        unfold Nat.isValidChar
        omega
      have char := Encodes.char (Char.ofNat code) (ih small.2 read)
      rwa [toNat_ofNat_of_valid valid] at char

theorem hexValue?_lt {c : Char} {value : Nat} (h : hexValue? c = some value) : value < 16 := by
  have place : ∀ d : Char, d ≤ c ↔ d.toNat ≤ c.toNat := fun d => Iff.rfl
  have below : ∀ d : Char, c ≤ d ↔ c.toNat ≤ d.toNat := fun d => Iff.rfl
  unfold hexValue? at h
  simp only [place, below] at h
  split_ifs at h with decimal small capital <;> cases h
  · have : ('9' : Char).toNat = 57 := rfl
    omega
  · have : ('f' : Char).toNat = 102 := rfl
    omega
  · have : ('F' : Char).toNat = 70 := rfl
    omega

theorem hexNumber?_lt {digits : List Char} {start code : Nat}
    (h : digits.foldlM addHexDigit? start = some code) :
    code < (start + 1) * 16 ^ digits.length := by
  induction digits generalizing start with
  | nil =>
      cases h
      simp
  | cons c rest ih =>
      obtain ⟨value, read, h⟩ := Option.bind_eq_some_iff.1 h
      obtain ⟨digit, hex, rfl⟩ := Option.map_eq_some_iff.1 read
      have small := hexValue?_lt hex
      calc code < (16 * start + digit + 1) * 16 ^ rest.length := ih h
        _ ≤ ((start + 1) * 16) * 16 ^ rest.length := Nat.mul_le_mul_right _ (by omega)
        _ = (start + 1) * 16 ^ (c :: rest).length := by
          rw [List.length_cons, Nat.pow_succ', Nat.mul_assoc]

theorem CodeSpelling.lt {code : Nat} {chars : List Char} (h : CodeSpelling code chars) :
    code < 0x110000 := by
  cases h with
  | @plain c =>
      have := toNat_lt_or_le c
      omega
  | short mem =>
      have : ∀ escape ∈ shortEscapes, escape.2 < 0x110000 := by decide
      exact this _ mem
  | digits four value =>
      have := hexNumber?_lt value
      rw [four] at this
      omega

theorem SpellsAll.codes_lt {codes : List Nat} {body : List Char}
    (h : SpellsAll CodeSpelling codes body) : ∀ code ∈ codes, code < 0x110000 := by
  induction h with
  | nil => exact List.forall_mem_nil _
  | cons first _ ih => exact List.forall_mem_cons.2 ⟨first.lt, ih⟩

theorem isTextOf_iff {codes : List Nat} (small : ∀ code ∈ codes, code < 0x110000)
    {text : Option String} :
    IsTextOf codes text ↔ (textOfCodes codes).map String.ofList = text := by
  cases text with
  | none =>
      rw [Option.map_eq_none_iff, Option.eq_none_iff_forall_ne_some]
      exact forall_congr' fun text =>
        not_congr ⟨textOfCodes_of_encodes, encodes_of_textOfCodes small⟩
  | some text =>
      rw [Option.map_eq_some_iff]
      constructor
      · exact fun h => ⟨text.toList, textOfCodes_of_encodes h, String.ofList_toList⟩
      · rintro ⟨chars, read, rfl⟩
        rw [IsTextOf, String.toList_ofList]
        exact encodes_of_textOfCodes small read

end RankLedger
