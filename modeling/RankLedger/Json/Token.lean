import RankLedger.Json.Number

/-!
# JSON tokens

A JSON text is a sequence of tokens with blanks between them.  `Lexer.step` reads it character by
character; a number ends with the first character that cannot continue it, every other token ends
with a character of its own.

**Strings.** A string may spell half of a surrogate pair by an escape.  Such a string is well
formed but stands for no text: its token holds none.  Control characters may not stand in a string
as they are.  Written strings escape only the quote, the backslash and the control characters.
-/

namespace RankLedger

/-! ## 1. Tokens -/

inductive Token where
  | beginArray
  | endArray
  | beginObject
  | endObject
  | colon
  | comma
  | null
  | bool (value : Bool)
  | number (written : NumberText)
  /-- A string, and its text if it stands for one. -/
  | string (text : Option String)
  deriving DecidableEq, Repr, Inhabited

def hexDigit (n : Nat) : Char :=
  if n < 10 then Char.ofNat (48 + n) else Char.ofNat (87 + n)

def hexValue? (c : Char) : Option Nat :=
  if '0' ≤ c ∧ c ≤ '9' then some (c.toNat - 48)
  else if 'a' ≤ c ∧ c ≤ 'f' then some (c.toNat - 87)
  else if 'A' ≤ c ∧ c ≤ 'F' then some (c.toNat - 55)
  else none

def escapeChar (c : Char) : List Char :=
  if c = '"' then ['\\', '"']
  else if c = '\\' then ['\\', '\\']
  else if c = '\x08' then ['\\', 'b']
  else if c = '\x0c' then ['\\', 'f']
  else if c = '\n' then ['\\', 'n']
  else if c = '\r' then ['\\', 'r']
  else if c = '\t' then ['\\', 't']
  else if c.toNat < 32 then
    ['\\', 'u', '0', '0', hexDigit (c.toNat / 16), hexDigit (c.toNat % 16)]
  else [c]

namespace Token

def toChars : Token → List Char
  | beginArray => ['[']
  | endArray => [']']
  | beginObject => ['\x7b']
  | endObject => ['\x7d']
  | colon => [':']
  | comma => [',']
  | null => ['n', 'u', 'l', 'l']
  | bool true => ['t', 'r', 'u', 'e']
  | bool false => ['f', 'a', 'l', 's', 'e']
  | number written => written.toChars
  | string text => '"' :: (text.getD "").toList.flatMap escapeChar ++ ['"']

end Token

/-! ## 2. Texts of strings -/

def textOfCodes : List Nat → Option (List Char)
  | [] => some []
  | code :: rest =>
      if 0xD800 ≤ code ∧ code < 0xDC00 then
        match rest with
        | low :: rest =>
            if 0xDC00 ≤ low ∧ low < 0xE000 then
              (textOfCodes rest).map
                (Char.ofNat (0x10000 + (code - 0xD800) * 0x400 + (low - 0xDC00)) :: ·)
            else none
        | [] => none
      else if 0xDC00 ≤ code ∧ code < 0xE000 then none
      else (textOfCodes rest).map (Char.ofNat code :: ·)

/-! ## 3. Reading -/

inductive NumberPhase where
  /-- After a minus sign. -/
  | sign
  /-- After a leading zero. -/
  | zero
  /-- After a digit before the point. -/
  | whole
  /-- After the point. -/
  | point
  /-- After a digit behind the point. -/
  | fraction
  /-- After the letter of the exponent. -/
  | exponentMark
  /-- After the sign of the exponent. -/
  | exponentSign
  /-- After a digit of the exponent. -/
  | exponent
  deriving DecidableEq, Repr, Inhabited

def NumberPhase.isComplete : NumberPhase → Bool
  | zero | whole | fraction | exponent => true
  | sign | point | exponentMark | exponentSign => false

structure NumberDraft where
  negative : Bool := false
  whole : List Digit := []
  fraction : List Digit := []
  exponentSign : ExponentSign := .unsigned
  exponent : List Digit := []
  deriving DecidableEq, Repr, Inhabited

namespace NumberDraft

def finish (draft : NumberDraft) : NumberText :=
  { negative := draft.negative
    whole := draft.whole.reverse
    fraction := draft.fraction.reverse
    exponent :=
      if draft.exponent.isEmpty then none
      else some { sign := draft.exponentSign, digits := draft.exponent.reverse } }

def addDigit (draft : NumberDraft) (digit : Digit) :
    NumberPhase → Option (NumberPhase × NumberDraft)
  | .sign =>
      some (if digit = Digit.zero then .zero else .whole,
        { draft with whole := digit :: draft.whole })
  | .zero => none
  | .whole => some (.whole, { draft with whole := digit :: draft.whole })
  | .point | .fraction => some (.fraction, { draft with fraction := digit :: draft.fraction })
  | .exponentMark | .exponentSign | .exponent =>
      some (.exponent, { draft with exponent := digit :: draft.exponent })

def add (draft : NumberDraft) (phase : NumberPhase) (c : Char) :
    Option (NumberPhase × NumberDraft) :=
  match Digit.ofChar? c with
  | some digit => draft.addDigit digit phase
  | none =>
      match phase, c with
      | .zero, '.' | .whole, '.' => some (.point, draft)
      | .zero, 'e' | .zero, 'E' | .whole, 'e' | .whole, 'E' | .fraction, 'e' | .fraction, 'E' =>
          some (.exponentMark, draft)
      | .exponentMark, '+' => some (.exponentSign, { draft with exponentSign := .plus })
      | .exponentMark, '-' => some (.exponentSign, { draft with exponentSign := .minus })
      | _, _ => none

end NumberDraft

inductive LexerMode where
  | between
  /-- In a word that goes on like this. -/
  | word (rest : List Char) (token : Token)
  | number (phase : NumberPhase) (draft : NumberDraft)
  | string (codes : List Nat)
  /-- After a backslash. -/
  | escape (codes : List Nat)
  /-- In the digits of an escaped code, with this many to come. -/
  | code (codes : List Nat) (missing value : Nat)
  deriving DecidableEq, Repr, Inhabited

structure Lexer where
  tokens : List Token := []
  mode : LexerMode := .between
  deriving DecidableEq, Repr, Inhabited

namespace Lexer

def emit (tokens : List Token) (token : Token) : Lexer :=
  { tokens := token :: tokens }

def begin (tokens : List Token) (c : Char) : Option Lexer :=
  match c with
  | ' ' | '\n' | '\t' | '\r' => some { tokens }
  | '[' => some (emit tokens .beginArray)
  | ']' => some (emit tokens .endArray)
  | '\x7b' => some (emit tokens .beginObject)
  | '\x7d' => some (emit tokens .endObject)
  | ':' => some (emit tokens .colon)
  | ',' => some (emit tokens .comma)
  | 'n' => some { tokens, mode := .word ['u', 'l', 'l'] .null }
  | 't' => some { tokens, mode := .word ['r', 'u', 'e'] (.bool true) }
  | 'f' => some { tokens, mode := .word ['a', 'l', 's', 'e'] (.bool false) }
  | '"' => some { tokens, mode := .string [] }
  | '-' => some { tokens, mode := .number .sign { negative := true } }
  | c =>
      (Digit.ofChar? c).bind fun digit =>
        (({} : NumberDraft).addDigit digit .sign).map fun started =>
          { tokens, mode := .number started.1 started.2 }

def readEscape (codes : List Nat) (c : Char) : Option LexerMode :=
  match c with
  | '"' | '\\' | '/' => some (.string (c.toNat :: codes))
  | 'b' => some (.string (8 :: codes))
  | 'f' => some (.string (12 :: codes))
  | 'n' => some (.string (10 :: codes))
  | 'r' => some (.string (13 :: codes))
  | 't' => some (.string (9 :: codes))
  | 'u' => some (.code codes 4 0)
  | _ => none

def step (lexer : Lexer) (c : Char) : Option Lexer :=
  match lexer.mode with
  | .between => begin lexer.tokens c
  | .word [] _ => none
  | .word (expected :: rest) token =>
      if c = expected then
        match rest with
        | [] => some (emit lexer.tokens token)
        | rest => some { lexer with mode := .word rest token }
      else none
  | .number phase draft =>
      match draft.add phase c with
      | some (phase, draft) => some { lexer with mode := .number phase draft }
      | none =>
          if phase.isComplete then begin (.number draft.finish :: lexer.tokens) c else none
  | .string codes =>
      if c = '"' then
        some (emit lexer.tokens (.string ((textOfCodes codes.reverse).map String.ofList)))
      else if c = '\\' then some { lexer with mode := .escape codes }
      else if c.toNat < 32 then none
      else some { lexer with mode := .string (c.toNat :: codes) }
  | .escape codes => (readEscape codes c).map fun mode => { lexer with mode }
  | .code codes missing value =>
      (hexValue? c).map fun digit =>
        let value := 16 * value + digit
        let mode :=
          if missing ≤ 1 then .string (value :: codes) else .code codes (missing - 1) value
        { lexer with mode }

def finish (lexer : Lexer) : Option (List Token) :=
  match lexer.mode with
  | .between => some lexer.tokens.reverse
  | .number phase draft =>
      if phase.isComplete then some (.number draft.finish :: lexer.tokens).reverse else none
  | _ => none

end Lexer

def Token.ofChars? (text : List Char) : Option (List Token) :=
  (text.foldlM Lexer.step {}).bind Lexer.finish

end RankLedger
