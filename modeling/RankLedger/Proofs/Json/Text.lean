import RankLedger.Proofs.Json.Spelling
import Mathlib.Data.Fintype.Basic
import Mathlib.Tactic.FinCases

/-!
# Every spelling is read

A text of a JSON value is read as this value, in whatever way it is spelled
(`Json.parse?_of_spells`).  That the tokens build the value is `TreeBuilder.build_tokens`; here it is
shown that the characters give these tokens.  The text that is written of a value is one of its
spellings, so it is read back (`Json.parse?_text`), if the numbers of the value are written as
numbers have to be and its strings are texts.

**Where a number ends.** Every token but a number ends with a character of its own.  A number ends
with the first character that cannot continue it, so after one the reader still waits
(`Lexer.Awaits`).  In the text of a value no two numbers stand side by side: there is always a
bracket, a colon or a comma between them (`Lexer.Takes.join`).
-/

namespace RankLedger

def Token.isNumber : Token → Bool
  | .number _ => true
  | _ => false

/-! ## 1. Characters of strings -/

namespace Lexer

variable {tokens : List Token}

theorem foldlM_hexDigits {digits : List Char} {start code : Nat}
    (h : digits.foldlM addHexDigit? start = some code)
    (filled : digits ≠ []) (codes : List Nat) :
    digits.foldlM step { tokens, mode := .code codes digits.length start } =
      some { tokens, mode := .string (code :: codes) } := by
  induction digits generalizing start with
  | nil => exact absurd rfl filled
  | cons c rest ih =>
      obtain ⟨value, read, h⟩ := Option.bind_eq_some_iff.1 h
      obtain ⟨digit, hex, rfl⟩ := Option.map_eq_some_iff.1 read
      cases rest with
      | nil =>
          cases h
          simp [step, hex]
      | cons next rest =>
          rw [List.foldlM_cons, ← ih h (List.cons_ne_nil _ _)]
          simp [step, hex]

theorem foldlM_codeSpelling {code : Nat} {chars : List Char} (h : CodeSpelling code chars)
    (codes : List Nat) :
    chars.foldlM step { tokens, mode := .string codes } =
      some { tokens, mode := .string (code :: codes) } := by
  cases h with
  | @plain c quote backslash control =>
      simp only [List.foldlM_cons, List.foldlM_nil, step, if_neg quote, if_neg backslash,
        if_neg (Nat.not_lt.2 control)]
      rfl
  | @short c _ mem =>
      have escape : ∀ escape ∈ shortEscapes,
          readEscape codes escape.1 = some (.string (escape.2 :: codes)) := by
        unfold shortEscapes
        simp only [List.forall_mem_cons]
        exact ⟨rfl, rfl, rfl, rfl, rfl, rfl, rfl, rfl, List.forall_mem_nil _⟩
      show (readEscape codes c).map _ >>= _ = _
      rw [escape _ mem]
      rfl
  | @digits digits _ four value =>
      have filled : digits ≠ [] := by
        rintro rfl
        cases four
      rw [← foldlM_hexDigits value filled codes, four]
      rfl

theorem foldlM_codeSpellings {read : List Nat} {body : List Char}
    (h : SpellsAll CodeSpelling read body) (codes : List Nat) :
    body.foldlM step { tokens, mode := .string codes } =
      some { tokens, mode := .string (read.reverse ++ codes) } := by
  induction h generalizing codes with
  | nil => rfl
  | cons first _ ih =>
      rw [List.foldlM_append, foldlM_codeSpelling first, Option.bind_eq_bind, Option.bind_some, ih]
      simp

end Lexer

/-! ## 2. Characters of numbers -/

namespace NumberDraft

def next (place : NumberPhase × NumberDraft) (c : Char) : Option (NumberPhase × NumberDraft) :=
  place.2.add place.1 c

theorem add_toChar (draft : NumberDraft) (phase : NumberPhase) (digit : Digit) :
    draft.add phase digit.toChar = draft.addDigit digit phase := by
  unfold add
  rw [Digit.ofChar?_toChar]

inductive Part where
  | whole
  | fraction
  | exponent

def Part.phase : Part → NumberPhase
  | whole => .whole
  | fraction => .fraction
  | exponent => .exponent

def push (draft : NumberDraft) (digits : List Digit) : Part → NumberDraft
  | .whole => { draft with whole := digits.reverse ++ draft.whole }
  | .fraction => { draft with fraction := digits.reverse ++ draft.fraction }
  | .exponent => { draft with exponent := digits.reverse ++ draft.exponent }

theorem push_nil (draft : NumberDraft) (part : Part) : draft.push [] part = draft := by
  cases part <;> rfl

theorem push_push (draft : NumberDraft) (digit : Digit) (rest : List Digit) (part : Part) :
    (draft.push [digit] part).push rest part = draft.push (digit :: rest) part := by
  cases part <;> simp [push]

theorem addDigit_phase (draft : NumberDraft) (digit : Digit) (part : Part) :
    draft.addDigit digit part.phase = some (part.phase, draft.push [digit] part) := by
  cases part <;> rfl

/-- Behind a digit of a part, further digits stay in it. -/
theorem foldlM_digits (digits : List Digit) (draft : NumberDraft) (part : Part) :
    (Digits.toChars digits).foldlM next (part.phase, draft) =
      some (part.phase, draft.push digits part) := by
  induction digits generalizing draft with
  | nil => exact congrArg (fun draft => some (part.phase, draft)) (push_nil draft part).symm
  | cons digit rest ih =>
      rw [Digits.toChars, List.map_cons, List.foldlM_cons, next, add_toChar, addDigit_phase,
        ← push_push draft digit rest]
      exact ih _

/-- The first digit of a part enters it. -/
theorem foldlM_part (part : Part) {before : NumberPhase} {draft : NumberDraft}
    (enters : ∀ digit, draft.addDigit digit before = some (part.phase, draft.push [digit] part))
    {digits : List Digit} (filled : digits ≠ []) :
    (Digits.toChars digits).foldlM next (before, draft) =
      some (part.phase, draft.push digits part) := by
  cases digits with
  | nil => exact absurd rfl filled
  | cons digit rest =>
      rw [Digits.toChars, List.map_cons, List.foldlM_cons, next, add_toChar, enters,
        ← push_push draft digit rest]
      exact foldlM_digits rest _ part

theorem foldlM_fraction {phase : NumberPhase} (behind : phase = .zero ∨ phase = .whole)
    (fraction : List Digit) (draft : NumberDraft) :
    (if fraction.isEmpty then [] else '.' :: Digits.toChars fraction).foldlM next (phase, draft) =
      some (if fraction.isEmpty then phase else .fraction, draft.push fraction .fraction) := by
  cases fraction with
  | nil => rfl
  | cons digit rest =>
      have point : next (phase, draft) '.' = some (.point, draft) := by
        rcases behind with rfl | rfl <;> rfl
      rw [List.isEmpty_cons, if_neg Bool.false_ne_true, if_neg Bool.false_ne_true,
        List.foldlM_cons, point]
      exact foldlM_part .fraction (fun _ => rfl) (List.cons_ne_nil _ _)

theorem foldlM_exponent {phase : NumberPhase} (complete : phase.isComplete)
    (behind : phase ≠ .exponent) (exponent : Exponent) (filled : exponent.digits ≠ [])
    {draft : NumberDraft} (plain : draft.exponentSign = .unsigned) :
    ('e' :: exponent.sign.toChars ++ Digits.toChars exponent.digits).foldlM next (phase, draft) =
      some (.exponent,
        { draft with exponentSign := exponent.sign }.push exponent.digits .exponent) := by
  obtain ⟨sign, digits⟩ := exponent
  have mark : next (phase, draft) 'e' = some (.exponentMark, draft) := by
    cases phase <;> first | rfl | exact absurd rfl behind | cases complete
  rw [List.cons_append, List.foldlM_cons, mark, Option.bind_eq_bind, Option.bind_some]
  cases sign with
  | unsigned =>
      rw [show { draft with exponentSign := .unsigned } = draft by rw [← plain]]
      exact foldlM_part .exponent (fun _ => rfl) filled
  | plus | minus => exact foldlM_part .exponent (fun _ => rfl) filled

/-- What follows the digits before the point completes the number. -/
theorem foldlM_rest {phase : NumberPhase} (behind : phase = .zero ∨ phase = .whole)
    {number : NumberText} (h : number.IsWellFormed) :
    ∃ place, place.1.isComplete = true ∧ place.2.finish = number ∧
      ((if number.fraction.isEmpty then [] else '.' :: Digits.toChars number.fraction)
        ++ (match number.exponent with
          | none => []
          | some exponent => 'e' :: exponent.sign.toChars ++ Digits.toChars exponent.digits)).foldlM
        next (phase, { negative := number.negative, whole := number.whole.reverse }) =
          some place := by
  obtain ⟨negative, whole, fraction, exponent⟩ := number
  have complete : (if fraction.isEmpty then phase else .fraction).isComplete ∧
      (if fraction.isEmpty then phase else .fraction) ≠ .exponent := by
    rcases behind with rfl | rfl <;> split <;> exact ⟨rfl, nofun⟩
  simp only [List.foldlM_append, foldlM_fraction behind, Option.bind_eq_bind, Option.bind_some]
  cases exponent with
  | none => exact ⟨_, complete.1, by simp [finish, push], rfl⟩
  | some exponent =>
      have filled := h.exponent exponent rfl
      refine ⟨_, rfl, ?_, foldlM_exponent complete.1 complete.2 exponent filled rfl⟩
      simp [finish, push, filled]

end NumberDraft

namespace Lexer

variable {tokens : List Token}

/-- While a number goes on, only its draft changes. -/
theorem foldlM_next {chars : List Char} {place after : NumberPhase × NumberDraft}
    (h : chars.foldlM NumberDraft.next place = some after) :
    chars.foldlM step { tokens, mode := .number place.1 place.2 } =
      some { tokens, mode := .number after.1 after.2 } := by
  induction chars generalizing place with
  | nil =>
      cases h
      rfl
  | cons c rest ih =>
      rw [List.foldlM_cons, Option.bind_eq_bind, Option.bind_eq_some_iff] at h
      obtain ⟨between, goes, h⟩ := h
      rw [NumberDraft.next] at goes
      rw [List.foldlM_cons, step]
      simp only [goes]
      exact ih h

/-- The sign and the digits before the point. -/
theorem foldlM_whole (tokens : List Token) (negative : Bool) {whole : List Digit}
    (h : Digits.IsNumeral whole) :
    ∃ phase, (phase = .zero ∨ phase = .whole) ∧
      ((if negative then ['-'] else []) ++ Digits.toChars whole).foldlM step { tokens } =
        some { tokens, mode := .number phase { negative, whole := whole.reverse } } := by
  obtain ⟨first, rest, rfl, alone⟩ := h
  -- The first digit says whether others may follow.
  have started : ((if negative then ['-'] else []) ++ [first.toChar]).foldlM step { tokens } =
      some
        { tokens
          mode := .number (if first = Digit.zero then .zero else .whole)
            { negative, whole := [first] } } := by
    cases negative <;> fin_cases first <;> rfl
  rw [Digits.toChars, List.map_cons, List.append_cons, List.foldlM_append, started]
  by_cases zero : first = Digit.zero
  · rw [if_pos zero, alone zero]
    exact ⟨.zero, .inl rfl, rfl⟩
  · rw [if_neg zero]
    refine ⟨.whole, .inr rfl, ?_⟩
    have inside : (Digits.toChars rest).foldlM NumberDraft.next
        (.whole, { negative, whole := [first] }) =
          some (.whole, { negative, whole := rest.reverse ++ [first] }) :=
      NumberDraft.foldlM_digits rest _ .whole
    rw [List.reverse_cons]
    exact foldlM_next inside

theorem toChar_ne_mark (digit : Digit) : digit.toChar ≠ 'e' ∧ digit.toChar ≠ 'E' := by
  revert digit
  decide

theorem eq_of_map_smallMark {chars plain : List Char} (h : chars.map smallMark = plain)
    (unmarked : 'e' ∉ plain) : chars = plain := by
  subst h
  refine ((List.map_congr_left fun c mem => ?_).trans (List.map_id chars)).symm
  refine if_neg fun mark => unmarked (List.mem_map.2 ⟨c, mem, if_pos mark⟩)

/-- Both marks of an exponent are read alike. -/
theorem foldlM_smallMark (chars : List Char) (place : NumberPhase × NumberDraft) :
    (chars.map smallMark).foldlM NumberDraft.next place = chars.foldlM NumberDraft.next place := by
  have alike : ∀ (place : NumberPhase × NumberDraft) (c : Char),
      NumberDraft.next place (smallMark c) = NumberDraft.next place c := by
    intro place c
    unfold smallMark
    split
    · next mark =>
      obtain ⟨phase, draft⟩ := place
      rw [mark]
      cases phase <;> rfl
    · rfl
  rw [List.foldlM_map]
  simp only [alike]

/-- The spelling of a number, read between two tokens, is read to the end of the number. -/
theorem foldlM_number (tokens : List Token) {number : NumberText} {chars : List Char}
    (h : number.Spells chars) :
    ∃ phase draft, phase.isComplete = true ∧ draft.finish = number ∧
      chars.foldlM step { tokens } = some { tokens, mode := .number phase draft } := by
  obtain ⟨wellFormed, spelled⟩ := h
  rw [NumberText.toChars, List.append_assoc] at spelled
  obtain ⟨front, back, rfl, whole, rest⟩ := List.map_eq_append_iff.1 spelled
  have unmarked : 'e' ∉ (if number.negative then ['-'] else []) ++ Digits.toChars number.whole := by
    rw [List.mem_append, Digits.toChars, List.mem_map]
    rintro (sign | ⟨digit, -, mark⟩)
    · split at sign <;> simp at sign
    · exact (toChar_ne_mark digit).1 mark
  obtain ⟨phase, behind, read⟩ := foldlM_whole tokens number.negative wellFormed.whole
  obtain ⟨place, complete, finished, restRead⟩ := NumberDraft.foldlM_rest behind wellFormed
  have backRead := (foldlM_smallMark back _).symm.trans ((congrArg _ rest).trans restRead)
  refine ⟨place.1, place.2, complete, finished, ?_⟩
  rw [eq_of_map_smallMark whole unmarked, List.foldlM_append, read]
  exact foldlM_next backRead

/-! ## 3. Tokens -/

inductive Awaits : List Token → Lexer → Prop
  | between (tokens : List Token) : Awaits tokens { tokens }
  | number {tokens : List Token} {phase : NumberPhase} {draft : NumberDraft} :
      phase.isComplete = true →
      Awaits (.number draft.finish :: tokens) { tokens, mode := .number phase draft }

variable {lexer : Lexer}

theorem Awaits.finish (h : Awaits tokens lexer) : lexer.finish = some tokens.reverse := by
  cases h with
  | between => rfl
  | number complete =>
      unfold Lexer.finish
      exact if_pos complete

/-- A character that continues no number ends the one before it. -/
theorem Awaits.step (h : Awaits tokens lexer) {c : Char}
    (ends : ∀ phase draft, NumberDraft.add draft phase c = none) :
    lexer.step c = begin tokens c := by
  cases h with
  | between => rfl
  | number complete =>
      unfold Lexer.step
      simp only [ends, if_pos complete]

theorem begin_of_isBlank {c : Char} (h : IsBlank c) : begin tokens c = some { tokens } := by
  simp only [IsBlank, List.mem_cons, List.not_mem_nil, or_false] at h
  rcases h with rfl | rfl | rfl | rfl <;> rfl

/-- A blank continues no number. -/
theorem add_of_isBlank {c : Char} (h : IsBlank c) (phase : NumberPhase) (draft : NumberDraft) :
    draft.add phase c = none := by
  simp only [IsBlank, List.mem_cons, List.not_mem_nil, or_false] at h
  rcases h with rfl | rfl | rfl | rfl <;> cases phase <;> rfl

theorem foldlM_blanks {blanks : List Char} (blank : ∀ c ∈ blanks, IsBlank c) :
    blanks.foldlM Lexer.step { tokens } = some { tokens } := by
  induction blanks with
  | nil => rfl
  | cons c rest ih =>
      rw [List.forall_mem_cons] at blank
      rw [List.foldlM_cons, (Awaits.between tokens).step (add_of_isBlank blank.1),
        begin_of_isBlank blank.1]
      exact ih blank.2

/-- Blanks end a number and say nothing else. -/
theorem Awaits.foldlM_blanks (h : Awaits tokens lexer) {blanks : List Char}
    (blank : ∀ c ∈ blanks, IsBlank c) :
    ∃ after, blanks.foldlM Lexer.step lexer = some after ∧ Awaits tokens after := by
  cases blanks with
  | nil => exact ⟨lexer, rfl, h⟩
  | cons c rest =>
      rw [List.forall_mem_cons] at blank
      refine ⟨{ tokens }, ?_, .between tokens⟩
      rw [List.foldlM_cons, h.step (add_of_isBlank blank.1), begin_of_isBlank blank.1]
      exact Lexer.foldlM_blanks blank.2

/-- A spelling of a token other than a number is read as this token, also right behind a number. -/
theorem Awaits.foldlM_spelling (h : Awaits tokens lexer) {token : Token}
    (other : token.isNumber = false) {chars : List Char} (spelled : token.Spells chars) :
    chars.foldlM Lexer.step lexer = some { tokens := token :: tokens } := by
  -- Word or bracket, the first character leads out of a number.
  have first : ∀ {c : Char} {rest : List Char}, chars = c :: rest →
      (∀ phase draft, NumberDraft.add draft phase c = none) →
      chars.foldlM Lexer.step lexer =
        (begin tokens c).bind fun lexer => rest.foldlM Lexer.step lexer := by
    intro c rest same ends
    rw [same, List.foldlM_cons, h.step ends]
    rfl
  cases token with
  | number => cases other
  | bool value =>
      cases value <;> exact first spelled fun phase _ => by cases phase <;> rfl
  | string text =>
      obtain ⟨codes, body, inside, means, rfl⟩ := spelled
      rw [first rfl fun phase _ => by cases phase <;> rfl]
      show (body ++ ['"']).foldlM Lexer.step { tokens, mode := .string [] } = _
      rw [List.foldlM_append, foldlM_codeSpellings inside, List.append_nil]
      show some (emit tokens (.string ((textOfCodes codes.reverse.reverse).map String.ofList))) = _
      rw [List.reverse_reverse, (isTextOf_iff inside.codes_lt).1 means]
      rfl
  | _ => exact first spelled fun phase _ => by cases phase <;> rfl

def Takes (read : List Token) : Prop :=
  ∀ chars, SpellsAll Token.SpellsPadded read chars → ∀ tokens, ∃ lexer,
    chars.foldlM step { tokens } = some lexer ∧ Awaits (read.reverse ++ tokens) lexer

theorem Takes.nil : Takes [] := by
  rintro _ ⟨⟩ tokens
  exact ⟨_, rfl, .between tokens⟩

theorem Takes.number (written : NumberText) : Takes [.number written] := by
  rintro _ (_ | ⟨⟨blanks, chars, blank, spelled, rfl⟩, ⟨⟩⟩) tokens
  obtain ⟨phase, draft, complete, rfl, read⟩ := foldlM_number tokens spelled
  refine ⟨_, ?_, .number complete⟩
  rw [List.append_nil, List.foldlM_append, foldlM_blanks blank]
  exact read

/-- A token that is no number keeps what stands before it apart from what stands behind it. -/
theorem Takes.join {before after : List Token} (first : Takes before) {token : Token}
    (other : token.isNumber = false) (rest : Takes after) : Takes (before ++ token :: after) := by
  intro chars spelled tokens
  obtain ⟨front, back, rfl, frontSpelled, backSpelled⟩ := spelled.exists_of_append
  obtain _ | ⟨⟨blanks, written, blank, tokenSpelled, rfl⟩, afterSpelled⟩ := backSpelled
  obtain ⟨lexer, read, awaits⟩ := first _ frontSpelled tokens
  obtain ⟨between, skipped, awaits⟩ := awaits.foldlM_blanks blank
  obtain ⟨last, readRest, awaitsRest⟩ := rest _ afterSpelled (token :: (before.reverse ++ tokens))
  refine ⟨last, ?_, by simpa using awaitsRest⟩
  simp only [List.foldlM_append, read, skipped, awaits.foldlM_spelling other tokenSpelled, readRest,
    Option.bind_eq_bind, Option.bind_some]

theorem Takes.single {token : Token} (other : token.isNumber = false) : Takes [token] :=
  Takes.nil.join other .nil

/-! ## 4. Values -/

mutual

theorem takes_tokens : (value : Json) → Takes value.tokens
  | .null => .single rfl
  | .bool _ => .single rfl
  | .number written => .number written
  | .string _ => .single rfl
  | .array items => Takes.nil.join rfl ((takes_itemTokens items).join rfl .nil)
  | .object members => Takes.nil.join rfl ((takes_memberTokens members).join rfl .nil)

theorem takes_itemTokens : (items : List Json) → Takes (Json.itemTokens items)
  | [] => .nil
  | [item] => takes_tokens item
  | item :: next :: rest => (takes_tokens item).join rfl (takes_itemTokens (next :: rest))

theorem takes_memberTokens : (members : List (Option String × Json)) →
    Takes (Json.memberTokens members)
  | [] => .nil
  | [(_, value)] => Takes.nil.join rfl (Takes.nil.join rfl (takes_tokens value))
  | (_, value) :: next :: rest =>
      Takes.nil.join rfl (Takes.nil.join rfl
        ((takes_tokens value).join rfl (takes_memberTokens (next :: rest))))

end

end Lexer

/-- **Every text of a value is read as the value.** -/
theorem Json.parse?_of_spells {value : Json} {text : String} (h : value.Spells text) :
    Json.parse? text = some value := by
  obtain ⟨written, blanks, spelled, blank, same⟩ := h
  obtain ⟨lexer, read, awaits⟩ := Lexer.takes_tokens value written spelled []
  obtain ⟨after, skipped, awaits⟩ := awaits.foldlM_blanks blank
  have tokens : Token.ofChars? text.toList = some value.tokens := by
    rw [same, Token.ofChars?, List.foldlM_append]
    rw [show ({} : Lexer) = { tokens := [] } from rfl, read, Option.bind_eq_bind, Option.bind_some,
      skipped, Option.bind_some, awaits.finish]
    simp
  rw [Json.parse?, tokens]
  simp [TreeBuilder.build_tokens, TreeBuilder.result?]

/-! ## 5. Written values -/

def Token.IsWritten : Token → Prop
  | .number written => written.IsWellFormed
  | .string text => text.isSome
  | _ => True

def Json.IsWritten (value : Json) : Prop :=
  ∀ token ∈ value.tokens, token.IsWritten

theorem Digits.isNumeral_ofNat (n : Nat) : IsNumeral (ofNat n) := by
  suffices h : ∃ first rest, ofNat n = first :: rest ∧ (first = Digit.zero → n = 0) by
    obtain ⟨first, rest, same, positive⟩ := h
    refine ⟨first, rest, same, fun zero => ?_⟩
    rw [positive zero, ofNat] at same
    exact (List.cons.inj same).2.symm
  induction n using Nat.strongRecOn with
  | ind n ih =>
      unfold ofNat
      split
      next small => exact ⟨_, _, rfl, fun zero => congrArg Fin.val zero⟩
      next large =>
        obtain ⟨first, rest, same, positive⟩ := ih (n / 10) (by omega)
        refine ⟨first, _, by rw [same, List.cons_append], fun zero => ?_⟩
        have := positive zero
        omega

theorem NumberText.isWellFormed_ofNat (n : Nat) : (ofNat n).IsWellFormed :=
  ⟨Digits.isNumeral_ofNat n, fun _ written => nomatch written⟩

theorem hexValue?_hexDigit {n : Nat} (small : n < 16) : hexValue? (hexDigit n) = some n :=
  (by decide : ∀ n : Fin 16, hexValue? (hexDigit n) = some n.val) ⟨n, small⟩

theorem codeSpelling_escapeChar (c : Char) : CodeSpelling c.toNat (escapeChar c) := by
  unfold escapeChar
  split_ifs with quote backslash backspace feed newline carriage tab control
  · rw [quote]; exact .short (by decide)
  · rw [backslash]; exact .short (by decide)
  · rw [backspace]; exact .short (by decide)
  · rw [feed]; exact .short (by decide)
  · rw [newline]; exact .short (by decide)
  · rw [carriage]; exact .short (by decide)
  · rw [tab]; exact .short (by decide)
  · refine .digits rfl ?_
    have zero : hexValue? '0' = some 0 := rfl
    have high := hexValue?_hexDigit (n := c.toNat / 16) (by omega)
    have low := hexValue?_hexDigit (n := c.toNat % 16) (by omega)
    have value : 16 * (c.toNat / 16) + c.toNat % 16 = c.toNat := by omega
    simp [hexNumber?, addHexDigit?, zero, high, low, value]
  · exact .plain quote backslash (Nat.not_lt.1 control)

theorem encodes_map_toNat (text : List Char) : Encodes (text.map Char.toNat) text := by
  induction text with
  | nil => exact .nil
  | cons c rest ih => exact .char c ih

theorem NumberText.map_smallMark_toChars (number : NumberText) :
    number.toChars.map smallMark = number.toChars := by
  refine (List.map_congr_left fun c mem => if_neg ?_).trans (List.map_id _)
  rintro rfl
  have digits : ∀ digits : List Digit, 'E' ∉ Digits.toChars digits := by
    intro digits mem
    obtain ⟨digit, -, mark⟩ := List.mem_map.1 mem
    exact (Lexer.toChar_ne_mark digit).2 mark
  obtain ⟨negative, whole, fraction, exponent⟩ := number
  simp only [toChars, List.mem_append, digits, or_false] at mem
  rcases mem with (sign | behind) | power
  · split at sign <;> simp at sign
  · split at behind <;> simp [digits] at behind
  · split at power
    · cases power
    · next exponent =>
      obtain ⟨sign, after⟩ := exponent
      cases sign <;> simp [ExponentSign.toChars, digits] at power

theorem Token.IsWritten.spells {token : Token} (h : token.IsWritten) :
    token.Spells token.toChars := by
  cases token with
  | number written => exact ⟨h, written.map_smallMark_toChars⟩
  | string text =>
      obtain ⟨text, rfl⟩ := Option.isSome_iff_exists.1 h
      exact ⟨_, _, .flatMap fun c _ => codeSpelling_escapeChar c, encodes_map_toNat _, rfl⟩
  | _ => exact rfl

theorem Json.IsWritten.spells {value : Json} (h : value.IsWritten) : value.Spells value.text := by
  have padded : ∀ token ∈ value.tokens, token.SpellsPadded token.toChars := fun token mem =>
    ⟨[], _, List.forall_mem_nil _, (h token mem).spells, rfl⟩
  have spelled : SpellsAll Token.SpellsPadded (value.tokens.map id) _ := .flatMap padded
  rw [List.map_id] at spelled
  refine ⟨_, [], spelled, List.forall_mem_nil _, ?_⟩
  rw [Json.text, String.toList_ofList, List.append_nil]

/-- **The text that is written of a value is read back as the value.** -/
theorem Json.parse?_text {value : Json} (written : value.IsWritten) :
    Json.parse? value.text = some value :=
  parse?_of_spells written.spells

end RankLedger
