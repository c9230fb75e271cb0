import RankLedger.Proofs.Json.Text

/-!
# Only spellings are read

A text that is read as a JSON value is a text of this value.  So reading accepts exactly the grammar
(`Json.parse?_eq_some_iff`): a value is read from a text if and only if the text spells it.

**Shape.** The tree builder and the reader of tokens are machines that take one thing at a time.  For
each it is said what a state has read (`TreeBuilder.tokens`, `Lexer.Reads`), and shown that a step
adds to it what it takes (`TreeBuilder.step_reads`, `Lexer.Reads.step`).
-/

namespace RankLedger

/-! ## 1. Trees -/

namespace Json

theorem itemTokens_concat (items : List Json) (last : Json) :
    itemTokens (items ++ [last]) =
      (items.flatMap fun item => item.tokens ++ [.comma]) ++ last.tokens := by
  induction items with
  | nil => rfl
  | cons item rest ih =>
      cases rest with
      | nil => simp [itemTokens]
      | cons next rest =>
          simp only [List.cons_append] at ih
          simp only [List.cons_append, itemTokens, ih, List.flatMap_cons, List.append_assoc,
            List.nil_append]

def memberAndComma (member : Option String × Json) : List Token :=
  .string member.1 :: .colon :: member.2.tokens ++ [.comma]

theorem memberTokens_concat (members : List (Option String × Json))
    (last : Option String × Json) :
    memberTokens (members ++ [last]) =
      members.flatMap memberAndComma ++ .string last.1 :: .colon :: last.2.tokens := by
  induction members with
  | nil => rfl
  | cons member rest ih =>
      cases rest with
      | nil => simp [memberTokens, memberAndComma]
      | cons next rest =>
          simp only [List.cons_append] at ih
          simp only [List.cons_append, memberTokens, ih, List.flatMap_cons, List.append_assoc,
            memberAndComma, List.nil_append]

end Json

def Frame.tokens : Frame → List Token
  | .items done => .beginArray :: done.reverse.flatMap fun item => item.tokens ++ [.comma]
  | .member done key =>
      .beginObject :: done.reverse.flatMap Json.memberAndComma ++ [.string key, .colon]

namespace TreeBuilder

def around (stack : List Frame) : List Token :=
  stack.reverse.flatMap Frame.tokens

def tokens : TreeBuilder → List Token
  | .anyValue stack => around stack
  | .firstItem stack => around stack ++ [.beginArray]
  | .firstKey stack => around stack ++ [.beginObject]
  | .nextKey done stack =>
      around stack ++ .beginObject :: done.reverse.flatMap Json.memberAndComma
  | .colon done key stack =>
      around stack ++ .beginObject :: done.reverse.flatMap Json.memberAndComma ++ [.string key]
  | .afterItem done stack => around stack ++ .beginArray :: Json.itemTokens done.reverse
  | .afterMember done stack => around stack ++ .beginObject :: Json.memberTokens done.reverse
  | .complete value => value.tokens

def IsFilled : TreeBuilder → Prop
  | .afterItem done _ => done ≠ []
  | .afterMember done _ => done ≠ []
  | _ => True

theorem around_cons (frame : Frame) (stack : List Frame) :
    around (frame :: stack) = around stack ++ frame.tokens := by
  simp [around]

theorem close_reads (value : Json) (stack : List Frame) :
    (close value stack).IsFilled ∧ (close value stack).tokens = around stack ++ value.tokens := by
  cases stack with
  | nil => exact ⟨trivial, rfl⟩
  | cons frame stack =>
      rw [around_cons]
      cases frame with
      | items done =>
          refine ⟨List.cons_ne_nil _ _, ?_⟩
          simp [close, tokens, Frame.tokens, Json.itemTokens_concat]
      | member done key =>
          refine ⟨List.cons_ne_nil _ _, ?_⟩
          simp [close, tokens, Frame.tokens, Json.memberTokens_concat]

theorem start_reads {token : Token} {stack : List Frame} {after : TreeBuilder}
    (h : start token stack = some after) :
    after.IsFilled ∧ after.tokens = around stack ++ [token] := by
  cases token with
  | null | bool | number | string =>
      cases h
      exact close_reads _ stack
  | beginArray | beginObject =>
      cases h
      exact ⟨trivial, rfl⟩
  | endArray | endObject | colon | comma => cases h

/-- A comma behind an item or a member makes it one of those that have a comma behind them. -/
theorem tokens_comma {done : List Json} (filled : done ≠ []) :
    Json.itemTokens done.reverse ++ [.comma] =
      done.reverse.flatMap fun item => item.tokens ++ [.comma] := by
  obtain ⟨last, rest, rfl⟩ := List.exists_cons_of_ne_nil filled
  simp [Json.itemTokens_concat]

theorem tokens_member_comma {done : List (Option String × Json)} (filled : done ≠ []) :
    Json.memberTokens done.reverse ++ [.comma] = done.reverse.flatMap Json.memberAndComma := by
  obtain ⟨last, rest, rfl⟩ := List.exists_cons_of_ne_nil filled
  simp [Json.memberTokens_concat, Json.memberAndComma]

/-- **A step reads its token**, and nothing that was read before is lost. -/
theorem step_reads {builder after : TreeBuilder} {token : Token}
    (h : builder.step token = some after) (filled : builder.IsFilled) :
    after.IsFilled ∧ after.tokens = builder.tokens ++ [token] := by
  unfold step at h
  split at h
  · exact start_reads h
  · cases h
    simpa [tokens, Json.tokens, Json.itemTokens] using close_reads (.array []) _
  · simpa [tokens, around_cons, Frame.tokens] using start_reads h
  · cases h
    simpa [tokens, Json.tokens, Json.memberTokens] using close_reads (.object []) _
  · cases h
    exact ⟨trivial, by simp [tokens]⟩
  · cases h
    exact ⟨trivial, by simp [tokens]⟩
  · cases h
    exact ⟨trivial, by simp [tokens, around_cons, Frame.tokens]⟩
  · cases h
    refine ⟨trivial, ?_⟩
    simp [tokens, around_cons, Frame.tokens, ← tokens_comma filled]
  · cases h
    simpa [tokens, Json.tokens] using close_reads (.array _) _
  · cases h
    refine ⟨trivial, ?_⟩
    simp [tokens, ← tokens_member_comma filled]
  · cases h
    simpa [tokens, Json.tokens] using close_reads (.object _) _
  · cases h

theorem foldlM_reads {read : List Token} {builder after : TreeBuilder}
    (h : read.foldlM step builder = some after) (filled : builder.IsFilled) :
    after.tokens = builder.tokens ++ read := by
  induction read generalizing builder with
  | nil =>
      cases h
      exact (List.append_nil _).symm
  | cons token rest ih =>
      obtain ⟨between, first, h⟩ := Option.bind_eq_some_iff.1 h
      obtain ⟨filled, tokens⟩ := step_reads first filled
      rw [ih h filled, tokens, List.append_assoc]
      rfl

/-- Tokens that build a value are the tokens of this value. -/
theorem eq_tokens_of_build {read : List Token} {value : Json}
    (h : (read.foldlM step (.anyValue [])).bind result? = some value) : read = value.tokens := by
  obtain ⟨after, built, complete⟩ := Option.bind_eq_some_iff.1 h
  have tokens := foldlM_reads built trivial
  cases after with
  | complete _ =>
      cases complete
      exact tokens.symm
  | _ => cases complete

end TreeBuilder

/-! ## 2. Numbers -/

theorem Digit.toChar_of_ofChar? {c : Char} {digit : Digit} (h : Digit.ofChar? c = some digit) :
    digit.toChar = c := by
  unfold Digit.ofChar? at h
  split at h
  · cases h
    rw [Digit.toChar, show 48 + (c.toNat - 48) = c.toNat by omega, Char.ofNat_toNat]
  · cases h

theorem smallMark_of_ofChar? {c : Char} {digit : Digit} (h : Digit.ofChar? c = some digit) :
    smallMark c = digit.toChar := by
  rw [← Digit.toChar_of_ofChar? h]
  exact if_neg (Lexer.toChar_ne_mark digit).2

namespace NumberDraft

def charsBehind (draft : NumberDraft) : NumberPhase → List Char
  | .sign | .zero | .whole => []
  | .point => ['.']
  | .fraction => fractionChars
  | .exponentMark => fractionChars ++ ['e']
  | .exponentSign => fractionChars ++ 'e' :: draft.exponentSign.toChars
  | .exponent =>
      fractionChars ++ 'e' :: draft.exponentSign.toChars ++ Digits.toChars draft.exponent.reverse
where
  fractionChars : List Char :=
    if draft.fraction.reverse.isEmpty then [] else '.' :: Digits.toChars draft.fraction.reverse

def chars (draft : NumberDraft) (phase : NumberPhase) : List Char :=
  (if draft.negative then ['-'] else []) ++ Digits.toChars draft.whole.reverse ++
    draft.charsBehind phase

def HoldsWhole (draft : NumberDraft) : NumberPhase → Prop
  | .sign => draft.whole = []
  | .zero => draft.whole = [Digit.zero]
  | .whole => ∃ first rest, draft.whole.reverse = first :: rest ∧ first ≠ Digit.zero
  | _ => Digits.IsNumeral draft.whole.reverse

def HoldsFraction (draft : NumberDraft) : NumberPhase → Prop
  | .sign | .zero | .whole | .point => draft.fraction = []
  | .fraction => draft.fraction ≠ []
  | _ => True

def HoldsExponent (draft : NumberDraft) : NumberPhase → Prop
  | .exponent => draft.exponent ≠ []
  | .exponentSign => draft.exponent = []
  | _ => draft.exponent = [] ∧ draft.exponentSign = .unsigned

structure IsAt (draft : NumberDraft) (phase : NumberPhase) : Prop where
  whole : draft.HoldsWhole phase
  fraction : draft.HoldsFraction phase
  exponent : draft.HoldsExponent phase

theorem isAt_sign (negative : Bool) : IsAt { negative } .sign :=
  ⟨rfl, rfl, rfl, rfl⟩

variable {draft after : NumberDraft} {phase next : NumberPhase}

/-- Behind the first digit there is a numeral before the point. -/
theorem HoldsWhole.isNumeral (h : draft.HoldsWhole phase) (started : phase ≠ .sign) :
    Digits.IsNumeral draft.whole.reverse := by
  cases phase with
  | sign => exact absurd rfl started
  | zero =>
      have whole : draft.whole = [Digit.zero] := h
      exact ⟨Digit.zero, [], by rw [whole]; rfl, fun _ => rfl⟩
  | whole =>
      obtain ⟨first, rest, same, other⟩ := h
      exact ⟨first, rest, same, fun zero => absurd zero other⟩
  | _ => exact h

theorem IsAt.addDigit (h : draft.IsAt phase) {digit : Digit}
    (added : draft.addDigit digit phase = some (next, after)) :
    after.IsAt next ∧ after.chars next = draft.chars phase ++ [digit.toChar] := by
  obtain ⟨whole, fraction, exponent⟩ := h
  cases phase with
  | sign =>
      -- the first digit decides whether others may follow
      have whole : draft.whole = [] := whole
      simp only [NumberDraft.addDigit, whole, Option.some.injEq, Prod.mk.injEq] at added
      obtain ⟨rfl, rfl⟩ := added
      by_cases zero : digit = Digit.zero
      · rw [if_pos zero]
        exact ⟨⟨congrArg (fun d => [d]) zero, fraction, exponent⟩,
          by simp [chars, charsBehind, whole, Digits.toChars]⟩
      · rw [if_neg zero]
        exact ⟨⟨⟨digit, [], rfl, zero⟩, fraction, exponent⟩,
          by simp [chars, charsBehind, whole, Digits.toChars]⟩
  | zero => cases added
  | whole =>
      obtain ⟨first, rest, same, other⟩ := whole
      cases added
      exact ⟨⟨⟨first, rest ++ [digit], by simp [same], other⟩, fraction, exponent⟩,
        by simp [chars, charsBehind, Digits.toChars]⟩
  | point =>
      have fraction : draft.fraction = [] := fraction
      cases added
      exact ⟨⟨whole, List.cons_ne_nil _ _, exponent⟩,
        by simp [chars, charsBehind, charsBehind.fractionChars, Digits.toChars, fraction]⟩
  | fraction =>
      have fraction : draft.fraction ≠ [] := fraction
      cases added
      exact ⟨⟨whole, List.cons_ne_nil _ _, exponent⟩,
        by simp [chars, charsBehind, charsBehind.fractionChars, Digits.toChars, fraction]⟩
  | exponentMark =>
      obtain ⟨exponent, unsigned⟩ := exponent
      cases added
      exact ⟨⟨whole, trivial, List.cons_ne_nil _ _⟩,
        by simp [chars, charsBehind, charsBehind.fractionChars, Digits.toChars, exponent, unsigned,
          ExponentSign.toChars]⟩
  | exponentSign =>
      have exponent : draft.exponent = [] := exponent
      cases added
      exact ⟨⟨whole, trivial, List.cons_ne_nil _ _⟩,
        by simp [chars, charsBehind, charsBehind.fractionChars, Digits.toChars, exponent]⟩
  | exponent =>
      cases added
      exact ⟨⟨whole, trivial, List.cons_ne_nil _ _⟩,
        by simp [chars, charsBehind, charsBehind.fractionChars, Digits.toChars]⟩

/-- A mark that is read says where the reader goes on. -/
theorem IsAt.addMark (h : draft.IsAt phase) {c : Char}
    (noDigit : Digit.ofChar? c = none) (added : draft.add phase c = some (next, after)) :
    after.IsAt next ∧ after.chars next = draft.chars phase ++ [smallMark c] := by
  obtain ⟨whole, fraction, exponent⟩ := h
  have numeral := whole.isNumeral
  simp only [NumberDraft.add, noDigit] at added
  split at added <;> cases added
  -- the point
  case h_1 | h_2 =>
    exact ⟨⟨numeral nofun, fraction, exponent⟩, by simp [chars, charsBehind, smallMark]⟩
  -- the mark of the exponent, without and with digits behind the point
  case h_3 | h_4 | h_5 | h_6 =>
    have fraction : draft.fraction = [] := fraction
    exact ⟨⟨numeral nofun, trivial, exponent⟩,
      by simp [chars, charsBehind, charsBehind.fractionChars, smallMark, fraction]⟩
  case h_7 | h_8 =>
    exact ⟨⟨numeral nofun, trivial, exponent⟩, by simp [chars, charsBehind, smallMark]⟩
  -- the sign of the exponent
  case h_9 | h_10 =>
    exact ⟨⟨numeral nofun, trivial, exponent.1⟩,
      by simp [chars, charsBehind, charsBehind.fractionChars, smallMark, ExponentSign.toChars]⟩

/-- What a character that is read says of the number. -/
theorem IsAt.add (h : draft.IsAt phase) {c : Char} (added : draft.add phase c = some (next, after)) :
    after.IsAt next ∧ after.chars next = draft.chars phase ++ [smallMark c] := by
  cases isDigit : Digit.ofChar? c with
  | none => exact h.addMark isDigit added
  | some digit =>
      simp only [NumberDraft.add, isDigit] at added
      rw [smallMark_of_ofChar? isDigit]
      exact h.addDigit added

theorem IsAt.finish (h : draft.IsAt phase) (complete : phase.isComplete = true) :
    draft.finish.IsWellFormed ∧ draft.finish.toChars = draft.chars phase := by
  obtain ⟨whole, fraction, exponent⟩ := h
  have numeral := whole.isNumeral
  cases phase with
  | sign | point | exponentMark | exponentSign => cases complete
  | zero | whole =>
      have fraction : draft.fraction = [] := fraction
      obtain ⟨none, -⟩ := exponent
      exact ⟨⟨numeral (by decide), fun _ written => by simp [NumberDraft.finish, none] at written⟩,
        by simp [NumberDraft.finish, NumberText.toChars, chars, charsBehind, none, fraction]⟩
  | fraction =>
      obtain ⟨none, -⟩ := exponent
      exact ⟨⟨numeral (by decide), fun _ written => by simp [NumberDraft.finish, none] at written⟩,
        by simp [NumberDraft.finish, NumberText.toChars, chars, charsBehind,
          charsBehind.fractionChars, none]⟩
  | exponent =>
      have filled : draft.exponent ≠ [] := exponent
      refine ⟨⟨numeral (by decide), fun exponent written => ?_⟩, ?_⟩
      · simp only [NumberDraft.finish, List.isEmpty_iff, if_neg filled, Option.some.injEq] at written
        subst written
        exact mt List.reverse_eq_nil_iff.1 filled
      · simp [NumberDraft.finish, NumberText.toChars, chars, charsBehind,
          charsBehind.fractionChars, filled]

/-- Where a number may end, what was read spells it. -/
theorem IsAt.spells (h : draft.IsAt phase) (complete : phase.isComplete = true)
    {written : List Char} (same : written.map smallMark = draft.chars phase) :
    Token.Spells (.number draft.finish) written :=
  ⟨(h.finish complete).1, same.trans (h.finish complete).2.symm⟩

end NumberDraft

/-! ## 3. Texts -/

namespace Token.SpellsText

variable {tokens : List Token} {chars : List Char}

theorem blank (h : SpellsText tokens chars) {c : Char} (blank : IsBlank c) :
    SpellsText tokens (chars ++ [c]) := by
  obtain ⟨written, blanks, spelled, before, rfl⟩ := h
  refine ⟨written, blanks ++ [c], spelled, ?_, List.append_assoc ..⟩
  exact List.forall_mem_append.2 ⟨before, List.forall_mem_singleton.2 blank⟩

theorem concat (h : SpellsText tokens chars) {token : Token} {written : List Char}
    (spelled : token.Spells written) : SpellsText (tokens ++ [token]) (chars ++ written) := by
  obtain ⟨before, blanks, inside, blank, rfl⟩ := h
  refine ⟨before ++ (blanks ++ written), [], ?_, List.forall_mem_nil _, by simp⟩
  exact inside.append (.single ⟨blanks, written, blank, spelled, rfl⟩)

end Token.SpellsText

namespace Lexer

inductive Reads : List Char → Lexer → Prop
  | between {chars : List Char} {tokens : List Token} :
      Token.SpellsText tokens.reverse chars → Reads chars { tokens }
  | word {chars start rest : List Char} {tokens : List Token} {token : Token} :
      Token.SpellsText tokens.reverse chars → token.Spells (start ++ rest) → rest ≠ [] →
      Reads (chars ++ start) { tokens, mode := .word rest token }
  | number {chars written : List Char} {tokens : List Token} {phase : NumberPhase}
      {draft : NumberDraft} :
      Token.SpellsText tokens.reverse chars → draft.IsAt phase →
      written.map smallMark = draft.chars phase →
      Reads (chars ++ written) { tokens, mode := .number phase draft }
  | string {chars body : List Char} {tokens : List Token} {codes : List Nat} :
      Token.SpellsText tokens.reverse chars → SpellsAll CodeSpelling codes.reverse body →
      Reads (chars ++ '"' :: body) { tokens, mode := .string codes }
  | escape {chars body : List Char} {tokens : List Token} {codes : List Nat} :
      Token.SpellsText tokens.reverse chars → SpellsAll CodeSpelling codes.reverse body →
      Reads (chars ++ '"' :: body ++ ['\\']) { tokens, mode := .escape codes }
  | code {chars body digits : List Char} {tokens : List Token} {codes : List Nat}
      {missing value : Nat} :
      Token.SpellsText tokens.reverse chars → SpellsAll CodeSpelling codes.reverse body →
      hexNumber? digits = some value → digits.length + missing = 4 → 0 < missing →
      Reads (chars ++ '"' :: body ++ '\\' :: 'u' :: digits)
        { tokens, mode := .code codes missing value }

variable {chars : List Char} {tokens : List Token} {c : Char} {lexer after : Lexer}

theorem Reads.emit (h : Token.SpellsText tokens.reverse chars) {token : Token}
    {written : List Char} (spelled : token.Spells written) :
    Reads (chars ++ written) (Lexer.emit tokens token) :=
  .between (by rw [List.reverse_cons]; exact h.concat spelled)

theorem Reads.begin (h : Token.SpellsText tokens.reverse chars)
    (read : Lexer.begin tokens c = some after) : Reads (chars ++ [c]) after := by
  unfold Lexer.begin at read
  split at read
  case h_1 | h_2 | h_3 | h_4 =>
    cases read
    exact .between (h.blank (by simp [IsBlank]))
  case h_5 | h_6 | h_7 | h_8 | h_9 | h_10 =>
    cases read
    exact .emit h rfl
  case h_11 | h_12 | h_13 =>
    cases read
    exact .word h rfl (List.cons_ne_nil _ _)
  case h_14 =>
    cases read
    exact .string h .nil
  case h_15 =>
    cases read
    exact .number h (NumberDraft.isAt_sign true) rfl
  case h_16 =>
    obtain ⟨digit, isDigit, started⟩ := Option.bind_eq_some_iff.1 read
    obtain ⟨⟨phase, draft⟩, added, rfl⟩ := Option.map_eq_some_iff.1 started
    obtain ⟨isAt, same⟩ := (NumberDraft.isAt_sign false).addDigit added
    refine .number h isAt ?_
    rw [same, ← smallMark_of_ofChar? isDigit]
    rfl

theorem Reads.readEscape {body : List Char} {codes : List Nat} {mode : LexerMode}
    (h : Token.SpellsText tokens.reverse chars)
    (inside : SpellsAll CodeSpelling codes.reverse body)
    (read : Lexer.readEscape codes c = some mode) :
    Reads (chars ++ '"' :: body ++ ['\\', c]) { tokens, mode } := by
  have short : ∀ {code : Nat}, (c, code) ∈ shortEscapes →
      Reads (chars ++ '"' :: body ++ ['\\', c]) { tokens, mode := .string (code :: codes) } := by
    intro code mem
    have longer := inside.append (.single (.short mem))
    rw [← List.reverse_cons] at longer
    simpa using Reads.string h longer
  unfold Lexer.readEscape at read
  split at read
  case h_10 => cases read
  case h_9 =>
    cases read
    exact .code h inside (rfl : hexNumber? [] = some 0) rfl (by decide)
  all_goals
    cases read
    exact short (by decide)

/-- A digit of a code goes on with it, and the last one ends it. -/
theorem Reads.readDigit {body digits : List Char} {codes : List Nat} {missing value digit : Nat}
    (spelled : Token.SpellsText tokens.reverse chars)
    (inside : SpellsAll CodeSpelling codes.reverse body) (number : hexNumber? digits = some value)
    (four : digits.length + missing = 4) (positive : 0 < missing)
    (hex : hexValue? c = some digit) :
    Reads (chars ++ '"' :: body ++ '\\' :: 'u' :: digits ++ [c])
      { tokens, mode :=
          if missing ≤ 1 then .string ((16 * value + digit) :: codes)
          else .code codes (missing - 1) (16 * value + digit) } := by
  have longer : hexNumber? (digits ++ [c]) = some (16 * value + digit) := by
    have number : digits.foldlM addHexDigit? 0 = some value := number
    rw [hexNumber?, List.foldlM_append, number]
    simp [addHexDigit?, hex]
  have length : (digits ++ [c]).length = digits.length + 1 := by simp
  by_cases last : missing ≤ 1
  · simp only [if_pos last]
    have code := inside.append (.single (.digits (by omega) longer))
    rw [← List.reverse_cons] at code
    simpa using Reads.string spelled code
  · simp only [if_neg last]
    simpa using Reads.code spelled inside longer (by omega) (by omega : 0 < missing - 1)

/-- **A character more.** -/
theorem Reads.step (h : Reads chars lexer) (read : lexer.step c = some after) :
    Reads (chars ++ [c]) after := by
  unfold Lexer.step at read
  cases h with
  | between spelled => exact .begin spelled read
  | @word _ start rest _ token spelled word filled =>
      cases rest with
      | nil => exact absurd rfl filled
      | cons expected rest =>
          simp only at read
          split at read
          · next same =>
            subst same
            rw [List.append_cons] at word
            rw [List.append_assoc]
            cases rest with
            | nil =>
                cases read
                rw [List.append_nil] at word
                exact .emit spelled word
            | cons following rest =>
                cases read
                exact .word spelled word (List.cons_ne_nil _ _)
          · cases read
  | @number _ written _ phase draft spelled isAt same =>
      simp only at read
      split at read
      · next next continued added =>
        cases read
        obtain ⟨isAt, goesOn⟩ := isAt.add added
        rw [List.append_assoc]
        exact .number spelled isAt (by rw [List.map_append, same, goesOn]; rfl)
      · split at read
        · next complete =>
          refine .begin ?_ read
          rw [List.reverse_cons]
          exact spelled.concat (isAt.spells complete same)
        · cases read
  | @string _ body _ codes spelled inside =>
      simp only at read
      split_ifs at read with quote backslash control
      · cases read
        rw [List.append_assoc, quote]
        exact .emit spelled ⟨_, body, inside, (isTextOf_iff inside.codes_lt).2 rfl, rfl⟩
      · cases read
        rw [backslash]
        exact .escape spelled inside
      · cases read
        have longer := inside.append (.single (.plain quote backslash (Nat.not_lt.1 control)))
        rw [← List.reverse_cons] at longer
        simpa using Reads.string spelled longer
  | escape spelled inside =>
      obtain ⟨mode, escaped, rfl⟩ := Option.map_eq_some_iff.1 read
      rw [List.append_assoc]
      exact .readEscape spelled inside escaped
  | code spelled inside number four positive =>
      obtain ⟨digit, hex, rfl⟩ := Option.map_eq_some_iff.1 read
      exact .readDigit spelled inside number four positive hex

/-- What the reader has read spells the tokens that it gives. -/
theorem Reads.run {read : List Char} (h : Reads chars lexer)
    (run : read.foldlM Lexer.step lexer = some after) : Reads (chars ++ read) after := by
  induction read generalizing chars lexer with
  | nil =>
      cases run
      rwa [List.append_nil]
  | cons c rest ih =>
      obtain ⟨between, first, run⟩ := Option.bind_eq_some_iff.1 run
      rw [List.append_cons]
      exact ih (h.step first) run

theorem Reads.finish (h : Reads chars lexer) {read : List Token}
    (finished : lexer.finish = some read) : Token.SpellsText read chars := by
  cases h with
  | between spelled =>
      cases finished
      exact spelled
  | @number _ written _ phase draft spelled isAt same =>
      unfold Lexer.finish at finished
      simp only at finished
      split_ifs at finished with complete
      cases finished
      rw [List.reverse_cons]
      exact spelled.concat (isAt.spells complete same)
  | _ => cases finished

end Lexer

/-! ## 4. The grammar -/

theorem Token.spellsText_of_ofChars? {text : List Char} {tokens : List Token}
    (h : Token.ofChars? text = some tokens) : SpellsText tokens text := by
  obtain ⟨lexer, run, finished⟩ := Option.bind_eq_some_iff.1 h
  have start : Lexer.Reads [] {} := .between ⟨[], [], .nil, List.forall_mem_nil _, rfl⟩
  exact (start.run run).finish finished

theorem Json.spells_of_ofChars? {text : String} {value : Json}
    (h : Token.ofChars? text.toList = some value.tokens) : value.Spells text :=
  Token.spellsText_of_ofChars? h

theorem Json.spells_of_parse? {text : String} {value : Json} (h : Json.parse? text = some value) :
    value.Spells text := by
  obtain ⟨tokens, read, built⟩ := Option.bind_eq_some_iff.1 h
  rw [TreeBuilder.eq_tokens_of_build built] at read
  exact spells_of_ofChars? read

/-- **A value is read from a text exactly if the text spells it.** -/
theorem Json.parse?_eq_some_iff {text : String} {value : Json} :
    Json.parse? text = some value ↔ value.Spells text :=
  ⟨spells_of_parse?, parse?_of_spells⟩

end RankLedger
