import RankLedger.Json.Token

/-!
# JSON values

The tree of a JSON text.  `Json.parse?` builds it from the tokens with an explicit stack of open
arrays and objects, so there is no limit to how deep a text may nest.  Members of an object stand
in the order of the text, equal keys included; what they mean is for the reader of the object to
say.
-/

namespace RankLedger

/-- A JSON value.  A string or key without a text stands for no Unicode text. -/
inductive Json where
  | null
  | bool (value : Bool)
  | number (written : NumberText)
  | string (text : Option String)
  | array (items : List Json)
  | object (members : List (Option String × Json))
  deriving Repr, Inhabited

/-! ## 1. Writing -/

namespace Json

mutual

def tokens : Json → List Token
  | .null => [.null]
  | .bool value => [.bool value]
  | .number written => [.number written]
  | .string text => [.string text]
  | .array items => .beginArray :: itemTokens items ++ [.endArray]
  | .object members => .beginObject :: memberTokens members ++ [.endObject]

def itemTokens : List Json → List Token
  | [] => []
  | [item] => item.tokens
  | item :: rest => item.tokens ++ .comma :: itemTokens rest

def memberTokens : List (Option String × Json) → List Token
  | [] => []
  | [(key, value)] => .string key :: .colon :: value.tokens
  | (key, value) :: rest =>
      .string key :: .colon :: value.tokens ++ .comma :: memberTokens rest

end

def text (value : Json) : String :=
  String.ofList (value.tokens.flatMap Token.toChars)

end Json

/-! ## 2. Reading -/

inductive Frame where
  | items (done : List Json)
  | member (done : List (Option String × Json)) (key : Option String)
  deriving Repr, Inhabited

inductive TreeBuilder where
  /-- A value. -/
  | anyValue (stack : List Frame)
  /-- The first item of an array, or its end. -/
  | firstItem (stack : List Frame)
  /-- The first key of an object, or its end. -/
  | firstKey (stack : List Frame)
  /-- A further key. -/
  | nextKey (done : List (Option String × Json)) (stack : List Frame)
  /-- The colon after a key. -/
  | colon (done : List (Option String × Json)) (key : Option String) (stack : List Frame)
  /-- A comma after an item, or the end of the array. -/
  | afterItem (done : List Json) (stack : List Frame)
  /-- A comma after a member, or the end of the object. -/
  | afterMember (done : List (Option String × Json)) (stack : List Frame)
  /-- Nothing. -/
  | complete (value : Json)
  deriving Repr, Inhabited

namespace TreeBuilder

def close (value : Json) : List Frame → TreeBuilder
  | [] => .complete value
  | .items done :: stack => .afterItem (value :: done) stack
  | .member done key :: stack => .afterMember ((key, value) :: done) stack

def start (token : Token) (stack : List Frame) : Option TreeBuilder :=
  match token with
  | .null => some (close .null stack)
  | .bool value => some (close (.bool value) stack)
  | .number written => some (close (.number written) stack)
  | .string text => some (close (.string text) stack)
  | .beginArray => some (.firstItem stack)
  | .beginObject => some (.firstKey stack)
  | .endArray | .endObject | .colon | .comma => none

def step : TreeBuilder → Token → Option TreeBuilder
  | .anyValue stack, token => start token stack
  | .firstItem stack, .endArray => some (close (.array []) stack)
  | .firstItem stack, token => start token (.items [] :: stack)
  | .firstKey stack, .endObject => some (close (.object []) stack)
  | .firstKey stack, .string key => some (.colon [] key stack)
  | .nextKey done stack, .string key => some (.colon done key stack)
  | .colon done key stack, .colon => some (.anyValue (.member done key :: stack))
  | .afterItem done stack, .comma => some (.anyValue (.items done :: stack))
  | .afterItem done stack, .endArray => some (close (.array done.reverse) stack)
  | .afterMember done stack, .comma => some (.nextKey done stack)
  | .afterMember done stack, .endObject => some (close (.object done.reverse) stack)
  | _, _ => none

def result? : TreeBuilder → Option Json
  | .complete value => some value
  | _ => none

/-! ## 3. Reading what was written

The tokens of a value, read where a value may stand, close exactly this value, whatever stands
around it and after it. -/

/-- A value in the first place of an array is read as it is read elsewhere. -/
theorem foldlM_tokens_firstItem (value : Json) (stack : List Frame) (rest : List Token) :
    (value.tokens ++ rest).foldlM step (.firstItem stack) =
      (value.tokens ++ rest).foldlM step (.anyValue (.items [] :: stack)) := by
  cases value <;> simp [Json.tokens, step]

/-- Items that follow the beginning of an array are read as they are read elsewhere. -/
theorem foldlM_itemTokens_firstItem (items : List Json) (h : items ≠ []) (stack : List Frame)
    (rest : List Token) :
    (Json.itemTokens items ++ rest).foldlM step (.firstItem stack) =
      (Json.itemTokens items ++ rest).foldlM step (.anyValue (.items [] :: stack)) := by
  match items with
  | [item] => exact foldlM_tokens_firstItem item stack rest
  | item :: next :: items =>
      simp only [Json.itemTokens, List.append_assoc]
      exact foldlM_tokens_firstItem item stack _

/-- Members that follow the beginning of an object are read as they are read elsewhere. -/
theorem foldlM_memberTokens_firstKey (members : List (Option String × Json)) (h : members ≠ [])
    (stack : List Frame) (rest : List Token) :
    (Json.memberTokens members ++ rest).foldlM step (.firstKey stack) =
      (Json.memberTokens members ++ rest).foldlM step (.nextKey [] stack) := by
  match members with
  | [(key, value)] => simp [Json.memberTokens, step]
  | (key, value) :: next :: members => simp [Json.memberTokens, step]

mutual

/-- Reading what was written of a value closes it. -/
theorem foldlM_tokens : (value : Json) → (stack : List Frame) → (rest : List Token) →
    (value.tokens ++ rest).foldlM step (.anyValue stack) =
      rest.foldlM step (close value stack)
  | .null, stack, rest => by simp [Json.tokens, step, start]
  | .bool value, stack, rest => by simp [Json.tokens, step, start]
  | .number written, stack, rest => by simp [Json.tokens, step, start]
  | .string text, stack, rest => by simp [Json.tokens, step, start]
  | .array items, stack, rest => by
      have h := foldlM_itemTokens items
      cases items with
      | nil => simp [Json.tokens, Json.itemTokens, step, start]
      | cons item items =>
          simp only [Json.tokens, List.cons_append, List.append_assoc, List.nil_append,
            List.foldlM_cons, step, start, Option.bind_eq_bind, Option.bind_some]
          rw [foldlM_itemTokens_firstItem _ (by simp), h (by simp)]
          rfl
  | .object members, stack, rest => by
      have h := foldlM_memberTokens members
      cases members with
      | nil => simp [Json.tokens, Json.memberTokens, step, start]
      | cons member members =>
          simp only [Json.tokens, List.cons_append, List.append_assoc, List.nil_append,
            List.foldlM_cons, step, start, Option.bind_eq_bind, Option.bind_some]
          rw [foldlM_memberTokens_firstKey _ (by simp), h (by simp)]
          rfl

/-- Reading what was written of the items of an array closes the array. -/
theorem foldlM_itemTokens : (items : List Json) → items ≠ [] → (done : List Json) →
    (stack : List Frame) → (rest : List Token) →
    (Json.itemTokens items ++ .endArray :: rest).foldlM step (.anyValue (.items done :: stack)) =
      rest.foldlM step (close (.array (done.reverse ++ items)) stack)
  | [], h, _, _, _ => absurd rfl h
  | item :: items, _, done, stack, rest => by
      have hitem := foldlM_tokens item
      have hitems := foldlM_itemTokens items
      cases items with
      | nil => simp [Json.itemTokens, hitem, close, step]
      | cons next items =>
          simp only [Json.itemTokens, List.append_assoc, hitem, close, List.cons_append,
            List.foldlM_cons, step, Option.bind_eq_bind, Option.bind_some]
          rw [hitems (by simp)]
          simp only [List.reverse_cons, List.append_assoc, List.cons_append, List.nil_append]
          rfl

/-- Reading what was written of the members of an object closes the object. -/
theorem foldlM_memberTokens : (members : List (Option String × Json)) → members ≠ [] →
    (done : List (Option String × Json)) → (stack : List Frame) → (rest : List Token) →
    (Json.memberTokens members ++ .endObject :: rest).foldlM step (.nextKey done stack) =
      rest.foldlM step (close (.object (done.reverse ++ members)) stack)
  | [], h, _, _, _ => absurd rfl h
  | (key, value) :: members, _, done, stack, rest => by
      have hvalue := foldlM_tokens value
      have hmembers := foldlM_memberTokens members
      cases members with
      | nil =>
          simp only [Json.memberTokens, List.cons_append, List.foldlM_cons, step,
            Option.bind_eq_bind, Option.bind_some, hvalue, close, List.reverse_cons]
      | cons next members =>
          simp only [Json.memberTokens, List.append_assoc, List.cons_append,
            List.foldlM_cons, step, Option.bind_eq_bind, Option.bind_some, hvalue, close]
          rw [hmembers (by simp)]
          simp only [List.reverse_cons, List.append_assoc, List.cons_append, List.nil_append]
          rfl

end

/-- The tokens of a value build the value. -/
theorem build_tokens (value : Json) :
    value.tokens.foldlM step (.anyValue []) = some (.complete value) := by
  have h := foldlM_tokens value [] []
  simpa [close] using h

end TreeBuilder

/-! ## 4. Texts -/

def Json.parse? (text : String) : Option Json := do
  let tokens ← Token.ofChars? text.toList
  let builder ← tokens.foldlM TreeBuilder.step (.anyValue [])
  builder.result?

end RankLedger
