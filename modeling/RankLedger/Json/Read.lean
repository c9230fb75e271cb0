import RankLedger.Json.Basic

/-!
# Reading JSON values

How records are found in JSON values.  A record is an object or an array.  In an object, fields
stand in any order, each at most once, and members of other names are skipped whatever they hold.
In an array, fields stand in their fixed order.

**Numbers.** Where an integer is expected it has to be written as one and be in range; where any
number is expected an integer will do.
-/

namespace RankLedger.Json

/-! ## 1. Plain values -/

def text? : Json → Option String
  | .string text => text
  | _ => none

def bool? : Json → Option Bool
  | .bool value => some value
  | _ => none

def number? {ν : Type} [JsonNumber ν] : Json → Option ν
  | .number written => JsonNumber.read? written
  | _ => none

def integer? (low high : Int) : Json → Option Int
  | .number written =>
      written.integer?.filter fun n => decide (low ≤ n) && decide (n < high)
  | _ => none

def uint32? (json : Json) : Option UInt32 :=
  (json.integer? 0 0x100000000).map fun n => UInt32.ofNat n.toNat

def count? (json : Json) : Option Nat :=
  (json.integer? 0 0x10000000000000000).map Int.toNat

def int64? (json : Json) : Option Int64 :=
  (json.integer? (-0x8000000000000000) 0x8000000000000000).map Int64.ofInt

/-! ## 2. Records -/

def textMembers? (members : List (Option String × Json)) : Option (List (String × Json)) :=
  members.mapM fun member => member.1.map fun key => (key, member.2)

def field? (members : List (String × Json)) (name : String) : Option (Option Json) :=
  match members.filter fun member => member.1 == name with
  | [] => some none
  | [member] => some (some member.2)
  | _ => none

def fields? (names : List String) : Json → Option (List (Option Json))
  | .object members => do
      let members ← textMembers? members
      names.mapM (field? members)
  | .array items =>
      if items.length ≤ names.length then
        some (items.map some ++ List.replicate (names.length - items.length) none)
      else none
  | _ => none

/-- The same for a record that has no members of other names. -/
def closedFields? (names : List String) (json : Json) : Option (List (Option Json)) :=
  match json with
  | .object members =>
      if members.all fun member => (member.1.map names.contains).getD false then
        json.fields? names
      else none
  | _ => json.fields? names

def orDefault {α : Type} (value : Option Json) (read : Json → Option α) (default : α) : Option α :=
  match value with
  | none => some default
  | some json => read json

/-! ## 3. Written values -/

def ofText (text : String) : Json :=
  .string (some text)

def ofNat (n : Nat) : Json :=
  .number (NumberText.ofNat n)

def ofInt (n : Int) : Json :=
  .number (NumberText.ofInt n)

def ofNumber {ν : Type} [JsonNumber ν] (x : ν) : Json :=
  match JsonNumber.write? x with
  | some written => .number written
  | none => .null

def ofMembers (members : List (String × Json)) : Json :=
  .object (members.map fun member => (some member.1, member.2))

/-! ## 4. Values read ahead -/

/-- Whether a number can be kept before it is known what it should be: an integer that fits 64 bits
    stays an integer, with or without a sign; any other number has to be one of the number type. -/
def isPlainNumber (ν : Type) [JsonNumber ν] (written : NumberText) : Bool :=
  ((Json.number written).integer? (-0x8000000000000000) 0x10000000000000000).isSome
    || (JsonNumber.read? written : Option ν).isSome

/-- Whether a value can be read before it is known what it should be: all its strings are texts,
    all its numbers can be kept, and it nests at most `depth` arrays and objects. -/
def isPlain (ν : Type) [JsonNumber ν] : (depth : Nat) → Json → Bool
  | _, .null => true
  | _, .bool _ => true
  | _, .number written => isPlainNumber ν written
  | _, .string text => text.isSome
  | 0, .array _ => false
  | 0, .object _ => false
  | depth + 1, .array items => items.all (isPlain ν depth)
  | depth + 1, .object members =>
      members.all fun member => member.1.isSome && isPlain ν depth member.2

end RankLedger.Json
