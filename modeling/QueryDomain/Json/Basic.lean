import QueryDomain.Binary64.Decimal

/-! JSON values and their text. The members of an object are kept in the order of their keys, each
key once; `Json.ofMembers` sees to it. -/
namespace QueryDomain

/-- Whole numbers are integers as long as they fit 64 bits, signed or unsigned. -/
inductive Json where
  | null
  | bool (value : Bool)
  | integer (value : Int)
  | float (value : Binary64)
  | string (value : String)
  | array (items : List Json)
  | object (members : List (String × Json))

namespace Json

def int64Limit : Int := 0x8000000000000000

def isInt64 (n : Int) : Bool := -int64Limit ≤ n && n < int64Limit

/-- Puts a member at its place; an earlier one of the same key gives way. -/
def putMember {α : Type} (key : String) (value : α) : List (String × α) → List (String × α)
  | [] => [(key, value)]
  | (k, v) :: rest =>
    if key < k then (key, value) :: (k, v) :: rest
    else if key = k then (key, value) :: rest
    else (k, v) :: putMember key value rest

def ofMembers (members : List (String × Json)) : Json :=
  .object (members.foldl (fun sorted (key, value) => putMember key value sorted) [])

def member? {α : Type} (key : String) (members : List (String × α)) : Option α :=
  (members.find? fun (k, _) => k == key).map (·.2)

def get? (json : Json) (key : String) : Option Json :=
  match json with
  | .object members => member? key members
  | _ => none

def asString? : Json → Option String
  | .string s => some s
  | _ => none

def asInt64? : Json → Option Int
  | .integer n => if isInt64 n then some n else none
  | _ => none

def isArray : Json → Bool
  | .array _ => true
  | _ => false

def escapeChar (c : Char) : String :=
  if c = '"' then "\\\""
  else if c = '\\' then "\\\\"
  else if c.toNat = 8 then "\\b"
  else if c.toNat = 9 then "\\t"
  else if c.toNat = 10 then "\\n"
  else if c.toNat = 12 then "\\f"
  else if c.toNat = 13 then "\\r"
  else if c.toNat < 0x20 then
    "\\u00" ++ .ofList [Nat.digitChar (c.toNat / 16), Nat.digitChar (c.toNat % 16)]
  else String.singleton c

def quote (s : String) : String :=
  "\"" ++ String.join (s.toList.map escapeChar) ++ "\""

/-- What is not a finite number has no text of its own and is written as null. -/
def floatText (x : Binary64) : String := if x.isFinite then x.documentText else "null"

mutual

def text : Json → String
  | .null => "null"
  | .bool value => if value then "true" else "false"
  | .integer value => toString value
  | .float value => floatText value
  | .string value => quote value
  | .array items => "[" ++ Text.join "," (itemTexts items) ++ "]"
  | .object members => "\x7b" ++ Text.join "," (memberTexts members) ++ "\x7d"

def itemTexts : List Json → List String
  | [] => []
  | item :: items => text item :: itemTexts items

def memberTexts : List (String × Json) → List String
  | [] => []
  | (key, value) :: members => (quote key ++ ":" ++ text value) :: memberTexts members

end

def block (opening closing : String) (indent : String) (lines : List String) : String :=
  if lines.isEmpty then opening ++ closing
  else
    opening ++ "\n" ++ Text.join ",\n" (lines.map (indent ++ "  " ++ ·)) ++ "\n" ++ indent ++
      closing

mutual

/-- Text with one item on a line and two blanks for each level; `indent` is what the line of the
opening bracket starts with. -/
def prettyAt (indent : String) : Json → String
  | .array items => block "[" "]" indent (prettyItems (indent ++ "  ") items)
  | .object members => block "\x7b" "\x7d" indent (prettyMembers (indent ++ "  ") members)
  | .null => "null"
  | .bool value => if value then "true" else "false"
  | .integer value => toString value
  | .float value => floatText value
  | .string value => quote value

def prettyItems (indent : String) : List Json → List String
  | [] => []
  | item :: items => prettyAt indent item :: prettyItems indent items

def prettyMembers (indent : String) : List (String × Json) → List String
  | [] => []
  | (key, value) :: members =>
    (quote key ++ ": " ++ prettyAt indent value) :: prettyMembers indent members

end

def pretty (json : Json) : String := prettyAt "" json

end Json

end QueryDomain
