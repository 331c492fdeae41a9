import QueryDomain.Json.Number

/-! Reading JSON text. A text is first read into a document, which keeps the members of objects as
they are written and remembers literals that stand for nothing (a number beyond the doubles, half
of a surrogate pair). The value of a document exists if all its literals stand for something and
it is not nested too deeply. -/
namespace QueryDomain

inductive Document where
  | null
  | bool (value : Bool)
  | number (value : Option Json)
  | string (value : Option String)
  | array (items : List Document)
  | object (members : List (Option String × Document))

namespace Document

inductive Token where
  | openArray
  | closeArray
  | openObject
  | closeObject
  | comma
  | colon
  | leaf (value : Document)

/-- A character of a string, or the sixteen bits of an escape. -/
inductive StringUnit where
  | char (c : Char)
  | word (n : Nat)

def hexDigit? (c : Char) : Option Nat :=
  let n := c.toNat
  if 48 ≤ n ∧ n ≤ 57 then some (n - 48)
  else if 97 ≤ n ∧ n ≤ 102 then some (n - 87)
  else if 65 ≤ n ∧ n ≤ 70 then some (n - 55)
  else none

def hexWord? (a b c d : Char) : Option Nat := do
  return ((← hexDigit? a) * 16 + (← hexDigit? b)) * 256 + (← hexDigit? c) * 16 + (← hexDigit? d)

def shortEscape? (c : Char) : Option Char :=
  if c = '"' ∨ c = '\\' ∨ c = '/' then some c
  else if c = 'b' then some (Char.ofNat 8)
  else if c = 'f' then some (Char.ofNat 12)
  else if c = 'n' then some (Char.ofNat 10)
  else if c = 'r' then some (Char.ofNat 13)
  else if c = 't' then some (Char.ofNat 9)
  else none

def stringUnits (units : List StringUnit) :
    List Char → Option (List StringUnit × List Char)
  | [] => none
  | '"' :: rest => some (units, rest)
  | '\\' :: 'u' :: a :: b :: c :: d :: rest =>
    match hexWord? a b c d with
    | some n => stringUnits (.word n :: units) rest
    | none => none
  | '\\' :: c :: rest =>
    match shortEscape? c with
    | some e => stringUnits (.char e :: units) rest
    | none => none
  | c :: rest => if c.toNat < 0x20 then none else stringUnits (.char c :: units) rest

def isHighSurrogate (n : Nat) : Bool := 0xD800 ≤ n && n < 0xDC00

def isLowSurrogate (n : Nat) : Bool := 0xDC00 ≤ n && n < 0xE000

def decodeUnits : List StringUnit → Option (List Char)
  | [] => some []
  | .char c :: rest => (decodeUnits rest).map (c :: ·)
  | .word high :: .word low :: rest =>
    if isHighSurrogate high && isLowSurrogate low then
      (decodeUnits rest).map (Char.ofNat (0x10000 + (high - 0xD800) * 0x400 + (low - 0xDC00)) :: ·)
    else if isHighSurrogate high || isLowSurrogate high then none
    else (decodeUnits (.word low :: rest)).map (Char.ofNat high :: ·)
  | .word n :: rest =>
    if isHighSurrogate n || isLowSurrogate n then none
    else (decodeUnits rest).map (Char.ofNat n :: ·)

def token? : List Char → Option (Token × List Char)
  | [] => none
  | '[' :: rest => some (.openArray, rest)
  | ']' :: rest => some (.closeArray, rest)
  | '\x7b' :: rest => some (.openObject, rest)
  | '\x7d' :: rest => some (.closeObject, rest)
  | ',' :: rest => some (.comma, rest)
  | ':' :: rest => some (.colon, rest)
  | 'n' :: 'u' :: 'l' :: 'l' :: rest => some (.leaf .null, rest)
  | 't' :: 'r' :: 'u' :: 'e' :: rest => some (.leaf (.bool true), rest)
  | 'f' :: 'a' :: 'l' :: 's' :: 'e' :: rest => some (.leaf (.bool false), rest)
  | '"' :: rest =>
    (stringUnits [] rest).map fun (units, rest) =>
      (.leaf (.string ((decodeUnits units.reverse).map .ofList)), rest)
  | cs => (NumberLiteral.read? cs).map fun (found, rest) => (.leaf (.number found.value?), rest)

def isSpace (c : Char) : Bool := c = ' ' || c = '\t' || c = '\n' || c = '\r'

/-- All tokens of a text; each takes at least one character of the fuel. -/
def tokens? (tokens : List Token) : Nat → List Char → Option (List Token)
  | 0, _ => none
  | fuel + 1, cs =>
    match cs.dropWhile isSpace with
    | [] => some tokens.reverse
    | c :: cs =>
      match token? (c :: cs) with
      | some (token, rest) => tokens? (token :: tokens) fuel rest
      | none => none

/-- An array or object that is still open, its content with the last part first. -/
inductive Frame where
  | array (items : List Document)
  | object (members : List (Option String × Document))
  | member (members : List (Option String × Document)) (key : Option String)

inductive Reading where
  | beforeValue (frames : List Frame)
  | afterOpenArray (frames : List Frame)
  | afterOpenObject (frames : List Frame)
  | beforeKey (members : List (Option String × Document)) (frames : List Frame)
  | beforeColon (members : List (Option String × Document)) (key : Option String)
      (frames : List Frame)
  | afterValue (frames : List Frame)
  | done (document : Document)

namespace Reading

def complete (document : Document) : List Frame → Option Reading
  | [] => some (.done document)
  | .array items :: frames => some (.afterValue (.array (document :: items) :: frames))
  | .member members key :: frames =>
    some (.afterValue (.object ((key, document) :: members) :: frames))
  | .object _ :: _ => none

def start (token : Token) (frames : List Frame) : Option Reading :=
  match token with
  | .openArray => some (.afterOpenArray frames)
  | .openObject => some (.afterOpenObject frames)
  | .leaf document => complete document frames
  | _ => none

def step : Reading → Token → Option Reading
  | .beforeValue frames, token => start token frames
  | .afterOpenArray frames, .closeArray => complete (.array []) frames
  | .afterOpenArray frames, token => start token (.array [] :: frames)
  | .afterOpenObject frames, .closeObject => complete (.object []) frames
  | .afterOpenObject frames, .leaf (.string key) => some (.beforeColon [] key frames)
  | .beforeKey members frames, .leaf (.string key) => some (.beforeColon members key frames)
  | .beforeColon members key frames, .colon => some (.beforeValue (.member members key :: frames))
  | .afterValue (.array items :: frames), .comma => some (.beforeValue (.array items :: frames))
  | .afterValue (.array items :: frames), .closeArray => complete (.array items.reverse) frames
  | .afterValue (.object members :: frames), .comma => some (.beforeKey members frames)
  | .afterValue (.object members :: frames), .closeObject =>
    complete (.object members.reverse) frames
  | _, _ => none

end Reading

def read? (s : String) : Option Document := do
  let cs := s.toList
  let tokens ← tokens? [] (cs.length + 1) cs
  match ← tokens.foldlM Reading.step (.beforeValue []) with
  | .done document => some document
  | _ => none

def depthLimit : Nat := 127

mutual

/-- The value of a document with room for `depth` more levels. Of members with one key the last
one counts. -/
def value? (depth : Nat) : Document → Option Json
  | .null => some .null
  | .bool value => some (.bool value)
  | .number value => value
  | .string value => value.map .string
  | .array items => if depth = 0 then none else (values? (depth - 1) items).map .array
  | .object members =>
    if depth = 0 then none else (memberValues? (depth - 1) members).map Json.ofMembers

def values? (depth : Nat) : List Document → Option (List Json)
  | [] => some []
  | item :: items => do
    let value ← value? depth item
    return value :: (← values? depth items)

def memberValues? (depth : Nat) : List (Option String × Document) → Option (List (String × Json))
  | [] => some []
  | (key, member) :: members => do
    let key ← key
    let value ← value? depth member
    return (key, value) :: (← memberValues? depth members)

end

end Document

def Json.read? (s : String) : Option Json :=
  (Document.read? s).bind (Document.value? Document.depthLimit)

end QueryDomain
