import QueryDomain.Calendar.Reader
import QueryDomain.FieldType
import QueryDomain.Json.Basic
import QueryDomain.Text.Lowercase

/-! Scalar literals: what they compare with, what they convert to, and how they are written. -/
namespace QueryDomain

/-- `null` also means "not set". Integers have 64 bits. -/
inductive Value where
  | null
  | bool (value : Bool)
  | int (value : Int)
  | float (value : Binary64)
  | text (value : String)
  | date (value : Date)
  | timestamp (value : Timestamp)
  deriving DecidableEq, Repr

namespace Value

/-- Equality of values of one kind. Integers and floats are never equal here; all floats that are
not numbers are, and so are both zeros. -/
def same : Value → Value → Bool
  | null, null => true
  | bool a, bool b => a == b
  | int a, int b => a == b
  | float a, float b => a.same b
  | text a, text b => a == b
  | date a, date b => a == b
  | timestamp a, timestamp b => a == b
  | _, _ => false

theorem same_refl (v : Value) : v.same v = true := by
  cases v <;> simp [same, Binary64.same_refl]

theorem same_comm (v w : Value) : v.same w = w.same v := by
  cases v <;> cases w <;> simp [same, Binary64.same_comm, BEq.comm]

def isNull : Value → Bool
  | null => true
  | _ => false

def isFalsy : Value → Bool
  | null => true
  | bool value => !value
  | int value => value == 0
  | float value => value.isZero
  | text value => value.isEmpty
  | date _ | timestamp _ => false

def asBool? : Value → Option Bool
  | bool value => some value
  | int value => if value = 0 then some false else if value = 1 then some true else none
  | text value =>
    let word := Text.lowercase (Text.trim value)
    if word = "true" ∨ word = "1" then some true
    else if word = "false" ∨ word = "0" then some false
    else none
  | null | float _ | date _ | timestamp _ => none

def readInt? (s : String) : Option Int :=
  let (negative, digits) := match s.toList with
    | '-' :: digits => (true, digits)
    | '+' :: digits => (false, digits)
    | digits => (false, digits)
  let n : Int := Text.digitsValue digits
  let signed := if negative then -n else n
  if digits.isEmpty || !digits.all Char.isDigit || !Json.isInt64 signed then none
  else some signed

def clampInt64 (n : Int) : Int := max (-Json.int64Limit) (min n (Json.int64Limit - 1))

/-- A whole float counts as an integer; one beyond 64 bits counts as the last integer before it. -/
def asInt? : Value → Option Int
  | int value => some value
  | float value => if value.isIntegral then some (clampInt64 value.truncate) else none
  | text value => readInt? (Text.trim value)
  | null | bool _ | date _ | timestamp _ => none

def asFloat? : Value → Option Binary64
  | int value => some (.ofInt value)
  | float value => some value
  | text value => Binary64.read? (Text.trim value)
  | null | bool _ | date _ | timestamp _ => none

def asText? : Value → Option String
  | text value => some value
  | _ => none

/-- Order of values of one kind. An integer is rounded to a float before it is compared with one. -/
def compare? : Value → Value → Option Ordering
  | int a, int b => some (compare a b)
  | float a, float b => a.compare? b
  | int a, float b => (Binary64.ofInt a).compare? b
  | float a, int b => a.compare? (.ofInt b)
  | text a, text b => some (compare a b)
  | bool a, bool b => some (compare a.toNat b.toNat)
  | date a, date b => some (compare a.key b.key)
  | timestamp a, timestamp b => some (compare a.key b.key)
  | _, _ => none

def fieldType? : Value → Option FieldType
  | null => none
  | bool _ => some .boolean
  | int _ => some .integer
  | float _ => some .float
  | text _ => some .char
  | date _ => some .date
  | timestamp _ => some .datetime

/-- Arrays and objects are no scalars. Integers beyond the signed 64 bits become floats. -/
def ofJson? : Json → Option Value
  | .null => some .null
  | .bool value => some (.bool value)
  | .integer n => some (if Json.isInt64 n then .int n else .float (.ofInt n))
  | .float x => some (.float x)
  | .string s => some (.text s)
  | .array _ | .object _ => none

def toJson : Value → Json
  | null => .null
  | bool value => .bool value
  | int value => .integer value
  | float value => if value.isFinite then .float value else .null
  | text value => .string value
  | date value => .string value.text
  | timestamp value => .string value.text

def display : Value → String
  | null => "NULL"
  | bool value => if value then "true" else "false"
  | int value => toString value
  | float value => value.display
  | text value => Text.quoted (Char.ofNat 39) value
  | date value => "'" ++ value.text ++ "'"
  | timestamp value => "'" ++ value.text ++ "'"

end Value

end QueryDomain
