import QueryDomain.Operator
import QueryDomain.Value

/-! Patterns in which `%` stands for any run of characters and `_` for exactly one. -/
namespace QueryDomain.Pattern

def spread (reached : Bool) : List Bool → List Bool
  | [] => []
  | flag :: flags => (reached || flag) :: spread (reached || flag) flags

/-- Flag `j` of a row tells whether the pattern so far matches the first `j` characters of the
text. Takes the row over one more character of the pattern. -/
def advance (text : List Char) (row : List Bool) (p : Char) : List Bool :=
  if p = '%' then spread false row
  else false :: List.zipWith (fun flag c => flag && (p == '_' || p == c)) row text

def start (text : List Char) : List Bool := true :: text.map fun _ => false

def like (pattern text : List Char) : Bool :=
  ((pattern.foldl (advance text) (start text)).getLast?).getD false

theorem length_spread (reached : Bool) (row : List Bool) :
    (spread reached row).length = row.length := by
  induction row generalizing reached with
  | nil => rfl
  | cons flag flags ih => simp [spread, ih]

theorem length_advance (text : List Char) (row : List Bool) (p : Char)
    (h : row.length = text.length + 1) : (advance text row p).length = text.length + 1 := by
  unfold advance
  split
  · rw [length_spread, h]
  · simp [h]

def subject : Value → String
  | .text s => s
  | value => value.toJson.text

/-- Whether the value satisfies a pattern operator. An unset value satisfies the negative ones. -/
def test (op : Operator) (pattern : String) (value : Value) : Bool :=
  if value.isNull then op.isNegative
  else
    let caseless := op.positive == .ilike || op.positive == .eqIlike
    let within := op.positive == .like || op.positive == .ilike
    let fold := if caseless then Text.lowercase else id
    let text := fold (subject value)
    let pattern := if within then "%" ++ fold pattern ++ "%" else fold pattern
    like pattern.toList text.toList != op.isNegative

end QueryDomain.Pattern
