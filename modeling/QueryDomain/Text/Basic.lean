/-! Cutting and joining text. Everything here works on the list of characters, so that its laws
are laws of lists. -/
namespace QueryDomain.Text

/-- White space: the 25 characters that Unicode gives the property `White_Space`. -/
def isBlank (c : Char) : Bool :=
  let n := c.toNat
  (9 ≤ n && n ≤ 13) || n == 0x20 || n == 0x85 || n == 0xA0 || n == 0x1680 ||
    (0x2000 ≤ n && n ≤ 0x200A) || n == 0x2028 || n == 0x2029 || n == 0x202F ||
    n == 0x205F || n == 0x3000

theorem isBlank_of_isWhitespace (c : Char) (h : c.isWhitespace = true) : isBlank c = true := by
  simp only [Char.isWhitespace, Bool.or_eq_true, decide_eq_true_eq] at h
  rcases h with ((rfl | rfl) | rfl) | rfl <;> decide

def trimChars (cs : List Char) : List Char :=
  ((cs.dropWhile isBlank).reverse.dropWhile isBlank).reverse

def trim (s : String) : String :=
  .ofList (trimChars s.toList)

/-- The pieces between the separators: always one more than there are separators. -/
def splitChars (separator : Char) : List Char → List (List Char)
  | [] => [[]]
  | c :: cs =>
    if c = separator then [] :: splitChars separator cs
    else match splitChars separator cs with
      | [] => [[c]]
      | piece :: pieces => (c :: piece) :: pieces

theorem length_splitChars (separator : Char) (cs : List Char) :
    (splitChars separator cs).length = cs.count separator + 1 := by
  induction cs with
  | nil => rfl
  | cons c cs ih =>
    by_cases h : c = separator
    · simp [splitChars, h, ih]
    · rw [splitChars, if_neg h, List.count_cons_of_ne h]
      cases hp : splitChars separator cs with
      | nil => simp [hp] at ih
      | cons piece pieces => simpa [hp] using ih

def split (separator : Char) (s : String) : List String :=
  (splitChars separator s.toList).map .ofList

/-- Cuts at the first separator, which belongs to neither side. -/
def cut (separator : Char) (s : String) : String × Option String :=
  let (head, tail) := s.toList.span (· != separator)
  match tail with
  | [] => (s, none)
  | _ :: rest => (.ofList head, some (.ofList rest))

def replace (c : Char) (replacement : String) (s : String) : String :=
  .ofList (s.toList.flatMap fun x => if x = c then replacement.toList else [x])

/-- Writes `quote` twice wherever the text has it, and once at both ends. -/
def quoted (quote : Char) (s : String) : String :=
  let q := String.singleton quote
  q ++ replace quote (q ++ q) s ++ q

def join (separator : String) (pieces : List String) : String :=
  separator.intercalate pieces

def padRight (width : Nat) (s : String) : String :=
  s ++ .ofList (List.replicate (width - s.length) ' ')

def digitsValue (cs : List Char) : Nat :=
  cs.foldl (fun n c => 10 * n + (c.toNat - '0'.toNat)) 0

def zeroPadded (width n : Nat) : String :=
  let digits := Nat.toDigits 10 n
  .ofList (List.replicate (width - digits.length) '0' ++ digits)

end QueryDomain.Text
