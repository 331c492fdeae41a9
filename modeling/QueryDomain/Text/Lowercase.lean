import QueryDomain.Text.CaseTable

/-! Full lower case of a text. Every letter is mapped alone, except a capital sigma, which becomes
final where a word ends. -/
namespace QueryDomain.Text

def inRuns (runs : List (Nat × Nat)) (c : Char) : Bool :=
  runs.any fun (first, last) => first ≤ c.toNat && c.toNat ≤ last

def isCased (c : Char) : Bool := inRuns casedRuns c

def isCaseIgnorable (c : Char) : Bool := inRuns ignorableRuns c

def lowerChar (c : Char) : List Char :=
  let n := c.toNat
  if n < 0x80 then [c.toLower]
  else if n = 0x130 then ['i', Char.ofNat 0x307]
  else
    match lowerRuns.find? fun (first, last, step, _) =>
        first ≤ n && n ≤ last && (n - first) % step == 0 with
    | some (first, _, _, target) => [Char.ofNat (n - first + target)]
    | none => [c]

/-- Whether, past the characters that casing looks through, the next one has a case. -/
def meetsCased (cs : List Char) : Bool :=
  match cs.dropWhile isCaseIgnorable with
  | [] => false
  | c :: _ => isCased c

def lowerFrom (before : List Char) : List Char → List Char
  | [] => []
  | c :: cs =>
    let lowered :=
      if c.toNat = 0x3A3 then
        if meetsCased before && !meetsCased cs then [Char.ofNat 0x3C2] else [Char.ofNat 0x3C3]
      else lowerChar c
    lowered ++ lowerFrom (c :: before) cs

def lowercase (s : String) : String :=
  .ofList (lowerFrom [] s.toList)

end QueryDomain.Text
