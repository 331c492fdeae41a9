import QueryDomain.Proofs.Domain.Valuation
import QueryDomain.Records.Matching
import QueryDomain.Sql.Lowering

/-! What predicates mean to a database. Truth has three values: a comparison with an unset value is
unknown, and only rows for which a predicate is true are found. -/
namespace QueryDomain

/-- A truth value of SQL; `none` is unknown. -/
abbrev Ternary := Option Bool

namespace Ternary

def not : Ternary → Ternary := Option.map Bool.not

def and : Ternary → Ternary → Ternary
  | some false, _ | _, some false => some false
  | some true, some true => some true
  | _, _ => none

def or : Ternary → Ternary → Ternary
  | some true, _ | _, some true => some true
  | some false, some false => some false
  | _, _ => none

def join : Connective → Ternary → Ternary → Ternary
  | .and => and
  | .or => or

/-- Whether one is true, unknown if none is but one may be. -/
def anyOf : List Ternary → Ternary
  | [] => some false
  | a :: as => or a (anyOf as)

def negatedIf (negated : Bool) (a : Ternary) : Ternary := if negated then not a else a

theorem isTrue_join (k : Connective) (a b : Ternary) :
    (join k a b == some true) = k.join (a == some true) (b == some true) := by
  cases k <;> rcases a with _ | _ | _ <;> rcases b with _ | _ | _ <;> rfl

theorem isTrue_and (a b : Ternary) :
    (and a b == some true) = (a == some true && b == some true) :=
  isTrue_join .and a b

theorem anyOf_some {bs : List Bool} : anyOf (bs.map some) = some (bs.any id) := by
  induction bs with
  | nil => rfl
  | cons b bs ih =>
    rw [List.map_cons, anyOf, ih, List.any_cons]
    cases b <;> cases bs.any id <;> rfl

theorem isTrue_anyOf (as : List Ternary) :
    (anyOf as == some true) = as.any (· == some true) := by
  induction as with
  | nil => rfl
  | cons a as ih =>
    rw [anyOf, List.any_cons, ← ih]
    exact isTrue_join .or a (anyOf as)

theorem anyOf_unknown {as : List Ternary} (h : ∀ a ∈ as, a = none) (hsome : as ≠ []) :
    anyOf as = none := by
  induction as with
  | nil => exact absurd rfl hsome
  | cons a as ih =>
    rw [List.forall_mem_cons] at h
    rw [anyOf, h.1]
    cases as with
    | nil => rfl
    | cons b bs => rw [ih h.2 (List.cons_ne_nil b bs)]; rfl

theorem negatedIf_some (negated b : Bool) : negatedIf negated (some b) = some (b != negated) := by
  cases negated <;> cases b <;> rfl

@[simp] theorem negatedIf_none (negated : Bool) : negatedIf negated none = none := by
  cases negated <;> rfl

end Ternary

abbrev Row := String → Value

structure Database where
  rows : String → List Row

abbrev Scope := String → Row

/-- Inside a sub-select its alias hides any other use of the name. -/
def Scope.bind (scope : Scope) (name : String) (row : Row) : Scope :=
  fun other => if other = name then row else scope other

@[simp] theorem Scope.bind_self (scope : Scope) (name : String) (row : Row) :
    scope.bind name row name = row :=
  if_pos rfl

theorem Scope.bind_of_ne (scope : Scope) {name other : String} (row : Row) (h : other ≠ name) :
    scope.bind name row other = scope other :=
  if_neg h

/-- What a reference reads. Properties inside JSON columns are left out. -/
def ColumnRef.read (scope : Scope) : ColumnRef → Value
  | .column ⟨some row, name⟩ => scope row name
  | .column ⟨none, _⟩ | .jsonPath _ _ => .null

@[simp] theorem ColumnRef.read_qualified (scope : Scope) (row column : String) :
    (ColumnRef.qualified row column).read scope = scope row column :=
  rfl

namespace Comparison

def accepts : Comparison → Option Ordering → Bool
  | equal, ordering => ordering == some .eq
  | different, ordering => ordering != some .eq
  | less, ordering => ordering == some .lt
  | greater, ordering => ordering == some .gt
  | lessOrEqual, ordering => ordering == some .lt || ordering == some .eq
  | greaterOrEqual, ordering => ordering == some .gt || ordering == some .eq

def apply (relation : Comparison) (a b : Value) : Ternary :=
  if a.isNull || b.isNull then none else some (relation.accepts (a.compare? b))

end Comparison

/-- The pattern match of SQL. Patterns that ignore case are matched in lower case. -/
def Pattern.accepts (caseless : Bool) (pattern : String) (value : Value) : Bool :=
  let fold := if caseless then Text.lowercase else id
  like (fold pattern).toList (fold (subject value)).toList

namespace Predicate

mutual

def eval (db : Database) (scope : Scope) : Predicate → Ternary
  | constant value => some value
  | notTrue inner => some (eval db scope inner != some true)
  | group k parts => evalAll db scope k parts
  | null column negated => some ((column.read scope).isNull != negated)
  | compare column relation value => relation.apply (column.read scope) value
  | inList column negated values =>
    .negatedIf negated (.anyOf (values.map (Comparison.equal.apply (column.read scope))))
  | like column _ caseless negated pattern =>
    let value := column.read scope
    if value.isNull then none else some (Pattern.accepts caseless pattern value != negated)
  | inQuery column negated query =>
    .negatedIf negated (.anyOf ((selected db scope query).map
      (Comparison.equal.apply (column.read scope))))
  | linked negated table row link owner filter =>
    some (((db.rows table).any fun r =>
      Ternary.and (Comparison.equal.apply (link.read (scope.bind row r))
        (owner.read (scope.bind row r))) (eval db (scope.bind row r) filter) == some true) !=
      negated)
  | custom _ => none

def evalAll (db : Database) (scope : Scope) (k : Connective) : List Predicate → Ternary
  | [] => some k.identity
  | part :: parts => .join k (eval db scope part) (evalAll db scope k parts)

def selected (db : Database) (scope : Scope) : Query → List Value
  | .select table row filter =>
    ((db.rows table).filter fun r => eval db (scope.bind row r) filter == some true).map
      (· Entity.idName)
  | .verbatim _ => []

end

section

variable (db : Database) (scope : Scope) (column : ColumnRef)

@[simp] theorem eval_null (negated : Bool) : (null column negated).eval db scope =
    some ((column.read scope).isNull != negated) :=
  rfl

@[simp] theorem eval_compare (relation : Comparison) (value : Value) :
    (compare column relation value).eval db scope = relation.apply (column.read scope) value :=
  rfl

@[simp] theorem eval_like (cast caseless negated : Bool) (pattern : String) :
    (like column cast caseless negated pattern).eval db scope =
      if (column.read scope).isNull then none
      else some (Pattern.accepts caseless pattern (column.read scope) != negated) :=
  rfl

theorem eval_list (negated : Bool) (values : List Value) :
    (inList column negated values).eval db scope =
      .negatedIf negated (.anyOf (values.map (Comparison.equal.apply (column.read scope)))) :=
  rfl

theorem eval_pair (k : Connective) (p q : Predicate) : (group k [p, q]).eval db scope =
    .join k (p.eval db scope) (.join k (q.eval db scope) (some k.identity)) :=
  rfl

end

mutual

/-- Made of comparisons of columns and sub-selects alone, without text of other origin. -/
def isStandard : Predicate → Bool
  | notTrue inner => isStandard inner
  | group _ parts => areStandard parts
  | null column _ | compare column _ _ | inList column _ _ | like column _ _ _ _ =>
    !Lowering.isPath column
  | inQuery column _ query => !Lowering.isPath column && selectsStandard query
  | linked _ _ _ link owner filter =>
    !Lowering.isPath link && !Lowering.isPath owner && isStandard filter
  | constant _ => true
  | custom _ => false

def areStandard : List Predicate → Bool
  | [] => true
  | part :: parts => isStandard part && areStandard parts

def selectsStandard : Query → Bool
  | .select _ _ filter => isStandard filter
  | .verbatim _ => false

end

mutual

def aliases : Predicate → List String
  | notTrue inner => aliases inner
  | group _ parts => partAliases parts
  | inQuery _ _ query => queryAliases query
  | linked _ _ row _ _ filter => row :: aliases filter
  | constant _ | null _ _ | compare _ _ _ | inList _ _ _ | like _ _ _ _ _ | custom _ => []

def partAliases : List Predicate → List String
  | [] => []
  | part :: parts => aliases part ++ partAliases parts

def queryAliases : Query → List String
  | .select _ row filter => row :: aliases filter
  | .verbatim _ => []

end

end Predicate

end QueryDomain
