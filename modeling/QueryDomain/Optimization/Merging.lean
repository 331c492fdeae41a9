import QueryDomain.Optimization.Context

/-! Merges of several children of one node. -/
namespace QueryDomain.Merge

def distinct (seen : List Domain) : List Domain → List Domain
  | [] => []
  | d :: ds => if seen.any (·.same d) then distinct seen ds else d :: distinct (d :: seen) ds

def duplicates : Merge := fun _ children _ => pure (distinct [] children)

/-- What a run of `in` and `not in` conditions has added up to. -/
structure Membership where
  included : Option ValueSet := none
  excluded : Option ValueSet := none
  path : Option String := none
  others : List Domain := []

namespace Membership

/-- Under `and` included sets intersect and excluded ones unite; under `or` it is the other way
round. -/
def join (k : Connective) (isIncluded : Bool) (acc : Option ValueSet) (values : ValueSet) :
    ValueSet :=
  match acc with
  | none => values
  | some acc => if (k == .and) != isIncluded then acc.union values else acc.intersection values

def add (k : Connective) (m : Membership) (child : Domain) : Membership :=
  match child with
  | .condition ⟨path, operator, .set values, _⟩ =>
    let path := m.path.getD path
    if operator = .mem then
      { m with included := some (join k true m.included values), path := some path }
    else { m with excluded := some (join k false m.excluded values), path := some path }
  | other => { m with others := m.others ++ [other] }

def condition? (k : Connective) (m : Membership) : Option Domain :=
  m.path.bind fun path =>
    match m.included, m.excluded with
    | some included, none => some (.leaf path .mem (.set included))
    | none, some excluded => some (.leaf path .notMem (.set excluded))
    | some included, some excluded =>
      match k with
      | .and => some (.leaf path .mem (.set (included.difference excluded)))
      | .or => some (.leaf path .notMem (.set (excluded.difference included)))
    | none, none => none

end Membership

def sets : Merge := fun k run _ =>
  let m := run.foldl (Membership.add k) {}
  pure ((m.condition? k).toList ++ m.others)

def inner? (operator : Operator) : Domain → Option Domain
  | .condition ⟨_, op, .domain inner, _⟩ => if op = operator then some inner else none
  | _ => none

/-- `any` under `or` and `not any` under `and` unite their inner domains. -/
def unites (k : Connective) (operator : Operator) : Bool := (operator == .any) == (k == .or)

def traversals (k : Connective) (operator : Operator) (mergeable : Bool) (run : List Domain) :
    List Domain :=
  let group := run.filter fun d => (inner? operator d).isSome
  if mergeable then
    let inners := run.filterMap (inner? operator)
    let joined := if unites k operator then Domain.or inners else .and inners
    match group with
    | .condition c :: _ => [.condition (c.withOperand (.domain joined))]
    | _ => []
  else group

/-- Joins traversals of one field: `f any A | f any B` is `f any (A | B)`. Where the inner domains
would have to meet in one record, the field must lead to at most one. Queries written by hand stay
as they are. -/
def anys : Merge := fun k run ctx =>
  match run with
  | .condition first :: _ =>
    let single := match ctx.entity.field? first.path with
      | some field => !field.type.isX2Many
      | none => false
    let mergeable (operator : Operator) : Bool :=
      (unites k operator || single) && 1 < (run.filterMap (inner? operator)).length
    if !mergeable .any && !mergeable .notAny then pure run
    else
      pure (traversals k .any (mergeable .any) run ++
        traversals k .notAny (mergeable .notAny) run ++
        run.filter fun d => (inner? .any d).isNone && (inner? .notAny d).isNone)
  | _ => pure run

end QueryDomain.Merge
