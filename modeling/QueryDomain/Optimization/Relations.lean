import QueryDomain.Optimization.Context

/-! Passes that resolve paths, inherited and computed fields, and conditions on relations. A path
through a relation becomes a traversal: `partner_id.name = x` is `partner_id any (name = x)`. -/
namespace QueryDomain.Pass

def traversal (field : String) (operator : Operator) (inner : Domain) : Domain :=
  .leaf field operator (.domain inner)

def resolvePath : Pass := fun c ctx => do
  let field ← ctx.field c
  match c.rest? with
  | none => keep
  | some rest =>
    if field.isRelational then
      replace (traversal field.name .any (.leaf rest c.operator c.operand))
    else if field.type = .json then keep
    else throw (.misuse c (.crossesPlainField field.name))

/-- An inherited field is reached through the many2one to its owner. -/
def inheritedField : Pass := fun c ctx => do
  let field ← ctx.field c
  match field.delegatedVia with
  | none => keep
  | some link =>
    Run.report (.inherited ctx.entity.name field.name link)
    replace (traversal link .any (.condition c.withoutMark))

/-- A computed field is searched by its hook, unless it has SQL of its own. Without a hook the
condition is reported and taken for true. -/
def computedField : Pass := fun c ctx => do
  let field ← ctx.field c
  if field.stored || field.sqlHook.isSome || field.name == Entity.idName ||
      field.delegatedVia.isSome then keep
  else
    match field.searchHook with
    | some hook => return some (← hook ctx.entity.name c.operator c.operand)
    | none =>
      Run.report (.unsearchableField ctx.entity.name field.name c)
      replace (.constant true)

/-- Optimizes the domain of a traversal for the entity it leads to. A domain that nothing satisfies
decides the condition; on a many2one, a domain that everything satisfies asks whether there is a
related record. -/
def relatedDomain : Pass := fun c ctx => do
  let field ← ctx.field c
  let target ← ctx.target c field
  let positive := c.operator == .any
  match c.operand with
  | .query _ => keep
  | .domain inner =>
    let optimized ← ctx.nested target inner
    if optimized.isFalse then replace (.constant !positive)
    else if optimized.isTrue && field.type == .many2one then
      replace (.leaf field.name (if positive then .notMem else .mem) (.set .unset))
    else if optimized.same inner then keep
    else replace (.condition (c.withOperand (.domain optimized)))
  | operand => throw (.mismatch c (.expectsDomain c.operator operand))

def isLabel : Value → Bool
  | .text _ => true
  | _ => false

def labelledMembers (field : Field) (comodel : Entity) (labels ids : List Value) : Domain :=
  let byLabel := traversal field.name .any
    (.leaf comodel.recName .mem (.set (.ofList labels)))
  if ids.isEmpty then byLabel
  else .or [byLabel, .leaf field.name .mem (.set (.ofList ids))]

/-- Text compared with a relation is a label, searched on the field that names the related records:
`f in [3, 'Acme']` is `f any (name in ['Acme']) | f in [3]`. -/
def labels : Pass := fun c ctx => do
  let field ← ctx.field c
  if !field.isRelational || c.isDotted then keep
  else
    match c.operand with
    | .set values =>
      let (labels, ids) := values.values.partition isLabel
      if !c.operator.isMembership || labels.isEmpty then keep
      else
        let comodel ← ctx.catalog.comodel c field
        let members := labelledMembers field comodel labels ids
        replace (if c.operator = .mem then members else members.negate)
    | .scalar (.text _) =>
      if !c.operator.isPattern then keep
      else
        let comodel ← ctx.catalog.comodel c field
        let operator := if c.operator.isNegative then Operator.notAny else .any
        replace (traversal field.name operator
          (.leaf comodel.recName c.operator.positive c.operand))
    | _ => keep

/-- Membership of a relation to many records: some related record has one of the identifiers, or,
if the set holds the unset value, there is no related record. -/
def manyMembers : Pass := fun c _ =>
  match c.operand with
  | .set values =>
    if c.isDotted || !c.operator.isMembership then keep
    else
      let ids := ValueSet.ofList (values.values.filter fun v => !v.isNull)
      let byId :=
        if ids.isEmpty then []
        else [traversal c.path .any (.leaf Entity.idName .mem (.set ids))]
      let unrelated :=
        if values.containsNull then [traversal c.path .notAny (.constant true)] else []
      let members := Domain.or (byId ++ unrelated)
      replace (if c.operator = .mem then members else members.negate)
  | _ => keep

end QueryDomain.Pass
