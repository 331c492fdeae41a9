import QueryDomain.Optimization.Relations

/-! Resolution of `child_of` and `parent_of` by walking the parent relation, or by the materialized
path where an entity keeps one. -/
namespace QueryDomain

namespace Hierarchy

def newIds (known : List Int) : List Int → List Int
  | [] => []
  | id :: ids => if known.contains id then newIds known ids else id :: newIds (id :: known) ids

/-- Follows `next` from a frontier until it brings nothing new. Every step but the last finds a new
identifier, so the number of identifiers that can be found bounds the steps. -/
def closure (next : List Int → Run Error (List Int)) (known frontier : List Int) :
    Nat → Run Error (List Int)
  | 0 => if frontier.isEmpty then pure known else throw .tooDeep
  | steps + 1 =>
    if frontier.isEmpty then pure known
    else do
      let found ← next frontier
      let fresh := newIds known found
      closure next (known ++ fresh) fresh steps

def stepLimit (ctx : Context) (target : Entity) : Nat :=
  (ctx.catalog.records target.name).length + 2

def idIn (ids : List Int) : Domain :=
  .leaf Entity.idName .mem (.set (.ofList (ids.map Value.int)))

def seeds (c : Condition) (ctx : Context) (target : Entity) : Run Error (List Int) := do
  let values ← match c.operand with
    | .scalar value => pure [value]
    | .set values => pure values.values
    | operand => throw (.mismatch c (.expectsIds c.operator operand))
  let found ← values.mapM fun value =>
    match value with
    | .int id => pure [id]
    | .text label => ctx.search target (.leaf target.recName .ilike (.scalar (.text label)))
    | value =>
      if value.isFalsy then pure []
      else throw (.mismatch c (.notIdOrLabel value.display))
  return newIds [] found.flatten

def paths (ctx : Context) (target : Entity) (ids : List Int) : Except Error (List String) := do
  let values ← ctx.catalog.readField target ids Entity.parentPath
  return values.filterMap fun (_, value) => value.asText?

/-- Whether the materialized path follows this parent field. -/
def usesPath (target : Entity) (parent : String) : Bool :=
  target.parentStore && parent == target.parentName

def requireParent (c : Condition) (target : Entity) (parent : String) : Except Error Unit :=
  match target.field? parent with
  | some _ => .ok ()
  | none => .error (.misuse c (.noParentField target.name parent))

def descendants (c : Condition) (ctx : Context) (target : Entity) (parent : String)
    (ids : List Int) : Run Error Domain := do
  if usesPath target parent then
    let paths ← paths ctx target ids
    return .or (paths.map fun path =>
      .leaf Entity.parentPath .eqLike (.scalar (.text (path ++ "%"))))
  else
    requireParent c target parent
    let children (frontier : List Int) : Run Error (List Int) :=
      ctx.search target (.leaf parent .mem (.set (.ofList (frontier.map Value.int))))
    return idIn (← closure children ids ids (stepLimit ctx target))

def pathIds (path : String) : List Int := (Text.split '/' path).filterMap Value.readInt?

def ancestors (c : Condition) (ctx : Context) (target : Entity) (parent : String)
    (ids : List Int) : Run Error Domain := do
  if usesPath target parent then
    let paths ← paths ctx target ids
    return idIn (newIds [] (paths.flatMap pathIds))
  else
    requireParent c target parent
    let parents (frontier : List Int) : Run Error (List Int) := do
      let values ← ctx.catalog.readField target frontier parent
      return values.filterMap fun (_, value) => value.asInt?
    return idIn (← closure parents ids ids (stepLimit ctx target))

end Hierarchy

/-- Replaces a hierarchy operator by a condition on the records found. A many2one of an entity to
itself is the parent link that is followed; any other relational field leads to records whose own
parent link is. -/
def Pass.hierarchy : Pass := fun c ctx => do
  let field ← ctx.field c
  let recursive := field.name != Entity.idName && field.type == .many2one &&
    field.comodel == some ctx.entity.name
  let target ← if recursive then pure ctx.entity else ctx.target c field
  let parent := if recursive then field.name else target.parentName
  let ids ← Hierarchy.seeds c ctx target
  if ids.isEmpty then replace (.constant false)
  else
    let found ←
      if c.operator = .childOf then Hierarchy.descendants c ctx target parent ids
      else Hierarchy.ancestors c ctx target parent ids
    Run.report (.hierarchyResolved c target.name parent found)
    if field.name = Entity.idName || recursive then replace found
    else replace (traversal field.name .any found)

end QueryDomain
