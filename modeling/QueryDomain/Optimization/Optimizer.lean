import QueryDomain.Optimization.Registry

/-! Applies passes and merges until a domain stops changing. The number of changes of one node is
bounded by the optimizer, and how deeply calls may nest by an explicit depth. -/
namespace QueryDomain

/-- Position of a child: conditions first, by path, then by family and rank of the operator. All
other children follow as they are. -/
def Domain.childLe (a b : Domain) : Bool :=
  match a.asCondition?, b.asCondition? with
  | some c, some d =>
    if c.path = d.path then
      c.operator.family.rank < d.operator.family.rank ||
        (c.operator.family.rank == d.operator.family.rank && c.operator.rank ≤ d.operator.rank)
    else decide (c.path < d.path)
  | none, some _ => false
  | _, none => true

def Domain.sortChildren (children : List Domain) : List Domain := children.mergeSort childLe

/-- A domain with the entity and level it was optimized for. -/
structure OptimizedDomain where
  domain : Domain
  entity : String
  level : Level

def OptimizedDomain.requireLevel (o : OptimizedDomain) (required : Level) : Except Error Unit :=
  if required.le o.level then .ok () else .error (.notOptimized o.entity o.level required)

structure Optimizer where
  registry : Registry := .standard
  /-- How often one node may change, and how often its children may be merged. -/
  maxIterations : Nat := 1000

inductive Step where
  | done (d : Domain)
  | changed (d : Domain)

namespace Optimizer

def standard : Optimizer := {}

def firstChange (c : Condition) (ctx : Context) :
    List NamedPass → Run Error (Option (String × Domain))
  | [] => pure none
  | pass :: passes => do
    match ← pass.run c ctx with
    | some d => return some (pass.name, d)
    | none => firstChange c ctx passes

def candidates (o : Optimizer) (ctx : Context) (c : Condition) : List NamedPass :=
  ctx.level.upTo.flatMap fun level =>
    o.registry.passesFor level c.operator (ctx.entity.headType? c.path)

def stepCondition (o : Optimizer) (ctx : Context) (c : Condition) : Run Error Step := do
  match ← firstChange c ctx (o.candidates ctx c) with
  | some (name, d) =>
    Run.report (.replaced name c d)
    return .changed d
  | none => return .done (.condition (c.withMark ctx.mark))

/-- Splits children into runs of neighbours with one key; a child without a key stands alone. -/
def runsBy (key : Domain → Option String) : List Domain → List (Option String × List Domain)
  | [] => []
  | d :: ds =>
    match key d, runsBy key ds with
    | some k, (some l, run) :: groups =>
      if k = l then (some k, d :: run) :: groups else (some k, [d]) :: (some l, run) :: groups
    | k, groups => (k, [d]) :: groups

def mergeRuns (entry : MergeEntry) (k : Connective) (ctx : Context) :
    List (Option String × List Domain) → Run Error (List Domain)
  | [] => pure []
  | (key, run) :: groups => do
    let isRun := match key with
      | some path =>
        decide (1 < run.length) && entry.scope.acceptsType (ctx.entity.headType? path)
      | none => false
    let merged ← if isRun then entry.run k run ctx else pure run
    return merged ++ (← mergeRuns entry k ctx groups)

def applyMerge (entry : MergeEntry) (k : Connective) (ctx : Context) (children : List Domain) :
    Run Error (List Domain) :=
  match entry.scope with
  | .children => entry.run k children ctx
  | .runs _ _ => mergeRuns entry k ctx (runsBy entry.scope.runKey? children)

def applyMerges (o : Optimizer) (k : Connective) (ctx : Context) (children : List Domain) :
    Run Error (List Domain) :=
  (ctx.level.upTo.flatMap o.registry.mergesAt).foldlM
    (fun children entry => applyMerge entry k ctx children) children

def rebuild (k : Connective) (ctx : Context) (children : List Domain) : Run Error Domain := do
  let optimized ← children.mapM (ctx.nested ctx.entity)
  let joined := k.apply optimized
  if joined.connective? = some k then return k.apply (Domain.sortChildren joined.children)
  else return joined

/-- Optimizes and merges the children of a node until merging no longer makes them fewer.
`rounds` is how many more times it may. -/
def stepNary (o : Optimizer) (k : Connective) (ctx : Context) (rounds : Nat)
    (children : List Domain) : Run Error Step := do
  let rebuilt ← rebuild k ctx children
  if rebuilt.connective? ≠ some k then return .done rebuilt
  let sorted := rebuilt.children
  let merged ← o.applyMerges k ctx sorted
  if Domain.sameAll merged sorted then return .done (rebuilt.withMark ctx.mark)
  if sorted.length ≤ merged.length then
    Run.report (.mergedInPlace k merged.length)
    return .done ((← rebuild k ctx merged).withMark ctx.mark)
  Run.report (.merged k sorted.length merged.length)
  match rounds with
  | 0 => throw (.diverged o.maxIterations)
  | rounds + 1 => stepNary o k ctx rounds merged

def step (o : Optimizer) (ctx : Context) : Domain → Run Error Step
  | .constant v => pure (.done (.constant v))
  | .negation inner => do
    let negated := (← ctx.nested ctx.entity inner).negate
    match negated with
    | .negation _ | .constant _ => return .done negated
    | _ => return .changed negated
  | .nary k children _ => o.stepNary k ctx o.maxIterations children
  | .condition c => o.stepCondition ctx c

/-- Whether the mark makes work on the domain needless; a mark of another entity is reported. -/
def isSettled (ctx : Context) (d : Domain) : Run Error Bool := do
  match d.mark? with
  | none => return false
  | some mark =>
    if mark.covers ctx.entity.name ctx.level then return true
    if mark.entity ≠ ctx.entity.name then
      Run.report (.reusedElsewhere d mark.entity ctx.entity.name)
    return false

/-- Takes steps until one is done; `changes` is how many more times the domain may change. -/
def settle (o : Optimizer) (ctx : Context) (changes : Nat) (d : Domain) : Run Error Domain := do
  if ← isSettled ctx d then return d
  match ← o.step ctx d with
  | .done result => return result
  | .changed result =>
    match changes with
    | 0 => throw (.diverged o.maxIterations)
    | changes + 1 => settle o ctx changes result

def conclude (optimize : Entity → Domain → Run Error Domain) (level : Level) (entity : Entity)
    (d : Domain) : Run Error OptimizedDomain := do
  let result ← optimize entity d
  Run.report (.optimized entity.name level result)
  return ⟨result, entity.name, level⟩

def searchBy (catalog : Catalog) (optimize : Entity → Domain → Run Error Domain) (entity : Entity)
    (d : Domain) : Run Error (List Int) := do
  let optimized ← conclude optimize .search entity d
  let ids ← catalog.matching entity optimized.domain (catalog.records entity.name)
  Run.report (.searched entity.name optimized.domain ids.length)
  return ids

/-- Optimizes a domain, with `depth` calls inside each other at most. Searches made on the way use
the standard optimizer. -/
def node (catalog : Catalog) : Nat → Optimizer → Level → Entity → Domain → Run Error Domain
  | 0, _, _, _, _ => throw .tooDeep
  | depth + 1, o, level, entity, d =>
    let ctx : Context := {
      catalog, entity, level
      nested := node catalog depth o level
      search := searchBy catalog (node catalog depth standard .search)
    }
    o.settle ctx o.maxIterations d

def optimizeWithin (o : Optimizer) (depth : Nat) (catalog : Catalog) (level : Level)
    (entity : Entity) (d : Domain) : Run Error OptimizedDomain :=
  conclude (node catalog depth o level) level entity d

def defaultDepth : Nat := 100000

def optimize (o : Optimizer) : Catalog → Level → Entity → Domain → Run Error OptimizedDomain :=
  o.optimizeWithin defaultDepth

end Optimizer

namespace Catalog

def searchWithin (catalog : Catalog) (depth : Nat) (entity : Entity) (d : Domain) :
    Run Error (List Int) :=
  Optimizer.searchBy catalog (Optimizer.node catalog depth .standard .search) entity d

def search (catalog : Catalog) : Entity → Domain → Run Error (List Int) :=
  catalog.searchWithin Optimizer.defaultDepth

end Catalog

end QueryDomain
