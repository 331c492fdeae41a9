import QueryDomain.Records.Matching

/-! What a pass sees besides the condition. Optimizing a nested domain and searching
records are given as functions, so that passes are plain definitions. -/
namespace QueryDomain

structure Context where
  catalog : Catalog
  entity : Entity
  level : Level
  /-- Optimizes a domain for an entity at the level of the context. -/
  nested : Entity → Domain → Run Error Domain
  /-- The identifiers of the records of an entity that satisfy a domain. -/
  search : Entity → Domain → Run Error (List Int)

/-- Replaces a condition, or leaves it as it is. -/
abbrev Pass := Condition → Context → Run Error (Option Domain)

/-- Replaces the children of a node by others that mean the same together. -/
abbrev Merge := Connective → List Domain → Context → Run Error (List Domain)

namespace Context

def mark (ctx : Context) : Mark := ⟨ctx.entity.name, ctx.level⟩

def field (ctx : Context) (c : Condition) : Except Error Field := ctx.entity.conditionField c

/-- The entity that a traversal of the field leads to; `id` leads back to the entity itself. -/
def target (ctx : Context) (c : Condition) (field : Field) : Except Error Entity :=
  if field.name = Entity.idName then .ok ctx.entity
  else if field.isRelational then ctx.catalog.comodel c field
  else .error (.misuse c (.notRelational field.name))

end Context

namespace Pass

variable {α : Type}

def keep : Run Error (Option α) := pure none

def replace (d : Domain) : Run Error (Option Domain) := pure (some d)

def replaceOperand (c : Condition) (operand : Operand) : Run Error (Option Domain) :=
  if c.operand.sameFlat operand then keep else replace (.condition (c.withOperand operand))

end Pass

def ValueSet.unset : ValueSet := .singleton .null

end QueryDomain
