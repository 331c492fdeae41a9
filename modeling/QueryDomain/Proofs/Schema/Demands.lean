import Mathlib.Algebra.Order.BigOperators.Group.List
import Mathlib.Algebra.Order.Group.Nat
import Mathlib.Logic.Relation
import Mathlib.Order.RelClasses
import QueryDomain.Proofs.Schema.Paths

/-! What conditions can ask of other fields and entities while they are optimized. A path asks for
the fields it crosses, a label for the field that names the related records, an inherited field for
its link and its original, a walk through a hierarchy for what it searches by. Where nothing asks
for itself in the end, everything can be given a price above the prices of what it asks for. -/
namespace QueryDomain

inductive Need where
  /-- To be led to other records. -/
  | follow
  /-- To compare its value. -/
  | compare
  /-- To compare its value or, if it is a relation, the labels of related records. -/
  | name
  /-- To walk up or down a hierarchy. -/
  | walk
  deriving DecidableEq

/-- What a condition on a path needs, for an entity. -/
structure Demand where
  need : Need
  entity : Entity
  path : String

namespace Catalog

variable {catalog : Catalog} {entity target : Entity}

/-- An inherited field is of the same type as its original and leads where that does. -/
def InheritsAlike (catalog : Catalog) : Prop :=
  ∀ entity field link owner original, catalog.entity? entity.name = some entity →
    entity.field? field.name = some field → field.delegatedVia = some link →
    catalog.Leads entity link owner → owner.field? field.name = some original →
    original.type = field.type ∧
      catalog.target? owner field.name = catalog.target? entity field.name

theorem Leads.of_owner (halike : catalog.InheritsAlike) {owner : Entity} {path link : String}
    {field : Field} (hentity : catalog.entity? entity.name = some entity)
    (hfield : entity.field? (Text.cut '.' path).1 = some field)
    (hlink : field.delegatedVia = some link) (howner : catalog.Leads entity link owner)
    (h : catalog.Leads owner path target) : catalog.Leads entity path target := by
  have hname := Entity.name_of_field? hfield
  have hsame : ∀ original, owner.field? (Text.cut '.' path).1 = some original →
      original.type = field.type ∧ catalog.target? owner path = catalog.target? entity path := by
    intro original horiginal
    rw [← target?_head catalog owner, ← target?_head catalog entity, ← hname]
    exact halike entity field link owner original hentity (by rwa [hname]) hlink howner
      (by rwa [hname])
  obtain ⟨last, reached, hreaches, htarget⟩ := h
  cases hreaches with
  | here horiginal hends =>
    obtain ⟨htype, hsame⟩ := hsame reached horiginal
    rw [target?_name horiginal, hsame] at htarget
    exact leads_of_target? hfield (htype ▸ hends) htarget
  | @through _ _ rest original next _ _ hrest horiginal hrelational hnext hreaches =>
    obtain ⟨htype, hsame⟩ := hsame original horiginal
    refine .through hrest hfield ?_ (hsame ▸ hnext) ⟨last, reached, hreaches, htarget⟩
    rwa [Field.isRelational, ← htype]

/-- A condition of the first demand can bring up one of the second. -/
inductive Raises (catalog : Catalog) : Demand → Demand → Prop
  /-- A path is crossed at its first field. -/
  | head {need entity path rest field} : (Text.cut '.' path).2 = some rest →
      entity.field? (Text.cut '.' path).1 = some field → field.isRelational = true →
      Raises catalog ⟨need, entity, path⟩ ⟨.follow, entity, field.name⟩
  | rest {need entity path rest field target} : (Text.cut '.' path).2 = some rest →
      entity.field? (Text.cut '.' path).1 = some field → field.isRelational = true →
      catalog.target? entity path = some target →
      Raises catalog ⟨need, entity, path⟩ ⟨need, target, rest⟩
  | compared {entity path} : Raises catalog ⟨.name, entity, path⟩ ⟨.compare, entity, path⟩
  /-- Labels are searched on the records that a relation leads to. -/
  | relation {entity path field} : (Text.cut '.' path).2 = none →
      entity.field? (Text.cut '.' path).1 = some field → field.isRelational = true →
      Raises catalog ⟨.name, entity, path⟩ ⟨.follow, entity, path⟩
  | label {entity path field comodel target} : (Text.cut '.' path).2 = none →
      entity.field? (Text.cut '.' path).1 = some field → field.isRelational = true →
      field.comodel.bind catalog.entity? = some comodel →
      catalog.target? entity path = some target →
      Raises catalog ⟨.name, entity, path⟩ ⟨.name, target, comodel.recName⟩
  /-- So are the identifiers that a relation to many is compared with. -/
  | members {entity path field} : (Text.cut '.' path).2 = none →
      entity.field? (Text.cut '.' path).1 = some field → field.type.isX2Many = true →
      Raises catalog ⟨.compare, entity, path⟩ ⟨.follow, entity, path⟩
  | ids {entity path field target} : (Text.cut '.' path).2 = none →
      entity.field? (Text.cut '.' path).1 = some field → field.type.isX2Many = true →
      catalog.target? entity path = some target →
      Raises catalog ⟨.compare, entity, path⟩ ⟨.compare, target, Entity.idName⟩
  /-- A many2one is asked whether it is set. -/
  | unset {entity path field} : (Text.cut '.' path).2 = none →
      entity.field? (Text.cut '.' path).1 = some field → field.type = .many2one →
      Raises catalog ⟨.follow, entity, path⟩ ⟨.compare, entity, path⟩
  /-- An inherited field is looked for where its link leads. -/
  | link {need entity path field link} : entity.field? (Text.cut '.' path).1 = some field →
      field.delegatedVia = some link →
      Raises catalog ⟨need, entity, path⟩ ⟨.follow, entity, link⟩
  | owner {need entity path field link owner} : entity.field? (Text.cut '.' path).1 = some field →
      field.delegatedVia = some link → catalog.Leads entity link owner →
      Raises catalog ⟨need, entity, path⟩ ⟨need, owner, path⟩
  /-- A walk starts at labels, goes along a parent field, and ends at identifiers or paths. -/
  | reached {entity path field} : entity.field? (Text.cut '.' path).1 = some field →
      Raises catalog ⟨.walk, entity, path⟩ ⟨.follow, entity, field.name⟩
  | seed {entity path target} : catalog.target? entity path = some target →
      Raises catalog ⟨.walk, entity, path⟩ ⟨.name, target, target.recName⟩
  | parent {entity path field target} : entity.field? (Text.cut '.' path).1 = some field →
      catalog.target? entity path = some target →
      Raises catalog ⟨.walk, entity, path⟩ ⟨.compare, target, target.parentName⟩
  | ownParent {entity path field} : entity.field? (Text.cut '.' path).1 = some field →
      Raises catalog ⟨.walk, entity, path⟩ ⟨.compare, entity, field.name⟩
  | found {entity path target} : catalog.target? entity path = some target →
      Raises catalog ⟨.walk, entity, path⟩ ⟨.compare, target, Entity.idName⟩
  | below {entity path target} : catalog.target? entity path = some target →
      Raises catalog ⟨.walk, entity, path⟩ ⟨.name, target, Entity.parentPath⟩

def RaisedBy (catalog : Catalog) (b a : Demand) : Prop :=
  catalog.entity? a.entity.name = some a.entity ∧ catalog.Raises a b

def Acyclic (catalog : Catalog) : Prop := WellFounded catalog.RaisedBy

def pathsFrom (catalog : Catalog) (entity : Entity) (path : String) : List String :=
  let entities := entity :: catalog.entities
  let field := entity.field? (Text.cut '.' path).1
  [path, Entity.idName, Entity.parentPath] ++ (Text.cut '.' path).2.toList ++
    (field.map (·.name)).toList ++ (field.bind (·.delegatedVia)).toList ++
    entities.map (·.recName) ++ entities.map (·.parentName)

def demandsFrom (catalog : Catalog) (a : Demand) : List Demand :=
  [Need.follow, .compare, .name, .walk].flatMap fun need =>
    (a.entity :: catalog.entities).flatMap fun entity =>
      (catalog.pathsFrom a.entity a.path).map fun path => ⟨need, entity, path⟩

theorem mem_demandsFrom {a b : Demand} (h : catalog.Raises a b) : b ∈ catalog.demandsFrom a := by
  have hentity : b.entity ∈ a.entity :: catalog.entities := by
    cases h <;> first
      | exact List.mem_cons_self ..
      | exact mem_of_target? ‹_›
      | exact Leads.mem ‹_›
  have hpath : b.path ∈ catalog.pathsFrom a.entity a.path := by
    unfold pathsFrom
    cases h with
    | label _ _ _ hcomodel _ =>
      obtain ⟨name, -, hname⟩ := Option.bind_eq_some_iff.1 hcomodel
      refine List.mem_append_left _ (List.mem_append_right _ ?_)
      exact List.mem_map_of_mem (List.mem_cons_of_mem _ (List.mem_of_find?_eq_some hname))
    | seed htarget =>
      refine List.mem_append_left _ (List.mem_append_right _ ?_)
      exact List.mem_map_of_mem (mem_of_target? htarget)
    | parent _ htarget =>
      exact List.mem_append_right _ (List.mem_map_of_mem (mem_of_target? htarget))
    | _ => simp_all
  have hneed : b.need ∈ [Need.follow, .compare, .name, .walk] := by
    cases b.need <;> simp
  exact List.mem_flatMap.2 ⟨b.need, hneed, List.mem_flatMap.2 ⟨b.entity, hentity,
    List.mem_map.2 ⟨b.path, hpath, rfl⟩⟩⟩

end Catalog

/-- A relation without infinite chains, in which everything leads to finitely many others, can be
ranked by numbers. -/
theorem exists_rank {α : Type} {R : α → α → Prop} (hwf : WellFounded fun b a => R a b)
    {next : α → List α} (hnext : ∀ {a b}, R a b → b ∈ next a) :
    ∃ rank : α → Nat, ∀ a b, R a b → rank b < rank a := by
  classical
  let rank : α → Nat := hwf.fix fun a lower =>
    ((next a).map fun b => if h : R a b then lower b h + 1 else 0).sum
  have hrank : ∀ a, rank a = ((next a).map fun b => if R a b then rank b + 1 else 0).sum := by
    intro a
    exact hwf.fix_eq _ a
  refine ⟨rank, fun a b h => ?_⟩
  have hmem : rank b + 1 ∈ (next a).map fun b => if R a b then rank b + 1 else 0 :=
    List.mem_map.2 ⟨b, hnext h, if_pos h⟩
  rw [hrank a]
  exact List.single_le_sum (fun _ _ => Nat.zero_le _) _ hmem

/-- Prices at which everything costs more than any two of the demands it raises. -/
structure Catalog.Priced (catalog : Catalog) (price : Demand → Nat) : Prop where
  pos : ∀ a, 0 < price a
  raises : ∀ {a b}, catalog.entity? a.entity.name = some a.entity → catalog.Raises a b →
    3 * price b ≤ price a
  compare_le : ∀ entity path, price ⟨.compare, entity, path⟩ ≤ price ⟨.name, entity, path⟩

theorem Catalog.Acyclic.exists_price {catalog : Catalog} (h : catalog.Acyclic) :
    ∃ price, catalog.Priced price := by
  classical
  obtain ⟨rank, hrank⟩ := exists_rank h fun hab => Catalog.mem_demandsFrom hab.2
  have hraises : ∀ {a b}, catalog.entity? a.entity.name = some a.entity → catalog.Raises a b →
      3 * 3 ^ rank b ≤ 3 ^ rank a := by
    intro a b ha hab
    calc 3 * 3 ^ rank b = 3 ^ (rank b + 1) := by rw [Nat.pow_succ, Nat.mul_comm]
      _ ≤ 3 ^ rank a := Nat.pow_le_pow_right (by omega) (hrank a b ⟨ha, hab⟩)
  refine ⟨fun a => if catalog.entity? a.entity.name = some a.entity then 3 ^ rank a else 1,
    ?_, ?_, ?_⟩
  · intro a
    split_ifs
    · exact Nat.pow_pos (by omega)
    · omega
  · intro a b ha hab
    have hle := hraises ha hab
    rw [if_pos ha]
    split_ifs
    · exact hle
    · have := Nat.pow_pos (n := rank b) (show 0 < 3 by omega)
      omega
  · intro entity path
    dsimp only
    split_ifs with hentity
    · have := @hraises ⟨.name, entity, path⟩ ⟨.compare, entity, path⟩ hentity .compared
      omega
    · exact Nat.le_refl _

end QueryDomain
