import QueryDomain.Proofs.Optimization.NormalForm
import QueryDomain.Proofs.Sql.Lowering

/-! What optimizing for SQL accepts can be written: lowering it fails only where a query has another
number of parameters than of markers, or where a relation does not say by which columns its records
are linked. -/
namespace QueryDomain

open List

namespace Domain

/-- A part of the domain that has no SQL, by the error that says so. -/
inductive Obstructs (catalog : Catalog) : Domain → Entity → Error → Prop
  | negation {inner entity e} : Obstructs catalog inner entity e →
      Obstructs catalog (.negation inner) entity e
  | child {k children mark d entity e} : d ∈ children → Obstructs catalog d entity e →
      Obstructs catalog (.nary k children mark) entity e
  | inner {c inner target entity e} : c.operator.isTraversal = true →
      c.operand = .domain inner → catalog.target? entity c.path = some target →
      Obstructs catalog inner target e → Obstructs catalog (.condition c) entity e
  /-- A query with another number of parameters than of markers. -/
  | query {c query entity} : c.operator.isTraversal = true → c.operand = .query query →
      query.markers ≠ query.params.length →
      Obstructs catalog (.condition c) entity (.sqlFailed (.markerCount query.markers query))
  /-- A traversal of a one2many that names no inverse field. -/
  | noInverse {c field entity} : c.operator.isTraversal = true →
      entity.field? c.head = some field → field.type = .one2many → field.inverseName = none →
      Obstructs catalog (.condition c) entity (.misuse c (.noInverse field.name))
  /-- A traversal of a many2many that declares no link table, between entities of one table. -/
  | ownRelation {c field target entity} : c.operator.isTraversal = true →
      entity.field? c.head = some field → field.type = .many2many → field.relation = none →
      catalog.target? entity c.path = some target → entity.table = target.table →
      Obstructs catalog (.condition c) entity (.misuse c (.ownRelation entity.name))

end Domain

theorem Operator.isOrdering_of_standard {op : Operator} (hstandard : op.isStandard = true)
    (hequality : op.isEquality = false) (htraversal : op.isTraversal = false)
    (hmembership : op.isMembership = false) (hpattern : op.isPattern = false) :
    op.isOrdering = true := by
  revert hstandard hequality htraversal hmembership hpattern
  cases op <;> decide

namespace Lowering

variable {α β : Type} {E : Error → Prop}

/-- Whatever aliases are in use, the computation fails only with errors of the kind. -/
def FailsOnly (E : Error → Prop) (x : Lowering α) : Prop := ∀ n e, x.run n = .error e → E e

namespace FailsOnly

theorem pure (a : α) : FailsOnly E (Pure.pure a : Lowering α) := nofun

theorem throw {e : Error} (h : E e) : FailsOnly E (throw e : Lowering α) := by
  intro n e' he
  cases he
  exact h

theorem nextAlias (table : String) : FailsOnly E (nextAlias table) := nofun

theorem bind {x : Lowering α} {f : α → Lowering β} (hx : FailsOnly E x)
    (hf : ∀ a, FailsOnly E (f a)) : FailsOnly E (x >>= f) := by
  intro n e h
  rw [StateT.run_bind] at h
  cases hrun : x.run n with
  | error e' =>
    rw [hrun] at h
    cases h
    exact hx n e hrun
  | ok result =>
    rw [hrun] at h
    exact hf result.1 result.2 e h

theorem lift {x : Except Error α} (h : ∀ e, x = .error e → E e) :
    FailsOnly E (liftM x : Lowering α) := by
  intro n e he
  cases x with
  | error e' =>
    cases he
    exact h e rfl
  | ok a => cases he

theorem lift_bind {x : Except Error α} {a : α} {f : α → Lowering β} (hx : x = .ok a)
    (hf : FailsOnly E (f a)) : FailsOnly E ((liftM x : Lowering α) >>= f) := by
  subst hx
  exact hf

end FailsOnly

variable {dialect : Dialect} {catalog : Catalog} {entity target : Entity} {c : Condition}
  {row : String} {field : Field}

theorem failsOnly_check {query : SubQuery}
    (h : query.markers ≠ query.params.length → E (.sqlFailed (.markerCount query.markers query))) :
    FailsOnly E (liftM query.check : Lowering Unit) := by
  refine .lift fun e he => ?_
  unfold SubQuery.check at he
  split at he
  · cases he
  · cases he
    exact h ‹_›

theorem failsOnly_query {query : SubQuery} (hquery : c.operand = .query query)
    (h : query.markers ≠ query.params.length → E (.sqlFailed (.markerCount query.markers query))) :
    FailsOnly E (selection c none target) ∧ ∀ row, FailsOnly E (filter c none target row) := by
  unfold selection filter
  simp only [hquery]
  exact ⟨.bind (failsOnly_check h) fun _ => .pure _,
    fun row => .bind (failsOnly_check h) fun _ => .pure _⟩

theorem failsOnly_inner {lower : Entity → String → Lowering Predicate}
    (h : ∀ row, FailsOnly E (lower target row)) :
    FailsOnly E (selection c (some lower) target) ∧
      ∀ row, FailsOnly E (filter c (some lower) target row) := by
  unfold selection filter
  exact ⟨.bind (.nextAlias _) fun row => .bind (h row) fun _ => .pure _, h⟩

theorem failsOnly_default (h : entity.table = target.table → E (.misuse c (.ownRelation entity.name))) :
    FailsOnly E (liftM (Relation.default c entity target) : Lowering Relation) := by
  refine .lift fun e he => ?_
  unfold Relation.default at he
  dsimp only at he
  split at he
  · cases he
    exact h ‹_›
  · cases he

theorem failsOnly_traversal {inner : Inner} (hfield : entity.field? c.head = some field)
    (htarget : catalog.target? entity c.path = some target)
    (hoperand : FailsOnly E (selection c inner target) ∧
      ∀ row, FailsOnly E (filter c inner target row))
    (hinverse : field.type = .one2many → field.inverseName = none →
      E (.misuse c (.noInverse field.name)))
    (hrelation : field.type = .many2many → field.relation = none → entity.table = target.table →
      E (.misuse c (.ownRelation entity.name))) :
    FailsOnly E (traversal catalog c inner field entity row) := by
  change entity.field? (Text.cut '.' c.path).1 = some field at hfield
  rw [Catalog.target?, hfield, Option.bind_some] at htarget
  unfold traversal
  dsimp only
  split
  · rename_i hid
    rw [if_pos hid, Option.some.injEq] at htarget
    exact .bind (htarget ▸ hoperand.1) fun _ => .pure _
  · rename_i hid
    rw [if_neg hid] at htarget
    split at htarget
    · rename_i hrelational
      refine .lift_bind (Catalog.comodel_eq_ok.2 htarget) ?_
      cases htype : field.type with
      | many2one => exact .bind hoperand.1 fun _ => .pure _
      | one2many =>
        cases hname : field.inverseName with
        | none => exact .throw (hinverse htype hname)
        | some inverse =>
          exact .bind (.nextAlias _) fun sub => .bind (hoperand.2 sub) fun _ => .pure _
      | many2many =>
        have hlink : ∀ relation : Relation, FailsOnly E (do
            let sub ← nextAlias relation.table
            return Predicate.linked (c.operator == .notAny) relation.table sub
              (.qualified sub relation.column1) (.qualified row Entity.idName)
              (.inQuery (.qualified sub relation.column2) false (← selection c inner target))) :=
          fun relation => .bind (.nextAlias _) fun sub => .bind hoperand.1 fun _ => .pure _
        cases hdeclared : field.relation with
        | some relation => exact hlink relation
        | none => exact .bind (failsOnly_default (hrelation htype hdeclared)) hlink
      | _ => simp [Field.isRelational, FieldType.isRelational, htype] at hrelational
    · cases htarget

theorem comparison_ne_error (hnormal : c.IsNormal .sql field) (hready : Pass.IsSqlReady c field)
    (hop : c.operator.isTraversal = false) (column : ColumnRef) (textual : Bool) (e : Error) :
    comparison c column textual ≠ .error e := by
  have hshape := hready.shape
  unfold comparison
  cases hoperand : c.operand with
  | set values =>
    rw [hoperand] at hshape
    simp [show c.operator.isMembership = true from hshape]
  | scalar value =>
    dsimp only
    split
    · rename_i hpattern
      obtain ⟨text, htext, -⟩ := hnormal.pattern hpattern
      rw [hoperand] at htext
      cases htext
      simp [patternMatch, Value.asText?]
    · rename_i hpattern
      rw [hoperand, Pass.acceptsShape, hop, Bool.not_false, Bool.true_and, Bool.not_eq_true']
        at hshape
      rw [Bool.not_eq_true] at hpattern
      have hordering := Operator.isOrdering_of_standard hready.standard hnormal.noEquality hop hshape
        hpattern
      cases hoperator : c.operator <;> simp_all [Operator.isOrdering]
  | domain inner =>
    rw [hoperand, Pass.acceptsShape, hop] at hshape
    cases hshape
  | query query =>
    rw [hoperand, Pass.acceptsShape, hop] at hshape
    cases hshape

end Lowering

theorem Condition.Kept.sqlReady {catalog : Catalog} {entity : Entity} {c : Condition}
    {field : Field} (h : c.Kept catalog .sql entity) (hfield : entity.field? c.head = some field) :
    Pass.IsSqlReady c field := by
  have hpass := h _ PassEntry.IsStandard.sqlReady.mem rfl rfl
  obtain ⟨-, field', hfield', hready⟩ := Pass.sqlReady_eq_ok.1 hpass
  obtain rfl : field = field' := Option.some.inj (hfield.symm.trans (Context.field_eq_ok.1 hfield'))
  exact hready

namespace Domain

/-- Every condition of the domain has the property, for the entity it is on: the domain's own, or the
one that the traversals around it lead to. -/
inductive EachCondition (catalog : Catalog) (P : Condition → Entity → Prop) : Domain → Entity → Prop
  | constant (v entity) : EachCondition catalog P (.constant v) entity
  | negation {d entity} : EachCondition catalog P d entity →
      EachCondition catalog P (.negation d) entity
  | nary {k children mark entity} : (∀ d ∈ children, EachCondition catalog P d entity) →
      EachCondition catalog P (.nary k children mark) entity
  | condition {c entity} : P c entity →
      (∀ inner target, c.operand = .domain inner → c.operator.isTraversal = true →
        catalog.target? entity c.path = some target → EachCondition catalog P inner target) →
      EachCondition catalog P (.condition c) entity

namespace EachCondition

variable {catalog : Catalog} {P Q : Condition → Entity → Prop} {entity : Entity} {c : Condition}

theorem and {d : Domain} (hP : EachCondition catalog P d entity)
    (hQ : EachCondition catalog Q d entity) :
    EachCondition catalog (fun c e => P c e ∧ Q c e) d entity := by
  induction hP with
  | constant v entity => exact .constant v entity
  | negation _ ih =>
    cases hQ with
    | negation hQ => exact .negation (ih hQ)
  | nary _ ih =>
    cases hQ with
    | nary hQ => exact .nary fun d hd => ih d hd (hQ d hd)
  | condition hP _ ih =>
    cases hQ with
    | condition hQ hinner =>
      refine .condition ⟨hP, hQ⟩ fun inner target hoperand hop htarget => ?_
      exact ih inner target hoperand hop htarget (hinner inner target hoperand hop htarget)

theorem self (h : EachCondition catalog P (.condition c) entity) : P c entity := by
  cases h with
  | condition hself _ => exact hself

theorem inner (h : EachCondition catalog P (.condition c) entity) {d : Domain} {target : Entity}
    (hoperand : c.operand = .domain d) (hop : c.operator.isTraversal = true)
    (htarget : catalog.target? entity c.path = some target) :
    EachCondition catalog P d target := by
  cases h with
  | condition _ hinner => exact hinner d target hoperand hop htarget

theorem comodel {field : Field} {d : Domain} {target : Entity}
    (h : EachCondition catalog P (.condition c) entity) (hfield : entity.field? c.head = some field)
    (hop : c.operator.isTraversal = true) (hoperand : c.operand = .domain d)
    (hid : field.name ≠ Entity.idName) (hrelational : field.type.isRelational = true)
    (htarget : catalog.comodel c field = .ok target) : EachCondition catalog P d target :=
  h.inner hoperand hop (Catalog.target?_of_comodel hfield hid hrelational htarget)

theorem cons {k : Connective} {d : Domain} {ds : List Domain} {mark : Option Mark}
    (h : EachCondition catalog P (.nary k (d :: ds) mark) entity) :
    EachCondition catalog P d entity ∧ EachCondition catalog P (.nary k ds mark) entity := by
  cases h with
  | nary h => exact ⟨h d (mem_cons_self ..), .nary fun e he => h e (mem_cons_of_mem _ he)⟩

end EachCondition

variable {dialect : Dialect} {catalog : Catalog} {entity : Entity} {d : Domain}

theorem Settled.eachCondition {level : Level} (h : Settled catalog level d entity) :
    EachCondition catalog (fun c e => c.Kept catalog level e) d entity := by
  induction h with
  | constant v entity => exact .constant v entity
  | negation _ _ ih => exact .negation ih
  | nary _ _ ih => exact .nary ih
  | condition hkept _ ih => exact .condition hkept ih

theorem failsOnly_domains {E : Error → Prop} {children : List Domain} {row : String}
    (h : ∀ d ∈ children, Lowering.FailsOnly E (Lowering.domain dialect catalog d entity row)) :
    Lowering.FailsOnly E (Lowering.domains dialect catalog children entity row) := by
  induction children with
  | nil => exact .pure _
  | cons d ds ih =>
    rw [Lowering.domains]
    exact .bind (h d (mem_cons_self ..)) fun _ =>
      .bind (ih fun e he => h e (mem_cons_of_mem _ he)) fun _ => .pure _

/-- Lowering what is settled for SQL fails only at one of its parts that has none. -/
theorem Settled.failsOnly (h : Settled catalog .sql d entity) (hhooks : catalog.SqlHookless)
    (hentity : catalog.entity? entity.name = some entity) (row : String) :
    Lowering.FailsOnly (Obstructs catalog d entity)
      (Lowering.domain dialect catalog d entity row) := by
  induction h generalizing row with
  | constant v entity => exact .pure _
  | negation _ _ ih =>
    rw [Lowering.domain]
    exact .bind (fun n e he => .negation (ih hentity row n e he)) fun _ => .pure _
  | nary _ _ ih =>
    rw [Lowering.domain]
    refine .bind (failsOnly_domains fun d hd n e he => ?_) fun _ => .pure _
    exact .child hd (ih d hd hentity row n e he)
  | @condition c entity hkept _ ih =>
    obtain ⟨field, hfield, -⟩ := hkept.resolved
    have hnormal := hkept.isNormal hfield
    have hready := hkept.sqlReady hfield
    rw [Lowering.domain_condition, Lowering.condition]
    refine .lift_bind (Entity.conditionField_eq_ok.2 hfield) ?_
    rw [hhooks.of_field? hentity hfield]
    dsimp only
    split
    · rename_i hop
      obtain ⟨target, htarget⟩ := hkept.related hop
      refine Lowering.failsOnly_traversal hfield htarget ?_ (.noInverse hop hfield)
        fun htype hnone => .ownRelation hop hfield htype hnone htarget
      obtain ⟨query, hquery⟩ | ⟨inner, hinner, -, -⟩ := hnormal.traversal hop
      · rw [hquery]
        exact Lowering.failsOnly_query hquery (.query hop hquery)
      · rw [hinner]
        refine Lowering.failsOnly_inner fun row n e he => .inner hop hinner htarget ?_
        exact ih inner target hinner hop htarget (Catalog.entity?_target? hentity htarget) row n e he
    · rename_i hop
      rw [Bool.not_eq_true] at hop
      exact .lift fun e he => absurd he (Lowering.comparison_ne_error hnormal hready hop _ _ e)

end Domain

theorem OptimizedDomain.result_toStatement {r : OptimizedDomain} {catalog : Catalog}
    {dialect : Dialect} {row : Option String} {entity : Entity}
    (hlevel : Level.sql.le r.level = true) (hentity : catalog.entity? r.entity = some entity) :
    (r.toStatement catalog dialect row).result =
      r.domain.toStatement dialect catalog entity (row.getD entity.table) := by
  have hfound : catalog.entity r.entity = .ok entity := by rw [Catalog.entity, hentity]
  unfold toStatement
  simp only [Run.result_bind, Run.result_liftM, requireLevel, hlevel, if_true, hfound, Except.bind,
    Run.result_report, Run.result_pure]
  cases r.domain.toStatement dialect catalog entity (row.getD entity.table) <;> rfl

theorem Domain.toStatement_eq_ok {d : Domain} {dialect : Dialect} {catalog : Catalog}
    {entity : Entity} {row : String} {statement : Statement} :
    d.toStatement dialect catalog entity row = .ok statement ↔
      ∃ p, (∃ used, (Lowering.domain dialect catalog d entity row).run 0 = .ok (p, used)) ∧
        statement = .ofPieces dialect (p.pieces dialect) := by
  unfold toStatement
  rw [Except.bind_eq_ok]
  constructor
  · rintro ⟨⟨p, used⟩, hp, h⟩
    cases h
    exact ⟨p, ⟨used, hp⟩, rfl⟩
  · rintro ⟨p, ⟨used, hp⟩, rfl⟩
    exact ⟨(p, used), hp, rfl⟩

namespace Optimizer

variable {catalog : Catalog} {entity : Entity}

/-- What optimizing for SQL accepts has SQL in every dialect and under every alias, unless one of
its parts has none: a query with another number of parameters than of markers, a one2many without an
inverse, or a many2many of a table to itself that declares no link table. -/
theorem toStatement_of_optimize {depth : Nat} {d : Domain} {r : OptimizedDomain}
    (hhooks : catalog.Hookless) (hsql : catalog.SqlHookless)
    (hentity : catalog.entity? entity.name = some entity) (hd : d.unmarked = d)
    (h : (standard.optimizeWithin depth catalog .sql entity d).result = .ok r)
    (dialect : Dialect) (row : Option String) :
    (∃ statement, (r.toStatement catalog dialect row).result = .ok statement) ∨
      ∃ e, (r.toStatement catalog dialect row).result = .error e ∧
        Domain.Obstructs catalog r.domain entity e := by
  have hmarks : d.EachMark (Vouched catalog) := hd ▸ Domain.eachMark_mapValues id d
  obtain ⟨hnode, hname, hlevel⟩ := optimizeWithin_eq_ok.1 h
  have hsettled := (node_settled hhooks.hooksCarry hentity hmarks hnode).2
  rw [OptimizedDomain.result_toStatement (by rw [hlevel]; rfl) (hname ▸ hentity)]
  unfold Domain.toStatement
  cases hrun : (Lowering.domain dialect catalog r.domain entity (row.getD entity.table)).run 0 with
  | ok lowered => exact .inl ⟨_, rfl⟩
  | error e => exact .inr ⟨e, rfl, hsettled.failsOnly hsql hentity _ 0 e hrun⟩

/-- A membership of related records is accepted, and lowering it says that the relation has no
inverse. -/
theorem toStatement_of_optimize_noInverse :
    let item : Entity := { name := "i", fields :=
      [{ name := "l", type := .one2many, comodel := some "i" }] }
    let catalog : Catalog := { entities := [item] }
    let d : Domain := .leaf "l" .equal (.scalar (.int 1))
    ∃ r, (standard.optimizeWithin 4 catalog .sql item d).result = .ok r ∧
      ∃ e, (r.toStatement catalog .postgres none).result = .error e ∧
        Domain.Obstructs catalog r.domain item e := by
  intro item catalog d
  have hrun : ∃ r, (standard.optimizeWithin 4 catalog .sql item d).result = .ok r ∧
      ∃ e, (r.toStatement catalog .postgres none).result = .error e := by
    refine ⟨⟨.condition ⟨"l", .any, .domain (.leaf "id" .mem (.set ⟨[.int 1]⟩)),
      some ⟨"i", .sql⟩⟩, "i", .sql⟩, ?_, _, rfl⟩
    cbv
  obtain ⟨r, hr, e, herror⟩ := hrun
  have hhooks : catalog.Hookless ∧ catalog.SqlHookless := by
    constructor <;>
    · intro entity hentity field hfield
      obtain rfl := mem_singleton.1 hentity
      obtain rfl := mem_singleton.1 hfield
      rfl
  refine ⟨r, hr, ?_⟩
  obtain ⟨statement, hstatement⟩ | h :=
    toStatement_of_optimize hhooks.1 hhooks.2 rfl rfl hr .postgres none
  · rw [herror] at hstatement
    cases hstatement
  · exact h

end Optimizer

end QueryDomain
