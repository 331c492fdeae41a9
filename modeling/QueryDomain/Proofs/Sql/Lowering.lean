import QueryDomain.Proofs.Schema.Paths
import QueryDomain.Proofs.Records.Truth
import QueryDomain.Proofs.Sql.Semantics

/-! What lowering writes for a condition, and the aliases that it gives. Every sub-select takes the
next number, so no two of them have one alias. -/
namespace QueryDomain

def Catalog.SqlHookless (catalog : Catalog) : Prop :=
  ∀ entity ∈ catalog.entities, ∀ field ∈ entity.fields, field.sqlHook = none

theorem Entity.sqlHook_of_field? {entity : Entity} {name : String} {field : Field}
    (h : ∀ field ∈ entity.fields, field.sqlHook = none) (hfield : entity.field? name = some field) :
    field.sqlHook = none := by
  obtain hmem | rfl := mem_or_eq_of_field? hfield
  · exact h field hmem
  · rfl

theorem Catalog.SqlHookless.of_field? {catalog : Catalog} (h : catalog.SqlHookless) {entity : Entity}
    (hentity : catalog.entity? entity.name = some entity) {name : String} {field : Field}
    (hfield : entity.field? name = some field) : field.sqlHook = none :=
  Entity.sqlHook_of_field? (h entity (List.mem_of_find?_eq_some hentity)) hfield

theorem Catalog.SqlHookless.of_comodel {catalog : Catalog} (h : catalog.SqlHookless)
    {c : Condition} {field : Field} {target : Entity} (htarget : catalog.comodel c field = .ok target) :
    ∀ field ∈ target.fields, field.sqlHook = none :=
  h target (List.mem_of_find?_eq_some (entity?_of_comodel htarget))

namespace Lowering

variable {α β : Type} {n m : Nat}

theorem run_bind_eq_ok {x : Lowering α} {f : α → Lowering β} {b : β} :
    (x >>= f).run n = .ok (b, m) ↔ ∃ a k, x.run n = .ok (a, k) ∧ (f a).run k = .ok (b, m) := by
  rw [StateT.run_bind, Except.bind_eq_ok]
  constructor
  · rintro ⟨⟨a, k⟩, hx, hf⟩
    exact ⟨a, k, hx, hf⟩
  · rintro ⟨a, k, hx, hf⟩
    exact ⟨(a, k), hx, hf⟩

theorem run_pure_eq_ok {a b : α} :
    (pure a : Lowering α).run n = .ok (b, m) ↔ b = a ∧ m = n := by
  rw [StateT.run_pure]
  simp [pure, Except.pure, eq_comm]

theorem run_liftM_eq_ok {x : Except Error α} {a : α} :
    (liftM x : Lowering α).run n = .ok (a, m) ↔ x = .ok a ∧ m = n := by
  cases x with
  | error e => simp [liftM, monadLift, MonadLift.monadLift, StateT.lift, StateT.run, bind, Except.bind]
  | ok b => simp [liftM, monadLift, MonadLift.monadLift, StateT.lift, StateT.run, bind, Except.bind,
      pure, Except.pure, eq_comm]

theorem run_throw_ne_ok {e : Error} {a : α} : (throw e : Lowering α).run n ≠ .ok (a, m) := by
  intro h
  cases h

theorem run_nextAlias_eq_ok {table name : String} :
    (nextAlias table).run n = .ok (name, m) ↔ name = aliasOf table (n + 1) ∧ m = n + 1 := by
  constructor
  · intro h
    cases h
    exact ⟨rfl, rfl⟩
  · rintro ⟨rfl, rfl⟩
    rfl

variable {dialect : Dialect} {catalog : Catalog} {entity : Entity} {c : Condition} {row : String}
  {p : Predicate}

def relationOf (c : Condition) (field : Field) (entity target : Entity) : Except Error Relation :=
  match field.relation with
  | some relation => .ok relation
  | none => Relation.default c entity target

theorem run_selection_eq_ok {lower : Entity → String → Lowering Predicate} {target : Entity}
    {query : Query} :
    (selection c (some lower) target).run n = .ok (query, m) ↔
      ∃ test, (lower target (aliasOf target.table (n + 1))).run (n + 1) = .ok (test, m) ∧
        query = .select target.table (aliasOf target.table (n + 1)) test := by
  unfold selection
  simp only [run_bind_eq_ok, run_nextAlias_eq_ok, run_pure_eq_ok]
  constructor
  · rintro ⟨_, _, ⟨rfl, rfl⟩, test, k, htest, rfl, rfl⟩
    exact ⟨test, htest, rfl⟩
  · rintro ⟨test, htest, rfl⟩
    exact ⟨_, _, ⟨rfl, rfl⟩, test, m, htest, rfl, rfl⟩

theorem run_selection_none {target : Entity} {query : Query}
    (h : (selection c none target).run n = .ok (query, m)) :
    ∃ written, c.operand = .query written ∧ query = .verbatim written ∧ m = n := by
  unfold selection at h
  cases hoperand : c.operand with
  | query written =>
    simp only [hoperand, run_bind_eq_ok, run_liftM_eq_ok, run_pure_eq_ok] at h
    obtain ⟨_, _, ⟨-, rfl⟩, rfl, rfl⟩ := h
    exact ⟨written, rfl, rfl, rfl⟩
  | _ =>
    simp only [hoperand] at h
    exact absurd h run_throw_ne_ok

theorem run_filter_none {target : Entity} (h : (filter c none target row).run n = .ok (p, m)) :
    ∃ written, c.operand = .query written ∧
      p = .inQuery (.qualified row Entity.idName) false (.verbatim written) ∧ m = n := by
  unfold filter at h
  cases hoperand : c.operand with
  | query written =>
    simp only [hoperand, run_bind_eq_ok, run_liftM_eq_ok, run_pure_eq_ok] at h
    obtain ⟨_, _, ⟨-, rfl⟩, rfl, rfl⟩ := h
    exact ⟨written, rfl, rfl, rfl⟩
  | _ =>
    simp only [hoperand] at h
    exact absurd h run_throw_ne_ok

/-- What a traversal becomes, by the kind of the relation. -/
inductive Traverses (catalog : Catalog) (c : Condition) (inner : Inner) (field : Field)
    (entity : Entity) (row : String) (n m : Nat) : Predicate → Prop
  | itself {query} : field.name = Entity.idName →
      (selection c inner entity).run n = .ok (query, m) →
      Traverses catalog c inner field entity row n m
        (.inQuery (.qualified row Entity.idName) (c.operator == .notAny) query)
  | many2one {target query} : field.name ≠ Entity.idName →
      catalog.comodel c field = .ok target → field.type = .many2one →
      (selection c inner target).run n = .ok (query, m) →
      Traverses catalog c inner field entity row n m
        (let column := .qualified row field.columnName
        let test := .inQuery column (c.operator == .notAny) query
        if c.operator == .notAny then .group .or [.null column false, test] else test)
  | one2many {target inverse test} : field.name ≠ Entity.idName →
      catalog.comodel c field = .ok target → field.type = .one2many →
      field.inverseName = some inverse →
      (filter c inner target (aliasOf target.table (n + 1))).run (n + 1) = .ok (test, m) →
      Traverses catalog c inner field entity row n m
        (.linked (c.operator == .notAny) target.table (aliasOf target.table (n + 1))
          (.qualified (aliasOf target.table (n + 1))
            (((target.field? inverse).map (·.columnName)).getD inverse))
          (.qualified row Entity.idName) test)
  | many2many {target relation query} : field.name ≠ Entity.idName →
      catalog.comodel c field = .ok target → field.type = .many2many →
      relationOf c field entity target = .ok relation →
      (selection c inner target).run (n + 1) = .ok (query, m) →
      Traverses catalog c inner field entity row n m
        (.linked (c.operator == .notAny) relation.table (aliasOf relation.table (n + 1))
          (.qualified (aliasOf relation.table (n + 1)) relation.column1)
          (.qualified row Entity.idName)
          (.inQuery (.qualified (aliasOf relation.table (n + 1)) relation.column2) false query))

theorem traverses {inner : Inner} {field : Field}
    (h : (traversal catalog c inner field entity row).run n = .ok (p, m)) :
    Traverses catalog c inner field entity row n m p := by
  unfold traversal at h
  dsimp only at h
  split at h
  · rename_i hid
    simp only [run_bind_eq_ok, run_pure_eq_ok] at h
    obtain ⟨query, _, hquery, rfl, rfl⟩ := h
    exact .itself hid hquery
  · rename_i hid
    simp only [run_bind_eq_ok, run_liftM_eq_ok] at h
    obtain ⟨target, _, ⟨htarget, rfl⟩, h⟩ := h
    split at h
    · rename_i htype
      simp only [run_bind_eq_ok, run_pure_eq_ok] at h
      obtain ⟨query, _, hquery, rfl, rfl⟩ := h
      exact .many2one hid htarget htype hquery
    · rename_i htype
      cases hinverse : field.inverseName with
      | none =>
        simp only [hinverse] at h
        exact absurd h run_throw_ne_ok
      | some inverse =>
        simp only [hinverse, run_bind_eq_ok, run_nextAlias_eq_ok, run_pure_eq_ok] at h
        obtain ⟨_, _, ⟨rfl, rfl⟩, test, _, htest, rfl, rfl⟩ := h
        exact .one2many hid htarget htype hinverse htest
    · rename_i htype
      cases hdeclared : field.relation with
      | some relation =>
        simp only [hdeclared, run_bind_eq_ok, run_nextAlias_eq_ok, run_pure_eq_ok] at h
        obtain ⟨_, _, ⟨rfl, rfl⟩, _, _, ⟨rfl, rfl⟩, query, _, hquery, rfl, rfl⟩ := h
        exact .many2many hid htarget htype (by rw [relationOf, hdeclared]) hquery
      | none =>
        simp only [hdeclared, run_bind_eq_ok, run_nextAlias_eq_ok, run_pure_eq_ok,
          run_liftM_eq_ok] at h
        obtain ⟨relation, _, ⟨hrelation, rfl⟩, _, _, ⟨rfl, rfl⟩, query, _, hquery, rfl, rfl⟩ := h
        exact .many2many hid htarget htype (by rw [relationOf, hdeclared, hrelation]) hquery
    · exact absurd h run_throw_ne_ok

theorem Traverses.operand_eq_query {field : Field}
    (h : Traverses catalog c none field entity row n m p) : ∃ query, c.operand = .query query := by
  cases h with
  | itself _ hquery | many2one _ _ _ hquery | many2many _ _ _ _ hquery =>
    obtain ⟨written, hwritten, -⟩ := run_selection_none hquery
    exact ⟨written, hwritten⟩
  | one2many _ _ _ _ htest =>
    obtain ⟨written, hwritten, -⟩ := run_filter_none htest
    exact ⟨written, hwritten⟩

inductive Tests (column : ColumnRef) : Predicate → Prop
  | constant (value : Bool) : Tests column (.constant value)
  | null (negated : Bool) : Tests column (.null column negated)
  | compare (relation : Comparison) (value : Value) : Tests column (.compare column relation value)
  | inList (negated : Bool) (values : List Value) : Tests column (.inList column negated values)
  | like (cast caseless negated : Bool) (pattern : String) :
      Tests column (.like column cast caseless negated pattern)
  | group {k p q} : Tests column p → Tests column q → Tests column (.group k [p, q])

theorem tests_membership (column : ColumnRef) (values : ValueSet) (negated : Bool) :
    Tests column (membership column values negated) := by
  unfold membership
  dsimp only
  split
  · split
    · exact .null _
    · exact .constant _
  · rename_i list hlist
    have hlist : Tests column list := by
      split at hlist <;> cases hlist
      · exact .compare _ _
      · exact .inList _ _
    split
    · exact .group hlist (.null _)
    · split
      · exact .group hlist (.null _)
      · exact hlist

theorem tests_comparison {column : ColumnRef} {textual : Bool}
    (h : comparison c column textual = .ok p) : Tests column p := by
  unfold comparison at h
  split at h
  · split at h
    · cases h
      exact tests_membership _ _ _
    · cases h
  · split at h
    · unfold patternMatch at h
      split at h
      · cases h
      · cases h
        split
        · exact .group (.like ..) (.null _)
        · exact .like ..
    · split at h
      · cases h
        split
        · exact .null _
        · exact .compare _ _
      · cases h
        split
        · exact .null _
        · exact .group (.compare _ _) (.null _)
      all_goals cases h
      all_goals exact .compare _ _
  · cases h

theorem domain_condition (c : Condition) : domain dialect catalog (.condition c) entity row =
    condition dialect catalog c (c.operand.inner?.map (domain dialect catalog)) entity row := by
  obtain ⟨path, operator, operand, mark⟩ := c
  cases operand <;> rw [domain] <;> first
    | rfl
    | nofun

theorem run_condition_eq_ok {inner : Inner}
    (hhooks : ∀ field, entity.field? (Text.cut '.' c.path).1 = some field → field.sqlHook = none)
    (h : (condition dialect catalog c inner entity row).run n = .ok (p, m)) :
    ∃ field, entity.field? (Text.cut '.' c.path).1 = some field ∧
      if c.operator.isTraversal then (traversal catalog c inner field entity row).run n = .ok (p, m)
      else comparison c (columnOf c field row)
        (field.type.isTextual || isPath (columnOf c field row)) = .ok p ∧ m = n := by
  unfold condition at h
  simp only [run_bind_eq_ok, run_liftM_eq_ok, Entity.conditionField_eq_ok] at h
  obtain ⟨field, _, ⟨hfield, rfl⟩, h⟩ := h
  refine ⟨field, hfield, ?_⟩
  rw [hhooks field hfield] at h
  dsimp only at h
  split at h
  · rwa [if_pos ‹_›]
  · rw [if_neg ‹_›]
    exact run_liftM_eq_ok.1 h

/-- What lowering makes of a domain where no field writes its own SQL: on the rows called `row`, with
`n` aliases in use before it and `m` after it, the domain becomes the predicate. -/
inductive Lowers (catalog : Catalog) : Domain → Entity → String → Nat → Nat → Predicate → Prop
  | constant {v entity row n} : Lowers catalog (.constant v) entity row n n (.constant v)
  | negation {inner entity row n m p} : Lowers catalog inner entity row n m p →
      Lowers catalog (.negation inner) entity row n m (.notTrue p)
  | empty {k mark entity row n} : Lowers catalog (.nary k [] mark) entity row n n (.group k [])
  | child {k d ds mark entity row n i m p ps} : Lowers catalog d entity row n i p →
      Lowers catalog (.nary k ds mark) entity row i m (.group k ps) →
      Lowers catalog (.nary k (d :: ds) mark) entity row n m (.group k (p :: ps))
  | test {c field entity row n p} : entity.field? c.head = some field →
      c.operator.isTraversal = false →
      comparison c (columnOf c field row) (field.type.isTextual || isPath (columnOf c field row)) =
        .ok p →
      Lowers catalog (.condition c) entity row n n p
  | itself {c field inner entity row n m p} : entity.field? c.head = some field →
      c.operator.isTraversal = true → c.operand = .domain inner → field.name = Entity.idName →
      Lowers catalog inner entity (aliasOf entity.table (n + 1)) (n + 1) m p →
      Lowers catalog (.condition c) entity row n m
        (.inQuery (.qualified row Entity.idName) (c.operator == .notAny)
          (.select entity.table (aliasOf entity.table (n + 1)) p))
  | many2one {c field inner target entity row n m p} : entity.field? c.head = some field →
      c.operator.isTraversal = true → c.operand = .domain inner → field.name ≠ Entity.idName →
      catalog.comodel c field = .ok target → field.type = .many2one →
      Lowers catalog inner target (aliasOf target.table (n + 1)) (n + 1) m p →
      Lowers catalog (.condition c) entity row n m
        (let column := .qualified row field.columnName
        let test := .inQuery column (c.operator == .notAny)
          (.select target.table (aliasOf target.table (n + 1)) p)
        if c.operator == .notAny then .group .or [.null column false, test] else test)
  | one2many {c field inner target inverse entity row n m p} : entity.field? c.head = some field →
      c.operator.isTraversal = true → c.operand = .domain inner → field.name ≠ Entity.idName →
      catalog.comodel c field = .ok target → field.type = .one2many →
      field.inverseName = some inverse →
      Lowers catalog inner target (aliasOf target.table (n + 1)) (n + 1) m p →
      Lowers catalog (.condition c) entity row n m
        (.linked (c.operator == .notAny) target.table (aliasOf target.table (n + 1))
          (.qualified (aliasOf target.table (n + 1))
            (((target.field? inverse).map (·.columnName)).getD inverse))
          (.qualified row Entity.idName) p)
  | many2many {c field inner target relation entity row n m p} :
      entity.field? c.head = some field → c.operator.isTraversal = true →
      c.operand = .domain inner → field.name ≠ Entity.idName →
      catalog.comodel c field = .ok target → field.type = .many2many →
      relationOf c field entity target = .ok relation →
      Lowers catalog inner target (aliasOf target.table (n + 2)) (n + 2) m p →
      Lowers catalog (.condition c) entity row n m
        (.linked (c.operator == .notAny) relation.table (aliasOf relation.table (n + 1))
          (.qualified (aliasOf relation.table (n + 1)) relation.column1)
          (.qualified row Entity.idName)
          (.inQuery (.qualified (aliasOf relation.table (n + 1)) relation.column2) false
            (.select target.table (aliasOf target.table (n + 2)) p)))
  /-- A traversal to what a query written by hand selects. -/
  | written {c field entity row n m p} : entity.field? c.head = some field →
      c.operator.isTraversal = true → Traverses catalog c none field entity row n m p →
      Lowers catalog (.condition c) entity row n m p

theorem Lowers.of_traverses {field : Field} {inner : Domain} (hhooks : catalog.SqlHookless)
    (hfield : entity.field? c.head = some field) (hop : c.operator.isTraversal = true)
    (hoperand : c.operand = .domain inner)
    (hentity : ∀ field ∈ entity.fields, field.sqlHook = none)
    (ih : ∀ {target row n m p}, (∀ field ∈ target.fields, field.sqlHook = none) →
      (domain dialect catalog inner target row).run n = .ok (p, m) →
      Lowers catalog inner target row n m p)
    (h : Traverses catalog c (some (domain dialect catalog inner)) field entity row n m p) :
    Lowers catalog (.condition c) entity row n m p := by
  cases h with
  | itself hid hquery =>
    obtain ⟨test, htest, rfl⟩ := run_selection_eq_ok.1 hquery
    exact .itself hfield hop hoperand hid (ih hentity htest)
  | many2one hid htarget htype hquery =>
    obtain ⟨test, htest, rfl⟩ := run_selection_eq_ok.1 hquery
    exact .many2one hfield hop hoperand hid htarget htype (ih (hhooks.of_comodel htarget) htest)
  | one2many hid htarget htype hinverse htest =>
    exact .one2many hfield hop hoperand hid htarget htype hinverse
      (ih (hhooks.of_comodel htarget) htest)
  | many2many hid htarget htype hrelation hquery =>
    obtain ⟨test, htest, rfl⟩ := run_selection_eq_ok.1 hquery
    exact .many2many hfield hop hoperand hid htarget htype hrelation
      (ih (hhooks.of_comodel htarget) htest)

/-- Lowering that succeeds, read off once. The entity need not be one of the catalog. -/
theorem lowers_of_hookless (hhooks : catalog.SqlHookless) {d : Domain}
    (hentity : ∀ field ∈ entity.fields, field.sqlHook = none)
    (h : (domain dialect catalog d entity row).run n = .ok (p, m)) :
    Lowers catalog d entity row n m p := by
  induction d using Domain.induct generalizing entity row n m p with
  | constant v =>
    obtain ⟨rfl, rfl⟩ := run_pure_eq_ok.1 h
    exact .constant
  | negation inner ih =>
    simp only [domain, run_bind_eq_ok, run_pure_eq_ok] at h
    obtain ⟨p, _, hp, rfl, rfl⟩ := h
    exact .negation (ih hentity hp)
  | nary k children mark ih =>
    simp only [domain, run_bind_eq_ok, run_pure_eq_ok] at h
    obtain ⟨ps, _, hps, rfl, rfl⟩ := h
    induction children generalizing n ps with
    | nil =>
      obtain ⟨rfl, rfl⟩ := run_pure_eq_ok.1 hps
      exact .empty
    | cons d ds ihds =>
      simp only [domains, run_bind_eq_ok, run_pure_eq_ok] at hps
      obtain ⟨p, i, hp, ps, _, hps, rfl, rfl⟩ := hps
      exact .child (ih d (List.mem_cons_self ..) hentity hp)
        (ihds (fun e he => ih e (List.mem_cons_of_mem _ he)) ps hps)
  | condition c ih =>
    rw [domain_condition] at h
    obtain ⟨field, hfield, h⟩ :=
      run_condition_eq_ok (fun field hfield => Entity.sqlHook_of_field? hentity hfield) h
    split at h
    · rename_i hop
      have htraverses := traverses h
      cases hoperand : c.operand with
      | domain inner =>
        rw [hoperand] at htraverses
        exact .of_traverses hhooks hfield hop hoperand hentity (ih inner hoperand) htraverses
      | _ =>
        rw [hoperand] at htraverses
        exact .written hfield hop htraverses
    · rename_i hop
      obtain ⟨hp, rfl⟩ := h
      exact .test hfield (by simpa using hop) hp

theorem lowers_of_run (hhooks : catalog.SqlHookless) {d : Domain}
    (hentity : catalog.entity? entity.name = some entity)
    (h : (domain dialect catalog d entity row).run n = .ok (p, m)) :
    Lowers catalog d entity row n m p :=
  lowers_of_hookless hhooks (hhooks entity (List.mem_of_find?_eq_some hentity)) h

theorem number_of_aliasOf (table : String) (number : Nat) :
    Nat.ofDigitChars 10
      (((aliasOf table number).toList.reverse.takeWhile (· != '_')).reverse) 0 = number := by
  have hdigits : ∀ c ∈ (Nat.toDigits 10 number).reverse, (c != '_') = true := by
    intro c hc
    rw [bne_iff_ne]
    rintro rfl
    exact Nat.underscore_not_in_toDigits (List.mem_reverse.1 hc)
  have htext : (aliasOf table number).toList.reverse =
      (Nat.toDigits 10 number).reverse ++ ('_' :: '_' :: table.toList.reverse) := by
    simp [aliasOf, String.toList_append]
  rw [htext, List.takeWhile_append_of_pos hdigits]
  simp [Nat.ofDigitChars_ten_toDigits]

theorem aliasOf_ne {table table' : String} {number number' : Nat} (h : number ≠ number') :
    aliasOf table number ≠ aliasOf table' number' := by
  intro heq
  refine h ?_
  rw [← number_of_aliasOf table number, heq, number_of_aliasOf]

def AreNew (n : Nat) (names : List String) : Prop :=
  ∀ name ∈ names, ∃ table, ∃ number > n, name = aliasOf table number

theorem AreNew.nil (n : Nat) : AreNew n [] := nofun

theorem AreNew.cons {names : List String} (h : AreNew (n + 1) names) (table : String) :
    AreNew n (aliasOf table (n + 1) :: names) := by
  refine List.forall_mem_cons.2 ⟨⟨table, n + 1, Nat.lt_succ_self n, rfl⟩, fun name hname => ?_⟩
  obtain ⟨table, number, hnumber, rfl⟩ := h name hname
  exact ⟨table, number, by omega, rfl⟩

theorem AreNew.not_mem {names : List String} (h : AreNew n names) (table : String) :
    aliasOf table n ∉ names := by
  intro hmem
  obtain ⟨table', number, hnumber, heq⟩ := h _ hmem
  exact aliasOf_ne (by omega) heq

theorem Tests.aliases_eq_nil {column : ColumnRef} (h : Tests column p) : p.aliases = [] := by
  induction h with
  | constant | null | compare | inList | like => rfl
  | group _ _ ihp ihq => simp [Predicate.aliases, Predicate.partAliases, ihp, ihq]

theorem aliases_many2one (column : ColumnRef) (negated : Bool) (query : Query) :
    (if negated then .group .or [.null column false, .inQuery column negated query]
      else .inQuery column negated query : Predicate).aliases = Predicate.queryAliases query := by
  split <;> simp [Predicate.aliases, Predicate.partAliases]

/-- The aliases of rows of tables, with the numbers that follow `n`. -/
def numbered (n : Nat) : List String → List String
  | [] => []
  | table :: tables => aliasOf table (n + 1) :: numbered (n + 1) tables

theorem numbered_append (n : Nat) (tables others : List String) :
    numbered n (tables ++ others) = numbered n tables ++ numbered (n + tables.length) others := by
  induction tables generalizing n with
  | nil => rfl
  | cons table tables ih =>
    have hlength : n + (table :: tables).length = n + 1 + tables.length := by
      rw [List.length_cons]
      omega
    rw [hlength, List.cons_append, numbered, ih, numbered, List.cons_append]

theorem areNew_numbered (n : Nat) (tables : List String) : AreNew n (numbered n tables) := by
  induction tables generalizing n with
  | nil => exact .nil n
  | cons table tables ih => exact (ih (n + 1)).cons table

/-- Every sub-select takes the next number, in the order in which they are written. -/
theorem Lowers.aliases_eq {d : Domain} (h : Lowers catalog d entity row n m p) :
    ∃ tables, p.aliases = numbered n tables ∧ m = n + tables.length := by
  induction h with
  | constant | empty => exact ⟨[], rfl, rfl⟩
  | negation _ ih => exact ih
  | child _ _ ih ihs =>
    obtain ⟨tables, htables, rfl⟩ := ih
    obtain ⟨others, hothers, rfl⟩ := ihs
    refine ⟨tables ++ others, ?_, by rw [List.length_append]; omega⟩
    rw [numbered_append, ← htables, ← hothers]
    rfl
  | test _ _ hp => exact ⟨[], (tests_comparison hp).aliases_eq_nil, rfl⟩
  | itself _ _ _ _ _ ih =>
    obtain ⟨tables, htables, rfl⟩ := ih
    exact ⟨_ :: tables, congrArg (_ :: ·) htables, by rw [List.length_cons]; omega⟩
  | many2one _ _ _ _ _ _ _ ih =>
    obtain ⟨tables, htables, rfl⟩ := ih
    exact ⟨_ :: tables, (aliases_many2one ..).trans (congrArg (_ :: ·) htables),
      by rw [List.length_cons]; omega⟩
  | one2many _ _ _ _ _ _ _ _ ih =>
    obtain ⟨tables, htables, rfl⟩ := ih
    exact ⟨_ :: tables, congrArg (_ :: ·) htables, by rw [List.length_cons]; omega⟩
  | many2many _ _ _ _ _ _ _ _ ih =>
    obtain ⟨tables, htables, rfl⟩ := ih
    exact ⟨_ :: _ :: tables, congrArg (_ :: _ :: ·) htables,
      by rw [List.length_cons, List.length_cons]; omega⟩
  | written _ _ htraverses =>
    cases htraverses with
    | itself _ hquery =>
      obtain ⟨_, -, rfl, rfl⟩ := run_selection_none hquery
      exact ⟨[], rfl, rfl⟩
    | many2one _ _ _ hquery =>
      obtain ⟨_, -, rfl, rfl⟩ := run_selection_none hquery
      exact ⟨[], aliases_many2one .., rfl⟩
    | one2many _ _ _ _ htest =>
      obtain ⟨_, -, rfl, rfl⟩ := run_filter_none htest
      exact ⟨[_], rfl, rfl⟩
    | many2many _ _ _ _ hquery =>
      obtain ⟨_, -, rfl, rfl⟩ := run_selection_none hquery
      exact ⟨[_], rfl, rfl⟩

theorem Lowers.le {d : Domain} (h : Lowers catalog d entity row n m p) : n ≤ m := by
  obtain ⟨tables, -, rfl⟩ := h.aliases_eq
  exact Nat.le_add_right n _

theorem Lowers.areNew {d : Domain} (h : Lowers catalog d entity row n m p) :
    AreNew n p.aliases := by
  obtain ⟨tables, htables, -⟩ := h.aliases_eq
  rw [htables]
  exact areNew_numbered n tables

end Lowering

end QueryDomain
