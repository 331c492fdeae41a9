import QueryDomain.Proofs.Sql.Lowering

/-! The aliases of a statement. Sub-selects are numbered in the order in which they are written, so
no two of them have one alias whatever their tables are called; and every column is read from the
rows that the statement is about or from those of a sub-select around it. -/
namespace QueryDomain

open List

def ColumnRef.Scoped (scope : List String) : ColumnRef → Prop
  | .column ⟨some row, _⟩ | .jsonPath ⟨some row, _⟩ _ => row ∈ scope
  | .column ⟨none, _⟩ | .jsonPath ⟨none, _⟩ _ => False

namespace Predicate

mutual

/-- Every column is qualified by one of the aliases or by that of a sub-select around it. -/
def Scoped (scope : List String) : Predicate → Prop
  | constant _ => True
  | notTrue inner => Scoped scope inner
  | group _ parts => AllScoped scope parts
  | null column _ | compare column _ _ | inList column _ _ | like column _ _ _ _ =>
    column.Scoped scope
  | inQuery column _ query => column.Scoped scope ∧ SelectsScoped scope query
  | linked _ _ row link owner filter =>
    link.Scoped (row :: scope) ∧ owner.Scoped (row :: scope) ∧ Scoped (row :: scope) filter
  | custom _ => False

def AllScoped (scope : List String) : List Predicate → Prop
  | [] => True
  | part :: parts => Scoped scope part ∧ AllScoped scope parts

def SelectsScoped (scope : List String) : Query → Prop
  | .select _ row filter =>
    (ColumnRef.qualified row Entity.idName).Scoped (row :: scope) ∧ Scoped (row :: scope) filter
  | .verbatim _ => True

end

end Predicate

namespace Lowering

variable {catalog : Catalog} {entity : Entity} {c : Condition} {column : ColumnRef}
  {row : String} {n m : Nat} {p : Predicate} {scope : List String}

/-- The name is some text, two underscores and decimal digits, as aliases are. -/
def IsNumbered (name : String) : Prop :=
  ∃ text digits : String, name = text ++ "__" ++ digits ∧ digits ≠ "" ∧
    ∀ c ∈ digits.toList, c.isDigit = true

theorem isNumbered_aliasOf (table : String) (number : Nat) : IsNumbered (aliasOf table number) := by
  refine ⟨table, toString number, rfl, ?_, ?_⟩
  · intro hempty
    have hdigits : (toString number).toList = [] := by rw [hempty]; rfl
    simp at hdigits
  · intro c hc
    have hdigit : c ∈ Nat.toDigits 10 number := by simpa using hc
    exact Nat.isDigit_of_mem_toDigits (by decide) (by decide) hdigit

theorem nodup_numbered (n : Nat) (tables : List String) : (numbered n tables).Nodup := by
  induction tables generalizing n with
  | nil => exact nodup_nil
  | cons table tables ih =>
    exact nodup_cons.2 ⟨(areNew_numbered (n + 1) tables).not_mem table, ih (n + 1)⟩

theorem Lowers.nodup_aliases {d : Domain} (h : Lowers catalog d entity row n m p) :
    p.aliases.Nodup := by
  obtain ⟨tables, htables, -⟩ := h.aliases_eq
  rw [htables]
  exact nodup_numbered n tables

theorem scoped_columnOf (c : Condition) (field : Field) (hrow : row ∈ scope) :
    (columnOf c field row).Scoped scope := by
  unfold columnOf
  split
  · split
    · exact hrow
    · exact hrow
  · exact hrow

theorem Tests.scoped (h : Tests column p) (hcolumn : column.Scoped scope) : p.Scoped scope := by
  induction h with
  | constant => trivial
  | null | compare | inList | like => exact hcolumn
  | group _ _ ihp ihq => exact ⟨ihp, ihq, trivial⟩

theorem scoped_many2one {query : Query} (hrow : row ∈ scope)
    (hquery : Predicate.SelectsScoped scope query) (name : String) (negated : Bool) :
    (let column := .qualified row name
    let test := .inQuery column negated query
    if negated then .group .or [.null column false, test] else test : Predicate).Scoped scope := by
  dsimp only
  split
  · exact ⟨hrow, ⟨hrow, hquery⟩, trivial⟩
  · exact ⟨hrow, hquery⟩

theorem Lowers.scoped {d : Domain} (h : Lowers catalog d entity row n m p) (hrow : row ∈ scope) :
    p.Scoped scope := by
  induction h generalizing scope with
  | constant | empty => trivial
  | negation _ ih => exact ih hrow
  | child _ _ ih ihs => exact ⟨ih hrow, ihs hrow⟩
  | test _ _ hp => exact (tests_comparison hp).scoped (scoped_columnOf _ _ hrow)
  | itself _ _ _ _ _ ih => exact ⟨hrow, mem_cons_self, ih mem_cons_self⟩
  | @many2one _ _ _ target _ _ n _ p _ _ _ _ _ _ _ ih =>
    have hquery : Predicate.SelectsScoped scope
        (.select target.table (aliasOf target.table (n + 1)) p) :=
      ⟨mem_cons_self, ih mem_cons_self⟩
    exact scoped_many2one hrow hquery _ _
  | one2many _ _ _ _ _ _ _ _ ih =>
    exact ⟨mem_cons_self, mem_cons_of_mem _ hrow, ih mem_cons_self⟩
  | many2many _ _ _ _ _ _ _ _ ih =>
    exact ⟨mem_cons_self, mem_cons_of_mem _ hrow, mem_cons_self, mem_cons_self, ih mem_cons_self⟩
  | written _ _ htraverses =>
    cases htraverses with
    | itself _ hquery =>
      obtain ⟨_, -, rfl, -⟩ := run_selection_none hquery
      exact ⟨hrow, trivial⟩
    | many2one _ _ _ hquery =>
      obtain ⟨written, -, rfl, -⟩ := run_selection_none hquery
      have hquery : Predicate.SelectsScoped scope (.verbatim written) := trivial
      exact scoped_many2one hrow hquery _ _
    | one2many _ _ _ _ htest =>
      obtain ⟨_, -, rfl, -⟩ := run_filter_none htest
      exact ⟨mem_cons_self, mem_cons_of_mem _ hrow, mem_cons_self, trivial⟩
    | many2many _ _ _ _ hquery =>
      obtain ⟨_, -, rfl, -⟩ := run_selection_none hquery
      exact ⟨mem_cons_self, mem_cons_of_mem _ hrow, mem_cons_self, trivial⟩

end Lowering

namespace Domain

variable {dialect : Dialect} {catalog : Catalog} {entity : Entity} {row : String} {d : Domain}
  {statement : Statement}

/-- No two sub-selects of a statement have one alias, none has that of the rows themselves unless
that one ends in a number like theirs, and every column is qualified by an alias that reaches it. -/
theorem toStatement_aliases (hcatalog : catalog.SqlHookless)
    (hentity : ∀ field ∈ entity.fields, field.sqlHook = none)
    (h : d.toStatement dialect catalog entity row = .ok statement) :
    ∃ p used, (Lowering.domain dialect catalog d entity row).run 0 = .ok (p, used) ∧
      statement = .ofPieces dialect (p.pieces dialect) ∧ p.aliases.Nodup ∧
      (¬ Lowering.IsNumbered row → row ∉ p.aliases) ∧ p.Scoped [row] := by
  simp only [toStatement, Except.bind_eq_ok] at h
  obtain ⟨⟨p, used⟩, hp, h⟩ := h
  cases h
  have hlowers := Lowering.lowers_of_hookless hcatalog hentity hp
  refine ⟨p, used, hp, rfl, hlowers.nodup_aliases, fun hrow hmem => ?_,
    hlowers.scoped mem_cons_self⟩
  obtain ⟨table, number, -, rfl⟩ := hlowers.areNew row hmem
  exact hrow (Lowering.isNumbered_aliasOf table number)

/-- Two traversals side by side, one of them into links with a traversal inside, where the name of a
table ends in a number itself: four aliases. -/
theorem toStatement_aliases_siblings :
    let entity : Entity := { name := "i", table? := some "i__2", fields :=
      [{ name := "p", type := .many2one, comodel := some "i" },
        { name := "t", type := .many2many, comodel := some "i", relation := some ⟨"i", "a", "b"⟩ }] }
    let catalog : Catalog := { entities := [entity] }
    let up : Domain := .leaf "p" .notAny (.domain (.leaf "id" .less (.scalar (.int 5))))
    let d : Domain := .nary .or [up, .leaf "t" .any (.domain up)] none
    (catalog.SqlHookless ∧ ∀ field ∈ entity.fields, field.sqlHook = none) ∧
    ∃ statement, d.toStatement .postgres catalog entity "i" = .ok statement ∧
      ∃ p used, (Lowering.domain .postgres catalog d entity "i").run 0 = .ok (p, used) ∧
        statement = .ofPieces .postgres (p.pieces .postgres) ∧ p.aliases.Nodup ∧
        "i" ∉ p.aliases ∧ p.Scoped ["i"] := by
  intro entity catalog up d
  have hentity : ∀ field ∈ entity.fields, field.sqlHook = none := by simp [entity]
  have hcatalog : catalog.SqlHookless := by
    intro other hother
    obtain rfl := mem_singleton.1 hother
    exact hentity
  have hrow : ¬ Lowering.IsNumbered "i" := by
    rintro ⟨text, digits, hname, -, -⟩
    have hlength := congrArg String.length hname
    simp only [String.length_append] at hlength
    have htwo : "__".length = 2 := rfl
    have hone : "i".length = 1 := rfl
    omega
  obtain ⟨statement, hstatement⟩ : ∃ statement,
      d.toStatement .postgres catalog entity "i" = .ok statement := by
    simp only [entity, catalog, d, up]
    exact ⟨_, rfl⟩
  obtain ⟨p, used, hp, htext, hnodup, hnew, hscoped⟩ :=
    toStatement_aliases hcatalog hentity hstatement
  exact ⟨⟨hcatalog, hentity⟩, statement, hstatement, p, used, hp, htext, hnodup, hnew hrow, hscoped⟩

end Domain

end QueryDomain
