import QueryDomain.Proofs.Sql.Readiness

/-! The columns that a statement names. Every alias is bound to a table, of an entity or of the links
of a many2many; what is read from its rows has to be a column of that table. -/
namespace QueryDomain

open List

/-- What an alias stands for: the rows of an entity, or the links of a many2many. -/
inductive Source where
  | entity (entity : Entity)
  | link (relation : Relation)

namespace Source

def table : Source → String
  | entity e => e.table
  | link relation => relation.table

/-- The column exists. An entity has its identifier and one column for each stored field that is
neither a relation to many records nor kept outside the table. -/
def Has (column : String) : Source → Prop
  | entity e => column = Entity.idName ∨ ∃ field, e.field? field.name = some field ∧
      field.stored = true ∧ field.type.isX2Many = false ∧ field.attachment = false ∧
      field.columnName = column
  | link relation => column = relation.column1 ∨ column = relation.column2

def IsOf (catalog : Catalog) : Source → Prop
  | entity e => catalog.entity? e.name = some e
  | link relation => ∃ c field entity target, catalog.entity? entity.name = some entity ∧
      entity.field? field.name = some field ∧ field.type = .many2many ∧
      catalog.comodel c field = .ok target ∧ Lowering.relationOf c field entity target = .ok relation

end Source

abbrev Bindings := String → Option Source

/-- Inside a sub-select its alias hides any other use of the name. -/
def Bindings.bind (bindings : Bindings) (name : String) (source : Source) : Bindings :=
  fun other => if other = name then some source else bindings other

@[simp] theorem Bindings.bind_self (bindings : Bindings) (name : String) (source : Source) :
    bindings.bind name source name = some source :=
  if_pos rfl

theorem Bindings.bind_of_ne (bindings : Bindings) {name other : String} (source : Source)
    (h : other ≠ name) : bindings.bind name source other = bindings other :=
  if_neg h

def ColumnRef.Named (bindings : Bindings) : ColumnRef → Prop
  | .column ⟨some row, name⟩ | .jsonPath ⟨some row, name⟩ _ =>
    ∃ source, bindings row = some source ∧ source.Has name
  | .column ⟨none, _⟩ | .jsonPath ⟨none, _⟩ _ => False

namespace Predicate

mutual

/-- Every column that the predicate names exists. Queries written by hand are not looked into. -/
def Named (catalog : Catalog) (bindings : Bindings) : Predicate → Prop
  | constant _ => True
  | notTrue inner => Named catalog bindings inner
  | group _ parts => AllNamed catalog bindings parts
  | null column _ | compare column _ _ | inList column _ _ | like column _ _ _ _ =>
    column.Named bindings
  | inQuery column _ query => column.Named bindings ∧ SelectsNamed catalog bindings query
  | linked _ table row link owner test => ∃ source : Source, source.IsOf catalog ∧
      source.table = table ∧ link.Named (bindings.bind row source) ∧
      owner.Named (bindings.bind row source) ∧ Named catalog (bindings.bind row source) test
  | custom _ => False

def AllNamed (catalog : Catalog) (bindings : Bindings) : List Predicate → Prop
  | [] => True
  | part :: parts => Named catalog bindings part ∧ AllNamed catalog bindings parts

def SelectsNamed (catalog : Catalog) (bindings : Bindings) : Query → Prop
  | .select table row test => ∃ source : Source, source.IsOf catalog ∧ source.table = table ∧
      (ColumnRef.qualified row Entity.idName).Named (bindings.bind row source) ∧
      Named catalog (bindings.bind row source) test
  | .verbatim _ => True

end

end Predicate

/-- The inverse of a one2many is a stored many2one of the entity it leads to. -/
def Catalog.InversesAreLinks (catalog : Catalog) : Prop :=
  ∀ entity field target inverse, catalog.entity? entity.name = some entity →
    entity.field? field.name = some field → field.type = .one2many →
    field.inverseName = some inverse → field.comodel.bind catalog.entity? = some target →
    ∃ link, target.field? inverse = some link ∧ link.type = .many2one ∧ link.stored = true

def Catalog.AttachmentsAreBinary (catalog : Catalog) : Prop :=
  ∀ entity ∈ catalog.entities, ∀ field ∈ entity.fields, field.attachment = true →
    field.type = .binary

theorem Catalog.AttachmentsAreBinary.of_field? {catalog : Catalog}
    (h : catalog.AttachmentsAreBinary) {entity : Entity}
    (hentity : catalog.entity? entity.name = some entity) {name : String} {field : Field}
    (hfield : entity.field? name = some field) (htype : field.type ≠ .binary) :
    field.attachment = false := by
  obtain hmem | rfl := Entity.mem_or_eq_of_field? hfield
  · by_contra hattachment
    exact htype (h entity (mem_of_find?_eq_some hentity) field hmem (by simpa using hattachment))
  · rfl

/-- The field that the condition tests has a column: it is not kept outside the table, its order is
not asked for if it is a relation to many records, and an `id` that is not stored is called so. -/
def Condition.TestsColumn (c : Condition) (entity : Entity) : Prop :=
  ∀ field, entity.field? c.head = some field → field.attachment = false ∧
    (c.operator.isOrdering = true → field.type.isX2Many = false) ∧
    (field.name = Entity.idName → field.stored = true ∨ field.columnName = Entity.idName)

namespace Condition.Kept

variable {catalog : Catalog} {entity : Entity} {c : Condition} {field : Field}

/-- A relation to many records is traversed, or its order is asked for; no other condition on it is
kept. -/
theorem isX2Many_eq_false (h : c.Kept catalog .sql entity)
    (hfield : entity.field? c.head = some field) (hop : c.operator.isTraversal = false)
    (hordering : c.operator.isOrdering = false) : field.type.isX2Many = false := by
  obtain ⟨field', hfield', hrest⟩ := h.resolved
  obtain rfl : field = field' := Option.some.inj (hfield.symm.trans hfield')
  have hready := h.sqlReady hfield
  cases hmany : field.type.isX2Many with
  | false => rfl
  | true =>
    have hrelational : field.isRelational = true := by
      unfold Field.isRelational
      revert hmany
      cases field.type <;> decide
    have hdotted : c.isDotted = false := by
      obtain hrest | ⟨hplain, -⟩ := hrest
      · exact Condition.rest?_eq_none.1 hrest
      · rw [hrelational] at hplain
        cases hplain
    have hlabels := h _ PassEntry.IsStandard.labels.mem rfl
    have hmembers := h _ PassEntry.IsStandard.manyMembers.mem rfl
    cases hmember : c.operator.isMembership with
    | true =>
      obtain ⟨values, hvalues, -⟩ := h.membership hmember
      have hcovers : entity.headType? c.path = some field.type := by
        change (entity.field? c.head).map _ = _
        rw [hfield, Option.map_some]
      have hkeeps := hmembers (by
        rw [hcovers, PassScope.covers]
        revert hmany
        cases field.type <;> decide)
      change (Pass.manyMembers c (.still catalog .sql entity)).result = _ at hkeeps
      simpa [hdotted, hmember] using Pass.manyMembers_eq_none.1 hkeeps values hvalues
    | false =>
      have hequality := (h.isNormal hfield).noEquality
      have hpattern : c.operator.isPattern = true := by
        by_contra hpattern
        have hordered := Operator.isOrdering_of_standard hready.standard hequality hop hmember
          (by simpa using hpattern)
        rw [hordering] at hordered
        cases hordered
      obtain ⟨text, htext, -⟩ := h.pattern hpattern
      have hkeeps := hlabels (PassScope.covers_operators.2
        (List.mem_append_right _ (Registry.mem_patternOperators.2 hpattern)))
      change (Pass.labels c (.still catalog .sql entity)).result = _ at hkeeps
      obtain ⟨found, hfound, hnames⟩ := Pass.labels_eq_none.1 hkeeps
      obtain rfl : field = found :=
        Option.some.inj (hfield.symm.trans (Context.field_eq_ok.1 hfound))
      simp [hrelational, hdotted, Pass.namesLabels, htext, hpattern] at hnames

end Condition.Kept

namespace Lowering

variable {catalog : Catalog} {bindings : Bindings} {c : Condition} {column : ColumnRef}
  {p : Predicate}

theorem Tests.named (h : Tests column p) (hcolumn : column.Named bindings) :
    p.Named catalog bindings := by
  induction h with
  | constant => trivial
  | null | compare | inList | like => exact hcolumn
  | group _ _ ihp ihq => exact ⟨ihp, ihq, trivial⟩

theorem named_columnOf {entity : Entity} {field : Field} {row : String}
    (hkept : c.Kept catalog .sql entity) (htests : c.TestsColumn entity)
    (hsql : field.sqlHook = none) (hfield : entity.field? c.head = some field)
    (hop : c.operator.isTraversal = false) (hrow : bindings row = some (.entity entity)) :
    (columnOf c field row).Named bindings := by
  obtain ⟨hattachment, hordered, hid⟩ := htests field hfield
  have hhas : (Source.entity entity).Has field.columnName := by
    have hcolumn : field.stored = true ∨ field.columnName = Entity.idName := by
      obtain hname | ⟨-, hstored⟩ := hkept.searchable rfl hfield
      · exact hid hname
      · exact .inl (by simpa [hsql] using hstored)
    obtain hstored | hcolumn := hcolumn
    · refine .inr ⟨field, Entity.field?_name hfield, hstored, ?_, hattachment, rfl⟩
      cases hordering : c.operator.isOrdering with
      | true => exact hordered hordering
      | false => exact hkept.isX2Many_eq_false hfield hop hordering
    · exact .inl hcolumn
  unfold columnOf
  split
  · split <;> exact ⟨_, hrow, hhas⟩
  · exact ⟨_, hrow, hhas⟩

variable {entity target : Entity} {field : Field} {row : String} {n m : Nat}

theorem named_id (hrow : bindings row = some (.entity entity)) :
    (ColumnRef.qualified row Entity.idName).Named bindings :=
  ⟨_, hrow, .inl rfl⟩

theorem selectsNamed (hentity : catalog.entity? entity.name = some entity)
    (h : p.Named catalog (bindings.bind row (.entity entity))) :
    Predicate.SelectsNamed catalog bindings (.select entity.table row p) :=
  ⟨.entity entity, hentity, rfl, named_id (bindings.bind_self row _), h⟩

theorem named_outer {sub : String} (source : Source) (hrow : bindings row = some (.entity entity))
    (hne : row ≠ sub) : (ColumnRef.qualified row Entity.idName).Named (bindings.bind sub source) :=
  named_id ((bindings.bind_of_ne source hne).trans hrow)

theorem named_many2one {query : Query} (hcolumn : column.Named bindings)
    (hquery : Predicate.SelectsNamed catalog bindings query) (negated : Bool) :
    (if negated then .group .or [.null column false, .inQuery column negated query]
      else .inQuery column negated query : Predicate).Named catalog bindings := by
  split <;> simp [Predicate.Named, Predicate.AllNamed, hcolumn, hquery]

theorem named_linkColumn (hhooks : catalog.SqlHookless) (hattachments : catalog.AttachmentsAreBinary)
    (hentity : catalog.entity? entity.name = some entity) (hkept : c.Kept catalog .sql entity)
    (hfield : entity.field? c.head = some field) (hid : field.name ≠ Entity.idName)
    (htype : field.type = .many2one) (hrow : bindings row = some (.entity entity)) :
    (ColumnRef.qualified row field.columnName).Named bindings := by
  obtain hname | ⟨-, hstored⟩ := hkept.searchable rfl hfield
  · exact absurd hname hid
  · refine ⟨_, hrow, .inr ⟨field, Entity.field?_name hfield, ?_, ?_, ?_, rfl⟩⟩
    · simpa [hhooks.of_field? hentity hfield] using hstored
    · rw [htype]
      rfl
    · exact hattachments.of_field? hentity hfield (by simp [htype])

theorem named_one2many {inverse : String} (hinverses : catalog.InversesAreLinks)
    (hattachments : catalog.AttachmentsAreBinary)
    (hentity : catalog.entity? entity.name = some entity)
    (hfield : entity.field? c.head = some field) (htarget : catalog.comodel c field = .ok target)
    (htype : field.type = .one2many) (hinverse : field.inverseName = some inverse) {sub : String}
    (hrow : bindings row = some (.entity entity)) (hne : row ≠ sub) (negated : Bool)
    (h : p.Named catalog (bindings.bind sub (.entity target))) :
    (Predicate.linked negated target.table sub
      (.qualified sub (((target.field? inverse).map (·.columnName)).getD inverse))
      (.qualified row Entity.idName) p).Named catalog bindings := by
  obtain ⟨link, hlink, hlinkType, hstored⟩ := hinverses entity field target inverse hentity
    (Entity.field?_name hfield) htype hinverse (Catalog.comodel_eq_ok.1 htarget)
  have htargetEntity := Catalog.entity?_of_comodel htarget
  refine ⟨.entity target, htargetEntity, rfl, ?_, named_outer _ hrow hne, h⟩
  rw [hlink]
  refine ⟨_, bindings.bind_self sub _, .inr ⟨link, Entity.field?_name hlink, hstored, ?_, ?_, rfl⟩⟩
  · rw [hlinkType]
    rfl
  · exact hattachments.of_field? htargetEntity hlink (by simp [hlinkType])

theorem named_many2many {relation : Relation}
    (hentity : catalog.entity? entity.name = some entity)
    (hfield : entity.field? c.head = some field) (htarget : catalog.comodel c field = .ok target)
    (htype : field.type = .many2many)
    (hrelation : relationOf c field entity target = .ok relation) {sub : String}
    (hrow : bindings row = some (.entity entity)) (hne : row ≠ sub) (negated : Bool) {query : Query}
    (h : Predicate.SelectsNamed catalog (bindings.bind sub (.link relation)) query) :
    (Predicate.linked negated relation.table sub (.qualified sub relation.column1)
      (.qualified row Entity.idName)
      (.inQuery (.qualified sub relation.column2) false query)).Named catalog bindings :=
  ⟨.link relation,
    ⟨c, field, entity, target, hentity, Entity.field?_name hfield, htype, htarget, hrelation⟩,
    rfl, ⟨_, bindings.bind_self sub _, .inl rfl⟩, named_outer _ hrow hne,
    ⟨_, bindings.bind_self sub _, .inr rfl⟩, h⟩

/-- Every column that a lowered domain names exists, if its conditions test columns. The aliases of
sub-selects are new, so the rows outside are still in scope where they are asked for. -/
theorem Lowers.named {d : Domain} (h : Lowers catalog d entity row n m p)
    (hhooks : catalog.SqlHookless) (hinverses : catalog.InversesAreLinks)
    (hattachments : catalog.AttachmentsAreBinary)
    (hentity : catalog.entity? entity.name = some entity)
    (hconditions : d.EachCondition catalog
      (fun c e => c.Kept catalog .sql e ∧ c.TestsColumn e) entity)
    (hrow : bindings row = some (.entity entity))
    (hfresh : ∀ table, ∀ k > n, row ≠ aliasOf table k) : p.Named catalog bindings := by
  induction h generalizing bindings with
  | constant => trivial
  | negation _ ih =>
    cases hconditions with
    | negation hinner => exact ih hentity hinner hrow hfresh
  | empty => trivial
  | child hfirst _ ih ihs =>
    obtain ⟨hd, hds⟩ := hconditions.cons
    have hle := hfirst.le
    exact ⟨ih hentity hd hrow hfresh,
      ihs hentity hds hrow fun table k hk => hfresh table k (by omega)⟩
  | test hfield hop hp =>
    obtain ⟨hkept, htests⟩ := hconditions.self
    exact (tests_comparison hp).named (named_columnOf hkept htests (hhooks.of_field? hentity hfield)
      hfield hop hrow)
  | itself hfield hop hoperand hid _ ih =>
    have hinner := hconditions.inner hoperand hop (Catalog.target?_of_id hfield hid)
    refine ⟨named_id hrow, selectsNamed hentity (ih hentity hinner (bindings.bind_self _ _) ?_)⟩
    exact fun table k hk => aliasOf_ne (by omega)
  | many2one hfield hop hoperand hid htarget htype _ ih =>
    have hmodel := Catalog.entity?_of_comodel htarget
    have hinner := hconditions.comodel hfield hop hoperand hid (by rw [htype]; rfl) htarget
    refine named_many2one (named_linkColumn hhooks hattachments hentity hconditions.self.1 hfield hid
      htype hrow) (selectsNamed hmodel (ih hmodel hinner (bindings.bind_self _ _) ?_)) _
    exact fun table k hk => aliasOf_ne (by omega)
  | many2many hfield hop hoperand hid htarget htype hrelation _ ih =>
    have hmodel := Catalog.entity?_of_comodel htarget
    have hinner := hconditions.comodel hfield hop hoperand hid (by rw [htype]; rfl) htarget
    refine named_many2many hentity hfield htarget htype hrelation hrow
      (hfresh _ _ (Nat.lt_succ_self _)) _
      (selectsNamed hmodel (ih hmodel hinner (Bindings.bind_self _ _ _) ?_))
    exact fun table k hk => aliasOf_ne (by omega)
  | one2many hfield hop hoperand hid htarget htype hinverse _ ih =>
    have hmodel := Catalog.entity?_of_comodel htarget
    have hinner := hconditions.comodel hfield hop hoperand hid (by rw [htype]; rfl) htarget
    refine named_one2many hinverses hattachments hentity hfield htarget htype hinverse hrow
      (hfresh _ _ (Nat.lt_succ_self _)) _ (ih hmodel hinner (bindings.bind_self _ _) ?_)
    exact fun table k hk => aliasOf_ne (by omega)
  | written hfield hop htraverses =>
    -- What a query written by hand says is its own; only the columns around it are looked at.
    cases htraverses with
    | itself hid hquery =>
      obtain ⟨written, -, rfl, -⟩ := run_selection_none hquery
      exact ⟨named_id hrow, trivial⟩
    | many2one hid htarget htype hquery =>
      obtain ⟨written, -, rfl, -⟩ := run_selection_none hquery
      have hwritten : Predicate.SelectsNamed catalog bindings (.verbatim written) := trivial
      exact named_many2one (named_linkColumn hhooks hattachments hentity hconditions.self.1 hfield
        hid htype hrow) hwritten _
    | one2many hid htarget htype hinverse htest =>
      obtain ⟨written, -, rfl, -⟩ := run_filter_none htest
      exact named_one2many hinverses hattachments hentity hfield htarget htype hinverse hrow
        (hfresh _ _ (Nat.lt_succ_self _)) _ ⟨named_id (bindings.bind_self _ _), trivial⟩
    | many2many hid htarget htype hrelation hquery =>
      obtain ⟨written, -, rfl, -⟩ := run_selection_none hquery
      exact named_many2many hentity hfield htarget htype hrelation hrow
        (hfresh _ _ (Nat.lt_succ_self _)) _ trivial

end Lowering

namespace Optimizer

variable {catalog : Catalog} {entity : Entity}

/-- Optimizing for SQL and lowering name only columns that exist, in every dialect, if the optimized
domain tests columns and the rows have a name that no sub-select takes. -/
theorem toStatement_named {depth : Nat} {d : Domain} {r : OptimizedDomain}
    {dialect : Dialect} {row : Option String} {statement : Statement} (hhooks : catalog.Hookless)
    (hsql : catalog.SqlHookless) (hinverses : catalog.InversesAreLinks)
    (hattachments : catalog.AttachmentsAreBinary)
    (hentity : catalog.entity? entity.name = some entity) (hd : d.unmarked = d)
    (h : (standard.optimizeWithin depth catalog .sql entity d).result = .ok r)
    (htests : r.domain.EachCondition catalog Condition.TestsColumn entity)
    (hrow : ∀ table number, row.getD entity.table ≠ Lowering.aliasOf table number)
    (hstatement : (r.toStatement catalog dialect row).result = .ok statement) :
    ∃ p : Predicate, statement = .ofPieces dialect (p.pieces dialect) ∧
      p.Named catalog (Bindings.bind (fun _ => none) (row.getD entity.table) (.entity entity)) := by
  have hmarks : d.EachMark (Vouched catalog) := hd ▸ Domain.eachMark_mapValues id d
  obtain ⟨hnode, hname, hlevel⟩ := optimizeWithin_eq_ok.1 h
  have hkept := (node_settled hhooks.hooksCarry hentity hmarks hnode).2.eachCondition
  rw [OptimizedDomain.result_toStatement (by rw [hlevel]; rfl) (hname ▸ hentity)] at hstatement
  obtain ⟨p, hp, rfl⟩ := Domain.toStatement_eq_ok.1 hstatement
  refine ⟨p, rfl, ?_⟩
  obtain ⟨used, hused⟩ := hp
  exact (Lowering.lowers_of_run hsql hentity hused).named hsql hinverses hattachments hentity
    (hkept.and htests) (Bindings.bind_self _ _ _) fun table k _ => hrow table k

/-- Items with a number `n`, the item `p` that they are a part of, and their own parts `l`. -/
def item : Entity := { name := "i", fields :=
  [{ name := "n", type := .integer }, .many2one "p" "i", .one2many "l" "i" "p"] }

def items : Catalog := { entities := [item] }

theorem mem_items {entity : Entity} {field : Field} (hentity : entity ∈ items.entities)
    (hfield : field ∈ entity.fields) : entity = item ∧ (field = { name := "n", type := .integer } ∨
      field = .many2one "p" "i" ∨ field = .one2many "l" "i" "p") := by
  obtain rfl := mem_singleton.1 hentity
  simpa [item] using hfield

theorem items_isRegular : items.Hookless ∧ items.SqlHookless ∧
    items.InversesAreLinks ∧ items.AttachmentsAreBinary := by
  refine ⟨?_, ?_, ?_, ?_⟩
  · intro entity hentity field hfield
    obtain ⟨rfl, rfl | rfl | rfl⟩ := mem_items hentity hfield <;> rfl
  · intro entity hentity field hfield
    obtain ⟨rfl, rfl | rfl | rfl⟩ := mem_items hentity hfield <;> rfl
  · intro entity field target inverse hentity hfield htype hinverse htarget
    obtain hmem | rfl := Entity.mem_or_eq_of_field? hfield
    · obtain ⟨rfl, rfl | rfl | rfl⟩ := mem_items (mem_of_find?_eq_some hentity) hmem
      · cases htype
      · cases htype
      · cases hinverse
        cases htarget
        exact ⟨_, rfl, rfl, rfl⟩
    · cases htype
  · intro entity hentity field hfield hattachment
    obtain ⟨rfl, rfl | rfl | rfl⟩ := mem_items hentity hfield <;> cases hattachment

/-- A condition on the numbers of the parts names the columns `p` and `n` of the parts, and `id`. -/
theorem toStatement_named_items :
    let d : Domain := .leaf "l" .any (.domain (.leaf "n" .less (.scalar (.int 5))))
    ∃ r, (standard.optimizeWithin 3 items .sql item d).result = .ok r ∧
      ∃ statement, (r.toStatement items .postgres none).result = .ok statement ∧
        ∃ p : Predicate, statement = .ofPieces .postgres (p.pieces .postgres) ∧
          p.Named items (Bindings.bind (fun _ => none) "i" (.entity item)) := by
  intro d
  have hrun : (standard.optimizeWithin 3 items .sql item d).result = .ok
      ⟨.condition ⟨"l", .any, .domain (.leaf "n" .less (.scalar (.int 5))), some ⟨"i", .sql⟩⟩,
        "i", .sql⟩ := by
    cbv
  obtain ⟨hhooks, hsql, hinverses, hattachments⟩ := items_isRegular
  refine ⟨_, hrun, _, rfl, ?_⟩
  refine toStatement_named hhooks hsql hinverses hattachments rfl rfl hrun ?_ ?_ rfl
  · refine .condition ?_ fun inner target hoperand _ htarget => ?_
    · intro field hfield
      cases hfield
      exact ⟨rfl, by rintro ⟨⟩, by simp [Field.one2many, Entity.idName]⟩
    · cases hoperand
      cases htarget
      refine .condition ?_ (by simp)
      intro field hfield
      cases hfield
      exact ⟨rfl, fun _ => rfl, by simp [Entity.idName]⟩
  · intro table number halias
    have hmem : '_' ∈ (Lowering.aliasOf table number).toList := by
      simp [Lowering.aliasOf, String.toList_append]
    rw [← halias] at hmem
    revert hmem
    decide

/-- The order of a relation to many records is asked for, and a column is named that no table
has. -/
theorem toStatement_not_named :
    let d : Domain := .leaf "l" .less (.scalar (.int 5))
    let bindings := Bindings.bind (fun _ => none) "i" (.entity item)
    (items.Hookless ∧ items.SqlHookless ∧ items.InversesAreLinks ∧ items.AttachmentsAreBinary) ∧
    ∃ r, (standard.optimizeWithin 3 items .sql item d).result = .ok r ∧
      ∃ p : Predicate, (Lowering.domain .postgres items r.domain item "i").run 0 =
          .ok (p, 0) ∧
        (r.toStatement items .postgres none).result =
          .ok (.ofPieces .postgres (p.pieces .postgres)) ∧
        ¬p.Named items bindings := by
  intro d bindings
  refine ⟨items_isRegular,
    ⟨.condition ⟨"l", .less, .scalar (.int 5), some ⟨"i", .sql⟩⟩, "i", .sql⟩, by cbv,
    .compare (.qualified "i" "l") .less (.int 5), rfl, rfl, ?_⟩
  rintro ⟨source, hsource, hhas⟩
  cases hsource
  obtain hid | ⟨field, hfield, -, hmany, -, hcolumn⟩ := hhas
  · revert hid
    decide
  · obtain hmem | rfl := Entity.mem_or_eq_of_field? hfield
    · obtain ⟨-, rfl | rfl | rfl⟩ := mem_items (mem_singleton.2 rfl) hmem
      · revert hcolumn
        decide
      · revert hcolumn
        decide
      · cases hmany
    · revert hcolumn
      decide
end Optimizer

end QueryDomain
