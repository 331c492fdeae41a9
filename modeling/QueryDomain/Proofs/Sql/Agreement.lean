import QueryDomain.Proofs.Sql.Storage

/-! A statement is true on a row exactly if the domain that it was made of holds of the record in the
row. The proof follows lowering: comparisons agree by the values they test, and sub-selects because
the tables hold the records. -/
namespace QueryDomain

open List

/-- The condition is one that a database and the evaluation in memory decide by the same rules. -/
structure Condition.IsComparable (c : Condition) (entity : Entity) : Prop where
  noQuery : ∀ query, c.operand ≠ .query query
  plain : ∀ field, entity.field? c.head = some field → field.type ≠ .json ∧ field.type ≠ .binary
  ordering : c.operator.isOrdering = true → ∀ field, entity.field? c.head = some field →
    (field.type.isNumeric || field.type.isTextual || field.type.isTemporal) = true
  pattern : c.operator.isPattern = true → ∀ field, entity.field? c.head = some field →
    field.type.isTextual = true

namespace Condition.Kept

variable {catalog : Catalog} {entity : Entity} {c : Condition} {field : Field}

theorem family (h : c.Kept catalog .sql entity) (hop : c.operator.isTraversal = false) :
    (∃ values, c.operator.isMembership = true ∧ c.operand = .set values) ∨
    (∃ text, c.operator.isPattern = true ∧ c.operand = .scalar (.text text)) ∨
    ∃ value, c.operator.isOrdering = true ∧ c.operand = .scalar value := by
  cases hmember : c.operator.isMembership with
  | true =>
    obtain ⟨values, hoperand, -⟩ := h.membership hmember
    exact .inl ⟨values, rfl, hoperand⟩
  | false =>
    refine .inr ?_
    cases hpattern : c.operator.isPattern with
    | true =>
      obtain ⟨text, hoperand, -⟩ := h.pattern hpattern
      exact .inl ⟨text, rfl, hoperand⟩
    | false =>
      obtain ⟨field, hfield, -⟩ := h.resolved
      have hready := h.sqlReady hfield
      have hordering :=
        Operator.isOrdering_of_standard hready.standard h.noEquality hop hmember hpattern
      have hshape := hready.shape
      refine .inr ?_
      cases hoperand : c.operand with
      | scalar value => exact ⟨value, hordering, rfl⟩
      | set values =>
        rw [hoperand, Pass.acceptsShape, hmember] at hshape
        cases hshape
      | _ =>
        rw [hoperand, Pass.acceptsShape, hop] at hshape
        cases hshape

theorem exists_test (h : c.Kept catalog .sql entity) (hop : c.operator.isTraversal = false)
    (v : Value) : ∃ b, c.test v = .ok b := by
  obtain ⟨values, hmember, hoperand⟩ | ⟨text, hpattern, hoperand⟩ | ⟨value, hordering, hoperand⟩ :=
    h.family hop
  · exact ⟨_, test_membership hmember hoperand v⟩
  · exact ⟨_, test_pattern hpattern hoperand v⟩
  · exact ⟨_, test_ordering hordering hoperand v⟩

theorem boolean (h : c.Kept catalog .sql entity) (hfield : entity.field? c.head = some field)
    (htype : field.type = .boolean) (hmember : c.operator.isMembership = true) :
    c.operand = .set (.singleton (.bool true)) := by
  obtain ⟨values, hoperand, hsome⟩ := h.membership hmember
  have hcovers : entity.headType? c.path = some .boolean := by
    change (entity.field? c.head).map _ = _
    rw [hfield, Option.map_some, htype]
  have hmembers := h _ PassEntry.IsStandard.booleanMembers.mem rfl (by rw [hcovers]; rfl)
  have hboth := h _ PassEntry.IsStandard.bothBooleans.mem rfl (by rw [hcovers]; rfl)
  change (Pass.booleanMembers c (.still catalog .sql entity)).result = _ at hmembers
  change (Pass.bothBooleans c (.still catalog .sql entity)).result = _ at hboth
  obtain ⟨hbooleans, hdistinct, hfalse⟩ :=
    Pass.booleanMembers_eq_none.1 hmembers values hoperand hmember
  have hboth := Pass.bothBooleans_eq_none.1 hboth values hoperand
  have hcases : ∀ v ∈ values.values, v = .bool true ∨ v = .bool false := by
    intro v hv
    have hboolean := hbooleans v hv
    cases v with
    | bool b => cases b <;> simp
    | _ => cases hboolean
  have hcontains : ∀ b, .bool b ∈ values.values → values.contains (.bool b) = true :=
    fun b hb => any_eq_true.2 ⟨_, hb, Value.same_refl _⟩
  -- With both it would be decided, and with `false` alone it would ask for not being true.
  have hnotFalse : .bool false ∉ values.values := by
    intro hmem
    have honly : ∀ v ∈ values.values, v = .bool false := by
      intro v hv
      refine (hcases v hv).resolve_left ?_
      rintro rfl
      rw [hmember, hcontains true hv, hcontains false hmem] at hboth
      cases hboth
    rw [ValueSet.eq_singleton hsome hdistinct honly] at hfalse
    cases hfalse
  have honly : ∀ v ∈ values.values, v = .bool true := by
    intro v hv
    refine (hcases v hv).resolve_right ?_
    rintro rfl
    exact hnotFalse hv
  rw [hoperand, ValueSet.eq_singleton hsome hdistinct honly]

/-- To a test, what the column holds is what memory holds. -/
theorem test_columnValue (h : c.Kept catalog .sql entity) (hcomparable : c.IsComparable entity)
    (hfield : entity.field? c.head = some field) (hop : c.operator.isTraversal = false)
    (json : Option Json) : c.test (field.columnValue json) = c.test (field.valueOf json) := by
  by_cases htype : field.type = .boolean
  · obtain ⟨values, hmember, -⟩ | ⟨text, hpattern, -⟩ | ⟨value, hordering, -⟩ := h.family hop
    · have hoperand := h.boolean hfield htype hmember
      rw [test_membership hmember hoperand, test_membership hmember hoperand]
      unfold Field.columnValue
      split
      · rw [Field.valueOf]
        · rfl
        · exact htype
      · rw [Field.valueOf]
        · rfl
        · exact htype
      · rfl
    · have htextual := hcomparable.pattern hpattern field hfield
      rw [htype] at htextual
      cases htextual
    · have hordered := hcomparable.ordering hordering field hfield
      rw [htype] at hordered
      cases hordered
  · rw [Field.columnValue_eq htype]

end Condition.Kept

namespace Catalog

variable {catalog : Catalog} {entity : Entity} {record : Record}

/-- Evaluation of what optimizing keeps comes to its truth value. -/
theorem holds_eq_truth {d : Domain}
    (h : d.EachCondition catalog (fun c e => c.Kept catalog .sql e ∧ c.IsComparable e) entity)
    (record : Record) : catalog.holds d entity record = .ok (catalog.truth d entity record) := by
  induction h generalizing record with
  | constant v entity => rfl
  | negation _ ih =>
    rw [holds, truth, ih]
    rfl
  | nary _ ih => exact holds_nary fun d hd => ih d hd record
  | @condition c entity hc _ ih =>
    obtain ⟨hkept, hcomparable⟩ := hc
    rw [holds_condition]
    cases hop : c.operator.isTraversal with
    | false =>
      obtain ⟨field, hfield, -⟩ := hkept.resolved
      obtain ⟨b, hb⟩ := hkept.exists_test hop (c.valueOn field record)
      rw [truth_test hop hfield, hb, conditionHolds_of_test hop]
      exact ⟨field, hfield, hb⟩
    | true =>
      obtain ⟨field, hfield, -⟩ := hkept.resolved
      obtain ⟨target, htarget⟩ := hkept.related hop
      obtain ⟨records, hreached⟩ := exists_reached htarget record
      obtain ⟨query, hquery⟩ | ⟨inner, hoperand, -⟩ := hkept.traversal hop hfield
      · exact absurd hquery (hcomparable.noQuery query)
      · rw [truth_traversal hop hoperand hreached, hoperand]
        refine (conditionHolds_of_traversal hop).2 ⟨target, records, _, hreached, ?_, rfl⟩
        exact anyRecord_ok fun r _ => ih inner target hoperand hop htarget r

end Catalog

namespace Lowering

variable {catalog : Catalog} {db : Database} {entity : Entity} {row : String} {n m : Nat}
  {p : Predicate} {column : ColumnRef}

theorem columnOf_eq {c : Condition} {field : Field} (hkept : c.Kept catalog .sql entity)
    (hcomparable : c.IsComparable entity) (hfield : entity.field? c.head = some field) :
    columnOf c field row = .qualified row field.columnName ∧ c.rest? = none := by
  obtain ⟨field', hfield', hrest⟩ := hkept.resolved
  obtain rfl : field = field' := Option.some.inj (hfield.symm.trans hfield')
  obtain hrest | ⟨-, hjson⟩ := hrest
  · exact ⟨by rw [columnOf, hrest], hrest⟩
  · exact absurd hjson (hcomparable.plain field hfield).1

theorem Tests.isStandard (h : Tests column p) (hcolumn : isPath column = false) :
    p.isStandard = true := by
  induction h with
  | constant => rfl
  | null | compare | inList | like => simp [Predicate.isStandard, hcolumn]
  | group _ _ ihp ihq => simp [Predicate.isStandard, Predicate.areStandard, ihp, ihq]

theorem isStandard_many2one {query : Query} (hcolumn : isPath column = false)
    (hquery : Predicate.selectsStandard query = true) (negated : Bool) :
    (if negated then .group .or [.null column false, .inQuery column negated query]
      else .inQuery column negated query : Predicate).isStandard = true := by
  split <;> simp [Predicate.isStandard, Predicate.areStandard, hcolumn, hquery]

theorem Lowers.isStandard {d : Domain} (h : Lowers catalog d entity row n m p)
    (hconditions : d.EachCondition catalog
      (fun c e => c.Kept catalog .sql e ∧ c.IsComparable e) entity) : p.isStandard = true := by
  induction h with
  | constant | empty => rfl
  | negation _ ih =>
    cases hconditions with
    | negation hinner => exact ih hinner
  | child _ _ ih ihs =>
    obtain ⟨hd, hds⟩ := hconditions.cons
    rw [Predicate.isStandard, Predicate.areStandard, ih hd]
    exact ihs hds
  | test hfield hop hp =>
    obtain ⟨hkept, hcomparable⟩ := hconditions.self
    refine (tests_comparison hp).isStandard ?_
    rw [(columnOf_eq hkept hcomparable hfield).1]
    rfl
  | itself hfield hop hoperand hid _ ih =>
    exact ih (hconditions.inner hoperand hop (Catalog.target?_of_id hfield hid))
  | many2one hfield hop hoperand hid htarget htype _ ih =>
    refine isStandard_many2one rfl ?_ _
    exact ih (hconditions.comodel hfield hop hoperand hid (by rw [htype]; rfl) htarget)
  | many2many hfield hop hoperand hid htarget htype hrelation _ ih =>
    exact ih (hconditions.comodel hfield hop hoperand hid (by rw [htype]; rfl) htarget)
  | one2many hfield hop hoperand hid htarget htype hinverse _ ih =>
    exact ih (hconditions.comodel hfield hop hoperand hid (by rw [htype]; rfl) htarget)
  | written _ _ htraverses =>
    obtain ⟨query, hquery⟩ := htraverses.operand_eq_query
    exact absurd hquery (hconditions.self.2.noQuery query)

theorem bne_notAny {op : Operator} (hop : op.isTraversal = true) (found : Bool) :
    (found != (op == .notAny)) = (found == (op == .any)) := by
  cases op <;> first
    | contradiction
    | cases found <;> rfl

theorem hasColumn (hhooks : catalog.SqlHookless) {c : Condition} {field : Field}
    (hentity : catalog.entity? entity.name = some entity) (hkept : c.Kept catalog .sql entity)
    (hfield : entity.field? c.head = some field) :
    field.stored = true ∨ field.name = Entity.idName := by
  obtain hname | ⟨-, hstored⟩ := hkept.searchable rfl hfield
  · exact .inr hname
  · exact .inl (by simpa [hhooks.of_field? hentity hfield] using hstored)

theorem isTrue_test (hhooks : catalog.SqlHookless) {c : Condition} {field : Field}
    {scope : Scope} {record : Record} {textual : Bool}
    (hentity : catalog.entity? entity.name = some entity) (hkept : c.Kept catalog .sql entity)
    (hcomparable : c.IsComparable entity) (hfield : entity.field? c.head = some field)
    (hop : c.operator.isTraversal = false)
    (hp : comparison c (columnOf c field row) textual = .ok p)
    (hrow : entity.RowOf record (scope row)) :
    (p.eval db scope == some true) = catalog.truth (.condition c) entity record := by
  obtain ⟨hcolumn, hrest⟩ := columnOf_eq hkept hcomparable hfield
  have hsingle : field.type.isX2Many = false := by
    cases hordering : c.operator.isOrdering with
    | false => exact hkept.isX2Many_eq_false hfield hop hordering
    | true =>
      have hordered := hcomparable.ordering hordering field hfield
      cases htype : field.type <;> rw [htype] at hordered <;> first
        | rfl
        | cases hordered
  have hvalue : scope row field.columnName = field.columnValue (Record.get? record field.name) :=
    hrow.column field (Entity.field?_name hfield) (hasColumn hhooks hentity hkept hfield) hsingle
  rw [Predicate.isTrue_comparison hkept.noEquality hp, Catalog.truth_test hop hfield, hcolumn,
    ColumnRef.read_qualified, hvalue, hkept.test_columnValue hcomparable hfield hop,
    Condition.valueOn, hrest]

theorem read_many2one (hhooks : catalog.SqlHookless) (hlinks : catalog.LinksAreIds) {c : Condition}
    {field : Field} {scope : Scope} {record : Record}
    (hentity : catalog.entity? entity.name = some entity) (hkept : c.Kept catalog .sql entity)
    (hfield : entity.field? c.head = some field) (htype : field.type = .many2one)
    (hrecord : record ∈ catalog.records entity.name) (hrow : entity.RowOf record (scope row)) :
    (ColumnRef.qualified row field.columnName).read scope =
      ((Record.get? record field.name).bind Json.asInt64?).elim .null .int := by
  have hname := Entity.field?_name hfield
  rw [← hlinks.columnValue hentity hname htype hrecord]
  exact hrow.column field hname (hasColumn hhooks hentity hkept hfield) (by rw [htype]; rfl)

section Agreement

variable (hhooks : catalog.SqlHookless) (hstored : catalog.StoredIn db) (hids : catalog.UniqueIds)
  (hlinks : catalog.LinksAreIds) (hinverses : catalog.InversesAreLinks)

include hhooks hstored hids hlinks hinverses in
/-- A lowered domain is true on a row exactly if the domain is true on the record in the row, unless a
sub-select takes the alias of the row. -/
theorem Lowers.isTrue {d : Domain} (h : Lowers catalog d entity row n m p)
    (hentity : catalog.entity? entity.name = some entity)
    (hconditions : d.EachCondition catalog
      (fun c e => c.Kept catalog .sql e ∧ c.IsComparable e) entity)
    (hfresh : row ∉ p.aliases) {scope : Scope} {record : Record}
    (hrecord : record ∈ catalog.records entity.name) (hrow : entity.RowOf record (scope row)) :
    (p.eval db scope == some true) = catalog.truth d entity record := by
  induction h generalizing scope record with
  | @constant v =>
    rw [Predicate.eval, Catalog.truth]
    cases v <;> rfl
  | negation _ ih =>
    cases hconditions with
    | negation hinner =>
      rw [Predicate.eval, Catalog.truth, ← ih hentity hinner hfresh hrecord hrow, bne]
      cases Predicate.eval .. == some true <;> rfl
  | @empty k =>
    rw [Predicate.eval, Predicate.evalAll, Catalog.truth, Catalog.truthAll]
    cases k <;> rfl
  | @child k d ds mark entity row _ _ _ p ps _ _ ih ihs =>
    obtain ⟨hd, hds⟩ := hconditions.cons
    have hfresh : row ∉ p.aliases ∧ row ∉ (Predicate.group k ps).aliases := by
      simpa [Predicate.aliases, Predicate.partAliases, not_or] using hfresh
    have hrest := ihs hentity hds hfresh.2 hrecord hrow
    rw [Predicate.eval, Catalog.truth] at hrest
    rw [Predicate.eval, Predicate.evalAll, Ternary.isTrue_join, ih hentity hd hfresh.1 hrecord hrow,
      hrest, Catalog.truth, Catalog.truthAll]
  | test hfield hop hp =>
    obtain ⟨hkept, hcomparable⟩ := hconditions.self
    exact isTrue_test hhooks hentity hkept hcomparable hfield hop hp hrow
  | @itself c field inner entity row n _ p hfield hop hoperand hid hlowers ih =>
    have hinner := hconditions.inner hoperand hop (Catalog.target?_of_id hfield hid)
    have hfilters : Predicate.Filters catalog db entity scope (aliasOf entity.table (n + 1)) p
        (catalog.truth inner entity) := fun r hr found hrowOf =>
      ih hentity hinner (hlowers.areNew.not_mem _) hr (by rwa [Scope.bind_self])
    obtain ⟨key, hkey, hvalue⟩ := hrow.id
    have hcolumn : (ColumnRef.qualified row Entity.idName).read scope = .int key := hvalue
    have hself := (Catalog.record?_eq_some (hids entity (mem_of_find?_eq_some hentity))).2
      ⟨hrecord, hkey⟩
    rw [Predicate.eval_inQuery hstored hids hentity hfilters hcolumn, hself,
      Catalog.truth_traversal hop hoperand (Catalog.reached_of_id hfield hid record),
      bne_notAny hop]
    simp
  | @many2one c field inner target entity row n _ p hfield hop hoperand hid htarget htype hlowers ih =>
    have hrelational : field.type.isRelational = true := by rw [htype]; rfl
    have hmodel := Catalog.entity?_of_comodel htarget
    have hinner := hconditions.comodel hfield hop hoperand hid hrelational htarget
    have hfilters : Predicate.Filters catalog db target scope (aliasOf target.table (n + 1)) p
        (catalog.truth inner target) := fun r hr found hrowOf =>
      ih hmodel hinner (hlowers.areNew.not_mem _) hr (by rwa [Scope.bind_self])
    have hcolumn := read_many2one hhooks hlinks hentity hconditions.self.1 hfield htype hrecord hrow
    rw [Catalog.truth_traversal hop hoperand
      (Catalog.reached_of_comodel hfield hid hrelational htarget record),
      Catalog.any_linked_many2one htype, ← bne_notAny hop]
    exact Predicate.isTrue_many2one hstored hids hmodel hfilters hcolumn _
  | @one2many c field inner target inverse entity row n _ p hfield hop hoperand hid htarget htype
      hinverse hlowers ih =>
    have hrelational : field.type.isRelational = true := by rw [htype]; rfl
    have hmodel := Catalog.entity?_of_comodel htarget
    have hinner := hconditions.comodel hfield hop hoperand hid hrelational htarget
    have hfilters : Predicate.Filters catalog db target scope (aliasOf target.table (n + 1)) p
        (catalog.truth inner target) := fun r hr found hrowOf =>
      ih hmodel hinner (hlowers.areNew.not_mem _) hr (by rwa [Scope.bind_self])
    obtain ⟨link, hlink, hlinkType, hlinkStored⟩ := hinverses entity field target inverse hentity
      (Entity.field?_name hfield) htype hinverse (Catalog.comodel_eq_ok.1 htarget)
    obtain rfl : link.name = inverse := Entity.name_of_field? hlink
    obtain ⟨key, hkey, hvalue⟩ := hrow.id
    rw [hlink, Option.map_some, Option.getD_some,
      Predicate.eval_one2many hstored hlinks hmodel hfilters (ne_of_not_mem_cons hfresh) hvalue hlink
        hlinkType hlinkStored,
      Catalog.truth_traversal hop hoperand
        (Catalog.reached_of_comodel hfield hid hrelational htarget record),
      Catalog.linked_one2many htype hkey hinverse, bne_notAny hop]
    simp
  | @many2many c field inner target relation entity row n _ p hfield hop hoperand hid htarget htype
      hrelation hlowers ih =>
    have hrelational : field.type.isRelational = true := by rw [htype]; rfl
    have hmodel := Catalog.entity?_of_comodel htarget
    have hinner := hconditions.comodel hfield hop hoperand hid hrelational htarget
    have hfilters : ∀ scope, Predicate.Filters catalog db target scope
        (aliasOf target.table (n + 2)) p (catalog.truth inner target) := fun _ r hr found hrowOf =>
      ih hmodel hinner (hlowers.areNew.not_mem _) hr (by rwa [Scope.bind_self])
    have htable : catalog.IsLinkTable entity field relation :=
      ⟨hentity, Entity.field?_name hfield, htype,
        (hasColumn hhooks hentity hconditions.self.1 hfield).resolve_right hid, c, target, htarget,
        hrelation⟩
    obtain ⟨key, hkey, hvalue⟩ := hrow.id
    rw [Predicate.eval_many2many hstored hids hmodel (fun _ => hfilters _)
        (ne_of_not_mem_cons hfresh) htable hrecord hkey hvalue,
      Catalog.truth_traversal hop hoperand
        (Catalog.reached_of_comodel hfield hid hrelational htarget record),
      Catalog.linked_many2many htype, bne_notAny hop]
    simp
  | written _ _ htraverses =>
    obtain ⟨query, hquery⟩ := htraverses.operand_eq_query
    exact absurd hquery (hconditions.self.2.noQuery query)

end Agreement

end Lowering

/-- No sub-select of the lowered domain takes the alias of the rows, which would hide them. -/
def Domain.KeepsAlias (d : Domain) (dialect : Dialect) (catalog : Catalog) (entity : Entity)
    (row : String) : Prop :=
  ∀ p used, (Lowering.domain dialect catalog d entity row).run 0 = .ok (p, used) → row ∉ p.aliases

namespace Optimizer

/-- Lowering agrees with the evaluation in memory, unset values included: the statement of an optimized
domain is the text of standard SQL that is true on a row exactly if the domain holds of the record in
the row. -/
theorem toStatement_agrees {catalog : Catalog} {entity : Entity} {db : Database} {depth : Nat}
    {d : Domain} {r : OptimizedDomain} {dialect : Dialect} {row : Option String}
    {statement : Statement} (hhooks : catalog.Hookless) (hsql : catalog.SqlHookless)
    (hids : catalog.UniqueIds) (hlinks : catalog.LinksAreIds) (hinverses : catalog.InversesAreLinks)
    (hstored : catalog.StoredIn db) (hentity : catalog.entity? entity.name = some entity)
    (hd : d.unmarked = d)
    (h : (standard.optimizeWithin depth catalog .sql entity d).result = .ok r)
    (hcomparable : r.domain.EachCondition catalog Condition.IsComparable entity)
    (hstatement : (r.toStatement catalog dialect row).result = .ok statement)
    (hfresh : r.domain.KeepsAlias dialect catalog entity (row.getD entity.table)) :
    ∃ p : Predicate, statement = .ofPieces dialect (p.pieces dialect) ∧ p.isStandard = true ∧
      ∀ scope : Scope, ∀ record ∈ catalog.records entity.name, ∀ found, entity.RowOf record found →
        catalog.holds r.domain entity record =
          .ok (p.eval db (scope.bind (row.getD entity.table) found) == some true) := by
  have hmarks : d.EachMark (Vouched catalog) := hd ▸ Domain.eachMark_mapValues id d
  obtain ⟨hnode, hname, hlevel⟩ := optimizeWithin_eq_ok.1 h
  have hconditions := (node_settled hhooks.hooksCarry hentity hmarks hnode).2.eachCondition.and hcomparable
  rw [OptimizedDomain.result_toStatement (by rw [hlevel]; rfl) (hname ▸ hentity)] at hstatement
  obtain ⟨p, ⟨used, hp⟩, rfl⟩ := Domain.toStatement_eq_ok.1 hstatement
  have hlowers := Lowering.lowers_of_run hsql hentity hp
  refine ⟨p, rfl, hlowers.isStandard hconditions, fun scope record hrecord found hfound => ?_⟩
  rw [Catalog.holds_eq_truth hconditions, hlowers.isTrue hsql hstored hids hlinks hinverses hentity
    hconditions (hfresh p used hp) hrecord (by rwa [Scope.bind_self])]

def parts : Catalog := { items with tables := [("i", [[("id", .integer 1)],
  [("id", .integer 2), ("n", .integer 3), ("p", .integer 1)]])] }

def whole : Row := fun column => if column = "id" then .int 1 else .null

def part : Row := fun column =>
  if column = "id" then .int 2 else if column = "n" then .int 3 else if column = "p" then .int 1
  else .null

def partRows : Database where
  rows table := if table = "i" then [whole, part] else []

theorem rowOf_whole : item.RowOf [("id", .integer 1)] whole where
  id := ⟨1, by decide, rfl⟩
  column field hfield _ hmany := by
    obtain hmem | rfl := Entity.mem_or_eq_of_field? hfield
    · obtain ⟨-, rfl | rfl | rfl⟩ := mem_items (mem_singleton.2 rfl) hmem
      · rfl
      · rfl
      · cases hmany
    · rfl

theorem rowOf_part :
    item.RowOf [("id", .integer 2), ("n", .integer 3), ("p", .integer 1)] part where
  id := ⟨2, by decide, rfl⟩
  column field hfield _ hmany := by
    obtain hmem | rfl := Entity.mem_or_eq_of_field? hfield
    · obtain ⟨-, rfl | rfl | rfl⟩ := mem_items (mem_singleton.2 rfl) hmem
      · rfl
      · rfl
      · cases hmany
    · rfl

theorem storedIn_partRows : parts.StoredIn partRows := by
  have hentity : ∀ entity, parts.entity? entity.name = some entity → entity = item :=
    fun entity h => mem_singleton.1 (mem_of_find?_eq_some h)
  have hlinkless : ∀ entity field relation, ¬parts.IsLinkTable entity field relation := by
    rintro entity field relation ⟨hfound, hfield, htype, -⟩
    obtain hmem | rfl := Entity.mem_or_eq_of_field? hfield
    · obtain ⟨rfl, rfl | rfl | rfl⟩ := mem_items (mem_of_find?_eq_some hfound) hmem <;> cases htype
    · cases htype
  refine ⟨fun entity h => ?_, fun entity h => ?_,
    fun entity field relation h => absurd h (hlinkless entity field relation),
    fun entity field relation h => absurd h (hlinkless entity field relation)⟩
  · obtain rfl := hentity entity h
    exact forall_mem_cons.2 ⟨⟨whole, mem_cons_self .., rowOf_whole⟩,
      forall_mem_singleton.2 ⟨part, mem_cons_of_mem _ (mem_cons_self ..), rowOf_part⟩⟩
  · obtain rfl := hentity entity h
    exact forall_mem_cons.2 ⟨⟨_, mem_cons_self .., rowOf_whole⟩,
      forall_mem_singleton.2 ⟨_, mem_cons_of_mem _ (mem_cons_self ..), rowOf_part⟩⟩

theorem parts_isRegular : parts.Hookless ∧ parts.SqlHookless ∧ parts.InversesAreLinks ∧
    parts.UniqueIds ∧ parts.LinksAreIds := by
  obtain ⟨hhooks, hsql, hinverses, -⟩ := items_isRegular
  refine ⟨hhooks, hsql, hinverses, ?_, ?_⟩
  · intro entity hentity
    obtain rfl := mem_singleton.1 hentity
    decide
  · intro entity field hentity hfield htype record hrecord json hjson
    obtain hmem | rfl := Entity.mem_or_eq_of_field? hfield
    · obtain ⟨rfl, rfl | rfl | rfl⟩ := mem_items (mem_of_find?_eq_some hentity) hmem
      · cases htype
      · obtain rfl | hrecord := mem_cons.1 hrecord
        · cases hjson
        · obtain rfl := mem_singleton.1 hrecord
          cases hjson
          exact .inr ⟨1, rfl⟩
      · cases htype
    · cases htype

def partBelowFive : Domain :=
  .condition ⟨"l", .any, .domain (.leaf "n" .less (.scalar (.int 5))), some ⟨"i", .sql⟩⟩

theorem partBelowFive_isComparable :
    partBelowFive.EachCondition parts Condition.IsComparable item := by
  refine .condition ⟨nofun, ?_, nofun, nofun⟩ fun inner target hoperand _ htarget => ?_
  · intro field hfield
    cases hfield
    exact ⟨nofun, nofun⟩
  · cases hoperand
    cases htarget
    refine .condition ⟨nofun, ?_, ?_, nofun⟩ nofun
    · intro field hfield
      cases hfield
      exact ⟨nofun, nofun⟩
    · intro _ field hfield
      cases hfield
      rfl

theorem optimize_partBelowFive : (standard.optimizeWithin 3 parts .sql item
    (.leaf "l" .any (.domain (.leaf "n" .less (.scalar (.int 5)))))).result =
    .ok ⟨partBelowFive, "i", .sql⟩ := by
  cbv

/-- The item 1 has such a part, in memory and in the tables; the item 2 has none. -/
theorem toStatement_agrees_parts :
    let d : Domain := .leaf "l" .any (.domain (.leaf "n" .less (.scalar (.int 5))))
    ∃ r, (standard.optimizeWithin 3 parts .sql item d).result = .ok r ∧
      ∃ statement, (r.toStatement parts .postgres none).result = .ok statement ∧
        ∃ p : Predicate, statement = .ofPieces .postgres (p.pieces .postgres) ∧
          ∀ scope : Scope, (p.eval partRows (scope.bind "i" whole) == some true) = true ∧
            (p.eval partRows (scope.bind "i" part) == some true) = false := by
  intro d
  obtain ⟨hhooks, hsql, hinverses, hids, hlinks⟩ := parts_isRegular
  have hfresh : partBelowFive.KeepsAlias .postgres parts item (none.getD item.table) := by
    intro p used h
    cases h
    decide
  have hstatement : ∃ statement, (OptimizedDomain.toStatement ⟨partBelowFive, "i", .sql⟩ parts
      .postgres none).result = .ok statement := ⟨_, rfl⟩
  obtain ⟨statement, hstatement⟩ := hstatement
  obtain ⟨p, hp, -, hagrees⟩ := toStatement_agrees hhooks hsql hids hlinks hinverses
    storedIn_partRows rfl rfl optimize_partBelowFive partBelowFive_isComparable hstatement hfresh
  refine ⟨_, optimize_partBelowFive, statement, hstatement, p, hp, fun scope => ⟨?_, ?_⟩⟩
  · have hholds := hagrees scope _ (mem_cons_self ..) whole rowOf_whole
    exact (Except.ok.inj hholds).symm
  · have hholds := hagrees scope _ (mem_cons_of_mem _ (mem_cons_self ..)) part rowOf_part
    exact (Except.ok.inj hholds).symm

/-- The statement for the rows called `row` is as little true on the row `found` as the domain does not
hold of the record in it, or the other way round. -/
def Disagrees (catalog : Catalog) (db : Database) (entity : Entity) (d : Domain) (row : String)
    (record : Record) (found : Row) : Prop :=
  ∃ r, (standard.optimizeWithin 3 catalog .sql entity d).result = .ok r ∧
    r.domain.EachCondition catalog Condition.IsComparable entity ∧
    ∃ p used, (Lowering.domain .postgres catalog r.domain entity row).run 0 = .ok (p, used) ∧
      (r.toStatement catalog .postgres (some row)).result =
        .ok (.ofPieces .postgres (p.pieces .postgres)) ∧
      ∃ b, catalog.holds r.domain entity record = .ok b ∧
        ∀ scope : Scope, (p.eval db (scope.bind row found) == some true) = !b

/-- Boxes `a` with weights `b`, which point back at their box by a number that is a float. -/
def box : Entity := { name := "a", fields := [.one2many "l" "b" "x"] }

def weight : Entity := { name := "b", fields := [{ name := "x", type := .float }] }

def boxes : Catalog where
  entities := [box, weight]
  tables := [("a", [[("id", .integer 1)]]), ("b", [[("id", .integer 1), ("x", .float (.ofInt 1))]])]

def boxRow : Row := fun column => if column = "id" then .int 1 else .null

def weightRow : Row := fun column =>
  if column = "id" then .int 1 else if column = "x" then .float (.ofInt 1) else .null

def boxRows : Database where
  rows table := if table = "a" then [boxRow] else if table = "b" then [weightRow] else []

theorem boxes_cases {entity : Entity} (h : boxes.entity? entity.name = some entity) :
    entity = box ∨ entity = weight := by
  simpa [boxes] using mem_of_find?_eq_some h

theorem boxes_fields {entity : Entity} {field : Field}
    (h : boxes.entity? entity.name = some entity) (hfield : entity.field? field.name = some field) :
    field = .one2many "l" "b" "x" ∨ field = { name := "x", type := .float } ∨
      field = Entity.idField := by
  obtain hmem | rfl := Entity.mem_or_eq_of_field? hfield
  · obtain rfl | rfl := boxes_cases h
    · exact .inl (mem_singleton.1 hmem)
    · exact .inr (.inl (mem_singleton.1 hmem))
  · exact .inr (.inr rfl)

theorem storedIn_boxRows : boxes.StoredIn boxRows := by
  have hbox : box.RowOf [("id", .integer 1)] boxRow := by
    refine ⟨⟨1, by decide, rfl⟩, fun field hfield _ hmany => ?_⟩
    obtain hmem | rfl := Entity.mem_or_eq_of_field? hfield
    · obtain rfl := mem_singleton.1 hmem
      cases hmany
    · rfl
  have hweight : weight.RowOf [("id", .integer 1), ("x", .float (.ofInt 1))] weightRow := by
    refine ⟨⟨1, by decide, rfl⟩, fun field hfield _ hmany => ?_⟩
    obtain hmem | rfl := Entity.mem_or_eq_of_field? hfield
    · obtain rfl := mem_singleton.1 hmem
      rfl
    · rfl
  have hlinkless : ∀ entity field relation, ¬boxes.IsLinkTable entity field relation := by
    rintro entity field relation ⟨hfound, hfield, htype, -⟩
    obtain rfl | rfl | rfl := boxes_fields hfound hfield <;> cases htype
  refine ⟨fun entity h => ?_, fun entity h => ?_,
    fun entity field relation h => absurd h (hlinkless entity field relation),
    fun entity field relation h => absurd h (hlinkless entity field relation)⟩
  · obtain rfl | rfl := boxes_cases h
    · exact forall_mem_singleton.2 ⟨boxRow, mem_singleton.2 rfl, hbox⟩
    · exact forall_mem_singleton.2 ⟨weightRow, mem_singleton.2 rfl, hweight⟩
  · obtain rfl | rfl := boxes_cases h
    · exact forall_mem_singleton.2 ⟨_, mem_singleton.2 rfl, hbox⟩
    · exact forall_mem_singleton.2 ⟨_, mem_singleton.2 rfl, hweight⟩

theorem boxes_isRegular :
    boxes.Hookless ∧ boxes.SqlHookless ∧ boxes.UniqueIds ∧ boxes.LinksAreIds := by
  have hentities : ∀ entity ∈ boxes.entities, entity = box ∨ entity = weight := by simp [boxes]
  refine ⟨?_, ?_, ?_, ?_⟩
  · intro entity hentity field hfield
    obtain rfl | rfl := hentities entity hentity <;> obtain rfl := mem_singleton.1 hfield <;> rfl
  · intro entity hentity field hfield
    obtain rfl | rfl := hentities entity hentity <;> obtain rfl := mem_singleton.1 hfield <;> rfl
  · intro entity hentity
    obtain rfl | rfl := hentities entity hentity <;> decide
  · intro entity field hentity hfield htype
    obtain rfl | rfl | rfl := boxes_fields hentity hfield <;> cases htype

/-- Called by the alias of a sub-select, an item is hidden: the part is looked for among its own parts.
And a float equals an identifier in SQL, but is none in memory. -/
theorem toStatement_disagrees :
    ((parts.Hookless ∧ parts.SqlHookless ∧ parts.InversesAreLinks ∧ parts.UniqueIds ∧
        parts.LinksAreIds) ∧ parts.StoredIn partRows ∧ item.RowOf [("id", .integer 1)] whole ∧
      Disagrees parts partRows item
        (.leaf "l" .any (.domain (.leaf "n" .less (.scalar (.int 5))))) "i__1"
        [("id", .integer 1)] whole) ∧
    ((boxes.Hookless ∧ boxes.SqlHookless ∧ boxes.UniqueIds ∧ boxes.LinksAreIds) ∧
      boxes.StoredIn boxRows ∧ box.RowOf [("id", .integer 1)] boxRow ∧
      Disagrees boxes boxRows box (.leaf "l" .any (.domain (.constant true))) "a"
        [("id", .integer 1)] boxRow) := by
  refine ⟨⟨parts_isRegular, storedIn_partRows, rowOf_whole, ?_⟩,
    boxes_isRegular, storedIn_boxRows, ?_, ?_⟩
  · exact ⟨_, optimize_partBelowFive, partBelowFive_isComparable, _, _, rfl, rfl, true, rfl,
      fun _ => rfl⟩
  · obtain ⟨record, hrecord, hrowOf⟩ := storedIn_boxRows.row box rfl boxRow (mem_singleton.2 rfl)
    obtain rfl := mem_singleton.1 hrecord
    exact hrowOf
  · have hrun : ∀ tables, (standard.optimizeWithin 3 ⟨[box, weight], tables⟩ .sql box
        (.leaf "l" .any (.domain (.constant true)))).result =
        .ok ⟨.condition ⟨"l", .any, .domain (.constant true), some ⟨"a", .sql⟩⟩, "a", .sql⟩ := by
      intro tables
      cbv
    refine ⟨_, hrun _, ?_, _, _, rfl, rfl, false, rfl, fun _ => rfl⟩
    refine .condition ⟨by simp, ?_, by rintro ⟨⟩, by rintro ⟨⟩⟩ fun inner target hoperand _ _ => ?_
    · intro field hfield
      cases hfield
      exact ⟨by rintro ⟨⟩, by rintro ⟨⟩⟩
    · cases hoperand
      exact .constant true target

end Optimizer

end QueryDomain
