import QueryDomain.Proofs.Optimization.Exact
import QueryDomain.Proofs.Optimization.FixedPoint

/-! What merging makes of settled children: domains put together from settled parts. A membership in
members of settled ones is settled itself, unless it is in the empty set; a traversal is settled up
to the domain inside. -/
namespace QueryDomain

open List

theorem Pass.eq_true_of_kept {ctx : Context} {c : Condition} {values : ValueSet}
    (hboolean : (booleanMembers c ctx).result = .ok none)
    (hboth : (bothBooleans c ctx).result = .ok none) (hop : c.operator.isMembership = true)
    (hoperand : c.operand = .set values) : ∀ v ∈ values.values, v = .bool true := by
  obtain ⟨hkinds, hdistinct, hfalse⟩ := booleanMembers_eq_none.1 hboolean values hoperand hop
  have hnot := bothBooleans_eq_none.1 hboth values hoperand
  rw [hop, Bool.true_and] at hnot
  have hcontains : ∀ b, Value.bool b ∈ values.values → values.contains (.bool b) = true :=
    fun b hb => ValueSet.contains_eq_true.2 ⟨_, hb, rfl⟩
  intro v hv
  cases v with
  | bool b =>
    cases b with
    | true => rfl
    | false =>
      -- Then there is no `true`, and the set is that of `false` alone.
      exfalso
      rw [hcontains false hv, Bool.and_true] at hnot
      have hall : ∀ w ∈ values.values, w = .bool false := by
        intro w hw
        have hkind := hkinds w hw
        cases w with
        | bool b' =>
          cases b' with
          | false => rfl
          | true => rw [hcontains true hw] at hnot; cases hnot
        | _ => cases hkind
      have hsome : values.isEmpty = false := by
        rw [ValueSet.isEmpty, isEmpty_eq_false_iff]
        exact ne_nil_of_mem hv
      rw [ValueSet.eq_singleton hsome hdistinct hall] at hfalse
      cases hfalse
  | _ => cases hkinds _ hv

namespace Condition

variable {catalog : Catalog} {entity : Entity} {c : Condition}

def IsMemberOn (catalog : Catalog) (entity : Entity) (path : String) (v : Value) : Prop :=
  ∃ (c : Condition) (values : ValueSet), c.Kept catalog .search entity ∧ c.path = path ∧
    c.operator.isMembership = true ∧ c.operand = .set values ∧ v ∈ values.values

theorem covers_membership {op op' : Operator} {type : Option FieldType}
    (hop : op.isMembership = true) (hop' : op'.isMembership = true) :
    ∀ entry ∈ Registry.standard.passes, entry.scope.covers op type = true →
      entry.scope.covers op' type = true := by
  intro entry hentry
  cases Registry.isStandard_of_mem hentry
  all_goals
    cases op <;> cases hop
    all_goals
      cases op' <;> cases hop' <;> exact fun h => h

theorem IsMemberOn.eq_true {path : String} {v : Value} (h : IsMemberOn catalog entity path v)
    (htype : entity.headType? path = some .boolean) : v = .bool true := by
  obtain ⟨c, values, hkept, rfl, hop, hoperand, hv⟩ := h
  have hcovers := (@PassScope.covers_type .boolean c.operator _).2 htype
  have hmembers : (Pass.booleanMembers c (.still catalog .search entity)).result = .ok none :=
    hkept _ PassEntry.IsStandard.booleanMembers.mem rfl hcovers
  have hboth : (Pass.bothBooleans c (.still catalog .search entity)).result = .ok none :=
    hkept _ PassEntry.IsStandard.bothBooleans.mem rfl hcovers
  exact Pass.eq_true_of_kept hmembers hboth hop hoperand v hv

structure HasMembers (c : Condition) (values : ValueSet) : Prop where
  operator : c.operator.isMembership = true
  operand : c.operand = .set values
  isEmpty : values.isEmpty = false
  distinct : values.IsDistinct

theorem HasMembers.exists_mem {values : ValueSet} (h : c.HasMembers values) :
    ∃ v, v ∈ values.values := by
  have hsome := h.isEmpty
  rw [ValueSet.isEmpty, isEmpty_eq_false_iff] at hsome
  exact exists_mem_of_ne_nil _ hsome

end Condition

namespace Pass

section Members

variable {ctx : Context} {c c₀ : Condition} {values : ValueSet} {v : Value}

/-- The pass keeps a membership on the path that has the value among its members. -/
def KeepsMember (pass : Pass) (ctx : Context) (path : String) (v : Value) : Prop :=
  ∃ (c : Condition) (values : ValueSet), (pass c ctx).result = .ok none ∧ c.path = path ∧
    c.operator.isMembership = true ∧ c.operand = .set values ∧ v ∈ values.values

theorem field_of_path (hpath : c₀.path = c.path) {field : Field} (h : ctx.field c₀ = .ok field) :
    ctx.field c = .ok field := by
  rw [Context.field_eq_ok, Condition.head] at h ⊢
  rwa [← hpath]

theorem comparesLiterals_of_membership (hop : c.operator.isMembership = true) :
    comparesLiterals c = !c.isDotted := by
  rw [comparesLiterals, hop, Bool.or_true, Bool.and_true]

theorem ordersUnset_of_membership (hop : c.operator.isMembership = true) :
    ordersUnset c = false := by
  unfold ordersUnset
  obtain hop | hop := Operator.eq_of_isMembership hop <;> rw [hop] <;> rfl

variable (h : c.HasMembers values)

include h

theorem resolvePath_of_members
    (hkept : ∀ v ∈ values.values, KeepsMember resolvePath ctx c.path v) :
    (resolvePath c ctx).result = .ok none := by
  obtain ⟨v, hv⟩ := h.exists_mem
  obtain ⟨c₀, -, hpass, hpath, -⟩ := hkept v hv
  obtain ⟨field, hfield, hrest⟩ := resolvePath_eq_none.1 hpass
  refine resolvePath_eq_none.2 ⟨field, field_of_path hpath hfield, ?_⟩
  rwa [Condition.rest?, ← hpath]

theorem labels_of_members (hkept : ∀ v ∈ values.values, KeepsMember labels ctx c.path v) :
    (labels c ctx).result = .ok none := by
  obtain ⟨v, hv⟩ := h.exists_mem
  obtain ⟨c₁, -, hpass, hpath, -⟩ := hkept v hv
  obtain ⟨field, hfield, -⟩ := labels_eq_none.1 hpass
  have hfield := field_of_path hpath hfield
  refine labels_eq_none.2 ⟨field, hfield, ?_⟩
  cases hrelational : field.isRelational with
  | false => exact .inl rfl
  | true =>
    cases hdotted : c.isDotted with
    | true => exact .inr (.inl rfl)
    | false =>
      refine .inr (.inr ?_)
      rw [namesLabels, h.operand]
      simp only [h.operator, Bool.true_and, any_eq_false]
      intro v hv
      obtain ⟨c₀, values₀, hpass, hpath, hop₀, hoperand₀, hv⟩ := hkept v hv
      obtain ⟨field₀, hfield₀, hskip⟩ := labels_eq_none.1 hpass
      obtain rfl := Except.ok.inj (hfield.symm.trans (field_of_path hpath hfield₀))
      have hdotted₀ : c₀.isDotted = false := by rwa [Condition.isDotted, hpath]
      rw [hrelational, hdotted₀, namesLabels, hoperand₀] at hskip
      simp only [hop₀, Bool.true_and, Bool.true_eq_false, Bool.false_eq_true, false_or,
        any_eq_false] at hskip
      exact hskip v hv

theorem manyMembers_of_members
    (hkept : ∀ v ∈ values.values, KeepsMember manyMembers ctx c.path v) :
    (manyMembers c ctx).result = .ok none := by
  obtain ⟨v, hv⟩ := h.exists_mem
  obtain ⟨c₀, values₀, hpass, hpath, hop₀, hoperand₀, -⟩ := hkept v hv
  have hdotted := manyMembers_eq_none.1 hpass values₀ hoperand₀
  rw [hop₀, Bool.not_true, Bool.or_false] at hdotted
  refine manyMembers_eq_none.2 fun _ _ => ?_
  rw [h.operator, Bool.not_true, Bool.or_false]
  rwa [Condition.isDotted, ← hpath]

omit h in
theorem comparesLiterals_of_path (hop₀ : c₀.operator.isMembership = true)
    (hop : c.operator.isMembership = true) (hpath : c₀.path = c.path) :
    comparesLiterals c₀ = comparesLiterals c := by
  rw [comparesLiterals_of_membership hop₀, comparesLiterals_of_membership hop, Condition.isDotted,
    Condition.isDotted, hpath]

theorem literalsAre_of_members {pass : Pass} {kind : Value → Bool}
    (hkept : ∀ v ∈ values.values, KeepsMember pass ctx c.path v)
    (hcompares : comparesLiterals c = true)
    (hkind : ∀ c₀, comparesLiterals c₀ = true → (pass c₀ ctx).result = .ok none →
      c₀.operand.LiteralsAre kind) : c.operand.LiteralsAre kind := by
  rw [h.operand]
  refine ⟨fun v hv => ?_, h.distinct⟩
  obtain ⟨c₀, values₀, hpass, hpath, hop₀, hoperand₀, hv⟩ := hkept v hv
  have hliterals := hkind c₀ (comparesLiterals_of_path hop₀ h.operator hpath ▸ hcompares) hpass
  rw [hoperand₀] at hliterals
  exact hliterals.1 v hv

theorem dateLiterals_of_members
    (hkept : ∀ v ∈ values.values, KeepsMember dateLiterals ctx c.path v) :
    (dateLiterals c ctx).result = .ok none :=
  dateLiterals_eq_none.2 fun hcompares => ⟨ordersUnset_of_membership h.operator,
    literalsAre_of_members h hkept hcompares fun _ hcompares₀ hpass =>
      (dateLiterals_eq_none.1 hpass hcompares₀).2⟩

theorem datetimeLiterals_of_members
    (hkept : ∀ v ∈ values.values, KeepsMember datetimeLiterals ctx c.path v) :
    (datetimeLiterals c ctx).result = .ok none :=
  datetimeLiterals_eq_none.2 fun hcompares => ⟨ordersUnset_of_membership h.operator,
    literalsAre_of_members h hkept hcompares fun _ hcompares₀ hpass =>
      (datetimeLiterals_eq_none.1 hpass hcompares₀).2⟩

theorem numericLiterals_of_members
    (hkept : ∀ v ∈ values.values, KeepsMember numericLiterals ctx c.path v) :
    (numericLiterals c ctx).result = .ok none := by
  refine numericLiterals_eq_none.2 fun hcompares => ⟨?_, ordersUnset_of_membership h.operator, ?_⟩
  · obtain ⟨v, hv⟩ := h.exists_mem
    obtain ⟨c₀, -, hpass, hpath, hop₀, -⟩ := hkept v hv
    obtain ⟨⟨field, hfield⟩, -⟩ := numericLiterals_eq_none.1 hpass
      (comparesLiterals_of_path hop₀ h.operator hpath ▸ hcompares)
    exact ⟨field, field_of_path hpath hfield⟩
  · exact literalsAre_of_members h hkept hcompares fun _ hcompares₀ hpass =>
      (numericLiterals_eq_none.1 hpass hcompares₀).2.2

theorem attachmentExists_of_members
    (hkept : ∀ v ∈ values.values, KeepsMember attachmentExists ctx c.path v) :
    (attachmentExists c ctx).result = .ok none := by
  obtain ⟨v, hv⟩ := h.exists_mem
  obtain ⟨c₁, -, hpass, hpath, -⟩ := hkept v hv
  obtain ⟨field, hfield, -⟩ := attachmentExists_eq_none.1 hpass
  have hfield := field_of_path hpath hfield
  refine attachmentExists_eq_none.2 ⟨field, hfield, ?_⟩
  cases hattachment : field.attachment with
  | false => exact .inl rfl
  | true =>
    have hnull : ∀ v ∈ values.values, v = .null := by
      intro v hv
      obtain ⟨c₀, values₀, hpass, hpath, -, hoperand₀, hv⟩ := hkept v hv
      obtain ⟨field₀, hfield₀, hunset⟩ := attachmentExists_eq_none.1 hpass
      obtain rfl := Except.ok.inj (hfield.symm.trans (field_of_path hpath hfield₀))
      obtain hnone | ⟨values', hvalues', -, hsame⟩ := hunset
      · cases hnone.symm.trans hattachment
      · obtain rfl := Operand.set.inj (hoperand₀.symm.trans hvalues')
        exact ValueSet.eq_null_of_same hsame v hv
    have hsingle := ValueSet.eq_singleton h.isEmpty h.distinct hnull
    exact .inr ⟨_, hsingle ▸ h.operand, by rw [h.operator]; rfl, rfl⟩

theorem inheritedField_of_members
    (hkept : ∀ v ∈ values.values, KeepsMember inheritedField ctx c.path v) :
    (inheritedField c ctx).result = .ok none := by
  obtain ⟨v, hv⟩ := h.exists_mem
  obtain ⟨c₀, -, hpass, hpath, -⟩ := hkept v hv
  obtain ⟨field, hfield, hvia⟩ := inheritedField_eq_none.1 hpass
  exact inheritedField_eq_none.2 ⟨field, field_of_path hpath hfield, hvia⟩

theorem computedField_of_members
    (hkept : ∀ v ∈ values.values, KeepsMember computedField ctx c.path v) :
    (computedField c ctx).result = .ok none := by
  obtain ⟨v, hv⟩ := h.exists_mem
  obtain ⟨c₀, -, hpass, hpath, -⟩ := hkept v hv
  obtain ⟨field, hfield, hstored⟩ := computedField_eq_none.1 hpass
  exact computedField_eq_none.2 ⟨field, field_of_path hpath hfield, hstored⟩

variable (ctx)

theorem membershipOperand_of_members : (membershipOperand c ctx).result = .ok none :=
  membershipOperand_eq_none.2 ⟨values, h.operand, h.isEmpty⟩

theorem booleanMembers_of_true (htrue : ∀ v ∈ values.values, v = .bool true) :
    (booleanMembers c ctx).result = .ok none := by
  refine booleanMembers_eq_none.2 fun values' hoperand _ => ?_
  obtain rfl := Operand.set.inj (h.operand.symm.trans hoperand)
  refine ⟨fun v hv => by rw [htrue v hv]; rfl, h.distinct, ?_⟩
  rw [ValueSet.eq_singleton h.isEmpty h.distinct htrue]
  rfl

theorem bothBooleans_of_true (htrue : ∀ v ∈ values.values, v = .bool true) :
    (bothBooleans c ctx).result = .ok none := by
  refine bothBooleans_eq_none.2 fun values' hoperand => ?_
  obtain rfl := Operand.set.inj (h.operand.symm.trans hoperand)
  rw [ValueSet.eq_singleton h.isEmpty h.distinct htrue]
  exact Bool.and_false _

end Members

end Pass

namespace Condition

variable {catalog : Catalog} {entity : Entity} {c : Condition}

/-- A membership in members of sets that are kept on the path is kept too. -/
theorem Kept.of_members {values : ValueSet} (h : c.HasMembers values)
    (hmembers : ∀ v ∈ values.values, IsMemberOn catalog entity c.path v) :
    c.Kept catalog .search entity := by
  intro entry hentry hlevel hcovers
  have hkept : ∀ v ∈ values.values,
      Pass.KeepsMember entry.pass.run (.still catalog .search entity) c.path v := by
    intro v hv
    obtain ⟨c₀, values₀, hkept, hpath, hop₀, hoperand₀, hv⟩ := hmembers v hv
    refine ⟨c₀, values₀, hkept entry hentry hlevel ?_, hpath, hop₀, hoperand₀, hv⟩
    rw [hpath]
    exact covers_membership h.operator hop₀ entry hentry hcovers
  have htrue : entity.headType? c.path = some .boolean → ∀ v ∈ values.values, v = .bool true :=
    fun htype v hv => (hmembers v hv).eq_true htype
  have hother : ∀ ops, entry.scope = .operators ops → (∀ op ∈ ops, op.isMembership = false) →
      False := by
    intro ops hscope hops
    have hmem := PassScope.covers_operators.1 (hscope ▸ hcovers)
    cases (hops _ hmem).symm.trans h.operator
  cases Registry.isStandard_of_mem hentry with
  | resolvePath => exact Pass.resolvePath_of_members h hkept
  | deprecatedOperator | equalityToMembership | patternOperand | relatedDomain | hierarchy =>
    exact (hother _ rfl (by decide)).elim
  | membershipOperand => exact Pass.membershipOperand_of_members (.still catalog .search entity) h
  | labels => exact Pass.labels_of_members h hkept
  | manyMembers => exact Pass.manyMembers_of_members h hkept
  | booleanMembers =>
    exact Pass.booleanMembers_of_true (.still catalog .search entity) h
      (htrue (PassScope.covers_type.1 hcovers))
  | dateLiterals => exact Pass.dateLiterals_of_members h hkept
  | datetimeLiterals => exact Pass.datetimeLiterals_of_members h hkept
  | numericLiterals => exact Pass.numericLiterals_of_members h hkept
  | attachmentExists => exact Pass.attachmentExists_of_members h hkept
  | inheritedField => exact Pass.inheritedField_of_members h hkept
  | computedField => exact Pass.computedField_of_members h hkept
  | bothBooleans =>
    exact Pass.bothBooleans_of_true (.still catalog .search entity) h
      (htrue (PassScope.covers_type.1 hcovers))
  | sqlReady => cases hlevel

theorem Kept.unset_of_traversal (h : c.Kept catalog .search entity) {field : Field}
    (hfield : entity.field? (Text.cut '.' c.path).1 = some field) (htype : field.type = .many2one)
    {op : Operator} (hop : op.isMembership = true) :
    (⟨field.name, op, .set .unset, none⟩ : Condition).Kept catalog .search entity := by
  have hname : field.name = (Text.cut '.' c.path).1 := Entity.name_of_field? hfield
  have hrest : (Text.cut '.' field.name).2 = none := by rw [hname, Text.cut_cut_fst]
  have hhead : entity.field? (Text.cut '.' field.name).1 = some field := by
    rwa [hname, Text.cut_fst_of_none Text.cut_cut_fst]
  have hheadType : entity.headType? field.name = some .many2one := by
    rw [Entity.headType?, hhead, Option.map_some, htype]
  have hfieldOf : (Context.still catalog .search entity).field
      ⟨field.name, op, .set .unset, none⟩ = .ok field := Context.field_eq_ok.2 hhead
  have hops := Operator.eq_of_isMembership hop
  intro entry hentry hlevel hcovers
  have hkept := h entry hentry hlevel
  rw [hheadType] at hcovers
  cases Registry.isStandard_of_mem hentry
  all_goals dsimp only at hkept ⊢
  case resolvePath => exact Pass.resolvePath_eq_none.2 ⟨field, hfieldOf, .inl hrest⟩
  case deprecatedOperator | equalityToMembership | patternOperand | relatedDomain | hierarchy =>
    obtain rfl | rfl := hops <;> cases hcovers
  case membershipOperand => exact Pass.membershipOperand_eq_none.2 ⟨_, rfl, rfl⟩
  case labels => exact Pass.labels_eq_none.2 ⟨field, hfieldOf, .inr (.inr (Bool.and_false _))⟩
  case manyMembers | booleanMembers | dateLiterals | datetimeLiterals | numericLiterals |
      attachmentExists | bothBooleans =>
    cases hcovers
  case inheritedField =>
    obtain ⟨field', hfield', hvia⟩ := Pass.inheritedField_eq_none.1 (hkept rfl)
    rw [Context.field_eq_ok] at hfield'
    change entity.field? (Text.cut '.' c.path).1 = _ at hfield'
    rw [hfield, Option.some.injEq] at hfield'
    exact Pass.inheritedField_eq_none.2 ⟨field, hfieldOf, hfield' ▸ hvia⟩
  case computedField =>
    obtain ⟨field', hfield', hstored⟩ := Pass.computedField_eq_none.1 (hkept rfl)
    rw [Context.field_eq_ok] at hfield'
    change entity.field? (Text.cut '.' c.path).1 = _ at hfield'
    rw [hfield, Option.some.injEq] at hfield'
    exact Pass.computedField_eq_none.2 ⟨field, hfieldOf, hfield' ▸ hstored⟩
  case sqlReady => cases hlevel

theorem Kept.keeps_traversal {c₀ : Condition} (h : c₀.Kept catalog .search entity)
    (hop : c₀.operator.isTraversal = true) (hpath : c.path = c₀.path)
    (hoperator : c.operator = c₀.operator) {inner : Domain} (hoperand : c.operand = .domain inner)
    {ctx : Context} (hctx : ctx.catalog = catalog ∧ ctx.entity = entity) {entry : PassEntry}
    (hentry : entry ∈ Registry.standard.passes) (hlevel : entry.level.le .search = true)
    (hcovers : entry.scope.covers c.operator (entity.headType? c.path) = true) :
    entry.pass.run = Pass.relatedDomain ∨ (entry.pass.run c ctx).result = .ok none := by
  obtain ⟨rfl, rfl⟩ := hctx
  have hkept := h entry hentry hlevel (by rwa [← hpath, ← hoperator])
  have hfields : ∀ field, (Context.still ctx.catalog .search ctx.entity).field c₀ = .ok field →
      ctx.field c = .ok field := by
    intro field hfield
    rw [Context.field_eq_ok, head] at hfield ⊢
    rwa [hpath]
  have hops : c.operator = .any ∨ c.operator = .notAny := by
    rw [hoperator]
    cases hop₀ : c₀.operator <;> rw [hop₀] at hop <;> simp_all [Operator.isTraversal]
  have hcompares : Pass.comparesLiterals c = false := by
    unfold Pass.comparesLiterals
    obtain hop | hop := hops <;> rw [hop] <;> exact Bool.and_false _
  cases Registry.isStandard_of_mem hentry
  all_goals dsimp only at hkept ⊢
  case resolvePath =>
    obtain ⟨field, hfield, hrest⟩ := Pass.resolvePath_eq_none.1 hkept
    refine .inr (Pass.resolvePath_eq_none.2 ⟨field, hfields field hfield, ?_⟩)
    rwa [rest?, hpath]
  case deprecatedOperator | equalityToMembership | membershipOperand | patternOperand | labels |
      hierarchy =>
    obtain hop | hop := hops <;> rw [hop] at hcovers <;> cases hcovers
  case relatedDomain => exact .inl rfl
  case manyMembers =>
    exact .inr (Pass.manyMembers_eq_none.2 fun _ h => by rw [hoperand] at h; cases h)
  case booleanMembers =>
    exact .inr (Pass.booleanMembers_eq_none.2 fun _ h => by rw [hoperand] at h; cases h)
  case dateLiterals =>
    exact .inr (Pass.dateLiterals_eq_none.2 fun h => by rw [hcompares] at h; cases h)
  case datetimeLiterals =>
    exact .inr (Pass.datetimeLiterals_eq_none.2 fun h => by rw [hcompares] at h; cases h)
  case numericLiterals =>
    exact .inr (Pass.numericLiterals_eq_none.2 fun h => by rw [hcompares] at h; cases h)
  case attachmentExists =>
    obtain ⟨field, hfield, hattachment⟩ := Pass.attachmentExists_eq_none.1 hkept
    refine .inr (Pass.attachmentExists_eq_none.2 ⟨field, hfields field hfield, .inl ?_⟩)
    obtain hattachment | ⟨_, _, hmember, _⟩ := hattachment
    · exact hattachment
    · rw [← hoperator] at hmember
      obtain hop | hop := hops <;> rw [hop] at hmember <;> cases hmember
  case inheritedField =>
    obtain ⟨field, hfield, hvia⟩ := Pass.inheritedField_eq_none.1 hkept
    exact .inr (Pass.inheritedField_eq_none.2 ⟨field, hfields field hfield, hvia⟩)
  case computedField =>
    obtain ⟨field, hfield, hstored⟩ := Pass.computedField_eq_none.1 hkept
    exact .inr (Pass.computedField_eq_none.2 ⟨field, hfields field hfield, hstored⟩)
  case bothBooleans =>
    exact .inr (Pass.bothBooleans_eq_none.2 fun _ h => by rw [hoperand] at h; cases h)
  case sqlReady => cases hlevel

end Condition

namespace Merge.Membership

variable {k : Connective}

/-- Both kinds of sets have been met, or what has been joined is distinct. -/
def IsSettled (m : Membership) : Prop :=
  (m.included.isSome = true ∧ m.excluded.isSome = true) ∨
    (∀ s, m.included = some s → s.IsDistinct) ∧ ∀ s, m.excluded = some s → s.IsDistinct

def IsStarted (m : Membership) : Prop := m.included.isSome = true ∨ m.excluded.isSome = true

theorem isStarted_add (m : Membership) {c : Condition} {values : ValueSet}
    (hoperand : c.operand = .set values) : (m.add k (.condition c)).IsStarted := by
  obtain ⟨path, operator, operand, mark⟩ := c
  cases hoperand
  unfold add
  dsimp only
  split
  · exact .inl rfl
  · exact .inr rfl

theorem isSettled_add {m : Membership} (h : m.IsStarted) {c : Condition} {values : ValueSet}
    (hoperand : c.operand = .set values) : (m.add k (.condition c)).IsSettled := by
  obtain ⟨path, operator, operand, mark⟩ := c
  cases hoperand
  obtain ⟨included, excluded, path', others⟩ := m
  unfold add
  dsimp only
  split
  · cases excluded with
    | some excluded => exact .inl ⟨rfl, rfl⟩
    | none =>
      obtain h | h := h
      · obtain ⟨acc, rfl⟩ := Option.isSome_iff_exists.1 h
        refine .inr ⟨fun s hs => ?_, nofun⟩
        cases hs
        exact isDistinct_join true acc values
      · cases h
  · cases included with
    | some included => exact .inl ⟨rfl, rfl⟩
    | none =>
      obtain h | h := h
      · cases h
      · obtain ⟨acc, rfl⟩ := Option.isSome_iff_exists.1 h
        refine .inr ⟨nofun, fun s hs => ?_⟩
        cases hs
        exact isDistinct_join false acc values

theorem isSettled_foldl {m : Membership} (h : m.IsStarted) {run : List Domain}
    (hsets : ∀ d ∈ run, HasSet d) (hsome : run ≠ []) : (run.foldl (add k) m).IsSettled := by
  induction run generalizing m with
  | nil => exact absurd rfl hsome
  | cons d ds ih =>
    rw [forall_mem_cons] at hsets
    obtain ⟨c, values, rfl, hoperand⟩ := hsets.1
    rw [foldl_cons]
    cases ds with
    | nil => exact isSettled_add h hoperand
    | cons e es => exact ih (isStarted_add m hoperand) hsets.2 nofun

theorem IsSettled.condition? {m : Membership} (h : m.IsSettled) {path : String}
    {operator : Operator} {values : ValueSet}
    (hd : m.condition? k = some (.leaf path operator (.set values))) : values.IsDistinct := by
  obtain ⟨p, -, hd⟩ := Option.bind_eq_some_iff.1 hd
  split at hd
  · rename_i included hincluded hexcluded
    cases hd
    obtain ⟨-, hsome⟩ | ⟨hdistinct, -⟩ := h
    · rw [hexcluded] at hsome
      cases hsome
    · exact hdistinct _ hincluded
  · rename_i excluded hincluded hexcluded
    cases hd
    obtain ⟨hsome, -⟩ | ⟨-, hdistinct⟩ := h
    · rw [hincluded] at hsome
      cases hsome
    · exact hdistinct _ hexcluded
  · split at hd <;> cases hd <;> exact ValueSet.isDistinct_ofList _
  · cases hd

end Merge.Membership

theorem Merge.isDistinct_joinSets {k : Connective} {run : List Domain}
    (hsets : ∀ d ∈ run, HasSet d) (hlong : 1 < run.length) {path : String} {operator : Operator}
    {values : ValueSet} (h : (run.foldl (Membership.add k) {}).condition? k =
      some (.leaf path operator (.set values))) : values.IsDistinct := by
  match run, hlong with
  | d :: e :: rest, _ =>
    rw [forall_mem_cons] at hsets
    obtain ⟨c, first, rfl, hoperand⟩ := hsets.1
    rw [foldl_cons] at h
    exact (Membership.isSettled_foldl (Membership.isStarted_add _ hoperand) hsets.2
      nofun).condition? h

namespace Domain

/-- Put together from settled parts. -/
inductive Assembled (catalog : Catalog) : Domain → Entity → Prop
  | settled {d entity} : Settled catalog .search d entity → Assembled catalog d entity
  /-- A membership in members of sets that are kept on the path. -/
  | members {c c₀ : Condition} {values entity} : c₀.Kept catalog .search entity →
      c.path = c₀.path → c.operator.isMembership = true → c.operand = .set values →
      values.IsDistinct →
      (∀ v ∈ values.values, Condition.IsMemberOn catalog entity c.path v) →
      Assembled catalog (.condition c) entity
  /-- A traversal that is kept but for the domain inside. -/
  | traversal {c c₀ : Condition} {inner entity} : c₀.Kept catalog .search entity →
      c₀.operator.isTraversal = true → c.path = c₀.path → c.operator = c₀.operator →
      c.operand = .domain inner →
      (∀ target, catalog.target? entity c.path = some target → Assembled catalog inner target) →
      Assembled catalog (.condition c) entity
  | nary {k children mark entity} : (∀ d ∈ children, Assembled catalog d entity) →
      Assembled catalog (.nary k children mark) entity

namespace Assembled

variable {catalog : Catalog} {entity : Entity} {k : Connective} {d : Domain}

theorem children (h : Assembled catalog d entity) :
    ∀ e ∈ d.children, Assembled catalog e entity := by
  cases h with
  | settled hsettled =>
    cases hsettled with
    | nary hchildren _ => exact fun e he => .settled (hchildren e he)
    | _ => nofun
  | nary hchildren => exact hchildren
  | _ => nofun

theorem apply {ds : List Domain} (h : ∀ d ∈ ds, Assembled catalog d entity) :
    Assembled catalog (k.apply ds) entity := by
  unfold Connective.apply
  split
  · exact .settled (.constant _ _)
  · rename_i collected hcollected
    have hall : ∀ d ∈ collected, Assembled catalog d entity := by
      intro d hd
      obtain ⟨hmem, -⟩ | ⟨grandchildren, mark, hmem, hd⟩ := Connective.mem_collect? hcollected hd
      · exact h d hmem
      · exact (h _ hmem).children d hd
    unfold Connective.node
    split
    · exact .settled (.constant _ _)
    · exact hall _ (mem_singleton.2 rfl)
    · exact .nary hall

theorem members_settled {c : Condition} {values : ValueSet}
    (hop : c.operator.isMembership = true) (hoperand : c.operand = .set values)
    (hdistinct : values.IsDistinct)
    (hmembers : ∀ v ∈ values.values, Condition.IsMemberOn catalog entity c.path v)
    (hsome : values.isEmpty = false) : Settled catalog .search (.condition c) entity := by
  refine .condition (.of_members ⟨hop, hoperand, hsome, hdistinct⟩ hmembers) fun _ _ hinner => ?_
  rw [hoperand] at hinner
  cases hinner

end Assembled

end Domain

namespace Optimizer

open Domain

variable {catalog : Catalog} {entity : Entity} {k : Connective}

theorem assembled_mergeAll {children : List Domain}
    (h : ∀ d ∈ children, Settled catalog .search d entity) :
    ∀ d ∈ mergeAll k entity children, Assembled catalog d entity := by
  have hdistinct : ∀ d ∈ Merge.distinct [] children, Settled catalog .search d entity :=
    fun d hd => h d ((Merge.distinct_sublist [] children).mem hd)
  have hsets : ∀ d ∈ replaceRuns (isMerged setScope entity) (Merge.joinSets k)
      (runsBy setScope.runKey? (Merge.distinct [] children)),
      Settled catalog .search d entity ∨ (Assembled catalog d entity ∧
        ∀ c, d = .condition c → c.operator.isTraversal = false) := by
    refine forall_mem_runs (fun d hd => .inl (hdistinct d hd)) fun path run hrun hlong d hd => ?_
    have hkept : ∀ c, .condition c ∈ run → c.Kept catalog .search entity ∧ c.path = path ∧
        c.operator.isMembership = true ∧ ∃ values, c.operand = .set values := by
      intro c hc
      obtain ⟨hmem, hkey⟩ := hrun _ hc
      obtain ⟨c', hc', hpath, hop⟩ := setScope_key hkey
      cases hc'
      cases hdistinct _ hmem with
      | condition hkept _ =>
        obtain ⟨values, hvalues, -⟩ := hkept.membership hop
        exact ⟨hkept, hpath, hop, values, hvalues⟩
    have hconditions : ∀ d ∈ run, Merge.HasSet d := by
      intro d hd
      obtain ⟨c, rfl, -, -⟩ := setScope_key (hrun d hd).2
      obtain ⟨-, -, -, values, hvalues⟩ := hkept c hd
      exact ⟨c, values, rfl, hvalues⟩
    obtain hd | hd := Merge.mem_joinSets hd
    · exact .inl (hdistinct d (hrun d hd).1)
    · have hwithin : Merge.Membership.Within path (Condition.IsMemberOn catalog entity path)
          (run.foldl (Merge.Membership.add k) {}) := by
        refine Merge.Membership.within_empty.foldl (fun c hc => (hkept c hc).2.1)
          fun c values hc hvalues v hv => ?_
        obtain ⟨hc, hpath, hop, -⟩ := hkept c hc
        exact ⟨c, values, hc, hpath, hop, hvalues, hv⟩
      obtain ⟨operator, values, hop, rfl, hvalues⟩ := hwithin.condition?_eq_some hd
      obtain ⟨first, hfirst⟩ := exists_mem_of_length_pos (by omega : 0 < run.length)
      obtain ⟨c₀, rfl, -, -⟩ := setScope_key (hrun first hfirst).2
      obtain ⟨hc₀, hpath, -⟩ := hkept c₀ hfirst
      refine .inr ⟨.members hc₀ hpath.symm hop rfl
        (Merge.isDistinct_joinSets hconditions hlong hd) hvalues, fun c hc => ?_⟩
      cases hc
      cases operator <;> first
        | rfl
        | cases hop
  refine forall_mem_runs (fun d hd => (hsets d hd).elim .settled (·.1))
    fun path run hrun _ d hd => ?_
  -- What has been made of memberships is no traversal.
  have hkept : ∀ c, .condition c ∈ run → c.path = path ∧ c.operator.isTraversal = true ∧
      Settled catalog .search (.condition c) entity := by
    intro c hc
    obtain ⟨hmem, hkey⟩ := hrun _ hc
    obtain ⟨c', hc', hpath, hop⟩ := anyScope_key hkey
    cases hc'
    obtain hsettled | ⟨-, hno⟩ := hsets _ hmem
    · exact ⟨hpath, hop, hsettled⟩
    · rw [hno c rfl] at hop
      cases hop
  obtain hd | ⟨c, hc, -, rfl⟩ := Merge.mem_joinAnys hd
  · exact (hsets d (hrun d hd).1).elim .settled (·.1)
  · obtain ⟨hpath, hop, hsettled⟩ := hkept c hc
    have hinners : ∀ target, catalog.target? entity path = some target →
        ∀ inner ∈ run.filterMap (Merge.inner? c.operator), Assembled catalog inner target := by
      intro target htarget inner hinner
      obtain ⟨c', hc', -, hoperand⟩ := Merge.mem_inners hinner
      obtain ⟨hpath', hop', hsettled'⟩ := hkept c' hc'
      cases hsettled' with
      | condition _ hinners =>
        rw [← hpath'] at htarget
        exact .settled (hinners inner target hoperand hop' htarget)
    cases hsettled with
    | condition hc₀ _ =>
      refine .traversal hc₀ hop rfl rfl rfl fun target htarget => ?_
      change catalog.target? entity c.path = some target at htarget
      rw [hpath] at htarget
      unfold Merge.joinedInner
      split <;> exact .apply (hinners target htarget)

end Optimizer

end QueryDomain
