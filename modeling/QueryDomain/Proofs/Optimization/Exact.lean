import QueryDomain.Proofs.Records.Truth
import QueryDomain.Proofs.Schema.Regular

/-! Domains whose literals are compared exactly: there are no floats among them, and no text that
would have to be read as a number. In a catalog where a field means the same wherever it is reached
from, optimizing keeps domains so. -/
namespace QueryDomain

open List

def Operand.literals : Operand → List Value
  | .scalar value => [value]
  | .set values => values.values
  | .domain _ | .query _ => []

def Value.isPlain : Value → Bool
  | .float _ | .text _ => false
  | _ => true

/-- No literal is a float, and none but a pattern is text on a number. -/
structure Condition.IsExact (catalog : Catalog) (entity : Entity) (c : Condition) : Prop where
  noFloat : ∀ v ∈ c.operand.literals, v.isFloat = false
  noText : ∀ last field, catalog.Reaches entity c.path last field →
    field.type.isNumeric = true → c.operator.isPattern = false →
    ∀ v ∈ c.operand.literals, Pass.isLabel v = false

/-- All conditions are exact, those inside operands for the entity that is led to. -/
inductive Domain.IsExact (catalog : Catalog) : Domain → Entity → Prop
  | constant (v entity) : IsExact catalog (.constant v) entity
  | negation {inner entity} : IsExact catalog inner entity →
      IsExact catalog (.negation inner) entity
  | nary {k children mark entity} : (∀ d ∈ children, IsExact catalog d entity) →
      IsExact catalog (.nary k children mark) entity
  | condition {c entity} : c.IsExact catalog entity →
      (∀ inner target, c.operand = .domain inner → catalog.Leads entity c.path target →
        IsExact catalog inner target) →
      IsExact catalog (.condition c) entity

namespace Domain.IsExact

variable {catalog : Catalog} {entity : Entity} {k : Connective} {c c' : Condition} {d : Domain}

theorem children (h : IsExact catalog d entity) : ∀ e ∈ d.children, IsExact catalog e entity := by
  cases h with
  | nary hchildren => exact hchildren
  | _ => nofun

theorem of_condition (h : IsExact catalog (.condition c) entity) : c.IsExact catalog entity := by
  cases h with
  | condition hc _ => exact hc

theorem inner (h : IsExact catalog (.condition c) entity) {inner : Domain} {target : Entity}
    (hoperand : c.operand = .domain inner) (hleads : catalog.Leads entity c.path target) :
    IsExact catalog inner target := by
  cases h with
  | condition _ hinner => exact hinner inner target hoperand hleads

theorem withMark (h : IsExact catalog d entity) (mark : Mark) :
    IsExact catalog (d.withMark mark) entity := by
  cases h with
  | constant v entity => exact .constant v entity
  | negation h => exact .negation h
  | nary h => exact .nary h
  | condition hc hinner => exact .condition ⟨hc.noFloat, hc.noText⟩ hinner

theorem of_literals (h : IsExact catalog (.condition c) entity) (hpath : c'.path = c.path)
    (hop : c'.operator.isPattern = false → c.operator.isPattern = false)
    (hliterals : ∀ v ∈ c'.operand.literals, v ∈ c.operand.literals ∨ v.isPlain = true)
    (hinner : ∀ inner, c'.operand = .domain inner → c.operand = .domain inner) :
    IsExact catalog (.condition c') entity := by
  refine .condition ⟨fun v hv => ?_, fun last field hreaches hnumeric hpattern v hv => ?_⟩
    fun inner target hoperand hleads => ?_
  · obtain hv | hv := hliterals v hv
    · exact h.of_condition.noFloat v hv
    · cases v <;> simp_all [Value.isPlain, Value.isFloat]
  · obtain hv | hv := hliterals v hv
    · exact h.of_condition.noText last field (hpath ▸ hreaches) hnumeric (hop hpattern) v hv
    · cases v <;> simp_all [Value.isPlain, Pass.isLabel]
  · exact h.inner (hinner inner hoperand) (hpath ▸ hleads)

theorem leaf_of_plain {path : String} {operator : Operator} {x : Operand}
    (hx : ∀ d, x ≠ .domain d) (h : ∀ v ∈ x.literals, v.isPlain = true) :
    IsExact catalog (.leaf path operator x) entity := by
  refine .condition ⟨fun v hv => ?_, fun _ _ _ _ _ v hv => ?_⟩ fun inner _ hoperand _ => ?_
  · have := h v hv
    cases v <;> simp_all [Value.isPlain, Value.isFloat]
  · have := h v hv
    cases v <;> simp_all [Value.isPlain, Pass.isLabel]
  · exact absurd hoperand (hx inner)

theorem leaf_set {path : String} {operator : Operator} {values : ValueSet}
    (h : ∀ v ∈ values.values, v.isPlain = true) :
    IsExact catalog (.leaf path operator (.set values)) entity :=
  leaf_of_plain nofun h

theorem leaf_scalar {path : String} {operator : Operator} {value : Value}
    (h : value.isPlain = true) :
    IsExact catalog (.leaf path operator (.scalar value)) entity :=
  leaf_of_plain nofun fun _ hv => mem_singleton.1 hv ▸ h

theorem traversal {field : String} {operator : Operator} {inner : Domain}
    (h : ∀ target, catalog.Leads entity field target → IsExact catalog inner target) :
    IsExact catalog (Pass.traversal field operator inner) entity := by
  refine .condition ⟨fun v hv => (not_mem_nil hv).elim,
    fun _ _ _ _ _ v hv => (not_mem_nil hv).elim⟩ fun inner' target hoperand hleads => ?_
  cases hoperand
  exact h target hleads

theorem apply {ds : List Domain} (h : ∀ d ∈ ds, IsExact catalog d entity) :
    IsExact catalog (k.apply ds) entity := by
  unfold Connective.apply
  split
  · exact .constant _ _
  · rename_i collected hcollected
    have hall : ∀ d ∈ collected, IsExact catalog d entity := by
      intro d hd
      obtain ⟨hmem, -⟩ | ⟨grandchildren, mark, hmem, hd⟩ := Connective.mem_collect? hcollected hd
      · exact h d hmem
      · exact (h _ hmem).children d hd
    unfold Connective.node
    split
    · exact .constant _ _
    · exact hall _ (mem_singleton.2 rfl)
    · exact .nary hall

theorem negate (h : IsExact catalog d entity) : IsExact catalog d.negate entity := by
  induction h with
  | constant v entity => exact .constant _ _
  | negation h _ => exact h
  | nary _ ih =>
    rw [Domain.negate, negateAll_eq_map]
    refine apply fun e he => ?_
    obtain ⟨d, hd, rfl⟩ := mem_map.1 he
    exact ih d hd
  | @condition c entity hc hinner _ =>
    have hexact : IsExact catalog (.condition c) entity := .condition hc hinner
    rw [Domain.negate, Condition.negate]
    split
    · rename_i inverse hinverse
      split
      · exact .negation hexact
      · refine hexact.of_literals rfl ?_ (fun v hv => .inl hv) fun _ h => h
        intro hpattern
        change inverse.isPattern = false at hpattern
        cases hop : c.operator <;> rw [hop] at hinverse <;> cases hinverse <;> first
          | rfl
          | cases hpattern
    · exact .negation hexact

theorem sortedJoin {ds : List Domain} (h : ∀ d ∈ ds, IsExact catalog d entity) :
    IsExact catalog (Optimizer.sortedJoin k ds) entity := by
  have happly : IsExact catalog (k.apply ds) entity := apply h
  unfold Optimizer.sortedJoin
  dsimp only
  split
  · exact apply fun d hd => happly.children d ((sortChildren_perm _).mem_iff.1 hd)
  · exact happly

end Domain.IsExact

namespace Pass

open Domain

variable {ctx : Context} {c : Condition} {d : Domain}

theorem exact_deprecatedOperator (hc : IsExact ctx.catalog (.condition c) ctx.entity)
    (hop : c.operator.isPattern = false) (h : (deprecatedOperator c ctx).result = .ok (some d)) :
    IsExact ctx.catalog d ctx.entity := by
  have hmodern : ∀ operator : Operator, ((do
      Run.report (.deprecatedOperator c operator)
      replace (.condition (c.withOperator operator)) : Run Error (Option Domain))).result =
        .ok (some d) → IsExact ctx.catalog d ctx.entity := by
    intro operator h
    simp only [Run.result_bind_eq_ok, replace_eq_some] at h
    obtain ⟨-, -, rfl⟩ := h
    exact hc.of_literals rfl (fun _ => hop) (fun v hv => .inl hv) fun _ h => h
  unfold deprecatedOperator at h
  dsimp only at h
  split at h
  · exact hmodern _ h
  · exact hmodern _ h
  · split at h
    · rw [replace_eq_some] at h
      exact h ▸ .constant _ _
    · exact hmodern _ h
  · simp at h

theorem exact_equalityToMembership (hc : IsExact ctx.catalog (.condition c) ctx.entity)
    (hop : c.operator.isPattern = false)
    (h : (equalityToMembership c ctx).result = .ok (some d)) :
    IsExact ctx.catalog d ctx.entity := by
  unfold equalityToMembership at h
  dsimp only at h
  split at h
  · rename_i value hvalue
    rw [replace_eq_some] at h
    subst h
    refine hc.of_literals rfl (fun _ => hop) (fun v hv => .inl ?_) nofun
    rwa [hvalue]
  · simp only [Run.result_bind_eq_ok, replace_eq_some] at h
    obtain ⟨-, -, rfl⟩ := h
    exact hc.of_literals rfl (fun _ => hop) (fun v hv => .inl hv) fun _ h => h

theorem exact_membershipOperand (hc : IsExact ctx.catalog (.condition c) ctx.entity)
    (hop : c.operator.isPattern = false) (h : (membershipOperand c ctx).result = .ok (some d)) :
    IsExact ctx.catalog d ctx.entity := by
  unfold membershipOperand at h
  dsimp only at h
  split at h
  · split at h
    · rw [replace_eq_some] at h
      exact h ▸ .constant _ _
    · simp at h
  · rename_i value hvalue
    simp only [Run.result_bind_eq_ok, replace_eq_some] at h
    obtain ⟨-, -, rfl⟩ := h
    refine hc.of_literals rfl (fun _ => hop) (fun v hv => .inl ?_) nofun
    rwa [hvalue]
  all_goals
    rw [replace_eq_some] at h
    subst h
    exact hc.of_literals rfl (fun _ => hop) (fun v hv => .inl hv) fun _ h => h

theorem exact_unset {path : String} {operator : Operator} {catalog : Catalog} {entity : Entity} :
    IsExact catalog (.leaf path operator (.set .unset)) entity :=
  .leaf_set fun _ hv => mem_singleton.1 hv ▸ rfl

theorem exact_patternOperand (h : (patternOperand c ctx).result = .ok (some d)) :
    IsExact ctx.catalog d ctx.entity := by
  unfold patternOperand at h
  split at h
  · split at h
    · split at h
      all_goals
        rw [replace_eq_some] at h
        subst h
      · exact exact_unset
      · exact exact_unset
      all_goals exact .constant _ _
    · split at h
      · simp at h
      · simp at h
  · simp at h

theorem isPlain_of_isBoolean {v : Value} (h : isBoolean v = true) : v.isPlain = true := by
  cases v <;> simp_all [isBoolean, Value.isPlain]

theorem isPlain_of_isDayOrMoment {v : Value} (h : isDayOrMoment v = true) : v.isPlain = true := by
  cases v <;> simp_all [isDayOrMoment, Value.isPlain]

theorem isPlain_of_isDay {v : Value} (h : isDay v = true) : v.isPlain = true := by
  cases v <;> simp_all [isDay, Value.isPlain]

theorem exists_of_forall₂ {α β : Type} {R : α → β → Prop} {as : List α} {bs : List β}
    (h : Forall₂ R as bs) {b : β} (hb : b ∈ bs) : ∃ a ∈ as, R a b := by
  induction h with
  | nil => cases hb
  | cons hab _ ih =>
    obtain rfl | hb := mem_cons.1 hb
    · exact ⟨_, mem_cons_self .., hab⟩
    · obtain ⟨a, ha, hR⟩ := ih hb
      exact ⟨a, mem_cons_of_mem _ ha, hR⟩

theorem forall_mem_coerceSet {coerce : Value → Except Error Value} {Q : Value → Prop}
    {values coerced : ValueSet} (hcoerce : ∀ v ∈ values.values, ∀ w, coerce v = .ok w → Q w)
    (h : coerceSet coerce values = .ok coerced) : ∀ w ∈ coerced.values, Q w := by
  unfold coerceSet at h
  cases hresults : values.values.mapM coerce with
  | error e => rw [hresults] at h; cases h
  | ok results =>
    rw [hresults] at h
    cases h
    intro w hw
    have hw' := (ValueSet.fresh_sublist [] results).mem hw
    obtain ⟨v, hv, hcoerced⟩ := exists_of_forall₂ (mapM_eq_ok hresults) hw'
    exact hcoerce v hv w hcoerced

theorem exact_booleanMembers (h : (booleanMembers c ctx).result = .ok (some d)) :
    IsExact ctx.catalog d ctx.entity := by
  unfold booleanMembers at h
  split at h
  · split at h
    · simp only [Run.result_bind_eq_ok, Run.result_liftM] at h
      obtain ⟨coerced, hcoerced, h⟩ := h
      split at h
      · rw [replace_eq_some] at h
        subst h
        exact .leaf_set fun _ hv => mem_singleton.1 hv ▸ rfl
      · rw [replaceOperand_eq_some h]
        refine .leaf_set (forall_mem_coerceSet (fun v _ w hw => ?_) hcoerced)
        exact isPlain_of_isBoolean ((coerces_toBoolean c).lands v w hw)
    · simp at h
  · simp at h

theorem exact_bothBooleans (h : (bothBooleans c ctx).result = .ok (some d)) :
    IsExact ctx.catalog d ctx.entity := by
  unfold bothBooleans at h
  split at h
  · split at h
    · rw [replace_eq_some] at h
      exact h ▸ .constant _ _
    · simp at h
  · simp at h

theorem isPlain_toNumber {integer : Bool} {v w : Value} (hfloat : v.isFloat = false)
    (hlabel : isLabel v = false) (h : toNumber c integer v = .ok w) : w.isPlain = true := by
  cases v with
  | null | int _ =>
    cases h
    rfl
  | bool b => cases b <;> cases h; rfl
  | float _ => cases hfloat
  | text _ => cases hlabel
  | date _ | timestamp _ => cases h

theorem exact_numericLiterals (hc : IsExact ctx.catalog (.condition c) ctx.entity)
    (htype : ∀ field, ctx.field c = .ok field → field.type.isNumeric = true)
    (h : (numericLiterals c ctx).result = .ok (some d)) : IsExact ctx.catalog d ctx.entity := by
  unfold numericLiterals at h
  split at h
  · rename_i hcompares
    simp only [Run.result_bind_eq_ok, Run.result_liftM] at h
    obtain ⟨field, hfield, h⟩ := h
    simp only [comparesLiterals, Bool.and_eq_true, Bool.not_eq_true'] at hcompares
    have hplain : ∀ v ∈ c.operand.literals, ∀ w,
        toNumber c (field.type == .integer) v = .ok w → w.isPlain = true := by
      intro v hv w hw
      have hreaches : ctx.catalog.Reaches ctx.entity c.path ctx.entity field :=
        .here (Context.field_eq_ok.1 hfield) (.inl (Condition.rest?_eq_none.2 hcompares.1))
      refine isPlain_toNumber (hc.of_condition.noFloat v hv) ?_ hw
      refine hc.of_condition.noText _ _ hreaches (htype field hfield) ?_ v hv
      have hop := hcompares.2
      cases hoperator : c.operator <;> rw [hoperator] at hop <;> first
        | rfl
        | cases hop
    split at h
    · rw [replace_eq_some] at h
      exact h ▸ .constant _ _
    · split at h
      · rename_i value hvalue
        simp only [Run.result_bind_eq_ok, Run.result_liftM] at h
        obtain ⟨coerced, hcoerced, h⟩ := h
        rw [replaceOperand_eq_some h]
        refine .leaf_scalar (hplain value ?_ coerced hcoerced)
        simp [hvalue, Operand.literals]
      · rename_i values hvalues
        simp only [Run.result_bind_eq_ok, Run.result_liftM] at h
        obtain ⟨coerced, hcoerced, h⟩ := h
        rw [replaceOperand_eq_some h]
        refine .leaf_set (forall_mem_coerceSet (fun v hv => hplain v ?_) hcoerced)
        simpa [hvalues, Operand.literals] using hv
      · simp at h
      · simp at h
  · simp at h

theorem exact_attachmentExists (h : (attachmentExists c ctx).result = .ok (some d)) :
    IsExact ctx.catalog d ctx.entity := by
  unfold attachmentExists at h
  simp only [Run.result_bind_eq_ok] at h
  obtain ⟨field, -, h⟩ := h
  split at h
  · simp at h
  · split at h
    · split at h
      · rw [replaceOperand_eq_some h]
        exact exact_unset
      · simp only [Run.result_bind_eq_ok, replace_eq_some] at h
        obtain ⟨-, -, rfl⟩ := h
        exact .constant _ _
    · simp only [Run.result_bind_eq_ok, replace_eq_some] at h
      obtain ⟨-, -, rfl⟩ := h
      exact .constant _ _

theorem exact_dateLiterals (h : (dateLiterals c ctx).result = .ok (some d)) :
    IsExact ctx.catalog d ctx.entity := by
  unfold dateLiterals at h
  split at h
  · simp at h
  · split at h
    · simp only [orderedUnset, Run.result_bind_eq_ok, replace_eq_some] at h
      obtain ⟨-, -, rfl⟩ := h
      exact .constant _ _
    · split at h
      · simp only [Run.result_bind_eq_ok, Run.result_liftM] at h
        obtain ⟨coerced, hcoerced, h⟩ := h
        rw [replaceOperand_eq_some h]
        exact .leaf_scalar (isPlain_of_isDay ((coerces_toDate c).lands _ _ hcoerced))
      · simp only [Run.result_bind_eq_ok, Run.result_liftM] at h
        obtain ⟨coerced, hcoerced, h⟩ := h
        rw [replaceOperand_eq_some h]
        refine .leaf_set (forall_mem_coerceSet (fun v _ w hw => ?_) hcoerced)
        exact isPlain_of_isDay ((coerces_toDate c).lands v w hw)
      · simp at h
      · simp at h

theorem exact_compareAt {catalog : Catalog} {entity : Entity} (operator : Operator)
    (t : Timestamp) : IsExact catalog (compareAt c operator t) entity :=
  .leaf_scalar rfl

theorem exact_dayBound {catalog : Catalog} {entity : Entity} (day : Date) :
    IsExact catalog (dayBound c day) entity := by
  unfold dayBound
  split
  · exact exact_compareAt _ _
  · exact exact_compareAt _ _
  all_goals
    split
    · exact exact_compareAt _ _
    · exact .constant _ _

theorem exact_withinDay {catalog : Catalog} {entity : Entity} (day : Date) :
    IsExact catalog (withinDay c day) entity := by
  unfold withinDay
  dsimp only
  split
  · refine .apply fun d hd => ?_
    simp only [mem_cons, not_mem_nil, or_false] at hd
    obtain rfl | rfl := hd <;> exact exact_compareAt _ _
  · exact exact_compareAt _ _

theorem exact_dayMembership {catalog : Catalog} {entity : Entity} {values : ValueSet}
    (h : ∀ v ∈ values.values, v.isPlain = true) :
    IsExact catalog (dayMembership c values) entity := by
  have hrest : ∀ v ∈ (ValueSet.ofList (withoutDays values.values)).values, v.isPlain = true := by
    intro v hv
    exact h v (mem_of_mem_filter ((ValueSet.fresh_sublist [] _).mem hv))
  have hinside : IsExact catalog (.or ((daysOf values.values).map (withinDay c) ++
      if (withoutDays values.values).isEmpty then []
      else [.leaf c.path .mem (.set (.ofList (withoutDays values.values)))])) entity := by
    refine .apply fun d hd => ?_
    obtain hd | hd := mem_append.1 hd
    · obtain ⟨day, -, rfl⟩ := mem_map.1 hd
      exact exact_withinDay day
    · split at hd
      · cases hd
      · obtain rfl := mem_singleton.1 hd
        exact .leaf_set hrest
  unfold dayMembership
  dsimp only
  split
  · exact hinside
  · split
    · exact hinside.negate
    · exact .apply (forall_mem_cons.2 ⟨hinside.negate, forall_mem_singleton.2 exact_unset⟩)

theorem exact_datetimeLiterals (h : (datetimeLiterals c ctx).result = .ok (some d)) :
    IsExact ctx.catalog d ctx.entity := by
  unfold datetimeLiterals at h
  split at h
  · simp at h
  · split at h
    · simp only [orderedUnset, Run.result_bind_eq_ok, replace_eq_some] at h
      obtain ⟨-, -, rfl⟩ := h
      exact .constant _ _
    · split at h
      · simp only [Run.result_bind_eq_ok, Run.result_liftM] at h
        obtain ⟨coerced, hcoerced, h⟩ := h
        split at h
        · rw [replace_eq_some] at h
          exact h ▸ exact_dayBound _
        · rw [replaceOperand_eq_some h]
          exact .leaf_scalar
            (isPlain_of_isDayOrMoment ((coerces_toDatetime c).lands _ _ hcoerced))
      · simp only [Run.result_bind_eq_ok, Run.result_liftM] at h
        obtain ⟨coerced, hcoerced, h⟩ := h
        have hplain : ∀ v ∈ coerced.values, v.isPlain = true :=
          forall_mem_coerceSet (fun v _ w hw =>
            isPlain_of_isDayOrMoment ((coerces_toDatetime c).lands v w hw)) hcoerced
        split at h
        · rw [replaceOperand_eq_some h]
          exact .leaf_set hplain
        · rw [replace_eq_some] at h
          exact h ▸ exact_dayMembership hplain
      · simp at h
      · simp at h

theorem exact_resolvePath (hc : IsExact ctx.catalog (.condition c) ctx.entity)
    (h : (resolvePath c ctx).result = .ok (some d)) : IsExact ctx.catalog d ctx.entity := by
  unfold resolvePath at h
  simp only [Run.result_bind_eq_ok, Run.result_liftM] at h
  obtain ⟨field, hfield, h⟩ := h
  rw [Context.field_eq_ok] at hfield
  split at h
  · simp at h
  · rename_i rest hrest
    split at h
    · rename_i hrelational
      rw [replace_eq_some] at h
      subst h
      refine .traversal fun target hleads => ?_
      have htarget := hleads.of_head hfield
      refine .condition ⟨hc.of_condition.noFloat, fun last field' hreaches => ?_⟩
        fun inner target' hoperand hleads' => ?_
      · exact hc.of_condition.noText last field'
          (.through hrest hfield hrelational htarget hreaches)
      · exact hc.inner hoperand (hleads'.through hrest hfield hrelational htarget)
    · split at h <;> simp at h

theorem exact_inheritedField (huniform : ctx.catalog.Uniform)
    (hentity : ctx.entity ∈ ctx.catalog.entities)
    (hresolved : (resolvePath c ctx).result = .ok none)
    (hc : IsExact ctx.catalog (.condition c) ctx.entity)
    (h : (inheritedField c ctx).result = .ok (some d)) : IsExact ctx.catalog d ctx.entity := by
  obtain ⟨field₀, hfield₀, hends⟩ := resolvePath_eq_none.1 hresolved
  unfold inheritedField at h
  simp only [Run.result_bind_eq_ok, Run.result_liftM] at h
  obtain ⟨field, hfield, h⟩ := h
  rw [Context.field_eq_ok] at hfield
  split at h
  · simp at h
  · rename_i link hlink
    simp only [Run.result_bind_eq_ok, replace_eq_some] at h
    obtain ⟨-, -, rfl⟩ := h
    rw [Context.field_eq_ok, hfield, Option.some.injEq] at hfield₀
    subst hfield₀
    replace hends : c.rest? = none ∨ field.type = .json := hends.imp_right And.right
    have hdeclared : field ∈ ctx.entity.fields := by
      obtain hmem | rfl := Entity.mem_or_eq_of_field? hfield
      · exact hmem
      · cases hlink
    refine .traversal fun owner howner => ?_
    have horiginal : ∀ original, owner.field? (Text.cut '.' c.path).1 = some original →
        (original.type.isNumeric = true → field.type.isNumeric = true) ∧
          ∀ target, ctx.catalog.target? owner c.path = some target →
            ctx.catalog.target? ctx.entity c.path = some target := by
      intro original horiginal
      have hname := (Entity.name_of_field? horiginal).trans (Entity.name_of_field? hfield).symm
      rw [← Catalog.target?_name hfield, ← Catalog.target?_name horiginal, hname]
      exact huniform.inherited _ hentity field hdeclared link owner original hlink howner
        (hname ▸ Entity.field?_name horiginal)
    have hread : ∀ last reached, ctx.catalog.Reaches owner c.path last reached →
        last = owner ∧ owner.field? (Text.cut '.' c.path).1 = some reached :=
      fun last reached hreaches =>
        hreaches.of_inherited hfield hends fun original h => (horiginal original h).2
    refine .condition ⟨hc.of_condition.noFloat, fun last reached hreaches hnumeric => ?_⟩
      fun inner target hoperand hleads => ?_
    · obtain ⟨-, hreached⟩ := hread last reached hreaches
      exact hc.of_condition.noText _ field (.here hfield hends)
        ((horiginal reached hreached).1 hnumeric)
    · obtain ⟨last, reached, hreaches, htarget⟩ := hleads
      obtain ⟨rfl, hreached⟩ := hread last reached hreaches
      rw [Catalog.target?_name hreached] at htarget
      exact hc.inner hoperand
        (Catalog.leads_of_target? hfield hends ((horiginal reached hreached).2 target htarget))

theorem exact_computedField (hhooks : ctx.entity.Hookless)
    (h : (computedField c ctx).result = .ok (some d)) : IsExact ctx.catalog d ctx.entity := by
  unfold computedField at h
  simp only [Run.result_bind_eq_ok] at h
  obtain ⟨field, hfield, h⟩ := h
  split at h
  · simp at h
  · split at h
    · rename_i hook hhook
      rw [Entity.searchHook_eq_none hhooks hfield] at hhook
      cases hhook
    · simp only [Run.result_bind_eq_ok, replace_eq_some] at h
      obtain ⟨-, -, rfl⟩ := h
      exact .constant _ _

theorem exact_relatedDomain (hresolved : (resolvePath c ctx).result = .ok none)
    (hnested : ∀ target inner d', ctx.catalog.target? ctx.entity c.path = some target →
      IsExact ctx.catalog inner target → (ctx.nested target inner).result = .ok d' →
      IsExact ctx.catalog d' target)
    (hc : IsExact ctx.catalog (.condition c) ctx.entity)
    (h : (relatedDomain c ctx).result = .ok (some d)) : IsExact ctx.catalog d ctx.entity := by
  obtain ⟨field, target, inner, optimized, hfield, htarget, hinner, hoptimized,
    ⟨-, rfl⟩ | ⟨-, -, rfl⟩ | ⟨-, rfl⟩⟩ := relatedDomain_eq_some h
  · exact .constant _ _
  · exact exact_unset
  · rw [Context.target_eq_ok hfield] at htarget
    obtain ⟨field', hfield', hrest⟩ := resolvePath_eq_none.1 hresolved
    obtain rfl := Except.ok.inj (hfield'.symm.trans hfield)
    rw [Context.field_eq_ok] at hfield
    have hends : c.rest? = none ∨ field'.type = .json := hrest.imp_right And.right
    refine .traversal fun target' hleads => ?_
    have htarget' := hleads.of_end hfield hends
    rw [htarget, Option.some.injEq] at htarget'
    subst htarget'
    exact hnested target inner optimized htarget
      (hc.inner hinner (Catalog.leads_of_target? hfield hends htarget)) hoptimized

theorem isExact_of_label {catalog : Catalog} {entity : Entity} {operator : Operator} {x : Operand}
    (hlabels : ∀ last field, catalog.Reaches entity entity.recName last field →
      field.type.isNumeric = false)
    (hx : ∀ inner, x ≠ .domain inner) (hfloat : ∀ v ∈ x.literals, v.isFloat = false) :
    IsExact catalog (.leaf entity.recName operator x) entity := by
  refine .condition ⟨hfloat, fun last field hreaches hnumeric => ?_⟩
    fun inner _ hoperand _ => absurd hoperand (hx inner)
  rw [hlabels last field hreaches] at hnumeric
  cases hnumeric

theorem exact_labels (hregular : ctx.catalog.Regular) (huniform : ctx.catalog.Uniform)
    (hentity : ctx.entity ∈ ctx.catalog.entities)
    (hc : IsExact ctx.catalog (.condition c) ctx.entity)
    (h : (labels c ctx).result = .ok (some d)) : IsExact ctx.catalog d ctx.entity := by
  unfold labels at h
  simp only [Run.result_bind_eq_ok, Run.result_liftM] at h
  obtain ⟨field, hfield, h⟩ := h
  rw [Context.field_eq_ok] at hfield
  split at h
  · simp at h
  · rename_i hskip
    simp only [Bool.or_eq_true, Bool.not_eq_true', not_or, Bool.not_eq_false,
      Bool.not_eq_true] at hskip
    obtain ⟨hrelational, hplain⟩ := hskip
    have hpath : field.name = c.path :=
      (Entity.name_of_field? hfield).trans
        (Text.cut_fst_of_none (Condition.rest?_eq_none.2 hplain))
    -- A relation is no identifier, so that it leads to the entity it names.
    have hid : field.name ≠ Entity.idName := by
      intro hid
      obtain hmem | rfl := Entity.mem_or_eq_of_field? hfield
      · rw [huniform.ids _ hentity field hmem hid] at hrelational
        cases hrelational
      · cases hrelational
    have hcomodel : ∀ comodel target, ctx.catalog.comodel c field = .ok comodel →
        ctx.catalog.Leads ctx.entity field.name target →
        target = comodel ∧ comodel ∈ ctx.catalog.entities := by
      intro comodel target hcomodel hleads
      have htarget := hleads.of_head hfield
      rw [Catalog.comodel_eq_ok] at hcomodel
      have hfield' : ctx.entity.field? (Text.cut '.' c.path).1 = some field := hfield
      unfold Catalog.target? at htarget
      rw [hfield', Option.bind_some, if_neg hid, if_pos hrelational, hcomodel,
        Option.some.injEq] at htarget
      obtain ⟨name, -, hname⟩ := Option.bind_eq_some_iff.1 hcomodel
      exact ⟨htarget.symm, List.mem_of_find?_eq_some hname⟩
    split at h
    · rename_i values hvalues
      rw [partition_eq_filter_filter] at h
      dsimp only at h
      split at h
      · simp at h
      · rename_i hkeep
        simp only [Bool.or_eq_true, Bool.not_eq_true', not_or, Bool.not_eq_false] at hkeep
        simp only [Run.result_bind_eq_ok, Run.result_liftM, replace_eq_some] at h
        obtain ⟨comodel, hfound, rfl⟩ := h
        have hmem : ∀ (p : Value → Bool), ∀ v ∈ (ValueSet.ofList (values.values.filter p)).values,
            v ∈ c.operand.literals := by
          intro p v hv
          rw [hvalues]
          exact mem_of_mem_filter ((ValueSet.fresh_sublist [] _).mem hv)
        have hbyLabel : IsExact ctx.catalog (traversal field.name .any
            (.leaf comodel.recName .mem (.set (.ofList (values.values.filter isLabel)))))
            ctx.entity := by
          refine .traversal fun target hleads => ?_
          obtain ⟨rfl, htarget⟩ := hcomodel comodel target hfound hleads
          exact isExact_of_label (hregular.labels target htarget) (by simp)
            fun v hv => hc.of_condition.noFloat v (hmem _ v hv)
        have hmembers : IsExact ctx.catalog (labelledMembers field comodel
            (values.values.filter isLabel) (values.values.filter (not ∘ isLabel))) ctx.entity := by
          unfold labelledMembers
          dsimp only
          split
          · exact hbyLabel
          · refine .apply (forall_mem_cons.2 ⟨hbyLabel, forall_mem_singleton.2 ?_⟩)
            refine hc.of_literals hpath (fun _ => ?_) (fun v hv => .inl (hmem _ v hv))
              (by simp)
            have hmember := hkeep.1
            cases hoperator : c.operator <;> rw [hoperator] at hmember <;> first
              | rfl
              | cases hmember
        split
        · exact hmembers
        · exact hmembers.negate
    · rename_i label hlabel
      split at h
      · simp at h
      · simp only [Run.result_bind_eq_ok, Run.result_liftM, replace_eq_some] at h
        obtain ⟨comodel, hfound, rfl⟩ := h
        refine .traversal fun target hleads => ?_
        obtain ⟨rfl, htarget⟩ := hcomodel comodel target hfound hleads
        exact isExact_of_label (hregular.labels target htarget) (by simp [hlabel])
          hc.of_condition.noFloat
    · simp at h

theorem exact_manyMembers (hlabels : namesLabels c = false)
    (hc : IsExact ctx.catalog (.condition c) ctx.entity)
    (h : (manyMembers c ctx).result = .ok (some d)) : IsExact ctx.catalog d ctx.entity := by
  unfold manyMembers at h
  split at h
  · rename_i values hvalues
    split at h
    · simp at h
    · rename_i hkeep
      simp only [Bool.or_eq_true, Bool.not_eq_true', not_or, Bool.not_eq_false] at hkeep
      rw [replace_eq_some] at h
      have hids : ∀ v ∈ (ValueSet.ofList (values.values.filter fun v => !v.isNull)).values,
          v.isPlain = true := by
        intro v hv
        have hmem : v ∈ values.values :=
          mem_of_mem_filter ((ValueSet.fresh_sublist [] _).mem hv)
        have hfloat := hc.of_condition.noFloat v (by simpa [hvalues, Operand.literals] using hmem)
        simp only [namesLabels, hvalues, hkeep.2, Bool.true_and, any_eq_false] at hlabels
        have hlabel := hlabels v hmem
        cases v <;> simp_all [Value.isFloat, isLabel, Value.isPlain]
      have hmembers : IsExact ctx.catalog (.or
          ((if (ValueSet.ofList (values.values.filter fun v => !v.isNull)).isEmpty then []
            else [traversal c.path .any (.leaf Entity.idName .mem
              (.set (.ofList (values.values.filter fun v => !v.isNull))))]) ++
          if values.containsNull then [traversal c.path .notAny (.constant true)] else []))
          ctx.entity := by
        refine .apply fun e he => ?_
        obtain he | he := mem_append.1 he
        · split at he
          · cases he
          · obtain rfl := mem_singleton.1 he
            exact .traversal fun _ _ => .leaf_set hids
        · split at he
          · obtain rfl := mem_singleton.1 he
            exact .traversal fun _ _ => .constant _ _
          · cases he
      subst h
      split
      · exact hmembers
      · exact hmembers.negate
  · simp at h

end Pass

namespace Hierarchy

open Domain

variable {ctx : Context} {c : Condition} {catalog : Catalog} {entity target : Entity}

theorem exact_idIn (ids : List Int) : IsExact catalog (idIn ids) entity := by
  refine .leaf_set fun v hv => ?_
  obtain ⟨id, -, rfl⟩ := mem_map.1 ((ValueSet.fresh_sublist [] _).mem hv)
  rfl

theorem exact_walk {parent : String} {ids : List Int} {d : Domain}
    (h : (walk c ctx target parent ids).result = .ok d) : IsExact catalog d entity := by
  unfold walk at h
  split at h
  · unfold descendants at h
    split at h
    · simp only [Run.result_bind_eq_ok, Run.result_pure, Except.ok.injEq] at h
      obtain ⟨paths, -, rfl⟩ := h
      refine .apply fun e he => ?_
      obtain ⟨path, -, rfl⟩ := mem_map.1 he
      refine .condition ⟨fun v hv => mem_singleton.1 hv ▸ rfl, fun _ _ _ _ hpattern => ?_⟩ nofun
      cases hpattern
    · simp only [Run.result_bind_eq_ok, Run.result_pure, Except.ok.injEq] at h
      obtain ⟨-, -, ids, -, rfl⟩ := h
      exact exact_idIn ids
  · unfold ancestors at h
    split at h
    · simp only [Run.result_bind_eq_ok, Run.result_pure, Except.ok.injEq] at h
      obtain ⟨paths, -, rfl⟩ := h
      exact exact_idIn _
    · simp only [Run.result_bind_eq_ok, Run.result_pure, Except.ok.injEq] at h
      obtain ⟨-, -, ids, -, rfl⟩ := h
      exact exact_idIn ids

end Hierarchy

namespace Pass

open Domain

variable {ctx : Context} {c : Condition} {d : Domain}

theorem exact_hierarchy (h : (hierarchy c ctx).result = .ok (some d)) :
    IsExact ctx.catalog d ctx.entity := by
  rw [hierarchy_eq] at h
  simp only [Run.result_bind_eq_ok] at h
  obtain ⟨field, -, target, -, ids, -, h⟩ := h
  split at h
  · rw [replace_eq_some] at h
    exact h ▸ .constant _ _
  · simp only [Run.result_bind_eq_ok] at h
    obtain ⟨found, hfound, -, -, h⟩ := h
    split at h
    · rw [replace_eq_some] at h
      exact h ▸ Hierarchy.exact_walk hfound
    · rw [replace_eq_some] at h
      subst h
      exact .traversal fun _ _ => Hierarchy.exact_walk hfound

end Pass

namespace Optimizer

open Domain

variable {ctx : Context} {k : Connective}

theorem covers_types {types : List FieldType} {c : Condition} :
    (PassScope.types types).covers c.operator (ctx.entity.headType? c.path) = true ↔
      ∃ field, ctx.field c = .ok field ∧ field.type ∈ types := by
  simp only [PassScope.covers, Entity.headType?, Context.field_eq_ok]
  change ((ctx.entity.field? c.head).map (·.type)).any types.contains = true ↔ _
  cases ctx.entity.field? c.head with
  | none => simp
  | some field => simp

theorem mem_before {first rest before after : List NamedPass} {pass : NamedPass}
    (h : first ++ rest = before ++ pass :: after) (hname : ∀ p ∈ first, p.name ≠ pass.name) :
    ∀ p ∈ first, p ∈ before := by
  obtain ⟨as, rfl, -⟩ | ⟨bs, rfl, hbs⟩ := append_eq_append_iff.1 h
  · exact fun p hp => mem_append_left as hp
  · cases bs with
    | nil => simp
    | cons b bs =>
      rw [cons_append, cons.injEq] at hbs
      refine absurd ?_ (hname b (by simp))
      rw [hbs.1]

theorem candidates_eq_cons (ctx : Context) (c : Condition) :
    ∃ rest, standard.candidates ctx c = [⟨"resolve_field", Pass.resolvePath⟩] ++ rest := by
  cases hlevel : ctx.level <;> exact ⟨_, by unfold candidates; rw [hlevel]; rfl⟩

theorem candidates_of_membership {c : Condition} (h : c.operator.isMembership = true) :
    ∃ rest, standard.candidates ctx c = [⟨"resolve_field", Pass.resolvePath⟩,
      ⟨"membership_value", Pass.membershipOperand⟩, ⟨"search_by_label", Pass.labels⟩] ++ rest := by
  cases hop : c.operator <;> rw [hop] at h <;> cases h
  all_goals
    cases hlevel : ctx.level <;> exact ⟨_, by unfold candidates; rw [hlevel, hop]; rfl⟩

theorem exact_joinSets {catalog : Catalog} {entity : Entity} {path : String} {run : List Domain}
    (hpath : ∀ c, .condition c ∈ run → c.path = path ∧ c.operator.isMembership = true)
    (h : ∀ d ∈ run, IsExact catalog d entity) :
    ∀ d ∈ Merge.joinSets k run, IsExact catalog d entity := by
  intro d hd
  obtain hd | ⟨operator, values, -, rfl, hvalues⟩ :=
    Merge.mem_joinSets_of_path (fun c hc => (hpath c hc).1) hd
  · exact h d hd
  · refine .condition ⟨fun v hv => ?_, fun last field hreaches hnumeric _ v hv => ?_⟩ nofun
    · obtain ⟨c, values', hc, hoperand, hv⟩ := hvalues v hv
      exact (h _ hc).of_condition.noFloat v (by rwa [hoperand])
    · obtain ⟨c, values', hc, hoperand, hv⟩ := hvalues v hv
      obtain ⟨rfl, hmember⟩ := hpath c hc
      refine (h _ hc).of_condition.noText last field hreaches hnumeric ?_ v (by rwa [hoperand])
      cases hop : c.operator <;> rw [hop] at hmember <;> first
        | rfl
        | cases hmember

theorem exact_joinAnys {catalog : Catalog} {entity : Entity} {path : String} {run : List Domain}
    (hpath : ∀ c, .condition c ∈ run → c.path = path) (h : ∀ d ∈ run, IsExact catalog d entity) :
    ∀ d ∈ Merge.joinAnys k entity run, IsExact catalog d entity := by
  intro d hd
  obtain hd | ⟨c, hc, -, rfl⟩ := Merge.mem_joinAnys hd
  · exact h d hd
  · refine .traversal fun target hleads => ?_
    have hinners : ∀ inner ∈ run.filterMap (Merge.inner? c.operator),
        IsExact catalog inner target := by
      intro inner hinner
      obtain ⟨c', hc', -, hoperand⟩ := Merge.mem_inners hinner
      refine (h _ hc').inner hoperand ?_
      rwa [hpath c' hc', ← hpath c hc]
    unfold Merge.joinedInner
    split <;> exact .apply hinners

theorem exact_mergeAll {catalog : Catalog} {entity : Entity} {children : List Domain}
    (h : ∀ d ∈ children, IsExact catalog d entity) :
    ∀ d ∈ mergeAll k entity children, IsExact catalog d entity := by
  have hdistinct : ∀ d ∈ Merge.distinct [] children, IsExact catalog d entity :=
    fun d hd => h d ((Merge.distinct_sublist [] children).mem hd)
  have hsets : ∀ d ∈ replaceRuns (isMerged setScope entity) (Merge.joinSets k)
      (runsBy setScope.runKey? (Merge.distinct [] children)), IsExact catalog d entity := by
    refine forall_mem_runs hdistinct fun path run hrun _ => ?_
    have hpath : ∀ c, .condition c ∈ run → c.path = path ∧ c.operator.isMembership = true := by
      intro c hc
      obtain ⟨c', hc', hpath, hmember⟩ := setScope_key (hrun _ hc).2
      cases hc'
      exact ⟨hpath, hmember⟩
    exact exact_joinSets hpath fun d hd => hdistinct d (hrun d hd).1
  refine forall_mem_runs hsets fun path run hrun _ => ?_
  have hpath : ∀ c, .condition c ∈ run → c.path = path := by
    intro c hc
    obtain ⟨c', hc', hpath, -⟩ := anyScope_key (hrun _ hc).2
    cases hc'
    exact hpath
  exact exact_joinAnys hpath fun d hd => hsets d (hrun d hd).1

section Run

variable (hregular : ctx.catalog.Regular) (huniform : ctx.catalog.Uniform)
  (hentity : ctx.catalog.entity? ctx.entity.name = some ctx.entity)
  (hnested : ∀ target inner d, ctx.catalog.entity? target.name = some target →
    IsExact ctx.catalog inner target → (ctx.nested target inner).result = .ok d →
    IsExact ctx.catalog d target)

include hregular huniform hentity hnested in
/-- The pass that replaces a condition keeps it exact. Labels are dealt with before members. -/
theorem exact_replaced {c : Condition} {before after : List NamedPass} {pass : NamedPass}
    {d : Domain} (hsplit : standard.candidates ctx c = before ++ pass :: after)
    (hbefore : ∀ earlier ∈ before, (earlier.run c ctx).result = .ok none)
    (hpass : (pass.run c ctx).result = .ok (some d))
    (hc : IsExact ctx.catalog (.condition c) ctx.entity) : IsExact ctx.catalog d ctx.entity := by
  have hdeclared : ctx.entity ∈ ctx.catalog.entities := List.mem_of_find?_eq_some hentity
  have hmem : pass ∈ standard.candidates ctx c := by simp [hsplit]
  have hresolved : pass.name ≠ "resolve_field" →
      (Pass.resolvePath c ctx).result = .ok none := by
    intro hname
    obtain ⟨rest, hrest⟩ := candidates_eq_cons ctx c
    exact hbefore _ (mem_before (hrest.symm.trans hsplit)
      (forall_mem_singleton.2 (Ne.symm hname)) _ (mem_singleton.2 rfl))
  obtain ⟨entry, hentry, -, hcovers, rfl⟩ := mem_candidates.1 hmem
  have hpatterns : ∀ operators, entry.scope = .operators operators →
      (∀ op ∈ operators, op.isPattern = false) → c.operator.isPattern = false := by
    intro operators hscope hall
    rw [hscope, PassScope.covers, contains_eq_mem, decide_eq_true_eq] at hcovers
    exact hall _ hcovers
  cases Registry.isStandard_of_mem hentry with
  | resolvePath => exact Pass.exact_resolvePath hc hpass
  | deprecatedOperator => exact Pass.exact_deprecatedOperator hc (hpatterns _ rfl (by decide)) hpass
  | equalityToMembership =>
    exact Pass.exact_equalityToMembership hc (hpatterns _ rfl (by decide)) hpass
  | membershipOperand => exact Pass.exact_membershipOperand hc (hpatterns _ rfl (by decide)) hpass
  | patternOperand => exact Pass.exact_patternOperand hpass
  | labels => exact Pass.exact_labels hregular huniform hdeclared hc hpass
  | relatedDomain =>
    exact Pass.exact_relatedDomain (hresolved (by decide)) (fun target inner d' htarget =>
      hnested target inner d' (Catalog.entity?_target? hentity htarget)) hc hpass
  | manyMembers =>
    refine Pass.exact_manyMembers ?_ hc hpass
    obtain ⟨field, hfield, htype⟩ := covers_types.1 hcovers
    have hrelational : field.isRelational = true := by
      simp only [mem_cons, not_mem_nil, or_false] at htype
      obtain htype | htype := htype <;> rw [Field.isRelational, htype] <;> rfl
    change (Pass.manyMembers c ctx).result = _ at hpass
    have hkept : (Pass.manyMembers c ctx).result ≠ .ok none := by simp [hpass]
    simp only [ne_eq, Pass.manyMembers_eq_none, not_forall, Bool.or_eq_true, Bool.not_eq_true',
      not_or, Bool.not_eq_true, Bool.not_eq_false] at hkept
    obtain ⟨-, -, hplain, hmember⟩ := hkept
    obtain ⟨rest, hrest⟩ := candidates_of_membership hmember
    have hlabels : (Pass.labels c ctx).result = .ok none :=
      hbefore ⟨"search_by_label", Pass.labels⟩
        (mem_before (hrest.symm.trans hsplit) (by decide) _ (by simp))
    obtain ⟨field', hfield', hkept⟩ := Pass.labels_eq_none.1 hlabels
    rw [hfield, Except.ok.injEq] at hfield'
    subst hfield'
    simpa [hrelational, hplain] using hkept
  | booleanMembers => exact Pass.exact_booleanMembers hpass
  | dateLiterals => exact Pass.exact_dateLiterals hpass
  | datetimeLiterals => exact Pass.exact_datetimeLiterals hpass
  | numericLiterals =>
    refine Pass.exact_numericLiterals hc (fun field hfield => ?_) hpass
    obtain ⟨field', hfield', htype⟩ := covers_types.1 hcovers
    rw [hfield, Except.ok.injEq] at hfield'
    subst hfield'
    simp only [mem_cons, not_mem_nil, or_false] at htype
    obtain htype | htype | htype := htype <;> rw [htype] <;> rfl
  | attachmentExists => exact Pass.exact_attachmentExists hpass
  | inheritedField =>
    exact Pass.exact_inheritedField huniform hdeclared (hresolved (by decide)) hc hpass
  | computedField => exact Pass.exact_computedField (hregular.hookless.of_entity? hentity) hpass
  | hierarchy => exact Pass.exact_hierarchy hpass
  | bothBooleans => exact Pass.exact_bothBooleans hpass
  | sqlReady => cases (Pass.sqlReady_eq_ok.1 hpass).1

theorem rebuild_exact {children : List Domain} {d : Domain}
    (hnested : ∀ d d', IsExact ctx.catalog d ctx.entity →
      (ctx.nested ctx.entity d).result = .ok d' → IsExact ctx.catalog d' ctx.entity)
    (hchildren : ∀ d ∈ children, IsExact ctx.catalog d ctx.entity)
    (h : (rebuild k ctx children).result = .ok d) : IsExact ctx.catalog d ctx.entity := by
  obtain ⟨optimized, hoptimized, rfl⟩ := rebuild_eq_ok.1 h
  refine .sortedJoin fun e he => ?_
  obtain ⟨a, ha, hae⟩ := Pass.exists_of_forall₂ hoptimized he
  exact hnested a e (hchildren a ha) hae

theorem Joins.exact {children : List Domain} {d : Domain}
    (hnested : ∀ d d', IsExact ctx.catalog d ctx.entity →
      (ctx.nested ctx.entity d).result = .ok d' → IsExact ctx.catalog d' ctx.entity)
    (h : Joins standard ctx k children d)
    (hchildren : ∀ d ∈ children, IsExact ctx.catalog d ctx.entity) :
    IsExact ctx.catalog d ctx.entity := by
  induction h with
  | folded hd _ => exact rebuild_exact hnested hchildren hd
  | stable hd _ _ _ => exact (rebuild_exact hnested hchildren hd).withMark _
  | inPlace hd _ hmerged _ _ hresult =>
    rw [result_applyMerges, Except.ok.injEq] at hmerged
    subst hmerged
    refine (rebuild_exact hnested (exact_mergeAll ?_) hresult).withMark _
    exact (rebuild_exact hnested hchildren hd).children
  | again hd _ hmerged _ _ ih =>
    rw [result_applyMerges, Except.ok.injEq] at hmerged
    subst hmerged
    exact ih (exact_mergeAll (rebuild_exact hnested hchildren hd).children)

include hregular huniform hentity hnested in
theorem Steps.exact {d : Domain} {s : Step} (h : Steps standard ctx d s)
    (hd : IsExact ctx.catalog d ctx.entity) :
    match s with
    | .done r | .changed r => IsExact ctx.catalog r ctx.entity := by
  cases h with
  | constant v => exact .constant _ _
  | complement hinner _ | pushed hinner _ =>
    cases hd with
    | negation hd => exact (hnested _ _ _ hentity hd hinner).negate
  | joined hjoins =>
    exact hjoins.exact (fun d d' => hnested _ d d' hentity) hd.children
  | kept _ => exact hd.withMark ctx.mark
  | replaced hsplit hbefore hpass =>
    exact exact_replaced hregular huniform hentity hnested hsplit hbefore hpass hd

include hregular huniform hentity hnested in
theorem Settles.exact {d result : Domain} (h : Settles standard ctx d result)
    (hd : IsExact ctx.catalog d ctx.entity) : IsExact ctx.catalog result ctx.entity := by
  induction h with
  | covered _ => exact hd
  | done _ hstep => exact hstep.exact hregular huniform hentity hnested hd
  | changed _ hstep _ ih => exact ih (hstep.exact hregular huniform hentity hnested hd)

end Run

theorem node_exact {catalog : Catalog} {level : Level} {entity : Entity} {depth : Nat}
    {d result : Domain} (hregular : catalog.Regular) (huniform : catalog.Uniform)
    (hentity : catalog.entity? entity.name = some entity) (hd : IsExact catalog d entity)
    (h : (node catalog depth standard level entity d).result = .ok result) :
    IsExact catalog result entity := by
  induction depth generalizing entity d result with
  | zero =>
    rw [node_zero] at h
    cases h
  | succ depth ih =>
    rw [node_succ] at h
    exact (settle_eq_ok h).exact hregular huniform hentity
      (fun target inner d htarget hinner hnested => ih htarget hinner hnested) hd

end Optimizer

end QueryDomain
