import QueryDomain.Proofs.Domain.Marks
import QueryDomain.Proofs.Optimization.Merging
import QueryDomain.Proofs.Schema.Paths

/-! What the standard passes put in place of a condition. Its marked nodes come from the operand of
the condition, or from the optimization of a nested domain. -/
namespace QueryDomain

theorem Run.result_guard {ε α β : Type} {b : Bool} {e : ε} {next : β → Run ε α} {run : Run ε α}
    {r : α} :
    (if b = true then throw e >>= next else run).result = .ok r ↔
      b = false ∧ run.result = .ok r := by
  cases b <;> simp [Except.bind]

def Entity.Hookless (e : Entity) : Prop := ∀ field ∈ e.fields, field.searchHook = none

theorem Entity.searchHook_eq_none {e : Entity} (h : e.Hookless) {c : Condition} {field : Field}
    (hfield : e.conditionField c = .ok field) : field.searchHook = none := by
  obtain hmem | rfl := mem_or_eq_of_field? (conditionField_eq_ok.1 hfield)
  · exact h field hmem
  · rfl

/-- What the search hooks of the entity return has no marks but those with the property, if the
operands they are given have no others. -/
def Entity.HooksCarry (P : Mark → Domain → Prop) (e : Entity) : Prop :=
  ∀ field ∈ e.fields, ∀ hook, field.searchHook = some hook → ∀ name op x d,
    (∀ inner, x = .domain inner → inner.EachMark P) → (hook name op x).result = .ok d → d.EachMark P

theorem Entity.Hookless.hooksCarry {e : Entity} (h : e.Hookless) {P : Mark → Domain → Prop} :
    e.HooksCarry P := by
  intro field hfield hook hhook
  rw [h field hfield] at hhook
  cases hhook

namespace Pass

open Domain

variable {P : Mark → Domain → Prop} {ctx : Context} {c : Condition} {d : Domain}

@[simp] theorem result_keep {α : Type} : (keep : Run Error (Option α)).result = .ok none := rfl

@[simp] theorem result_replace (d : Domain) : (replace d).result = .ok (some d) := rfl

theorem replace_eq_some {e : Domain} : (replace e).result = .ok (some d) ↔ e = d := by
  simp

theorem result_replaceOperand (c : Condition) (x : Operand) :
    (replaceOperand c x).result =
      .ok (if c.operand.sameFlat x then none else some (.condition (c.withOperand x))) := by
  unfold replaceOperand
  split <;> rfl

theorem replaceOperand_eq_some {x : Operand}
    (h : (replaceOperand c x).result = .ok (some d)) : d = .condition (c.withOperand x) := by
  rw [result_replaceOperand] at h
  split at h <;> simp_all

theorem replaceOperand_eq_none {x : Operand} :
    (replaceOperand c x).result = .ok none ↔ c.operand.sameFlat x = true := by
  rw [result_replaceOperand]
  split <;> simp_all

def CarriesMarks (P : Mark → Domain → Prop) (pass : Pass) (ctx : Context) : Prop :=
  ∀ c d, (Domain.condition c).EachMark P → (pass c ctx).result = .ok (some d) → d.EachMark P

theorem eachMark_withOperand {x : Operand} (h : ∀ inner, x = .domain inner → inner.EachMark P) :
    (Domain.condition (c.withOperand x)).EachMark P :=
  (eachMark_unmarked_condition rfl).2 h

theorem eachMark_withOperator (h : (Domain.condition c).EachMark P) (operator : Operator) :
    (Domain.condition (c.withOperator operator)).EachMark P :=
  (eachMark_unmarked_condition rfl).2 (eachMark_condition.1 h).2

theorem eachMark_or_append {as bs : List Domain} (has : ∀ d ∈ as, d.EachMark P)
    (hbs : ∀ d ∈ bs, d.EachMark P) : (Domain.or (as ++ bs)).EachMark P := by
  refine Connective.eachMark_apply fun e he => ?_
  obtain he | he := List.mem_append.1 he
  · exact has e he
  · exact hbs e he

theorem carriesMarks_deprecatedOperator : CarriesMarks P deprecatedOperator ctx := by
  intro c d hc h
  unfold deprecatedOperator at h
  dsimp only at h
  have hmodern : ∀ operator : Operator, ((do
      Run.report (.deprecatedOperator c operator)
      replace (.condition (c.withOperator operator)) : Run Error (Option Domain))).result =
        .ok (some d) → d.EachMark P := by
    intro operator h
    simp only [Run.result_bind_eq_ok, replace_eq_some] at h
    obtain ⟨-, -, rfl⟩ := h
    exact eachMark_withOperator hc operator
  split at h
  · exact hmodern _ h
  · exact hmodern _ h
  · split at h
    · rw [replace_eq_some] at h
      exact h ▸ trivial
    · exact hmodern _ h
  · simp at h

theorem carriesMarks_equalityToMembership : CarriesMarks P equalityToMembership ctx := by
  intro c d hc h
  unfold equalityToMembership at h
  dsimp only at h
  split at h
  · rw [replace_eq_some] at h
    simp [← h]
  · simp only [Run.result_bind_eq_ok, replace_eq_some] at h
    obtain ⟨-, -, rfl⟩ := h
    exact eachMark_leaf.2 (eachMark_condition.1 hc).2

theorem carriesMarks_membershipOperand : CarriesMarks P membershipOperand ctx := by
  intro c d hc h
  unfold membershipOperand at h
  dsimp only at h
  split at h
  · split at h
    · rw [replace_eq_some] at h
      exact h ▸ trivial
    · simp at h
  · simp only [Run.result_bind_eq_ok, replace_eq_some] at h
    obtain ⟨-, -, rfl⟩ := h
    exact eachMark_withOperand (by simp)
  all_goals
    rw [replace_eq_some] at h
    exact h ▸ eachMark_withOperator hc _

theorem carriesMarks_patternOperand : CarriesMarks P patternOperand ctx := by
  intro c d _ h
  unfold patternOperand at h
  split at h
  · split at h
    · split at h
      all_goals
        rw [replace_eq_some] at h
        simp [← h]
    · split at h
      · simp at h
      · simp at h
  · simp at h

theorem carriesMarks_booleanMembers : CarriesMarks P booleanMembers ctx := by
  intro c d _ h
  unfold booleanMembers at h
  split at h
  · split at h
    · simp only [Run.result_bind_eq_ok] at h
      obtain ⟨coerced, -, h⟩ := h
      split at h
      · rw [replace_eq_some] at h
        simp [← h]
      · rw [replaceOperand_eq_some h]
        exact eachMark_withOperand (by simp)
    · simp at h
  · simp at h

theorem carriesMarks_bothBooleans : CarriesMarks P bothBooleans ctx := by
  intro c d _ h
  unfold bothBooleans at h
  split at h
  · split at h
    · rw [replace_eq_some] at h
      simp [← h]
    · simp at h
  · simp at h

theorem carriesMarks_numericLiterals : CarriesMarks P numericLiterals ctx := by
  intro c d _ h
  unfold numericLiterals at h
  split at h
  · simp only [Run.result_bind_eq_ok] at h
    obtain ⟨field, -, h⟩ := h
    split at h
    · rw [replace_eq_some] at h
      simp [← h]
    · split at h
      · simp only [Run.result_bind_eq_ok] at h
        obtain ⟨_, -, h⟩ := h
        rw [replaceOperand_eq_some h]
        exact eachMark_withOperand (by simp)
      · simp only [Run.result_bind_eq_ok] at h
        obtain ⟨_, -, h⟩ := h
        rw [replaceOperand_eq_some h]
        exact eachMark_withOperand (by simp)
      · simp at h
      · simp at h
  · simp at h

theorem carriesMarks_attachmentExists : CarriesMarks P attachmentExists ctx := by
  intro c d _ h
  unfold attachmentExists at h
  simp only [Run.result_bind_eq_ok] at h
  obtain ⟨field, -, h⟩ := h
  split at h
  · simp at h
  · split at h
    · split at h
      · rw [replaceOperand_eq_some h]
        exact eachMark_withOperand (by simp)
      · simp only [Run.result_bind_eq_ok, replace_eq_some] at h
        obtain ⟨-, -, rfl⟩ := h
        trivial
    · simp only [Run.result_bind_eq_ok, replace_eq_some] at h
      obtain ⟨-, -, rfl⟩ := h
      trivial

theorem carriesMarks_dateLiterals : CarriesMarks P dateLiterals ctx := by
  intro c d _ h
  unfold dateLiterals at h
  split at h
  · simp at h
  · split at h
    · simp only [orderedUnset, Run.result_bind_eq_ok, replace_eq_some] at h
      obtain ⟨-, -, rfl⟩ := h
      trivial
    · split at h
      · simp only [Run.result_bind_eq_ok] at h
        obtain ⟨_, -, h⟩ := h
        rw [replaceOperand_eq_some h]
        exact eachMark_withOperand (by simp)
      · simp only [Run.result_bind_eq_ok] at h
        obtain ⟨_, -, h⟩ := h
        rw [replaceOperand_eq_some h]
        exact eachMark_withOperand (by simp)
      · simp at h
      · simp at h

theorem eachMark_dayBound (c : Condition) (day : Date) : (dayBound c day).EachMark P := by
  unfold dayBound
  split
  · simp [compareAt]
  · simp [compareAt]
  all_goals split <;> simp [compareAt]

theorem eachMark_withinDay (c : Condition) (day : Date) : (withinDay c day).EachMark P := by
  unfold withinDay
  dsimp only
  split
  · refine Connective.eachMark_apply ?_
    simp [compareAt]
  · simp [compareAt]

theorem eachMark_dayMembership (c : Condition) (values : ValueSet) :
    (dayMembership c values).EachMark P := by
  have hdays : ∀ d ∈ (daysOf values.values).map (withinDay c), d.EachMark P := by
    intro d hd
    obtain ⟨day, -, rfl⟩ := List.mem_map.1 hd
    exact eachMark_withinDay c day
  have hin : (Domain.or ((daysOf values.values).map (withinDay c) ++
      if (withoutDays values.values).isEmpty then []
      else [.leaf c.path .mem (.set (.ofList (withoutDays values.values)))])).EachMark P :=
    eachMark_or_append hdays (by split <;> simp)
  unfold dayMembership
  dsimp only
  split
  · exact hin
  · split
    · exact hin.negate
    · exact Connective.eachMark_apply (List.forall_mem_cons.2 ⟨hin.negate, by simp⟩)

theorem carriesMarks_datetimeLiterals : CarriesMarks P datetimeLiterals ctx := by
  intro c d _ h
  unfold datetimeLiterals at h
  split at h
  · simp at h
  · split at h
    · simp only [orderedUnset, Run.result_bind_eq_ok, replace_eq_some] at h
      obtain ⟨-, -, rfl⟩ := h
      trivial
    · split at h
      · simp only [Run.result_bind_eq_ok] at h
        obtain ⟨_, -, h⟩ := h
        split at h
        · rw [replace_eq_some] at h
          exact h ▸ eachMark_dayBound c _
        · rw [replaceOperand_eq_some h]
          exact eachMark_withOperand (by simp)
      · simp only [Run.result_bind_eq_ok] at h
        obtain ⟨_, -, h⟩ := h
        split at h
        · rw [replaceOperand_eq_some h]
          exact eachMark_withOperand (by simp)
        · rw [replace_eq_some] at h
          exact h ▸ eachMark_dayMembership c _
      · simp at h
      · simp at h

theorem carriesMarks_resolvePath : CarriesMarks P resolvePath ctx := by
  intro c d hc h
  unfold resolvePath at h
  simp only [Run.result_bind_eq_ok] at h
  obtain ⟨field, -, h⟩ := h
  split at h
  · simp at h
  · split at h
    · rw [replace_eq_some] at h
      subst h
      simpa [traversal] using (eachMark_condition.1 hc).2
    · split at h <;> simp at h

theorem carriesMarks_inheritedField : CarriesMarks P inheritedField ctx := by
  intro c d hc h
  unfold inheritedField at h
  simp only [Run.result_bind_eq_ok] at h
  obtain ⟨field, -, h⟩ := h
  split at h
  · simp at h
  · simp only [Run.result_bind_eq_ok, replace_eq_some] at h
    obtain ⟨-, -, rfl⟩ := h
    simp only [traversal, eachMark_leaf, Operand.domain.injEq, forall_eq']
    exact (eachMark_unmarked_condition rfl).2 (eachMark_condition.1 hc).2

theorem carriesMarks_computedField (hhooks : ctx.entity.HooksCarry P) :
    CarriesMarks P computedField ctx := by
  intro c d hc h
  unfold computedField at h
  simp only [Run.result_bind_eq_ok] at h
  obtain ⟨field, hfield, h⟩ := h
  split at h
  · simp at h
  · split at h
    · rename_i hook hhook
      obtain ⟨d', hd', h⟩ := Run.result_bind_eq_ok.1 h
      cases h
      obtain hmem | rfl := Entity.mem_or_eq_of_field? (Entity.conditionField_eq_ok.1 hfield)
      · exact hhooks field hmem hook hhook _ _ _ _ (eachMark_condition.1 hc).2 hd'
      · cases hhook
    · simp only [Run.result_bind_eq_ok, replace_eq_some] at h
      obtain ⟨-, -, rfl⟩ := h
      trivial

def NestedMarks (P : Mark → Domain → Prop) (ctx : Context) : Prop :=
  ∀ c field target d d', ctx.target c field = .ok target →
    (ctx.nested target d).result = .ok d' → d.EachMark P → d'.EachMark P

theorem relatedDomain_eq_some {c : Condition} {d : Domain}
    (h : (relatedDomain c ctx).result = .ok (some d)) :
    ∃ field target inner optimized, ctx.field c = .ok field ∧ ctx.target c field = .ok target ∧
      c.operand = .domain inner ∧ (ctx.nested target inner).result = .ok optimized ∧
      ((optimized = .constant false ∧ d = .constant !(c.operator == .any)) ∨
        (optimized = .constant true ∧ field.type = .many2one ∧
          d = .leaf field.name (if c.operator == .any then .notMem else .mem) (.set .unset)) ∨
        (optimized.same inner = false ∧ d = .condition (c.withOperand (.domain optimized)))) := by
  unfold relatedDomain at h
  simp only [Run.result_bind_eq_ok, Run.result_liftM] at h
  obtain ⟨field, hfield, target, htarget, h⟩ := h
  split at h
  · simp at h
  · rename_i inner hinner
    simp only [Run.result_bind_eq_ok] at h
    obtain ⟨optimized, hoptimized, h⟩ := h
    refine ⟨field, target, inner, optimized, hfield, htarget, hinner, hoptimized, ?_⟩
    split at h
    · rename_i hfalse
      rw [replace_eq_some] at h
      refine .inl ⟨?_, h.symm⟩
      unfold Domain.isFalse at hfalse
      split at hfalse
      · rfl
      · cases hfalse
    · split at h
      · rename_i htrue
        rw [Bool.and_eq_true, beq_iff_eq] at htrue
        rw [replace_eq_some] at h
        refine .inr (.inl ⟨?_, htrue.2, h.symm⟩)
        have htrue := htrue.1
        unfold Domain.isTrue at htrue
        split at htrue
        · rfl
        · cases htrue
      · split at h
        · simp at h
        · rename_i hsame
          rw [replace_eq_some] at h
          exact .inr (.inr ⟨by simpa using hsame, h.symm⟩)
  · simp at h

theorem carriesMarks_relatedDomain (hnested : NestedMarks P ctx) :
    CarriesMarks P relatedDomain ctx := by
  intro c d hc h
  obtain ⟨field, target, inner, optimized, -, htarget, hinner, hoptimized,
    ⟨-, rfl⟩ | ⟨-, -, rfl⟩ | ⟨-, rfl⟩⟩ := relatedDomain_eq_some h
  · trivial
  · simp
  · refine eachMark_withOperand fun inner' hinner' => ?_
    cases hinner'
    exact hnested c field target inner _ htarget hoptimized
      ((eachMark_condition.1 hc).2 inner hinner)

theorem eachMark_labelledMembers (field : Field) (comodel : Entity) (labels ids : List Value) :
    (labelledMembers field comodel labels ids).EachMark P := by
  unfold labelledMembers
  dsimp only
  split
  · simp [traversal]
  · refine Connective.eachMark_apply ?_
    simp [traversal]

theorem carriesMarks_labels : CarriesMarks P labels ctx := by
  intro c d hc h
  unfold labels at h
  simp only [Run.result_bind_eq_ok] at h
  obtain ⟨field, -, h⟩ := h
  split at h
  · simp at h
  · split at h
    · split at h
      · simp at h
      · simp only [Run.result_bind_eq_ok, replace_eq_some] at h
        obtain ⟨comodel, -, rfl⟩ := h
        split
        · exact eachMark_labelledMembers ..
        · exact (eachMark_labelledMembers ..).negate
    · split at h
      · simp at h
      · simp only [Run.result_bind_eq_ok, replace_eq_some] at h
        obtain ⟨comodel, -, rfl⟩ := h
        simpa [traversal] using (eachMark_condition.1 hc).2
    · simp at h

theorem carriesMarks_manyMembers : CarriesMarks P manyMembers ctx := by
  intro c d _ h
  unfold manyMembers at h
  split at h
  · rename_i values _
    split at h
    · simp at h
    · rw [replace_eq_some] at h
      subst h
      have hboth : ∀ members : Domain, members.EachMark P →
          (if c.operator = .mem then members else members.negate).EachMark P := by
        intro members hmembers
        split
        · exact hmembers
        · exact hmembers.negate
      refine hboth _ (eachMark_or_append ?_ ?_) <;> split <;> simp [traversal]
  · simp at h

/-- What a condition needs for the last check: the standard vocabulary, a path without dots unless
it leads into a JSON field, a traversal of a relation only, an operand of the right shape, and a
field that has SQL. -/
structure IsSqlReady (c : Condition) (field : Field) : Prop where
  standard : c.operator.isStandard = true
  path : (c.isDotted && field.type != .json) = false
  traversal : (c.operator.isTraversal && !(field.isRelational || field.name == Entity.idName)) =
    false
  shape : acceptsShape c.operator c.operand = true
  searchable : (field.name != Entity.idName && !field.isSearchable) = false

theorem sqlReady_eq_ok {r : Option Domain} :
    (sqlReady c ctx).result = .ok r ↔
      r = none ∧ ∃ field, ctx.field c = .ok field ∧ IsSqlReady c field := by
  unfold sqlReady
  simp only [Run.result_guard, Run.result_bind_eq_ok, Run.result_liftM, result_keep,
    Except.ok.injEq, Bool.not_eq_false']
  constructor
  · rintro ⟨hstandard, field, hfield, hpath, htraversal, hshape, hsearchable, rfl⟩
    exact ⟨rfl, field, hfield, ⟨hstandard, hpath, htraversal, hshape, hsearchable⟩⟩
  · rintro ⟨rfl, field, hfield, ⟨hstandard, hpath, htraversal, hshape, hsearchable⟩⟩
    exact ⟨hstandard, field, hfield, hpath, htraversal, hshape, hsearchable, rfl⟩

theorem carriesMarks_sqlReady : CarriesMarks P sqlReady ctx := by
  intro c d _ h
  cases (sqlReady_eq_ok.1 h).1

end Pass

namespace Hierarchy

open Domain

variable {P : Mark → Domain → Prop} {ctx : Context} {c : Condition} {d : Domain}

theorem eachMark_descendants {target : Entity} {parent : String} {ids : List Int}
    (h : (descendants c ctx target parent ids).result = .ok d) : d.EachMark P := by
  unfold descendants at h
  split at h
  · simp only [Run.result_bind_eq_ok, Run.result_pure, Except.ok.injEq] at h
    obtain ⟨paths, -, rfl⟩ := h
    refine Connective.eachMark_apply fun e he => ?_
    obtain ⟨path, -, rfl⟩ := List.mem_map.1 he
    simp
  · simp only [Run.result_bind_eq_ok, Run.result_pure, Except.ok.injEq] at h
    obtain ⟨-, -, ids, -, rfl⟩ := h
    simp [idIn]

theorem eachMark_ancestors {target : Entity} {parent : String} {ids : List Int}
    (h : (ancestors c ctx target parent ids).result = .ok d) : d.EachMark P := by
  unfold ancestors at h
  split at h
  · simp only [Run.result_bind_eq_ok, Run.result_pure, Except.ok.injEq] at h
    obtain ⟨paths, -, rfl⟩ := h
    simp [idIn]
  · simp only [Run.result_bind_eq_ok, Run.result_pure, Except.ok.injEq] at h
    obtain ⟨-, -, ids, -, rfl⟩ := h
    simp [idIn]

def startValues (c : Condition) : Run Error (List Value) :=
  match c.operand with
  | .scalar value => pure [value]
  | .set values => pure values.values
  | operand => throw (.mismatch c (.expectsIds c.operator operand))

def startIds (c : Condition) (ctx : Context) (target : Entity) (value : Value) :
    Run Error (List Int) :=
  match value with
  | .int id => pure [id]
  | .text label => ctx.search target (.leaf target.recName .ilike (.scalar (.text label)))
  | value => if value.isFalsy then pure [] else throw (.mismatch c (.notIdOrLabel value.display))

theorem seeds_eq (c : Condition) (ctx : Context) (target : Entity) :
    seeds c ctx target = startValues c >>= fun values =>
      values.mapM (startIds c ctx target) >>= fun found => pure (newIds [] found.flatten) := by
  unfold seeds startValues startIds
  cases c.operand <;> rfl

def isOwnLink (ctx : Context) (field : Field) : Bool :=
  field.name != Entity.idName && field.type == .many2one && field.comodel == some ctx.entity.name

def walked (c : Condition) (ctx : Context) (field : Field) : Run Error Entity :=
  if isOwnLink ctx field then pure ctx.entity else liftM (ctx.target c field)

def followed (ctx : Context) (field : Field) (target : Entity) : String :=
  if isOwnLink ctx field then field.name else target.parentName

def walk (c : Condition) (ctx : Context) (target : Entity) (parent : String) (ids : List Int) :
    Run Error Domain :=
  if c.operator = .childOf then descendants c ctx target parent ids
  else ancestors c ctx target parent ids

theorem eachMark_walk {target : Entity} {parent : String} {ids : List Int}
    (h : (walk c ctx target parent ids).result = .ok d) : d.EachMark P := by
  unfold walk at h
  split at h
  · exact eachMark_descendants h
  · exact eachMark_ancestors h

end Hierarchy

namespace Pass

open Domain

variable {P : Mark → Domain → Prop} {ctx : Context} {c : Condition} {d : Domain}

theorem hierarchy_eq (c : Condition) (ctx : Context) :
    hierarchy c ctx = liftM (ctx.field c) >>= fun field =>
      Hierarchy.walked c ctx field >>= fun target =>
      Hierarchy.seeds c ctx target >>= fun ids =>
      if ids.isEmpty then replace (.constant false)
      else
        Hierarchy.walk c ctx target (Hierarchy.followed ctx field target) ids >>= fun found =>
        Run.report (.hierarchyResolved c target.name (Hierarchy.followed ctx field target) found)
          >>= fun _ =>
        if field.name = Entity.idName || Hierarchy.isOwnLink ctx field then replace found
        else replace (traversal field.name .any found) := by
  unfold hierarchy
  refine bind_congr fun field => ?_
  unfold Hierarchy.walked Hierarchy.walk
  cases hown : Hierarchy.isOwnLink ctx field with
  | true =>
    have hown' := hown
    unfold Hierarchy.isOwnLink at hown'
    simp only [hown', if_true, Hierarchy.followed, hown]
    refine bind_congr fun target => bind_congr fun ids => ?_
    split
    · rfl
    · split <;> rfl
  | false =>
    have hown' := hown
    unfold Hierarchy.isOwnLink at hown'
    simp only [hown', Bool.false_eq_true, if_false, Hierarchy.followed, hown]
    refine bind_congr fun target => bind_congr fun ids => ?_
    split
    · rfl
    · split <;> rfl

theorem hierarchy_eq_ok {r : Option Domain} (h : (hierarchy c ctx).result = .ok r) :
    ∃ d, r = some d ∧ d.EachMark P := by
  rw [hierarchy_eq] at h
  simp only [Run.result_bind_eq_ok] at h
  obtain ⟨field, -, target, -, ids, -, h⟩ := h
  split at h
  · simp only [result_replace, Except.ok.injEq] at h
    exact ⟨_, h.symm, trivial⟩
  · simp only [Run.result_bind_eq_ok] at h
    obtain ⟨found, hfound, -, -, h⟩ := h
    have hmarks : found.EachMark P := Hierarchy.eachMark_walk hfound
    split at h
    · simp only [result_replace, Except.ok.injEq] at h
      exact ⟨_, h.symm, hmarks⟩
    · simp only [result_replace, Except.ok.injEq] at h
      refine ⟨_, h.symm, ?_⟩
      simpa [traversal] using hmarks

theorem carriesMarks_hierarchy : CarriesMarks P hierarchy ctx := by
  intro c d _ h
  obtain ⟨d', hd', hmarks⟩ := hierarchy_eq_ok h (P := P)
  cases hd'
  exact hmarks

/-- No standard pass marks a node by itself. -/
theorem carriesMarks_standard (hhooks : ctx.entity.HooksCarry P) (hnested : NestedMarks P ctx) :
    ∀ entry ∈ Registry.standard.passes, CarriesMarks P entry.pass.run ctx := by
  intro entry hentry
  cases Registry.isStandard_of_mem hentry with
  | resolvePath => exact carriesMarks_resolvePath
  | deprecatedOperator => exact carriesMarks_deprecatedOperator
  | equalityToMembership => exact carriesMarks_equalityToMembership
  | membershipOperand => exact carriesMarks_membershipOperand
  | patternOperand => exact carriesMarks_patternOperand
  | labels => exact carriesMarks_labels
  | relatedDomain => exact carriesMarks_relatedDomain hnested
  | manyMembers => exact carriesMarks_manyMembers
  | booleanMembers => exact carriesMarks_booleanMembers
  | dateLiterals => exact carriesMarks_dateLiterals
  | datetimeLiterals => exact carriesMarks_datetimeLiterals
  | numericLiterals => exact carriesMarks_numericLiterals
  | attachmentExists => exact carriesMarks_attachmentExists
  | inheritedField => exact carriesMarks_inheritedField
  | computedField => exact carriesMarks_computedField hhooks
  | hierarchy => exact carriesMarks_hierarchy
  | bothBooleans => exact carriesMarks_bothBooleans
  | sqlReady => exact carriesMarks_sqlReady

end Pass

namespace Optimizer

open Domain

variable {P : Mark → Domain → Prop} {k : Connective}

theorem eachMark_joinSets {run : List Domain} (h : ∀ d ∈ run, d.EachMark P) :
    ∀ d ∈ Merge.joinSets k run, d.EachMark P := by
  intro d hd
  obtain hd | hd := Merge.mem_joinSets hd
  · exact h d hd
  · obtain ⟨path, -, hd⟩ := Option.bind_eq_some_iff.1 hd
    split at hd
    · cases hd
      simp
    · cases hd
      simp
    · split at hd <;> cases hd <;> simp
    · cases hd

theorem eachMark_joinAnys {entity : Entity} {run : List Domain} (h : ∀ d ∈ run, d.EachMark P) :
    ∀ d ∈ Merge.joinAnys k entity run, d.EachMark P := by
  intro d hd
  obtain hd | ⟨c, -, -, rfl⟩ := Merge.mem_joinAnys hd
  · exact h d hd
  · have hinners : ∀ inner ∈ run.filterMap (Merge.inner? c.operator), inner.EachMark P := by
      intro inner hinner
      obtain ⟨c', hc', -, hoperand⟩ := Merge.mem_inners hinner
      exact (eachMark_condition.1 (h _ hc')).2 inner hoperand
    refine Pass.eachMark_withOperand fun inner hinner => ?_
    cases hinner
    unfold Merge.joinedInner
    split <;> exact Connective.eachMark_apply hinners

theorem eachMark_mergeAll {entity : Entity} {children : List Domain}
    (h : ∀ d ∈ children, d.EachMark P) : ∀ d ∈ mergeAll k entity children, d.EachMark P := by
  have hdistinct : ∀ d ∈ Merge.distinct [] children, d.EachMark P :=
    fun d hd => h d ((Merge.distinct_sublist [] children).mem hd)
  have hsets : ∀ d ∈ replaceRuns (isMerged setScope entity) (Merge.joinSets k)
      (runsBy setScope.runKey? (Merge.distinct [] children)), d.EachMark P :=
    forall_mem_runs hdistinct fun path run hrun _ =>
      eachMark_joinSets fun d hd => hdistinct d (hrun d hd).1
  exact forall_mem_runs hsets
    fun path run hrun _ => eachMark_joinAnys fun d hd => hsets d (hrun d hd).1

end Optimizer

end QueryDomain
