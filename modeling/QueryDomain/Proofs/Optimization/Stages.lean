import QueryDomain.Proofs.Optimization.Phases

/-! How often a node can change. Every condition is at one of a few stages, from old operators that
have to be replaced to conditions that can only be decided, and every change of a single condition
takes it to an earlier one. So no node changes more than a few times, whatever is in it. -/
namespace QueryDomain

open List

namespace Condition

def IsFinal (entity : Entity) (c : Condition) : Prop :=
  entity.headType? c.path = some .many2one ∨
    ∃ type, entity.headType? c.path = some type ∧ Pass.IsTyped type c.operand

def IsEntered (catalog : Catalog) (level : Level) (entity : Entity) (c : Condition) : Prop :=
  ∀ inner target, c.operand = .domain inner → catalog.target? entity c.path = some target →
    Domain.Settled catalog level inner target

open Classical in
noncomputable def operatorStage (catalog : Catalog) (level : Level) (entity : Entity)
    (c : Condition) : Nat :=
  match c.operator with
  | .doubleEqual | .lessGreater | .equalIfSet => 8
  | .equal | .notEqual | .childOf | .parentOf => 7
  | .like | .notLike | .ilike | .notIlike | .eqLike | .eqIlike => 6
  | .mem | .notMem =>
    if ∃ values, c.operand = .set values then
      if Pass.namesLabels c = true then 5 else if c.IsFinal entity then 1 else 4
    else 6
  | .less | .greater | .lessOrEqual | .greaterOrEqual => if c.IsFinal entity then 1 else 4
  | .any | .notAny => if c.IsEntered catalog level entity then 2 else 3

/-- How many changes a condition may take. A path that is crossed becomes a traversal. -/
noncomputable def stage (catalog : Catalog) (level : Level) (entity : Entity) (c : Condition) :
    Nat :=
  (if c.isDotted then 4 else 0) + c.operatorStage catalog level entity

variable {catalog : Catalog} {level : Level} {entity : Entity} {c c' : Condition}

theorem stage_of_path (hpath : c'.path = c.path)
    (h : c'.operatorStage catalog level entity < c.operatorStage catalog level entity) :
    c'.stage catalog level entity < c.stage catalog level entity := by
  unfold stage isDotted
  rw [hpath]
  omega

theorem operatorStage_bounds : 0 < c.operatorStage catalog level entity ∧
    c.operatorStage catalog level entity ≤ 8 := by
  unfold operatorStage
  split <;> first
    | omega
    | split_ifs <;> omega

theorem operatorStage_le_stage :
    c.operatorStage catalog level entity ≤ c.stage catalog level entity :=
  Nat.le_add_left ..

theorem stage_of_plain (h : c.isDotted = false) :
    c.stage catalog level entity = c.operatorStage catalog level entity := by
  rw [stage, h]
  exact Nat.zero_add _

theorem stage_of_dotted (h : c.isDotted = true) :
    c.stage catalog level entity = 4 + c.operatorStage catalog level entity := by
  rw [stage, h]
  rfl

theorem stage_bounds :
    0 < c.stage catalog level entity ∧ c.stage catalog level entity ≤ 12 := by
  have := @operatorStage_bounds catalog level entity c
  cases hdotted : c.isDotted with
  | true => rw [stage_of_dotted hdotted]; omega
  | false => rw [stage_of_plain hdotted]; omega

theorem operatorStage_of_traversal (h : c.operator.isTraversal = true) :
    c.operatorStage catalog level entity ≤ 3 ∧ 2 ≤ c.operatorStage catalog level entity := by
  unfold operatorStage
  obtain hop | hop := Operator.eq_of_isTraversal h <;> rw [hop] <;> dsimp only <;> split <;> omega

theorem operatorStage_of_entered (h : c.operator.isTraversal = true)
    (hentered : c.IsEntered catalog level entity) : c.operatorStage catalog level entity = 2 := by
  unfold operatorStage
  obtain hop | hop := Operator.eq_of_isTraversal h <;> rw [hop] <;> exact if_pos hentered

theorem operatorStage_of_not_entered (h : c.operator.isTraversal = true)
    (hentered : ¬c.IsEntered catalog level entity) :
    c.operatorStage catalog level entity = 3 := by
  unfold operatorStage
  obtain hop | hop := Operator.eq_of_isTraversal h <;> rw [hop] <;> exact if_neg hentered

theorem operatorStage_of_pattern (h : c.operator.isPattern = true) :
    c.operatorStage catalog level entity = 6 := by
  unfold operatorStage
  cases hop : c.operator <;> rw [hop] at h <;> first
    | rfl
    | cases h

theorem operatorStage_of_ordering (h : c.operator.isOrdering = true) :
    c.operatorStage catalog level entity ≤ 4 ∧
      (c.IsFinal entity → c.operatorStage catalog level entity = 1) ∧
      (¬c.IsFinal entity → c.operatorStage catalog level entity = 4) := by
  unfold operatorStage
  cases hop : c.operator <;> rw [hop] at h <;> cases h <;> dsimp only <;> split <;> simp_all

theorem operatorStage_of_membership (h : c.operator.isMembership = true) :
    c.operatorStage catalog level entity ≤ 6 := by
  unfold operatorStage
  obtain hop | hop := Operator.eq_of_isMembership h <;> rw [hop] <;> dsimp only <;>
    split_ifs <;> omega

theorem operatorStage_of_listless (h : c.operator.isMembership = true)
    (hset : ∀ values, c.operand ≠ .set values) : c.operatorStage catalog level entity = 6 := by
  unfold operatorStage
  obtain hop | hop := Operator.eq_of_isMembership h <;> rw [hop] <;>
    exact if_neg fun ⟨values, hvalues⟩ => hset values hvalues

theorem operatorStage_of_set {values : ValueSet} (h : c.operator.isMembership = true)
    (hset : c.operand = .set values) : c.operatorStage catalog level entity ≤ 5 ∧
      (Pass.namesLabels c = true → c.operatorStage catalog level entity = 5) ∧
      (Pass.namesLabels c = false → c.operatorStage catalog level entity ≤ 4) ∧
      (Pass.namesLabels c = false → c.IsFinal entity →
        c.operatorStage catalog level entity = 1) ∧
      (¬c.IsFinal entity → 4 ≤ c.operatorStage catalog level entity) := by
  have hexists : ∃ values, c.operand = .set values := ⟨values, hset⟩
  unfold operatorStage
  obtain hop | hop := Operator.eq_of_isMembership h <;> rw [hop] <;> dsimp only <;>
    rw [if_pos hexists] <;> split <;> first
      | simp_all; done
      | split <;> simp_all

theorem five_le_of_namesLabels (h : Pass.namesLabels c = true) :
    5 ≤ c.operatorStage catalog level entity := by
  have hnames := h
  unfold Pass.namesLabels at h
  split at h
  · rename_i values hvalues
    rw [Bool.and_eq_true] at h
    exact Nat.le_of_eq ((operatorStage_of_set h.1 hvalues).2.1 hnames).symm
  · rw [operatorStage_of_pattern h]
    omega
  · cases h

end Condition

namespace Optimizer

open Condition

variable {ctx : Context} {c c' : Condition}

theorem namesLabels_eq_false {values : ValueSet} (h : c.operand = .set values)
    (hlabels : ∀ v ∈ values.values, Pass.isLabel v = false) : Pass.namesLabels c = false := by
  rw [Pass.namesLabels, h]
  dsimp only
  rw [Bool.and_eq_false_iff]
  exact .inr (by simpa using hlabels)

theorem not_isFinal_of_isX2Many {field : Field} (hfield : ctx.entity.field? c.head = some field)
    (h : field.type.isX2Many = true) : ¬c.IsFinal ctx.entity := by
  have htype : ctx.entity.headType? c.path = some field.type :=
    congrArg (Option.map Field.type) hfield
  rintro (hmany | ⟨type, htype', htyped⟩)
  · rw [htype, Option.some.injEq] at hmany
    rw [hmany] at h
    cases h
  · rw [htype, Option.some.injEq] at htype'
    rw [← htype'] at htyped
    cases hkind : field.type <;> rw [hkind] at h htyped <;> first
      | exact htyped
      | cases h

theorem not_isFinal_of_not_isTyped {type : FieldType} {x : Operand}
    (htype : ctx.entity.headType? c.path = some type) (htyped : Pass.IsTyped type x)
    (h : ¬Pass.IsTyped type c.operand) : ¬c.IsFinal ctx.entity := by
  rintro (hmany | ⟨type', htype', htyped'⟩)
  · rw [htype, Option.some.injEq] at hmany
    rw [hmany] at htyped
    exact htyped
  · rw [htype, Option.some.injEq] at htype'
    exact h (htype' ▸ htyped')

theorem not_isDotted_of_field {field : Field} (hfield : ctx.entity.field? c.head = some field)
    {op : Operator} {x : Operand} : (⟨field.name, op, x, none⟩ : Condition).isDotted = false := by
  rw [← rest?_eq_none, rest?, Entity.name_of_field? hfield]
  exact Text.cut_cut_fst

theorem stage_lt_of_becomes (h : Pass.Becomes ctx c c')
    (hnested : c.operator.isTraversal = true → ∀ target inner optimized,
      c.operand = .domain inner →
      ctx.catalog.target? ctx.entity c.path = some target →
      (ctx.nested target inner).result = .ok optimized → optimized.same inner = false →
      ¬Domain.Settled ctx.catalog ctx.level inner target ∧
        Domain.Settled ctx.catalog ctx.level optimized target) :
    c'.stage ctx.catalog ctx.level ctx.entity < c.stage ctx.catalog ctx.level ctx.entity := by
  cases h with
  | @modernized op hold hfamily hop =>
    refine stage_of_path rfl ?_
    have hstage : c.operatorStage ctx.catalog ctx.level ctx.entity = 8 := by
      unfold operatorStage
      cases hoperator : c.operator <;> rw [hoperator] at hold hfamily <;> first
        | rfl
        | cases hold; done
        | cases hfamily
    have hless : (c.withOperator op).operatorStage ctx.catalog ctx.level ctx.entity = 7 := by
      obtain rfl | rfl := hop <;> rfl
    omega
  | @equated op hop hmember =>
    refine stage_of_path rfl ?_
    have hstage : c.operatorStage ctx.catalog ctx.level ctx.entity = 7 := by
      unfold operatorStage
      obtain hop | hop := hop <;> rw [hop]
    have := @operatorStage_of_membership ctx.catalog ctx.level ctx.entity
      ⟨c.path, op, Pass.asMembers c.operand, none⟩ hmember
    omega
  | @listed value hmember hvalue =>
    refine stage_of_path rfl ?_
    rw [operatorStage_of_listless hmember (by simp [hvalue])]
    have := (@operatorStage_of_set ctx.catalog ctx.level ctx.entity
      (c.withOperand (.set (.singleton value))) _ hmember rfl).1
    omega
  | @entered op hmember htraversal hoperand =>
    refine stage_of_path rfl ?_
    rw [operatorStage_of_listless hmember (by rintro values hvalues; simp [hvalues] at hoperand)]
    have := (@operatorStage_of_traversal ctx.catalog ctx.level ctx.entity (c.withOperator op)
      htraversal).1
    omega
  | unmatched hpattern _ =>
    refine stage_of_path rfl ?_
    rw [operatorStage_of_pattern hpattern]
    have := (@operatorStage_of_set ctx.catalog ctx.level ctx.entity
      ⟨c.path, .mem, .set .unset, none⟩ _ rfl rfl).1
    omega
  | @ordered type x op htype _ hop hop' _ _ huntyped htyped _ =>
    refine stage_of_path rfl ?_
    rw [(operatorStage_of_ordering hop).2.2 (not_isFinal_of_not_isTyped htype htyped huntyped)]
    have := (@operatorStage_of_ordering ctx.catalog ctx.level ctx.entity
      ⟨c.path, op, x, none⟩ hop').2.1 (.inr ⟨type, htype, htyped⟩)
    omega
  | @members type values members op htype _ hop hop' hvalues _ huntyped htyped =>
    refine stage_of_path rfl ?_
    have hopen := (@operatorStage_of_set ctx.catalog ctx.level ctx.entity c values hop
      hvalues).2.2.2.2 (not_isFinal_of_not_isTyped htype htyped huntyped)
    have hfinal := (@operatorStage_of_set ctx.catalog ctx.level ctx.entity
      ⟨c.path, op, .set members, none⟩ members hop' rfl).2.2.2.1
      (namesLabels_eq_false rfl (Pass.isLabel_of_isTyped htyped)) (.inr ⟨type, htype, htyped⟩)
    omega
  | @unrelated inner op htype _ htraversal _ hop' =>
    refine stage_of_path rfl ?_
    have hopen := (@operatorStage_of_traversal ctx.catalog ctx.level ctx.entity c htraversal).2
    have hfinal := (@operatorStage_of_set ctx.catalog ctx.level ctx.entity
      ⟨c.path, op, .set .unset, none⟩ _ hop' rfl).2.2.2.1
      (namesLabels_eq_false rfl Pass.isLabel_unset) (.inl htype)
    omega
  | @related field target inner optimized htraversal _ _ htarget hinner hoptimized hsame =>
    refine stage_of_path rfl ?_
    obtain ⟨hopen, hsettled⟩ :=
      hnested htraversal target inner optimized hinner htarget hoptimized hsame
    rw [operatorStage_of_not_entered htraversal fun h => hopen (h inner target hinner htarget),
      operatorStage_of_entered (c := c.withOperand (.domain optimized)) htraversal]
    · omega
    · intro inner' target' hinner' htarget'
      cases hinner'
      change ctx.catalog.target? ctx.entity c.path = _ at htarget'
      rw [htarget, Option.some.injEq] at htarget'
      exact htarget' ▸ hsettled

theorem stage_lt_of_splits (howns : ctx.entity.OwnsFields) (h : Pass.Splits ctx c c') :
    c'.stage ctx.catalog ctx.level ctx.entity < c.stage ctx.catalog ctx.level ctx.entity := by
  have htraversal : ∀ {c : Condition}, c.operator.isTraversal = true → c.isDotted = false →
      c.stage ctx.catalog ctx.level ctx.entity ≤ 3 := by
    intro c hop hplain
    have := (@operatorStage_of_traversal ctx.catalog ctx.level ctx.entity c hop).1
    rwa [stage_of_plain hplain]
  have hmany : ∀ {field values}, ctx.entity.field? c.head = some field →
      field.type.isX2Many = true → c.operator.isMembership = true → c.operand = .set values →
      4 ≤ c.stage ctx.catalog ctx.level ctx.entity := by
    intro field values hfield htype hmember hvalues
    have := (@operatorStage_of_set ctx.catalog ctx.level ctx.entity c values hmember
      hvalues).2.2.2.2 (not_isFinal_of_isX2Many hfield htype)
    exact this.trans operatorStage_le_stage
  have hwalk : (c.operator = .childOf ∨ c.operator = .parentOf) →
      7 ≤ c.stage ctx.catalog ctx.level ctx.entity := by
    rintro (hop | hop) <;> rw [stage, operatorStage, hop] <;> exact Nat.le_add_left ..
  cases h with
  | @crossed field rest hfield hrest _ =>
    have hdotted : c.isDotted = true := by
      rw [← Bool.not_eq_false, ← rest?_eq_none, hrest]
      simp
    have := @htraversal ⟨field.name, .any, .domain (.leaf rest c.operator c.operand), none⟩ rfl
      (not_isDotted_of_field hfield)
    have := @stage_of_dotted ctx.catalog ctx.level ctx.entity c hdotted
    omega
  | @labelled field comodel op op' x _ hrest _ _ hnames hop _ =>
    have := @htraversal ⟨c.path, op, .domain (.leaf comodel.recName op' x), none⟩ hop
      (rest?_eq_none.1 hrest)
    have := (@five_le_of_namesLabels ctx.catalog ctx.level ctx.entity c hnames).trans
      operatorStage_le_stage
    omega
  | @identified field op members _ _ _ hnames _ hop hids _ =>
    refine stage_of_path rfl ?_
    have := @five_le_of_namesLabels ctx.catalog ctx.level ctx.entity c hnames
    have := (@operatorStage_of_set ctx.catalog ctx.level ctx.entity
      ⟨c.path, op, .set members, none⟩ members hop rfl).2.2.1 (namesLabels_eq_false rfl hids.noLabel)
    omega
  | @listed field op values members hfield hrest htype hmember hvalues _ hop _ =>
    have := @htraversal ⟨c.path, op, .domain (.leaf Entity.idName .mem (.set members)), none⟩ hop
      (rest?_eq_none.1 hrest)
    have := hmany hfield htype hmember hvalues
    omega
  | @unlisted field op values hfield hrest htype hmember hvalues _ hop =>
    have := @htraversal ⟨c.path, op, .domain (.constant true), none⟩ hop (rest?_eq_none.1 hrest)
    have := hmany hfield htype hmember hvalues
    omega
  | inherited hfield hlink =>
    rw [howns.of_field? hfield] at hlink
    cases hlink
  | found hop _ _ hfound =>
    have := hwalk hop
    cases hfound with
    | ids ids =>
      have hplain : (⟨Entity.idName, .mem, .set (.ofList (ids.map Value.int)), none⟩ :
          Condition).isDotted = false := by
        change Entity.idName.toList.contains '.' = false
        decide
      have := (@operatorStage_of_set ctx.catalog ctx.level ctx.entity
        ⟨Entity.idName, .mem, .set (.ofList (ids.map Value.int)), none⟩ _ rfl rfl).1
      rw [stage_of_plain hplain]
      omega
    | below path =>
      have hplain : (⟨Entity.parentPath, .eqLike, .scalar (.text path), none⟩ :
          Condition).isDotted = false := by
        change Entity.parentPath.toList.contains '.' = false
        decide
      rw [stage_of_plain hplain, operatorStage_of_pattern rfl]
      omega
  | @reached field target found hop _ hfield _ _ _ =>
    have := @htraversal ⟨field.name, .any, .domain found, none⟩ rfl (not_isDotted_of_field hfield)
    have := hwalk hop
    omega

theorem stage_lt_of_dated (hdays : Pass.NamesDays ctx c) (h : Pass.Dated c c') :
    c'.stage ctx.catalog ctx.level ctx.entity < c.stage ctx.catalog ctx.level ctx.entity := by
  obtain ⟨htype, hcompares, values, hvalues, v, hv, hday⟩ := hdays
  have huntyped : ¬Pass.IsTyped .datetime c.operand := by
    rw [hvalues]
    intro htyped
    rw [Pass.mayBeDay_of_isMoment (htyped.1 v hv)] at hday
    cases hday
  have hfinal := not_isFinal_of_not_isTyped htype (x := .scalar .null) rfl huntyped
  have hopen : 4 ≤ c.operatorStage ctx.catalog ctx.level ctx.entity := by
    simp only [Pass.comparesLiterals, Bool.and_eq_true, Bool.or_eq_true] at hcompares
    obtain ⟨-, hop | hop⟩ := hcompares
    · rw [(operatorStage_of_ordering hop).2.2 hfinal]
    · exact (operatorStage_of_set hop hvalues).2.2.2.2 hfinal
  cases h with
  | @bound op t hop =>
    refine stage_of_path rfl ?_
    have := (@operatorStage_of_ordering ctx.catalog ctx.level ctx.entity
      ⟨c.path, op, .scalar (.timestamp t), none⟩ hop).2.1 (.inr ⟨.datetime, htype, rfl⟩)
    omega
  | @moments op members hop hmoments hdistinct _ =>
    refine stage_of_path rfl ?_
    have htyped : Pass.IsTyped .datetime (.set members) := ⟨hmoments, hdistinct⟩
    have := (@operatorStage_of_set ctx.catalog ctx.level ctx.entity
      ⟨c.path, op, .set members, none⟩ members hop rfl).2.2.2.1
      (namesLabels_eq_false rfl (Pass.isLabel_of_isTyped htyped)) (.inr ⟨.datetime, htype, htyped⟩)
    omega

end Optimizer

/-- How many changes a node may take. Nodes are not changed but joined; a complement is taken once
and then may be a condition. -/
noncomputable def Domain.stage (catalog : Catalog) (level : Level) (entity : Entity) :
    Domain → Nat
  | .constant _ | .nary _ _ _ => 0
  | .negation _ => 13
  | .condition c => c.stage catalog level entity

theorem Domain.stage_le {catalog : Catalog} {level : Level} {entity : Entity} (d : Domain) :
    d.stage catalog level entity ≤ Optimizer.standard.maxIterations := by
  refine Nat.le_trans (m := 13) ?_ (by decide)
  cases d with
  | condition c => exact Condition.stage_bounds.2.trans (by omega)
  | negation d => exact Nat.le_refl _
  | _ => exact Nat.zero_le _

/-- A complement that can be taken further is at an earlier stage than a complement to be taken. -/
theorem Domain.stage_of_not_isRigid {catalog : Catalog} {level : Level} {entity : Entity}
    {d : Domain} (h : Optimizer.isRigid d = false) : d.stage catalog level entity < 13 := by
  cases d with
  | condition c => exact Nat.lt_succ_of_le Condition.stage_bounds.2
  | nary k children mark => exact Nat.succ_pos 12
  | _ => cases h

theorem Domain.Over.stage_lt {catalog : Catalog} {level : Level} {entity : Entity} {d : Domain}
    {Q : Condition → Prop} {bound : Nat} (h : d.Over Q) (hpos : 0 < bound)
    (hQ : ∀ c, Q c → c.stage catalog level entity < bound) :
    d.stage catalog level entity < bound := by
  cases h with
  | condition hc => exact hQ _ hc
  | _ => exact hpos

namespace Optimizer

/-- What a pass makes of a condition is at an earlier stage. -/
theorem stage_lt_of_outcome {ctx : Context} {c : Condition} {d : Domain}
    (howns : ctx.entity.OwnsFields) (h : Pass.Outcome ctx c d)
    (hnested : ∀ target inner optimized, c.operand = .domain inner →
      ctx.catalog.target? ctx.entity c.path = some target →
      (ctx.nested target inner).result = .ok optimized → optimized.same inner = false →
      ¬Domain.Settled ctx.catalog ctx.level inner target ∧
        Domain.Settled ctx.catalog ctx.level optimized target) :
    d.stage ctx.catalog ctx.level ctx.entity < c.stage ctx.catalog ctx.level ctx.entity := by
  cases h with
  | becomes h => exact stage_lt_of_becomes h fun _ => hnested
  | splits h => exact h.stage_lt Condition.stage_bounds.1 fun _ => stage_lt_of_splits howns
  | dated hdays h => exact h.stage_lt Condition.stage_bounds.1 fun _ => stage_lt_of_dated hdays

end Optimizer

end QueryDomain
