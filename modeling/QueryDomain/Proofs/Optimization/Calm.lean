import QueryDomain.Proofs.Optimization.Stages

/-! Domains in which no days are left to be replaced by moments. Merges and complements of settled
domains are such domains, and so is what takes the place of days. -/
namespace QueryDomain

open List

def Operator.compares (op : Operator) : Bool := op.isEquality || op.isOrdering || op.isMembership

theorem Operator.compares_of_inverse {op op' : Operator} (h : op.inverse? = some op') :
    op'.compares = op.compares := by
  cases op <;> cases h <;> rfl

namespace Condition

variable {ctx : Context} {catalog : Catalog} {level : Level} {entity : Entity} {c c' : Condition}

/-- A datetime field is compared with moments alone, or with nothing at all. -/
def IsCalm (entity : Entity) (c : Condition) : Prop :=
  entity.headType? c.path = some .datetime → c.isDotted = false → c.operator.compares = true →
    ∀ v ∈ c.operand.literals, Pass.isMoment v = true ∨ v = .bool false

theorem IsCalm.not_namesDays (h : c.IsCalm ctx.entity) : ¬Pass.NamesDays ctx c := by
  rintro ⟨htype, hcompares, values, hvalues, v, hv, hday⟩
  simp only [Pass.comparesLiterals, Bool.and_eq_true, Bool.not_eq_true', Bool.or_eq_true]
    at hcompares
  obtain hmoment | rfl := h htype hcompares.1 (by simp [Operator.compares, or_assoc, hcompares.2])
    v (by rw [hvalues]; exact hv)
  · rw [Pass.mayBeDay_of_isMoment hmoment] at hday
    cases hday
  · cases hday

theorem IsCalm.of_moments (h : ∀ v ∈ c.operand.literals, Pass.isMoment v = true) :
    c.IsCalm entity :=
  fun _ _ _ v hv => .inl (h v hv)

theorem IsCalm.of_unset {op : Operator} {path : String} :
    (⟨path, op, .set .unset, none⟩ : Condition).IsCalm entity := by
  refine .of_moments fun v hv => ?_
  obtain rfl := mem_singleton.1 hv
  rfl

theorem IsCalm.of_becomes (hc : c.IsCalm ctx.entity) (h : Pass.Becomes ctx c c') :
    c'.IsCalm ctx.entity := by
  have hcompares : ∀ {op : Operator}, op.isTraversal = true → op.compares = false := by
    intro op hop
    obtain rfl | rfl := Operator.eq_of_isTraversal hop <;> rfl
  cases h with
  | modernized hold hfamily hop =>
    intro htype hplain _
    refine hc htype hplain ?_
    cases hoperator : c.operator <;> rw [hoperator] at hold hfamily <;> first
      | rfl
      | cases hold; done
      | cases hfamily
  | equated hop hmember =>
    intro htype hplain _ v hv
    refine hc htype hplain ?_ v ?_
    · obtain hop | hop := hop <;> rw [hop] <;> rfl
    · change v ∈ (Pass.asMembers c.operand).literals at hv
      cases hoperand : c.operand <;> rw [hoperand] at hv <;> exact hv
  | listed hmember hvalue =>
    intro htype hplain hcompares v hv
    exact hc htype hplain hcompares v (by rw [hvalue]; exact hv)
  | entered _ htraversal _ =>
    intro _ _ h
    cases (hcompares htraversal).symm.trans h
  | unmatched _ _ => exact .of_unset
  | @ordered type x op htype _ _ _ _ _ _ htyped _ =>
    intro htype' _ _ v hv
    change ctx.entity.headType? c.path = _ at htype'
    rw [htype, Option.some.injEq] at htype'
    exact .inl (Pass.isMoment_of_isTyped (htype' ▸ htyped) v hv)
  | @members type values members op htype _ _ _ _ _ _ htyped =>
    intro htype' _ _ v hv
    change ctx.entity.headType? c.path = _ at htype'
    rw [htype, Option.some.injEq] at htype'
    exact .inl (Pass.isMoment_of_isTyped (htype' ▸ htyped) v hv)
  | unrelated _ _ _ _ _ => exact .of_unset
  | related htraversal _ _ _ _ _ _ =>
    intro _ _ h
    cases (hcompares htraversal).symm.trans h

theorem IsCalm.of_dated (h : Pass.Dated c c') : c'.IsCalm entity := by
  refine .of_moments ?_
  cases h with
  | bound _ =>
    intro v hv
    obtain rfl := mem_singleton.1 hv
    rfl
  | moments _ hmoments _ _ => exact hmoments

theorem IsTame.isCalm (h : c.IsTame entity) : c.IsCalm entity :=
  fun htype hplain _ v hv => .inl (h.noDays htype hplain v hv)

theorem IsDirect.isCalm (h : c.IsDirect entity) : c.IsCalm entity := by
  obtain ⟨inner, hinner⟩ := h.domain
  intro _ _ _ v hv
  rw [hinner] at hv
  cases hv

theorem Kept.isCalm_inverse (h : c.Kept catalog level entity) {op : Operator}
    (hop : c.operator.inverse? = some op) : (c.withOperator op).IsCalm entity := by
  intro htype hplain hcompares v hv
  change entity.headType? c.path = _ at htype
  change c.isDotted = false at hplain
  change op.compares = true at hcompares
  have hliterals : Pass.comparesLiterals c = true := by
    rw [Operator.compares_of_inverse hop, Operator.compares, h.noEquality, Bool.false_or]
      at hcompares
    rw [Pass.comparesLiterals, hplain, hcompares]
    rfl
  have hpass := h _ PassEntry.IsStandard.datetimeLiterals.mem (Level.basic_le level)
    (by rw [htype]; rfl)
  change (Pass.datetimeLiterals c (.still catalog level entity)).result = _ at hpass
  exact .inl (Pass.isMoment_of_isTyped (Pass.datetimeLiterals_eq_none.1 hpass hliterals).2 v hv)

end Condition

namespace Domain

variable {catalog : Catalog} {level : Level} {entity : Entity} {d : Domain}

inductive Calm (catalog : Catalog) (level : Level) (entity : Entity) : Domain → Prop
  | settled {d : Domain} : Settled catalog level d entity → Calm catalog level entity d
  | condition {c} : c.IsCalm entity → Calm catalog level entity (.condition c)
  | nary {k children mark} : (∀ d ∈ children, Calm catalog level entity d) →
      Calm catalog level entity (.nary k children mark)

theorem Calm.apply {k : Connective} {ds : List Domain}
    (h : ∀ d ∈ ds, d.Calm catalog level entity) : (k.apply ds).Calm catalog level entity := by
  refine Connective.forall_apply (Q := Calm catalog level entity)
    (fun v => .settled (.constant v entity)) ⟨fun hd => ?_, .nary⟩ h
  cases hd with
  | settled hsettled =>
    cases hsettled with
    | nary hchildren _ => exact fun d hd => .settled (hchildren d hd)
  | nary hchildren => exact hchildren

theorem Calm.of_dated {c : Condition} (h : d.Over (Pass.Dated c)) :
    d.Calm catalog level entity := by
  induction h with
  | constant v => exact .settled (.constant v entity)
  | nary _ _ _ ih => exact .nary ih
  | condition hc => exact .condition (.of_dated hc)

theorem Calm.negate (h : Settled catalog level d entity) : d.negate.Calm catalog level entity := by
  induction h with
  | constant v entity => exact .settled (.constant _ entity)
  | negation _ hinner _ => exact .settled hinner
  | nary _ _ ih =>
    rw [Domain.negate, negateAll_eq_map]
    refine Calm.apply fun e he => ?_
    obtain ⟨d, hd, rfl⟩ := mem_map.1 he
    exact ih d hd
  | @condition c entity hkept hinner _ =>
    rw [Domain.negate]
    cases hnegate : c.negate with
    | condition c' =>
      unfold Condition.negate at hnegate
      split at hnegate
      · rename_i op hop
        split at hnegate <;> cases hnegate
        exact .condition (hkept.isCalm_inverse hop)
      · cases hnegate
    | negation inner =>
      have hrigid : Optimizer.isRigid (Domain.condition c).negate = true := by
        rw [Domain.negate, hnegate]
        rfl
      have := (Settled.condition hkept hinner).negate_of_isRigid hrigid
      rw [Domain.negate, hnegate] at this
      exact .settled this
    | constant v => exact .settled (.constant v entity)
    | nary k children mark =>
      unfold Condition.negate at hnegate
      split at hnegate
      · split at hnegate <;> cases hnegate
      · cases hnegate

end Domain

end QueryDomain
