import QueryDomain.Proofs.Domain.Leaves
import QueryDomain.Proofs.Optimization.Invariant
import QueryDomain.Proofs.Optimization.Mirror

/-! Records on which a domain is decided. An ordering holds of no unset value and neither does its
inverse, so the two are complements only on records whose value has a place in the order. A domain
that is decided on a record stays so when it is optimized. -/
namespace QueryDomain

open List

/-- The value has a place in the order in which the literal stands, once that has been brought to
the type of the field. -/
def Field.Orders (field : Field) (value literal : Value) : Prop :=
  match field.type with
  | .date => literal ≠ .bool false ∧ ∃ day, value = .date day
  | .datetime => literal ≠ .bool false ∧ ∃ t, value = .timestamp t
  | .integer | .float | .monetary =>
    Pass.isNumber literal = true ∧ (value.compare? literal).isSome = true
  | _ => (value.compare? literal).isSome = true

/-- The record has the values without which a condition and its inverse say the same. -/
structure Condition.IsDecided (entity : Entity) (record : Record) (c : Condition) : Prop where
  /-- In memory nothing can be asked of a query. -/
  noQuery : ∀ q, c.operand ≠ .query q
  ordered : c.isDotted = false → c.operator.isOrdering = true →
    ∃ literal, c.operand = .scalar literal ∧ literal ≠ .null ∧
      ∀ field, entity.field? c.head = some field → field.Orders (c.valueOn field record) literal
  /-- A day is an interval on a datetime field, and so two orderings. -/
  dated : ∀ field, entity.field? c.head = some field → field.type = .datetime →
    c.operator.isPattern = false →
    (∃ v ∈ c.operand.literals, Pass.mayBeDay v = true) →
    ∃ t, c.valueOn field record = .timestamp t

def Domain.IsDecided (record : Record) (d : Domain) (entity : Entity) : Prop :=
  ∀ c ∈ d.leaves, c.IsDecided entity record

namespace Pass

theorem not_isOrdering_of_isMembership {op : Operator} (h : op.isMembership = true) :
    op.isOrdering = false := by
  cases op <;> first
    | rfl
    | cases h

theorem not_isPattern_of_isMembership {op : Operator} (h : op.isMembership = true) :
    op.isPattern = false := by
  cases op <;> first
    | rfl
    | cases h

end Pass

namespace Condition.IsDecided

variable {entity : Entity} {record : Record} {c : Condition}

theorem of_unordered (hquery : ∀ q, c.operand ≠ .query q) (hop : c.operator.isOrdering = false)
    (hdays : ∀ v ∈ c.operand.literals, Pass.mayBeDay v = false) :
    c.IsDecided entity record where
  noQuery := hquery
  ordered _ h := by
    rw [hop] at h
    cases h
  dated _ _ _ _ h := by
    obtain ⟨v, hv, hday⟩ := h
    rw [hdays v hv] at hday
    cases hday

theorem traversal {path : String} {op : Operator} (hop : op.isTraversal = true) (inner : Domain)
    (mark : Option Mark) : (⟨path, op, .domain inner, mark⟩ : Condition).IsDecided entity record := by
  refine of_unordered nofun ?_ fun v hv => (not_mem_nil hv).elim
  cases op <;> first
    | rfl
    | cases hop

theorem of_literals (h : c.IsDecided entity record) {c' : Condition} (hpath : c'.path = c.path)
    (hquery : ∀ q, c'.operand ≠ .query q)
    (hordered : c'.operator.isOrdering = true →
      c.operator.isOrdering = true ∧ c'.operand = c.operand)
    (hpattern : c'.operator.isPattern = false → c.operator.isPattern = false)
    (hliterals : ∀ v ∈ c'.operand.literals, v ∈ c.operand.literals) :
    c'.IsDecided entity record := by
  obtain ⟨path, operator, operand, mark⟩ := c'
  cases hpath
  constructor
  · exact hquery
  · intro hdotted hop
    obtain ⟨hop, hoperand⟩ := hordered hop
    obtain ⟨literal, hliteral, horders⟩ := h.ordered hdotted hop
    exact ⟨literal, hoperand.trans hliteral, horders⟩
  · rintro field hfield htype hop ⟨v, hv, hday⟩
    exact h.dated field hfield htype (hpattern hop) ⟨v, hliterals v hv, hday⟩

theorem inverse (h : c.IsDecided entity record) {op : Operator}
    (hop : c.operator.inverse? = some op) : (c.withOperator op).IsDecided entity record := by
  obtain ⟨-, hordering, hpattern, -⟩ := Operator.kinds_of_inverse? hop
  exact h.of_literals rfl h.noQuery (fun hop => ⟨hordering ▸ hop, rfl⟩) (fun hop => hpattern ▸ hop)
    fun v hv => hv

theorem of_field {c' : Condition} {field : Field} (hfield : entity.field? c'.head = some field)
    (htype : field.type ≠ .datetime) (hquery : ∀ q, c'.operand ≠ .query q)
    (hop : c'.operator.isOrdering = false) : c'.IsDecided entity record where
  noQuery := hquery
  ordered _ h := by
    rw [hop] at h
    cases h
  dated field' hfield' htype' _ _ := by
    rw [hfield, Option.some.injEq] at hfield'
    subst hfield'
    exact absurd htype' htype

theorem isScalar (h : c.IsDecided entity record) (hdotted : c.isDotted = false)
    (hop : c.operator.isOrdering = true) : ∃ v, c.operand = .scalar v :=
  (h.ordered hdotted hop).imp fun _ h => h.1

theorem ordersUnset_eq_false (h : c.IsDecided entity record) (hdotted : c.isDotted = false) :
    Pass.ordersUnset c = false := by
  unfold Pass.ordersUnset
  cases hop : c.operator.isOrdering with
  | false => rfl
  | true =>
    obtain ⟨literal, hliteral, hnull, -⟩ := h.ordered hdotted hop
    rw [hliteral]
    cases literal with
    | null => exact absurd rfl hnull
    | _ => rfl

end Condition.IsDecided

theorem Domain.invariant_isDecided : Optimizer.Invariant Domain.IsDecided where
  constant _ _ _ := nofun
  negation := Iff.rfl
  nary := by
    intro record k children mark entity
    constructor
    · exact fun h d hd c hc => h c (mem_leaves_nary.2 ⟨d, hd, hc⟩)
    · intro h c hc
      obtain ⟨d, hd, hc⟩ := mem_leaves_nary.1 hc
      exact h d hd c hc
  remark := by
    intro record c entity mark h c' hc'
    obtain rfl := mem_singleton.1 hc'
    have hc := h c (mem_singleton.2 rfl)
    exact ⟨hc.noQuery, hc.ordered, hc.dated⟩
  inverse := by
    intro record c entity op h hop c' hc'
    obtain rfl := mem_singleton.1 hc'
    exact (h c (mem_singleton.2 rfl)).inverse hop
  members := by
    rintro record path entity op values run ⟨first, hfirst, -⟩ hrun hop hvalues - c' hc'
    obtain rfl := mem_singleton.1 hc'
    refine ⟨nofun, fun _ h => ?_, ?_⟩
    · rw [Pass.not_isOrdering_of_isMembership hop] at h
      cases h
    · rintro field hfield htype - ⟨v, hv, hday⟩
      obtain ⟨c, hc, values', hoperand, hmem⟩ := hvalues v hv
      obtain ⟨hdecided, rfl, hmember⟩ := hrun c hc
      refine (hdecided c (mem_singleton.2 rfl)).dated field hfield htype
        (Pass.not_isPattern_of_isMembership hmember) ⟨v, ?_, hday⟩
      rw [hoperand]
      exact hmem
  inners := by
    intro record k c entity ds hop _ _ _ c' hc'
    obtain rfl := mem_singleton.1 hc'
    exact .traversal hop _ _

namespace Pass

variable {ctx : Context} {c c' : Condition} {d : Domain} {record : Record}

theorem orders_of_isTyped {field : Field} {value v : Value} (h : field.Orders value v)
    {x : Operand} (huntyped : ¬IsTyped field.type (.scalar v)) (htyped : IsTyped field.type x)
    (hset : StaysSet field.type (.scalar v) x) (hnull : v ≠ .null) :
    ∃ w, x = .scalar w ∧ w ≠ .null ∧ field.Orders value w := by
  have horder := hset.hasOrder
  unfold Field.Orders at h ⊢
  cases htype : field.type <;> rw [htype] at h huntyped htyped horder <;> try cases horder
  case date =>
    obtain ⟨hfalse, hvalue⟩ := h
    obtain ⟨w, rfl, hw⟩ := hset.scalar v rfl hnull hfalse
    refine ⟨w, rfl, hw, ?_, hvalue⟩
    rintro rfl
    cases htyped
  case datetime =>
    obtain ⟨hfalse, hvalue⟩ := h
    obtain ⟨w, rfl, hw⟩ := hset.scalar v rfl hnull hfalse
    refine ⟨w, rfl, hw, ?_, hvalue⟩
    rintro rfl
    cases htyped
  all_goals exact absurd h.1 huntyped

theorem Becomes.isDecided (h : Becomes ctx c c') (hc : c.IsDecided ctx.entity record) :
    c'.IsDecided ctx.entity record := by
  cases h with
  | @modernized op _ hfamily hop =>
    refine hc.of_literals rfl hc.noQuery (fun h => ?_) (fun _ => ?_) fun v hv => hv
    · obtain rfl | rfl := hop <;> cases h
    · unfold Operator.isPattern
      rw [hfamily]
      rfl
  | @equated op hop hmember =>
    refine hc.of_literals rfl (fun q hq => ?_) (fun h => ?_) (fun _ => ?_) fun v hv => ?_
    · cases hoperand : c.operand with
      | query q => exact hc.noQuery q hoperand
      | _ =>
        rw [hoperand] at hq
        cases hq
    · rw [not_isOrdering_of_isMembership hmember] at h
      cases h
    · obtain hop | hop := hop <;> rw [hop] <;> rfl
    · cases hoperand : c.operand with
      | _ => rwa [hoperand] at hv
  | @listed value hmember hoperand =>
    refine hc.of_literals rfl nofun (fun h => ?_) id fun v hv => ?_
    · cases (not_isOrdering_of_isMembership hmember).symm.trans h
    · rwa [hoperand]
  | @entered op hmember hop hoperand =>
    obtain ⟨inner, hinner⟩ | ⟨q, hq⟩ := hoperand
    · unfold Condition.withOperator
      rw [hinner]
      exact .traversal hop inner none
    · exact absurd hq (hc.noQuery q)
  | unmatched _ _ => exact .of_unordered nofun rfl fun v hv => mem_singleton.1 hv ▸ rfl
  | @ordered type x op htype hplain hordering hordering' _ hflat huntyped htyped hset =>
    obtain ⟨field, hfield, rfl⟩ := Option.map_eq_some_iff.1 htype
    obtain ⟨literal, hliteral, hnull, horders⟩ := hc.ordered hplain hordering
    rw [hliteral] at huntyped hset
    obtain ⟨w, rfl, hnull, hw⟩ := orders_of_isTyped (horders field hfield) huntyped htyped hset hnull
    refine ⟨nofun, fun _ _ => ⟨w, rfl, hnull, fun field' hfield' => ?_⟩,
      fun field' hfield' htype' _ hday => ?_⟩
    · obtain rfl := Option.some.inj (hfield.symm.trans hfield')
      exact hw
    · obtain rfl := Option.some.inj (hfield.symm.trans hfield')
      rw [htype'] at htyped
      obtain ⟨v, hv, hday⟩ := hday
      rw [mayBeDay_of_isMoment (isMoment_of_isTyped htyped v hv)] at hday
      cases hday
  | @members type values members op htype _ _ hmember _ _ _ htyped =>
    obtain ⟨field, hfield, rfl⟩ := Option.map_eq_some_iff.1 htype
    refine ⟨nofun, fun _ h => ?_, fun field' hfield' htype' _ hday => ?_⟩
    · rw [not_isOrdering_of_isMembership hmember] at h
      cases h
    · obtain rfl := Option.some.inj (hfield.symm.trans hfield')
      rw [htype'] at htyped
      obtain ⟨v, hv, hday⟩ := hday
      rw [mayBeDay_of_isMoment (isMoment_of_isTyped htyped v hv)] at hday
      cases hday
  | unrelated _ _ _ _ hmember =>
    exact .of_unordered nofun (not_isOrdering_of_isMembership hmember)
      fun v hv => mem_singleton.1 hv ▸ rfl
  | related hop => exact .traversal hop _ _

theorem isDecided_found (h : Found c') : c'.IsDecided ctx.entity record := by
  cases h with
  | ids ids =>
    refine .of_unordered nofun rfl fun v hv => ?_
    obtain ⟨id, -, rfl⟩ := mem_map.1 ((ValueSet.fresh_sublist [] _).mem hv)
    rfl
  | below path =>
    exact ⟨by simp, fun _ h => (Bool.false_ne_true h).elim,
      fun _ _ _ h => (Bool.false_ne_true h.symm).elim⟩

theorem Splits.isDecided (h : Splits ctx c c') : c'.IsDecided ctx.entity record := by
  cases h with
  | crossed _ _ _ => exact .traversal rfl _ _
  | labelled _ _ _ _ _ hop _ => exact .traversal hop _ _
  | @identified field op members hfield _ hrelational _ _ hop _ _ =>
    have htype : field.type ≠ .datetime := by
      intro htype
      rw [Field.isRelational, htype] at hrelational
      cases hrelational
    exact Condition.IsDecided.of_field hfield htype (by simp) (not_isOrdering_of_isMembership hop)
  | listed _ _ _ _ _ _ hop _ => exact .traversal hop _ _
  | unlisted _ _ _ _ _ _ hop => exact .traversal hop _ _
  | inherited _ _ => exact .traversal rfl _ _
  | found _ _ _ hfound => exact isDecided_found hfound
  | reached _ _ _ _ _ _ => exact .traversal rfl _ _

theorem Dated.isDecided (hdays : NamesDays ctx c) (hc : c.IsDecided ctx.entity record)
    (h : Dated c c') : c'.IsDecided ctx.entity record := by
  obtain ⟨htype, hcompares, values, hvalues, v, hv, hday⟩ := hdays
  obtain ⟨field, hfield, htype⟩ := Option.map_eq_some_iff.1 htype
  have hpattern : c.operator.isPattern = false := by
    simp only [comparesLiterals, Bool.and_eq_true, Bool.or_eq_true] at hcompares
    obtain ⟨-, hop⟩ := hcompares
    revert hop
    cases c.operator <;> decide
  have hvalue := hc.dated field hfield htype hpattern ⟨v, by rw [hvalues]; exact hv, hday⟩
  cases h with
  | @bound op t hop =>
    refine ⟨by simp, fun _ _ => ⟨_, rfl, by simp, fun field' hfield' => ?_⟩, fun _ _ _ _ hday => ?_⟩
    · obtain rfl := Option.some.inj (hfield.symm.trans hfield')
      unfold Field.Orders
      rw [htype]
      exact ⟨by simp, hvalue⟩
    · obtain ⟨w, hw, hday⟩ := hday
      obtain rfl := mem_singleton.1 hw
      cases hday
  | moments hop hmembers _ _ =>
    exact .of_unordered (by simp) (not_isOrdering_of_isMembership hop)
      fun v hv => mayBeDay_of_isMoment (hmembers v hv)

theorem Outcome.isDecided (h : Outcome ctx c d) (hc : c.IsDecided ctx.entity record) :
    d.IsDecided record ctx.entity := by
  cases h with
  | becomes hbecomes =>
    intro c' hc'
    obtain rfl := mem_singleton.1 hc'
    exact hbecomes.isDecided hc
  | splits hover => exact fun c' hc' => (hover.of_mem_leaves c' hc').isDecided
  | dated hdays hover => exact fun c' hc' => (hover.of_mem_leaves c' hc').isDecided hdays hc

end Pass

theorem Optimizer.node_isDecided {catalog : Catalog} (hhooks : catalog.Hookless)
    {level : Level} {entity : Entity} {depth : Nat} {record : Record} {d result : Domain}
    (hentity : catalog.entity? entity.name = some entity) (hd : d.IsDecided record entity)
    (h : (node catalog depth standard level entity d).result = .ok result) :
    result.IsDecided record entity := by
  refine Domain.invariant_isDecided.node hhooks ?_ hentity hd h
  rintro ctx rfl - - - record c d houtcome hc
  exact houtcome.isDecided (hc c (mem_singleton.2 rfl))

end QueryDomain
