import QueryDomain.Proofs.Optimization.Outcomes

/-! Passes and complements. Of a condition with the inverse operator the standard passes make the
complement of what they make of the condition itself, or keep both. Days in a set on a datetime
field are the exception: there `not in` also asks whether the field is unset. -/
namespace QueryDomain

open List

structure Field.IsPlain (field : Field) : Prop where
  stored : field.stored = true
  owned : field.delegatedVia = none
  inTable : field.attachment = false

def Entity.IsPlain (entity : Entity) : Prop := ∀ field ∈ entity.fields, field.IsPlain

theorem Entity.IsPlain.of_field? {entity : Entity} (h : entity.IsPlain) {name : String}
    {field : Field} (hfield : entity.field? name = some field) : field.IsPlain := by
  obtain hmem | rfl := mem_or_eq_of_field? hfield
  · exact h field hmem
  · exact ⟨rfl, rfl, rfl⟩

theorem Operator.kinds_of_inverse? {op inverse : Operator} (h : op.inverse? = some inverse) :
    inverse.isMembership = op.isMembership ∧ inverse.isOrdering = op.isOrdering ∧
      inverse.isPattern = op.isPattern ∧ inverse.isTraversal = op.isTraversal := by
  cases op <;> cases h <;> exact ⟨rfl, rfl, rfl, rfl⟩

/-- The inverse operator says the complement of the condition. -/
structure Condition.Inverts (c : Condition) (op : Operator) : Prop where
  inverse : c.operator.inverse? = some op
  plain : c.isDotted = false

theorem Condition.inverts_or_stays (c : Condition) :
    (∃ op, c.Inverts op) ∨ c.negate = .negation (.condition c) := by
  unfold negate
  cases hop : c.operator.inverse? with
  | none => exact .inr rfl
  | some op =>
    cases hdotted : c.isDotted with
    | true => exact .inr (if_pos rfl)
    | false => exact .inl ⟨op, hop, hdotted⟩

namespace Condition

variable (c : Condition) (op : Operator)

theorem path_withOperator : (c.withOperator op).path = c.path := rfl

theorem operator_withOperator : (c.withOperator op).operator = op := rfl

theorem operand_withOperator : (c.withOperator op).operand = c.operand := rfl

end Condition

namespace Condition.Inverts

variable {c : Condition} {op : Operator}

theorem negate (h : c.Inverts op) : (Domain.condition c).negate = .condition (c.withOperator op) := by
  simp [Domain.negate, Condition.negate, h.inverse, h.plain]

/-- A pass for operators is for one that has an inverse, if it is tried on the condition. -/
theorem not_forall_eq_none (h : c.Inverts op) {operators : List Operator}
    (hmem : c.operator ∈ operators) : ¬∀ operator ∈ operators, operator.inverse? = none := by
  intro hall
  have hinverse := h.inverse
  rw [hall _ hmem] at hinverse
  cases hinverse

theorem isMembership (h : c.Inverts op) : op.isMembership = c.operator.isMembership :=
  (Operator.kinds_of_inverse? h.inverse).1

theorem comparesLiterals (h : c.Inverts op) :
    Pass.comparesLiterals (c.withOperator op) = Pass.comparesLiterals c := by
  unfold Pass.comparesLiterals
  change (!c.isDotted && (op.isOrdering || op.isMembership)) = _
  rw [h.isMembership, (Operator.kinds_of_inverse? h.inverse).2.1]

theorem ordersUnset (h : c.Inverts op) :
    Pass.ordersUnset (c.withOperator op) = Pass.ordersUnset c := by
  unfold Pass.ordersUnset
  change (op.isOrdering && _) = _
  rw [(Operator.kinds_of_inverse? h.inverse).2.1]
  rfl

theorem withOperand (h : c.Inverts op) (x : Operand) : (c.withOperand x).Inverts op :=
  ⟨h.inverse, h.plain⟩

theorem leaf (h : c.Inverts op) {positive negative : Operator}
    (hinverse : positive.inverse? = some negative) (x : Operand) :
    (Domain.leaf c.path positive x).negate = .leaf c.path negative x :=
  negate (c := ⟨c.path, positive, x, none⟩) ⟨hinverse, h.plain⟩

end Condition.Inverts

namespace Pass

/-- What a pass makes of a condition, and of the condition with the inverse operator. -/
inductive Mirrored (ctx : Context) (c : Condition) (op : Operator) :
    Option Domain → Option Domain → Prop
  | kept : Mirrored ctx c op none none
  | replaced {d e} : d.negate = e → Mirrored ctx c op (some d) (some e)
  | dated {values} : NamesDays ctx c → c.operator.isMembership = true →
      (∀ v ∈ ValueSet.values values, isDayOrMoment v = true) → daysOf values.values ≠ [] →
      Mirrored ctx c op (some (dayMembership c values))
        (some (dayMembership (c.withOperator op) values))

structure Agree (ctx ctx' : Context) : Prop where
  catalog : ctx'.catalog = ctx.catalog
  entity : ctx'.entity = ctx.entity
  level : ctx'.level = ctx.level
  nested : ∀ target d a b, (ctx.nested target d).result = .ok a →
    (ctx'.nested target d).result = .ok b → a = b

variable {ctx ctx' : Context} {c : Condition} {op : Operator} {x y : Option Domain}

theorem Agree.field (hagree : Agree ctx ctx') {field field' : Field}
    (hfield : ctx.field c = .ok field) (hfield' : ctx'.field (c.withOperator op) = .ok field') :
    field' = field := by
  rw [Context.field_eq_ok] at hfield hfield'
  rw [hagree.entity] at hfield'
  change ctx.entity.field? c.head = some field' at hfield'
  rw [hfield] at hfield'
  exact (Option.some.inj hfield').symm

theorem mirrored_replaceOperand (hc : c.Inverts op) {z : Operand}
    (h : (replaceOperand c z).result = .ok x)
    (h' : (replaceOperand (c.withOperator op) z).result = .ok y) : Mirrored ctx c op x y := by
  unfold replaceOperand at h h'
  change (if c.operand.sameFlat z then keep else _ : Run Error (Option Domain)).result = _ at h'
  split at h
  · rw [if_pos ‹_›] at h'
    cases h
    cases h'
    exact .kept
  · rw [if_neg ‹_›] at h'
    cases h
    cases h'
    exact .replaced (hc.withOperand z).negate

theorem result_equalityToMembership (c : Condition) (ctx : Context) :
    (equalityToMembership c ctx).result = .ok (some (.leaf c.path
      (if c.operator = .equal then .mem else .notMem) (asMembers c.operand))) := by
  unfold equalityToMembership
  cases c.operand <;> rfl

theorem mirrored_equalityToMembership (hc : c.Inverts op)
    (hop : c.operator = .equal ∨ c.operator = .notEqual)
    (h : (equalityToMembership c ctx).result = .ok x)
    (h' : (equalityToMembership (c.withOperator op) ctx').result = .ok y) :
    Mirrored ctx c op x y := by
  have hinverse := hc.inverse
  rw [result_equalityToMembership] at h h'
  cases h
  cases h'
  obtain hop | hop := hop
  · rw [hop] at hinverse ⊢
    cases hinverse
    exact .replaced (hc.leaf rfl _)
  · rw [hop] at hinverse ⊢
    cases hinverse
    exact .replaced (hc.leaf rfl _)

theorem membership_inverse (hc : c.Inverts op) (hop : c.operator.isMembership = true) :
    (c.operator = .mem ∧ op = .notMem) ∨ (c.operator = .notMem ∧ op = .mem) := by
  have hinverse := hc.inverse
  cases hoperator : c.operator <;> rw [hoperator] at hop hinverse <;> cases hop <;> cases hinverse
  · exact .inl ⟨rfl, rfl⟩
  · exact .inr ⟨rfl, rfl⟩

theorem mirrored_membershipOperand (hc : c.Inverts op) (hop : c.operator.isMembership = true)
    (h : (membershipOperand c ctx).result = .ok x)
    (h' : (membershipOperand (c.withOperator op) ctx').result = .ok y) :
    Mirrored ctx c op x y := by
  have hboth := membership_inverse hc hop
  unfold membershipOperand at h h'
  simp only [Condition.operator_withOperator, Condition.operand_withOperator] at h'
  cases hoperand : c.operand with
  | set values =>
    simp only [hoperand] at h h'
    split at h
    · rw [if_pos ‹_›] at h'
      cases h
      cases h'
      obtain ⟨hop, rfl⟩ | ⟨hop, rfl⟩ := hboth <;> rw [hop] <;> exact .replaced rfl
    · rw [if_neg ‹_›] at h'
      cases h
      cases h'
      exact .kept
  | scalar value =>
    simp only [hoperand] at h h'
    cases h
    cases h'
    exact .replaced (hc.withOperand _).negate
  | domain _ | query _ =>
    simp only [hoperand] at h h'
    cases h
    cases h'
    obtain ⟨hop, rfl⟩ | ⟨hop, rfl⟩ := hboth
    · rw [hop]
      exact .replaced (Condition.Inverts.negate ⟨rfl, hc.plain⟩)
    · rw [hop]
      exact .replaced (Condition.Inverts.negate ⟨rfl, hc.plain⟩)

theorem mirrored_patternOperand (hc : c.Inverts op) (hop : c.operator.isPattern = true)
    (h : (patternOperand c ctx).result = .ok x)
    (h' : (patternOperand (c.withOperator op) ctx').result = .ok y) :
    Mirrored ctx c op x y := by
  have hinverse := hc.inverse
  obtain ⟨path, operator, operand, mark⟩ := c
  unfold patternOperand at h h'
  dsimp only [Condition.withOperator] at hop hinverse h h'
  cases operand with
  | scalar value =>
    dsimp only at h h'
    split at h
    · -- The empty pattern decides both.
      rw [if_pos ‹_›] at h'
      cases operator <;> cases hop <;> cases hinverse <;> cases h <;> cases h' <;>
        exact .replaced rfl
    · rw [if_neg ‹_›] at h'
      cases value with
      | text _ =>
        cases h
        cases h'
        exact .kept
      | _ => cases h
  | _ => cases h

section Literals

variable {c' : Condition} {coerce coerce' : Value → Except Error Value}

theorem toOption_toBoolean (v : Value) :
    (toBoolean c v).toOption = (toBoolean c' v).toOption := by
  unfold toBoolean
  cases v.isNull with
  | true => rfl
  | false => cases v.asBool? <;> rfl

theorem toOption_toNumber (integer : Bool) (v : Value) :
    (toNumber c integer v).toOption = (toNumber c' integer v).toOption := by
  cases v with
  | text s =>
    unfold toNumber
    dsimp only
    split <;> rfl
  | bool b => cases b <;> rfl
  | _ => rfl

theorem toOption_toDate (v : Value) : (toDate c v).toOption = (toDate c' v).toOption := by
  cases v with
  | text s =>
    unfold toDate
    dsimp only
    split <;> rfl
  | bool b => cases b <;> rfl
  | _ => rfl

theorem toOption_toDatetime (v : Value) :
    (toDatetime c v).toOption = (toDatetime c' v).toOption := by
  cases v with
  | text s =>
    unfold toDatetime
    dsimp only
    split <;> rfl
  | bool b => cases b <;> rfl
  | _ => rfl

theorem eq_of_toOption {v w w' : Value}
    (hcoerce : (coerce v).toOption = (coerce' v).toOption) (h : coerce v = .ok w)
    (h' : coerce' v = .ok w') : w = w' := by
  rw [h, h'] at hcoerce
  exact Option.some.inj hcoerce

theorem coerceSet_unique (hcoerce : ∀ v, (coerce v).toOption = (coerce' v).toOption)
    {values s s' : ValueSet} (h : coerceSet coerce values = .ok s)
    (h' : coerceSet coerce' values = .ok s') : s = s' := by
  obtain ⟨results, hresults, hs⟩ := Except.bind_eq_ok.1 h
  obtain ⟨results', hresults', hs'⟩ := Except.bind_eq_ok.1 h'
  cases hs
  cases hs'
  have hsame : ∀ {vs ws ws' : List Value}, Forall₂ (fun v w => coerce v = .ok w) vs ws →
      Forall₂ (fun v w => coerce' v = .ok w) vs ws' → ws = ws' := by
    intro vs ws ws' hws
    induction hws generalizing ws' with
    | nil =>
      intro hws'
      cases hws'
      rfl
    | cons hv _ ih =>
      intro hws'
      cases hws' with
      | cons hv' htail => rw [eq_of_toOption (hcoerce _) hv hv', ih htail]
  rw [hsame (mapM_eq_ok hresults) (mapM_eq_ok hresults')]

theorem mirrored_replaceLiterals (hc : c.Inverts op)
    (hcoerce : ∀ v, (coerce v).toOption = (coerce' v).toOption)
    (h : (match c.operand with
      | .scalar value => liftM (coerce value) >>= fun v => replaceOperand c (.scalar v)
      | .set values => liftM (coerceSet coerce values) >>= fun s => replaceOperand c (.set s)
      | .domain _ | .query _ => keep : Run Error (Option Domain)).result = .ok x)
    (h' : (match c.operand with
      | .scalar value => liftM (coerce' value) >>= fun v =>
          replaceOperand (c.withOperator op) (.scalar v)
      | .set values => liftM (coerceSet coerce' values) >>= fun s =>
          replaceOperand (c.withOperator op) (.set s)
      | .domain _ | .query _ => keep : Run Error (Option Domain)).result = .ok y) :
    Mirrored ctx c op x y := by
  cases hoperand : c.operand with
  | scalar value =>
    simp only [hoperand, Run.result_bind_eq_ok, Run.result_liftM] at h h'
    obtain ⟨v, hv, h⟩ := h
    obtain ⟨v', hv', h'⟩ := h'
    obtain rfl := eq_of_toOption (hcoerce value) hv hv'
    exact mirrored_replaceOperand hc h h'
  | set values =>
    simp only [hoperand, Run.result_bind_eq_ok, Run.result_liftM] at h h'
    obtain ⟨s, hs, h⟩ := h
    obtain ⟨s', hs', h'⟩ := h'
    obtain rfl := coerceSet_unique hcoerce hs hs'
    exact mirrored_replaceOperand hc h h'
  | domain _ | query _ =>
    simp only [hoperand] at h h'
    cases h
    cases h'
    exact .kept

theorem mirrored_booleanMembers (hc : c.Inverts op) (h : (booleanMembers c ctx).result = .ok x)
    (h' : (booleanMembers (c.withOperator op) ctx').result = .ok y) : Mirrored ctx c op x y := by
  unfold booleanMembers at h h'
  simp only [Condition.path_withOperator, Condition.operator_withOperator,
    Condition.operand_withOperator, hc.isMembership] at h'
  cases hoperand : c.operand with
  | set values =>
    simp only [hoperand] at h h'
    split at h
    · rename_i hop
      have hboth := membership_inverse hc hop
      rw [Run.result_bind_eq_ok] at h
      rw [if_pos hop, Run.result_bind_eq_ok] at h'
      obtain ⟨coerced, hcoerced, h⟩ := h
      obtain ⟨coerced', hcoerced', h'⟩ := h'
      obtain rfl := coerceSet_unique (fun v => toOption_toBoolean v) hcoerced hcoerced'
      split at h
      · rw [if_pos ‹_›] at h'
        cases h
        cases h'
        obtain ⟨hop, rfl⟩ | ⟨hop, rfl⟩ := hboth <;> rw [hop] <;> exact .replaced (hc.leaf rfl _)
      · rw [if_neg ‹_›] at h'
        exact mirrored_replaceOperand hc h h'
    · rw [if_neg ‹_›] at h'
      cases h
      cases h'
      exact .kept
  | _ =>
    simp only [hoperand] at h h'
    cases h
    cases h'
    exact .kept

theorem mirrored_bothBooleans (hc : c.Inverts op) (h : (bothBooleans c ctx).result = .ok x)
    (h' : (bothBooleans (c.withOperator op) ctx').result = .ok y) : Mirrored ctx c op x y := by
  unfold bothBooleans at h h'
  simp only [Condition.operator_withOperator, Condition.operand_withOperator,
    hc.isMembership] at h'
  cases hoperand : c.operand with
  | set values =>
    simp only [hoperand] at h h'
    split at h
    · rename_i hboth
      rw [if_pos hboth] at h'
      cases h
      cases h'
      simp only [Bool.and_eq_true] at hboth
      obtain ⟨hop, rfl⟩ | ⟨hop, rfl⟩ := membership_inverse hc hboth.1.1 <;> rw [hop] <;>
        exact .replaced rfl
    · rw [if_neg ‹_›] at h'
      cases h
      cases h'
      exact .kept
  | _ =>
    simp only [hoperand] at h h'
    cases h
    cases h'
    exact .kept

theorem mirrored_numericLiterals (hagree : Agree ctx ctx') (hc : c.Inverts op)
    (hset : ordersUnset c = false) (h : (numericLiterals c ctx).result = .ok x)
    (h' : (numericLiterals (c.withOperator op) ctx').result = .ok y) : Mirrored ctx c op x y := by
  unfold numericLiterals at h h'
  rw [hc.comparesLiterals, hc.ordersUnset] at h'
  simp only [hset, Bool.false_eq_true, if_false] at h h'
  split at h
  · rw [if_pos ‹_›] at h'
    simp only [Run.result_bind_eq_ok, Run.result_liftM] at h h'
    obtain ⟨field, hfield, h⟩ := h
    obtain ⟨field', hfield', h'⟩ := h'
    obtain rfl := hagree.field hfield hfield'
    exact mirrored_replaceLiterals hc (fun v => toOption_toNumber _ v) h h'
  · rw [if_neg ‹_›] at h'
    cases h
    cases h'
    exact .kept

theorem mirrored_dateLiterals (hc : c.Inverts op) (hset : ordersUnset c = false)
    (h : (dateLiterals c ctx).result = .ok x)
    (h' : (dateLiterals (c.withOperator op) ctx').result = .ok y) : Mirrored ctx c op x y := by
  unfold dateLiterals at h h'
  rw [hc.comparesLiterals, hc.ordersUnset] at h'
  simp only [hset, Bool.false_eq_true, if_false] at h h'
  split at h
  · rw [if_pos ‹_›] at h'
    cases h
    cases h'
    exact .kept
  · rw [if_neg ‹_›] at h'
    exact mirrored_replaceLiterals hc (fun v => toOption_toDate v) h h'

theorem negate_dayBound (hc : c.Inverts op) (hop : c.operator.isOrdering = true) (day : Date) :
    (dayBound c day).negate = dayBound (c.withOperator op) day := by
  have hinverse := hc.inverse
  obtain ⟨path, operator, operand, mark⟩ := c
  dsimp only [dayBound, Condition.withOperator, compareAt] at hop hinverse ⊢
  cases operator <;> cases hop <;> cases hinverse
  · exact hc.leaf rfl _
  · cases Timestamp.startOfNext? day with
    | none => rfl
    | some next => exact hc.leaf rfl _
  · cases Timestamp.startOfNext? day with
    | none => rfl
    | some next => exact hc.leaf rfl _
  · exact hc.leaf rfl _

theorem mirrored_datetimeLiterals (hc : c.Inverts op) (hset : ordersUnset c = false)
    (hordered : c.operator.isOrdering = true → ∃ v, c.operand = .scalar v)
    (hmembers : c.operator.isMembership = true → ∃ values, c.operand = .set values)
    (htype : ctx.entity.headType? c.path = some .datetime)
    (h : (datetimeLiterals c ctx).result = .ok x)
    (h' : (datetimeLiterals (c.withOperator op) ctx').result = .ok y) : Mirrored ctx c op x y := by
  unfold datetimeLiterals at h h'
  rw [hc.comparesLiterals, hc.ordersUnset] at h'
  simp only [hset, Bool.false_eq_true, if_false] at h h'
  split at h
  · rw [if_pos ‹_›] at h'
    cases h
    cases h'
    exact .kept
  · rename_i hcompares
    rw [if_neg hcompares] at h'
    rw [Bool.not_eq_true', Bool.not_eq_false] at hcompares
    have hop : c.operator.isOrdering = true ∨ c.operator.isMembership = true := by
      simpa [comparesLiterals, hc.plain] using hcompares
    simp only [Condition.operand_withOperator] at h'
    cases hoperand : c.operand with
    | scalar value =>
      have hordering : c.operator.isOrdering = true := by
        refine hop.resolve_right fun hop => ?_
        obtain ⟨values, hvalues⟩ := hmembers hop
        rw [hoperand] at hvalues
        cases hvalues
      simp only [hoperand, Run.result_bind_eq_ok, Run.result_liftM] at h h'
      obtain ⟨v, hv, h⟩ := h
      obtain ⟨v', hv', h'⟩ := h'
      obtain rfl := eq_of_toOption (toOption_toDatetime value) hv hv'
      cases v with
      | date day =>
        cases h
        cases h'
        exact .replaced (negate_dayBound hc hordering day)
      | _ => exact mirrored_replaceOperand hc h h'
    | set values =>
      have hmember : c.operator.isMembership = true := by
        refine hop.resolve_left fun hop => ?_
        obtain ⟨v, hv⟩ := hordered hop
        rw [hoperand] at hv
        cases hv
      simp only [hoperand, Run.result_bind_eq_ok, Run.result_liftM] at h h'
      obtain ⟨s, hs, h⟩ := h
      obtain ⟨s', hs', h'⟩ := h'
      obtain rfl := coerceSet_unique (fun v => toOption_toDatetime v) hs hs'
      split at h
      · rw [if_pos ‹_›] at h'
        exact mirrored_replaceOperand hc h h'
      · rename_i hdays
        rw [if_neg hdays] at h'
        cases h
        cases h'
        exact .dated ⟨htype, hcompares, values, hoperand, exists_day_of_coerceSet hs hdays⟩ hmember
          (literalsAre_coerceSet (coerces_toDatetime c) hs).1.1 (by simpa using hdays)
    | domain _ | query _ =>
      simp only [hoperand] at h h'
      cases h
      cases h'
      exact .kept

end Literals

theorem mirrored_members (hc : c.Inverts op) (hop : c.operator.isMembership = true)
    {members : Domain} (hmembers : members.IsBuilt fun leaf => leaf.mark = none ∧
      leaf.isDotted = false ∧ ∃ inverse, leaf.operator.inverse? = some inverse)
    (hx : x = some (if c.operator = .mem then members else members.negate))
    (hy : y = some (if op = .mem then members else members.negate)) : Mirrored ctx c op x y := by
  subst hx hy
  obtain ⟨hop, rfl⟩ | ⟨hop, rfl⟩ := membership_inverse hc hop <;> rw [hop]
  · exact .replaced rfl
  · exact .replaced (hmembers.mono fun _ h => h.1).negate_negate

theorem mirrored_manyMembers (hc : c.Inverts op) (h : (manyMembers c ctx).result = .ok x)
    (h' : (manyMembers (c.withOperator op) ctx').result = .ok y) : Mirrored ctx c op x y := by
  unfold manyMembers at h h'
  cases hoperand : c.operand with
  | set values =>
    have hoperand' : (c.withOperator op).operand = .set values := hoperand
    simp only [hoperand, hoperand'] at h h'
    change (if c.isDotted || !op.isMembership then keep else replace (if op = .mem then _ else _)
      : Run Error (Option Domain)).result = _ at h'
    rw [hc.isMembership] at h'
    split at h
    · rw [if_pos ‹_›] at h'
      cases h
      cases h'
      exact .kept
    · rename_i hop
      rw [if_neg hop] at h'
      cases h
      cases h'
      refine mirrored_members hc (by simpa [hc.plain] using hop) (.apply fun e he => ?_) rfl rfl
      obtain he | he := mem_append.1 he
      · split at he
        · cases he
        · obtain rfl := mem_singleton.1 he
          exact .condition ⟨rfl, hc.plain, _, rfl⟩
      · split at he
        · obtain rfl := mem_singleton.1 he
          exact .condition ⟨rfl, hc.plain, _, rfl⟩
        · cases he
  | _ =>
    have hoperand' : (c.withOperator op).operand = c.operand := rfl
    simp only [hoperand', hoperand] at h h'
    cases h
    cases h'
    exact .kept

theorem name_eq_path (hc : c.Inverts op) {field : Field} (hfield : ctx.field c = .ok field) :
    field.name = c.path := by
  rw [Context.field_eq_ok] at hfield
  exact (Entity.name_of_field? hfield).trans
    (Text.cut_fst_of_none (Condition.rest?_eq_none.2 hc.plain))

theorem isBuilt_labelledMembers (hc : c.Inverts op) {field : Field} (hname : field.name = c.path)
    (comodel : Entity) (labels ids : List Value) :
    (labelledMembers field comodel labels ids).IsBuilt fun leaf =>
      leaf.mark = none ∧ leaf.isDotted = false ∧
        ∃ inverse, leaf.operator.inverse? = some inverse := by
  have hbyLabel : (traversal c.path .any
      (.leaf comodel.recName .mem (.set (.ofList labels)))).IsBuilt fun leaf =>
        leaf.mark = none ∧ leaf.isDotted = false ∧
          ∃ inverse, leaf.operator.inverse? = some inverse :=
    .condition ⟨rfl, hc.plain, _, rfl⟩
  unfold labelledMembers
  rw [hname]
  dsimp only
  split
  · exact hbyLabel
  · refine .apply (forall_mem_cons.2 ⟨hbyLabel, forall_mem_singleton.2 ?_⟩)
    exact .condition ⟨rfl, hc.plain, _, rfl⟩

/-- Under both operators the related records are asked for the same pattern, once for any of them
and once for none. -/
theorem mirrored_labelPattern (hc : c.Inverts op) (hop : c.operator.isPattern = true)
    (name : String) (operand : Operand) : Mirrored ctx c op
      (some (traversal c.path (if c.operator.isNegative then .notAny else .any)
        (.leaf name c.operator.positive operand)))
      (some (traversal c.path (if op.isNegative then .notAny else .any)
        (.leaf name op.positive operand))) := by
  have hinverse := hc.inverse
  refine .replaced ?_
  cases hoperator : c.operator <;> rw [hoperator] at hinverse hop <;> cases hop <;>
    cases hinverse <;> exact hc.leaf rfl _

theorem mirrored_labels (hagree : Agree ctx ctx') (hc : c.Inverts op)
    (h : (labels c ctx).result = .ok x)
    (h' : (labels (c.withOperator op) ctx').result = .ok y) : Mirrored ctx c op x y := by
  unfold labels at h h'
  simp only [Run.result_bind_eq_ok, Run.result_liftM] at h h'
  obtain ⟨field, hfield, h⟩ := h
  obtain ⟨field', hfield', h'⟩ := h'
  obtain rfl := hagree.field hfield hfield'
  have hname := name_eq_path hc hfield
  have hcomodel : ∀ {target target'}, ctx.catalog.comodel c field' = .ok target →
      ctx'.catalog.comodel (c.withOperator op) field' = .ok target' → target' = target := by
    intro target target' htarget htarget'
    rw [Catalog.comodel_eq_ok] at htarget htarget'
    rw [hagree.catalog, htarget] at htarget'
    exact (Option.some.inj htarget').symm
  change (if !field'.isRelational || c.isDotted then keep else _
    : Run Error (Option Domain)).result = _ at h'
  split at h
  · rw [if_pos ‹_›] at h'
    cases h
    cases h'
    exact .kept
  · rw [if_neg ‹_›] at h'
    cases hoperand : c.operand with
    | set values =>
      have hoperand' : (c.withOperator op).operand = .set values := hoperand
      simp only [hoperand, hoperand'] at h h'
      change (if !op.isMembership || _ then keep else _ : Run Error (Option Domain)).result = _ at h'
      rw [hc.isMembership] at h'
      split at h
      · rw [if_pos ‹_›] at h'
        cases h
        cases h'
        exact .kept
      · rename_i hop
        rw [if_neg hop] at h'
        simp only [Run.result_bind_eq_ok, Run.result_liftM] at h h'
        obtain ⟨comodel, hcomodel₁, h⟩ := h
        obtain ⟨comodel', hcomodel₂, h'⟩ := h'
        obtain rfl := hcomodel hcomodel₁ hcomodel₂
        simp only [Bool.or_eq_true, Bool.not_eq_true', not_or, Bool.not_eq_false] at hop
        cases h
        cases h'
        exact mirrored_members hc hop.1 (isBuilt_labelledMembers hc hname _ _ _) rfl rfl
    | scalar value =>
      have hoperand' : (c.withOperator op).operand = .scalar value := hoperand
      cases value with
      | text label =>
        simp only [hoperand, hoperand'] at h h'
        change (if !op.isPattern then keep else _ : Run Error (Option Domain)).result = _ at h'
        rw [(Operator.kinds_of_inverse? hc.inverse).2.2.1] at h'
        split at h
        · rw [if_pos ‹_›] at h'
          cases h
          cases h'
          exact .kept
        · rename_i hop
          rw [if_neg hop] at h'
          simp only [Run.result_bind_eq_ok, Run.result_liftM] at h h'
          obtain ⟨comodel, hcomodel₁, h⟩ := h
          obtain ⟨comodel', hcomodel₂, h'⟩ := h'
          obtain rfl := hcomodel hcomodel₁ hcomodel₂
          cases h
          cases h'
          rw [hname]
          exact mirrored_labelPattern hc (by simpa using hop) _ _
      | _ =>
        simp only [hoperand, hoperand'] at h h'
        cases h
        cases h'
        exact .kept
    | _ =>
      have hoperand' : (c.withOperator op).operand = c.operand := rfl
      simp only [hoperand', hoperand] at h h'
      cases h
      cases h'
      exact .kept

theorem mirrored_relatedDomain (hagree : Agree ctx ctx') (hc : c.Inverts op)
    (hop : c.operator.isTraversal = true) (h : (relatedDomain c ctx).result = .ok x)
    (h' : (relatedDomain (c.withOperator op) ctx').result = .ok y) : Mirrored ctx c op x y := by
  have hboth : (c.operator = .any ∧ op = .notAny) ∨ (c.operator = .notAny ∧ op = .any) := by
    have hinverse := hc.inverse
    cases hoperator : c.operator <;> rw [hoperator] at hop hinverse <;> cases hop <;>
      cases hinverse
    · exact .inl ⟨rfl, rfl⟩
    · exact .inr ⟨rfl, rfl⟩
  unfold relatedDomain at h h'
  simp only [Run.result_bind_eq_ok, Run.result_liftM] at h h'
  obtain ⟨field, hfield, target, htarget, h⟩ := h
  obtain ⟨field', hfield', target', htarget', h'⟩ := h'
  have htarget₁ := (Context.target_eq_ok hfield).1 htarget
  have htarget₂ := (Context.target_eq_ok hfield').1 htarget'
  rw [hagree.catalog, hagree.entity] at htarget₂
  change ctx.catalog.target? ctx.entity c.path = some target' at htarget₂
  rw [htarget₁, Option.some.injEq] at htarget₂
  subst htarget₂
  obtain rfl := hagree.field hfield hfield'
  have hname := name_eq_path hc hfield
  cases hoperand : c.operand with
  | query q =>
    have hoperand' : (c.withOperator op).operand = .query q := hoperand
    simp only [hoperand, hoperand'] at h h'
    cases h
    cases h'
    exact .kept
  | domain inner =>
    have hoperand' : (c.withOperator op).operand = .domain inner := hoperand
    simp only [hoperand, hoperand', Run.result_bind_eq_ok] at h h'
    obtain ⟨optimized, hoptimized, h⟩ := h
    obtain ⟨optimized', hoptimized', h'⟩ := h'
    obtain rfl := hagree.nested _ _ _ _ hoptimized hoptimized'
    change (if optimized.isFalse then replace (.constant !(op == .any)) else
      if optimized.isTrue && field'.type == .many2one then
        replace (.leaf field'.name (if op == .any then .notMem else .mem) (.set .unset))
      else if optimized.same inner then keep
      else replace (.condition ((c.withOperator op).withOperand (.domain optimized)))
      : Run Error (Option Domain)).result = _ at h'
    rw [hname] at h h'
    split at h
    · rw [if_pos ‹_›] at h'
      cases h
      cases h'
      obtain ⟨hop, rfl⟩ | ⟨hop, rfl⟩ := hboth <;> rw [hop] <;> exact .replaced rfl
    · rw [if_neg ‹_›] at h'
      split at h
      · rw [if_pos ‹_›] at h'
        cases h
        cases h'
        obtain ⟨hop, rfl⟩ | ⟨hop, rfl⟩ := hboth <;> rw [hop] <;> exact .replaced (hc.leaf rfl _)
      · rw [if_neg ‹_›] at h'
        split at h
        · rw [if_pos ‹_›] at h'
          cases h
          cases h'
          exact .kept
        · rw [if_neg ‹_›] at h'
          cases h
          cases h'
          exact .replaced (hc.withOperand _).negate
  | _ =>
    simp only [hoperand] at h
    cases h

theorem namesLabels_withOperator (hc : c.Inverts op) :
    namesLabels (c.withOperator op) = namesLabels c := by
  obtain ⟨hmember, -, hpattern, -⟩ := Operator.kinds_of_inverse? hc.inverse
  unfold namesLabels Condition.withOperator
  dsimp only
  rw [hmember, hpattern]

theorem IsSqlReady.inverse (hc : c.Inverts op) {field : Field} (h : IsSqlReady c field) :
    IsSqlReady (c.withOperator op) field := by
  obtain ⟨hmember, -, -, htraversal⟩ := Operator.kinds_of_inverse? hc.inverse
  obtain ⟨-, hpath, hrelation, hshape, hsearchable⟩ := h
  refine ⟨?_, hpath, ?_, ?_, hsearchable⟩
  · have hinverse := Operator.inverse?_symm hc.inverse
    change op.isStandard = true
    cases op <;> first
      | rfl
      | cases hinverse
  · change (op.isTraversal && _) = false
    rwa [htraversal]
  · rw [Condition.operand_withOperator]
    change acceptsShape op c.operand = true
    cases hoperand : c.operand <;> rw [hoperand] at hshape <;>
      simpa [acceptsShape, hmember, htraversal] using hshape

/-- A pass that keeps a condition keeps its inverse. -/
theorem keeps_inverse (hc : c.Inverts op) {entry : PassEntry}
    (hentry : entry ∈ Registry.standard.passes)
    (h : (entry.pass.run c ctx).result = .ok none) :
    (entry.pass.run (c.withOperator op) ctx).result = .ok none := by
  have hfield : ∀ {field}, ctx.field c = .ok field → ctx.field (c.withOperator op) = .ok field := by
    intro field hfield
    rw [Context.field_eq_ok] at hfield ⊢
    exact hfield
  cases Registry.isStandard_of_mem hentry
  all_goals dsimp only at h ⊢
  case resolvePath =>
    obtain ⟨field, hfield', hrest⟩ := resolvePath_eq_none.1 h
    exact resolvePath_eq_none.2 ⟨field, hfield hfield', hrest⟩
  case deprecatedOperator =>
    have hinverse := Operator.inverse?_symm hc.inverse
    refine deprecatedOperator_eq_none.2 ⟨?_, ?_, ?_⟩ <;> change op ≠ _ <;> rintro rfl <;>
      cases hinverse
  case equalityToMembership => exact absurd h (equalityToMembership_ne_none c ctx)
  case membershipOperand =>
    have hkept := membershipOperand_eq_none.1 h
    exact membershipOperand_eq_none.2 hkept
  case patternOperand =>
    have hkept := patternOperand_eq_none.1 h
    exact patternOperand_eq_none.2 hkept
  case labels =>
    obtain ⟨field, hfield', hkept⟩ := labels_eq_none.1 h
    exact labels_eq_none.2 ⟨field, hfield hfield', by rwa [namesLabels_withOperator hc]⟩
  case relatedDomain =>
    obtain ⟨field, target, hfield', htarget, hoperand⟩ := relatedDomain_eq_none.1 h
    refine relatedDomain_eq_none.2 ⟨field, target, hfield hfield', ?_, hoperand⟩
    rw [Context.target_eq_ok (hfield hfield')]
    exact (Context.target_eq_ok hfield').1 htarget
  case manyMembers =>
    refine manyMembers_eq_none.2 fun values hvalues => ?_
    have hkept := manyMembers_eq_none.1 h values hvalues
    rwa [← hc.isMembership] at hkept
  case booleanMembers =>
    refine booleanMembers_eq_none.2 fun values hvalues hop => ?_
    exact booleanMembers_eq_none.1 h values hvalues (hc.isMembership ▸ hop)
  case dateLiterals =>
    refine dateLiterals_eq_none.2 ?_
    rw [hc.comparesLiterals, hc.ordersUnset]
    exact dateLiterals_eq_none.1 h
  case datetimeLiterals =>
    refine datetimeLiterals_eq_none.2 ?_
    rw [hc.comparesLiterals, hc.ordersUnset]
    exact datetimeLiterals_eq_none.1 h
  case numericLiterals =>
    refine numericLiterals_eq_none.2 ?_
    rw [hc.comparesLiterals, hc.ordersUnset]
    intro hcompares
    obtain ⟨⟨field, hfield'⟩, hkept⟩ := numericLiterals_eq_none.1 h hcompares
    exact ⟨⟨field, hfield hfield'⟩, hkept⟩
  case attachmentExists =>
    obtain ⟨field, hfield', hkept⟩ := attachmentExists_eq_none.1 h
    rw [← hc.isMembership] at hkept
    exact attachmentExists_eq_none.2 ⟨field, hfield hfield', hkept⟩
  case inheritedField =>
    obtain ⟨field, hfield', hkept⟩ := inheritedField_eq_none.1 h
    exact inheritedField_eq_none.2 ⟨field, hfield hfield', hkept⟩
  case computedField =>
    obtain ⟨field, hfield', hkept⟩ := computedField_eq_none.1 h
    exact computedField_eq_none.2 ⟨field, hfield hfield', hkept⟩
  case hierarchy => exact absurd h hierarchy_ne_none
  case bothBooleans =>
    refine bothBooleans_eq_none.2 fun values hvalues => ?_
    have hkept := bothBooleans_eq_none.1 h values hvalues
    rwa [← hc.isMembership] at hkept
  case sqlReady =>
    obtain ⟨-, field, hfield', hready⟩ := sqlReady_eq_ok.1 h
    exact sqlReady_eq_ok.2 ⟨rfl, field, hfield hfield', hready.inverse hc⟩

end Pass

theorem PassScope.operatorCount_inverse {op inverse : Operator} (h : op.inverse? = some inverse) :
    ∀ entry ∈ Registry.standard.passes,
      entry.scope.operatorCount inverse = entry.scope.operatorCount op := by
  intro entry hentry
  cases Registry.isStandard_of_mem hentry
  all_goals cases op <;> cases h <;> rfl

theorem PassScope.covers_inverse {op inverse : Operator} (h : op.inverse? = some inverse)
    {type : Option FieldType} : ∀ entry ∈ Registry.standard.passes,
      entry.scope.covers inverse type = entry.scope.covers op type := by
  intro entry hentry
  have hcount := operatorCount_inverse h entry hentry
  cases hscope : entry.scope with
  | operators ops =>
    rw [hscope] at hcount
    simp only [operatorCount] at hcount
    rw [Bool.eq_iff_iff]
    simp only [covers, contains_iff_mem, ← count_pos_iff, hcount]
  | _ => rfl

theorem Condition.Kept.inverse {catalog : Catalog} {level : Level} {entity : Entity} {c : Condition}
    {op : Operator} (h : c.Kept catalog level entity) (hc : c.Inverts op) :
    (c.withOperator op).Kept catalog level entity := by
  intro entry hentry hlevel hcovers
  refine Pass.keeps_inverse hc hentry (h entry hentry hlevel ?_)
  rwa [← PassScope.covers_inverse hc.inverse entry hentry]

theorem Condition.Kept.of_moments {catalog : Catalog} {level : Level} {entity : Entity}
    {c : Condition} {field : Field} (hlevel : level ≠ .sql)
    (hfield : entity.field? c.head = some field) (hplain : level = .search → field.IsPlain)
    (htype : field.type = .datetime) (hrest : c.rest? = none)
    (hop : c.operator.isOrdering = true ∨ (c.operator.isMembership = true ∧
      ∃ values, c.operand = .set values ∧ values.isEmpty = false))
    (hset : Pass.ordersUnset c = false) (hliterals : c.operand.LiteralsAre Pass.isMoment) :
    c.Kept catalog level entity := by
  intro entry hentry hentryLevel hcovers
  have hsearch : Level.search.le level = true → level = .search := by
    cases level <;> simp_all [Level.le, Level.rank]
  have hctx : (Context.still catalog level entity).field c = .ok field :=
    Context.field_eq_ok.2 hfield
  have hheadType : entity.headType? c.path = some .datetime :=
    (Pass.headType?_of_field hctx).trans (congrArg some htype)
  have hrelational : field.isRelational = false := by
    rw [Field.isRelational, htype]
    rfl
  have hoperators : ∀ ops : List Operator,
      (∀ op ∈ ops, op.isOrdering = false ∧ op.isMembership = false) →
      (PassScope.operators ops).covers c.operator (entity.headType? c.path) = false := by
    intro ops hops
    rw [Bool.eq_false_iff, ne_eq, PassScope.covers, contains_iff_mem]
    intro hmem
    obtain hop | ⟨hop, -⟩ := hop
    · exact absurd hop (by rw [(hops _ hmem).1]; exact Bool.false_ne_true)
    · exact absurd hop (by rw [(hops _ hmem).2]; exact Bool.false_ne_true)
  rw [hheadType] at hcovers hoperators
  cases Registry.isStandard_of_mem hentry
  all_goals dsimp only at hcovers ⊢
  case resolvePath => exact Pass.resolvePath_eq_none.2 ⟨field, hctx, .inl hrest⟩
  case deprecatedOperator | equalityToMembership | patternOperand | relatedDomain | hierarchy =>
    cases (hoperators _ (by decide)).symm.trans hcovers
  case membershipOperand =>
    obtain hop | ⟨-, hvalues⟩ := hop
    · cases hoperator : c.operator <;> rw [hoperator] at hop hcovers <;> cases hop <;> cases hcovers
    · exact Pass.membershipOperand_eq_none.2 hvalues
  case labels => exact Pass.labels_eq_none.2 ⟨field, hctx, .inl hrelational⟩
  case manyMembers | booleanMembers | dateLiterals | numericLiterals | attachmentExists |
      bothBooleans =>
    cases hcovers
  case datetimeLiterals => exact Pass.datetimeLiterals_eq_none.2 fun _ => ⟨hset, hliterals⟩
  case inheritedField =>
    exact Pass.inheritedField_eq_none.2 ⟨field, hctx, (hplain (hsearch hentryLevel)).owned⟩
  case computedField =>
    refine Pass.computedField_eq_none.2 ⟨field, hctx, ?_⟩
    simp [(hplain (hsearch hentryLevel)).stored]
  case sqlReady => cases level <;> simp_all [Level.le, Level.rank]

theorem Pass.exists_inside {c : Condition} (hplain : c.isDotted = false) {values : ValueSet}
    (hvalues : ∀ v ∈ values.values, isDayOrMoment v = true) :
    ∃ inside : Domain, inside.Over (Dated c) ∧ ∀ op, dayMembership (c.withOperator op) values =
      if op = .mem then inside else if values.containsNull then inside.negate
      else .or [inside.negate, .leaf c.path .mem (.set .unset)] := by
  refine ⟨dayMembership (c.withOperator .mem) values, ?_, fun op => rfl⟩
  refine (over_dayMembership (c := c.withOperator .mem) hplain hvalues).mono fun c' hc' => ?_
  cases hc' with
  | bound hop => exact .bound hop
  | moments hop hmembers hdistinct hsome => exact .moments hop hmembers hdistinct hsome

theorem Pass.isMoment_unset : ∀ v ∈ ValueSet.unset.values, isMoment v = true :=
  fun _ hv => mem_singleton.1 hv ▸ rfl

theorem Pass.Dated.kept {catalog : Catalog} {level : Level} {entity : Entity}
    (hlevel : level ≠ .sql) (hplain : level = .search → entity.IsPlain) {c c' : Condition}
    (htype : entity.headType? c.path = some .datetime) (hdotted : c.isDotted = false)
    (h : Dated c c') : c'.Kept catalog level entity := by
  obtain ⟨field, hfield, htype⟩ := Option.map_eq_some_iff.1 htype
  have hrest := Condition.rest?_eq_none.2 hdotted
  cases h with
  | @bound op t hop =>
    refine .of_moments hlevel hfield (fun h => (hplain h).of_field? hfield) htype hrest (.inl hop)
      ?_ rfl
    exact Bool.and_false _
  | @moments op members hop hmembers hdistinct hsome =>
    refine .of_moments hlevel hfield (fun h => (hplain h).of_field? hfield) htype hrest
      (.inr ⟨hop, members, rfl, hsome⟩) ?_ ⟨hmembers, hdistinct⟩
    exact Bool.and_false _

namespace Optimizer

variable {ctx ctx' : Context} {c : Condition} {op : Operator}

theorem candidates_withOperator (hagree : Pass.Agree ctx ctx') (hc : c.Inverts op) :
    standard.candidates ctx' (c.withOperator op) = standard.candidates ctx c := by
  unfold candidates
  rw [hagree.level, hagree.entity]
  refine flatMap_congr fun level _ => ?_
  unfold Registry.passesFor
  dsimp only
  congr 2
  refine flatMap_congr fun entry hentry => ?_
  rw [← PassScope.operatorCount_inverse hc.inverse entry (mem_of_mem_filter hentry)]
  rfl

variable (hagree : Pass.Agree ctx ctx') (hplain : ctx.entity.IsPlain) (hc : c.Inverts op)
  (hset : Pass.ordersUnset c = false)
  (hordered : c.operator.isOrdering = true → ∃ v, c.operand = .scalar v)

include hagree hplain hc hset hordered

theorem mirrored_pass {before after : List NamedPass} {pass : NamedPass}
    (hsplit : standard.candidates ctx c = before ++ pass :: after)
    (hbefore : ∀ earlier ∈ before, (earlier.run c ctx).result = .ok none) {x y : Option Domain}
    (h : (pass.run c ctx).result = .ok x)
    (h' : (pass.run (c.withOperator op) ctx').result = .ok y) : Pass.Mirrored ctx c op x y := by
  have hmem : pass ∈ standard.candidates ctx c := by simp [hsplit]
  have hmembers : pass.name ∉ ["resolve_field", "membership_value", "search_by_label"] →
      c.operator.isMembership = true → ∃ values, c.operand = .set values :=
    fun hname hop => exists_set_before hop hsplit hbefore hname
  have hnone : (pass.run c ctx).result = .ok none →
      (pass.run (c.withOperator op) ctx').result = .ok none → Pass.Mirrored ctx c op x y := by
    intro hkept hkept'
    rw [h, Except.ok.injEq] at hkept
    rw [h', Except.ok.injEq] at hkept'
    subst hkept hkept'
    exact .kept
  obtain ⟨entry, hentry, -, hcovers, rfl⟩ := mem_candidates.1 hmem
  have hoperators : ∀ operators, entry.scope = .operators operators → c.operator ∈ operators :=
    fun operators hscope => PassScope.covers_operators.1 (hscope ▸ hcovers)
  -- A pass that keeps what is on a plain field.
  have hkeeps : (∃ field, ctx.field c = .ok field) →
      (∀ {ctx : Context} {c : Condition} {field : Field}, ctx.field c = .ok field →
        field.IsPlain → c.isDotted = false → (entry.pass.run c ctx).result = .ok none) →
      Pass.Mirrored ctx c op x y := by
    rintro ⟨field, hfield⟩ hkept
    have hname := Context.field_eq_ok.1 hfield
    have hfield' : ctx'.field (c.withOperator op) = .ok field := by
      rw [Context.field_eq_ok, hagree.entity]
      exact hname
    exact hnone (hkept hfield (hplain.of_field? hname) hc.plain)
      (hkept hfield' (hplain.of_field? hname) hc.plain)
  cases Registry.isStandard_of_mem hentry
  all_goals dsimp only at h h'
  case resolvePath =>
    refine hkeeps ?_ fun hfield _ hdotted => Pass.resolvePath_eq_none.2
      ⟨_, hfield, .inl (Condition.rest?_eq_none.2 hdotted)⟩
    simp only [Pass.resolvePath, Run.result_bind_eq_ok, Run.result_liftM] at h
    exact h.imp fun _ h => h.1
  case deprecatedOperator | hierarchy =>
    exact absurd (by decide) (hc.not_forall_eq_none (hoperators _ rfl))
  case equalityToMembership =>
    exact Pass.mirrored_equalityToMembership hc (by simpa using hoperators _ rfl) h h'
  case membershipOperand =>
    exact Pass.mirrored_membershipOperand hc (Registry.mem_membershipOperators.1 (hoperators _ rfl))
      h h'
  case patternOperand =>
    exact Pass.mirrored_patternOperand hc (Registry.mem_patternOperators.1 (hoperators _ rfl)) h h'
  case labels => exact Pass.mirrored_labels hagree hc h h'
  case relatedDomain =>
    exact Pass.mirrored_relatedDomain hagree hc (Operator.mem_traversals.1 (hoperators _ rfl)) h h'
  case manyMembers => exact Pass.mirrored_manyMembers hc h h'
  case booleanMembers => exact Pass.mirrored_booleanMembers hc h h'
  case dateLiterals => exact Pass.mirrored_dateLiterals hc hset h h'
  case datetimeLiterals =>
    refine Pass.mirrored_datetimeLiterals hc hset hordered (hmembers (by decide)) ?_ h h'
    obtain ⟨field, hfield, hmem⟩ := covers_types.1 hcovers
    rw [Pass.headType?_of_field hfield, mem_singleton.1 hmem]
  case numericLiterals => exact Pass.mirrored_numericLiterals hagree hc hset h h'
  case attachmentExists =>
    refine hkeeps ?_ fun hfield hplain _ =>
      Pass.attachmentExists_eq_none.2 ⟨_, hfield, .inl hplain.inTable⟩
    simp only [Pass.attachmentExists, Run.result_bind_eq_ok, Run.result_liftM] at h
    exact h.imp fun _ h => h.1
  case inheritedField =>
    refine hkeeps ?_ fun hfield hplain _ =>
      Pass.inheritedField_eq_none.2 ⟨_, hfield, hplain.owned⟩
    simp only [Pass.inheritedField, Run.result_bind_eq_ok, Run.result_liftM] at h
    exact h.imp fun _ h => h.1
  case computedField =>
    refine hkeeps ?_ fun hfield hplain _ =>
      Pass.computedField_eq_none.2 ⟨_, hfield, by simp [hplain.stored]⟩
    simp only [Pass.computedField, Run.result_bind_eq_ok, Run.result_liftM] at h
    exact h.imp fun _ h => h.1
  case bothBooleans => exact Pass.mirrored_bothBooleans hc h h'
  case sqlReady =>
    obtain rfl := (Pass.sqlReady_eq_ok.1 h).1
    obtain rfl := (Pass.sqlReady_eq_ok.1 h').1
    exact .kept

/-- One step on both conditions: both are kept, or both are replaced by the same pass. -/
theorem Steps.mirrored {s s' : Step} (h : Steps standard ctx (.condition c) s)
    (h' : Steps standard ctx' (.condition (c.withOperator op)) s') :
    (s = .done (.condition (c.withMark ctx.mark)) ∧
      s' = .done (.condition ((c.withOperator op).withMark ctx'.mark))) ∨
    ∃ d e, s = .changed d ∧ s' = .changed e ∧ Pass.Mirrored ctx c op (some d) (some e) := by
  have hcandidates := candidates_withOperator hagree hc
  have hpass : ∀ {before after : List NamedPass} {pass : NamedPass} {x y : Option Domain},
      standard.candidates ctx c = before ++ pass :: after →
      (∀ earlier ∈ before, (earlier.run c ctx).result = .ok none) →
      (pass.run c ctx).result = .ok x →
      (pass.run (c.withOperator op) ctx').result = .ok y → Pass.Mirrored ctx c op x y :=
    fun hsplit hbefore => mirrored_pass hagree hplain hc hset hordered hsplit hbefore
  cases h with
  | kept hkept =>
    cases h' with
    | kept hkept' => exact .inl ⟨rfl, rfl⟩
    | @replaced _ before pass after e hsplit hbefore hreplaced =>
      rw [hcandidates] at hsplit
      have hnone := hkept pass (by simp [hsplit])
      cases hpass hsplit (fun earlier hearlier => hkept earlier (by simp [hsplit, hearlier])) hnone
        hreplaced
  | @replaced _ before pass after d hsplit hbefore hreplaced =>
    cases h' with
    | kept hkept' =>
      rw [hcandidates] at hkept'
      cases hpass hsplit hbefore hreplaced (hkept' pass (by simp [hsplit]))
    | @replaced _ before' pass' after' e hsplit' hbefore' hreplaced' =>
      rw [hcandidates] at hsplit'
      obtain ⟨as, rfl, has⟩ | ⟨bs, rfl, hbs⟩ := append_eq_append_iff.1 (hsplit.symm.trans hsplit')
      · cases as with
        | nil =>
          cases has
          exact .inr ⟨d, e, rfl, rfl, hpass hsplit hbefore hreplaced hreplaced'⟩
        | cons first as =>
          cases has
          cases hpass hsplit hbefore hreplaced (hbefore' pass (by simp))
      · cases bs with
        | nil =>
          cases hbs
          rw [append_nil] at hsplit hbefore
          exact .inr ⟨d, e, rfl, rfl, hpass hsplit hbefore hreplaced hreplaced'⟩
        | cons first bs =>
          cases hbs
          cases hpass hsplit' (fun earlier hearlier => hbefore earlier (by simp [hearlier]))
            (hbefore pass' (by simp)) hreplaced'

end Optimizer

end QueryDomain
