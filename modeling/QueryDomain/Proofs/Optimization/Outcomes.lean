import QueryDomain.Proofs.Domain.Leaves
import QueryDomain.Proofs.Optimization.Exact

/-! What the standard passes can put in the place of a condition, said once: another condition on
the same path, conditions that need less, or the intervals that days stand for. Whatever is proved
about single changes goes by cases on these relations, and no pass has to be opened for it. -/
namespace QueryDomain

open List

theorem Connective.forall_apply {Q : Domain → Prop} (hconstant : ∀ v, Q (.constant v))
    (hnary : ∀ {k children mark}, Q (.nary k children mark) ↔ ∀ d ∈ children, Q d) {k : Connective}
    {ds : List Domain} (h : ∀ d ∈ ds, Q d) : Q (k.apply ds) := by
  unfold Connective.apply
  split
  · exact hconstant _
  · rename_i collected hcollected
    have hall : ∀ d ∈ collected, Q d := by
      intro d hd
      obtain ⟨hmem, -⟩ | ⟨grandchildren, mark, hmem, hd⟩ := Connective.mem_collect? hcollected hd
      · exact h d hmem
      · exact hnary.1 (h _ hmem) d hd
    unfold Connective.node
    split
    · exact hconstant _
    · exact hall _ (mem_singleton.2 rfl)
    · exact hnary.2 hall

namespace Domain

variable {Q R : Condition → Prop} {k : Connective} {d : Domain}

/-- Built from conditions of a kind by the connectives alone, or a constant. -/
inductive Over (Q : Condition → Prop) : Domain → Prop
  | constant (v) : Over Q (.constant v)
  | nary {k children} : children ≠ [] → (∀ d ∈ children, ∀ v, d ≠ .constant v) →
      (∀ d ∈ children, Over Q d) → Over Q (.nary k children none)
  | condition {c} : Q c → Over Q (.condition c)

namespace Over

theorem constant_or_exists (h : d.Over Q) : (∃ v, d = .constant v) ∨ ∃ c, Q c := by
  induction h with
  | constant v => exact .inl ⟨v, rfl⟩
  | nary hsome hconstant _ ih =>
    obtain ⟨d, hd⟩ := exists_mem_of_ne_nil _ hsome
    obtain ⟨v, hv⟩ | hexists := ih d hd
    · exact absurd hv (hconstant d hd v)
    · exact .inr hexists
  | condition hc => exact .inr ⟨_, hc⟩

theorem of_mem_leaves (h : d.Over Q) : ∀ c ∈ d.leaves, Q c := by
  induction h with
  | constant v => nofun
  | nary _ _ _ ih =>
    intro c hc
    obtain ⟨d, hd, hc⟩ := mem_leaves_nary.1 hc
    exact ih d hd c hc
  | condition hc =>
    intro c hmem
    obtain rfl := mem_singleton.1 hmem
    exact hc

theorem isFresh (h : d.Over Q) (hQ : ∀ c, Q c → c.mark = none) : d.IsFresh := by
  induction h with
  | constant v => exact .constant v
  | nary _ _ _ ih => exact .nary ih
  | condition hc => exact .condition (hQ _ hc)

theorem mono (h : d.Over Q) (hQ : ∀ c, Q c → R c) : d.Over R := by
  induction h with
  | constant v => exact .constant v
  | nary hsome hconstant _ ih => exact .nary hsome hconstant ih
  | condition hc => exact .condition (hQ _ hc)

theorem apply {ds : List Domain} (h : ∀ d ∈ ds, d.Over Q) : (k.apply ds).Over Q := by
  unfold Connective.apply
  split
  · exact .constant _
  · rename_i collected hcollected
    have hall : ∀ d ∈ collected, d.Over Q ∧ ∀ v, d ≠ .constant v := by
      intro d hd
      obtain ⟨hmem, hconstant, -⟩ | ⟨grandchildren, mark, hmem, hd⟩ :=
        Connective.mem_collect? hcollected hd
      · exact ⟨h d hmem, hconstant⟩
      · cases h _ hmem with
        | nary _ hconstant hchildren => exact ⟨hchildren d hd, hconstant d hd⟩
    unfold Connective.node
    split
    · exact .constant _
    · exact (hall _ (mem_singleton.2 rfl)).1
    · refine .nary ?_ (fun d hd => (hall d hd).2) fun d hd => (hall d hd).1
      rintro rfl
      simp_all

theorem exists_collected {ds : List Domain} (h : ∀ d ∈ ds, d.Over Q ∧ ∀ v, d ≠ .constant v) :
    ∃ collected, k.collect? ds = some collected ∧ (ds ≠ [] → collected ≠ []) := by
  induction ds with
  | nil => exact ⟨[], rfl, fun hsome => hsome⟩
  | cons d ds ih =>
    rw [forall_mem_cons] at h
    obtain ⟨⟨hover, hconstant⟩, h⟩ := h
    have hnew : ∃ new, k.contribution? d = some new ∧ new ≠ [] := by
      cases hover with
      | constant v => exact absurd rfl (hconstant v)
      | @nary l children hsome _ _ =>
        unfold Connective.contribution?
        dsimp only
        split
        · exact ⟨_, rfl, hsome⟩
        · exact ⟨_, rfl, cons_ne_nil _ _⟩
      | condition _ => exact ⟨_, rfl, cons_ne_nil _ _⟩
    obtain ⟨new, hnew, hsome⟩ := hnew
    obtain ⟨collected, hcollected, -⟩ := ih h
    refine ⟨new ++ collected, ?_, fun _ => append_ne_nil_of_left_ne_nil hsome _⟩
    rw [Connective.collect?, hnew, hcollected]
    rfl

theorem apply_ne_constant {ds : List Domain} (hsome : ds ≠ [])
    (h : ∀ d ∈ ds, d.Over Q ∧ ∀ v, d ≠ .constant v) (v : Bool) : k.apply ds ≠ .constant v := by
  obtain ⟨collected, hcollected, hne⟩ := exists_collected (k := k) h
  unfold Connective.apply
  rw [hcollected]
  dsimp only
  unfold Connective.node
  split
  · exact absurd rfl (hne hsome)
  · rename_i d
    obtain ⟨-, hconstant, -⟩ | ⟨children, mark, hmem, hd⟩ :=
      Connective.mem_collect? hcollected (mem_singleton.2 rfl)
    · exact hconstant v
    · cases (h _ hmem).1 with
      | nary _ hconstant _ => exact hconstant d hd v
  · nofun

theorem negate (hQ : ∀ c, Q c → ∃ op, c.operator.inverse? = some op ∧ c.isDotted = false ∧
    Q (c.withOperator op)) (h : d.Over Q) : d.negate.Over Q := by
  induction h with
  | constant v => exact .constant _
  | nary _ _ _ ih =>
    rw [Domain.negate, negateAll_eq_map]
    refine apply fun e he => ?_
    obtain ⟨d, hd, rfl⟩ := mem_map.1 he
    exact ih d hd
  | @condition c hc =>
    obtain ⟨op, hop, hplain, hc⟩ := hQ c hc
    rw [Domain.negate, Condition.negate, hop]
    dsimp only
    rw [if_neg (by simp [hplain])]
    exact .condition hc

theorem negate_ne_constant (hQ : ∀ c, Q c → ∃ op, c.operator.inverse? = some op ∧
    c.isDotted = false ∧ Q (c.withOperator op)) (h : d.Over Q) (hd : ∀ v, d ≠ .constant v)
    (v : Bool) : d.negate ≠ .constant v := by
  induction h generalizing v with
  | constant w => exact absurd rfl (hd w)
  | nary hsome hconstant hchildren ih =>
    rw [Domain.negate, negateAll_eq_map]
    refine apply_ne_constant (Q := Q) (by simpa using hsome) (fun e he => ?_) v
    obtain ⟨d, hmem, rfl⟩ := mem_map.1 he
    exact ⟨(hchildren d hmem).negate hQ, ih d hmem (hconstant d hmem)⟩
  | @condition c hc =>
    obtain ⟨op, hop, hplain, -⟩ := hQ c hc
    rw [Domain.negate, Condition.negate, hop]
    dsimp only
    rw [if_neg (by simp [hplain])]
    intro h
    cases h

theorem either {p : Prop} [Decidable p] (hQ : ∀ c, Q c → ∃ op, c.operator.inverse? = some op ∧
    c.isDotted = false ∧ Q (c.withOperator op)) (h : d.Over Q ∧ ∀ v, d ≠ .constant v) :
    (if p then d else d.negate).Over Q ∧ ∀ v, (if p then d else d.negate) ≠ .constant v := by
  split
  · exact h
  · exact ⟨h.1.negate hQ, h.1.negate_ne_constant hQ h.2⟩

end Over

end Domain

theorem ValueSet.isEmpty_ofList (values : List Value) :
    (ofList values).isEmpty = values.isEmpty := by
  cases values with
  | nil => rfl
  | cons v vs => rfl

namespace Pass

def asMembers : Operand → Operand
  | .scalar value => .set (.singleton value)
  | x => x

def IsFlat : Operand → Prop
  | .scalar _ | .set _ => True
  | .domain _ | .query _ => False

def IsTyped : FieldType → Operand → Prop
  | .boolean, x => x.LiteralsAre isBoolean ∧
      ∀ values, x = .set values → values.same (.singleton (.bool false)) = false
  | .date, x => x.LiteralsAre isDay
  | .datetime, x => x.LiteralsAre isMoment
  | .integer, x | .float, x | .monetary, x => x.LiteralsAre isNumber
  -- Content can only be asked whether it exists.
  | .binary, x => x = .set .unset
  | _, _ => False

structure StaysSet (type : FieldType) (x y : Operand) : Prop where
  hasOrder : (type.isNumeric || type.isTemporal) = true
  scalar : ∀ v, x = .scalar v → v ≠ .null → v ≠ .bool false → ∃ w, y = .scalar w ∧ w ≠ .null

inductive Becomes (ctx : Context) (c : Condition) : Condition → Prop
  | modernized {op} : c.operator.isStandard = false → c.operator.family = .equality →
      (op = .equal ∨ op = .notEqual) → Becomes ctx c (c.withOperator op)
  | equated {op} : (c.operator = .equal ∨ c.operator = .notEqual) → op.isMembership = true →
      Becomes ctx c ⟨c.path, op, asMembers c.operand, none⟩
  | listed {value} : c.operator.isMembership = true → c.operand = .scalar value →
      Becomes ctx c (c.withOperand (.set (.singleton value)))
  | entered {op} : c.operator.isMembership = true → op.isTraversal = true →
      ((∃ inner, c.operand = .domain inner) ∨ ∃ query, c.operand = .query query) →
      Becomes ctx c (c.withOperator op)
  | unmatched {value} : c.operator.isPattern = true → c.operand = .scalar value →
      Becomes ctx c ⟨c.path, .mem, .set .unset, none⟩
  /-- Literals are brought to the type of the field. -/
  | ordered {type x op} : ctx.entity.headType? c.path = some type → c.isDotted = false →
      c.operator.isOrdering = true → op.isOrdering = true → IsFlat c.operand → IsFlat x →
      ¬IsTyped type c.operand → IsTyped type x → StaysSet type c.operand x →
      Becomes ctx c ⟨c.path, op, x, none⟩
  | members {type values members op} : ctx.entity.headType? c.path = some type →
      c.isDotted = false → c.operator.isMembership = true → op.isMembership = true →
      c.operand = .set values → members.isEmpty = false → ¬IsTyped type c.operand →
      IsTyped type (.set members) → Becomes ctx c ⟨c.path, op, .set members, none⟩
  /-- A domain that all related records satisfy asks whether there is one. -/
  | unrelated {inner op} : ctx.entity.headType? c.path = some .many2one → c.rest? = none →
      c.operator.isTraversal = true → c.operand = .domain inner → op.isMembership = true →
      Becomes ctx c ⟨c.path, op, .set .unset, none⟩
  | related {field target inner optimized} : c.operator.isTraversal = true →
      ctx.entity.field? c.head = some field → (c.rest? = none ∨ field.type = .json) →
      ctx.catalog.target? ctx.entity c.path = some target → c.operand = .domain inner →
      (ctx.nested target inner).result = .ok optimized → optimized.same inner = false →
      Becomes ctx c (c.withOperand (.domain optimized))

structure AreChosen (c : Condition) (members : ValueSet) : Prop where
  mem : ∀ v ∈ members.values, v ∈ c.operand.literals
  noLabel : ∀ v ∈ members.values, isLabel v = false
  distinct : members.IsDistinct

inductive Found : Condition → Prop
  | ids (ids : List Int) :
      Found ⟨Entity.idName, .mem, .set (.ofList (ids.map Value.int)), none⟩
  | below (path : String) : Found ⟨Entity.parentPath, .eqLike, .scalar (.text path), none⟩

/-- A condition among those that take the place of one which leads to other records, names them by
labels, or is inherited. -/
inductive Splits (ctx : Context) (c : Condition) : Condition → Prop
  | crossed {field rest} : ctx.entity.field? c.head = some field → c.rest? = some rest →
      field.isRelational = true →
      Splits ctx c ⟨field.name, .any, .domain (.leaf rest c.operator c.operand), none⟩
  | labelled {field comodel op op' x} : ctx.entity.field? c.head = some field → c.rest? = none →
      field.isRelational = true → ctx.catalog.comodel c field = .ok comodel →
      namesLabels c = true → op.isTraversal = true →
      ((∃ labels, op' = .mem ∧ x = .set (.ofList labels) ∧ ∀ v ∈ labels, isLabel v = true) ∨
        ∃ label, op'.isPattern = true ∧ x = .scalar (.text label)) →
      Splits ctx c ⟨c.path, op, .domain (.leaf comodel.recName op' x), none⟩
  | identified {field op members} : ctx.entity.field? c.head = some field → c.rest? = none →
      field.isRelational = true → namesLabels c = true → c.operator.isMembership = true →
      op.isMembership = true → AreChosen c members → members.isEmpty = false →
      Splits ctx c ⟨c.path, op, .set members, none⟩
  | listed {field op values members} : ctx.entity.field? c.head = some field → c.rest? = none →
      field.type.isX2Many = true → c.operator.isMembership = true → c.operand = .set values →
      namesLabels c = false → op.isTraversal = true → AreChosen c members →
      Splits ctx c ⟨c.path, op, .domain (.leaf Entity.idName .mem (.set members)), none⟩
  | unlisted {field op values} : ctx.entity.field? c.head = some field → c.rest? = none →
      field.type.isX2Many = true → c.operator.isMembership = true → c.operand = .set values →
      namesLabels c = false → op.isTraversal = true →
      Splits ctx c ⟨c.path, op, .domain (.constant true), none⟩
  | inherited {field link} : ctx.entity.field? c.head = some field →
      field.delegatedVia = some link →
      Splits ctx c ⟨link, .any, .domain (.condition c.withoutMark), none⟩
  /-- A walk over the records of the entity itself. -/
  | found {c' : Condition} : (c.operator = .childOf ∨ c.operator = .parentOf) →
      IsFlat c.operand →
      ctx.catalog.target? ctx.entity c.path = some ctx.entity → Found c' → Splits ctx c c'
  | reached {field target found} : (c.operator = .childOf ∨ c.operator = .parentOf) →
      IsFlat c.operand →
      ctx.entity.field? c.head = some field → field.name ≠ Entity.idName →
      ctx.catalog.target? ctx.entity c.path = some target → found.Over Found →
      Splits ctx c ⟨field.name, .any, .domain found, none⟩

/-- A condition among those that stand for days on a datetime field. -/
inductive Dated (c : Condition) : Condition → Prop
  | bound {op t} : op.isOrdering = true → Dated c ⟨c.path, op, .scalar (.timestamp t), none⟩
  | moments {op members} : op.isMembership = true → (∀ v ∈ members.values, isMoment v = true) →
      members.IsDistinct → members.isEmpty = false → Dated c ⟨c.path, op, .set members, none⟩

def NamesDays (ctx : Context) (c : Condition) : Prop :=
  ctx.entity.headType? c.path = some .datetime ∧ comparesLiterals c = true ∧
    ∃ values, c.operand = .set values ∧ ∃ v ∈ values.values, mayBeDay v = true

/-- What a pass can make of a condition. -/
inductive Outcome (ctx : Context) (c : Condition) : Domain → Prop
  | becomes {c' : Condition} : Becomes ctx c c' → Outcome ctx c (.condition c')
  | splits {d : Domain} : d.Over (Splits ctx c) → Outcome ctx c d
  | dated {d : Domain} : NamesDays ctx c → d.Over (Dated c) → Outcome ctx c d

variable {ctx : Context} {c : Condition} {d : Domain}

theorem Outcome.constant (v : Bool) : Outcome ctx c (.constant v) :=
  .splits (.constant v)

theorem Outcome.isFresh (h : Outcome ctx c d) : d.IsFresh := by
  cases h with
  | becomes hbecomes => cases hbecomes <;> exact .condition rfl
  | splits hover =>
    refine hover.isFresh fun c' hc' => ?_
    cases hc' with
    | found _ _ _ hfound => cases hfound <;> rfl
    | _ => rfl
  | dated _ hover =>
    refine hover.isFresh fun c' hc' => ?_
    cases hc' <;> rfl

theorem headType?_of_field {field : Field} (h : ctx.field c = .ok field) :
    ctx.entity.headType? c.path = some field.type := by
  rw [Context.field_eq_ok] at h
  change (ctx.entity.field? c.head).map (·.type) = _
  rw [h]
  rfl

theorem isLabel_of_isTyped {type : FieldType} {members : ValueSet}
    (h : IsTyped type (.set members)) : ∀ v ∈ members.values, isLabel v = false := by
  intro v hv
  unfold IsTyped at h
  split at h
  · have := h.1.1 v hv
    cases v <;> simp_all [isBoolean, isLabel]
  · have := h.1 v hv
    cases v <;> simp_all [isDay, isLabel]
  · have := h.1 v hv
    cases v <;> simp_all [isMoment, isLabel]
  · have := h.1 v hv
    cases v <;> simp_all [isNumber, isLabel]
  · have := h.1 v hv
    cases v <;> simp_all [isNumber, isLabel]
  · have := h.1 v hv
    cases v <;> simp_all [isNumber, isLabel]
  · cases h
    exact mem_singleton.1 hv ▸ rfl
  · exact h.elim

theorem isMoment_of_isTyped {x : Operand} (h : IsTyped .datetime x) :
    ∀ v ∈ x.literals, isMoment v = true := by
  cases x with
  | scalar v =>
    intro w hw
    obtain rfl := mem_singleton.1 hw
    exact h
  | set values => exact h.1
  | domain _ | query _ => exact fun v hv => (not_mem_nil hv).elim

theorem isLabel_unset : ∀ v ∈ ValueSet.unset.values, isLabel v = false :=
  fun _ hv => mem_singleton.1 hv ▸ rfl

theorem outcome_resolvePath (h : (resolvePath c ctx).result = .ok (some d)) :
    Outcome ctx c d := by
  unfold resolvePath at h
  simp only [Run.result_bind_eq_ok, Run.result_liftM] at h
  obtain ⟨field, hfield, h⟩ := h
  split at h
  · simp at h
  · rename_i rest hrest
    split at h
    · rename_i hrelational
      rw [replace_eq_some] at h
      subst h
      exact .splits (.condition (.crossed (Context.field_eq_ok.1 hfield) hrest hrelational))
    · split at h <;> simp at h

theorem outcome_deprecatedOperator (h : (deprecatedOperator c ctx).result = .ok (some d)) :
    Outcome ctx c d := by
  unfold deprecatedOperator at h
  split at h
  · rename_i hop
    simp only [Run.result_bind_eq_ok, replace_eq_some] at h
    obtain ⟨-, -, rfl⟩ := h
    exact .becomes (.modernized (by rw [hop]; rfl) (by rw [hop]; rfl) (.inl rfl))
  · rename_i hop
    simp only [Run.result_bind_eq_ok, replace_eq_some] at h
    obtain ⟨-, -, rfl⟩ := h
    exact .becomes (.modernized (by rw [hop]; rfl) (by rw [hop]; rfl) (.inr rfl))
  · rename_i hop
    split at h
    · rw [replace_eq_some] at h
      exact h ▸ .constant _
    · simp only [Run.result_bind_eq_ok, replace_eq_some] at h
      obtain ⟨-, -, rfl⟩ := h
      exact .becomes (.modernized (by rw [hop]; rfl) (by rw [hop]; rfl) (.inl rfl))
  · simp at h

theorem outcome_equalityToMembership (hop : c.operator = .equal ∨ c.operator = .notEqual)
    (h : (equalityToMembership c ctx).result = .ok (some d)) : Outcome ctx c d := by
  have hmember : (if c.operator = .equal then Operator.mem else .notMem).isMembership = true := by
    split <;> rfl
  unfold equalityToMembership at h
  dsimp only at h
  split at h
  · rename_i value hvalue
    rw [replace_eq_some] at h
    subst h
    have hbecomes : Becomes ctx c _ := .equated hop hmember
    rw [hvalue] at hbecomes
    exact .becomes hbecomes
  · rename_i hscalar
    simp only [Run.result_bind_eq_ok, replace_eq_some] at h
    obtain ⟨-, -, rfl⟩ := h
    have hmembers : asMembers c.operand = c.operand := by
      unfold asMembers
      split
      · rename_i value hvalue
        exact absurd hvalue (hscalar value)
      · rfl
    have hbecomes : Becomes ctx c _ := .equated hop hmember
    rw [hmembers] at hbecomes
    exact .becomes hbecomes

theorem outcome_membershipOperand (hop : c.operator.isMembership = true)
    (h : (membershipOperand c ctx).result = .ok (some d)) : Outcome ctx c d := by
  have htraversal : (if c.operator == .mem then Operator.any else .notAny).isTraversal = true := by
    split <;> rfl
  unfold membershipOperand at h
  dsimp only at h
  split at h
  · split at h
    · rw [replace_eq_some] at h
      exact h ▸ .constant _
    · simp at h
  · rename_i value hvalue
    simp only [Run.result_bind_eq_ok, replace_eq_some] at h
    obtain ⟨-, -, rfl⟩ := h
    exact .becomes (.listed hop hvalue)
  · rename_i inner hinner
    rw [replace_eq_some] at h
    exact h ▸ .becomes (.entered hop htraversal (.inl ⟨inner, hinner⟩))
  · rename_i query hquery
    rw [replace_eq_some] at h
    exact h ▸ .becomes (.entered hop htraversal (.inr ⟨query, hquery⟩))

theorem outcome_patternOperand (hop : c.operator.isPattern = true)
    (h : (patternOperand c ctx).result = .ok (some d)) : Outcome ctx c d := by
  unfold patternOperand at h
  split at h
  · rename_i value hvalue
    split at h
    · split at h <;> rw [replace_eq_some] at h <;> subst h
      · exact .becomes (.unmatched hop hvalue)
      · exact .becomes (.unmatched hop hvalue)
      all_goals exact .constant _
    · split at h <;> simp at h
  · simp at h

inductive Related (path : String) (inner members : Operand → Prop) : Condition → Prop
  | traversal {op x} : op.isTraversal = true → inner x →
      Related path inner members ⟨path, op, x, none⟩
  | membership {op x} : op.isMembership = true → members x →
      Related path inner members ⟨path, op, x, none⟩

theorem Related.inverse {inner members : Operand → Prop} {c' : Condition}
    (hplain : c.isDotted = false) (h : Related c.path inner members c') :
    ∃ op, c'.operator.inverse? = some op ∧ c'.isDotted = false ∧
      Related c.path inner members (c'.withOperator op) := by
  cases h with
  | @traversal op x hop hx =>
    cases op <;> cases hop <;> exact ⟨_, rfl, hplain, .traversal rfl hx⟩
  | @membership op x hop hx =>
    cases op <;> cases hop <;> exact ⟨_, rfl, hplain, .membership rfl hx⟩

theorem Dated.inverse {c' : Condition} (hplain : c.isDotted = false) (h : Dated c c') :
    ∃ op, c'.operator.inverse? = some op ∧ c'.isDotted = false ∧ Dated c (c'.withOperator op) := by
  cases h with
  | @bound op t hop => cases op <;> cases hop <;> exact ⟨_, rfl, hplain, .bound rfl⟩
  | @moments op members hop hmembers hdistinct hsome =>
    cases op <;> cases hop <;> exact ⟨_, rfl, hplain, .moments rfl hmembers hdistinct hsome⟩

theorem over_labelledMembers (field : Field) (comodel : Entity) (labels ids : List Value) :
    (labelledMembers field comodel labels ids).Over (Related field.name
      (· = .domain (.leaf comodel.recName .mem (.set (.ofList labels))))
      fun x => ids ≠ [] ∧ x = .set (.ofList ids)) ∧
    ∀ v, labelledMembers field comodel labels ids ≠ .constant v := by
  have hlabels : (traversal field.name .any (.leaf comodel.recName .mem
      (.set (.ofList labels)))).Over (Related field.name
        (· = .domain (.leaf comodel.recName .mem (.set (.ofList labels))))
        fun x => ids ≠ [] ∧ x = .set (.ofList ids)) :=
    .condition (.traversal rfl rfl)
  unfold labelledMembers
  dsimp only
  split
  · exact ⟨hlabels, nofun⟩
  · rename_i hids
    rw [List.isEmpty_iff] at hids
    have hids : (Domain.leaf field.name .mem (.set (.ofList ids))).Over (Related field.name
        (· = .domain (.leaf comodel.recName .mem (.set (.ofList labels))))
        fun x => ids ≠ [] ∧ x = .set (.ofList ids)) :=
      .condition (.membership rfl ⟨hids, rfl⟩)
    refine ⟨.apply (forall_mem_cons.2 ⟨hlabels, forall_mem_singleton.2 hids⟩),
      Domain.Over.apply_ne_constant (cons_ne_nil _ _) (forall_mem_cons.2 ⟨⟨hlabels, nofun⟩,
        forall_mem_singleton.2 ⟨hids, nofun⟩⟩)⟩

theorem outcome_labels (h : (labels c ctx).result = .ok (some d)) : Outcome ctx c d := by
  have hnames : namesLabels c = true := by
    by_contra hnames
    have hkept : (labels c ctx).result ≠ .ok none := by simp [h]
    refine hkept (labels_eq_none.2 ?_)
    unfold labels at h
    simp only [Run.result_bind_eq_ok, Run.result_liftM] at h
    obtain ⟨field, hfield, -⟩ := h
    exact ⟨field, hfield, .inr (.inr (by simpa using hnames))⟩
  unfold labels at h
  simp only [Run.result_bind_eq_ok, Run.result_liftM] at h
  obtain ⟨field, hfield, h⟩ := h
  rw [Context.field_eq_ok] at hfield
  split at h
  · simp at h
  · rename_i hskip
    simp only [Bool.or_eq_true, Bool.not_eq_true', not_or, Bool.not_eq_false,
      Bool.not_eq_true] at hskip
    obtain ⟨hrelational, hplain⟩ := hskip
    have hrest := Condition.rest?_eq_none.2 hplain
    have hpath : field.name = c.path :=
      (Entity.name_of_field? hfield).trans (Text.cut_fst_of_none hrest)
    split at h
    · rename_i values hvalues
      rw [partition_eq_filter_filter] at h
      dsimp only at h
      split at h
      · simp at h
      · rename_i hkeep
        simp only [Bool.or_eq_true, Bool.not_eq_true', not_or, Bool.not_eq_false] at hkeep
        simp only [Run.result_bind_eq_ok, Run.result_liftM, replace_eq_some] at h
        obtain ⟨comodel, hcomodel, rfl⟩ := h
        have hmembers := (over_labelledMembers field comodel (values.values.filter isLabel)
          (values.values.filter (not ∘ isLabel))).1
        rw [hpath] at hmembers
        have hsplits : ∀ c', Related c.path
            (· = .domain (.leaf comodel.recName .mem
              (.set (.ofList (values.values.filter isLabel)))))
            (fun x => values.values.filter (not ∘ isLabel) ≠ [] ∧
              x = .set (.ofList (values.values.filter (not ∘ isLabel)))) c' →
            Splits ctx c c' := by
          rintro c' (⟨hop, rfl⟩ | ⟨hop, hsome, rfl⟩)
          · exact .labelled hfield hrest hrelational hcomodel hnames hop
              (.inl ⟨_, rfl, rfl, fun v hv => of_mem_filter hv⟩)
          · refine .identified hfield hrest hrelational hnames hkeep.1 hop
              ⟨fun v hv => ?_, fun v hv => ?_, ValueSet.isDistinct_ofList _⟩ ?_
            · rw [hvalues]
              exact mem_of_mem_filter ((ValueSet.fresh_sublist [] _).mem hv)
            · simpa using of_mem_filter ((ValueSet.fresh_sublist [] _).mem hv)
            · rw [ValueSet.isEmpty_ofList]
              simpa using hsome
        split
        · exact .splits (hmembers.mono hsplits)
        · exact .splits ((hmembers.negate fun _ => Related.inverse hplain).mono hsplits)
    · rename_i label hlabel
      split at h
      · simp at h
      · rename_i hpattern
        simp only [Bool.not_eq_true', Bool.not_eq_false] at hpattern
        simp only [Run.result_bind_eq_ok, Run.result_liftM, replace_eq_some] at h
        obtain ⟨comodel, hcomodel, rfl⟩ := h
        refine .splits (.condition ?_)
        rw [hlabel, hpath]
        refine .labelled hfield hrest hrelational hcomodel hnames (by split <;> rfl)
          (.inr ⟨label, ?_, rfl⟩)
        cases hop : c.operator <;> rw [hop] at hpattern <;> first
          | rfl
          | cases hpattern
    · simp at h

def manyParts (c : Condition) (values : ValueSet) : List Domain :=
  (if (ValueSet.ofList (values.values.filter fun v => !v.isNull)).isEmpty then []
    else [traversal c.path .any (.leaf Entity.idName .mem
      (.set (.ofList (values.values.filter fun v => !v.isNull))))]) ++
  if values.containsNull then [traversal c.path .notAny (.constant true)] else []

theorem over_manyParts {values : ValueSet} : ∀ e ∈ manyParts c values,
    e.Over (Related c.path (fun x => values.containsNull = true ∧ x = .domain (.constant true) ∨
      values.values.filter (fun v => !v.isNull) ≠ [] ∧ x = .domain (.leaf Entity.idName .mem
        (.set (.ofList (values.values.filter fun v => !v.isNull))))) fun _ => False) ∧
    ∀ v, e ≠ .constant v := by
  intro e he
  obtain he | he := mem_append.1 he
  · split at he
    · cases he
    · rename_i hids
      obtain rfl := mem_singleton.1 he
      rw [ValueSet.isEmpty_ofList, List.isEmpty_iff] at hids
      exact ⟨.condition (.traversal rfl (.inr ⟨hids, rfl⟩)), nofun⟩
  · split at he
    · rename_i hnull
      obtain rfl := mem_singleton.1 he
      exact ⟨.condition (.traversal rfl (.inl ⟨hnull, rfl⟩)), nofun⟩
    · cases he

theorem manyParts_ne_nil {values : ValueSet} (hsome : values.isEmpty = false) :
    manyParts c values ≠ [] := by
  intro hnil
  obtain ⟨hids, hnull⟩ := append_eq_nil_iff.1 hnil
  split at hids
  · rename_i hnone
    rw [ValueSet.isEmpty_ofList, List.isEmpty_iff, filter_eq_nil_iff] at hnone
    have hnull : values.containsNull ≠ true := by
      rintro hcontains
      rw [if_pos hcontains] at hnull
      cases hnull
    obtain ⟨v, hv⟩ := exists_mem_of_ne_nil values.values (by simpa [ValueSet.isEmpty] using hsome)
    exact hnull (any_eq_true.2 ⟨v, hv, by simpa using hnone v hv⟩)
  · cases hids

theorem outcome_manyMembers (hfield : ∃ field, ctx.field c = .ok field ∧ field.type.isX2Many = true)
    (hlabels : namesLabels c = false) (h : (manyMembers c ctx).result = .ok (some d)) :
    Outcome ctx c d := by
  obtain ⟨field, hfield, htype⟩ := hfield
  rw [Context.field_eq_ok] at hfield
  unfold manyMembers at h
  split at h
  · rename_i values hvalues
    split at h
    · simp at h
    · rename_i hkeep
      simp only [Bool.or_eq_true, Bool.not_eq_true', not_or, Bool.not_eq_false,
        Bool.not_eq_true] at hkeep
      obtain ⟨hplain, hop⟩ := hkeep
      have hrest := Condition.rest?_eq_none.2 hplain
      rw [replace_eq_some] at h
      have hids : AreChosen c (.ofList (values.values.filter fun v => !v.isNull)) := by
        have hmem : ∀ v ∈ (ValueSet.ofList (values.values.filter fun v => !v.isNull)).values,
            v ∈ values.values :=
          fun v hv => mem_of_mem_filter ((ValueSet.fresh_sublist [] _).mem hv)
        refine ⟨fun v hv => ?_, fun v hv => ?_, ValueSet.isDistinct_ofList _⟩
        · rw [hvalues]
          exact hmem v hv
        · simp only [namesLabels, hvalues, hop, Bool.true_and, any_eq_false] at hlabels
          simpa using hlabels v (hmem v hv)
      have hmembers : (Domain.or (manyParts c values)).Over (Related c.path
          (fun x => values.containsNull = true ∧ x = .domain (.constant true) ∨
            values.values.filter (fun v => !v.isNull) ≠ [] ∧
              x = .domain (.leaf Entity.idName .mem
                (.set (.ofList (values.values.filter fun v => !v.isNull))))) fun _ => False) :=
        .apply fun e he => (over_manyParts e he).1
      have hsplits : ∀ c', Related c.path (fun x =>
          values.containsNull = true ∧ x = .domain (.constant true) ∨
          values.values.filter (fun v => !v.isNull) ≠ [] ∧
            x = .domain (.leaf Entity.idName .mem
              (.set (.ofList (values.values.filter fun v => !v.isNull))))) (fun _ => False) c' →
          Splits ctx c c' := by
        rintro c' (⟨hop', ⟨-, rfl⟩ | ⟨-, rfl⟩⟩ | ⟨-, hfalse⟩)
        · exact .unlisted hfield hrest htype hop hvalues hlabels hop'
        · exact .listed hfield hrest htype hop hvalues hlabels hop' hids
        · exact hfalse.elim
      subst h
      split
      · exact .splits (hmembers.mono hsplits)
      · exact .splits ((hmembers.negate fun _ => Related.inverse hplain).mono hsplits)
  · simp at h

theorem outcome_relatedDomain (hop : c.operator.isTraversal = true)
    (hresolved : (resolvePath c ctx).result = .ok none)
    (h : (relatedDomain c ctx).result = .ok (some d)) : Outcome ctx c d := by
  obtain ⟨field, target, inner, optimized, hfield, htarget, hinner, hoptimized, hd⟩ :=
    relatedDomain_eq_some h
  obtain ⟨-, rfl⟩ | ⟨-, htype, rfl⟩ | ⟨hsame, rfl⟩ := hd
  · exact .constant _
  · have hrest : c.rest? = none := by
      obtain ⟨field', hfield', hrest | ⟨-, hjson⟩⟩ := resolvePath_eq_none.1 hresolved
      · exact hrest
      · rw [hfield, Except.ok.injEq] at hfield'
        rw [← hfield', htype] at hjson
        cases hjson
    have hpath : field.name = c.path :=
      (Entity.name_of_field? (Context.field_eq_ok.1 hfield)).trans (Text.cut_fst_of_none hrest)
    rw [hpath]
    refine .becomes (.unrelated ?_ hrest hop hinner (by split <;> rfl))
    rw [headType?_of_field hfield, htype]
  · obtain ⟨field', hfield', hrest⟩ := resolvePath_eq_none.1 hresolved
    exact .becomes (.related hop (Context.field_eq_ok.1 hfield') (hrest.imp_right And.right)
      ((Context.target_eq_ok hfield).1 htarget) hinner hoptimized hsame)

theorem outcome_inheritedField (h : (inheritedField c ctx).result = .ok (some d)) :
    Outcome ctx c d := by
  unfold inheritedField at h
  simp only [Run.result_bind_eq_ok, Run.result_liftM] at h
  obtain ⟨field, hfield, h⟩ := h
  split at h
  · simp at h
  · rename_i link hlink
    simp only [Run.result_bind_eq_ok, replace_eq_some] at h
    obtain ⟨-, -, rfl⟩ := h
    exact .splits (.condition (.inherited (Context.field_eq_ok.1 hfield) hlink))

theorem outcome_computedField (hhooks : ctx.entity.Hookless)
    (h : (computedField c ctx).result = .ok (some d)) : Outcome ctx c d := by
  unfold computedField at h
  simp only [Run.result_bind_eq_ok] at h
  obtain ⟨field, hfield, h⟩ := h
  split at h
  · simp at h
  · split at h
    · rename_i hook hhook
      rw [Entity.searchHook_eq_none hhooks hfield] at hhook
      cases hhook
    · simp only [Run.result_bind_eq_ok, replace_eq_some] at h
      obtain ⟨-, -, rfl⟩ := h
      exact .constant _

theorem outcome_bothBooleans (h : (bothBooleans c ctx).result = .ok (some d)) :
    Outcome ctx c d := by
  unfold bothBooleans at h
  split at h
  · split at h
    · rw [replace_eq_some] at h
      exact h ▸ .constant _
    · simp at h
  · simp at h

section Literals

variable {coerce : Value → Except Error Value} {kind : Value → Bool}

theorem literalsAre_coerceSet (hcoerce : Coerces coerce kind) {values coerced : ValueSet}
    (h : coerceSet coerce values = .ok coerced) :
    (Operand.set coerced).LiteralsAre kind ∧ coerced.isEmpty = values.isEmpty := by
  have hkind := forall_mem_coerceSet (fun v _ w hw => hcoerce.lands v w hw) h
  unfold coerceSet at h
  cases hresults : values.values.mapM coerce with
  | error e =>
    rw [hresults] at h
    cases h
  | ok results =>
    rw [hresults] at h
    cases h
    refine ⟨⟨hkind, ValueSet.isDistinct_ofList results⟩, ?_⟩
    have hlength := (mapM_eq_ok hresults).length_eq
    rw [ValueSet.isEmpty_ofList]
    unfold ValueSet.isEmpty
    cases hvalues : values.values <;> cases results <;> simp_all

theorem staysSet_scalar (hcoerce : Coerces coerce kind) {type : FieldType}
    (horder : (type.isNumeric || type.isTemporal) = true) {v w : Value}
    (hvalue : c.operand = .scalar v) (hw : coerce v = .ok w) :
    StaysSet type c.operand (.scalar w) := by
  refine ⟨horder, fun v' hv' hnull hfalse => ?_⟩
  rw [hvalue, Operand.scalar.injEq] at hv'
  subst hv'
  refine ⟨w, rfl, ?_⟩
  rintro rfl
  obtain hv | hv := hcoerce.unset v hw
  · exact hnull hv
  · exact hfalse hv

theorem staysSet_set {type : FieldType} (horder : (type.isNumeric || type.isTemporal) = true)
    {values : ValueSet} (hvalues : c.operand = .set values) {x : Operand} :
    StaysSet type c.operand x := by
  refine ⟨horder, fun v hv => ?_⟩
  rw [hvalues] at hv
  cases hv

theorem outcome_replaceLiterals (hcoerce : Coerces coerce kind) {type : FieldType}
    (htype : ctx.entity.headType? c.path = some type)
    (horder : (type.isNumeric || type.isTemporal) = true)
    (htyped : ∀ x : Operand, IsTyped type x ↔ x.LiteralsAre kind)
    (hcompares : comparesLiterals c = true)
    (hmembers : c.operator.isMembership = true →
      ∃ values, c.operand = .set values ∧ values.isEmpty = false)
    (h : (match c.operand with
      | .scalar value => liftM (coerce value) >>= fun v => replaceOperand c (.scalar v)
      | .set values => liftM (coerceSet coerce values) >>= fun s => replaceOperand c (.set s)
      | .domain _ | .query _ => keep : Run Error (Option Domain)).result = .ok (some d)) :
    Outcome ctx c d := by
  have huntyped : ¬IsTyped type c.operand := by
    intro hkept
    have hnone := (replaceLiterals_eq_none hcoerce).2 ((htyped _).1 hkept)
    cases hnone.symm.trans h
  simp only [comparesLiterals, Bool.and_eq_true, Bool.not_eq_true', Bool.or_eq_true] at hcompares
  obtain ⟨hplain, hop⟩ := hcompares
  split at h
  · rename_i value hvalue
    simp only [Run.result_bind_eq_ok, Run.result_liftM] at h
    obtain ⟨coerced, hcoerced, h⟩ := h
    rw [replaceOperand_eq_some h]
    obtain hop | hop := hop
    · exact .becomes (.ordered htype hplain hop hop (by rw [hvalue]; trivial) trivial huntyped
        ((htyped _).2 (hcoerce.lands value coerced hcoerced))
        (staysSet_scalar hcoerce horder hvalue hcoerced))
    · obtain ⟨values, hvalues, -⟩ := hmembers hop
      rw [hvalue] at hvalues
      cases hvalues
  · rename_i values hvalues
    simp only [Run.result_bind_eq_ok, Run.result_liftM] at h
    obtain ⟨coerced, hcoerced, h⟩ := h
    rw [replaceOperand_eq_some h]
    obtain ⟨hliterals, hempty⟩ := literalsAre_coerceSet hcoerce hcoerced
    obtain hop | hop := hop
    · exact .becomes (.ordered htype hplain hop hop (by rw [hvalues]; trivial) trivial huntyped
        ((htyped _).2 hliterals) (staysSet_set horder hvalues))
    · obtain ⟨values', hvalues', hsome⟩ := hmembers hop
      rw [hvalues, Operand.set.injEq] at hvalues'
      subst hvalues'
      exact .becomes (.members htype hplain hop hop hvalues (hempty.trans hsome) huntyped
        ((htyped _).2 hliterals))
  · simp at h
  · simp at h

end Literals

variable (hmembers : c.operator.isMembership = true →
  ∃ values, c.operand = .set values ∧ values.isEmpty = false)

include hmembers in
theorem outcome_numericLiterals {field : Field} (hfield : ctx.field c = .ok field)
    (hnumeric : field.type = .integer ∨ field.type = .float ∨ field.type = .monetary)
    (h : (numericLiterals c ctx).result = .ok (some d)) : Outcome ctx c d := by
  unfold numericLiterals at h
  split at h
  · rename_i hcompares
    simp only [Run.result_bind_eq_ok, Run.result_liftM] at h
    obtain ⟨field', hfield', h⟩ := h
    rw [hfield, Except.ok.injEq] at hfield'
    subst hfield'
    split at h
    · rw [replace_eq_some] at h
      exact h ▸ .constant _
    · refine outcome_replaceLiterals (coerces_toNumber c _) (headType?_of_field hfield) ?_ ?_
        hcompares hmembers h
      · obtain hnumeric | hnumeric | hnumeric := hnumeric <;> rw [hnumeric] <;> rfl
      · intro x
        obtain hnumeric | hnumeric | hnumeric := hnumeric <;> rw [hnumeric] <;> rfl
  · simp at h

theorem outcome_orderedUnset (h : (orderedUnset c).result = .ok (some d)) : Outcome ctx c d := by
  simp only [orderedUnset, Run.result_bind_eq_ok, replace_eq_some] at h
  obtain ⟨-, -, rfl⟩ := h
  exact .constant _

include hmembers in
theorem outcome_dateLiterals (htype : ctx.entity.headType? c.path = some .date)
    (h : (dateLiterals c ctx).result = .ok (some d)) : Outcome ctx c d := by
  unfold dateLiterals at h
  split at h
  · simp at h
  · rename_i hcompares
    split at h
    · exact outcome_orderedUnset h
    · exact outcome_replaceLiterals (coerces_toDate c) htype rfl (fun _ => Iff.rfl)
        (by simpa using hcompares) hmembers h

theorem outcome_dayBound (htype : ctx.entity.headType? c.path = some .datetime)
    (hplain : c.isDotted = false) (hop : c.operator.isOrdering = true) (hflat : IsFlat c.operand)
    (huntyped : ¬IsTyped .datetime c.operand) (day : Date) : Outcome ctx c (dayBound c day) := by
  have hcompare : ∀ op t, op.isOrdering = true → Outcome ctx c (compareAt c op t) :=
    fun op t hop' => .becomes (.ordered htype hplain hop hop' hflat trivial huntyped rfl
      ⟨rfl, fun _ _ _ _ => ⟨_, rfl, nofun⟩⟩)
  unfold dayBound
  split
  · exact hcompare _ _ hop
  · exact hcompare _ _ hop
  · split
    · exact hcompare _ _ rfl
    · exact .constant _
  · split
    · exact hcompare _ _ rfl
    · exact .constant _

theorem over_withinDay (c : Condition) (day : Date) : (withinDay c day).Over (Dated c) := by
  unfold withinDay
  dsimp only
  split
  · refine .apply fun e he => ?_
    simp only [mem_cons, not_mem_nil, or_false] at he
    obtain rfl | rfl := he <;> exact .condition (.bound rfl)
  · exact .condition (.bound rfl)

theorem withinDay_ne_constant (c : Condition) (day : Date) :
    ∀ v, withinDay c day ≠ .constant v := by
  unfold withinDay
  dsimp only
  split <;> nofun

def dayParts (c : Condition) (values : ValueSet) : List Domain :=
  (daysOf values.values).map (withinDay c) ++
    if (withoutDays values.values).isEmpty then []
    else [.leaf c.path .mem (.set (.ofList (withoutDays values.values)))]

theorem over_dayParts {values : ValueSet}
    (hvalues : ∀ v ∈ values.values, isDayOrMoment v = true) :
    ∀ e ∈ dayParts c values, e.Over (Dated c) ∧ ∀ v, e ≠ .constant v := by
  intro e he
  obtain he | he := mem_append.1 he
  · obtain ⟨day, -, rfl⟩ := mem_map.1 he
    exact ⟨over_withinDay c day, withinDay_ne_constant c day⟩
  · split at he
    · cases he
    · rename_i hsome
      obtain rfl := mem_singleton.1 he
      refine ⟨.condition (.moments rfl (fun v hv => ?_) (ValueSet.isDistinct_ofList _) ?_), nofun⟩
      · obtain ⟨hmem, hday⟩ := mem_filter.1 ((ValueSet.fresh_sublist [] _).mem hv)
        have := hvalues v hmem
        cases v <;> simp_all [isDayOrMoment, isMoment]
      · rw [ValueSet.isEmpty_ofList]
        simpa using hsome

theorem over_unset (c : Condition) : (Domain.leaf c.path .mem (.set .unset)).Over (Dated c) :=
  .condition (.moments rfl (fun _ hv => mem_singleton.1 hv ▸ rfl) rfl rfl)

theorem dayMembership_eq (c : Condition) (values : ValueSet) :
    dayMembership c values = if c.operator = .mem then .or (dayParts c values)
      else if values.containsNull then (Domain.or (dayParts c values)).negate
      else .or [(Domain.or (dayParts c values)).negate, .leaf c.path .mem (.set .unset)] :=
  rfl

theorem over_dayMembership (hplain : c.isDotted = false) {values : ValueSet}
    (hvalues : ∀ v ∈ values.values, isDayOrMoment v = true) :
    (dayMembership c values).Over (Dated c) := by
  have hinside : (Domain.or (dayParts c values)).Over (Dated c) :=
    .apply fun e he => (over_dayParts hvalues e he).1
  have houtside := hinside.negate fun _ => Dated.inverse hplain
  rw [dayMembership_eq]
  split
  · exact hinside
  · split
    · exact houtside
    · exact .apply (forall_mem_cons.2 ⟨houtside, forall_mem_singleton.2 (over_unset c)⟩)

theorem dayMembership_ne_constant (hplain : c.isDotted = false) {values : ValueSet}
    (hvalues : ∀ v ∈ values.values, isDayOrMoment v = true) (hdays : daysOf values.values ≠ [])
    (v : Bool) : dayMembership c values ≠ .constant v := by
  have hsome : dayParts c values ≠ [] := by simp [dayParts, hdays]
  have hinside : (Domain.or (dayParts c values)).Over (Dated c) :=
    .apply fun e he => (over_dayParts hvalues e he).1
  have hopen : ∀ v, Domain.or (dayParts c values) ≠ .constant v :=
    Domain.Over.apply_ne_constant hsome (over_dayParts hvalues)
  have houtside := hinside.negate fun _ => Dated.inverse hplain
  have hopen' := hinside.negate_ne_constant (fun _ => Dated.inverse hplain) hopen
  rw [dayMembership_eq]
  split
  · exact hopen v
  · split
    · exact hopen' v
    · exact Domain.Over.apply_ne_constant (cons_ne_nil _ _)
        (forall_mem_cons.2 ⟨⟨houtside, hopen'⟩, forall_mem_singleton.2 ⟨over_unset c, nofun⟩⟩) v

theorem exists_day_of_coerceSet {values coerced : ValueSet}
    (h : coerceSet (toDatetime c) values = .ok coerced)
    (hdays : ¬(daysOf coerced.values).isEmpty = true) :
    ∃ v ∈ values.values, mayBeDay v = true := by
  by_contra hnone
  push Not at hnone
  refine hdays (daysOf_eq_nil.2 fun w hw _ => ?_)
  refine forall_mem_coerceSet (Q := fun w => isMoment w = true) (fun v hv w hw => ?_) h w hw
  cases v with
  | null | timestamp _ =>
    cases hw
    rfl
  | bool b =>
    cases b <;> cases hw
    rfl
  | int _ | float _ => cases hw
  | date _ | text _ => exact absurd rfl (hnone _ hv)

include hmembers in
theorem outcome_datetimeLiterals (htype : ctx.entity.headType? c.path = some .datetime)
    (h : (datetimeLiterals c ctx).result = .ok (some d)) : Outcome ctx c d := by
  have hchanged : (datetimeLiterals c ctx).result ≠ .ok none := by simp [h]
  unfold datetimeLiterals at h
  split at h
  · simp at h
  · rename_i hcompares
    have hcompares' : comparesLiterals c = true := by simpa using hcompares
    simp only [comparesLiterals, Bool.not_eq_true', Bool.not_eq_false, Bool.and_eq_true,
      Bool.or_eq_true] at hcompares
    obtain ⟨hplain, hop⟩ := hcompares
    split at h
    · exact outcome_orderedUnset h
    · rename_i hunset
      have huntyped : ¬IsTyped .datetime c.operand := fun hkept =>
        hchanged (datetimeLiterals_eq_none.2 fun _ => ⟨by simpa using hunset, hkept⟩)
      split at h
      · rename_i value hvalue
        have hordering : c.operator.isOrdering = true := by
          obtain hop | hop := hop
          · exact hop
          · obtain ⟨values, hvalues, -⟩ := hmembers hop
            rw [hvalue] at hvalues
            cases hvalues
        simp only [Run.result_bind_eq_ok, Run.result_liftM] at h
        obtain ⟨coerced, hcoerced, h⟩ := h
        have hlands := (coerces_toDatetime c).lands _ _ hcoerced
        have hflat : IsFlat c.operand := by
          rw [hvalue]
          trivial
        split at h
        · rw [replace_eq_some] at h
          exact h ▸ outcome_dayBound htype hplain hordering hflat huntyped _
        · rename_i hday
          rw [replaceOperand_eq_some h]
          refine .becomes (.ordered htype hplain hordering hordering hflat trivial huntyped ?_
            (staysSet_scalar (coerces_toDatetime c) rfl hvalue hcoerced))
          cases coerced with
          | date day => exact absurd rfl (hday day)
          | null | timestamp _ => rfl
          | _ => cases hlands
      · rename_i values hvalues
        simp only [Run.result_bind_eq_ok, Run.result_liftM] at h
        obtain ⟨coerced, hcoerced, h⟩ := h
        obtain ⟨⟨hkind, hdistinct⟩, hempty⟩ :=
          literalsAre_coerceSet (coerces_toDatetime c) hcoerced
        split at h
        · rename_i hdays
          rw [replaceOperand_eq_some h]
          have hmoments : IsTyped .datetime (.set coerced) :=
            ⟨fun v hv => daysOf_eq_nil.1 hdays v hv (hkind v hv), hdistinct⟩
          obtain hop | hop := hop
          · exact .becomes (.ordered htype hplain hop hop (by rw [hvalues]; trivial) trivial
              huntyped hmoments (staysSet_set rfl hvalues))
          · obtain ⟨values', hvalues', hsome⟩ := hmembers hop
            rw [hvalues, Operand.set.injEq] at hvalues'
            subst hvalues'
            exact .becomes (.members htype hplain hop hop hvalues (hempty.trans hsome) huntyped
              hmoments)
        · rename_i hdays
          rw [replace_eq_some] at h
          subst h
          exact .dated ⟨htype, hcompares', values, hvalues, exists_day_of_coerceSet hcoerced hdays⟩
            (over_dayMembership hplain hkind)
      · simp at h
      · simp at h

include hmembers in
theorem outcome_booleanMembers (htype : ctx.entity.headType? c.path = some .boolean)
    (hplain : c.isDotted = false) (h : (booleanMembers c ctx).result = .ok (some d)) :
    Outcome ctx c d := by
  have huntyped : ¬IsTyped .boolean c.operand := by
    intro ⟨hliterals, hfalse⟩
    have hnone : (booleanMembers c ctx).result = .ok none := by
      refine booleanMembers_eq_none.2 fun values hvalues _ => ?_
      rw [hvalues] at hliterals
      exact ⟨hliterals.1, hliterals.2, hfalse values hvalues⟩
    cases hnone.symm.trans h
  unfold booleanMembers at h
  split at h
  · rename_i values hvalues
    split at h
    · rename_i hop
      obtain ⟨values', hvalues', hsome⟩ := hmembers hop
      rw [hvalues, Operand.set.injEq] at hvalues'
      subst hvalues'
      simp only [Run.result_bind_eq_ok, Run.result_liftM] at h
      obtain ⟨coerced, hcoerced, h⟩ := h
      obtain ⟨hliterals, hempty⟩ := literalsAre_coerceSet (coerces_toBoolean c) hcoerced
      split at h
      · rw [replace_eq_some] at h
        subst h
        refine .becomes (.members htype hplain hop (by split <;> rfl) hvalues rfl huntyped
          ⟨⟨?_, rfl⟩, ?_⟩)
        · exact fun v hv => mem_singleton.1 hv ▸ rfl
        · rintro _ ⟨⟩
          rfl
      · rename_i hfalse
        rw [replaceOperand_eq_some h]
        refine .becomes (.members htype hplain hop hop hvalues (hempty.trans hsome) huntyped
          ⟨hliterals, ?_⟩)
        rintro _ ⟨⟩
        simpa using hfalse
    · simp at h
  · simp at h

theorem outcome_attachmentExists (htype : ctx.entity.headType? c.path = some .binary)
    (hplain : c.isDotted = false) (h : (attachmentExists c ctx).result = .ok (some d)) :
    Outcome ctx c d := by
  unfold attachmentExists at h
  simp only [Run.result_bind_eq_ok] at h
  obtain ⟨field, -, h⟩ := h
  split at h
  · simp at h
  · split at h
    · rename_i values hvalues
      split at h
      · rename_i hop
        rw [Bool.and_eq_true] at hop
        have huntyped : ¬IsTyped .binary c.operand := by
          intro hkept
          have hnone : (replaceOperand c (.set .unset)).result = .ok none := by
            rw [replaceOperand_eq_none, show c.operand = .set .unset from hkept]
            rfl
          cases hnone.symm.trans h
        rw [replaceOperand_eq_some h]
        exact .becomes (.members htype hplain hop.1 hop.1 hvalues rfl huntyped rfl)
      · simp only [Run.result_bind_eq_ok, replace_eq_some] at h
        obtain ⟨-, -, rfl⟩ := h
        exact .constant _
    · simp only [Run.result_bind_eq_ok, replace_eq_some] at h
      obtain ⟨-, -, rfl⟩ := h
      exact .constant _

theorem over_walk {target : Entity} {parent : String} {ids : List Int}
    (h : (Hierarchy.walk c ctx target parent ids).result = .ok d) : d.Over Found := by
  unfold Hierarchy.walk at h
  split at h
  · unfold Hierarchy.descendants at h
    split at h
    · simp only [Run.result_bind_eq_ok, Run.result_pure, Except.ok.injEq] at h
      obtain ⟨paths, -, rfl⟩ := h
      refine .apply fun e he => ?_
      obtain ⟨path, -, rfl⟩ := mem_map.1 he
      exact .condition (.below _)
    · simp only [Run.result_bind_eq_ok, Run.result_pure, Except.ok.injEq] at h
      obtain ⟨-, -, ids, -, rfl⟩ := h
      exact .condition (.ids ids)
  · unfold Hierarchy.ancestors at h
    split at h
    · simp only [Run.result_bind_eq_ok, Run.result_pure, Except.ok.injEq] at h
      obtain ⟨paths, -, rfl⟩ := h
      exact .condition (.ids _)
    · simp only [Run.result_bind_eq_ok, Run.result_pure, Except.ok.injEq] at h
      obtain ⟨-, -, ids, -, rfl⟩ := h
      exact .condition (.ids ids)

theorem target?_of_walked (hentity : ctx.catalog.entity? ctx.entity.name = some ctx.entity)
    {field : Field} {target : Entity} (hfield : ctx.field c = .ok field)
    (h : (Hierarchy.walked c ctx field).result = .ok target) :
    ctx.catalog.target? ctx.entity c.path = some target := by
  unfold Hierarchy.walked at h
  split at h
  · rename_i hown
    simp only [Run.result_pure, Except.ok.injEq] at h
    subst h
    unfold Hierarchy.isOwnLink at hown
    simp only [Bool.and_eq_true, bne_iff_ne, ne_eq, beq_iff_eq] at hown
    obtain ⟨⟨hid, htype⟩, hcomodel⟩ := hown
    refine Catalog.target?_of_comodel (c := c) (Context.field_eq_ok.1 hfield) hid ?_ ?_
    · rw [Field.isRelational, htype]
      rfl
    · rw [Catalog.comodel_eq_ok, hcomodel]
      exact hentity
  · exact (Context.target_eq_ok hfield).1 h

theorem isFlat_of_startValues {values : List Value}
    (h : (Hierarchy.startValues c).result = .ok values) : IsFlat c.operand := by
  unfold Hierarchy.startValues at h
  cases hoperand : c.operand <;> rw [hoperand] at h <;> trivial

theorem isFlat_of_seeds {target : Entity} {ids : List Int}
    (h : (Hierarchy.seeds c ctx target).result = .ok ids) : IsFlat c.operand := by
  rw [Hierarchy.seeds_eq, Run.result_bind_eq_ok] at h
  obtain ⟨values, hvalues, -⟩ := h
  exact isFlat_of_startValues hvalues

theorem outcome_hierarchy (hentity : ctx.catalog.entity? ctx.entity.name = some ctx.entity)
    (hop : c.operator = .childOf ∨ c.operator = .parentOf)
    (h : (hierarchy c ctx).result = .ok (some d)) : Outcome ctx c d := by
  rw [hierarchy_eq] at h
  simp only [Run.result_bind_eq_ok, Run.result_liftM] at h
  obtain ⟨field, hfield, target, htarget, ids, hids, h⟩ := h
  have hflat := isFlat_of_seeds hids
  have htarget' := target?_of_walked hentity hfield htarget
  split at h
  · rw [replace_eq_some] at h
    exact h ▸ .constant _
  · simp only [Run.result_bind_eq_ok] at h
    obtain ⟨found, hfound, -, -, h⟩ := h
    have hover := over_walk hfound
    split at h
    · rename_i hhere
      rw [replace_eq_some] at h
      subst h
      have hself : target = ctx.entity := by
        rw [Bool.or_eq_true, decide_eq_true_eq] at hhere
        obtain hid | hown := hhere
        · rw [Catalog.target?_of_id (c := c) (Context.field_eq_ok.1 hfield) hid,
            Option.some.injEq] at htarget'
          exact htarget'.symm
        · unfold Hierarchy.walked at htarget
          rw [if_pos hown] at htarget
          cases htarget
          rfl
      subst hself
      exact .splits (hover.mono fun c' hc' => .found hop hflat htarget' hc')
    · rename_i hhere
      rw [replace_eq_some] at h
      subst h
      rw [Bool.or_eq_true, decide_eq_true_eq, not_or] at hhere
      exact .splits (.condition (.reached hop hflat (Context.field_eq_ok.1 hfield) hhere.1 htarget'
        hover))

end Pass

namespace Optimizer

variable {ctx : Context} {c : Condition} {d : Domain}

theorem members_before (hop : c.operator.isMembership = true) {before after : List NamedPass}
    {pass : NamedPass} (hsplit : standard.candidates ctx c = before ++ pass :: after)
    (hbefore : ∀ earlier ∈ before, (earlier.run c ctx).result = .ok none)
    (hname : pass.name ∉ ["resolve_field", "membership_value", "search_by_label"]) :
    (Pass.membershipOperand c ctx).result = .ok none ∧ (Pass.labels c ctx).result = .ok none := by
  obtain ⟨rest, hrest⟩ := @candidates_of_membership ctx c hop
  have hfirst := mem_before (hrest.symm.trans hsplit) (by
    intro p hp hp'
    refine hname ?_
    rw [← hp']
    simp only [mem_cons, not_mem_nil, or_false] at hp
    obtain rfl | rfl | rfl := hp <;> simp)
  exact ⟨hbefore ⟨"membership_value", Pass.membershipOperand⟩ (hfirst _ (by simp)),
    hbefore ⟨"search_by_label", Pass.labels⟩ (hfirst _ (by simp))⟩

theorem exists_set_before (hop : c.operator.isMembership = true) {before after : List NamedPass}
    {pass : NamedPass} (hsplit : standard.candidates ctx c = before ++ pass :: after)
    (hbefore : ∀ earlier ∈ before, (earlier.run c ctx).result = .ok none)
    (hname : pass.name ∉ ["resolve_field", "membership_value", "search_by_label"]) :
    ∃ values, c.operand = .set values :=
  have hkept := (members_before hop hsplit hbefore hname).1
  (Pass.membershipOperand_eq_none.1 hkept).imp fun _ hset => hset.1

/-- Every change of a condition is one of those. -/
theorem outcome_of_replaced (hhooks : Level.search.le ctx.level = true → ctx.entity.Hookless)
    (hentity : Level.search.le ctx.level = true →
      ctx.catalog.entity? ctx.entity.name = some ctx.entity)
    {before after : List NamedPass} {pass : NamedPass}
    (hsplit : standard.candidates ctx c = before ++ pass :: after)
    (hbefore : ∀ earlier ∈ before, (earlier.run c ctx).result = .ok none)
    (hpass : (pass.run c ctx).result = .ok (some d)) : Pass.Outcome ctx c d := by
  have hmem : pass ∈ standard.candidates ctx c := by simp [hsplit]
  have hresolved : pass.name ≠ "resolve_field" → (Pass.resolvePath c ctx).result = .ok none := by
    intro hname
    obtain ⟨rest, hrest⟩ := candidates_eq_cons ctx c
    exact hbefore _ (mem_before (hrest.symm.trans hsplit)
      (forall_mem_singleton.2 (Ne.symm hname)) _ (mem_singleton.2 rfl))
  have hlisted : pass.name ∉ ["resolve_field", "membership_value", "search_by_label"] →
      c.operator.isMembership = true → (Pass.membershipOperand c ctx).result = .ok none ∧
        (Pass.labels c ctx).result = .ok none :=
    fun hname hop => members_before hop hsplit hbefore hname
  have hmembers : pass.name ∉ ["resolve_field", "membership_value", "search_by_label"] →
      c.operator.isMembership = true →
      ∃ values, c.operand = .set values ∧ values.isEmpty = false :=
    fun hname hop => Pass.membershipOperand_eq_none.1 (hlisted hname hop).1
  obtain ⟨entry, hentry, hlevel, hcovers, rfl⟩ := mem_candidates.1 hmem
  have hoperators : ∀ operators, entry.scope = .operators operators → c.operator ∈ operators :=
    fun operators hscope => PassScope.covers_operators.1 (hscope ▸ hcovers)
  have htypes : ∀ types, entry.scope = .types types →
      ∃ field, ctx.field c = .ok field ∧ field.type ∈ types :=
    fun types hscope => covers_types.1 (by rwa [hscope] at hcovers)
  have htype : ∀ type, entry.scope = .types [type] → ctx.entity.headType? c.path = some type := by
    intro type hscope
    obtain ⟨field, hfield, hmem⟩ := htypes _ hscope
    rw [Pass.headType?_of_field hfield, mem_singleton.1 hmem]
  have hundotted : entry.pass.name ≠ "resolve_field" → ∀ {type},
      ctx.entity.headType? c.path = some type → type ≠ .json → c.isDotted = false := by
    intro hname type htype hjson
    obtain ⟨field, hfield, hrest | ⟨-, hfieldType⟩⟩ := Pass.resolvePath_eq_none.1 (hresolved hname)
    · exact Condition.rest?_eq_none.1 hrest
    · rw [Pass.headType?_of_field hfield, Option.some.injEq, hfieldType] at htype
      exact absurd htype.symm hjson
  cases Registry.isStandard_of_mem hentry with
  | resolvePath => exact Pass.outcome_resolvePath hpass
  | deprecatedOperator => exact Pass.outcome_deprecatedOperator hpass
  | equalityToMembership =>
    exact Pass.outcome_equalityToMembership (by simpa using hoperators _ rfl) hpass
  | membershipOperand =>
    exact Pass.outcome_membershipOperand (Registry.mem_membershipOperators.1 (hoperators _ rfl)) hpass
  | patternOperand =>
    exact Pass.outcome_patternOperand (Registry.mem_patternOperators.1 (hoperators _ rfl)) hpass
  | labels => exact Pass.outcome_labels hpass
  | relatedDomain =>
    exact Pass.outcome_relatedDomain (Operator.mem_traversals.1 (hoperators _ rfl))
      (hresolved (by decide)) hpass
  | manyMembers =>
    obtain ⟨field, hfield, htype⟩ := htypes _ rfl
    have hmany : field.type.isX2Many = true := by
      simp only [mem_cons, not_mem_nil, or_false] at htype
      obtain htype | htype := htype <;> rw [htype] <;> rfl
    refine Pass.outcome_manyMembers ⟨field, hfield, hmany⟩ ?_ hpass
    have hkept : (Pass.manyMembers c ctx).result ≠ .ok none := by
      change (Pass.manyMembers c ctx).result = _ at hpass
      simp [hpass]
    simp only [ne_eq, Pass.manyMembers_eq_none, not_forall, Bool.or_eq_true, Bool.not_eq_true',
      not_or, Bool.not_eq_true, Bool.not_eq_false] at hkept
    obtain ⟨-, -, hplain, hop⟩ := hkept
    obtain ⟨field', hfield', hkept⟩ := Pass.labels_eq_none.1 (hlisted (by decide) hop).2
    rw [hfield, Except.ok.injEq] at hfield'
    subst hfield'
    have hrelational : field.isRelational = true := by
      rw [Field.isRelational]
      cases hft : field.type <;> rw [hft] at hmany <;> first
        | rfl
        | cases hmany
    simpa [hrelational, hplain] using hkept
  | booleanMembers =>
    refine Pass.outcome_booleanMembers (hmembers (by decide)) (htype _ rfl) ?_ hpass
    exact hundotted (by decide) (htype _ rfl) (by decide)
  | dateLiterals => exact Pass.outcome_dateLiterals (hmembers (by decide)) (htype _ rfl) hpass
  | datetimeLiterals =>
    exact Pass.outcome_datetimeLiterals (hmembers (by decide)) (htype _ rfl) hpass
  | numericLiterals =>
    obtain ⟨field, hfield, hmem⟩ := htypes _ rfl
    exact Pass.outcome_numericLiterals (hmembers (by decide)) hfield (by simpa using hmem) hpass
  | attachmentExists =>
    exact Pass.outcome_attachmentExists (htype _ rfl) (hundotted (by decide) (htype _ rfl)
      (by decide)) hpass
  | inheritedField => exact Pass.outcome_inheritedField hpass
  | computedField => exact Pass.outcome_computedField (hhooks hlevel) hpass
  | hierarchy =>
    exact Pass.outcome_hierarchy (hentity hlevel) (by simpa using hoperators _ rfl) hpass
  | bothBooleans => exact Pass.outcome_bothBooleans hpass
  | sqlReady => cases (Pass.sqlReady_eq_ok.1 hpass).1

end Optimizer

end QueryDomain
