import QueryDomain.Proofs.Optimization.Combining

/-! What a condition asks of the records that its path leads to. Neither its inverse nor what a pass
makes of it asks for anything else. -/
namespace QueryDomain

open List

namespace Domain

open Optimizer

variable {catalog : Catalog} {entity : Entity} {d : Domain}

/-- Marks on the domain, and on what search hooks return, tell the truth. -/
def IsTrusted (catalog : Catalog) (d : Domain) : Prop :=
  catalog.HooksCarry (Vouched catalog) ∧ d.EachMark (Vouched catalog)

theorem isTrusted_of_unmarked (hhooks : catalog.Hookless) (hd : d.unmarked = d) :
    d.IsTrusted catalog :=
  ⟨hhooks.hooksCarry, hd ▸ eachMark_mapValues id d⟩

/-- Optimizing the domain again changes nothing. -/
def Stays (catalog : Catalog) (entity : Entity) (d : Domain) : Prop :=
  ∃ depth again, (node catalog depth standard .search entity d).result = .ok again ∧
    again.same d = true

/-- What the driver returns stays, by the marks that it puts on it. -/
theorem IsTrusted.stays (h : d.IsTrusted catalog)
    (hentity : catalog.entity? entity.name = some entity) {depth : Nat} {result : Domain}
    (hresult : (Optimizer.node catalog depth standard .search entity d).result = .ok result) :
    result.Stays catalog entity := by
  obtain ⟨again, hagain, hsame⟩ := node_of_settled (node_settled h.1 hentity h.2 hresult).2
    (Nat.lt_succ_self result.height)
  exact ⟨_, again, hagain, same_iff.2 hsame⟩

/-- Behind a mark that does not tell the truth something can be left to do. -/
theorem not_stays_behind_mark :
    let item : Entity := { name := "item", fields := [] }
    let catalog : Catalog := { entities := [item] }
    let within : Domain := .leaf "id" .childOf (.set ⟨[]⟩)
    let d : Domain := .negation (.nary .and [.negation (.negation within)] (some ⟨"item", .search⟩))
    (Optimizer.node catalog 2 standard .search item d).result = .ok (.negation within) ∧
      ¬(Domain.negation within).Stays catalog item := by
  intro item catalog within d
  refine ⟨by cbv, ?_⟩
  rintro ⟨depth, again, hagain, hsame⟩
  have htrue : (Optimizer.node catalog 3 standard .search item (.negation within)).result =
      .ok (.constant true) := by
    cbv
  cases node_unique hagain htrue
  cases hsame

/-- The domain can be optimized for searching, to something that is not false. Only where a mark may
not tell the truth is that asked to stay. -/
def Rests (catalog : Catalog) (entity : Entity) (d : Domain) : Prop :=
  ∃ depth result, result ≠ .constant false ∧
    (node catalog depth standard .search entity d).result = .ok result ∧
    (d.IsTrusted catalog ∨ result.Stays catalog entity)

theorem Rests.exists_stays (h : d.Rests catalog entity)
    (hentity : catalog.entity? entity.name = some entity) :
    ∃ depth result again, result ≠ .constant false ∧
      (node catalog depth standard .search entity d).result = .ok result ∧
      (node catalog depth standard .search entity result).result = .ok again ∧
      again.same result = true := by
  obtain ⟨depth, result, hopen, hresult, hstays⟩ := h
  obtain ⟨depth', again, hagain, hsame⟩ := hstays.elim (fun h => h.stays hentity hresult) id
  exact ⟨max depth depth', result, again, hopen, node_of_le (Nat.le_max_left ..) hresult,
    node_of_le (Nat.le_max_right ..) hagain, hsame⟩

end Domain

def Operator.selects (op : Operator) : Bool :=
  op.family == .membership || op.family == .equality

theorem Operator.selects_of_isMembership {op : Operator} (h : op.isMembership = true) :
    op.selects = true := by
  obtain rfl | rfl := eq_of_isMembership h <;> rfl

theorem Operator.selects_of_inverse? {op inverse : Operator} (h : op.inverse? = some inverse) :
    inverse.selects = op.selects ∧ (op.isPattern = true → inverse.positive = op.positive) := by
  cases op <;> cases h <;> refine ⟨rfl, fun h => ?_⟩ <;> first
    | rfl
    | cases h

namespace Condition

/-- What a condition asks of the records that its path leads to. -/
inductive AsksFor (catalog : Catalog) (entity : Entity) (c : Condition) : Domain → Prop
  | inner {d} : c.isDotted = false → (c.operator.isTraversal || c.operator.selects) = true →
      c.operand = .domain d → AsksFor catalog entity c d
  | rest {field rest} : entity.field? c.head = some field → field.isRelational = true →
      c.rest? = some rest → AsksFor catalog entity c (.leaf rest c.operator c.operand)
  | labels {target} : c.isDotted = false → catalog.target? entity c.path = some target →
      c.operator.selects = true → c.operand.literals.filter Pass.isLabel ≠ [] →
      AsksFor catalog entity c (.leaf target.recName .mem
        (.set (.ofList (c.operand.literals.filter Pass.isLabel))))
  | pattern {target label} : c.isDotted = false → catalog.target? entity c.path = some target →
      c.operator.isPattern = true → c.operand = .scalar (.text label) → label.isEmpty = false →
      AsksFor catalog entity c (.leaf target.recName c.operator.positive c.operand)
  /-- On a relation to many records, identifiers are looked up. -/
  | ids {type} : c.isDotted = false → entity.headType? c.path = some type →
      type.isX2Many = true → c.operator.selects = true →
      c.operand.literals.filter (fun v => !Pass.isLabel v && !v.isNull) ≠ [] →
      AsksFor catalog entity c (.leaf Entity.idName .mem
        (.set (.ofList (c.operand.literals.filter fun v => !Pass.isLabel v && !v.isNull))))
  /-- Whether there are related records at all. -/
  | present {type} : c.isDotted = false → entity.headType? c.path = some type →
      type.isX2Many = true → (c.operator.selects && c.operand.literals.any Value.isNull ||
        c.operator.isPattern && c.operand.isFalsy) = true →
      AsksFor catalog entity c (.constant true)

/-- Whatever the condition asks of related records, it gets an answer. -/
def IsAnswered (catalog : Catalog) (entity : Entity) (c : Condition) : Prop :=
  ∀ d, c.AsksFor catalog entity d →
    ∃ target, catalog.target? entity c.path = some target ∧ d.Rests catalog target

variable {catalog : Catalog} {entity : Entity} {c : Condition} {op : Operator}

theorem IsAnswered.identified (h : c.IsAnswered catalog entity) (hplain : c.isDotted = false)
    (hselects : c.operator.selects = true) (hop : op.isMembership = true) {values : ValueSet}
    (hoperand : c.operand = .set values) :
    (⟨c.path, op, .set (.ofList (values.values.filter (not ∘ Pass.isLabel))), none⟩ :
      Condition).IsAnswered catalog entity := by
  have hmem : ∀ v ∈ (ValueSet.ofList (values.values.filter (not ∘ Pass.isLabel))).values,
      v ∈ values.values ∧ Pass.isLabel v = false := by
    intro v hv
    have hv := mem_filter.1 ((ValueSet.fresh_sublist [] _).mem hv)
    exact ⟨hv.1, by simpa using hv.2⟩
  have hsame : ∀ v w : Value, v.same w = true →
      (!Pass.isLabel v && !v.isNull) = (!Pass.isLabel w && !w.isNull) := by
    intro v w hsame
    cases v <;> cases w <;> first
      | rfl
      | cases hsame
  intro d hd
  cases hd with
  | inner _ _ hdomain => cases hdomain
  | rest _ _ hrest => cases (rest?_eq_none.2 hplain).symm.trans hrest
  | labels _ _ _ hlabels =>
    refine absurd (filter_eq_nil_iff.2 fun v hv => ?_) hlabels
    rw [(hmem v hv).2]
    exact Bool.false_ne_true
  | pattern _ _ hpattern =>
    obtain rfl | rfl := Operator.eq_of_isMembership hop <;> cases hpattern
  | ids _ htype hmany _ hsome =>
    have hids : ValueSet.ofList ((ValueSet.ofList (values.values.filter
        (not ∘ Pass.isLabel))).values.filter fun v => !Pass.isLabel v && !v.isNull) =
        .ofList (c.operand.literals.filter fun v => !Pass.isLabel v && !v.isNull) := by
      rw [ValueSet.ofList_filter_ofList hsame, filter_filter, hoperand]
      refine congrArg ValueSet.ofList (filter_congr fun v _ => ?_)
      cases hv : Pass.isLabel v <;> simp [hv]
    have hsome' : c.operand.literals.filter (fun v => !Pass.isLabel v && !v.isNull) ≠ [] := by
      refine fun hnil => hsome (filter_eq_nil_iff.2 fun v hv => ?_)
      rw [hoperand] at hnil
      exact filter_eq_nil_iff.1 hnil v (hmem v hv).1
    exact h _ (hids ▸ .ids hplain htype hmany hselects hsome')
  | present _ htype hmany hnull =>
    refine h _ (.present hplain htype hmany ?_)
    have hpattern : op.isPattern = false := by
      obtain rfl | rfl := Operator.eq_of_isMembership hop <;> rfl
    simp only [hpattern, Bool.false_and, Bool.or_false, Bool.and_eq_true] at hnull
    obtain ⟨v, hv, hnull⟩ := any_eq_true.1 hnull.2
    rw [hoperand, hselects, Bool.true_and, Bool.or_eq_true]
    exact .inl (any_eq_true.2 ⟨v, (hmem v hv).1, hnull⟩)

theorem IsAnswered.unset (h : c.IsAnswered catalog entity) (hplain : c.isDotted = false)
    (hop : c.operator.isPattern = true) (hfalsy : c.operand.isFalsy = true) :
    (⟨c.path, .mem, .set .unset, none⟩ : Condition).IsAnswered catalog entity := by
  intro d hd
  cases hd with
  | inner _ _ hdomain => cases hdomain
  | rest _ _ hrest => cases (rest?_eq_none.2 hplain).symm.trans hrest
  | labels _ _ _ hlabels => exact absurd rfl hlabels
  | pattern _ _ hpattern => cases hpattern
  | ids _ _ _ _ hids => exact absurd rfl hids
  | present _ htype hmany _ =>
    exact h _ (.present hplain htype hmany (by rw [hop, hfalsy]; exact Bool.or_true _))

theorem IsAnswered.inverse (h : c.IsAnswered catalog entity) (hc : c.Inverts op) :
    (c.withOperator op).IsAnswered catalog entity := by
  obtain ⟨-, -, hpattern, htraversal⟩ := Operator.kinds_of_inverse? hc.inverse
  obtain ⟨hselects, hpositive⟩ := Operator.selects_of_inverse? hc.inverse
  intro d hd
  refine h d ?_
  cases hd with
  | inner hplain hop hoperand =>
    change (op.isTraversal || op.selects) = true at hop
    rw [htraversal, hselects] at hop
    exact .inner hplain hop hoperand
  | rest _ _ hrest => cases (rest?_eq_none.2 hc.plain).symm.trans hrest
  | labels hplain htarget hop hlabels => exact .labels hplain htarget (hselects ▸ hop) hlabels
  | pattern hplain htarget hop hoperand hlabel =>
    have hop := hpattern.symm.trans hop
    rw [operator_withOperator, hpositive hop]
    exact .pattern hplain htarget hop hoperand hlabel
  | ids hplain htype hmany hop hids => exact .ids hplain htype hmany (hselects ▸ hop) hids
  | present hplain htype hmany hnull =>
    refine .present hplain htype hmany ?_
    rwa [← hselects, ← hpattern]

inductive Pole (c : Condition) : Condition → Prop
  | itself : c.Pole c
  | inverse {op : Operator} : c.Inverts op → c.Pole (c.withOperator op)

namespace Pole

variable {c' : Condition} (h : c.Pole c')

include h

theorem path : c'.path = c.path := by
  cases h <;> rfl

theorem operand : c'.operand = c.operand := by
  cases h <;> rfl

theorem mark (hmark : c.mark = none) : c'.mark = none := by
  cases h with
  | itself => exact hmark
  | inverse _ => rfl

theorem head : c'.head = c.head := by
  cases h <;> rfl

theorem isDotted : c'.isDotted = c.isDotted := by
  cases h <;> rfl

theorem kinds : c'.operator.isMembership = c.operator.isMembership ∧
    c'.operator.isPattern = c.operator.isPattern ∧
    c'.operator.isTraversal = c.operator.isTraversal := by
  cases h with
  | itself => exact ⟨rfl, rfl, rfl⟩
  | inverse hc =>
    obtain ⟨hmember, -, hpattern, htraversal⟩ := Operator.kinds_of_inverse? hc.inverse
    exact ⟨hmember, hpattern, htraversal⟩

theorem namesLabels : Pass.namesLabels c' = Pass.namesLabels c := by
  obtain ⟨hmember, hpattern, -⟩ := h.kinds
  rw [Pass.namesLabels, Pass.namesLabels, h.operand, hmember, hpattern]

theorem isAnswered (hanswered : c.IsAnswered catalog entity) : c'.IsAnswered catalog entity := by
  cases h with
  | itself => exact hanswered
  | inverse hc => exact hanswered.inverse hc

end Pole

end Condition

namespace Pass.Becomes

variable {ctx : Context} {c c' : Condition} {op : Operator}

theorem path (h : Becomes ctx c c') : c'.path = c.path := by
  cases h <;> rfl

theorem mark (h : Becomes ctx c c') : c'.mark = none := by
  cases h <;> rfl

theorem inverts (h : Becomes ctx c c') (hc : c.Inverts op) : ∃ op', c'.Inverts op' := by
  have hplain : c'.isDotted = false := by
    rw [Condition.isDotted, h.path]
    exact hc.plain
  have hop : ∃ op', c'.operator.inverse? = some op' := by
    cases h with
    | modernized _ _ hop => obtain rfl | rfl := hop <;> exact ⟨_, rfl⟩
    | equated _ hop =>
      obtain rfl | rfl := Operator.eq_of_isMembership hop <;> exact ⟨_, rfl⟩
    | entered _ hop _ => obtain rfl | rfl := Operator.eq_of_isTraversal hop <;> exact ⟨_, rfl⟩
    | ordered _ _ _ hop => cases ‹Operator› <;> cases hop <;> exact ⟨_, rfl⟩
    | members _ _ _ hop =>
      obtain rfl | rfl := Operator.eq_of_isMembership hop <;> exact ⟨_, rfl⟩
    | unrelated _ _ _ _ hop =>
      obtain rfl | rfl := Operator.eq_of_isMembership hop <;> exact ⟨_, rfl⟩
    | unmatched => exact ⟨_, rfl⟩
    | listed | related => exact ⟨_, hc.inverse⟩
  exact hop.imp fun _ hop => ⟨hop, hplain⟩

theorem isPattern (h : Becomes ctx c c') : c'.operator.isPattern = false := by
  have hmember : ∀ {op : Operator}, op.isMembership = true → op.isPattern = false := by
    intro op hop
    obtain rfl | rfl := Operator.eq_of_isMembership hop <;> rfl
  have htraversal : ∀ {op : Operator}, op.isTraversal = true → op.isPattern = false := by
    intro op hop
    obtain rfl | rfl := Operator.eq_of_isTraversal hop <;> rfl
  cases h with
  | modernized _ _ hop => obtain rfl | rfl := hop <;> rfl
  | equated _ hop | members _ _ _ hop | unrelated _ _ _ _ hop => exact hmember hop
  | listed hop _ => exact hmember hop
  | entered _ hop _ => exact htraversal hop
  | related hop => exact htraversal hop
  | unmatched => rfl
  | @ordered _ _ op _ _ _ hop => cases op <;> cases hop <;> rfl

theorem domain (h : Becomes ctx c c') (hflat : c.operator.isTraversal = false) {d : Domain}
    (hoperand : c'.operand = .domain d) :
    c.operator.selects = true ∧ c.operand = .domain d := by
  cases h with
  | modernized _ hfamily _ => exact ⟨by simp [Operator.selects, hfamily], hoperand⟩
  | equated hop _ =>
    refine ⟨by obtain hop | hop := hop <;> rw [hop] <;> rfl, ?_⟩
    cases hc : c.operand <;> rw [hc] at hoperand <;> first
      | cases hoperand; done
      | exact hoperand
  | entered hop _ _ => exact ⟨Operator.selects_of_isMembership hop, hoperand⟩
  | ordered _ _ _ _ _ hx =>
    dsimp only at hoperand
    subst hoperand
    exact hx.elim
  | unrelated _ _ hop | related hop => simp [hflat] at hop
  | listed | unmatched | members => cases hoperand

theorem selects (h : Becomes ctx c c') {field : Field}
    (hfield : ctx.entity.field? c.head = some field) (hflat : c.operator.isTraversal = false)
    (hpattern : c.operator.isPattern = true → field.isRelational = false)
    (hrelational : field.isRelational = true) (hop : c'.operator.selects = true) :
    c.operator.selects = true ∧ c'.operand.literals = c.operand.literals := by
  cases h with
  | modernized _ hfamily _ => exact ⟨by simp [Operator.selects, hfamily], rfl⟩
  | equated hop' _ =>
    refine ⟨by obtain hop' | hop' := hop' <;> rw [hop'] <;> rfl, ?_⟩
    cases hc : c.operand <;> rfl
  | listed hop' hvalue =>
    refine ⟨Operator.selects_of_isMembership hop', ?_⟩
    rw [hvalue]
    rfl
  | entered _ hop' _ =>
    obtain rfl | rfl := Operator.eq_of_isTraversal hop' <;> cases hop
  | unmatched hop' _ =>
    rw [hpattern hop'] at hrelational
    cases hrelational
  | @ordered _ _ op _ _ _ hop' => cases op <;> cases hop' <;> cases hop
  | members htype _ _ _ _ _ _ htyped =>
    rw [show ctx.entity.headType? c.path = some field.type from
      congrArg (Option.map Field.type) hfield, Option.some.injEq] at htype
    rw [← htype] at htyped
    rw [Field.isRelational] at hrelational
    cases htype : field.type <;> rw [htype] at hrelational htyped <;> first
      | exact htyped.elim
      | cases hrelational
  | unrelated _ _ hop' | related hop' => simp [hflat] at hop'

theorem isAnswered (h : Becomes ctx c c') {field : Field}
    (hfield : ctx.entity.field? c.head = some field) (hid : field.name ≠ Entity.idName)
    (hflat : c.operator.isTraversal = false)
    (hdirect : c.rest? = none ∨ field.isRelational = false)
    (hpattern : c.operator.isPattern = true → field.isRelational = false)
    (hanswered : c.IsAnswered ctx.catalog ctx.entity) :
    c'.IsAnswered ctx.catalog ctx.entity := by
  have hselects := h.selects hfield hflat hpattern
  have hmany : ∀ {type}, ctx.entity.headType? c.path = some type → type.isX2Many = true →
      field.isRelational = true := by
    intro type htype hmany
    rw [show ctx.entity.headType? c.path = some field.type from
      congrArg (Option.map Field.type) hfield, Option.some.injEq] at htype
    exact Field.isRelational_of_isX2Many (htype ▸ hmany)
  have hpath := h.path
  have hdotted : c'.isDotted = c.isDotted := by rw [Condition.isDotted, hpath]; rfl
  intro d hd
  rw [hpath]
  refine hanswered d ?_
  cases hd with
  | inner hplain hop hoperand =>
    obtain ⟨hop, hoperand⟩ := h.domain hflat hoperand
    exact .inner (hdotted ▸ hplain) (by rw [hop, Bool.or_true]) hoperand
  | @rest field' rest hfield' hrelational hrest =>
    rw [Condition.head, hpath] at hfield'
    rw [Condition.rest?, hpath] at hrest
    cases hfield.symm.trans hfield'
    obtain hdirect | hdirect := hdirect
    · cases hdirect.symm.trans hrest
    · cases hdirect.symm.trans hrelational
  | labels hplain htarget hop hlabels =>
    rw [hpath] at htarget
    obtain ⟨hop, hliterals⟩ :=
      hselects (Catalog.comodel_of_target? hfield hid htarget).1 hop
    rw [hliterals] at hlabels ⊢
    exact .labels (hdotted ▸ hplain) htarget hop hlabels
  | pattern _ _ hop => cases h.isPattern.symm.trans hop
  | ids hplain htype hmany' hop hids =>
    rw [hpath] at htype
    obtain ⟨hop, hliterals⟩ := hselects (hmany htype hmany') hop
    rw [hliterals] at hids ⊢
    exact .ids (hdotted ▸ hplain) htype hmany' hop hids
  | present hplain htype hmany' hnull =>
    rw [hpath] at htype
    rw [h.isPattern, Bool.false_and, Bool.or_false, Bool.and_eq_true] at hnull
    obtain ⟨hop, hliterals⟩ := hselects (hmany htype hmany') hnull.1
    rw [hliterals] at hnull
    exact .present (hdotted ▸ hplain) htype hmany' (by rw [hop, hnull.2]; rfl)

end Pass.Becomes

end QueryDomain
