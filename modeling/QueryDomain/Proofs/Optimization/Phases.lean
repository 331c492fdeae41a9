import QueryDomain.Proofs.Optimization.Depth
import QueryDomain.Proofs.Optimization.Invariant
import QueryDomain.Proofs.Optimization.Rounds

/-! How merging comes to an end, whatever the number of children. What the first merge has put
together may change when it is optimized: a traversal may even become a membership. What the second
merge has put together are memberships alone, and they stay what they are, so that the third merge
finds nothing to do. -/
namespace QueryDomain

open List

theorem Operator.eq_of_isTraversal {op : Operator} (h : op.isTraversal = true) :
    op = .any ∨ op = .notAny := by
  cases op <;> first
    | exact .inl rfl
    | exact .inr rfl
    | cases h

def Entity.OwnsFields (e : Entity) : Prop := ∀ field ∈ e.fields, field.delegatedVia = none

theorem Entity.OwnsFields.of_field? {e : Entity} (h : e.OwnsFields) {name : String} {field : Field}
    (hfield : e.field? name = some field) : field.delegatedVia = none := by
  obtain hmem | rfl := Entity.mem_or_eq_of_field? hfield
  · exact h field hmem
  · rfl

def Catalog.OwnsFields (catalog : Catalog) : Prop := ∀ entity ∈ catalog.entities, entity.OwnsFields

theorem Catalog.OwnsFields.of_entity? {catalog : Catalog} (h : catalog.OwnsFields) {name : String}
    {entity : Entity} (hentity : catalog.entity? name = some entity) : entity.OwnsFields :=
  h entity (mem_of_find?_eq_some hentity)

namespace Condition

variable {catalog : Catalog} {level : Level} {entity : Entity} {c : Condition}

def IsResolved (entity : Entity) (c : Condition) : Prop :=
  ∃ field, entity.field? c.head = some field ∧ (c.rest? = none ∨ field.isRelational = false)

/-- A membership in a set that stays one on its path: there are neither labels nor days in it, and
the field leads to one record at most. -/
structure IsTame (entity : Entity) (c : Condition) : Prop where
  resolved : c.IsResolved entity
  membership : c.operator.isMembership = true
  set : ∃ values, c.operand = .set values
  single : ∀ field, entity.field? c.head = some field → field.type.isX2Many = false
  noLabels : ∀ field, entity.field? c.head = some field → field.isRelational = true →
    ∀ v ∈ c.operand.literals, Pass.isLabel v = false
  noDays : entity.headType? c.path = some .datetime → c.isDotted = false →
    ∀ v ∈ c.operand.literals, Pass.isMoment v = true

/-- A traversal to a domain that stays one on its path, or becomes a membership. -/
structure IsDirect (entity : Entity) (c : Condition) : Prop where
  resolved : c.IsResolved entity
  traversal : c.operator.isTraversal = true
  domain : ∃ inner, c.operand = .domain inner

theorem Kept.isResolved (h : c.Kept catalog level entity) : c.IsResolved entity := by
  obtain ⟨field, hfield, hrest⟩ := h.resolved
  exact ⟨field, hfield, hrest.imp_right And.left⟩

theorem Kept.isTame (h : c.Kept catalog level entity) (hop : c.operator.isMembership = true) :
    c.IsTame entity := by
  obtain ⟨values, hvalues, -⟩ := h.membership hop
  have hcompares : c.isDotted = false → Pass.comparesLiterals c = true := by
    intro hplain
    unfold Pass.comparesLiterals
    rw [hplain, hop]
    exact Bool.or_true _
  have htypes : ∀ {field type}, entity.field? c.head = some field → field.type = type →
      entity.headType? c.path = some type := by
    intro field type hfield htype
    rw [← htype]
    exact congrArg (Option.map (·.type)) hfield
  have hsingle : ∀ field, entity.field? c.head = some field → field.type.isX2Many = false := by
    intro field hfield
    rw [Bool.eq_false_iff]
    intro hmany
    have hpass := h _ PassEntry.IsStandard.manyMembers.mem (Level.basic_le level) (by
      cases htype : field.type <;> rw [htype] at hmany <;> first
        | rw [htypes hfield htype]; rfl
        | cases hmany)
    change (Pass.manyMembers c (.still catalog level entity)).result = _ at hpass
    have hdotted := Pass.manyMembers_eq_none.1 hpass values hvalues
    rw [hop, Bool.not_true, Bool.or_false] at hdotted
    obtain ⟨field', hfield', hrest⟩ := h.isResolved
    obtain rfl : field = field' := Option.some.inj (hfield.symm.trans hfield')
    rw [Field.isRelational_of_isX2Many hmany, rest?_eq_none, hdotted] at hrest
    simp at hrest
  refine ⟨h.isResolved, hop, ⟨values, hvalues⟩, hsingle, ?_, ?_⟩
  · intro field hfield hrelational v hv
    have hpass := h _ PassEntry.IsStandard.labels.mem (Level.basic_le level)
      (PassScope.covers_operators.2 (mem_append_left _ (Registry.mem_membershipOperators.2 hop)))
    obtain ⟨field', hfield', hskip⟩ := Pass.labels_eq_none.1 hpass
    obtain rfl : field = field' := Option.some.inj (hfield.symm.trans (Context.field_eq_ok.1 hfield'))
    obtain ⟨field', hfield', hrest⟩ := h.isResolved
    obtain rfl : field = field' := Option.some.inj (hfield.symm.trans hfield')
    rw [hrelational, rest?_eq_none] at hrest
    have hplain : c.isDotted = false := by simpa using hrest
    rw [hrelational, hplain, Pass.namesLabels, hvalues] at hskip
    rw [hvalues] at hv
    simp only [hop, Bool.true_and, Bool.true_eq_false, Bool.false_eq_true, false_or, any_eq_false,
      Bool.not_eq_true] at hskip
    exact hskip v hv
  · intro htype hplain v hv
    have hpass := h _ PassEntry.IsStandard.datetimeLiterals.mem (Level.basic_le level)
      (by rw [htype]; rfl)
    change (Pass.datetimeLiterals c (.still catalog level entity)).result = _ at hpass
    have hliterals := (Pass.datetimeLiterals_eq_none.1 hpass (hcompares hplain)).2
    rw [hvalues] at hliterals hv
    exact hliterals.1 v hv

theorem Kept.isDirect (h : c.Kept catalog level entity) (hop : c.operator.isTraversal = true)
    {inner : Domain} : (c.withOperand (.domain inner)).IsDirect entity :=
  ⟨h.isResolved, hop, inner, rfl⟩

theorem IsTame.of_run {path : String} {op : Operator} {values : ValueSet} {run : List Condition}
    (hsome : run ≠ []) (hrun : ∀ c ∈ run, c.IsTame entity ∧ c.path = path)
    (hop : op.isMembership = true)
    (hvalues : ∀ v ∈ values.values, ∃ c ∈ run, v ∈ c.operand.literals) :
    (⟨path, op, .set values, none⟩ : Condition).IsTame entity := by
  obtain ⟨c₀, hc₀⟩ := exists_mem_of_ne_nil run hsome
  obtain ⟨htame, rfl⟩ := hrun c₀ hc₀
  have hhead : ∀ {c : Condition}, c.path = c₀.path → c.head = c₀.head := by
    intro c hpath
    rw [head, hpath]
    rfl
  refine ⟨htame.resolved, hop, ⟨values, rfl⟩, htame.single, ?_, ?_⟩
  · intro field hfield hrelational v hv
    obtain ⟨c, hc, hv⟩ := hvalues v hv
    obtain ⟨hc, hpath⟩ := hrun c hc
    exact hc.noLabels field (hhead hpath ▸ hfield) hrelational v hv
  · intro htype hplain v hv
    obtain ⟨c, hc, hv⟩ := hvalues v hv
    obtain ⟨hc, hpath⟩ := hrun c hc
    refine hc.noDays (hpath ▸ htype) ?_ v hv
    rwa [isDotted, hpath]

end Condition

namespace Optimizer

open Domain

variable {catalog : Catalog} {level : Level} {entity : Entity} {k : Connective}

/-- What merging puts together from the conditions among children: a membership in members of
memberships on one path, or a traversal to the domains of traversals, joined. -/
inductive Merged (children : List Domain) : Domain → Prop
  | member {path op values} {run : List Condition} : op.isMembership = true → run ≠ [] →
      (∀ c ∈ run, .condition c ∈ children ∧ c.path = path ∧ c.operator.isMembership = true) →
      (∀ v ∈ ValueSet.values values, ∃ c ∈ run, v ∈ c.operand.literals) →
      Merged children (.leaf path op (.set values))
  | traversal {c : Condition} {l : Connective} {inners} : .condition c ∈ children →
      c.operator.isTraversal = true →
      (∀ inner ∈ inners, ∃ c' : Condition, .condition c' ∈ children ∧ c'.path = c.path ∧
        c'.operator = c.operator ∧ c'.operand = .domain inner) →
      Merged children (.condition (c.withOperand (.domain (l.apply inners))))

theorem mem_mergeAll {children : List Domain} : ∀ d ∈ mergeAll k entity children,
    d ∈ children ∨ Merged children d := by
  have hdistinct : ∀ d ∈ Merge.distinct [] children, d ∈ children :=
    fun d hd => (Merge.distinct_sublist [] children).mem hd
  have hsets : ∀ d ∈ replaceRuns (isMerged setScope entity) (Merge.joinSets k)
      (runsBy setScope.runKey? (Merge.distinct [] children)), d ∈ children ∨ (Merged children d ∧
        ∀ c, d = .condition c → c.operator.isMembership = true) := by
    refine forall_mem_runs (fun d hd => .inl (hdistinct d hd)) fun path run hrun hlong d hd => ?_
    have hmembers : ∀ c ∈ run.filterMap asCondition?, .condition c ∈ children ∧ c.path = path ∧
        c.operator.isMembership = true := by
      intro c hc
      obtain ⟨e, he, hec⟩ := mem_filterMap.1 hc
      obtain ⟨hmem, hkey⟩ := hrun e he
      obtain ⟨c', rfl, hpath, hop⟩ := setScope_key hkey
      cases hec
      exact ⟨hdistinct _ hmem, hpath, hop⟩
    have hpaths : ∀ c, .condition c ∈ run → c.path = path :=
      fun c hc => (hmembers c (mem_filterMap.2 ⟨_, hc, rfl⟩)).2.1
    obtain hd | ⟨op, values, hop, rfl, hvalues⟩ := Merge.mem_joinSets_of_path hpaths hd
    · exact .inl (hdistinct d (hrun d hd).1)
    · refine .inr ⟨.member hop ?_ hmembers fun v hv => ?_, ?_⟩
      · obtain ⟨first, hfirst⟩ := exists_mem_of_length_pos (by omega : 0 < run.length)
        obtain ⟨c, rfl, -, -⟩ := setScope_key (hrun first hfirst).2
        exact ne_nil_of_mem (mem_filterMap.2 ⟨_, hfirst, rfl⟩)
      · obtain ⟨c, values', hc, hoperand, hv⟩ := hvalues v hv
        exact ⟨c, mem_filterMap.2 ⟨_, hc, rfl⟩, by rwa [hoperand]⟩
      · rintro c ⟨⟩
        exact hop
  refine forall_mem_runs (fun d hd => (hsets d hd).imp_right And.left) fun path run hrun _ d hd => ?_
  -- Traversals are none of the memberships that have been put together before.
  have htraversals : ∀ c, .condition c ∈ run → .condition c ∈ children ∧ c.path = path ∧
      c.operator.isTraversal = true := by
    intro c hc
    obtain ⟨hmem, hkey⟩ := hrun _ hc
    obtain ⟨c', hc', hpath, hop⟩ := anyScope_key hkey
    cases hc'
    obtain hchild | ⟨-, hmember⟩ := hsets _ hmem
    · exact ⟨hchild, hpath, hop⟩
    · obtain hmember | hmember := Operator.eq_of_isMembership (hmember c rfl) <;>
        rw [hmember] at hop <;> cases hop
  obtain hd | ⟨c, hc, -, rfl⟩ := Merge.mem_joinAnys hd
  · exact (hsets d (hrun d hd).1).imp_right And.left
  · obtain ⟨hchild, hpath, hop⟩ := htraversals c hc
    refine .inr ?_
    have hinners : ∀ inner ∈ run.filterMap (Merge.inner? c.operator), ∃ c' : Condition,
        .condition c' ∈ children ∧ c'.path = c.path ∧ c'.operator = c.operator ∧
          c'.operand = .domain inner := by
      intro inner hinner
      obtain ⟨c', hc', hop', hoperand⟩ := Merge.mem_inners hinner
      obtain ⟨hchild', hpath', -⟩ := htraversals c' hc'
      exact ⟨c', hchild', hpath'.trans hpath.symm, hop', hoperand⟩
    unfold Merge.joinedInner
    split <;> exact .traversal hchild hop hinners

/-- What merging makes of settled children: the children themselves, tame memberships, and
traversals. -/
theorem mergeAll_cases {children : List Domain}
    (h : ∀ d ∈ children, Settled catalog level d entity) : ∀ d ∈ mergeAll k entity children,
      d ∈ children ∨ (∃ c, d = .condition c ∧ c.IsTame entity) ∨
        ∃ c, d = .condition c ∧ c.IsDirect entity := by
  refine fun d hd => (mem_mergeAll d hd).imp_right fun hmerged => ?_
  cases hmerged with
  | @member path op values run hop hsome hrun hvalues =>
    refine .inl ⟨_, rfl, .of_run hsome (fun c hc => ?_) hop hvalues⟩
    obtain ⟨hchild, hpath, hop⟩ := hrun c hc
    cases h _ hchild with
    | condition hkept _ => exact ⟨hkept.isTame hop, hpath⟩
  | traversal hchild hop _ =>
    cases h _ hchild with
    | condition hkept _ => exact .inr ⟨_, rfl, hkept.isDirect hop⟩

section Outcome

variable {ctx : Context} {c : Condition} {d : Domain}

theorem splits_of_resolved {c' : Condition} (howns : ctx.entity.OwnsFields)
    (hresolved : c.IsResolved ctx.entity) (hsplits : Pass.Splits ctx c c') :
    (Pass.namesLabels c = true ∧
      ∃ field, ctx.entity.field? c.head = some field ∧ field.isRelational = true) ∨
    (c.operator.isMembership = true ∧
      ∃ field, ctx.entity.field? c.head = some field ∧ field.type.isX2Many = true) ∨
    c.operator = .childOf ∨ c.operator = .parentOf := by
  cases hsplits with
  | crossed hfield hrest hrelational =>
    obtain ⟨field', hfield', hcases⟩ := hresolved
    rw [hfield, Option.some.injEq] at hfield'
    rw [← hfield', hrest, hrelational] at hcases
    simp at hcases
  | labelled hfield _ hrelational _ hnames _ _ => exact .inl ⟨hnames, _, hfield, hrelational⟩
  | identified hfield _ hrelational hnames _ _ _ _ => exact .inl ⟨hnames, _, hfield, hrelational⟩
  | listed hfield _ hmany hop _ _ _ _ => exact .inr (.inl ⟨hop, _, hfield, hmany⟩)
  | unlisted hfield _ hmany hop _ _ _ => exact .inr (.inl ⟨hop, _, hfield, hmany⟩)
  | inherited hfield hlink =>
    rw [howns.of_field? hfield] at hlink
    cases hlink
  | found hop _ _ _ => exact .inr (.inr hop)
  | reached hop _ _ _ _ _ => exact .inr (.inr hop)

variable (hhooks : ctx.entity.Hookless) (howns : ctx.entity.OwnsFields)
  (hentity : ctx.catalog.entity? ctx.entity.name = some ctx.entity)

include howns in
theorem outcome_of_tame (hc : c.IsTame ctx.entity) (h : Pass.Outcome ctx c d) :
    (∃ v, d = .constant v) ∨
      ∃ c', d = .condition c' ∧ c'.IsTame ctx.entity ∧ c'.path = c.path := by
  have hop := Operator.eq_of_isMembership hc.membership
  obtain ⟨values, hvalues⟩ := hc.set
  cases h with
  | becomes hbecomes =>
    cases hbecomes with
    | modernized _ hfamily _ => obtain hop | hop := hop <;> rw [hop] at hfamily <;> cases hfamily
    | equated hequal _ => obtain hop | hop := hop <;> rw [hop] at hequal <;> simp at hequal
    | listed _ hvalue =>
      rw [hvalues] at hvalue
      cases hvalue
    | entered _ _ hoperand => simp [hvalues] at hoperand
    | unmatched hpattern _ => obtain hop | hop := hop <;> rw [hop] at hpattern <;> cases hpattern
    | ordered _ _ hordering _ _ _ _ _ _ =>
      obtain hop | hop := hop <;> rw [hop] at hordering <;> cases hordering
    | members htype _ _ hop' _ _ _ htyped =>
      refine .inr ⟨_, rfl, ⟨hc.resolved, hop', ⟨_, rfl⟩, hc.single, ?_, ?_⟩, rfl⟩
      · exact fun _ _ _ => Pass.isLabel_of_isTyped htyped
      · intro htype' _ v hv
        change ctx.entity.headType? c.path = _ at htype'
        rw [htype, Option.some.injEq] at htype'
        subst htype'
        exact htyped.1 v hv
    | unrelated _ _ htraversal _ _ =>
      obtain hop | hop := hop <;> rw [hop] at htraversal <;> cases htraversal
    | related htraversal _ _ _ _ _ _ =>
      obtain hop | hop := hop <;> rw [hop] at htraversal <;> cases htraversal
  | splits hover =>
    refine hover.constant_or_exists.imp_right fun ⟨c', hsplits⟩ => ?_
    exfalso
    obtain ⟨hnames, field, hfield, hrelational⟩ | ⟨-, field, hfield, hmany⟩ | hwalk :=
      splits_of_resolved howns hc.resolved hsplits
    · have hlabels := hc.noLabels field hfield hrelational
      rw [hvalues] at hlabels
      simp only [Pass.namesLabels, hvalues, Bool.and_eq_true, any_eq_true] at hnames
      obtain ⟨-, v, hv, hlabel⟩ := hnames
      rw [hlabels v hv] at hlabel
      cases hlabel
    · rw [hc.single field hfield] at hmany
      cases hmany
    · obtain hop | hop := hop <;> rw [hop] at hwalk <;> simp at hwalk
  | dated hdays _ =>
    exfalso
    obtain ⟨htype, hcompares, values', hvalues', v, hv, hday⟩ := hdays
    simp only [Pass.comparesLiterals, Bool.and_eq_true, Bool.not_eq_true'] at hcompares
    rw [Pass.mayBeDay_of_isMoment (hc.noDays htype hcompares.1 v (by rw [hvalues']; exact hv))]
      at hday
    cases hday

include howns in
theorem outcome_of_direct (hc : c.IsDirect ctx.entity) (h : Pass.Outcome ctx c d) :
    (∃ v, d = .constant v) ∨
      (∃ c', d = .condition c' ∧ c'.IsTame ctx.entity ∧ c'.path = c.path) ∨
      ∃ c', d = .condition c' ∧ c'.IsDirect ctx.entity ∧ c'.path = c.path ∧
        c'.operator = c.operator := by
  have hop := Operator.eq_of_isTraversal hc.traversal
  obtain ⟨inner, hinner⟩ := hc.domain
  cases h with
  | becomes hbecomes =>
    cases hbecomes with
    | modernized _ hfamily _ => obtain hop | hop := hop <;> rw [hop] at hfamily <;> cases hfamily
    | equated hequal _ => obtain hop | hop := hop <;> rw [hop] at hequal <;> simp at hequal
    | listed hmember _ => obtain hop | hop := hop <;> rw [hop] at hmember <;> cases hmember
    | entered hmember _ _ => obtain hop | hop := hop <;> rw [hop] at hmember <;> cases hmember
    | unmatched hpattern _ => obtain hop | hop := hop <;> rw [hop] at hpattern <;> cases hpattern
    | ordered _ _ hordering _ _ _ _ _ _ =>
      obtain hop | hop := hop <;> rw [hop] at hordering <;> cases hordering
    | members _ _ hmember _ _ _ _ _ =>
      obtain hop | hop := hop <;> rw [hop] at hmember <;> cases hmember
    | unrelated htype _ _ _ hop' =>
      refine .inr (.inl ⟨_, rfl, ⟨hc.resolved, hop', ⟨_, rfl⟩, ?_, ?_, ?_⟩, rfl⟩)
      · intro field hfield
        obtain ⟨field', hfield', hmany2one⟩ := Option.map_eq_some_iff.1 htype
        obtain rfl : field = field' := Option.some.inj (hfield.symm.trans hfield')
        rw [hmany2one]
        rfl
      · exact fun _ _ _ => Pass.isLabel_unset
      · intro htype'
        change ctx.entity.headType? c.path = _ at htype'
        rw [htype] at htype'
        cases htype'
    | related _ _ _ _ _ _ _ =>
      exact .inr (.inr ⟨_, rfl, ⟨hc.resolved, hc.traversal, _, rfl⟩, rfl, rfl⟩)
  | splits hover =>
    refine hover.constant_or_exists.imp_right fun ⟨c', hsplits⟩ => ?_
    exfalso
    obtain ⟨hnames, -⟩ | ⟨hmember, -⟩ | hwalk := splits_of_resolved howns hc.resolved hsplits
    · rw [Pass.namesLabels, hinner] at hnames
      cases hnames
    · obtain hop | hop := hop <;> rw [hop] at hmember <;> cases hmember
    · obtain hop | hop := hop <;> rw [hop] at hwalk <;> simp at hwalk
  | dated hdays _ =>
    obtain ⟨-, -, values, hvalues, -⟩ := hdays
    rw [hinner] at hvalues
    cases hvalues

theorem settles_constant {v : Bool} {result : Domain}
    (h : Settles standard ctx (.constant v) result) : result = .constant v := by
  cases h with
  | covered _ => rfl
  | done _ hstep =>
    cases hstep with
    | constant v => rfl
  | changed _ hstep _ => cases hstep

include hhooks howns hentity in
theorem settles_of_tame {result : Domain} (h : Settles standard ctx (.condition c) result)
    (hc : c.IsTame ctx.entity) :
    (∃ v, result = .constant v) ∨ keyOf .membership result = some c.path := by
  have hkey : ∀ {c : Condition}, c.IsTame ctx.entity →
      keyOf .membership (.condition c) = some c.path := by
    intro c hc
    refine keyOf_eq_some.2 ⟨c, rfl, ?_, rfl⟩
    obtain hop | hop := Operator.eq_of_isMembership hc.membership <;> rw [hop] <;> rfl
  generalize hd : Domain.condition c = d at h
  induction h generalizing c with
  | covered _ => exact .inr (hd ▸ hkey hc)
  | done _ hstep =>
    subst hd
    cases hstep with
    | kept _ => exact .inr (hkey (c := c.withMark ctx.mark)
        ⟨hc.resolved, hc.membership, hc.set, hc.single, hc.noLabels, hc.noDays⟩)
  | changed _ hstep hsettles ih =>
    subst hd
    cases hstep with
    | replaced hsplit hbefore hpass =>
      obtain ⟨v, rfl⟩ | ⟨c', rfl, hc', hpath⟩ := outcome_of_tame howns hc
        (outcome_of_replaced (fun _ => hhooks) (fun _ => hentity) hsplit hbefore hpass)
      · exact .inl ⟨v, settles_constant hsettles⟩
      · rw [← hpath]
        exact ih hc' rfl

include hhooks howns hentity in
theorem settles_of_direct {result : Domain} (h : Settles standard ctx (.condition c) result)
    (hc : c.IsDirect ctx.entity) :
    (∃ v, result = .constant v) ∨ keyOf .membership result = some c.path ∨
      (keyOf .traversal result = some c.path ∧
        (Merge.inner? c.operator result).isSome = true) := by
  have hkey : ∀ {c : Condition}, c.IsDirect ctx.entity →
      keyOf .traversal (.condition c) = some c.path ∧
        (Merge.inner? c.operator (.condition c)).isSome = true := by
    intro c hc
    obtain ⟨path, operator, operand, mark⟩ := c
    obtain ⟨inner, rfl⟩ := hc.domain
    refine ⟨keyOf_eq_some.2 ⟨_, rfl, ?_, rfl⟩, by simp [Merge.inner?]⟩
    obtain rfl | rfl := Operator.eq_of_isTraversal hc.traversal <;> rfl
  generalize hd : Domain.condition c = d at h
  induction h generalizing c with
  | covered _ => exact .inr (.inr (hd ▸ hkey hc))
  | done _ hstep =>
    subst hd
    cases hstep with
    | kept _ => exact .inr (.inr (hkey (c := c.withMark ctx.mark)
        ⟨hc.resolved, hc.traversal, hc.domain⟩))
  | changed _ hstep hsettles ih =>
    subst hd
    cases hstep with
    | replaced hsplit hbefore hpass =>
      obtain ⟨v, rfl⟩ | ⟨c', rfl, hc', hpath⟩ | ⟨c', rfl, hc', hpath, hop⟩ :=
        outcome_of_direct howns hc
          (outcome_of_replaced (fun _ => hhooks) (fun _ => hentity) hsplit hbefore hpass)
      · exact .inl ⟨v, settles_constant hsettles⟩
      · rw [← hpath]
        exact (settles_of_tame hhooks howns hentity hsettles hc').imp_right .inl
      · rw [← hpath, ← hop]
        exact ih hc' rfl

end Outcome

def StaysApart (e r : Domain) : Prop :=
  r.canonical = e.canonical ∨ (∃ v, r = .constant v) ∨
    ∃ path, keyOf .membership e = some path ∧ keyOf .membership r = some path

def KeepsTraversals (e r : Domain) : Prop :=
  ∀ path op, keyOf .traversal r = some path → (Merge.inner? op r).isSome = true →
    keyOf .traversal e = some path ∧ (Merge.inner? op e).isSome = true

theorem keepsTraversals_of_staysApart {e r : Domain} (h : StaysApart e r) :
    KeepsTraversals e r := by
  intro path op hkey hinner
  obtain hsame | ⟨v, rfl⟩ | ⟨path', -, hmember⟩ := h
  · rw [← same_iff] at hsame
    exact ⟨keyOf_of_same hsame ▸ hkey, isSome_inner?_of_same hsame op ▸ hinner⟩
  · cases hkey
  · rw [keyOf_ne (by decide) hmember] at hkey
    cases hkey

theorem not_bothTraverse {a b a' b' : Domain} (h : ¬BothTraverse k entity a b)
    (ha : KeepsTraversals a a') (hb : KeepsTraversals b b') : ¬BothTraverse k entity a' b' := by
  rintro ⟨path, op, hkey, hkey', hinner, hinner', hrest⟩
  obtain ⟨hkey, hinner⟩ := ha path op hkey hinner
  obtain ⟨hkey', hinner'⟩ := hb path op hkey' hinner'
  exact h ⟨path, op, hkey, hkey', hinner, hinner', hrest⟩

/-- Children that are apart are optimized to children that are apart, the constants aside. -/
theorem Apart.of_staysApart {a b a' b' : Domain} (h : Apart k entity a b) (ha : StaysApart a a')
    (hb : StaysApart b b') (hconstant : ∀ v, a' ≠ .constant v) (hconstant' : ∀ v, b' ≠ .constant v) :
    Apart k entity a' b' := by
  -- The keys of memberships are those of the children.
  have hkey : ∀ {e r : Domain}, StaysApart e r → (∀ v, r ≠ .constant v) →
      keyOf .membership e = keyOf .membership r := by
    rintro e r (hsame | ⟨v, rfl⟩ | ⟨path, he, hr⟩) hne
    · exact (keyOf_of_same (same_iff.2 hsame)).symm
    · exact absurd rfl (hne v)
    · rw [he, hr]
  have hmember : ¬BothMembers a' b' := by
    intro hboth
    rw [bothMembers_iff, ← hkey ha hconstant, ← hkey hb hconstant', ← bothMembers_iff] at hboth
    exact h.oneMembership hboth
  refine ⟨?_, hmember, not_bothTraverse h.oneTraversal (keepsTraversals_of_staysApart ha)
    (keepsTraversals_of_staysApart hb)⟩
  rw [Bool.eq_false_iff]
  intro hsame
  have hsamekey : keyOf .membership a' = keyOf .membership b' := keyOf_of_same hsame
  obtain hsame₁ | ⟨v, hv⟩ | ⟨path, -, hpath⟩ := ha
  · obtain hsame₂ | ⟨v, hv⟩ | ⟨path, -, hpath⟩ := hb
    · refine Bool.eq_false_iff.1 h.different (same_iff.2 ?_)
      rw [← hsame₁, ← hsame₂, same_iff.1 hsame]
    · exact hconstant' v hv
    · exact hmember (bothMembers_iff.2 ⟨path, hsamekey.trans hpath, hpath⟩)
  · exact hconstant v hv
  · exact hmember (bothMembers_iff.2 ⟨path, hpath, hsamekey.symm.trans hpath⟩)

/-- Children that merging has left. Besides settled ones there are tame memberships among them and,
after the first merge, traversals. -/
structure Leftover (catalog : Catalog) (level : Level) (entity : Entity) (k : Connective)
    (first : Bool) (children : List Domain) : Prop where
  apart : children.Pairwise (Apart k entity)
  noNode : ∀ d ∈ children, d.connective? ≠ some k
  parts : ∀ d ∈ children, Settled catalog level d entity ∨
    (∃ c, d = .condition c ∧ c.IsTame entity) ∨
    (first = true ∧ ∃ c, d = .condition c ∧ c.IsDirect entity)

/-- What is known of the children of a node that can be merged so many more times. -/
def Phase (catalog : Catalog) (level : Level) (entity : Entity) (k : Connective) :
    Nat → List Domain → Prop
  | 0 => Leftover catalog level entity k false
  | 1 => Leftover catalog level entity k true
  | _ + 2 => fun _ => True

theorem pairwise_of_forall₂ {R : Domain → Domain → Prop} {P Q : Domain → Domain → Prop}
    {as bs : List Domain} (h : Forall₂ R as bs) (hP : as.Pairwise P)
    (hQ : ∀ {a b a' b'}, a ∈ as → b ∈ as → R a a' → R b b' → P a b → Q a' b') :
    bs.Pairwise Q := by
  induction h with
  | nil => exact .nil
  | @cons a a' as as' ha has ih =>
    rw [pairwise_cons] at hP
    refine .cons (fun b' hb' => ?_) (ih hP.2 fun hx hy =>
      hQ (mem_cons_of_mem _ hx) (mem_cons_of_mem _ hy))
    obtain ⟨b, hb, hbb'⟩ := Pass.exists_of_forall₂ has hb'
    exact hQ (mem_cons_self ..) (mem_cons_of_mem _ hb) ha hbb' (hP.1 b hb)

theorem collect?_sublist {ds collected : List Domain} (hnode : ∀ d ∈ ds, d.connective? ≠ some k)
    (h : k.collect? ds = some collected) : collected.Sublist ds := by
  induction ds generalizing collected with
  | nil =>
    cases h
    exact .slnil
  | cons d ds ih =>
    rw [forall_mem_cons] at hnode
    rw [Connective.collect?] at h
    split at h
    · cases h
    · rename_i parts hparts
      obtain ⟨rest, hrest, rfl⟩ := Option.map_eq_some_iff.1 h
      have hpart : parts.Sublist [d] := by
        unfold Connective.contribution? at hparts
        split at hparts
        · split at hparts <;> cases hparts
          exact nil_sublist _
        · rename_i l children mark
          rw [if_neg (fun hl => hnode.1 (congrArg some hl.symm))] at hparts
          cases hparts
          exact .refl _
        · cases hparts
          exact .refl _
      exact hpart.append (ih hnode.2 hrest)

theorem exists_sublist_of_sortedJoin {ds sorted : List Domain}
    (hnode : ∀ d ∈ ds, d.connective? ≠ some k) (h : sortedJoin k ds = .nary k sorted none) :
    ∃ collected, collected.Sublist ds ∧ (∀ d ∈ collected, ∀ v, d ≠ .constant v) ∧
      sorted.Perm collected := by
  cases hcollected : k.collect? ds with
  | none => simp [sortedJoin, Connective.apply, hcollected, connective?] at h
  | some collected =>
    have hsublist := collect?_sublist hnode hcollected
    have hconstant : ∀ d ∈ collected, ∀ v, d ≠ .constant v := by
      intro d hd
      obtain ⟨-, hconstant, -⟩ | ⟨grandchildren, mark, hmem, -⟩ :=
        Connective.mem_collect? hcollected hd
      · exact hconstant
      · exact absurd rfl (hnode _ hmem)
    refine ⟨collected, hsublist, hconstant, ?_⟩
    obtain _ | ⟨a, _ | ⟨b, rest⟩⟩ := collected
    · simp [sortedJoin, Connective.apply, hcollected, Connective.node, connective?] at h
    · have ha := hnode a (hsublist.mem (mem_singleton.2 rfl))
      simp only [sortedJoin, Connective.apply, hcollected, Connective.node, ha, if_false] at h
      exact absurd (by rw [h]; rfl) ha
    · rw [sortedJoin_eq_nary hcollected (by simp) hconstant fun d hd => hnode d (hsublist.mem hd)]
        at h
      cases h
      exact sortChildren_perm _

section Descent

variable {depth : Nat} {first : Bool} {e r : Domain} (hhooks : catalog.Hookless)
  (howns : entity.OwnsFields) (hentity : catalog.entity? entity.name = some entity)

theorem node_canonical_of_settled (he : Settled catalog level e entity)
    (h : (node catalog depth standard level entity e).result = .ok r) :
    r.canonical = e.canonical := by
  obtain ⟨r', hr', hsame⟩ := node_of_settled he (Nat.lt_succ_self _)
  rw [node_unique h hr', hsame]

theorem settles_of_node (h : (node catalog depth standard level entity e).result = .ok r) :
    ∃ ctx : Context, ctx.catalog = catalog ∧ ctx.entity = entity ∧ Settles standard ctx e r := by
  cases depth with
  | zero => cases h
  | succ depth =>
    rw [node_succ] at h
    exact ⟨_, rfl, rfl, settle_eq_ok h⟩

include hhooks howns hentity in
theorem staysApart (he : Settled catalog level e entity ∨ ∃ c, e = .condition c ∧ c.IsTame entity)
    (h : (node catalog depth standard level entity e).result = .ok r) : StaysApart e r := by
  obtain hsettled | ⟨c, rfl, hc⟩ := he
  · exact .inl (node_canonical_of_settled hsettled h)
  · obtain ⟨ctx, rfl, rfl, hsettles⟩ := settles_of_node h
    refine .inr ((settles_of_tame (hhooks.of_entity? hentity) howns hentity hsettles hc).imp_right
      fun hkey => ⟨c.path, keyOf_eq_some.2 ⟨c, rfl, ?_, rfl⟩, hkey⟩)
    obtain hop | hop := Operator.eq_of_isMembership hc.membership <;> rw [hop] <;> rfl

include hhooks howns hentity in
theorem keepsTraversals (he : Settled catalog level e entity ∨
      (∃ c, e = .condition c ∧ c.IsTame entity) ∨
      (first = true ∧ ∃ c, e = .condition c ∧ c.IsDirect entity))
    (h : (node catalog depth standard level entity e).result = .ok r) : KeepsTraversals e r := by
  obtain hsettled | htame | ⟨-, c, rfl, hc⟩ := he
  · exact keepsTraversals_of_staysApart (staysApart hhooks howns hentity (.inl hsettled) h)
  · exact keepsTraversals_of_staysApart (staysApart hhooks howns hentity (.inr htame) h)
  · obtain ⟨ctx, rfl, rfl, hsettles⟩ := settles_of_node h
    intro path op hkey hinner
    obtain ⟨v, rfl⟩ | hmember | ⟨htraversal, hinner'⟩ :=
      settles_of_direct (hhooks.of_entity? hentity) howns hentity hsettles hc
    · cases hkey
    · rw [keyOf_ne (by decide) hmember] at hkey
      cases hkey
    · rw [htraversal, Option.some.injEq] at hkey
      subst hkey
      rw [operator_unique hinner hinner']
      obtain ⟨path, operator, operand, mark⟩ := c
      obtain ⟨inner, rfl⟩ := hc.domain
      refine ⟨keyOf_eq_some.2 ⟨_, rfl, ?_, rfl⟩, by simp [Merge.inner?]⟩
      obtain rfl | rfl := Operator.eq_of_isTraversal hc.traversal <;> rfl

include hhooks howns hentity in
theorem noNode_of_leftover {children : List Domain}
    (hleft : Leftover catalog level entity k first children) (he : e ∈ children)
    (h : (node catalog depth standard level entity e).result = .ok r) :
    r.connective? ≠ some k := by
  have hkey : ∀ {family path}, keyOf family r = some path → r.connective? ≠ some k := by
    intro family path hkey
    obtain ⟨c, rfl, -⟩ := keyOf_eq_some.1 hkey
    nofun
  obtain hsettled | ⟨c, rfl, hc⟩ | ⟨-, c, rfl, hc⟩ := hleft.parts e he
  · rw [connective?_of_canonical (node_canonical_of_settled hsettled h)]
    exact hleft.noNode e he
  · obtain ⟨ctx, rfl, rfl, hsettles⟩ := settles_of_node h
    obtain ⟨v, rfl⟩ | hmember :=
      settles_of_tame (hhooks.of_entity? hentity) howns hentity hsettles hc
    · nofun
    · exact hkey hmember
  · obtain ⟨ctx, rfl, rfl, hsettles⟩ := settles_of_node h
    obtain ⟨v, rfl⟩ | hmember | ⟨htraversal, -⟩ :=
      settles_of_direct (hhooks.of_entity? hentity) howns hentity hsettles hc
    · nofun
    · exact hkey hmember
    · exact hkey htraversal

include hhooks howns hentity in
theorem pairwise_sorted {Q : Domain → Domain → Prop} (hsymm : ∀ {a b}, Q a b → Q b a)
    {children optimized sorted : List Domain}
    (hleft : Leftover catalog level entity k first children)
    (hoptimized : Forall₂ (fun a b => (node catalog depth standard level entity a).result = .ok b)
      children optimized)
    (hjoin : sortedJoin k optimized = .nary k sorted none)
    (hQ : ∀ {a b a' b'}, a ∈ children → b ∈ children →
      (node catalog depth standard level entity a).result = .ok a' →
      (node catalog depth standard level entity b).result = .ok b' →
      Apart k entity a b → (∀ v, a' ≠ .constant v) → (∀ v, b' ≠ .constant v) → Q a' b') :
    sorted.Pairwise Q := by
  have hnode : ∀ d ∈ optimized, d.connective? ≠ some k := by
    intro d hd
    obtain ⟨a, ha, had⟩ := Pass.exists_of_forall₂ hoptimized hd
    exact noNode_of_leftover hhooks howns hentity hleft ha had
  have hpairs : optimized.Pairwise fun a b =>
      (∀ v, a ≠ .constant v) → (∀ v, b ≠ .constant v) → Q a b :=
    pairwise_of_forall₂ hoptimized hleft.apart hQ
  obtain ⟨collected, hsublist, hconstant, hperm⟩ := exists_sublist_of_sortedJoin hnode hjoin
  rw [hperm.pairwise_iff hsymm]
  refine (hpairs.sublist hsublist).imp_of_mem fun ha hb hab => ?_
  exact hab (hconstant _ ha) (hconstant _ hb)

include hhooks howns hentity in
/-- One more round: there is nothing left to merge, or less than before. -/
theorem phase_next {rounds : Nat} {children optimized sorted : List Domain}
    (hphase : Phase catalog level entity k rounds children)
    (hoptimized : Forall₂ (fun a b => (node catalog depth standard level entity a).result = .ok b)
      children optimized)
    (hsettled : ∀ d ∈ optimized, Settled catalog level d entity)
    (hjoin : sortedJoin k optimized = .nary k sorted none) :
    match rounds with
    | 0 => mergeAll k entity sorted = sorted
    | fewer + 1 => Phase catalog level entity k fewer (mergeAll k entity sorted) := by
  obtain ⟨sorted', hjoin', -, hsorted, hpairwise⟩ : ∃ sorted,
      sortedJoin k optimized = .nary k sorted none ∧ 1 < sorted.length ∧
      (∀ d ∈ sorted, Settled catalog level d entity ∧ (∀ v, d ≠ .constant v) ∧
        d.connective? ≠ some k) ∧ sorted.Pairwise fun a b => a.childLe b = true := by
    refine (sortedJoin_of_settled (k := k) hsettled).resolve_left fun hnode => ?_
    rw [hjoin] at hnode
    exact hnode.1 rfl
  rw [hjoin] at hjoin'
  cases hjoin'
  have hplaces := hpairwise.imp PlaceLe.of_childLe
  have hsets := membersAreSets_of_settled fun d hd => (hsorted d hd).1
  have hcases := mergeAll_cases (k := k) fun d hd => (hsorted d hd).1
  have hnode : ∀ d ∈ mergeAll k entity sorted, d.connective? ≠ some k := by
    intro d hd
    obtain hchild | ⟨c, rfl, -⟩ | ⟨c, rfl, -⟩ := hcases d hd
    · exact (hsorted d hchild).2.2
    · nofun
    · nofun
  match rounds, hphase with
  | 0, hleft =>
    refine mergeAll_of_apart (pairwise_sorted hhooks howns hentity Apart.symm hleft hoptimized
      hjoin ?_)
    intro a b a' b' ha hb haa' hbb' hab
    have hparts : ∀ {d}, d ∈ children → Settled catalog level d entity ∨
        ∃ c, d = .condition c ∧ c.IsTame entity := by
      intro d hd
      exact (hleft.parts d hd).imp_right fun hrest => hrest.resolve_right (by simp)
    exact hab.of_staysApart (staysApart hhooks howns hentity (hparts ha) haa')
      (staysApart hhooks howns hentity (hparts hb) hbb')
  | 1, hleft =>
    refine ⟨pairwise_mergeAll hplaces hsets, hnode, fun d hd => ?_⟩
    have hone : sorted.Pairwise fun a b => ¬BothTraverse k entity a b := by
      refine pairwise_sorted hhooks howns hentity ?_ hleft hoptimized hjoin ?_
      · rintro a b hab ⟨path, op, hb, ha, hb', ha', hrest⟩
        exact hab ⟨path, op, ha, hb, ha', hb', hrest⟩
      · intro a b a' b' ha hb haa' hbb' hab _ _
        exact not_bothTraverse hab.oneTraversal
          (keepsTraversals hhooks howns hentity (hleft.parts a ha) haa')
          (keepsTraversals hhooks howns hentity (hleft.parts b hb) hbb')
    obtain hd' | ⟨path, hmember⟩ := mem_mergeAll_of_oneTraversal hplaces hsets hone hd
    · exact .inl (hsorted d hd').1
    · refine (hcases d hd).imp (fun hchild => (hsorted d hchild).1) fun hrest =>
        .inl (hrest.resolve_right ?_)
      rintro ⟨c, rfl, hc⟩
      obtain ⟨c', hc', hfamily, -⟩ := keyOf_eq_some.1 hmember
      cases hc'
      obtain hop | hop := Operator.eq_of_isTraversal hc.traversal <;> rw [hop] at hfamily <;>
        cases hfamily
  | 2, _ => exact ⟨pairwise_mergeAll hplaces hsets, hnode, fun d hd =>
      (hcases d hd).imp (fun hchild => (hsorted d hchild).1) fun hrest =>
        hrest.imp_right fun hdirect => ⟨rfl, hdirect⟩⟩
  | _ + 3, _ => trivial

end Descent

end Optimizer

end QueryDomain
