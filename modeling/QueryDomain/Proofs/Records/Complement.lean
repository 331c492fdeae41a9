import Mathlib
import QueryDomain.Proofs.Optimization.NormalForm
import QueryDomain.Proofs.Records.Decided
import QueryDomain.Proofs.Records.Search

/-! A complement is true, once it is optimized, on the other records. Passes work on a condition and
on its inverse side by side until both are kept, and a condition that is kept is the opposite of its
inverse on every record that it is decided on. -/
namespace QueryDomain

open List Domain

theorem Operator.cases_of_inverse? {op inverse : Operator} (h : op.inverse? = some inverse)
    (hequality : op.isEquality = false) : op.isTraversal = true ∨ (op.isTraversal = false ∧
      (op.isMembership = true ∨ op.isPattern = true ∨ op.isOrdering = true)) := by
  revert hequality
  cases op <;> cases h <;> decide

theorem Pattern.test_inverse {op inverse : Operator} (h : op.inverse? = some inverse)
    (hop : op.isPattern = true) (pattern : String) (value : Value) :
    test inverse pattern value = !test op pattern value := by
  have hnegative : inverse.isNegative = !op.isNegative ∧ inverse.positive = op.positive := by
    cases op <;> cases hop <;> cases h <;> exact ⟨rfl, rfl⟩
  unfold test
  rw [hnegative.1, hnegative.2]
  cases value.isNull with
  | true => rfl
  | false => simp only [Bool.false_eq_true, if_false, Bool.bne_not]

namespace Condition

variable {catalog : Catalog} {entity : Entity} {record : Record} {c : Condition} {op : Operator}
  {field : Field}

theorem ordered_inverse {inverse : Operator} (h : op.inverse? = some inverse)
    (hop : op.isOrdering = true) (o : Ordering) :
    ordered inverse (some o) = !ordered op (some o) := by
  cases op <;> cases hop <;> cases h <;> cases o <;> rfl

theorem Kept.isSome_compare? (h : c.Kept catalog .search entity)
    (hfield : entity.field? c.head = some field) (hdotted : c.isDotted = false)
    (hop : c.operator.isOrdering = true) {literal value : Value}
    (hoperand : c.operand = .scalar literal) (hnull : literal ≠ .null)
    (horders : field.Orders value literal) : (value.compare? literal).isSome = true := by
  have hcompares : Pass.comparesLiterals c = true := by
    simp [Pass.comparesLiterals, hdotted, hop]
  have hheadType : entity.headType? c.path = some field.type :=
    (congrArg (Option.map Field.type) hfield :)
  unfold Field.Orders at horders
  cases htype : field.type <;> rw [htype] at horders hheadType
  case date =>
    have hpass : (Pass.dateLiterals c (.still catalog .search entity)).result = .ok none :=
      h _ PassEntry.IsStandard.dateLiterals.mem rfl (by rw [hheadType]; rfl)
    have hday := (Pass.dateLiterals_eq_none.1 hpass hcompares).2
    rw [hoperand] at hday
    obtain ⟨-, day, rfl⟩ := horders
    cases literal <;> first
      | rfl
      | exact absurd rfl hnull
      | cases hday
  case datetime =>
    have hpass : (Pass.datetimeLiterals c (.still catalog .search entity)).result = .ok none :=
      h _ PassEntry.IsStandard.datetimeLiterals.mem rfl (by rw [hheadType]; rfl)
    have hmoment := (Pass.datetimeLiterals_eq_none.1 hpass hcompares).2
    rw [hoperand] at hmoment
    obtain ⟨-, t, rfl⟩ := horders
    cases literal <;> first
      | rfl
      | exact absurd rfl hnull
      | cases hmoment
  case integer | float | monetary => exact horders.2
  all_goals exact horders

/-- A condition that is kept is the opposite of its inverse. -/
theorem Kept.valuation_inverse (h : c.Kept catalog .search entity) (hc : c.Inverts op)
    (hdecided : c.IsDecided entity record) :
    catalog.valuation entity record (c.withOperator op) = !catalog.valuation entity record c := by
  obtain ⟨field, hfield, -⟩ := h.resolved
  obtain ⟨hmember, hordering, hpattern, htraversal⟩ := Operator.kinds_of_inverse? hc.inverse
  -- Comparisons test the same value.
  have htest : c.operator.isTraversal = false → ∀ {b b'}, c.test (c.valueOn field record) = .ok b →
      (c.withOperator op).test (c.valueOn field record) = .ok b' → b' = !b →
      catalog.valuation entity record (c.withOperator op) =
        !catalog.valuation entity record c := by
    intro hop b b' hb hb' hopposite
    have hinverse : catalog.truth (.condition (c.withOperator op)) entity record =
        isMet ((c.withOperator op).test (c.valueOn field record)) :=
      Catalog.truth_test (htraversal.trans hop) hfield
    unfold Catalog.valuation
    rw [hinverse, Catalog.truth_test hop hfield, hb, hb', hopposite]
    rfl
  obtain hop | ⟨htests, hop | hop | hop⟩ := Operator.cases_of_inverse? hc.inverse h.noEquality
  · obtain ⟨q, hq⟩ | ⟨inner, hinner, -⟩ := h.traversal hop hfield
    · exact absurd hq (hdecided.noQuery q)
    · obtain ⟨target, htarget⟩ := h.related hop
      obtain ⟨records, hreached⟩ := Catalog.exists_reached htarget record
      have hinverse := Catalog.truth_traversal (c := c.withOperator op) (htraversal.trans hop)
        hinner hreached
      unfold Catalog.valuation
      rw [hinverse, Catalog.truth_traversal hop hinner hreached]
      have hoperators := hc.inverse
      change (_ == (op == .any)) = _
      cases hoperator : c.operator <;> rw [hoperator] at hop hoperators <;> cases hop <;>
        cases hoperators <;> cases records.any (catalog.truth inner target) <;> rfl
  · obtain ⟨values, hvalues, -⟩ := h.membership hop
    refine htest htests (test_membership hop hvalues _)
      (test_membership (c := c.withOperator op) (hmember.trans hop) hvalues _) ?_
    change (_ != (op == .notMem)) = _
    obtain ⟨hoperator, rfl⟩ | ⟨hoperator, rfl⟩ := Pass.membership_inverse hc hop <;>
      rw [hoperator] <;> cases values.holds (c.valueOn field record) <;> rfl
  · obtain ⟨text, htext, -⟩ := h.pattern hop
    exact htest htests (test_pattern hop htext _)
      (test_pattern (c := c.withOperator op) (hpattern.trans hop) htext _)
      (Pattern.test_inverse hc.inverse hop _ _)
  · obtain ⟨literal, hliteral, hnull, hvalue⟩ := hdecided.ordered hc.plain hop
    have hsome := h.isSome_compare? hfield hc.plain hop hliteral hnull (hvalue field hfield)
    obtain ⟨o, ho⟩ := Option.isSome_iff_exists.1 hsome
    refine htest htests (test_ordering hop hliteral _)
      (test_ordering (c := c.withOperator op) (hordering.trans hop) hliteral _) ?_
    rw [ho]
    exact ordered_inverse hc.inverse hop o

end Condition

namespace Domain.Settled

variable {catalog : Catalog} {entity : Entity} {record : Record} {d : Domain}

theorem kept_of_mem_leaves (h : Settled catalog .search d entity) :
    ∀ c ∈ d.leaves, c.Kept catalog .search entity := by
  induction h with
  | constant v entity => nofun
  | negation _ _ ih => exact ih
  | nary _ _ ih =>
    intro c hc
    obtain ⟨d, hd, hc⟩ := mem_leaves_nary.1 hc
    exact ih d hd c hc
  | condition hkept _ _ =>
    intro c hc
    obtain rfl := mem_singleton.1 hc
    exact hkept

theorem assembled_negate (h : Settled catalog .search d entity) :
    Assembled catalog d.negate entity := by
  induction h with
  | constant v entity => exact .settled (.constant _ _)
  | negation _ hinner _ => exact .settled hinner
  | nary _ _ ih =>
    rw [Domain.negate, negateAll_eq_map]
    refine .apply fun e he => ?_
    obtain ⟨d, hd, rfl⟩ := mem_map.1 he
    exact ih d hd
  | @condition c entity hkept hinner _ =>
    obtain ⟨op, hc⟩ | hnegate := c.inverts_or_stays
    · rw [hc.negate]
      refine .settled (.condition (hkept.inverse hc) fun inner target hoperand htraversal => ?_)
      exact hinner inner target hoperand
        ((Operator.kinds_of_inverse? hc.inverse).2.2.2.symm.trans htraversal)
    · rw [Domain.negate, hnegate]
      exact .settled (.negation hnegate (.condition hkept hinner))

theorem truth_negate (h : Settled catalog .search d entity) (hdecided : d.IsDecided record entity) :
    catalog.truth d.negate entity record = !catalog.truth d entity record := by
  rw [Catalog.truth_eq, Catalog.truth_eq]
  refine value_negate_of_leaves fun c hc op hop hdotted _ => ?_
  exact (h.kept_of_mem_leaves c hc).valuation_inverse ⟨hop, hdotted⟩ (hdecided c hc)

end Domain.Settled

namespace Optimizer

variable {catalog : Catalog} {entity : Entity} {record : Record} {depth : Nat} {c : Condition}
  {d result : Domain}

theorem IsClean.negate (h : IsClean catalog d entity) : IsClean catalog d.negate entity :=
  ⟨h.marks.negate, h.literals.negate⟩

theorem IsClean.of_negation (h : IsClean catalog (.negation d) entity) :
    IsClean catalog d entity := by
  obtain ⟨hmarks, hliterals⟩ := h
  cases hliterals with
  | negation hliterals => exact ⟨hmarks, hliterals⟩

theorem IsClean.of_mem_leaves (h : IsClean catalog d entity) :
    ∀ c ∈ d.leaves, IsClean catalog (.condition c) entity := by
  induction d using Domain.induct with
  | constant v => nofun
  | negation d ih => exact ih h.of_negation
  | nary k children mark ih =>
    intro c hc
    obtain ⟨d, hd, hc⟩ := mem_leaves_nary.1 hc
    exact ih d hd (h.children d hd) c hc
  | condition c _ =>
    intro c' hc'
    obtain rfl := mem_singleton.1 hc'
    exact h

section Parts

variable (hregular : catalog.Regular) (huniform : catalog.Uniform)
  (hentity : catalog.entity? entity.name = some entity)

include hregular huniform hentity in
theorem node_parts (hfresh : d.IsFresh) (hclean : IsClean catalog d entity)
    (h : (node catalog (depth + 1) standard .search entity d).result = .ok result) :
    (∃ c, d = .condition c) ∨ (∃ v, d = .constant v ∧ result = .constant v) ∨
    (∃ inner optimized, d = .negation inner ∧
      (node catalog depth standard .search entity inner).result = .ok optimized ∧
      ∀ record ∈ catalog.records entity.name,
        catalog.truth result entity record = catalog.truth optimized.negate entity record) ∨
    ∃ k children optimized, d = .nary k children none ∧
      Forall₂ (fun a b => (node catalog depth standard .search entity a).result = .ok b)
        children optimized ∧
      ∀ record ∈ catalog.records entity.name,
        catalog.truth result entity record = valueAll (catalog.valuation entity record) k optimized := by
  have hkeeps := keepsTruth hregular huniform depth
  cases hfresh with
  | condition _ => exact .inl ⟨_, rfl⟩
  | constant v => exact .inr (.inl ⟨v, rfl, node_constant h⟩)
  | @negation inner hinner =>
    refine .inr (.inr (.inl ?_))
    rw [node_succ] at h
    obtain ⟨hcovered, -⟩ | ⟨-, hstep⟩ | ⟨next, fewer, -, hstep, hchanges, hrest⟩ := settle_turn.1 h
    · cases hcovered
    · cases step_eq_ok hstep with
      | complement hoptimized _ => exact ⟨inner, _, rfl, hoptimized, fun _ _ => rfl⟩
    · cases step_eq_ok hstep with
      | pushed hoptimized _ =>
        refine ⟨inner, _, rfl, hoptimized, ?_⟩
        obtain ⟨hclean', hsettled⟩ :=
          node_clean hregular huniform hentity hclean.of_negation hoptimized
        exact settle_truth hregular huniform hentity hkeeps (by omega) hsettled.assembled_negate
          hclean'.negate hrest
  | @nary k children hchildren =>
    refine .inr (.inr (.inr ⟨k, children, ?_⟩))
    rw [node_succ] at h
    obtain ⟨hcovered, -⟩ | ⟨-, hstep⟩ | ⟨next, fewer, -, hstep, -, -⟩ := settle_turn.1 h
    · cases hcovered
    · cases step_eq_ok hstep with
      | joined hjoins =>
        obtain ⟨optimized, hoptimized, htruth⟩ :=
          hjoins.truth hregular huniform hentity hkeeps hclean.children
        exact ⟨optimized, rfl, hoptimized, htruth⟩
    · cases step_eq_ok hstep

/-- Whatever is optimized within the depth, is so in each of its conditions. -/
def ReachesLeaves (catalog : Catalog) (entity : Entity) (depth : Nat) : Prop :=
  ∀ {d result : Domain}, d.IsFresh → IsClean catalog d entity →
    (node catalog depth standard .search entity d).result = .ok result →
    ∀ c ∈ d.leaves, ∃ result,
      (node catalog depth standard .search entity (.condition c)).result = .ok result

include hregular huniform hentity

theorem ReachesLeaves.below (hreaches : ReachesLeaves catalog entity depth) (hfresh : d.IsFresh)
    (hclean : IsClean catalog d entity)
    (h : (node catalog (depth + 1) standard .search entity d).result = .ok result) :
    ∀ c ∈ d.leaves, d = .condition c ∨ ∃ result,
      (node catalog depth standard .search entity (.condition c)).result = .ok result := by
  intro c hc
  obtain ⟨c', rfl⟩ | ⟨v, rfl, -⟩ | ⟨inner, optimized, rfl, hinner, -⟩ |
      ⟨k, children, optimized, rfl, hchildren, -⟩ :=
    node_parts hregular huniform hentity hfresh hclean h
  · obtain rfl := mem_singleton.1 hc
    exact .inl rfl
  · cases hc
  · cases hfresh with
    | negation hfresh => exact .inr (hreaches hfresh hclean.of_negation hinner c hc)
  · obtain ⟨child, hchild, hc⟩ := mem_leaves_nary.1 hc
    obtain ⟨b, -, hb⟩ := Pass.exists_of_forall₂ hchildren.flip hchild
    exact .inr (hreaches (hfresh.children child hchild) (hclean.children child hchild) hb c hc)

theorem reachesLeaves (depth : Nat) : ReachesLeaves catalog entity depth := by
  induction depth with
  | zero =>
    intro d result _ _ h
    cases h
  | succ depth ih =>
    intro d result hfresh hclean h c hc
    obtain rfl | ⟨r, hr⟩ := ih.below hregular huniform hentity hfresh hclean h c hc
    · exact ⟨result, h⟩
    · exact ⟨r, node_of_le (Nat.le_succ depth) hr⟩

omit hregular huniform hentity

open Classical in
noncomputable def optimizedValuation (catalog : Catalog) (entity : Entity) (record : Record)
    (c : Condition) : Bool :=
  decide (∃ depth d, (node catalog depth standard .search entity (.condition c)).result = .ok d ∧
    catalog.truth d entity record = true)

theorem optimizedValuation_eq
    (h : (node catalog depth standard .search entity (.condition c)).result = .ok d) :
    optimizedValuation catalog entity record c = catalog.truth d entity record := by
  rw [Bool.eq_iff_iff]
  simp only [optimizedValuation, decide_eq_true_eq]
  constructor
  · rintro ⟨depth', d', hd', htrue⟩
    rwa [node_unique h hd']
  · exact fun htrue => ⟨depth, d, h, htrue⟩

theorem optimizedValuation_of_kept (h : c.Kept catalog .search entity)
    (hinner : ∀ inner, c.operand ≠ .domain inner) :
    optimizedValuation catalog entity record c = catalog.valuation entity record c := by
  have hsettled : Settled catalog .search (.condition c) entity :=
    .condition h fun inner _ hoperand => absurd hoperand (hinner inner)
  obtain ⟨result, hresult, hcanonical⟩ := node_of_settled hsettled (Nat.lt_succ_self _)
  rw [optimizedValuation_eq hresult, Catalog.truth_of_canonical hcanonical]
  rfl

variable (hrecord : record ∈ catalog.records entity.name)

include hregular huniform hentity

include hrecord in
theorem node_truth (hfresh : d.IsFresh) (hclean : IsClean catalog d entity)
    (hdecided : d.IsDecided record entity)
    (h : (node catalog depth standard .search entity d).result = .ok result) :
    catalog.truth result entity record = d.value (optimizedValuation catalog entity record) := by
  induction depth generalizing d result with
  | zero =>
    rw [node_zero] at h
    cases h
  | succ depth ih =>
    obtain ⟨c, rfl⟩ | ⟨v, rfl, rfl⟩ | ⟨inner, optimized, rfl, hinner, htruth⟩ |
        ⟨k, children, optimized, rfl, hchildren, htruth⟩ :=
      node_parts hregular huniform hentity hfresh hclean h
    · exact (optimizedValuation_eq h).symm
    · rfl
    · cases hfresh with
      | negation hfresh =>
        obtain ⟨-, hsettled⟩ := node_clean hregular huniform hentity hclean.of_negation hinner
        have hoptimized : optimized.IsDecided record entity :=
          node_isDecided (d := inner) hregular.hookless hentity hdecided hinner
        rw [htruth record hrecord, hsettled.truth_negate hoptimized,
          ih hfresh hclean.of_negation hdecided hinner, value]
    · rw [htruth record hrecord, value]
      have hparts : ∀ a ∈ children, ∀ b,
          (node catalog depth standard .search entity a).result = .ok b →
          b.value (catalog.valuation entity record) =
            a.value (optimizedValuation catalog entity record) := by
        intro a ha b hb
        rw [← Catalog.truth_eq]
        exact ih (hfresh.children a ha) (hclean.children a ha)
          (fun c hc => hdecided c (mem_leaves_nary.2 ⟨a, ha, hc⟩)) hb
      clear htruth h hfresh hclean hdecided
      induction hchildren with
      | nil => rfl
      | @cons a b as bs hab _ ihtail =>
        rw [valueAll, valueAll, hparts a (mem_cons_self ..) b hab,
          ihtail fun a ha => hparts a (mem_cons_of_mem _ ha)]

theorem value_negate_of_node (hfresh : d.IsFresh) (hclean : IsClean catalog d entity)
    (h : (node catalog depth standard .search entity d.negate).result = .ok result)
    (hleaves : ∀ c ∈ d.leaves, ∀ op, c.Inverts op → ∀ e,
      (node catalog depth standard .search entity (.condition (c.withOperator op))).result = .ok e →
      catalog.truth e entity record = !optimizedValuation catalog entity record c) :
    d.negate.value (optimizedValuation catalog entity record) =
      !d.value (optimizedValuation catalog entity record) := by
  refine value_negate_of_leaves fun c hc op hop hdotted hmem => ?_
  obtain ⟨e, he⟩ := reachesLeaves hregular huniform hentity depth hfresh.negate hclean.negate h _
    hmem
  rw [optimizedValuation_eq he, hleaves c hc op ⟨hop, hdotted⟩ e he]

end Parts

section Days

variable (hplain : entity.IsPlain) {ctx : Context} (hctx : ctx.entity = entity) {op : Operator}
  (hdays : Pass.NamesDays ctx c) (hc : c.Inverts op) (hop : c.operator.isMembership = true)
  (hdecided : c.IsDecided entity record) {values : ValueSet}
  (hvalues : ∀ v ∈ values.values, Pass.isDayOrMoment v = true)

include hplain hctx hdays hc hdecided

theorem kept_of_dated {c' : Condition} (h : Pass.Dated c c') :
    c'.Kept catalog .search entity ∧ c'.IsDecided entity record ∧
      optimizedValuation catalog entity record c' = catalog.valuation entity record c' := by
  subst hctx
  have hkept : c'.Kept catalog .search ctx.entity :=
    h.kept (by decide) (fun _ => hplain) hdays.1 hc.plain
  refine ⟨hkept, h.isDecided hdays hdecided, optimizedValuation_of_kept hkept fun inner => ?_⟩
  cases h <;> nofun

include hop in
theorem valuation_unset :
    optimizedValuation catalog entity record ⟨c.path, .mem, .set .unset, none⟩ = false := by
  have hdated : Pass.Dated c ⟨c.path, .mem, .set .unset, none⟩ :=
    .moments rfl Pass.isMoment_unset rfl rfl
  rw [(kept_of_dated hplain hctx hdays hc hdecided hdated).2.2]
  subst hctx
  obtain ⟨htype, -, values, hvalues, v, hv, hday⟩ := hdays
  obtain ⟨field, hfield, htype⟩ := Option.map_eq_some_iff.1 htype
  obtain ⟨t, ht⟩ := hdecided.dated field hfield htype (Pass.not_isPattern_of_isMembership hop)
    ⟨v, by rw [hvalues]; exact hv, hday⟩
  have htruth : catalog.truth (.leaf c.path .mem (.set .unset)) ctx.entity record =
      isMet ((⟨c.path, .mem, .set .unset, none⟩ : Condition).test (c.valueOn field record)) :=
    Catalog.truth_test rfl hfield
  rw [ht] at htruth
  exact htruth

include hop hvalues in
/-- The inverse of a membership among days is its complement: on a record with a value, asking for
an unset one as well makes no difference. -/
theorem value_dayMembership : (Pass.dayMembership (c.withOperator op) values).value
      (optimizedValuation catalog entity record) =
    !(Pass.dayMembership c values).value (optimizedValuation catalog entity record) := by
  obtain ⟨inside, hover, heq⟩ := Pass.exists_inside hc.plain hvalues
  have hnegate : inside.negate.value (optimizedValuation catalog entity record) =
      !inside.value (optimizedValuation catalog entity record) := by
    refine value_negate_of_leaves fun c' hc' op' hop' hdotted _ => ?_
    have hdated := hover.of_mem_leaves c' hc'
    obtain ⟨op'', hop'', -, hinverse⟩ := hdated.inverse hc.plain
    obtain rfl := Option.some.inj (hop'.symm.trans hop'')
    obtain ⟨hkept, hdecided', hvaluation⟩ :=
      kept_of_dated (c := c) hplain hctx hdays hc hdecided hdated
    rw [hvaluation, (kept_of_dated hplain hctx hdays hc hdecided hinverse).2.2]
    exact hkept.valuation_inverse ⟨hop', hdotted⟩ hdecided'
  have houtside : ∀ op', op' ≠ .mem → (Pass.dayMembership (c.withOperator op') values).value
      (optimizedValuation catalog entity record) =
        !inside.value (optimizedValuation catalog entity record) := by
    intro op' hop'
    rw [heq, if_neg hop']
    split
    · exact hnegate
    · rw [Domain.or, Connective.value_apply, valueAll, valueAll, valueAll, hnegate, Domain.leaf,
        value, valuation_unset hplain hctx hdays hc hop hdecided]
      exact Bool.or_false _
  have hself : Pass.dayMembership c values =
      Pass.dayMembership (c.withOperator c.operator) values := rfl
  have hinside : Pass.dayMembership (c.withOperator .mem) values = inside :=
    (heq .mem).trans (if_pos rfl)
  rw [hself]
  obtain ⟨hoperator, rfl⟩ | ⟨hoperator, rfl⟩ := Pass.membership_inverse hc hop
  · rw [hoperator, hinside, houtside .notMem (by decide)]
  · rw [hoperator, hinside, houtside .notMem (by decide), Bool.not_not]

end Days

section Lockstep

variable (hregular : catalog.Regular) (huniform : catalog.Uniform)
  (hentity : catalog.entity? entity.name = some entity) (hplain : entity.IsPlain)
  (hrecord : record ∈ catalog.records entity.name)

/-- A condition and its inverse are optimized to opposites, where the condition takes no more than
`depth` calls inside each other. -/
def InvertsWithin (catalog : Catalog) (entity : Entity) (record : Record) (depth : Nat) : Prop :=
  ∀ {c : Condition} {op : Operator} {d e : Domain} {depth' : Nat}, c.Inverts op → c.mark = none →
    IsClean catalog (.condition c) entity → c.IsDecided entity record →
    (node catalog depth standard .search entity (.condition c)).result = .ok d →
    (node catalog depth' standard .search entity (.condition (c.withOperator op))).result = .ok e →
    catalog.truth e entity record = !catalog.truth d entity record

theorem agree_contextAt (depth' : Nat) :
    Pass.Agree (standard.contextAt catalog depth .search entity)
      (standard.contextAt catalog depth' .search entity) where
  catalog := rfl
  entity := rfl
  level := rfl
  nested _ _ _ _ h h' := node_unique h h'

theorem settle_condition {ctx : Context} {changes : Nat} (hmark : c.mark = none)
    (h : (standard.settle ctx changes (.condition c)).result = .ok result) :
    ∃ s, Steps standard ctx (.condition c) s ∧ (s = .done result ∨ ∃ next fewer,
      s = .changed next ∧ changes = fewer + 1 ∧
        (standard.settle ctx fewer next).result = .ok result) := by
  obtain ⟨hcovered, -⟩ | ⟨-, hstep⟩ | ⟨next, fewer, -, hstep, hchanges, hrest⟩ := settle_turn.1 h
  · simp [covered, mark?, hmark] at hcovered
  · exact ⟨_, step_eq_ok hstep, .inl rfl⟩
  · exact ⟨_, step_eq_ok hstep, .inr ⟨next, fewer, rfl, hchanges, hrest⟩⟩

include hregular huniform hentity

theorem Steps.prepared (hclean : IsClean catalog (.condition c) entity)
    (hdecided : c.IsDecided entity record)
    (h : Steps standard (standard.contextAt catalog depth .search entity) (.condition c)
      (.changed d)) : d.IsFresh ∧ IsClean catalog d entity ∧ d.IsDecided record entity := by
  have hclean' := h.clean hregular huniform hentity hclean
  cases h with
  | replaced hsplit hbefore hpass =>
    have houtcome := outcome_of_replaced (fun _ => hregular.hookless.of_entity? hentity)
      (fun _ => hentity) hsplit hbefore hpass
    exact ⟨houtcome.isFresh, hclean', houtcome.isDecided hdecided⟩

include hplain hrecord

theorem settle_inverse (hbelow : InvertsWithin catalog entity record depth) {changes : Nat}
    (hchanges : changes ≤ standard.maxIterations) {op : Operator} {d e : Domain}
    {depth' changes' : Nat} (hchanges' : changes' ≤ standard.maxIterations) (hc : c.Inverts op)
    (hmark : c.mark = none) (hclean : IsClean catalog (.condition c) entity)
    (hdecided : c.IsDecided entity record)
    (h : (standard.settle (standard.contextAt catalog depth .search entity) changes
      (.condition c)).result = .ok d)
    (h' : (standard.settle (standard.contextAt catalog depth' .search entity) changes'
      (.condition (c.withOperator op))).result = .ok e) :
    catalog.truth e entity record = !catalog.truth d entity record := by
  induction changes using Nat.strongRecOn generalizing c op d e changes' with
  | _ changes ih =>
    obtain ⟨s, hstep, hturn⟩ := settle_condition hmark h
    obtain ⟨s', hstep', hturn'⟩ := settle_condition rfl h'
    obtain ⟨rfl, rfl⟩ | ⟨d₁, e₁, rfl, rfl, hmirrored⟩ := hstep.mirrored (agree_contextAt depth')
      hplain hc (hdecided.ordersUnset_eq_false hc.plain) (hdecided.isScalar hc.plain) hstep'
    · have hnode : (node catalog (depth + 1) standard .search entity (.condition c)).result =
          .ok d := settle_of_le hchanges h
      obtain ⟨-, hsettled⟩ := node_clean hregular huniform hentity hclean hnode
      obtain hd | ⟨_, _, hd, -⟩ := hturn <;> cases hd
      obtain he | ⟨_, _, he, -⟩ := hturn' <;> cases he
      have hkept : c.Kept catalog .search entity :=
        (hsettled.kept_of_mem_leaves _ (mem_singleton.2 rfl)).of_canonical
          (Condition.canonical_eq_iff.2 ⟨rfl, rfl, rfl⟩)
      have hmarks : ∀ (c' : Condition) mark, catalog.truth (.condition (c'.withMark mark)) entity
          record = catalog.valuation entity record c' :=
        fun c' mark => Catalog.truth_withMark (.condition c') mark
      rw [hmarks, hmarks]
      exact hkept.valuation_inverse hc hdecided
    · obtain hd | ⟨_, fewer, hd, hfewer, hrest⟩ := hturn <;> cases hd
      obtain he | ⟨_, fewer', he, hfewer', hrest'⟩ := hturn' <;> cases he
      have hnode : (node catalog (depth + 1) standard .search entity d₁).result = .ok d :=
        settle_of_le (by omega) hrest
      have hnode' : (node catalog (depth' + 1) standard .search entity e₁).result = .ok e :=
        settle_of_le (by omega) hrest'
      obtain ⟨hfresh, hclean₁, hdecided₁⟩ := hstep.prepared hregular huniform hentity hclean hdecided
      have hvalue := node_truth hregular huniform hentity hrecord hfresh hclean₁ hdecided₁ hnode
      cases hmirrored with
      | replaced hnegate =>
        subst hnegate
        have hvalue' := node_truth hregular huniform hentity hrecord hfresh.negate hclean₁.negate
          (invariant_isDecided.negate hdecided₁) hnode'
        by_cases hcondition : ∃ c₁, d₁ = .condition c₁
        · obtain ⟨c₁, rfl⟩ := hcondition
          have hc₁ : c₁ ∈ (condition c₁).leaves := mem_singleton.2 rfl
          obtain ⟨op₁, hinverts⟩ | hstays := c₁.inverts_or_stays
          · rw [hinverts.negate] at hrest'
            exact ih fewer (by omega) (by omega) (by omega) hinverts (hfresh.of_mem_leaves c₁ hc₁)
              hclean₁ (hdecided₁ c₁ hc₁) hrest hrest'
          · rw [hvalue', hvalue, Domain.negate, hstays]
            rfl
        · rw [hvalue', hvalue]
          refine value_negate_of_node hregular huniform hentity hfresh hclean₁ hnode'
            fun c₁ hc₁ op₁ hinverts e' he' => ?_
          have hreaches : ReachesLeaves catalog entity depth :=
            reachesLeaves hregular huniform hentity depth
          obtain rfl | ⟨r, hr⟩ := hreaches.below hregular huniform hentity hfresh hclean₁ hnode c₁ hc₁
          · exact absurd ⟨c₁, rfl⟩ hcondition
          · rw [optimizedValuation_eq hr]
            exact hbelow hinverts (hfresh.of_mem_leaves c₁ hc₁) (hclean₁.of_mem_leaves c₁ hc₁)
              (hdecided₁ c₁ hc₁) hr he'
      | dated hdays hmember hvalues _ =>
        have hinverse : IsClean catalog (.condition (c.withOperator op)) entity :=
          hc.negate ▸ hclean.negate
        obtain ⟨hfresh', hclean', hdecided'⟩ :=
          hstep'.prepared hregular huniform hentity hinverse (hdecided.inverse hc.inverse)
        rw [node_truth hregular huniform hentity hrecord hfresh' hclean' hdecided' hnode', hvalue]
        exact value_dayMembership hplain rfl hdays hc hmember hdecided hvalues

/-- Whatever it takes to optimize them, a condition and its inverse come to opposites. -/
theorem invertsWithin (depth : Nat) : InvertsWithin catalog entity record depth := by
  induction depth with
  | zero =>
    intro c op d e depth' _ _ _ _ h
    cases h
  | succ depth ih =>
    intro c op d e depth' hc hmark hclean hdecided h h'
    cases depth' with
    | zero => cases h'
    | succ depth' =>
      exact settle_inverse hregular huniform hentity hplain hrecord ih (Nat.le_refl _)
        (Nat.le_refl _) hc hmark hclean hdecided h h'

theorem node_negate_truth {depth' : Nat} {negated : Domain} (hfresh : d.IsFresh)
    (hclean : IsClean catalog d entity) (hdecided : d.IsDecided record entity)
    (h : (node catalog depth standard .search entity d).result = .ok result)
    (h' : (node catalog depth' standard .search entity d.negate).result = .ok negated) :
    catalog.truth negated entity record = !catalog.truth result entity record := by
  rw [node_truth hregular huniform hentity hrecord hfresh hclean hdecided h,
    node_truth hregular huniform hentity hrecord hfresh.negate hclean.negate
      (invariant_isDecided.negate hdecided) h']
  refine value_negate_of_node hregular huniform hentity hfresh hclean h'
    fun c hc op hinverts e he => ?_
  obtain ⟨r, hr⟩ := reachesLeaves hregular huniform hentity depth hfresh hclean h c hc
  rw [optimizedValuation_eq hr]
  exact invertsWithin hregular huniform hentity hplain hrecord depth hinverts
    (hfresh.of_mem_leaves c hc) (hclean.of_mem_leaves c hc) (hdecided c hc) hr he

end Lockstep

end Optimizer

namespace Catalog

variable {catalog : Catalog} {entity : Entity}

/-- A record that the domain is decided on is found by the search for it or by the search for its
complement, and not by both. -/
theorem searchWithin_negate (hregular : catalog.Regular) (huniform : catalog.Uniform)
    (hentity : catalog.entity? entity.name = some entity) (hplain : entity.IsPlain) {depth : Nat}
    {a : Domain} (hunmarked : a.unmarked = a) (hexact : IsExact catalog a entity)
    {found others : List Int} (ha : (catalog.searchWithin depth entity a).result = .ok found)
    (hnegate : (catalog.searchWithin depth entity a.negate).result = .ok others)
    {record : Record} (hrecord : record ∈ catalog.records entity.name)
    (hdecided : a.IsDecided record entity) {id : Int} (hid : Record.id? record = some id) :
    id ∈ found ↔ id ∉ others := by
  obtain ⟨d, hd, hfound⟩ := searchWithin_eq_ok.1 ha
  obtain ⟨e, he, hothers⟩ := searchWithin_eq_ok.1 hnegate
  have hids := hregular.ids entity (mem_of_find?_eq_some hentity)
  have hclean : Optimizer.IsClean catalog a entity :=
    ⟨hunmarked ▸ eachMark_mapValues _ a, hexact⟩
  have htruth := Optimizer.node_negate_truth hregular huniform hentity hplain hrecord
    (hunmarked ▸ IsFresh.of_unmarked a) hclean hdecided hd he
  rw [matching_eq_ok hfound, matching_eq_ok hothers, mem_filterMap_id? hids hrecord hid,
    mem_filterMap_id? hids hrecord hid, htruth]
  simp

/-- Of two lines, the one that has a size. -/
theorem searchWithin_negate_sized :
    let entity : Entity := { name := "line", fields := [{ name := "size", type := .integer }] }
    let catalog : Catalog :=
      { entities := [entity]
        tables := [("line", [[("id", .integer 1)], [("id", .integer 2), ("size", .integer 1)]])] }
    let a : Domain :=
      .and [.leaf "size" .less (.scalar (.int 5)), .leaf "size" .notMem (.set ⟨[.int 3]⟩)]
    ∃ found others, (catalog.search entity a).result = .ok found ∧
      (catalog.search entity a.negate).result = .ok others ∧ (2 ∈ found ↔ 2 ∉ others) := by
  intro entity catalog a
  have hregular : catalog.Regular := regular_of_isRegular (by cbv)
  have huniform : catalog.Uniform := by
    constructor
    · intro e he field hfield hname
      obtain rfl := mem_singleton.1 he
      obtain rfl := mem_singleton.1 hfield
      exact absurd hname (by decide)
    · intro e he field hfield link owner original hvia
      obtain rfl := mem_singleton.1 he
      obtain rfl := mem_singleton.1 hfield
      cases hvia
  have hplain : entity.IsPlain := by
    intro field hfield
    obtain rfl := mem_singleton.1 hfield
    exact ⟨rfl, rfl, rfl⟩
  have hexact : IsExact catalog a entity := by
    refine .apply fun d hd => ?_
    simp only [mem_cons, not_mem_nil, or_false] at hd
    obtain rfl | rfl := hd
    · exact .leaf_scalar rfl
    · exact .leaf_set (by decide)
  have hdecided : a.IsDecided [("id", .integer 2), ("size", .integer 1)] entity := by
    intro c hc
    obtain ⟨d, hd, hc⟩ := mem_leaves_of_apply hc
    simp only [mem_cons, not_mem_nil, or_false] at hd
    have hsize : entity.field? "size" = some { name := "size", type := .integer } := by cbv
    obtain rfl | rfl := hd <;> obtain rfl := mem_singleton.1 hc
    · refine ⟨by simp, fun _ _ => ⟨.int 5, rfl, by simp, fun field hfield => ?_⟩,
        fun field hfield htype => ?_⟩
      · obtain rfl := Option.some.inj (hsize.symm.trans hfield)
        exact ⟨rfl, by cbv⟩
      · obtain rfl := Option.some.inj (hsize.symm.trans hfield)
        cases htype
    · exact .of_field hsize (by decide) (by simp) rfl
  have hle : 3 ≤ Optimizer.defaultDepth := by decide
  have ha : (catalog.search entity a).result = .ok [2] := searchWithin_of_le hle (by cbv)
  have hb : (catalog.search entity a.negate).result = .ok [] := searchWithin_of_le hle (by cbv)
  exact ⟨_, _, ha, hb, searchWithin_negate hregular huniform rfl hplain rfl hexact ha hb
    (mem_cons_of_mem _ (mem_cons_self ..)) hdecided rfl⟩

/-- A line without a size is found neither by an ordering of sizes nor by its complement. -/
theorem search_negate_unset :
    let entity : Entity := { name := "line", fields := [{ name := "size", type := .integer }] }
    let catalog : Catalog := { entities := [entity], tables := [("line", [[("id", .integer 1)]])] }
    let a : Domain := .leaf "size" .less (.scalar (.int 5))
    catalog.isRegular = true ∧ entity.IsPlain ∧ a.unmarked = a ∧
      (catalog.records entity.name).filterMap Record.id? = [1] ∧
      (catalog.search entity a).result = .ok [] ∧
      (catalog.search entity a.negate).result = .ok [] := by
  intro entity catalog a
  have hplain : entity.IsPlain := by
    intro field hfield
    obtain rfl := mem_singleton.1 hfield
    exact ⟨rfl, rfl, rfl⟩
  have hle : 3 ≤ Optimizer.defaultDepth := by decide
  exact ⟨by cbv, hplain, rfl, rfl, searchWithin_of_le hle (by cbv),
    searchWithin_of_le hle (by cbv)⟩

end Catalog

end QueryDomain
