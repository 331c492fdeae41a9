import QueryDomain.Proofs.Optimization.Assembled
import QueryDomain.Proofs.Optimization.Depth
import QueryDomain.Proofs.Records.Merging

/-! Joined domains are as true on a record, once they are optimized, as the optimized parts together.
Joining lets the optimizer merge settled parts of one domain with those of another and go over the
result again; none of this changes what is true on a record. -/
namespace QueryDomain

open List Domain

namespace Catalog

variable {catalog : Catalog} {entity : Entity} {record : Record} {k : Connective}

theorem truth_of_canonical {d d' : Domain} (h : d.canonical = d'.canonical) :
    catalog.truth d entity record = catalog.truth d' entity record := by
  rw [← truth_canonical d, h, truth_canonical]

theorem truth_withMark (d : Domain) (mark : Mark) :
    catalog.truth (d.withMark mark) entity record = catalog.truth d entity record :=
  truth_of_canonical (canonical_withMark d mark)

theorem Regular.linked_eq_nil (hregular : catalog.Regular) (hentity : entity ∈ catalog.entities)
    (hrecord : record ∈ catalog.records entity.name) {field : Field} (hfield : field ∈ entity.fields)
    (htype : field.type = .many2one) {target : Entity}
    (htarget : field.comodel.bind catalog.entity? = some target) :
    catalog.linked field target record = [] ↔
      (field.valueOf (Record.get? record field.name)).isNull = true := by
  rw [linked_many2one htype]
  unfold Field.valueOf
  rw [htype]
  cases hjson : Record.get? record field.name with
  | none => exact ⟨fun _ => rfl, fun _ => rfl⟩
  | some json =>
    obtain rfl | ⟨target', id, htarget', rfl, hsome⟩ :=
      hregular.many2ones entity hentity field hfield htype record hrecord json hjson
    · exact ⟨fun _ => rfl, fun _ => rfl⟩
    · rw [htarget, Option.some.injEq] at htarget'
      subst htarget'
      obtain ⟨r, hr⟩ := Option.isSome_iff_exists.1 hsome
      -- A record has it for an identifier, so it is one of 64 bits.
      have hid : Json.isInt64 id = true := by
        have hid := find?_some hr
        rw [beq_iff_eq, Record.id?] at hid
        obtain ⟨json, -, hid⟩ := Option.bind_eq_some_iff.1 hid
        cases json with
        | integer n =>
          rw [Json.asInt64?] at hid
          split at hid
          · cases hid
            assumption
          · cases hid
        | _ => cases hid
      simp only [Option.bind_some, Json.asInt64?, hid, if_true, hr, Option.toList_some,
        Value.ofJson?, Option.getD_some]
      exact ⟨nofun, nofun⟩

theorem truth_unset (hregular : catalog.Regular) (huniform : catalog.Uniform)
    (hentity : entity ∈ catalog.entities) (hrecord : record ∈ catalog.records entity.name)
    {path : String} {field : Field} (hfield : entity.field? (Text.cut '.' path).1 = some field)
    (htype : field.type = .many2one) {target : Entity} {records : List Record}
    (hreached : catalog.reached path entity record = some (target, records)) (positive : Bool) :
    catalog.truth (.leaf field.name (if positive then .notMem else .mem) (.set .unset)) entity
        record =
      (records.any (fun _ => true) == positive) := by
  have hname : field.name = (Text.cut '.' path).1 := Entity.name_of_field? hfield
  have hrest : (Text.cut '.' field.name).2 = none := by rw [hname, Text.cut_cut_fst]
  have hhead : entity.field? (Text.cut '.' field.name).1 = some field := by
    rwa [hname, Text.cut_fst_of_none Text.cut_cut_fst]
  have hrelational : field.isRelational = true := by
    rw [Field.isRelational, htype]
    rfl
  obtain ⟨hmem, hid⟩ : field ∈ entity.fields ∧ field.name ≠ Entity.idName := by
    obtain hmem | rfl := Entity.mem_or_eq_of_field? hfield
    · refine ⟨hmem, fun hid => ?_⟩
      rw [huniform.ids entity hentity field hmem hid] at hrelational
      cases hrelational
    · cases htype
  unfold reached at hreached
  rw [hfield, Option.bind_some, if_neg hid, if_pos hrelational] at hreached
  obtain ⟨target', htarget, hreached⟩ := Option.map_eq_some_iff.1 hreached
  cases hreached
  have hnil := hregular.linked_eq_nil hentity hrecord hmem htype htarget
  have htest : ∀ op : Operator, op.isTraversal = false →
      catalog.truth (.leaf field.name op (.set .unset)) entity record =
        isMet ((⟨field.name, op, .set .unset, none⟩ : Condition).test
          (field.valueOf (Record.get? record field.name))) := by
    intro op hop
    have hvalue : (⟨field.name, op, .set .unset, none⟩ : Condition).valueOn field record =
        field.valueOf (Record.get? record field.name) := by
      unfold Condition.valueOn Condition.rest?
      rw [hrest]
    rw [← hvalue]
    exact truth_test (c := ⟨field.name, op, .set .unset, none⟩) hop hhead
  have hunset : ValueSet.unset.holds (field.valueOf (Record.get? record field.name)) =
      !(catalog.linked field target record).any fun _ => true := by
    have hholds : ∀ v : Value, ValueSet.unset.holds v = v.isNull := by
      intro v
      cases v <;> rfl
    rw [hholds]
    cases hlinked : catalog.linked field target record with
    | nil => exact hnil.1 hlinked
    | cons r rs =>
      rw [any_cons, Bool.true_or, Bool.not_true, Bool.eq_false_iff, ne_eq, ← hnil, hlinked]
      exact cons_ne_nil r rs
  cases positive with
  | true =>
    rw [if_pos rfl, htest .notMem rfl, beq_true, ← Bool.not_not (any ..), ← hunset]
    rfl
  | false =>
    rw [if_neg Bool.false_ne_true, htest .mem rfl, beq_false, ← hunset]
    rfl

theorem truth_empty {c : Condition} (hop : c.operator.isMembership = true) {values : ValueSet}
    (hoperand : c.operand = .set values) (hempty : values.isEmpty = true) {field : Field}
    (hfield : entity.field? (Text.cut '.' c.path).1 = some field) :
    catalog.truth (.condition c) entity record = !(c.operator == .mem) := by
  obtain ⟨path, operator, operand, mark⟩ := c
  cases hoperand
  have hholds : ∀ v, values.holds v = false := by
    intro v
    rw [ValueSet.holds, isEmpty_iff.1 hempty, any_nil]
  cases operator <;> cases hop
  · exact (truth_test rfl hfield).trans (hholds _)
  · exact (truth_test rfl hfield).trans (congrArg not (hholds _))

end Catalog

namespace Optimizer

variable {catalog : Catalog} {entity : Entity} {k : Connective} {depth : Nat}

/-- Marks are right, and literals are compared exactly. -/
structure IsClean (catalog : Catalog) (d : Domain) (entity : Entity) : Prop where
  marks : d.EachMark (Vouched catalog)
  literals : IsExact catalog d entity

/-- Optimizing what is put together from settled parts keeps its truth value on all records. -/
def KeepsTruth (catalog : Catalog) (depth : Nat) : Prop :=
  ∀ entity d result, catalog.entity? entity.name = some entity → Assembled catalog d entity →
    IsClean catalog d entity →
    (node catalog depth standard .search entity d).result = .ok result →
    ∀ record ∈ catalog.records entity.name,
      catalog.truth result entity record = catalog.truth d entity record

theorem IsClean.children {d : Domain} (h : IsClean catalog d entity) :
    ∀ e ∈ d.children, IsClean catalog e entity :=
  fun e he => ⟨h.marks.children e he, h.literals.children e he⟩

section Run

variable (hregular : catalog.Regular) (huniform : catalog.Uniform)
  (hentity : catalog.entity? entity.name = some entity)

include hregular huniform hentity

theorem node_clean {d result : Domain} (hd : IsClean catalog d entity)
    (h : (node catalog depth standard .search entity d).result = .ok result) :
    IsClean catalog result entity ∧ Settled catalog .search result entity := by
  obtain ⟨hmarks, hsettled⟩ := node_settled hregular.hookless.hooksCarry hentity hd.marks h
  exact ⟨⟨hmarks, node_exact hregular huniform hentity hd.literals h⟩, hsettled⟩

theorem rebuild_truth {children : List Domain} {d : Domain}
    (hchildren : ∀ d ∈ children, IsClean catalog d entity)
    (h : (rebuild k (standard.contextAt catalog depth .search entity) children).result = .ok d) :
    ∃ optimized,
      Forall₂ (fun a b => (node catalog depth standard .search entity a).result = .ok b)
        children optimized ∧
      (∀ record, catalog.truth d entity record =
        valueAll (catalog.valuation entity record) k optimized) ∧
      (d.connective? = some k → ∀ e ∈ d.children,
        IsClean catalog e entity ∧ Settled catalog .search e entity) := by
  obtain ⟨optimized, hoptimized, rfl⟩ := rebuild_eq_ok.1 h
  have hclean : ∀ e ∈ optimized, IsClean catalog e entity ∧ Settled catalog .search e entity := by
    intro e he
    obtain ⟨a, ha, hae⟩ := Pass.exists_of_forall₂ hoptimized he
    exact node_clean hregular huniform hentity (hchildren a ha) hae
  refine ⟨optimized, hoptimized, fun record => ?_, fun hk e he => ⟨⟨?_, ?_⟩, ?_⟩⟩
  · rw [Catalog.truth_eq, value_sortedJoin]
  · exact (eachMark_sortedJoin fun e he => (hclean e he).1.marks).children e he
  · exact (IsExact.sortedJoin fun e he => (hclean e he).1.literals).children e he
  · obtain ⟨hne, -⟩ | ⟨sorted, heq, -, hsorted, -⟩ :=
      sortedJoin_of_settled (k := k) fun e he => (hclean e he).2
    · exact absurd hk hne
    · rw [heq] at he
      exact (hsorted e he).1

omit huniform hentity in
theorem mergeAll_truth {d : Domain} (hk : d.connective? = some k)
    (hchildren : ∀ e ∈ d.children, IsClean catalog e entity ∧ Settled catalog .search e entity) :
    (∀ e ∈ mergeAll k entity d.children, IsClean catalog e entity ∧ Assembled catalog e entity) ∧
    ∀ record ∈ catalog.records entity.name,
      valueAll (catalog.valuation entity record) k (mergeAll k entity d.children) =
        catalog.truth d entity record := by
  refine ⟨fun e he => ⟨⟨?_, ?_⟩, ?_⟩, fun record hrecord => ?_⟩
  · exact eachMark_mergeAll (fun e he => (hchildren e he).1.marks) e he
  · exact exact_mergeAll (fun e he => (hchildren e he).1.literals) e he
  · exact assembled_mergeAll (fun e he => (hchildren e he).2) e he
  · rw [Catalog.valueAll_mergeAll hregular hrecord (fun e he => (hchildren e he).2)
      fun e he => (hchildren e he).1.literals, Catalog.truth_eq, value_of_connective hk]

variable (hkeeps : KeepsTruth catalog depth)

omit hregular huniform in
include hkeeps in
theorem KeepsTruth.valueAll {children optimized : List Domain}
    (hchildren : ∀ e ∈ children, IsClean catalog e entity ∧ Assembled catalog e entity)
    (h : Forall₂ (fun a b => (node catalog depth standard .search entity a).result = .ok b)
      children optimized) {record : Record} (hrecord : record ∈ catalog.records entity.name) :
    valueAll (catalog.valuation entity record) k optimized =
      valueAll (catalog.valuation entity record) k children := by
  refine Connective.valueAll_congr k ?_
  induction h with
  | nil => exact .nil
  | cons hd _ ih =>
    rw [forall_mem_cons] at hchildren
    obtain ⟨⟨hclean, hassembled⟩, hchildren⟩ := hchildren
    refine .cons ?_ (ih hchildren)
    rw [← Catalog.truth_eq, ← Catalog.truth_eq]
    exact hkeeps entity _ _ hentity hassembled hclean hd record hrecord

include hkeeps in
/-- The loop over the children of a node ends with something as true as the optimized children
together. -/
theorem Joins.truth {children : List Domain} {d : Domain}
    (h : Joins standard (standard.contextAt catalog depth .search entity) k children d)
    (hchildren : ∀ d ∈ children, IsClean catalog d entity) :
    ∃ optimized,
      Forall₂ (fun a b => (node catalog depth standard .search entity a).result = .ok b)
        children optimized ∧
      ∀ record ∈ catalog.records entity.name, catalog.truth d entity record =
        Domain.valueAll (catalog.valuation entity record) k optimized := by
  induction h with
  | folded hd _ =>
    obtain ⟨optimized, hoptimized, htruth, -⟩ :=
      rebuild_truth hregular huniform hentity hchildren hd
    exact ⟨optimized, hoptimized, fun record _ => htruth record⟩
  | stable hd _ _ _ =>
    obtain ⟨optimized, hoptimized, htruth, -⟩ :=
      rebuild_truth hregular huniform hentity hchildren hd
    refine ⟨optimized, hoptimized, fun record _ => ?_⟩
    rw [Catalog.truth_withMark, htruth record]
  | inPlace hd hk hmerged _ _ hresult =>
    obtain ⟨optimized, hoptimized, htruth, hsettled⟩ :=
      rebuild_truth hregular huniform hentity hchildren hd
    rw [result_applyMerges, Except.ok.injEq] at hmerged
    subst hmerged
    obtain ⟨hassembled, hmerged⟩ := mergeAll_truth hregular hk (hsettled hk)
    obtain ⟨again, hagain, hresult, -⟩ :=
      rebuild_truth hregular huniform hentity (fun e he => (hassembled e he).1) hresult
    refine ⟨optimized, hoptimized, fun record hrecord => ?_⟩
    rw [Catalog.truth_withMark, hresult record, ← htruth record, ← hmerged record hrecord]
    exact hkeeps.valueAll hentity hassembled hagain hrecord
  | again hd hk hmerged _ _ ih =>
    obtain ⟨optimized, hoptimized, htruth, hsettled⟩ :=
      rebuild_truth hregular huniform hentity hchildren hd
    rw [result_applyMerges, Except.ok.injEq] at hmerged
    subst hmerged
    obtain ⟨hassembled, hmerged⟩ := mergeAll_truth hregular hk (hsettled hk)
    obtain ⟨again, hagain, hresult⟩ := ih fun e he => (hassembled e he).1
    refine ⟨optimized, hoptimized, fun record hrecord => ?_⟩
    rw [hresult record hrecord, ← htruth record, ← hmerged record hrecord]
    exact hkeeps.valueAll hentity hassembled hagain hrecord

omit hregular huniform hentity in
theorem settle_settled {d result : Domain} (hd : Settled catalog .search d entity) {changes : Nat}
    (hchanges : changes ≤ standard.maxIterations)
    (h : (standard.settle (standard.contextAt catalog depth .search entity) changes d).result =
      .ok result) : result.canonical = d.canonical := by
  have hnode : (node catalog (depth + 1) standard .search entity d).result = .ok result :=
    settle_of_le hchanges h
  obtain ⟨result', hnode', hcanonical⟩ := node_of_settled hd (Nat.lt_succ_self d.height)
  rw [node_unique hnode hnode', hcanonical]

omit hregular huniform hentity in
theorem settle_empty {c c₀ : Condition} (hc₀ : c₀.Kept catalog .search entity)
    (hpath : c.path = c₀.path) (hop : c.operator.isMembership = true) {values : ValueSet}
    (hoperand : c.operand = .set values) (hempty : values.isEmpty = true) {s : Step}
    (h : Steps standard (standard.contextAt catalog depth .search entity) (.condition c) s) :
    s = .changed (.constant !(c.operator == .mem)) := by
  obtain ⟨rest, hrest⟩ : ∃ rest,
      standard.candidates (standard.contextAt catalog depth .search entity) c = _ ++ rest :=
    candidates_of_membership hop
  have hresolve : (Pass.resolvePath c (standard.contextAt catalog depth .search entity)).result =
      .ok none := by
    obtain ⟨field, hfield, hplain⟩ := hc₀.resolved
    rw [← hpath] at hfield
    refine Pass.resolvePath_eq_none.2 ⟨field, Context.field_eq_ok.2 hfield, ?_⟩
    rwa [Condition.rest?, hpath]
  have hdecided : (Pass.membershipOperand c
      (standard.contextAt catalog depth .search entity)).result =
      .ok (some (.constant !(c.operator == .mem))) := by
    unfold Pass.membershipOperand
    simp only [hoperand, hempty, if_true]
    rfl
  cases h with
  | kept hkept =>
    have hkept := hkept ⟨"membership_value", Pass.membershipOperand⟩ (by rw [hrest]; simp)
    rw [hdecided] at hkept
    cases hkept
  | @replaced _ before pass after d hsplit hbefore hpass =>
    rw [hrest] at hsplit
    obtain _ | ⟨first, _ | ⟨second, others⟩⟩ := before
    · cases hsplit
      rw [hresolve] at hpass
      cases hpass
    · cases hsplit
      rw [hdecided] at hpass
      cases hpass
      rfl
    · simp only [cons_append, cons.injEq] at hsplit
      obtain ⟨-, rfl, -⟩ := hsplit
      have hkept := hbefore ⟨"membership_value", Pass.membershipOperand⟩ (by simp)
      rw [hdecided] at hkept
      cases hkept

include hkeeps in
theorem relatedDomain_truth {c c₀ : Condition} (hc₀ : c₀.Kept catalog .search entity)
    (hop : c₀.operator.isTraversal = true) (hpath : c.path = c₀.path)
    (hoperator : c.operator = c₀.operator) {inner : Domain} (hoperand : c.operand = .domain inner)
    (hinner : ∀ target, catalog.target? entity c.path = some target →
      Assembled catalog inner target)
    (hclean : IsClean catalog (.condition c) entity) {d : Domain}
    (h : (Pass.relatedDomain c (standard.contextAt catalog depth .search entity)).result =
      .ok (some d)) :
    (∀ record ∈ catalog.records entity.name,
      catalog.truth d entity record = catalog.truth (.condition c) entity record) ∧
    (Settled catalog .search d entity ∨ ∃ c' inner', d = .condition c' ∧ c'.path = c₀.path ∧
      c'.operator = c₀.operator ∧ c'.operand = .domain inner' ∧
      ∀ target, catalog.target? entity c'.path = some target → Assembled catalog inner' target) := by
  have hmem : entity ∈ catalog.entities := mem_of_find?_eq_some hentity
  obtain ⟨field, target, inner', optimized, hfield, htarget, hinner', hoptimized, hd⟩ :=
    Pass.relatedDomain_eq_some h
  rw [hoperand, Operand.domain.injEq] at hinner'
  subst hinner'
  have htarget' : catalog.target? entity c.path = some target :=
    (Context.target_eq_ok hfield).1 htarget
  have htargets : catalog.entity? target.name = some target :=
    Catalog.entity?_target? hentity htarget'
  obtain ⟨field₀, hfield₀, hends⟩ := hc₀.resolved
  have hleads : catalog.Leads entity c₀.path target :=
    Catalog.leads_of_target? hfield₀ (hends.imp_right And.right) (hpath ▸ htarget')
  have hcleanInner : IsClean catalog inner target :=
    ⟨(eachMark_condition.1 hclean.marks).2 inner hoperand,
      hclean.literals.inner hoperand (hpath.symm ▸ hleads)⟩
  have htruth : ∀ record ∈ catalog.records entity.name, ∃ records,
      catalog.reached c.path entity record = some (target, records) ∧
      catalog.truth (.condition c) entity record =
        (records.any (catalog.truth optimized target) == (c.operator == .any)) := by
    intro record hrecord
    obtain ⟨records, hreached⟩ := Catalog.exists_reached htarget' record
    refine ⟨records, hreached, ?_⟩
    rw [Catalog.truth_traversal (hoperator ▸ hop) hoperand hreached]
    have hany : records.any (catalog.truth inner target) =
        records.any (catalog.truth optimized target) := by
      rw [Bool.eq_iff_iff, any_eq_true, any_eq_true]
      refine exists_congr fun r => and_congr_right fun hr => ?_
      rw [hkeeps target inner optimized htargets (hinner target htarget') hcleanInner hoptimized r
        (Catalog.mem_reached hrecord hreached r hr)]
    rw [hany]
  obtain ⟨rfl, rfl⟩ | ⟨rfl, htype, rfl⟩ | ⟨-, rfl⟩ := hd
  · refine ⟨fun record hrecord => ?_, .inl (.constant _ _)⟩
    obtain ⟨records, -, htruth⟩ := htruth record hrecord
    have hnone : records.any (catalog.truth (.constant false) target) = false :=
      any_eq_false.2 fun _ _ => Bool.false_ne_true
    rw [htruth, hnone]
    cases c.operator == .any <;> rfl
  · rw [Context.field_eq_ok] at hfield
    change entity.field? (Text.cut '.' c.path).1 = some field at hfield
    refine ⟨fun record hrecord => ?_, .inl (.condition ?_ nofun)⟩
    · obtain ⟨records, hreached, htruth⟩ := htruth record hrecord
      rw [htruth, Catalog.truth_unset hregular huniform hmem hrecord hfield htype hreached]
      rfl
    · rw [hpath] at hfield
      refine hc₀.unset_of_traversal hfield htype ?_
      cases c.operator == .any <;> rfl
  · refine ⟨fun record hrecord => ?_, .inr ⟨_, optimized, rfl, hpath, hoperator, rfl,
      fun target' htarget'' => ?_⟩⟩
    · obtain ⟨records, hreached, htruth⟩ := htruth record hrecord
      rw [htruth]
      exact Catalog.truth_traversal (c := c.withOperand (.domain optimized)) (hoperator ▸ hop) rfl
        hreached
    · change catalog.target? entity c.path = some target' at htarget''
      rw [htarget', Option.some.injEq] at htarget''
      subst htarget''
      exact .settled (node_clean hregular huniform htargets hcleanInner hoptimized).2

theorem Steps.clean {d next : Domain} (hd : IsClean catalog d entity)
    (h : Steps standard (standard.contextAt catalog depth .search entity) d (.changed next)) :
    IsClean catalog next entity := by
  constructor
  · exact h.settled hentity (hregular.hookless.of_entity? hentity).hooksCarry (fun _ _ _ htarget hmarks =>
      node_settled hregular.hookless.hooksCarry htarget hmarks) hd.marks
  · exact h.exact hregular huniform hentity (fun _ _ _ htarget hliterals =>
      node_exact hregular huniform htarget hliterals) hd.literals

include hkeeps in
/-- All turns on what is put together from settled parts keep its truth value. -/
theorem settle_truth {changes : Nat} (hchanges : changes ≤ standard.maxIterations)
    {d result : Domain} (hd : Assembled catalog d entity) (hclean : IsClean catalog d entity)
    (h : (standard.settle (standard.contextAt catalog depth .search entity) changes d).result =
      .ok result) :
    ∀ record ∈ catalog.records entity.name,
      catalog.truth result entity record = catalog.truth d entity record := by
  induction changes using Nat.strongRecOn generalizing d with
  | _ changes ih =>
    intro record hrecord
    have hsettle : ∀ {fewer next}, fewer ≤ standard.maxIterations →
        Settled catalog .search next entity →
        (standard.settle (standard.contextAt catalog depth .search entity) fewer next).result =
          .ok result → catalog.truth result entity record = catalog.truth next entity record :=
      fun hfewer hnext h => Catalog.truth_of_canonical (settle_settled hnext hfewer h)
    cases hd with
    | settled hsettled => exact hsettle hchanges hsettled h
    | @members c c₀ values _ hc₀ hpath hop hoperand hdistinct hmembers =>
      cases hempty : values.isEmpty with
      | false =>
        exact hsettle hchanges (Assembled.members_settled hop hoperand hdistinct hmembers hempty) h
      | true =>
        obtain ⟨-, rfl⟩ | ⟨-, hstep⟩ | ⟨next, fewer, -, hstep, rfl, hrest⟩ := settle_turn.1 h
        · rfl
        · cases settle_empty hc₀ hpath hop hoperand hempty (step_eq_ok hstep)
        · cases settle_empty hc₀ hpath hop hoperand hempty (step_eq_ok hstep)
          obtain ⟨field, hfield, -⟩ := hc₀.resolved
          rw [← hpath] at hfield
          rw [hsettle (by omega) (.constant _ _) hrest, Catalog.truth,
            Catalog.truth_empty hop hoperand hempty hfield]
    | @traversal c c₀ inner _ hc₀ hop hpath hoperator hoperand hinner =>
      obtain ⟨-, rfl⟩ | ⟨-, hstep⟩ | ⟨next, fewer, -, hstep, rfl, hrest⟩ := settle_turn.1 h
      · rfl
      · cases step_eq_ok hstep with
        | kept _ => exact Catalog.truth_withMark (.condition c) _
      · have hnext := (step_eq_ok hstep).clean hregular huniform hentity hclean
        cases step_eq_ok hstep with
        | @replaced _ before pass after _ hsplit _ hpass =>
          have hmem : pass ∈ standard.candidates (standard.contextAt catalog depth .search entity)
              c := by simp [hsplit]
          obtain ⟨entry, hentry, hlevel, hcovers, rfl⟩ := mem_candidates.1 hmem
          obtain hrun | hkept : _ ∨ (entry.pass.run c
              (standard.contextAt catalog depth .search entity)).result = .ok none :=
            hc₀.keeps_traversal hop hpath hoperator hoperand ⟨rfl, rfl⟩ hentry hlevel hcovers
          · rw [hrun] at hpass
            obtain ⟨htruth, hshape⟩ := relatedDomain_truth hregular huniform hentity hkeeps hc₀ hop
              hpath hoperator hoperand hinner hclean hpass
            rw [← htruth record hrecord]
            obtain hsettled | ⟨c', inner', rfl, hpath', hoperator', hoperand', hinner'⟩ := hshape
            · exact hsettle (by omega) hsettled hrest
            · exact ih fewer (by omega) (by omega)
                (.traversal hc₀ hop hpath' hoperator' hoperand' hinner') hnext hrest record hrecord
          · rw [hkept] at hpass
            cases hpass
    | @nary l children mark _ hchildren =>
      obtain ⟨-, rfl⟩ | ⟨-, hstep⟩ | ⟨next, fewer, -, hstep, rfl, hrest⟩ := settle_turn.1 h
      · rfl
      · cases step_eq_ok hstep with
        | joined hjoins =>
          obtain ⟨optimized, hoptimized, htruth⟩ :=
            hjoins.truth hregular huniform hentity hkeeps hclean.children
          rw [htruth record hrecord, hkeeps.valueAll hentity
            (fun e he => ⟨hclean.children e he, hchildren e he⟩) hoptimized hrecord,
            Catalog.truth_eq]
          rfl
      · cases step_eq_ok hstep

end Run

theorem keepsTruth (hregular : catalog.Regular) (huniform : catalog.Uniform) (depth : Nat) :
    KeepsTruth catalog depth := by
  induction depth with
  | zero =>
    intro entity d result _ _ _ h
    rw [node_zero] at h
    cases h
  | succ depth ih =>
    intro entity d result hentity hd hclean h
    rw [node_succ] at h
    exact settle_truth hregular huniform hentity ih (Nat.le_refl _) hd hclean h

section Join

variable (hregular : catalog.Regular) (huniform : catalog.Uniform)
  (hentity : catalog.entity? entity.name = some entity)

theorem node_constant {v : Bool} {result : Domain}
    (h : (node catalog depth standard .search entity (.constant v)).result = .ok result) :
    result = .constant v := by
  obtain ⟨result', hresult', hcanonical⟩ :=
    node_of_settled (.constant v entity) (Nat.lt_succ_self (Domain.constant v).height)
  rw [node_unique h hresult']
  cases result' with
  | constant w => exact hcanonical
  | _ => cases hcanonical

include hregular huniform hentity in
theorem node_nary_truth {children : List Domain} {result : Domain}
    (hchildren : ∀ d ∈ children, IsClean catalog d entity)
    (h : (node catalog depth standard .search entity (.nary k children none)).result =
      .ok result) :
    ∃ depth' optimized,
      Forall₂ (fun a b => (node catalog depth' standard .search entity a).result = .ok b)
        children optimized ∧
      ∀ record ∈ catalog.records entity.name, catalog.truth result entity record =
        valueAll (catalog.valuation entity record) k optimized := by
  cases depth with
  | zero =>
    rw [node_zero] at h
    cases h
  | succ depth =>
    rw [node_succ] at h
    obtain ⟨hcovered, -⟩ | ⟨-, hstep⟩ | ⟨next, fewer, -, hstep, -, -⟩ := settle_turn.1 h
    · cases hcovered
    · cases step_eq_ok hstep with
      | joined hjoins =>
        exact ⟨depth, hjoins.truth hregular huniform hentity
          (keepsTruth hregular huniform depth) hchildren⟩
    · cases step_eq_ok hstep

theorem forall₂_node_unique {depth' : Nat} {ds optimized optimized' : List Domain}
    (h : Forall₂ (fun a b => (node catalog depth standard .search entity a).result = .ok b)
      ds optimized)
    (h' : Forall₂ (fun a b => (node catalog depth' standard .search entity a).result = .ok b)
      ds optimized') : optimized = optimized' := by
  induction h generalizing optimized' with
  | nil =>
    cases h'
    rfl
  | cons hd _ ih =>
    cases h' with
    | cons hd' htail => rw [node_unique hd hd', ih htail]

include hregular huniform hentity in
theorem contribution_truth {d result : Domain} {new optimized : List Domain} {depth' : Nat}
    (hunmarked : d.unmarked = d) (hclean : IsClean catalog d entity)
    (hnew : k.contribution? d = some new)
    (h : (node catalog depth standard .search entity d).result = .ok result)
    (hoptimized : Forall₂
      (fun a b => (node catalog depth' standard .search entity a).result = .ok b) new optimized) :
    ∀ record ∈ catalog.records entity.name, catalog.truth result entity record =
      valueAll (catalog.valuation entity record) k optimized := by
  intro record hrecord
  have hself : new = [d] → catalog.truth result entity record =
      valueAll (catalog.valuation entity record) k optimized := by
    rintro rfl
    obtain ⟨result', rest, hresult', hrest, rfl⟩ := forall₂_cons_left_iff.1 hoptimized
    cases hrest
    rw [node_unique h hresult', Catalog.truth_eq, valueAll, valueAll, Connective.join_identity]
  unfold Connective.contribution? at hnew
  split at hnew
  · split at hnew
    · rename_i v hv
      cases hnew
      cases hoptimized
      rw [node_constant h, Catalog.truth, valueAll, hv]
    · cases hnew
  · rename_i l children mark
    split at hnew
    · rename_i hkind
      subst hkind
      cases hnew
      have hmark : mark = none := by
        cases mark with
        | none => rfl
        | some mark =>
          rw [unmarked, mapValues, nary.injEq] at hunmarked
          cases hunmarked.2.2
      subst hmark
      obtain ⟨_, optimized', hoptimized', htruth⟩ :=
        node_nary_truth hregular huniform hentity hclean.children h
      rw [forall₂_node_unique hoptimized hoptimized']
      exact htruth record hrecord
    · exact hself (Option.some.inj hnew).symm
  · exact hself (Option.some.inj hnew).symm

include hregular huniform hentity in
theorem collect_truth {ds results collected optimized : List Domain} {depth' : Nat}
    (hds : ∀ d ∈ ds, d.unmarked = d ∧ IsClean catalog d entity)
    (h : Forall₂ (fun a b => (node catalog depth standard .search entity a).result = .ok b)
      ds results) (hcollected : k.collect? ds = some collected)
    (hoptimized : Forall₂
      (fun a b => (node catalog depth' standard .search entity a).result = .ok b)
      collected optimized) :
    ∀ record ∈ catalog.records entity.name,
      valueAll (catalog.valuation entity record) k results =
        valueAll (catalog.valuation entity record) k optimized := by
  intro record hrecord
  induction h generalizing collected optimized with
  | nil =>
    cases hcollected
    cases hoptimized
    rfl
  | @cons d result ds results hd _ ih =>
    rw [forall_mem_cons] at hds
    rw [Connective.collect?] at hcollected
    split at hcollected
    · cases hcollected
    · rename_i new hnew
      obtain ⟨rest, hrest, rfl⟩ := Option.map_eq_some_iff.1 hcollected
      have hfirst := (forall₂_take_append _ _ _ hoptimized.flip).flip
      have hsecond := (forall₂_drop_append _ _ _ hoptimized.flip).flip
      rw [← take_append_drop new.length optimized, Connective.valueAll_append, valueAll,
        ih hds.2 hrest hsecond, ← Catalog.truth_eq,
        contribution_truth hregular huniform hentity hds.1.1 hds.1.2 hnew hd hfirst record hrecord]

theorem valueAll_of_collect?_eq_none {ds results : List Domain} {v : Condition → Bool}
    (h : Forall₂ (fun a b => (node catalog depth standard .search entity a).result = .ok b)
      ds results) (hcollected : k.collect? ds = none) :
    valueAll v k results = k.absorbing := by
  induction h with
  | nil => cases hcollected
  | @cons d result ds results hd _ ih =>
    rw [Connective.collect?] at hcollected
    split at hcollected
    · rename_i hnone
      unfold Connective.contribution? at hnone
      split at hnone
      · split at hnone
        · cases hnone
        · rename_i hne
          rw [valueAll, node_constant hd, value, k.eq_absorbing_of_ne hne,
            Connective.absorbing_join]
      · split at hnone <;> cases hnone
      · cases hnone
    · rw [Option.map_eq_none_iff] at hcollected
      rw [valueAll, ih hcollected, Connective.join_absorbing]

include hregular huniform hentity in
theorem node_apply_truth {ds results : List Domain} {result : Domain}
    (hds : ∀ d ∈ ds, d.unmarked = d ∧ IsClean catalog d entity)
    (h : Forall₂ (fun a b => (node catalog depth standard .search entity a).result = .ok b)
      ds results)
    (hjoined : (node catalog depth standard .search entity (k.apply ds)).result = .ok result) :
    ∀ record ∈ catalog.records entity.name, catalog.truth result entity record =
      valueAll (catalog.valuation entity record) k results := by
  intro record hrecord
  unfold Connective.apply at hjoined
  split at hjoined
  · rw [node_constant hjoined, Catalog.truth, valueAll_of_collect?_eq_none h ‹_›]
  · rename_i collected hcollected
    have hclean : ∀ d ∈ collected, IsClean catalog d entity := by
      intro d hd
      obtain ⟨hmem, -⟩ | ⟨grandchildren, mark, hmem, hd⟩ := Connective.mem_collect? hcollected hd
      · exact (hds d hmem).2
      · exact (hds _ hmem).2.children d hd
    obtain ⟨_, optimized, hoptimized, htruth⟩ : ∃ depth' optimized,
        Forall₂ (fun a b => (node catalog depth' standard .search entity a).result = .ok b)
          collected optimized ∧
        catalog.truth result entity record =
          valueAll (catalog.valuation entity record) k optimized := by
      unfold Connective.node at hjoined
      split at hjoined
      · refine ⟨depth, [], .nil, ?_⟩
        rw [node_constant hjoined]
        rfl
      · refine ⟨depth, [result], .cons hjoined .nil, ?_⟩
        rw [Catalog.truth_eq, valueAll, valueAll, Connective.join_identity]
      · obtain ⟨depth', optimized, hoptimized, htruth⟩ :=
          node_nary_truth hregular huniform hentity hclean hjoined
        exact ⟨depth', optimized, hoptimized, htruth record hrecord⟩
    rw [htruth, collect_truth hregular huniform hentity hds h hcollected hoptimized record hrecord]

end Join

end Optimizer

end QueryDomain
