import QueryDomain.Proofs.Optimization.Outcomes

/-! What the optimizer preserves. A family of predicates that the connectives, complements and
merges respect, and that no single change of a condition breaks, holds of what is returned if it
holds of what is given. -/
namespace QueryDomain.Optimizer

open List Domain

theorem exists_set_of_path {k : Connective} {run : List Domain} {m : Merge.Membership}
    {path : String} (h : (run.foldl (Merge.Membership.add k) m).path = some path) :
    m.path = some path ∨ ∃ c values, .condition c ∈ run ∧ c.operand = .set values := by
  induction run generalizing m with
  | nil => exact .inl h
  | cons d run ih =>
    obtain hpath | ⟨c, values, hc, hoperand⟩ := ih h
    · unfold Merge.Membership.add at hpath
      split at hpath
      · rename_i values mark
        exact .inr ⟨_, values, mem_cons_self .., rfl⟩
      · exact .inl hpath
    · exact .inr ⟨c, values, mem_cons_of_mem d hc, hoperand⟩

/-- The connectives, complements and merges respect the predicates. -/
structure Invariant {ι : Type} (P : ι → Domain → Entity → Prop) : Prop where
  constant : ∀ i v entity, P i (.constant v) entity
  negation : ∀ {i d entity}, P i (.negation d) entity ↔ P i d entity
  nary : ∀ {i k children mark entity},
    P i (.nary k children mark) entity ↔ ∀ d ∈ children, P i d entity
  /-- Marks do not matter. -/
  remark : ∀ {i c entity} mark, P i (.condition c) entity →
    P i (.condition ⟨c.path, c.operator, c.operand, mark⟩) entity
  inverse : ∀ {i c entity op}, P i (.condition c) entity → c.operator.inverse? = some op →
    P i (.condition (c.withOperator op)) entity
  /-- Members of sets on one path may be put together. -/
  members : ∀ {i path entity op values} {run : List Condition},
    (∃ c ∈ run, ∃ values', c.operand = .set values') →
    (∀ c ∈ run, P i (.condition c) entity ∧ c.path = path ∧ c.operator.isMembership = true) →
    op.isMembership = true →
    (∀ v ∈ ValueSet.values values, ∃ c ∈ run, ∃ values', c.operand = .set values' ∧
      v ∈ ValueSet.values values') →
    ((∀ c ∈ run, ∀ values', c.operand = .set values' → values'.IsDistinct) → values.IsDistinct) →
    P i (.leaf path op (.set values)) entity
  /-- And so may the domains of traversals. -/
  inners : ∀ {i k c entity ds}, c.operator.isTraversal = true →
    (∃ inner, c.operand = .domain inner) → P i (.condition c) entity →
    (∀ d ∈ ds, P i (.condition (c.withOperand (.domain d))) entity) →
    P i (.condition (c.withOperand (.domain (Connective.apply k ds)))) entity

namespace Invariant

variable {ι : Type} {P : ι → Domain → Entity → Prop} (hP : Invariant P) {i : ι} {entity : Entity}
  {k : Connective} {d : Domain}

include hP

theorem children (h : P i d entity) : ∀ e ∈ d.children, P i e entity := by
  cases d with
  | nary k children mark => exact hP.nary.1 h
  | _ => nofun

theorem apply {ds : List Domain} (h : ∀ d ∈ ds, P i d entity) : P i (k.apply ds) entity :=
  Connective.forall_apply (Q := fun d => P i d entity) (hP.constant i · entity) hP.nary h

theorem negate (h : P i d entity) : P i d.negate entity := by
  induction d using Domain.induct with
  | constant v => exact hP.constant _ _ _
  | negation d _ => exact hP.negation.1 h
  | nary k children mark ih =>
    rw [Domain.negate, negateAll_eq_map]
    refine hP.apply fun e he => ?_
    obtain ⟨d, hd, rfl⟩ := mem_map.1 he
    exact ih d hd (hP.nary.1 h d hd)
  | condition c _ =>
    rw [Domain.negate, Condition.negate]
    split
    · rename_i op hop
      split
      · exact hP.negation.2 h
      · exact hP.inverse h hop
    · exact hP.negation.2 h

theorem withMark (h : P i d entity) (mark : Mark) : P i (d.withMark mark) entity := by
  cases d with
  | constant v => exact h
  | negation d => exact h
  | nary k children mark => exact hP.nary.2 (hP.nary.1 h)
  | condition c => exact hP.remark _ h

theorem sortedJoin {ds : List Domain} (h : ∀ d ∈ ds, P i d entity) :
    P i (Optimizer.sortedJoin k ds) entity := by
  have happly : P i (k.apply ds) entity := hP.apply h
  unfold Optimizer.sortedJoin
  dsimp only
  split
  · exact hP.apply fun d hd => hP.children happly d ((sortChildren_perm _).mem_iff.1 hd)
  · exact happly

theorem joinSets {path : String} {run : List Domain}
    (hrun : ∀ d ∈ run, P i d entity ∧ setScope.runKey? d = some path) :
    ∀ d ∈ Merge.joinSets k run, P i d entity := by
  have hconditions : ∀ c, .condition c ∈ run →
      P i (.condition c) entity ∧ c.path = path ∧ c.operator.isMembership = true := by
    intro c hc
    obtain ⟨hp, hkey⟩ := hrun _ hc
    obtain ⟨c', hc', hpath, hop⟩ := setScope_key hkey
    cases hc'
    exact ⟨hp, hpath, hop⟩
  intro d hd
  obtain hmem | hcondition := Merge.mem_joinSets hd
  · exact (hrun d hmem).1
  obtain hmem | ⟨op, values, hop, rfl, hvalues⟩ :=
    Merge.mem_joinSets_of_path (fun c hc => (hconditions c hc).2.1) hd
  · exact (hrun d hmem).1
  · have hset : ∃ c ∈ run.filterMap Domain.asCondition?, ∃ values', c.operand = .set values' := by
      obtain ⟨path', hpath', -⟩ := Option.bind_eq_some_iff.1 hcondition
      obtain hnone | ⟨c, values', hc, hoperand⟩ := exists_set_of_path hpath'
      · cases hnone
      · exact ⟨c, mem_filterMap.2 ⟨_, hc, rfl⟩, values', hoperand⟩
    refine hP.members hset ?_ hop ?_ fun hdistinct => ?_
    · intro c hc
      obtain ⟨d, hd, hcd⟩ := mem_filterMap.1 hc
      cases d with
      | condition c' =>
        cases hcd
        exact hconditions c hd
      | _ => cases hcd
    · intro v hv
      obtain ⟨c, values', hc, hoperand, hv⟩ := hvalues v hv
      exact ⟨c, mem_filterMap.2 ⟨_, hc, rfl⟩, values', hoperand, hv⟩
    · refine Merge.isDistinct_of_condition? (fun c values' hc hoperand => ?_) hcondition
      exact hdistinct c (mem_filterMap.2 ⟨_, hc, rfl⟩) values' hoperand

theorem joinAnys {path : String} {run : List Domain}
    (hrun : ∀ d ∈ run, P i d entity ∧ anyScope.runKey? d = some path) :
    ∀ d ∈ Merge.joinAnys k entity run, P i d entity := by
  have hconditions : ∀ c, .condition c ∈ run →
      P i (.condition c) entity ∧ c.path = path ∧ c.operator.isTraversal = true := by
    intro c hc
    obtain ⟨hp, hkey⟩ := hrun _ hc
    obtain ⟨c', hc', hpath, hop⟩ := anyScope_key hkey
    cases hc'
    exact ⟨hp, hpath, hop⟩
  intro d hd
  obtain hd | ⟨c, hc, hdomain, rfl⟩ := Merge.mem_joinAnys hd
  · exact (hrun d hd).1
  · obtain ⟨hp, hpath, hop⟩ := hconditions c hc
    have hinners : ∀ inner ∈ run.filterMap (Merge.inner? c.operator),
        P i (.condition (c.withOperand (.domain inner))) entity := by
      intro inner hinner
      obtain ⟨c', hc', hop', hoperand⟩ := Merge.mem_inners hinner
      obtain ⟨hp', hpath', -⟩ := hconditions c' hc'
      have hremark := hP.remark none hp'
      rw [hpath', hop', hoperand, ← hpath] at hremark
      exact hremark
    unfold Merge.joinedInner
    split <;> exact hP.inners hop hdomain hp hinners

theorem mergeAll {children : List Domain} (h : ∀ d ∈ children, P i d entity) :
    ∀ d ∈ Optimizer.mergeAll k entity children, P i d entity := by
  have hdistinct : ∀ d ∈ Merge.distinct [] children, P i d entity :=
    fun d hd => h d ((Merge.distinct_sublist [] children).mem hd)
  have hsets : ∀ d ∈ replaceRuns (isMerged setScope entity) (Merge.joinSets k)
      (runsBy setScope.runKey? (Merge.distinct [] children)), P i d entity :=
    forall_mem_runs hdistinct fun path run hrun _ =>
      hP.joinSets fun d hd => ⟨hdistinct d (hrun d hd).1, (hrun d hd).2⟩
  exact forall_mem_runs hsets fun path run hrun _ =>
    hP.joinAnys fun d hd => ⟨hsets d (hrun d hd).1, (hrun d hd).2⟩

section Run

variable {ctx : Context}
  (hnested : ∀ i target d d', ctx.catalog.entity? target.name = some target → P i d target →
    (ctx.nested target d).result = .ok d' → P i d' target)
  (hentity : ctx.catalog.entity? ctx.entity.name = some ctx.entity)
  (houtcome : ∀ i c d, Pass.Outcome ctx c d → P i (.condition c) ctx.entity → P i d ctx.entity)
  (hhooks : ctx.entity.Hookless)

include hnested hentity in
theorem rebuild {children : List Domain} (hchildren : ∀ d ∈ children, P i d ctx.entity)
    (h : (Optimizer.rebuild k ctx children).result = .ok d) : P i d ctx.entity := by
  obtain ⟨optimized, hoptimized, rfl⟩ := rebuild_eq_ok.1 h
  refine hP.sortedJoin fun e he => ?_
  obtain ⟨a, ha, hae⟩ := Pass.exists_of_forall₂ hoptimized he
  exact hnested i _ a e hentity (hchildren a ha) hae

include hnested hentity in
theorem joins {children : List Domain} (h : Joins standard ctx k children d)
    (hchildren : ∀ d ∈ children, P i d ctx.entity) : P i d ctx.entity := by
  induction h with
  | folded hd _ => exact hP.rebuild hnested hentity hchildren hd
  | stable hd _ _ _ => exact hP.withMark (hP.rebuild hnested hentity hchildren hd) _
  | inPlace hd _ hmerged _ _ hresult =>
    rw [result_applyMerges, Except.ok.injEq] at hmerged
    subst hmerged
    have hmerged := hP.mergeAll (k := k) (hP.children (hP.rebuild hnested hentity hchildren hd))
    exact hP.withMark (hP.rebuild hnested hentity hmerged hresult) _
  | again hd _ hmerged _ _ ih =>
    rw [result_applyMerges, Except.ok.injEq] at hmerged
    subst hmerged
    exact ih (hP.mergeAll (hP.children (hP.rebuild hnested hentity hchildren hd)))

include hnested hentity houtcome hhooks in
theorem steps {s : Step} (h : Steps standard ctx d s) (hd : P i d ctx.entity) :
    match s with
    | .done r | .changed r => P i r ctx.entity := by
  cases h with
  | constant v => exact hd
  | complement hinner _ | pushed hinner _ =>
    exact hP.negate (hnested i _ _ _ hentity (hP.negation.1 hd) hinner)
  | joined hjoins => exact hP.joins hnested hentity hjoins (hP.nary.1 hd)
  | kept _ => exact hP.remark _ hd
  | replaced hsplit hbefore hpass =>
    exact houtcome i _ _
      (outcome_of_replaced (fun _ => hhooks) (fun _ => hentity) hsplit hbefore hpass) hd

include hnested hentity houtcome hhooks in
theorem settles {result : Domain} (h : Settles standard ctx d result) (hd : P i d ctx.entity) :
    P i result ctx.entity := by
  induction h with
  | covered _ => exact hd
  | done _ hstep => exact hP.steps hnested hentity houtcome hhooks hstep hd
  | changed _ hstep _ ih => exact ih (hP.steps hnested hentity houtcome hhooks hstep hd)

end Run

/-- What holds of a domain holds of what it is optimized to. -/
theorem node {catalog : Catalog} {level : Level} (hhooks : catalog.Hookless)
    (houtcome : ∀ ctx : Context, ctx.catalog = catalog → ctx.level = level →
      catalog.entity? ctx.entity.name = some ctx.entity →
      (∀ i target d d', catalog.entity? target.name = some target → P i d target →
        (ctx.nested target d).result = .ok d' → P i d' target) →
      ∀ i c d, Pass.Outcome ctx c d → P i (.condition c) ctx.entity → P i d ctx.entity)
    {depth : Nat} {result : Domain} (hentity : catalog.entity? entity.name = some entity)
    (hd : P i d entity)
    (h : (Optimizer.node catalog depth standard level entity d).result = .ok result) :
    P i result entity := by
  induction depth generalizing i entity d result with
  | zero =>
    rw [node_zero] at h
    cases h
  | succ depth ih =>
    rw [node_succ] at h
    have hnested : ∀ i target d d', catalog.entity? target.name = some target → P i d target →
        (Optimizer.node catalog depth standard level target d).result = .ok d' → P i d' target :=
      fun i target d d' htarget hd h => ih htarget hd h
    refine hP.settles hnested hentity ?_ (hhooks.of_entity? hentity) (settle_eq_ok h) hd
    exact houtcome _ rfl rfl hentity hnested

end Invariant

end QueryDomain.Optimizer
