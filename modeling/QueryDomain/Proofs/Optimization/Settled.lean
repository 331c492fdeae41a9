import QueryDomain.Proofs.Domain.Built
import QueryDomain.Proofs.Optimization.Keeping

/-! Domains that the standard optimizer leaves as they are: no pass changes a condition, negations
stand only where no inverse operator can, and the children of a node are joined, sorted and
merged. -/
namespace QueryDomain

open List

theorem Operand.eq_domain_of_canonical {x : Operand} {d : Domain}
    (h : x.canonical = .domain d) : ∃ inner, x = .domain inner ∧ inner.canonical = d := by
  cases x with
  | domain inner =>
    rw [canonical_domain, domain.injEq] at h
    exact ⟨inner, rfl, h⟩
  | _ => cases h

theorem Context.target_eq_ok {ctx : Context} {c : Condition} {field : Field} {target : Entity}
    (hfield : ctx.field c = .ok field) :
    ctx.target c field = .ok target ↔ ctx.catalog.target? ctx.entity c.path = some target := by
  rw [Context.field_eq_ok] at hfield
  unfold Context.target Catalog.target?
  change ctx.entity.field? (Text.cut '.' c.path).1 = some field at hfield
  rw [hfield, Option.bind_some]
  split
  · simp
  · split
    · exact Catalog.comodel_eq_ok
    · simp

namespace Pass

variable {ctx : Context} {c : Condition}

/-- Two standard passes look beyond the catalog and the entity: one optimizes the nested domain of a
traversal, the other searches records. -/
theorem standard_cases : ∀ entry ∈ Registry.standard.passes,
    (entry.pass.run = relatedDomain ∧ entry.scope = .operators [.any, .notAny]) ∨
    entry.pass.run = hierarchy ∨
    ∀ c ctx, entry.pass.run c ctx =
      entry.pass.run c (.still ctx.catalog ctx.level ctx.entity) := by
  intro entry hentry
  cases Registry.isStandard_of_mem hentry
  all_goals first
    | exact .inl ⟨rfl, rfl⟩
    | exact .inr (.inl rfl)
    | exact .inr (.inr fun _ _ => rfl)

theorem keeps_still {entry : PassEntry} (hentry : entry ∈ Registry.standard.passes)
    (h : (entry.pass.run c ctx).result = .ok none) :
    (entry.pass.run c (.still ctx.catalog ctx.level ctx.entity)).result = .ok none := by
  obtain ⟨hrun, -⟩ | hrun | hrun := standard_cases entry hentry
  · rw [hrun] at h ⊢
    obtain ⟨field, target, hfield, htarget, hoperand⟩ := relatedDomain_eq_none.1 h
    refine relatedDomain_eq_none.2 ⟨field, target, hfield, htarget, hoperand.imp_right ?_⟩
    rintro ⟨inner, optimized, hinner, -, hfalse, htrue, hsame⟩
    have heq := Domain.same_iff.1 hsame
    rw [← Domain.isFalse_canonical, heq, Domain.isFalse_canonical] at hfalse
    rw [← Domain.isTrue_canonical, heq, Domain.isTrue_canonical] at htrue
    exact ⟨inner, inner, hinner, rfl, hfalse, htrue, Domain.same_iff.2 rfl⟩
  · rw [hrun] at h
    exact absurd h hierarchy_ne_none
  · rw [← hrun]
    exact h

theorem keeps_of_still {entry : PassEntry} (hentry : entry ∈ Registry.standard.passes)
    (hcovers : entry.scope.covers c.operator (ctx.entity.headType? c.path) = true)
    (hnested : ∀ inner target, c.operand = .domain inner → c.operator.isTraversal = true →
      ctx.catalog.target? ctx.entity c.path = some target →
      ∃ d, (ctx.nested target inner).result = .ok d ∧ d.canonical = inner.canonical)
    (h : (entry.pass.run c (.still ctx.catalog ctx.level ctx.entity)).result = .ok none) :
    (entry.pass.run c ctx).result = .ok none := by
  obtain ⟨hrun, hscope⟩ | hrun | hrun := standard_cases entry hentry
  · rw [hrun] at h ⊢
    have htraversal : c.operator.isTraversal = true :=
      Operator.mem_traversals.1 (PassScope.covers_operators.1 (hscope ▸ hcovers))
    obtain ⟨field, target, hfield, htarget, hoperand⟩ := relatedDomain_eq_none.1 h
    refine relatedDomain_eq_none.2 ⟨field, target, hfield, htarget, hoperand.imp_right ?_⟩
    rintro ⟨inner, optimized, hinner, hoptimized, hfalse, htrue, -⟩
    cases hoptimized
    have htarget' : ctx.catalog.target? ctx.entity c.path = some target :=
      (Context.target_eq_ok hfield).1 htarget
    obtain ⟨d, hd, heq⟩ := hnested inner target hinner htraversal htarget'
    rw [← Domain.isFalse_canonical, ← heq, Domain.isFalse_canonical] at hfalse
    rw [← Domain.isTrue_canonical, ← heq, Domain.isTrue_canonical] at htrue
    exact ⟨inner, d, hinner, hd, hfalse, htrue, Domain.same_iff.2 heq⟩
  · rw [hrun] at h
    exact absurd h hierarchy_ne_none
  · rw [hrun]
    exact h

end Pass

namespace Condition

variable {catalog : Catalog} {level : Level} {entity : Entity} {c : Condition}

/-- No standard pass up to the level changes the condition, its nested domain aside. -/
def Kept (catalog : Catalog) (level : Level) (entity : Entity) (c : Condition) : Prop :=
  ∀ entry ∈ Registry.standard.passes, entry.level.le level = true →
    entry.scope.covers c.operator (entity.headType? c.path) = true →
    (entry.pass.run c (.still catalog level entity)).result = .ok none

theorem run_level (lower : Level) : ∀ entry ∈ Registry.standard.passes,
    entry.pass.run c (.still catalog level entity) =
      entry.pass.run c (.still catalog lower entity) := by
  intro entry hentry
  cases Registry.isStandard_of_mem hentry <;> rfl

theorem Kept.antitone (h : c.Kept catalog level entity) {lower : Level}
    (hle : lower.le level = true) : c.Kept catalog lower entity := by
  intro entry hentry hlevel hcovers
  rw [run_level level entry hentry]
  refine h entry hentry ?_ hcovers
  cases hentry : entry.level <;> cases lower <;> cases level <;> simp_all [Level.le, Level.rank]

theorem Kept.of_canonical (h : c.Kept catalog level entity) {c' : Condition}
    (hc : c.canonical = c'.canonical) : c'.Kept catalog level entity := by
  obtain ⟨hpath, hop, -⟩ := canonical_eq_iff.1 hc
  intro entry hentry hlevel hcovers
  rw [← Pass.keeps_canonical entry hentry, ← hc, Pass.keeps_canonical entry hentry]
  refine h entry hentry hlevel ?_
  rw [hop, hpath]
  exact hcovers

theorem Kept.membership (h : c.Kept catalog level entity)
    (hmember : c.operator.isMembership = true) :
    ∃ values, c.operand = .set values ∧ values.isEmpty = false := by
  have hpass := h _ PassEntry.IsStandard.membershipOperand.mem (Level.basic_le level)
    (PassScope.covers_operators.2 (Registry.mem_membershipOperators.2 hmember))
  change (Pass.membershipOperand c (.still catalog level entity)).result = _ at hpass
  exact Pass.membershipOperand_eq_none.1 hpass

/-- A condition that is kept is on a field, and its path goes no further unless that is JSON. -/
theorem Kept.resolved (h : c.Kept catalog level entity) :
    ∃ field, entity.field? (Text.cut '.' c.path).1 = some field ∧
      (c.rest? = none ∨ (field.isRelational = false ∧ field.type = .json)) := by
  have hpass := h _ PassEntry.IsStandard.resolvePath.mem (Level.basic_le level) rfl
  change (Pass.resolvePath c (.still catalog level entity)).result = _ at hpass
  obtain ⟨field, hfield, hrest⟩ := Pass.resolvePath_eq_none.1 hpass
  exact ⟨field, Context.field_eq_ok.1 hfield, hrest⟩

theorem Kept.leads (h : c.Kept catalog level entity) {target : Entity}
    (htarget : catalog.target? entity c.path = some target) :
    catalog.Leads entity c.path target := by
  obtain ⟨field, hfield, hends⟩ := h.resolved
  exact Catalog.leads_of_target? hfield (hends.imp_right And.right) htarget

theorem Kept.related (h : c.Kept catalog level entity) (hop : c.operator.isTraversal = true) :
    ∃ target, catalog.target? entity c.path = some target := by
  have hpass := h _ PassEntry.IsStandard.relatedDomain.mem (Level.basic_le level)
    (PassScope.covers_operators.2 (Operator.mem_traversals.2 hop))
  change (Pass.relatedDomain c (.still catalog level entity)).result = _ at hpass
  obtain ⟨field, target, hfield, htarget, -⟩ := Pass.relatedDomain_eq_none.1 hpass
  exact ⟨target, (Context.target_eq_ok hfield).1 htarget⟩

end Condition

namespace Domain

/-- The children can stand under the connective as they are. -/
structure IsJoined (k : Connective) (entity : Entity) (children : List Domain) : Prop where
  several : 1 < children.length
  noConstant : ∀ d ∈ children, ∀ v, d ≠ .constant v
  noNode : ∀ d ∈ children, d.connective? ≠ some k
  sorted : children.Pairwise fun a b => a.childLe b = true
  merged : (Optimizer.mergeAll k entity children).map canonical = children.map canonical

theorem childLe_canonical (a b : Domain) : a.canonical.childLe b.canonical = a.childLe b := by
  cases a with
  | condition c =>
    cases b with
    | condition d => simp [childLe, asCondition?]
    | _ => rfl
  | _ => cases b <;> rfl

theorem exists_canonical_eq {as bs : List Domain} (h : as.map canonical = bs.map canonical)
    {b : Domain} (hb : b ∈ bs) : ∃ a ∈ as, a.canonical = b.canonical := by
  have hmem : b.canonical ∈ as.map canonical := by
    rw [h]
    exact mem_map_of_mem hb
  obtain ⟨a, ha, heq⟩ := mem_map.1 hmem
  exact ⟨a, ha, heq⟩

theorem ne_constant_of_canonical {a b : Domain} (h : a.canonical = b.canonical)
    (ha : ∀ v, a ≠ .constant v) (v : Bool) : b ≠ .constant v := by
  rintro rfl
  cases a with
  | constant w => exact ha w rfl
  | _ => cases h

theorem connective?_of_canonical {a b : Domain} (h : a.canonical = b.canonical) :
    a.connective? = b.connective? := by
  rw [← connective?_canonical a, h, connective?_canonical]

theorem IsJoined.of_canonical {k : Connective} {entity : Entity} {as bs : List Domain}
    (h : IsJoined k entity as) (hsame : as.map canonical = bs.map canonical) :
    IsJoined k entity bs where
  several := by
    have := congrArg List.length hsame
    simp only [length_map] at this
    rw [← this]
    exact h.several
  noConstant b hb := by
    obtain ⟨a, ha, heq⟩ := exists_canonical_eq hsame hb
    exact ne_constant_of_canonical heq (h.noConstant a ha)
  noNode b hb := by
    obtain ⟨a, ha, heq⟩ := exists_canonical_eq hsame hb
    rw [← connective?_of_canonical heq]
    exact h.noNode a ha
  sorted := by
    have hpair : ∀ cs : List Domain, (cs.map canonical).Pairwise (fun a b => a.childLe b = true) ↔
        cs.Pairwise fun a b => a.childLe b = true := by
      intro cs
      simp only [pairwise_map, childLe_canonical]
    rw [← hpair, ← hsame, hpair]
    exact h.sorted
  merged := by
    rw [← Optimizer.mergeAll_canonical, ← hsame, Optimizer.mergeAll_canonical, h.merged]

/-- The domain is as the standard optimizer leaves it for the entity at the level. -/
inductive Settled (catalog : Catalog) (level : Level) : Domain → Entity → Prop
  | constant (v entity) : Settled catalog level (.constant v) entity
  /-- A negation that has to stay. -/
  | negation {c entity} : c.negate = .negation (.condition c) →
      Settled catalog level (.condition c) entity →
      Settled catalog level (.negation (.condition c)) entity
  | nary {k children mark entity} : (∀ d ∈ children, Settled catalog level d entity) →
      IsJoined k entity children → Settled catalog level (.nary k children mark) entity
  | condition {c entity} : c.Kept catalog level entity →
      (∀ inner target, c.operand = .domain inner → c.operator.isTraversal = true →
        catalog.target? entity c.path = some target → Settled catalog level inner target) →
      Settled catalog level (.condition c) entity

namespace Settled

variable {catalog : Catalog} {level : Level} {entity : Entity} {d : Domain}

theorem antitone (h : Settled catalog level d entity) {lower : Level}
    (hle : lower.le level = true) : Settled catalog lower d entity := by
  induction h with
  | constant v entity => exact .constant v entity
  | negation hnegate _ ih => exact .negation hnegate ih
  | nary _ hjoined ih => exact .nary ih hjoined
  | condition hkept _ ih => exact .condition (hkept.antitone hle) ih

theorem of_canonical (h : Settled catalog level d entity) {d' : Domain}
    (hsame : d.canonical = d'.canonical) : Settled catalog level d' entity := by
  induction h generalizing d' with
  | constant v entity =>
    cases d' with
    | constant w =>
      cases hsame
      exact .constant v entity
    | _ => cases hsame
  | negation hnegate _ ih =>
    cases d' with
    | negation inner =>
      rw [canonical_negation, canonical_negation, negation.injEq] at hsame
      have hinner := ih hsame
      cases inner with
      | condition c' =>
        rw [canonical_condition, canonical_condition, condition.injEq,
          Condition.canonical_eq_iff] at hsame
        refine .negation ?_ hinner
        unfold Condition.negate at hnegate ⊢
        unfold Condition.isDotted at hnegate ⊢
        rw [← hsame.1, ← hsame.2.1]
        split
        · rename_i hinverse
          rw [hinverse] at hnegate
          dsimp only at hnegate
          split
          · rfl
          · rename_i hdotted
            rw [if_neg hdotted] at hnegate
            cases hnegate
        · rfl
      | _ => cases hsame
    | _ => cases hsame
  | nary _ hjoined ih =>
    cases d' with
    | nary l children' mark' =>
      rw [canonical_nary, canonical_nary, nary.injEq] at hsame
      obtain ⟨rfl, hsame, -⟩ := hsame
      refine .nary (fun b hb => ?_) (hjoined.of_canonical hsame)
      obtain ⟨a, ha, heq⟩ := exists_canonical_eq hsame hb
      exact ih a ha heq
    | _ => cases hsame
  | condition hkept _ ih =>
    cases d' with
    | condition c' =>
      rw [canonical_condition, canonical_condition, condition.injEq] at hsame
      refine .condition (hkept.of_canonical hsame) fun inner' target hinner' htraversal htarget => ?_
      obtain ⟨hpath, hop, hoperand⟩ := Condition.canonical_eq_iff.1 hsame
      rw [hinner', Operand.canonical_domain] at hoperand
      obtain ⟨inner, hinner, heq⟩ := Operand.eq_domain_of_canonical hoperand
      rw [← hpath] at htarget
      rw [← hop] at htraversal
      exact ih inner target hinner htraversal htarget heq
    | _ => cases hsame

theorem negate_kind (h : Settled catalog level d entity) (hconstant : ∀ v, d ≠ .constant v) :
    (∀ v, d.negate ≠ .constant v) ∧ d.negate.connective? = d.connective?.map (·.inverse) := by
  induction h with
  | constant v entity => exact absurd rfl (hconstant v)
  | negation _ _ _ => exact ⟨by simp [Domain.negate], rfl⟩
  | @nary k children mark entity _ hjoined ih =>
    have hkinds : ∀ e ∈ children.map Domain.negate,
        (∀ v, e ≠ .constant v) ∧ e.connective? ≠ some k.inverse := by
      intro e he
      obtain ⟨d, hd, rfl⟩ := mem_map.1 he
      obtain ⟨hne, hkind⟩ := ih d hd (hjoined.noConstant d hd)
      refine ⟨hne, ?_⟩
      rw [hkind]
      have hnode := hjoined.noNode d hd
      intro h
      obtain ⟨l, hl, hinverse⟩ := Option.map_eq_some_iff.1 h
      refine hnode ?_
      rw [hl]
      cases l <;> cases k <;> simp_all [Connective.inverse]
    rw [Domain.negate, negateAll_eq_map, Connective.apply_eq_nary
      (by simpa using hjoined.several) (fun e he => (hkinds e he).1) fun e he => (hkinds e he).2]
    exact ⟨by simp, rfl⟩
  | @condition c entity _ _ _ =>
    rw [Domain.negate, Condition.negate]
    split
    · split
      · exact ⟨by simp, rfl⟩
      · exact ⟨by simp, rfl⟩
    · exact ⟨by simp, rfl⟩

/-- A complement that needs no more work is settled. -/
theorem negate_of_isRigid (h : Settled catalog level d entity)
    (hrigid : Optimizer.isRigid d.negate = true) : Settled catalog level d.negate entity := by
  cases h with
  | constant v entity => exact .constant _ _
  | negation _ hinner => exact hinner
  | @nary k children mark _ hchildren hjoined =>
    have hsettled : Settled catalog level (.nary k children mark) entity := .nary hchildren hjoined
    obtain ⟨hconstant, hkind⟩ := negate_kind hsettled nofun
    revert hkind hrigid hconstant
    cases (Domain.nary k children mark).negate <;> simp [Optimizer.isRigid, connective?]
  | @condition c _ hkept hinner =>
    have hsettled := Settled.condition hkept hinner
    rw [Domain.negate] at hrigid ⊢
    cases hnegate : c.negate with
    | negation inner =>
      have hinner' : inner = .condition c := by
        unfold Condition.negate at hnegate
        split at hnegate
        · split at hnegate <;> cases hnegate
          rfl
        · cases hnegate
          rfl
      subst hinner'
      exact .negation hnegate hsettled
    | constant v => exact .constant _ _
    | _ => rw [hnegate] at hrigid; cases hrigid

end Settled

end Domain

end QueryDomain
