import QueryDomain.Proofs.Domain.Grammar
import QueryDomain.Proofs.Domain.Unmarked

/-! The prefix form of a domain is read with every join and every negation carried out anew. A
domain as the algebra builds it is read as itself: what joining and complements would change at once
does not occur in it. -/
namespace QueryDomain

open List

namespace Domain

variable {d : Domain} {k : Connective} {L : Condition → Prop}

mutual

/-- The domain with its nodes joined anew, its negations as complements and its conditions without
marks. -/
def recomposed : Domain → Domain
  | constant v => constant v
  | negation inner => (recomposed inner).negate
  | nary k children _ => k.apply (recomposedAll children)
  | condition c => condition c.withoutMark

def recomposedAll : List Domain → List Domain
  | [] => []
  | d :: ds => recomposed d :: recomposedAll ds

end

theorem recomposedAll_eq_map (ds : List Domain) : recomposedAll ds = ds.map recomposed := by
  induction ds with
  | nil => rfl
  | cons d ds ih => rw [recomposedAll, ih, map_cons]

inductive HasParts : Domain → Prop
  | constant (v) : HasParts (.constant v)
  | negation {d : Domain} : HasParts d → HasParts (.negation d)
  | nary {k : Connective} {children mark} : children ≠ [] → (∀ d ∈ children, HasParts d) →
      HasParts (.nary k children mark)
  | condition (c) : HasParts (.condition c)

theorem readsAll_expressions {children : List Domain}
    (h : ∀ d ∈ children, Term.Reads d.expression d.recomposed) :
    Term.ReadsAll (expressions children) (children.map recomposed) := by
  induction children with
  | nil => exact .nil
  | cons e es ih =>
    rw [forall_mem_cons] at h
    exact .cons h.1 (ih h.2)

theorem HasParts.reads_expression (h : d.HasParts) : Term.Reads d.expression d.recomposed := by
  induction h with
  | constant v => exact .constant v
  | negation _ ih => exact ih.negation
  | @nary k children mark hsome _ ih =>
    cases children with
    | nil => exact absurd rfl hsome
    | cons a rest =>
      rw [forall_mem_cons] at ih
      have ha := ih.1.isBuilt
      have hread : Term.Reads a.expression (k.apply [a.recomposed]) := by
        rw [ha.apply_singleton]
        exact ih.1
      have hjoined := hread.connectives (by simpa using ha) (readsAll_expressions ih.2)
      rwa [length_map, singleton_append, ← map_cons, ← recomposedAll_eq_map] at hjoined
  | condition c => exact .leaf _

theorem HasParts.result_ofTerms_expression (h : d.HasParts) :
    (ofTerms d.expression).result = .ok d.recomposed := by
  have hread := h.reads_expression
  have hall := result_ofTerms_of_readsAll (.cons hread .nil)
  rwa [append_nil, and, hread.isBuilt.apply_singleton] at hall

theorem HasParts.result_ofTerms (h : d.HasParts) :
    (ofTerms d.terms).result = .ok d.recomposed := by
  cases htrue : d.isTrue with
  | true =>
    obtain rfl : d = .constant true := by
      unfold isTrue at htrue
      split at htrue
      · rfl
      · cases htrue
    rfl
  | false =>
    rw [terms, htrue]
    exact h.result_ofTerms_expression

theorem IsBuilt.hasParts (h : d.IsBuilt L) : d.HasParts := by
  induction h with
  | constant v => exact .constant v
  | negation _ _ => exact .negation (.condition _)
  | nary hseveral _ _ _ ih => exact .nary (length_pos_iff.1 (by omega)) ih
  | condition _ => exact .condition _

/-- Carrying out anew what the algebra has built changes nothing but the marks of conditions. -/
theorem IsBuilt.recomposed_alike (h : d.IsBuilt L) : d.recomposed.Alike d := by
  have hleaf : ∀ c : Condition, (Domain.condition c.withoutMark).Alike (.condition c) := by
    intro c
    simp [Alike, Condition.unmarked_withoutMark]
  induction h with
  | constant v => rfl
  | @negation c _ hnegate =>
    have hstays : (Domain.condition c).negate = .negation (.condition c) := hnegate
    have hcomplement := (hleaf c).negate
    rwa [hstays] at hcomplement
  | @nary k children hseveral hconstant hnode _ ih =>
    have hparts : (children.map recomposed).map unmarked = children.map unmarked := by
      rw [map_map]
      exact map_congr_left ih
    rw [Alike, recomposed, recomposedAll_eq_map, unmarked_apply, hparts, ← unmarked_apply,
      Connective.apply_eq_nary hseveral hconstant hnode]
  | condition _ => exact hleaf _

theorem IsBuilt.recomposed_eq (h : d.IsBuilt (·.mark = none)) : d.recomposed = d := by
  have hleaf : ∀ {c : Condition}, c.mark = none → Domain.condition c.withoutMark = .condition c := by
    rintro ⟨path, operator, operand, mark⟩ rfl
    rfl
  induction h with
  | constant v => rfl
  | negation hmark hnegate => rw [recomposed, recomposed, hleaf hmark, Domain.negate, hnegate]
  | nary hseveral hconstant hnode _ ih =>
    rw [recomposed, recomposedAll_eq_map, map_congr_left ih, map_id',
      Connective.apply_eq_nary hseveral hconstant hnode]
  | condition hmark => exact hleaf hmark

theorem result_ofTerms_expression (h : d.IsBuilt (·.mark = none)) :
    (ofTerms d.expression).result = .ok d := by
  rw [h.hasParts.result_ofTerms_expression, h.recomposed_eq]

/-- The domain is put together from constants and conditions by joins and complements. -/
inductive IsAlgebraic : Domain → Prop
  | constant (v) : IsAlgebraic (.constant v)
  | condition (c) : IsAlgebraic (.condition c)
  | apply {ds} (k : Connective) : (∀ d ∈ ds, IsAlgebraic d) → IsAlgebraic (k.apply ds)
  | negate {d : Domain} : IsAlgebraic d → IsAlgebraic d.negate

theorem IsAlgebraic.isBuilt (h : d.IsAlgebraic) : d.IsBuilt fun _ => True := by
  induction h with
  | constant v => exact .constant v
  | condition c => exact .condition trivial
  | apply k _ ih => exact .apply ih
  | negate _ ih => exact ih.negate fun _ _ _ _ => trivial

/-- The domain is put together by any of the operations: joins and complements, negations that
nothing is done about, marks, and taking a domain apart again. -/
inductive IsComposed : Domain → Prop
  | constant (v) : IsComposed (.constant v)
  | condition (c) : IsComposed (.condition c)
  | apply {ds} (k : Connective) : (∀ d ∈ ds, IsComposed d) → IsComposed (k.apply ds)
  | negate {d : Domain} : IsComposed d → IsComposed d.negate
  | negation {d : Domain} : IsComposed d → IsComposed (.negation d)
  | withMark {d : Domain} (mark : Mark) : IsComposed d → IsComposed (d.withMark mark)
  | inner {d : Domain} : IsComposed (.negation d) → IsComposed d
  | child {d e : Domain} : IsComposed d → e ∈ d.children → IsComposed e

namespace HasParts

theorem children (h : d.HasParts) : ∀ e ∈ d.children, e.HasParts := by
  cases h with
  | nary _ hchildren => exact hchildren
  | _ => nofun

theorem apply {ds : List Domain} (h : ∀ d ∈ ds, d.HasParts) : (k.apply ds).HasParts := by
  unfold Connective.apply
  split
  · exact .constant _
  · rename_i parts hparts
    have hall : ∀ d ∈ parts, d.HasParts := by
      intro d hd
      obtain ⟨hmem, -, -⟩ | ⟨children, mark, hmem, hd⟩ := Connective.mem_collect? hparts hd
      · exact h d hmem
      · exact (h _ hmem).children d hd
    unfold Connective.node
    split
    · exact .constant _
    · exact hall _ mem_cons_self
    · rename_i hnil _
      exact .nary hnil hall

theorem negate (h : d.HasParts) : d.negate.HasParts := by
  induction h with
  | constant v => exact .constant _
  | negation h _ => exact h
  | nary _ _ ih =>
    rw [Domain.negate, negateAll_eq_map]
    refine apply fun e he => ?_
    obtain ⟨d, hd, rfl⟩ := mem_map.1 he
    exact ih d hd
  | condition c =>
    rw [Domain.negate, Condition.negate]
    split
    · split
      · exact .negation (.condition _)
      · exact .condition _
    · exact .negation (.condition _)

theorem withMark (h : d.HasParts) (mark : Mark) : (d.withMark mark).HasParts := by
  cases h with
  | constant v => exact .constant v
  | negation h => exact .negation h
  | nary hsome hchildren => exact .nary hsome hchildren
  | condition c => exact .condition _

end HasParts

theorem IsComposed.hasParts (h : d.IsComposed) : d.HasParts := by
  induction h with
  | constant v => exact .constant v
  | condition c => exact .condition c
  | apply k _ ih => exact .apply ih
  | negate _ ih => exact ih.negate
  | negation _ ih => exact .negation ih
  | withMark mark _ ih => exact ih.withMark mark
  | inner _ ih =>
    cases ih with
    | negation h => exact h
  | child _ he ih => exact ih.children _ he

/-- The prefix form of every domain that can be put together is read, and that of a domain of the
algebra is read as the same domain. -/
theorem result_ofTerms_terms (d : Domain) :
    (d.IsComposed → ∃ e, (ofTerms d.terms).result = .ok e) ∧
      (d.IsAlgebraic → ∃ e, (ofTerms d.terms).result = .ok e ∧ e.same d = true) := by
  constructor
  · intro h
    exact ⟨_, h.hasParts.result_ofTerms⟩
  · intro h
    have hbuilt := h.isBuilt
    exact ⟨_, hbuilt.hasParts.result_ofTerms,
      same_iff.2 (canonical_of_alike hbuilt.recomposed_alike)⟩

/-- A plain negation of a join under another one, and the complement of a disjunction with a path
and a marked condition in it. -/
theorem result_ofTerms_terms_negated :
    let a : Domain := .leaf "a" .equal (.scalar (.int 1))
    let b : Domain := .leaf "b.c" .less (.scalar (.int 2))
    let c : Domain := .condition ⟨"c", .childOf, .scalar (.int 3), some ⟨"item", .basic⟩⟩
    let plain : Domain := .negation (.negation (Connective.and.apply [a, b]))
    let complement : Domain := (Connective.or.apply [b, Connective.and.apply [c, a]]).negate
    (plain.IsComposed ∧ ∃ e, (ofTerms plain.terms).result = .ok e) ∧
      complement.IsAlgebraic ∧
        ∃ e, (ofTerms complement.terms).result = .ok e ∧ e.same complement = true := by
  intro a b c plain complement
  have hplain : plain.IsComposed :=
    .negation (.negation (.apply .and (by simp [a, b, leaf, IsComposed.condition])))
  have hand : (Connective.and.apply [c, a]).IsAlgebraic :=
    .apply .and (by simp [a, c, leaf, IsAlgebraic.condition])
  have hcomplement : complement.IsAlgebraic :=
    .negate (.apply .or (by simp [b, leaf, IsAlgebraic.condition, hand]))
  exact ⟨⟨hplain, (result_ofTerms_terms plain).1 hplain⟩, hcomplement,
    (result_ofTerms_terms complement).2 hcomplement⟩

end Domain

end QueryDomain
