import QueryDomain.Proofs.Domain.Prefix

/-! The laws of the algebra, as equalities of trees. Each operation flattens only one level, drops the
constants it meets and moves a negation down to the conditions; that the laws hold to the letter rests
on the form that all of them keep to. -/
namespace QueryDomain.Domain

open List

variable {L : Condition → Prop} {k : Connective} {d : Domain} {ds : List Domain}

/-- The canonical form: a node has at least two children, no constant and no node of its own
connective among them, and a negation stands only around a condition that is dotted or whose operator
has no inverse. -/
inductive IsReduced : Domain → Prop
  | constant (v) : IsReduced (.constant v)
  | condition (c) : IsReduced (.condition c)
  | negation {c : Condition} : c.isDotted = true ∨ c.operator.inverse? = none →
      IsReduced (.negation (.condition c))
  | nary {k children mark} : 2 ≤ children.length → (∀ d ∈ children, ∀ v, d ≠ .constant v) →
      (∀ d ∈ children, d.connective? ≠ some k) → (∀ d ∈ children, IsReduced d) →
      IsReduced (.nary k children mark)

namespace IsBuilt

theorem isReduced (h : d.IsBuilt L) : d.IsReduced := by
  induction h with
  | constant v => exact .constant v
  | negation _ hstays => exact .negation (Condition.negate_eq_negation hstays)
  | nary hseveral hconstant hnode _ ih => exact .nary hseveral hconstant hnode ih
  | condition _ => exact .condition _

theorem contribution?_negate (h : d.IsBuilt L) (k : Connective) :
    k.inverse.contribution? d.negate = (k.contribution? d).map (List.map Domain.negate) := by
  cases h with
  | constant v => cases v <;> cases k <;> rfl
  | negation _ _ => rfl
  | @nary l children hseveral hconstant hnode hchildren =>
    have hinverse : k.inverse = l.inverse ↔ k = l := by cases k <;> cases l <;> decide
    have hnary : (Domain.nary l children none).IsBuilt L := .nary hseveral hconstant hnode hchildren
    rw [negate_nary hnary, Connective.contribution?, Connective.contribution?]
    by_cases hk : k = l
    · simp [hk]
    · simp [hinverse, hk, negate_nary hnary]
  | @condition c _ =>
    change k.inverse.contribution? c.negate = some [c.negate]
    unfold Condition.negate
    split
    · split <;> rfl
    · rfl

theorem collect?_negate (h : ∀ d ∈ ds, d.IsBuilt L) (k : Connective) :
    k.inverse.collect? (ds.map Domain.negate) =
      (k.collect? ds).map (List.map Domain.negate) := by
  induction ds with
  | nil => rfl
  | cons d ds ih =>
    rw [forall_mem_cons] at h
    rw [map_cons, Connective.collect?, Connective.collect?, h.1.contribution?_negate k, ih h.2]
    cases k.contribution? d with
    | none => rfl
    | some new => cases k.collect? ds <;> simp

/-- De Morgan: the complement of a join is the join of the complements by the other connective. -/
theorem negate_apply (h : ∀ d ∈ ds, d.IsBuilt L) (k : Connective) :
    (k.apply ds).negate = k.inverse.apply (ds.map Domain.negate) := by
  have hbuilt : (k.apply ds).IsBuilt L := .apply h
  unfold Connective.apply at hbuilt ⊢
  rw [collect?_negate h k]
  cases hparts : k.collect? ds with
  | none => cases k <;> rfl
  | some parts =>
    rw [hparts] at hbuilt
    match parts, hbuilt with
    | [], _ => cases k <;> rfl
    | [d], _ => rfl
    | d :: e :: rest, hbuilt => exact negate_nary hbuilt

theorem unmarked (h : d.IsBuilt L) : d.unmarked.IsBuilt (·.mark = none) := by
  have hmark : ∀ c : Condition, c.unmarked.mark = none := by
    intro c
    rw [Condition.unmarked_eq]
  induction h with
  | constant v => exact .constant v
  | @negation c _ hstays =>
    have hcomplement := unmarked_negate (.condition c)
    rw [Domain.negate, hstays] at hcomplement
    exact .negation (hmark c) hcomplement.symm
  | @nary k children hseveral hconstant hnode _ ih =>
    rw [unmarked_nary]
    refine .nary (by simpa using hseveral) ?_ ?_ ?_
    · intro e he v hv
      obtain ⟨d, hd, rfl⟩ := mem_map.1 he
      cases d with
      | constant w => exact hconstant _ hd w rfl
      | _ => cases hv
    · intro e he
      obtain ⟨d, hd, rfl⟩ := mem_map.1 he
      rw [connective?_unmarked]
      exact hnode d hd
    · intro e he
      obtain ⟨d, hd, rfl⟩ := mem_map.1 he
      exact ih d hd
  | @condition c _ => exact .condition (hmark c)

theorem negate_negate_alike (h : d.IsBuilt L) : d.negate.negate.Alike d := by
  rw [Alike, unmarked_negate, unmarked_negate, h.unmarked.negate_negate]

end IsBuilt

/-- The laws of a Boolean algebra that hold of the trees themselves, for both connectives. The
complement of a complement may lose the marks of conditions; nothing else is changed by it. -/
structure Laws (a b c : Domain) : Prop where
  complement : a.negate.negate.same a = true
  complement_unmarked : a.unmarked = a → a.negate.negate = a
  deMorgan : ∀ k : Connective, (k.apply [a, b]).negate = k.inverse.apply [a.negate, b.negate]
  associative : ∀ k : Connective, k.apply [a, k.apply [b, c]] = k.apply [a, b, c] ∧
    k.apply [k.apply [a, b], c] = k.apply [a, b, c]
  identity : ∀ k : Connective, k.apply [a, .constant k.identity] = a ∧
    k.apply [.constant k.identity, a] = a
  absorbing : ∀ k : Connective, k.apply [a, .constant k.absorbing] = .constant k.absorbing ∧
    k.apply [.constant k.absorbing, a] = .constant k.absorbing

theorem apply_identity (h : d.IsBuilt L) (k : Connective) :
    k.apply [d, .constant k.identity] = d ∧ k.apply [.constant k.identity, d] = d := by
  have hempty : k.apply [] = .constant k.identity := rfl
  have hnil : ∀ e ∈ ([] : List Domain), e.IsBuilt L := nofun
  rw [← hempty]
  refine ⟨?_, ?_⟩
  · exact (IsBuilt.apply_append_apply hnil [d] []).trans (h.apply_singleton k)
  · exact (IsBuilt.apply_apply hnil [d]).trans (h.apply_singleton k)

theorem apply_absorbing (d : Domain) (k : Connective) :
    k.apply [d, .constant k.absorbing] = .constant k.absorbing ∧
      k.apply [.constant k.absorbing, d] = .constant k.absorbing := by
  have hdecides : k.contribution? (.constant k.absorbing) = none := by cases k <;> rfl
  unfold Connective.apply Connective.collect? Connective.collect?
  rw [hdecides]
  cases k.contribution? d <;> exact ⟨rfl, rfl⟩

/-- A domain that is put together from constants and conditions by joins and complements is in the
canonical form, and for such domains the laws hold. -/
theorem isReduced_and_laws {a b c : Domain} (ha : a.IsAlgebraic) (hb : b.IsAlgebraic)
    (hc : c.IsAlgebraic) : a.IsReduced ∧ Laws a b c := by
  have hpair : ∀ {x y : Domain}, x.IsAlgebraic → y.IsAlgebraic →
      ∀ d ∈ [x, y], d.IsBuilt fun _ => True := by
    intro x y hx hy d hd
    simp only [mem_cons, not_mem_nil, or_false] at hd
    obtain rfl | rfl := hd
    · exact hx.isBuilt
    · exact hy.isBuilt
  refine ⟨ha.isBuilt.isReduced, ?_, ?_, ?_, ?_, ?_, ?_⟩
  · exact same_iff.2 (canonical_of_alike ha.isBuilt.negate_negate_alike)
  · intro hmarks
    have hbuilt := ha.isBuilt.unmarked
    rw [hmarks] at hbuilt
    exact hbuilt.negate_negate
  · exact IsBuilt.negate_apply (hpair ha hb)
  · intro k
    exact ⟨IsBuilt.apply_append_apply (hpair hb hc) [a] [], IsBuilt.apply_apply (hpair ha hb) [c]⟩
  · exact apply_identity ha.isBuilt
  · exact apply_absorbing a

/-- A disjunction with a path and a marked condition in it, its complement, and a constant. -/
theorem isReduced_and_laws_nested :
    let path : Domain := .leaf "b.c" .less (.scalar (.int 2))
    let marked : Domain := .condition ⟨"c", .mem, .set ⟨[.int 3]⟩, some ⟨"item", .basic⟩⟩
    let below : Domain := .leaf "d" .childOf (.scalar (.int 4))
    let a : Domain := or [path, and [marked, below], .constant false]
    a.IsAlgebraic ∧ a.negate.IsAlgebraic ∧ (Domain.constant true).IsAlgebraic ∧
      a.IsReduced ∧ Laws a a.negate (.constant true) := by
  intro path marked below a
  have hand : (and [marked, below]).IsAlgebraic :=
    .apply .and (by simp [marked, below, leaf, IsAlgebraic.condition])
  have ha : a.IsAlgebraic :=
    .apply .or (by simp [path, leaf, IsAlgebraic.condition, IsAlgebraic.constant, hand])
  exact ⟨ha, ha.negate, .constant true, isReduced_and_laws ha ha.negate (.constant true)⟩

end QueryDomain.Domain
