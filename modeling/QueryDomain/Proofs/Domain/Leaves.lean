import QueryDomain.Proofs.Domain.Unmarked
import QueryDomain.Proofs.Domain.Valuation

/-! The conditions of a domain that do not stand inside operands, which decide its truth value. For
the complement to have the opposite value, inverse operators have to say the complement on these
conditions only, and of them only on those that joining has not dropped. -/
namespace QueryDomain

open List

namespace Domain

mutual

/-- The conditions that do not stand inside operands. -/
def leaves : Domain → List Condition
  | constant _ => []
  | negation inner => leaves inner
  | nary _ children _ => leavesAll children
  | condition c => [c]

def leavesAll : List Domain → List Condition
  | [] => []
  | d :: ds => leaves d ++ leavesAll ds

end

variable {c : Condition} {k : Connective} {ds : List Domain} {v : Condition → Bool}

theorem mem_leavesAll : c ∈ leavesAll ds ↔ ∃ d ∈ ds, c ∈ d.leaves := by
  induction ds with
  | nil => simp [leavesAll]
  | cons d ds ih => simp [leavesAll, ih]

theorem mem_leaves_nary {mark : Option Mark} :
    c ∈ (nary k ds mark).leaves ↔ ∃ d ∈ ds, c ∈ d.leaves :=
  mem_leavesAll

@[simp] theorem leaves_condition (c : Condition) : (condition c).leaves = [c] := rfl

@[simp] theorem leaves_negation (d : Domain) : (negation d).leaves = d.leaves := rfl

theorem mem_leaves_collect {collected : List Domain} (h : k.collect? ds = some collected) :
    c ∈ leavesAll collected ↔ ∃ d ∈ ds, c ∈ d.leaves := by
  induction ds generalizing collected with
  | nil =>
    cases h
    simp [leavesAll]
  | cons d ds ih =>
    rw [Connective.collect?] at h
    split at h
    · cases h
    · rename_i new hnew
      obtain ⟨rest, hrest, rfl⟩ := Option.map_eq_some_iff.1 h
      have hfirst : c ∈ leavesAll new ↔ c ∈ d.leaves := by
        obtain ⟨rfl, rfl⟩ | ⟨mark, rfl⟩ | ⟨rfl, -, -⟩ := Connective.contribution?_eq_some hnew
        · rfl
        · rfl
        · simp [leavesAll]
      have hothers := ih hrest
      rw [mem_leavesAll] at hfirst hothers
      simp [mem_leavesAll, or_and_right, exists_or, hfirst, hothers]

theorem mem_leaves_node : c ∈ (k.node ds).leaves ↔ ∃ d ∈ ds, c ∈ d.leaves := by
  unfold Connective.node
  split
  · simp [leaves]
  · simp
  · exact mem_leaves_nary

theorem mem_leaves_of_apply (h : c ∈ (k.apply ds).leaves) : ∃ d ∈ ds, c ∈ d.leaves := by
  unfold Connective.apply at h
  split at h
  · cases h
  · rename_i collected hcollected
    rwa [mem_leaves_node, ← mem_leavesAll, mem_leaves_collect hcollected] at h

theorem mem_leaves_apply (hcollected : k.collect? ds ≠ none) {d : Domain} (hd : d ∈ ds)
    (hc : c ∈ d.leaves) : c ∈ (k.apply ds).leaves := by
  unfold Connective.apply
  split
  · exact absurd ‹_› hcollected
  · rename_i collected hcollected
    rw [mem_leaves_node, ← mem_leavesAll, mem_leaves_collect hcollected]
    exact ⟨d, hd, hc⟩

theorem exists_constant_of_collect?_eq_none (h : k.collect? ds = none) :
    .constant k.absorbing ∈ ds := by
  induction ds with
  | nil => cases h
  | cons d ds ih =>
    rw [Connective.collect?] at h
    split at h
    · rename_i hnone
      unfold Connective.contribution? at hnone
      split at hnone
      · split at hnone
        · cases hnone
        · rename_i hne
          rw [k.eq_absorbing_of_ne hne]
          exact mem_cons_self ..
      · split at hnone <;> cases hnone
      · cases hnone
    · exact mem_cons_of_mem _ (ih (Option.map_eq_none_iff.1 h))

theorem valueAll_of_mem_absorbing {d : Domain} (hd : d ∈ ds) (h : d.value v = k.absorbing) :
    valueAll v k ds = k.absorbing := by
  induction ds with
  | nil => cases hd
  | cons e es ih =>
    rw [valueAll]
    obtain rfl | hd := mem_cons.1 hd
    · rw [h, Connective.absorbing_join]
    · rw [ih hd, Connective.join_absorbing]

/-- The complement has the opposite truth value where inverse operators say the complement on the
conditions that it is left with. -/
theorem value_negate_of_leaves {d : Domain}
    (h : ∀ c ∈ d.leaves, ∀ op, c.operator.inverse? = some op → c.isDotted = false →
      c.withOperator op ∈ d.negate.leaves → v (c.withOperator op) = !v c) :
    d.negate.value v = !d.value v := by
  induction d using Domain.induct with
  | constant b => rfl
  | negation d _ => simp [negate, value]
  | nary k children mark ih =>
    simp only [mem_leaves_nary] at h
    rw [negate, negateAll_eq_map] at h ⊢
    rw [Connective.value_apply, value]
    by_cases hcollected : k.inverse.collect? (children.map negate) = none
    · -- A part whose complement is a constant decides both nodes.
      obtain ⟨d, hd, hconstant⟩ := mem_map.1 (exists_constant_of_collect?_eq_none hcollected)
      have hvalue := ih d hd fun c _ op _ _ hmem => by
        rw [hconstant] at hmem
        cases hmem
      have habsorbing : d.value v = k.absorbing := by
        rw [hconstant, value] at hvalue
        cases k <;> simp_all [Connective.absorbing, Connective.inverse, Connective.identity]
      rw [Connective.valueAll_of_collect_eq_none _ hcollected,
        valueAll_of_mem_absorbing hd habsorbing]
      cases k <;> rfl
    · have hchildren : ∀ d ∈ children, d.negate.value v = !d.value v := fun d hd =>
        ih d hd fun c hc op hop hdotted hmem => h c ⟨d, hd, hc⟩ op hop hdotted
          (mem_leaves_apply hcollected (mem_map_of_mem hd) hmem)
      clear h ih hcollected
      induction children with
      | nil => simp [valueAll, Connective.not_identity]
      | cons d ds ihds =>
        rw [forall_mem_cons] at hchildren
        rw [map_cons, valueAll, valueAll, Connective.not_join, hchildren.1, ihds hchildren.2]
  | condition c _ =>
    rw [negate, Condition.negate] at h ⊢
    cases hop : c.operator.inverse? with
    | none => rfl
    | some op =>
      rw [hop] at h
      dsimp only at h ⊢
      cases hdotted : c.isDotted with
      | true => rfl
      | false =>
        rw [hdotted] at h
        exact h c (mem_singleton.2 rfl) op hop hdotted (mem_singleton.2 rfl)

inductive IsFresh : Domain → Prop
  | constant (b : Bool) : IsFresh (.constant b)
  | negation {d} : IsFresh d → IsFresh (.negation d)
  | nary {k : Connective} {children} : (∀ d ∈ children, IsFresh d) → IsFresh (.nary k children none)
  | condition {c : Condition} : c.mark = none → IsFresh (.condition c)

namespace IsFresh

variable {d : Domain}

theorem children (h : d.IsFresh) : ∀ e ∈ d.children, e.IsFresh := by
  cases h with
  | nary hchildren => exact hchildren
  | _ => nofun

theorem of_mem_leaves (h : d.IsFresh) : ∀ c ∈ d.leaves, c.mark = none := by
  induction h with
  | constant v => nofun
  | negation _ ih => exact ih
  | nary _ ih =>
    intro c hc
    obtain ⟨d, hd, hc⟩ := mem_leaves_nary.1 hc
    exact ih d hd c hc
  | condition hmark =>
    intro c hc
    obtain rfl := mem_singleton.1 hc
    exact hmark

theorem apply (h : ∀ d ∈ ds, d.IsFresh) : (k.apply ds).IsFresh := by
  unfold Connective.apply
  split
  · exact .constant _
  · rename_i collected hcollected
    have hall : ∀ d ∈ collected, d.IsFresh := by
      intro d hd
      obtain ⟨hmem, -⟩ | ⟨grandchildren, mark, hmem, hd⟩ := Connective.mem_collect? hcollected hd
      · exact h d hmem
      · exact (h _ hmem).children d hd
    unfold Connective.node
    split
    · exact .constant _
    · exact hall _ (mem_singleton.2 rfl)
    · exact .nary hall

theorem negate (h : d.IsFresh) : d.negate.IsFresh := by
  induction h with
  | constant v => exact .constant _
  | negation hd _ => exact hd
  | nary _ ih =>
    rw [Domain.negate, negateAll_eq_map]
    refine apply fun e he => ?_
    obtain ⟨d, hd, rfl⟩ := mem_map.1 he
    exact ih d hd
  | condition hmark =>
    rw [Domain.negate, Condition.negate]
    split
    · split
      · exact .negation (.condition hmark)
      · exact .condition rfl
    · exact .negation (.condition hmark)

theorem of_unmarked (d : Domain) : d.unmarked.IsFresh := by
  induction d using Domain.induct with
  | constant v => exact .constant v
  | negation d ih => exact .negation ih
  | nary k children mark ih =>
    rw [unmarked, mapValues, mapAll_eq_map]
    refine .nary fun e he => ?_
    obtain ⟨d, hd, rfl⟩ := mem_map.1 he
    exact ih d hd
  | condition c _ => exact .condition (congrArg Condition.mark c.unmarked_eq)

end IsFresh

end Domain

end QueryDomain
