import QueryDomain.Proofs.Domain.Marks

/-! Domains as the algebra builds them: a node has several parts, none of them a constant or a node
of its own connective, and a negation stands only where no inverse operator says the same. Joining
and complements keep to this form, and joining such domains step by step is joining them at once. -/
namespace QueryDomain

open List

namespace Connective

variable {k : Connective}

theorem collect?_eq_self {ds : List Domain} (hconstant : ∀ d ∈ ds, ∀ v, d ≠ .constant v)
    (hnode : ∀ d ∈ ds, d.connective? ≠ some k) : k.collect? ds = some ds := by
  induction ds with
  | nil => rfl
  | cons d ds ih =>
    have hd : k.contribution? d = some [d] := by
      have hconstant := hconstant d (mem_cons_self ..)
      have hnode := hnode d (mem_cons_self ..)
      cases d with
      | constant v => exact absurd rfl (hconstant v)
      | nary l children mark =>
        rw [contribution?, if_neg]
        rintro rfl
        exact hnode rfl
      | _ => rfl
    rw [collect?, hd, ih (fun e he => hconstant e (mem_cons_of_mem _ he))
      fun e he => hnode e (mem_cons_of_mem _ he)]
    rfl

theorem apply_eq_nary {ds : List Domain} (hlength : 1 < ds.length)
    (hconstant : ∀ d ∈ ds, ∀ v, d ≠ .constant v) (hnode : ∀ d ∈ ds, d.connective? ≠ some k) :
    k.apply ds = .nary k ds none := by
  rw [apply, collect?_eq_self hconstant hnode]
  obtain _ | ⟨d, _ | ⟨e, rest⟩⟩ := ds
  · simp at hlength
  · simp at hlength
  · rfl

theorem apply_congr {as bs : List Domain} (h : k.collect? as = k.collect? bs) :
    k.apply as = k.apply bs := by
  rw [apply, apply, h]

theorem collect?_append (as bs : List Domain) : k.collect? (as ++ bs) =
    (k.collect? as).bind fun xs => (k.collect? bs).map (xs ++ ·) := by
  induction as with
  | nil => simp [collect?]
  | cons a as ih =>
    rw [cons_append, collect?, collect?, ih]
    cases k.contribution? a with
    | none => rfl
    | some new =>
      cases k.collect? as with
      | none => rfl
      | some xs => cases k.collect? bs <;> simp

theorem contribution?_node {ds : List Domain} (hconstant : ∀ d ∈ ds, ∀ v, d ≠ .constant v)
    (hnode : ∀ d ∈ ds, d.connective? ≠ some k) : k.contribution? (k.node ds) = some ds := by
  match ds with
  | [] => exact if_pos rfl
  | [d] =>
    have h := collect?_eq_self hconstant hnode
    rw [collect?] at h
    split at h
    · cases h
    · rename_i new hnew
      rw [collect?, Option.map_some, append_nil] at h
      exact hnew.trans h
  | d :: e :: ds => exact if_pos rfl

end Connective

namespace Domain

variable {L L' : Condition → Prop} {k : Connective} {d : Domain}

/-- The domain is as the algebra builds it from conditions of a kind. -/
inductive IsBuilt (L : Condition → Prop) : Domain → Prop
  | constant (v) : IsBuilt L (.constant v)
  | negation {c} : L c → c.negate = .negation (.condition c) →
      IsBuilt L (.negation (.condition c))
  | nary {k children} : 1 < children.length → (∀ d ∈ children, ∀ v, d ≠ .constant v) →
      (∀ d ∈ children, d.connective? ≠ some k) → (∀ d ∈ children, IsBuilt L d) →
      IsBuilt L (.nary k children none)
  | condition {c} : L c → IsBuilt L (.condition c)

namespace IsBuilt

theorem mono (h : d.IsBuilt L) (hL : ∀ c, L c → L' c) : d.IsBuilt L' := by
  induction h with
  | constant v => exact .constant v
  | negation hc hnegate => exact .negation (hL _ hc) hnegate
  | nary hseveral hconstant hnode _ ih => exact .nary hseveral hconstant hnode ih
  | condition hc => exact .condition (hL _ hc)

theorem of_collect? {ds parts : List Domain} (h : ∀ d ∈ ds, d.IsBuilt L)
    (hparts : k.collect? ds = some parts) :
    ∀ d ∈ parts, d.IsBuilt L ∧ (∀ v, d ≠ .constant v) ∧ d.connective? ≠ some k := by
  intro d hd
  obtain ⟨hmem, hconstant, hnode⟩ | ⟨children, mark, hmem, hd⟩ := Connective.mem_collect? hparts hd
  · exact ⟨h d hmem, hconstant, hnode⟩
  · cases h _ hmem with
    | nary _ hconstant hnode hchildren => exact ⟨hchildren d hd, hconstant d hd, hnode d hd⟩

theorem apply {ds : List Domain} (h : ∀ d ∈ ds, d.IsBuilt L) : (k.apply ds).IsBuilt L := by
  unfold Connective.apply
  split
  · exact .constant _
  · rename_i parts hparts
    have hall := of_collect? h hparts
    unfold Connective.node
    split
    · exact .constant _
    · exact (hall _ mem_cons_self).1
    · rename_i hnil hone
      refine .nary ?_ (fun d hd => (hall d hd).2.1) (fun d hd => (hall d hd).2.2)
        fun d hd => (hall d hd).1
      obtain _ | ⟨a, _ | ⟨b, rest⟩⟩ := parts
      · exact absurd rfl hnil
      · exact absurd rfl (hone a)
      · simp

theorem apply_singleton (h : d.IsBuilt L) (k : Connective) : k.apply [d] = d := by
  cases h with
  | constant v => cases v <;> cases k <;> rfl
  | @nary l children hseveral hconstant hnode _ =>
    by_cases hk : k = l
    · subst hk
      have hcollect : k.collect? [.nary k children none] = some children := by
        simp [Connective.collect?, Connective.contribution?]
      rw [Connective.apply, hcollect]
      obtain _ | ⟨a, _ | ⟨b, rest⟩⟩ := children
      · simp at hseveral
      · simp at hseveral
      · rfl
    · simp [Connective.apply, Connective.collect?, Connective.contribution?, hk, Connective.node]
  | _ => rfl

theorem contribution?_apply {as : List Domain} (h : ∀ d ∈ as, d.IsBuilt L) :
    k.contribution? (k.apply as) = k.collect? as := by
  unfold Connective.apply
  cases has : k.collect? as with
  | none => cases k <;> rfl
  | some parts =>
    have hall := of_collect? h has
    exact Connective.contribution?_node (fun d hd => (hall d hd).2.1) fun d hd => (hall d hd).2.2

/-- Joining some parts first makes no difference, wherever they stand. -/
theorem apply_append_apply {as : List Domain} (h : ∀ d ∈ as, d.IsBuilt L) (before bs : List Domain) :
    k.apply (before ++ k.apply as :: bs) = k.apply (before ++ (as ++ bs)) := by
  have hcollect : k.collect? (k.apply as :: bs) = k.collect? (as ++ bs) := by
    rw [Connective.collect?, contribution?_apply h, Connective.collect?_append]
    cases k.collect? as <;> rfl
  apply Connective.apply_congr
  rw [Connective.collect?_append, Connective.collect?_append, hcollect]

theorem apply_apply {as : List Domain} (h : ∀ d ∈ as, d.IsBuilt L) (bs : List Domain) :
    k.apply (k.apply as :: bs) = k.apply (as ++ bs) :=
  apply_append_apply h [] bs

theorem negate (hL : ∀ c op, L c → c.operator.inverse? = some op → L (c.withOperator op))
    (h : d.IsBuilt L) : d.negate.IsBuilt L := by
  induction h with
  | constant v => exact .constant _
  | negation hc _ => exact .condition hc
  | nary _ _ _ _ ih =>
    rw [Domain.negate, negateAll_eq_map]
    refine apply fun e he => ?_
    obtain ⟨d, hd, rfl⟩ := mem_map.1 he
    exact ih d hd
  | @condition c hc =>
    rw [Domain.negate]
    cases hop : c.operator.inverse? with
    | none =>
      have hnegate : c.negate = .negation (.condition c) := by rw [Condition.negate, hop]
      rw [hnegate]
      exact .negation hc hnegate
    | some op =>
      cases hdotted : c.isDotted with
      | true =>
        have hnegate : c.negate = .negation (.condition c) := by
          simp [Condition.negate, hop, hdotted]
        rw [hnegate]
        exact .negation hc hnegate
      | false =>
        have hnegate : c.negate = .condition (c.withOperator op) := by
          simp [Condition.negate, hop, hdotted]
        rw [hnegate]
        exact .condition (hL c op hc hop)

theorem negate_parts {children : List Domain}
    (hkind : ∀ d ∈ children, (∀ v, d.negate = .constant v → d = .constant !v) ∧
      d.negate.connective? = d.connective?.map Connective.inverse)
    (hconstant : ∀ d ∈ children, ∀ v, d ≠ .constant v)
    (hnode : ∀ d ∈ children, d.connective? ≠ some k) :
    ∀ e ∈ children.map Domain.negate, (∀ v, e ≠ .constant v) ∧ e.connective? ≠ some k.inverse := by
  intro e he
  obtain ⟨d, hd, rfl⟩ := mem_map.1 he
  obtain ⟨hvalue, hconnective⟩ := hkind d hd
  refine ⟨fun v hv => hconstant d hd _ (hvalue v hv), fun hk => hnode d hd ?_⟩
  rw [hconnective] at hk
  obtain ⟨l, hl, hinverse⟩ := Option.map_eq_some_iff.1 hk
  rw [hl]
  cases l <;> cases k <;> simp_all [Connective.inverse]

/-- Complements keep the kind of a node: constants come from constants only, and a node becomes one
of the inverse connective. -/
theorem negate_kind (h : d.IsBuilt L) : (∀ v, d.negate = .constant v → d = .constant !v) ∧
    d.negate.connective? = d.connective?.map Connective.inverse := by
  induction h with
  | constant v => cases v <;> simp [Domain.negate, connective?]
  | negation _ _ => simp [Domain.negate, connective?]
  | @nary k children hseveral hconstant hnode _ ih =>
    have hparts := negate_parts ih hconstant hnode
    rw [Domain.negate, negateAll_eq_map, Connective.apply_eq_nary (by simpa using hseveral)
      (fun e he => (hparts e he).1) fun e he => (hparts e he).2]
    exact ⟨fun _ h => Domain.noConfusion h, rfl⟩
  | @condition c _ =>
    rw [Domain.negate, Condition.negate]
    split
    · split <;> exact ⟨fun _ h => Domain.noConfusion h, rfl⟩
    · exact ⟨fun _ h => Domain.noConfusion h, rfl⟩

theorem negate_nary {children : List Domain} (h : (Domain.nary k children none).IsBuilt L) :
    (Domain.nary k children none).negate = .nary k.inverse (children.map Domain.negate) none := by
  cases h with
  | nary hseveral hconstant hnode hchildren =>
    have hparts := negate_parts (fun d hd => (hchildren d hd).negate_kind) hconstant hnode
    rw [Domain.negate, negateAll_eq_map, Connective.apply_eq_nary (by simpa using hseveral)
      (fun e he => (hparts e he).1) fun e he => (hparts e he).2]

/-- The complement of the complement is the domain itself, unless an inverse operator has taken away
a mark. -/
theorem negate_negate (h : d.IsBuilt (·.mark = none)) : d.negate.negate = d := by
  induction h with
  | constant v => simp [Domain.negate]
  | negation _ hstays => exact hstays
  | @nary k children hseveral hconstant hnode hchildren ih =>
    have hself : (children.map Domain.negate).map Domain.negate = children := by
      rw [map_map]
      exact (map_congr_left ih).trans (map_id children)
    rw [negate_nary (.nary hseveral hconstant hnode hchildren), Domain.negate, negateAll_eq_map,
      hself]
    cases k <;> exact Connective.apply_eq_nary hseveral hconstant hnode
  | @condition c hmark =>
    obtain ⟨path, operator, operand, mark⟩ := c
    cases hmark
    rw [Domain.negate, Condition.negate]
    split
    · rename_i inverse hinverse
      split
      · rfl
      · rename_i hplain
        have hback : ¬(Condition.mk path inverse operand none).isDotted = true := hplain
        simp only [Condition.withOperator, Domain.negate, Condition.negate,
          Operator.inverse?_symm hinverse]
        exact if_neg hback
    · rfl

end IsBuilt

end Domain

end QueryDomain
