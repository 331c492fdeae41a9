import QueryDomain.Proofs.Domain.Canonical

/-! A property of all marked nodes of a domain. Building domains from others neither marks a node nor
changes a marked one, so the property passes on. -/
namespace QueryDomain

namespace Domain

variable {P : Mark → Domain → Prop}

mutual

/-- Every marked node, also inside operands, has the property together with its mark. -/
def EachMark (P : Mark → Domain → Prop) : Domain → Prop
  | constant _ => True
  | negation inner => EachMark P inner
  | nary k children mark =>
    (∀ m, mark = some m → P m (nary k children mark)) ∧ EachMarkAll P children
  | condition ⟨path, operator, .domain inner, mark⟩ =>
    (∀ m, mark = some m → P m (condition ⟨path, operator, .domain inner, mark⟩)) ∧
      EachMark P inner
  | condition c => ∀ m, c.mark = some m → P m (condition c)

def EachMarkAll (P : Mark → Domain → Prop) : List Domain → Prop
  | [] => True
  | d :: ds => EachMark P d ∧ EachMarkAll P ds

end

theorem eachMarkAll_iff {ds : List Domain} : EachMarkAll P ds ↔ ∀ d ∈ ds, EachMark P d := by
  induction ds with
  | nil => simp [EachMarkAll]
  | cons d ds ih => simp [EachMarkAll, ih]

@[simp] theorem eachMark_constant (v : Bool) : EachMark P (constant v) := trivial

@[simp] theorem eachMark_negation {d : Domain} : EachMark P (negation d) ↔ EachMark P d := Iff.rfl

theorem eachMark_nary {k : Connective} {children : List Domain} {mark : Option Mark} :
    EachMark P (nary k children mark) ↔
      (∀ m, mark = some m → P m (nary k children mark)) ∧ ∀ d ∈ children, EachMark P d := by
  rw [EachMark, eachMarkAll_iff]

theorem eachMark_condition {c : Condition} :
    EachMark P (condition c) ↔ (∀ m, c.mark = some m → P m (condition c)) ∧
      ∀ inner, c.operand = .domain inner → EachMark P inner := by
  obtain ⟨path, operator, operand, mark⟩ := c
  cases operand <;> simp [EachMark]

theorem eachMark_unmarked_condition {c : Condition} (h : c.mark = none) :
    EachMark P (condition c) ↔ ∀ inner, c.operand = .domain inner → EachMark P inner := by
  simp [eachMark_condition, h]

@[simp] theorem eachMark_leaf {path : String} {operator : Operator} {x : Operand} :
    EachMark P (leaf path operator x) ↔ ∀ inner, x = .domain inner → EachMark P inner :=
  eachMark_unmarked_condition rfl

theorem EachMark.self {d : Domain} (h : EachMark P d) {m : Mark} (hm : d.mark? = some m) :
    P m d := by
  cases d with
  | nary k children mark => exact (eachMark_nary.1 h).1 m hm
  | condition c => exact (eachMark_condition.1 h).1 m hm
  | _ => cases hm

theorem EachMark.children {d : Domain} (h : EachMark P d) : ∀ e ∈ d.children, EachMark P e := by
  cases d with
  | nary k children mark => exact (eachMark_nary.1 h).2
  | _ => intro e he; cases he

theorem EachMark.withMark {d : Domain} (h : EachMark P d) {m : Mark} (hm : P m (d.withMark m)) :
    EachMark P (d.withMark m) := by
  cases d with
  | nary k children mark =>
    refine eachMark_nary.2 ⟨fun m' hm' => ?_, (eachMark_nary.1 h).2⟩
    cases hm'
    exact hm
  | condition c =>
    refine eachMark_condition.2 ⟨fun m' hm' => ?_, (eachMark_condition.1 h).2⟩
    cases hm'
    exact hm
  | _ => exact h

theorem eachMark_mapValues (f : Value → Value) (d : Domain) : EachMark P (d.mapValues f) := by
  induction d using induct with
  | constant v => trivial
  | negation d ih => exact ih
  | nary k children mark ih =>
    rw [mapValues, mapAll_eq_map]
    refine eachMark_nary.2 ⟨fun m hm => (by cases hm), ?_⟩
    intro d hd
    obtain ⟨e, he, rfl⟩ := List.mem_map.1 hd
    exact ih e he
  | condition c ih =>
    obtain ⟨path, operator, operand, mark⟩ := c
    refine (eachMark_unmarked_condition rfl).2 fun inner hinner => ?_
    cases operand with
    | domain d =>
      cases hinner
      exact ih d rfl
    | _ => cases hinner

end Domain

namespace Connective

variable {k : Connective} {P : Mark → Domain → Prop}

theorem contribution?_eq_some {d : Domain} {new : List Domain} (h : k.contribution? d = some new) :
    (d = .constant k.identity ∧ new = []) ∨ (∃ mark, d = .nary k new mark) ∨
      (new = [d] ∧ (∀ v, d ≠ .constant v) ∧ d.connective? ≠ some k) := by
  unfold contribution? at h
  split at h
  · split at h
    · rename_i hv
      cases h
      exact .inl ⟨by rw [hv], rfl⟩
    · cases h
  · split at h
    · rename_i mark hk
      cases h
      exact .inr (.inl ⟨mark, by rw [hk]⟩)
    · rename_i hk
      cases h
      refine .inr (.inr ⟨rfl, by simp, ?_⟩)
      simpa [Domain.connective?, eq_comm] using hk
  · rename_i hconstant hnary
    cases h
    refine .inr (.inr ⟨rfl, hconstant, ?_⟩)
    cases d with
    | nary l children mark => exact absurd rfl (hnary l children mark)
    | _ => simp [Domain.connective?]

theorem mem_collect? {ds children : List Domain} (h : k.collect? ds = some children)
    {e : Domain} (he : e ∈ children) :
    (e ∈ ds ∧ (∀ v, e ≠ .constant v) ∧ e.connective? ≠ some k) ∨
      ∃ grandchildren mark, .nary k grandchildren mark ∈ ds ∧ e ∈ grandchildren := by
  induction ds generalizing children with
  | nil =>
    cases h
    cases he
  | cons d ds ih =>
    rw [collect?] at h
    split at h
    · cases h
    · rename_i new hnew
      obtain ⟨rest, hrest, rfl⟩ := Option.map_eq_some_iff.1 h
      obtain he | he := List.mem_append.1 he
      · obtain ⟨-, rfl⟩ | ⟨mark, rfl⟩ | ⟨rfl, hconstant, hkind⟩ := contribution?_eq_some hnew
        · cases he
        · exact .inr ⟨new, mark, List.mem_cons_self .., he⟩
        · obtain rfl := List.mem_singleton.1 he
          exact .inl ⟨List.mem_cons_self .., hconstant, hkind⟩
      · obtain ⟨hmem, hrigid⟩ | ⟨grandchildren, mark, hmem, hrigid⟩ := ih hrest he
        · exact .inl ⟨List.mem_cons_of_mem _ hmem, hrigid⟩
        · exact .inr ⟨grandchildren, mark, List.mem_cons_of_mem _ hmem, hrigid⟩

theorem eachMark_node {ds : List Domain} (h : ∀ d ∈ ds, d.EachMark P) :
    (k.node ds).EachMark P := by
  unfold node
  split
  · trivial
  · exact h _ (List.mem_singleton.2 rfl)
  · exact Domain.eachMark_nary.2 ⟨fun m hm => (by cases hm), h⟩

theorem eachMark_apply {ds : List Domain} (h : ∀ d ∈ ds, d.EachMark P) :
    (k.apply ds).EachMark P := by
  unfold apply
  split
  · trivial
  · rename_i children hchildren
    refine eachMark_node fun e he => ?_
    obtain ⟨hmem, -⟩ | ⟨grandchildren, mark, hmem, he⟩ := mem_collect? hchildren he
    · exact h e hmem
    · exact (h _ hmem).children e he

end Connective

namespace Domain

variable {P : Mark → Domain → Prop}

theorem EachMark.negate {d : Domain} (h : EachMark P d) : EachMark P d.negate := by
  induction d using Domain.induct with
  | constant v => trivial
  | negation d _ => exact h
  | nary k children mark ih =>
    rw [Domain.negate, negateAll_eq_map]
    refine Connective.eachMark_apply fun e he => ?_
    obtain ⟨d, hd, rfl⟩ := List.mem_map.1 he
    exact ih d hd (h.children d hd)
  | condition c _ =>
    rw [Domain.negate, Condition.negate]
    split
    · split
      · exact h
      · exact (eachMark_unmarked_condition rfl).2 (eachMark_condition.1 h).2
    · exact h

end Domain

end QueryDomain
