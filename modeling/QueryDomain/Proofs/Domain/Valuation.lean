import Mathlib.Data.List.Perm.Basic
import QueryDomain.Proofs.Domain.Canonical

/-! The truth value of a domain, given the truth values of its conditions. The algebra of domains
is sound for it: joining means `and` or `or`, and the complement means `not`. -/
namespace QueryDomain

def Connective.join : Connective → Bool → Bool → Bool
  | .and => Bool.and
  | .or => Bool.or

namespace Domain

mutual

def value (v : Condition → Bool) : Domain → Bool
  | constant b => b
  | negation inner => !value v inner
  | nary k children _ => valueAll v k children
  | condition c => v c

def valueAll (v : Condition → Bool) (k : Connective) : List Domain → Bool
  | [] => k.identity
  | d :: ds => k.join (value v d) (valueAll v k ds)

end

end Domain

namespace Connective

variable {v : Condition → Bool} (k : Connective)

theorem join_assoc (a b c : Bool) : k.join (k.join a b) c = k.join a (k.join b c) := by
  cases k <;> simp [join, Bool.and_assoc, Bool.or_assoc]

theorem join_comm (a b : Bool) : k.join a b = k.join b a := by
  cases k <;> simp [join, Bool.and_comm, Bool.or_comm]

@[simp] theorem identity_join (a : Bool) : k.join k.identity a = a := by
  cases k <;> simp [join, identity]

@[simp] theorem join_identity (a : Bool) : k.join a k.identity = a := by
  rw [join_comm, identity_join]

@[simp] theorem absorbing_join (a : Bool) : k.join k.absorbing a = k.absorbing := by
  cases k <;> simp [join, absorbing, identity]

@[simp] theorem join_absorbing (a : Bool) : k.join a k.absorbing = k.absorbing := by
  rw [join_comm, absorbing_join]

theorem eq_absorbing_of_ne {b : Bool} (h : b ≠ k.identity) : b = k.absorbing := by
  cases k <;> simp_all [identity, absorbing]

@[simp] theorem inverse_inverse : k.inverse.inverse = k := by
  cases k <;> rfl

theorem not_join (a b : Bool) : (!k.join a b) = k.inverse.join (!a) (!b) := by
  cases k <;> simp [join, inverse, Bool.not_and, Bool.not_or]

theorem not_identity : (!k.identity) = k.inverse.identity := by
  cases k <;> rfl

@[simp] theorem valueAll_append (ds es : List Domain) :
    Domain.valueAll v k (ds ++ es) =
      k.join (Domain.valueAll v k ds) (Domain.valueAll v k es) := by
  induction ds with
  | nil => simp [Domain.valueAll]
  | cons d ds ih => simp only [List.cons_append, Domain.valueAll, ih, join_assoc]

theorem valueAll_perm {ds es : List Domain} (h : ds.Perm es) :
    Domain.valueAll v k ds = Domain.valueAll v k es := by
  induction h with
  | nil => rfl
  | cons d _ ih => rw [Domain.valueAll, Domain.valueAll, ih]
  | swap d e ds =>
    simp only [Domain.valueAll]
    rw [← join_assoc, ← join_assoc, join_comm k (e.value v)]
  | trans _ _ ih₁ ih₂ => exact ih₁.trans ih₂

theorem valueAll_join_of_mem {d e : Domain} {ds : List Domain} (hd : d ∈ ds)
    (he : d.value v = e.value v) :
    k.join (Domain.valueAll v k ds) (e.value v) = Domain.valueAll v k ds := by
  induction ds with
  | nil => cases hd
  | cons a ds ih =>
    rw [Domain.valueAll]
    obtain rfl | hd := List.mem_cons.1 hd
    · rw [he]
      cases k <;> simp only [join] <;> grind
    · rw [join_assoc, ih hd]

theorem valueAll_congr {ds es : List Domain}
    (h : List.Forall₂ (fun d e => e.value v = d.value v) ds es) :
    Domain.valueAll v k es = Domain.valueAll v k ds := by
  induction h with
  | nil => rfl
  | cons hhead _ ih => rw [Domain.valueAll, Domain.valueAll, hhead, ih]

theorem value_contribution {d : Domain} {new : List Domain} (h : k.contribution? d = some new) :
    Domain.valueAll v k new = d.value v := by
  unfold contribution? at h
  split at h
  · split at h
    · cases h
      simp_all [Domain.valueAll, Domain.value]
    · cases h
  · split at h
    · cases h
      simp_all [Domain.value]
    · cases h
      simp [Domain.valueAll, Domain.value]
  · cases h
    simp [Domain.valueAll]

theorem value_of_contribution_eq_none {d : Domain} (h : k.contribution? d = none) :
    d.value v = k.absorbing := by
  unfold contribution? at h
  split at h
  · split at h
    · cases h
    · exact k.eq_absorbing_of_ne ‹_›
  · split at h <;> cases h
  · cases h

theorem valueAll_collect {ds children : List Domain} (h : k.collect? ds = some children) :
    Domain.valueAll v k children = Domain.valueAll v k ds := by
  induction ds generalizing children with
  | nil =>
    cases h
    rfl
  | cons d ds ih =>
    rw [collect?] at h
    split at h
    · cases h
    · rename_i new hnew
      obtain ⟨rest, hrest, rfl⟩ := Option.map_eq_some_iff.1 h
      rw [valueAll_append, k.value_contribution hnew, ih hrest, Domain.valueAll]

theorem valueAll_of_collect_eq_none {ds : List Domain} (h : k.collect? ds = none) :
    Domain.valueAll v k ds = k.absorbing := by
  induction ds with
  | nil => cases h
  | cons d ds ih =>
    rw [collect?] at h
    split at h
    · rw [Domain.valueAll, k.value_of_contribution_eq_none ‹_›, absorbing_join]
    · rw [Option.map_eq_none_iff] at h
      rw [Domain.valueAll, ih h, join_absorbing]

theorem value_node (ds : List Domain) : (k.node ds).value v = Domain.valueAll v k ds := by
  unfold node
  split <;> simp [Domain.value, Domain.valueAll]

@[simp] theorem value_apply (ds : List Domain) :
    (k.apply ds).value v = Domain.valueAll v k ds := by
  unfold apply
  split
  · rw [Domain.value, k.valueAll_of_collect_eq_none ‹_›]
  · rw [value_node, k.valueAll_collect ‹_›]

end Connective

namespace Domain

variable {v : Condition → Bool}

/-- The valuation takes the inverse of an operator for the complement, on plain fields. -/
def RespectsInverse (v : Condition → Bool) : Prop :=
  ∀ (c : Condition) (inverse : Operator), c.operator.inverse? = some inverse →
    c.isDotted = false → v (c.withOperator inverse) = !v c

def IgnoresMarks (v : Condition → Bool) : Prop :=
  ∀ (c : Condition) (mark : Option Mark), v ⟨c.path, c.operator, c.operand, mark⟩ = v c

/-- The valuation does not tell conditions apart that are `same`. -/
def RespectsSame (v : Condition → Bool) : Prop := ∀ c : Condition, v c.canonical = v c

theorem value_canonical (hv : RespectsSame v) (d : Domain) : d.canonical.value v = d.value v := by
  induction d using induct with
  | constant b => rfl
  | negation d ih => rw [canonical_negation, value, value, ih]
  | nary k children mark ih =>
    rw [canonical_nary, value, value]
    induction children with
    | nil => rfl
    | cons d ds ihds =>
      rw [List.map_cons, valueAll, valueAll, ih d (List.mem_cons_self ..),
        ihds fun e he => ih e (List.mem_cons_of_mem _ he)]
  | condition c _ => exact hv c

theorem value_eq_of_same (hv : RespectsSame v) {d e : Domain} (h : d.same e = true) :
    d.value v = e.value v := by
  rw [← value_canonical hv d, same_iff.1 h, value_canonical hv e]

theorem value_negate_condition (hv : RespectsInverse v) (c : Condition) :
    c.negate.value v = !v c := by
  unfold Condition.negate
  split
  · rename_i inverse hinverse
    split
    · rfl
    · rename_i hdotted
      exact hv c inverse hinverse (by simpa using hdotted)
  · rfl

theorem value_negate (hv : RespectsInverse v) (d : Domain) : d.negate.value v = !d.value v := by
  induction d using induct with
  | constant b => rfl
  | negation d _ => simp [negate, value]
  | nary k children mark ih =>
    rw [negate, Connective.value_apply, value, negateAll_eq_map]
    induction children with
    | nil => simp [valueAll, Connective.not_identity]
    | cons d ds ihds =>
      rw [List.map_cons, valueAll, valueAll, Connective.not_join,
        ih d (List.mem_cons_self ..), ihds fun e he => ih e (List.mem_cons_of_mem _ he)]
  | condition c _ => exact value_negate_condition hv c

end Domain

end QueryDomain
