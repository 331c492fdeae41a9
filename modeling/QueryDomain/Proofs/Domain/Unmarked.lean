import QueryDomain.Error
import QueryDomain.Proofs.Domain.Marks

/-! Domains, conditions and errors without marks. No text shows a mark, so an error reads the same
without those of the conditions that it names. -/
namespace QueryDomain

open List

def Operand.unmarked (x : Operand) : Operand := x.mapValues id

def Condition.unmarked (c : Condition) : Condition := c.mapValues id

namespace Operand

@[simp] theorem unmarked_scalar (v : Value) : (scalar v).unmarked = scalar v := rfl

@[simp] theorem unmarked_set (s : ValueSet) : (set s).unmarked = set s := by
  simp [unmarked, mapValues]

@[simp] theorem unmarked_domain (d : Domain) : (domain d).unmarked = domain d.unmarked := rfl

@[simp] theorem unmarked_query (q : SubQuery) : (query q).unmarked = query q := by
  simp [unmarked, mapValues]

@[simp] theorem kind_unmarked (x : Operand) : x.unmarked.kind = x.kind := by
  cases x <;> rfl

@[simp] theorem isFalsy_unmarked (x : Operand) : x.unmarked.isFalsy = x.isFalsy := by
  cases x <;> simp [isFalsy]

end Operand

namespace Condition

theorem unmarked_eq (c : Condition) :
    c.unmarked = ⟨c.path, c.operator, c.operand.unmarked, none⟩ :=
  mapValues_eq id c

@[simp] theorem path_unmarked (c : Condition) : c.unmarked.path = c.path := by rw [unmarked_eq]

@[simp] theorem operator_unmarked (c : Condition) : c.unmarked.operator = c.operator := by
  rw [unmarked_eq]

@[simp] theorem operand_unmarked (c : Condition) : c.unmarked.operand = c.operand.unmarked := by
  rw [unmarked_eq]

@[simp] theorem isDotted_unmarked (c : Condition) : c.unmarked.isDotted = c.isDotted := by
  rw [isDotted, path_unmarked, isDotted]

@[simp] theorem head_unmarked (c : Condition) : c.unmarked.head = c.head := by
  rw [head, path_unmarked, head]

@[simp] theorem rest?_unmarked (c : Condition) : c.unmarked.rest? = c.rest? := by
  rw [rest?, path_unmarked, rest?]

end Condition

namespace Domain

@[simp] theorem unmarked_constant (v : Bool) : (constant v).unmarked = constant v := rfl

@[simp] theorem unmarked_negation (d : Domain) : (negation d).unmarked = negation d.unmarked := rfl

@[simp] theorem unmarked_nary (k : Connective) (ds : List Domain) (mark : Option Mark) :
    (nary k ds mark).unmarked = nary k (ds.map unmarked) none :=
  mapValues_nary id k ds mark

@[simp] theorem unmarked_condition (c : Condition) :
    (condition c).unmarked = condition c.unmarked := rfl

@[simp] theorem unmarked_leaf (path : String) (operator : Operator) (x : Operand) :
    (leaf path operator x).unmarked = leaf path operator x.unmarked := rfl

@[simp] theorem unmarked_unmarked (d : Domain) : d.unmarked.unmarked = d.unmarked :=
  mapValues_mapValues id id d

theorem unmarked_withMark (d : Domain) (mark : Mark) : (d.withMark mark).unmarked = d.unmarked := by
  cases d with
  | nary k ds mark' => simp [withMark]
  | condition c => simp [withMark, Condition.withMark, Condition.unmarked_eq]
  | _ => rfl

/-- The domains differ in marks alone. -/
abbrev Alike (a b : Domain) : Prop := a.unmarked = b.unmarked

theorem canonical_of_alike {a b : Domain} (h : a.Alike b) :
    a.canonical = b.canonical := by
  rw [← canonical_unmarked a, h, canonical_unmarked]

@[simp] theorem isTrue_unmarked (d : Domain) : d.unmarked.isTrue = d.isTrue := by
  cases d <;> rfl

@[simp] theorem isFalse_unmarked (d : Domain) : d.unmarked.isFalse = d.isFalse := by
  cases d <;> rfl

@[simp] theorem connective?_unmarked (d : Domain) : d.unmarked.connective? = d.connective? := by
  cases d <;> rfl

theorem children_unmarked (d : Domain) : d.unmarked.children = d.children.map unmarked := by
  cases d with
  | nary k ds mark => rw [unmarked_nary, children, children]
  | _ => rfl

theorem unmarked_apply (k : Connective) (ds : List Domain) :
    (k.apply ds).unmarked = k.apply (ds.map unmarked) :=
  k.mapValues_apply id ds

theorem unmarked_negate (d : Domain) : d.negate.unmarked = d.unmarked.negate := by
  induction d using induct with
  | constant v => rfl
  | negation d _ => rfl
  | nary k children mark ih =>
    rw [negate, negateAll_eq_map, unmarked_apply, unmarked_nary, negate, negateAll_eq_map, map_map,
      map_map]
    congr 1
    exact map_congr_left ih
  | condition c _ =>
    rw [unmarked_condition, negate, negate, Condition.negate, Condition.negate,
      Condition.operator_unmarked, Condition.isDotted_unmarked]
    cases c.operator.inverse? with
    | none => rfl
    | some inverse =>
      cases c.isDotted with
      | true => rfl
      | false => simp [Condition.withOperator, Condition.unmarked_eq]

namespace Alike

variable {a b : Domain}

theorem withMark (h : a.Alike b) (mark : Mark) : (a.withMark mark).Alike (b.withMark mark) := by
  rw [Alike, unmarked_withMark, unmarked_withMark, h]

theorem negate (h : a.Alike b) : a.negate.Alike b.negate := by
  rw [Alike, unmarked_negate, unmarked_negate, h]

theorem connective? (h : a.Alike b) : a.connective? = b.connective? := by
  rw [← connective?_unmarked a, h, connective?_unmarked]

theorem isTrue (h : a.Alike b) : a.isTrue = b.isTrue := by
  rw [← isTrue_unmarked a, h, isTrue_unmarked]

theorem isFalse (h : a.Alike b) : a.isFalse = b.isFalse := by
  rw [← isFalse_unmarked a, h, isFalse_unmarked]

theorem children (h : a.Alike b) : a.children.map unmarked = b.children.map unmarked := by
  rw [← children_unmarked, h, children_unmarked]

end Alike

theorem map_canonical_of_unmarked {as bs : List Domain} (h : as.map unmarked = bs.map unmarked) :
    as.map canonical = bs.map canonical := by
  have hcanonical : ∀ ds : List Domain, ds.map canonical = (ds.map unmarked).map canonical := by
    intro ds
    rw [map_map]
    exact map_congr_left fun d _ => (canonical_unmarked d).symm
  rw [hcanonical, h, ← hcanonical]

theorem sameAll_of_unmarked {as bs as' bs' : List Domain} (ha : as.map unmarked = as'.map unmarked)
    (hb : bs.map unmarked = bs'.map unmarked) : sameAll as bs = sameAll as' bs' := by
  rw [Bool.eq_iff_iff, sameAll_eq_true_iff, sameAll_eq_true_iff, map_canonical_of_unmarked ha,
    map_canonical_of_unmarked hb]

theorem same_of_alike {a b a' b' : Domain} (ha : a.Alike a') (hb : b.Alike b') :
    a.same b = a'.same b' := by
  rw [Bool.eq_iff_iff, same_iff, same_iff, canonical_of_alike ha, canonical_of_alike hb]

theorem termTexts_unmarked (d : Domain) : d.unmarked.termTexts = d.termTexts := by
  induction d using induct with
  | constant v => rfl
  | negation d ih => rw [unmarked_negation, termTexts, termTexts, ih]
  | nary k children mark ih =>
    have hall : allTermTexts (children.map unmarked) = allTermTexts children := by
      clear mark
      induction children with
      | nil => rfl
      | cons d ds ihds =>
        rw [map_cons, allTermTexts, allTermTexts, ih d (mem_cons_self ..),
          ihds fun e he => ih e (mem_cons_of_mem _ he)]
    rw [unmarked_nary, termTexts, termTexts, hall, length_map]
  | condition c ih =>
    obtain ⟨path, operator, operand, mark⟩ := c
    rw [unmarked_condition, Condition.unmarked_eq, termTexts, termTexts, Condition.display,
      Condition.display]
    cases operand with
    | domain inner =>
      have hinner := ih inner rfl
      cases inner with
      | constant v => rfl
      | _ =>
        simp only [Operand.unmarked_domain] at hinner ⊢
        simp only [unmarked_negation, unmarked_nary, unmarked_condition,
          Operand.display] at hinner ⊢
        rw [hinner]
    | _ => simp

end Domain

namespace Operand

@[simp] theorem unmarked_unmarked (x : Operand) : x.unmarked.unmarked = x.unmarked := by
  cases x <;> simp

theorem eq_or_of_unmarked {x y : Operand} (h : x.unmarked = y.unmarked) :
    (x = y ∧ ∀ d, x ≠ .domain d) ∨
      ∃ d d', x = .domain d ∧ y = .domain d' ∧ d.Alike d' := by
  cases x with
  | domain d =>
    cases y with
    | domain d' => exact .inr ⟨d, d', rfl, rfl, domain.inj h⟩
    | _ => simp at h
  | _ => cases y <;> simp_all

@[simp] theorem sameFlat_unmarked (x y : Operand) : x.unmarked.sameFlat y = x.sameFlat y := by
  cases x with
  | domain d => cases y <;> rfl
  | _ => simp

end Operand

namespace Condition

@[simp] theorem unmarked_unmarked (c : Condition) : c.unmarked.unmarked = c.unmarked := by
  simp [unmarked_eq]

theorem unmarked_withOperand (c : Condition) (x : Operand) :
    (c.withOperand x).unmarked = c.unmarked.withOperand x.unmarked := by
  simp [unmarked_eq, withOperand]

theorem unmarked_withOperator (c : Condition) (operator : Operator) :
    (c.withOperator operator).unmarked = c.unmarked.withOperator operator := by
  simp [unmarked_eq, withOperator]

theorem unmarked_withoutMark (c : Condition) : c.withoutMark.unmarked = c.unmarked := by
  simp [unmarked_eq, withoutMark]

end Condition

theorem Condition.display_unmarked (c : Condition) : c.unmarked.display = c.display := by
  have h := Domain.termTexts_unmarked (.condition c)
  rw [Domain.unmarked_condition, Domain.termTexts, Domain.termTexts] at h
  exact (cons.inj h).1

theorem Operand.display_unmarked (x : Operand) : x.unmarked.display = x.display := by
  cases x with
  | domain d =>
    have h := d.termTexts_unmarked
    cases d with
    | constant v => rfl
    | negation _ | nary _ _ _ | condition _ =>
      simp only [unmarked_domain, Domain.unmarked_negation, Domain.unmarked_nary,
        Domain.unmarked_condition, display] at h ⊢
      rw [h]
  | _ => simp

def Mismatch.unmarked : Mismatch → Mismatch
  | expectsText operator x => expectsText operator x.unmarked
  | expectsDomain operator x => expectsDomain operator x.unmarked
  | expectsIds operator x => expectsIds operator x.unmarked
  | refusesShape operator x => refusesShape operator x.unmarked
  | notLowerable operator x => notLowerable operator x.unmarked
  | selectsNothing operator x => selectsNothing operator x.unmarked
  | cause => cause

theorem Mismatch.message_unmarked (cause : Mismatch) : cause.unmarked.message = cause.message := by
  cases cause with
  | expectsText operator x =>
    unfold unmarked message
    simp only [Operand.kind_unmarked, Operand.display_unmarked]
  | expectsDomain operator x | expectsIds operator x | refusesShape operator x
  | notLowerable operator x | selectsNothing operator x =>
    unfold unmarked message
    simp only [Operand.kind_unmarked]
  | _ => rfl

def SearchFailure.unmarked : SearchFailure → SearchFailure
  | operatorOnOperand c => operatorOnOperand c.unmarked
  | traversalOfOperand c => traversalOfOperand c.unmarked
  | hook text => hook text

theorem SearchFailure.message_unmarked (cause : SearchFailure) :
    cause.unmarked.message = cause.message := by
  cases cause with
  | operatorOnOperand c | traversalOfOperand c =>
    unfold unmarked message
    simp only [Condition.display_unmarked, Condition.operator_unmarked, Condition.operand_unmarked,
      Operand.kind_unmarked]
  | hook text => rfl

namespace Error

def unmarked : Error → Error
  | misuse c cause => misuse c.unmarked cause
  | mismatch c cause => mismatch c.unmarked cause.unmarked
  | searchFailed cause => searchFailed cause.unmarked
  | e => e

theorem message_unmarked (e : Error) : e.unmarked.message = e.message := by
  cases e with
  | misuse c cause =>
    unfold unmarked message
    simp only [Condition.display_unmarked]
  | mismatch c cause =>
    unfold unmarked message
    simp only [Condition.display_unmarked, Mismatch.message_unmarked]
  | searchFailed cause => exact congrArg ("Search failed: " ++ ·) cause.message_unmarked
  | _ => rfl

theorem unmarked_eq_tooDeep {e : Error} : e.unmarked = .tooDeep ↔ e = .tooDeep := by
  cases e <;> simp [unmarked]

end Error

end QueryDomain
