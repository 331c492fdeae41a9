import QueryDomain.Domain.Algebra

/-! Domains without their marks. `Domain.same` is equality of canonical forms, in which a literal is
also replaced by one representative of the literals it is equal to. -/
namespace QueryDomain

namespace Binary64

def canonical (x : Binary64) : Binary64 :=
  if x.isNaN then nan else if x.isZero then zero false else x

theorem canonical_of_isNaN {x : Binary64} (h : x.isNaN = true) : x.canonical = nan := by
  rw [canonical, if_pos h]

theorem canonical_of_isZero {x : Binary64} (h : x.isZero = true) : x.canonical = zero false := by
  have hnumber : x.isNaN = false := by
    simp only [isZero, beq_iff_eq] at h
    simp [isNaN, h]
  rw [canonical, if_neg (by simp [hnumber]), if_pos h]

theorem canonical_of_ne {x : Binary64} (hnan : x.isNaN = false) (hzero : x.isZero = false) :
    x.canonical = x := by
  rw [canonical, if_neg (by simp [hnan]), if_neg (by simp [hzero])]

@[simp] theorem isNaN_canonical (x : Binary64) : x.canonical.isNaN = x.isNaN := by
  unfold canonical
  split
  · rename_i h
    rw [h]
    decide
  · split
    · rename_i h _
      rw [Bool.not_eq_true] at h
      rw [h]
      decide
    · rfl

@[simp] theorem isZero_canonical (x : Binary64) : x.canonical.isZero = x.isZero := by
  cases hnan : x.isNaN with
  | true =>
    rw [canonical_of_isNaN hnan]
    simp only [isNaN, decide_eq_true_eq] at hnan
    have : x.magnitude ≠ 0 := by omega
    simp only [isZero, beq_eq_false_iff_ne.2 this]
    decide
  | false =>
    cases hzero : x.isZero with
    | true => rw [canonical_of_isZero hzero]; rfl
    | false => rw [canonical_of_ne hnan hzero, hzero]

theorem key_canonical {x : Binary64} (h : x.isNaN = false) : x.canonical.key = x.key := by
  cases hzero : x.isZero with
  | true =>
    rw [canonical_of_isZero hzero]
    simp only [isZero, beq_iff_eq] at hzero
    simp [key, zero, hzero]
  | false => rw [canonical_of_ne h hzero]

theorem eq_of_key_eq {x y : Binary64} (hx : x.isZero = false) (hy : y.isZero = false)
    (h : x.key = y.key) : x = y := by
  obtain ⟨xneg, xmag⟩ := x
  obtain ⟨yneg, ymag⟩ := y
  simp only [isZero, beq_eq_false_iff_ne, ne_eq] at hx hy
  have hparts : xneg = yneg ∧ xmag = ymag := by
    cases xneg <;> cases yneg <;>
      simp only [key, if_true, if_false, Bool.false_eq_true, reduceCtorEq, true_and, false_and]
        at h ⊢ <;> omega
  rw [hparts.1, hparts.2]

@[simp] theorem canonical_canonical (x : Binary64) : x.canonical.canonical = x.canonical := by
  cases hnan : x.isNaN with
  | true =>
    rw [canonical_of_isNaN hnan]
    decide
  | false =>
    cases hzero : x.isZero with
    | true =>
      rw [canonical_of_isZero hzero]
      decide
    | false => rw [canonical_of_ne hnan hzero, canonical_of_ne hnan hzero]

theorem same_iff {x y : Binary64} : x.same y = true ↔ x.canonical = y.canonical := by
  unfold same
  cases hx : x.isNaN with
  | true =>
    cases hy : y.isNaN with
    | true => simp [canonical_of_isNaN hx, canonical_of_isNaN hy]
    | false =>
      simp only [Bool.true_or, if_true, Bool.and_false, Bool.false_eq_true, false_iff]
      intro h
      have := congrArg isNaN h
      simp [hx, hy] at this
  | false =>
    cases hy : y.isNaN with
    | true =>
      simp only [Bool.or_true, if_true, Bool.false_and, Bool.false_eq_true, false_iff]
      intro h
      have := congrArg isNaN h
      simp [hx, hy] at this
    | false =>
      simp only [Bool.or_false, Bool.false_eq_true, if_false, beq_iff_eq]
      refine ⟨fun h => ?_, fun h => ?_⟩
      · cases hzero : x.isZero with
        | true =>
          have hy0 : y.isZero = true := by
            simp only [isZero, beq_iff_eq] at hzero ⊢
            simp only [key, hzero] at h
            split at h <;> split at h <;> omega
          rw [canonical_of_isZero hzero, canonical_of_isZero hy0]
        | false =>
          have hy0 : y.isZero = false := by
            simp only [isZero, beq_eq_false_iff_ne, ne_eq] at hzero ⊢
            intro hy0
            simp only [key, hy0] at h
            split at h <;> split at h <;> omega
          rw [canonical_of_ne hx hzero, canonical_of_ne hy hy0, eq_of_key_eq hzero hy0 h]
      · rw [← key_canonical hx, ← key_canonical hy, h]

end Binary64

namespace Value

def canonical : Value → Value
  | float x => float x.canonical
  | v => v

theorem same_iff {v w : Value} : v.same w = true ↔ v.canonical = w.canonical := by
  cases v <;> cases w <;> simp [same, canonical, Binary64.same_iff]

@[simp] theorem canonical_canonical (v : Value) : v.canonical.canonical = v.canonical := by
  cases v <;> simp [canonical, Binary64.canonical_canonical]

@[simp] theorem same_canonical (v w : Value) : v.canonical.same w.canonical = v.same w := by
  rw [Bool.eq_iff_iff, same_iff, same_iff, canonical_canonical, canonical_canonical]

@[simp] theorem isNull_canonical (v : Value) : v.canonical.isNull = v.isNull := by
  cases v <;> rfl

@[simp] theorem isFalsy_canonical (v : Value) : v.canonical.isFalsy = v.isFalsy := by
  cases v <;> simp [canonical, isFalsy]

/-- The map takes every literal to one that is equal to it. -/
def KeepsEqual (f : Value → Value) : Prop := ∀ v, (f v).canonical = v.canonical

theorem keepsEqual_id : KeepsEqual id := fun _ => rfl

theorem keepsEqual_canonical : KeepsEqual canonical := canonical_canonical

theorem KeepsEqual.same {f : Value → Value} (h : KeepsEqual f) (v w : Value) :
    (f v).same (f w) = v.same w := by
  rw [Bool.eq_iff_iff, same_iff, same_iff, h, h]

end Value

mutual

/-- The domain without its marks, each of its literals mapped. -/
def Domain.mapValues (f : Value → Value) : Domain → Domain
  | .constant v => .constant v
  | .negation inner => .negation (inner.mapValues f)
  | .nary k children _ => .nary k (Domain.mapAll f children) none
  | .condition leaf => .condition (leaf.mapValues f)

def Condition.mapValues (f : Value → Value) : Condition → Condition
  | ⟨path, operator, operand, _⟩ => ⟨path, operator, operand.mapValues f, none⟩

def Operand.mapValues (f : Value → Value) : Operand → Operand
  | .scalar value => .scalar (f value)
  | .set values => .set ⟨values.values.map f⟩
  | .domain inner => .domain (inner.mapValues f)
  | .query query => .query ⟨query.sql, query.params.map f⟩

def Domain.mapAll (f : Value → Value) : List Domain → List Domain
  | [] => []
  | d :: ds => d.mapValues f :: Domain.mapAll f ds

end

namespace Domain

def unmarked (d : Domain) : Domain := d.mapValues id

def canonical (d : Domain) : Domain := d.mapValues Value.canonical

end Domain

def Condition.canonical (c : Condition) : Condition := c.mapValues Value.canonical

def Operand.canonical (x : Operand) : Operand := x.mapValues Value.canonical

def ValueSet.canonical (s : ValueSet) : ValueSet := ⟨s.values.map Value.canonical⟩

namespace Domain

mutual

/-- How many nodes stand inside each other, those inside operands included. -/
def height : Domain → Nat
  | constant _ => 0
  | negation inner => height inner + 1
  | nary _ children _ => heights children + 1
  | condition ⟨_, _, .domain inner, _⟩ => height inner + 1
  | condition _ => 0

def heights : List Domain → Nat
  | [] => 0
  | d :: ds => max (height d) (heights ds)

end

theorem mapAll_eq_map (f : Value → Value) (ds : List Domain) :
    mapAll f ds = ds.map (mapValues f) := by
  induction ds with
  | nil => rfl
  | cons d ds ih => rw [mapAll, ih, List.map_cons]

@[simp] theorem mapValues_nary (f : Value → Value) (k : Connective) (ds : List Domain)
    (mark : Option Mark) :
    (nary k ds mark).mapValues f = nary k (ds.map (mapValues f)) none := by
  rw [mapValues, mapAll_eq_map]

theorem mapValues_mapValues (f g : Value → Value) (d : Domain) :
    (d.mapValues g).mapValues f = d.mapValues (f ∘ g) := by
  induction d using induct with
  | constant v => rfl
  | negation d ih => simp only [mapValues, ih]
  | nary k children mark ih =>
    simp only [mapValues, mapAll_eq_map, List.map_map]
    congr 1
    exact List.map_congr_left ih
  | condition c ih =>
    obtain ⟨path, operator, operand, mark⟩ := c
    cases operand with
    | domain inner => simp only [mapValues, Condition.mapValues, Operand.mapValues, ih inner rfl]
    | _ => simp [mapValues, Condition.mapValues, Operand.mapValues]

@[simp] theorem canonical_constant (v : Bool) : (constant v).canonical = constant v := rfl

@[simp] theorem canonical_negation (d : Domain) :
    (negation d).canonical = negation d.canonical := rfl

@[simp] theorem canonical_nary (k : Connective) (ds : List Domain) (mark : Option Mark) :
    (nary k ds mark).canonical = nary k (ds.map canonical) none := by
  simp only [canonical, mapValues, mapAll_eq_map]
  rfl

@[simp] theorem canonical_condition (c : Condition) :
    (condition c).canonical = condition c.canonical := rfl

@[simp] theorem canonical_leaf (path : String) (operator : Operator) (x : Operand) :
    (leaf path operator x).canonical = leaf path operator x.canonical := rfl

theorem canonical_unmarked (d : Domain) : d.unmarked.canonical = d.canonical :=
  mapValues_mapValues Value.canonical id d

theorem height_mapValues (f : Value → Value) (d : Domain) : (d.mapValues f).height = d.height := by
  induction d using induct with
  | constant v => rfl
  | negation d ih => rw [mapValues, height, height, ih]
  | nary k children mark ih =>
    rw [mapValues, height, height]
    congr 1
    induction children with
    | nil => rfl
    | cons d ds ihds =>
      rw [mapAll, heights, heights, ih d (List.mem_cons_self ..),
        ihds fun e he => ih e (List.mem_cons_of_mem _ he)]
  | condition c ih =>
    obtain ⟨path, operator, operand, mark⟩ := c
    cases operand with
    | domain inner =>
      simp only [mapValues, Condition.mapValues, Operand.mapValues, height, ih inner rfl]
    | _ => rfl

theorem height_lt_of_mem {d : Domain} {children : List Domain} (h : d ∈ children) :
    d.height < heights children + 1 := by
  induction children with
  | nil => cases h
  | cons e es ih =>
    rw [heights]
    obtain rfl | h := List.mem_cons.1 h
    · omega
    · have := ih h
      omega

end Domain

theorem ValueSet.sameValues_iff {vs ws : List Value} :
    sameValues vs ws = true ↔ vs.map Value.canonical = ws.map Value.canonical := by
  induction vs generalizing ws with
  | nil => cases ws <;> simp [sameValues]
  | cons v vs ih => cases ws <;> simp [sameValues, Value.same_iff, ih]

namespace ValueSet

theorem same_iff {s t : ValueSet} : s.same t = true ↔ s.canonical = t.canonical := by
  rw [same, sameValues_iff, canonical, canonical, mk.injEq]

@[simp] theorem canonical_canonical (s : ValueSet) : s.canonical.canonical = s.canonical := by
  simp [canonical, Function.comp_def]

@[simp] theorem isEmpty_canonical (s : ValueSet) : s.canonical.isEmpty = s.isEmpty := by
  simp [canonical, isEmpty]

@[simp] theorem contains_canonical (s : ValueSet) (v : Value) :
    s.canonical.contains v.canonical = s.contains v := by
  simp [canonical, contains, Function.comp_def]

def map (f : Value → Value) (s : ValueSet) : ValueSet := ⟨s.values.map f⟩

section Map

variable {f : Value → Value} (hf : Value.KeepsEqual f)

include hf

theorem contains_map (s : ValueSet) (v : Value) : (s.map f).contains (f v) = s.contains v := by
  simp [map, contains, Function.comp_def, hf.same]

theorem map_fresh (seen values : List Value) :
    (fresh seen values).map f = fresh (seen.map f) (values.map f) := by
  induction values generalizing seen with
  | nil => rfl
  | cons v vs ih =>
    have hseen : (seen.map f).any (·.same (f v)) = seen.any (·.same v) := by
      simp [Function.comp_def, hf.same]
    rw [List.map_cons, fresh, fresh, hseen]
    split
    · exact ih seen
    · rw [List.map_cons, ih (v :: seen), List.map_cons]

theorem map_ofList (values : List Value) : (ofList values).map f = ofList (values.map f) := by
  rw [ofList, map, map_fresh hf, List.map_nil, ofList]

theorem map_union (s t : ValueSet) : (s.union t).map f = (s.map f).union (t.map f) := by
  rw [union, map_ofList hf, List.map_append]
  rfl

theorem map_filter_contains (s t : ValueSet) (wanted : Bool) :
    (s.values.filter fun v => t.contains v == wanted).map f =
      (s.map f).values.filter fun v => (t.map f).contains v == wanted := by
  simp only [map, List.filter_map]
  congr 1
  refine List.filter_congr fun v _ => ?_
  have := contains_map hf t v
  simp_all [map]

theorem map_intersection (s t : ValueSet) :
    (s.intersection t).map f = (s.map f).intersection (t.map f) := by
  have h := map_filter_contains hf s t true
  simp only [beq_true] at h
  rw [intersection, map_ofList hf, intersection, h]

theorem map_difference (s t : ValueSet) :
    (s.difference t).map f = (s.map f).difference (t.map f) := by
  have h := map_filter_contains hf s t false
  simp only [beq_false] at h
  rw [difference, map_ofList hf, difference, h]

end Map

theorem canonical_fresh (seen values : List Value) :
    (fresh seen values).map Value.canonical =
      fresh (seen.map Value.canonical) (values.map Value.canonical) :=
  map_fresh Value.keepsEqual_canonical seen values

end ValueSet

namespace Operand

@[simp] theorem canonical_scalar (v : Value) : (scalar v).canonical = scalar v.canonical := rfl

@[simp] theorem canonical_set (s : ValueSet) : (set s).canonical = set s.canonical := rfl

@[simp] theorem canonical_domain (d : Domain) : (domain d).canonical = domain d.canonical := rfl

@[simp] theorem canonical_query (q : SubQuery) :
    (query q).canonical = query ⟨q.sql, q.params.map Value.canonical⟩ := rfl

theorem sameFlat_iff {x y : Operand} (hx : ∀ d, x ≠ domain d) :
    x.sameFlat y = true ↔ x.canonical = y.canonical := by
  cases x with
  | domain d => exact absurd rfl (hx d)
  | _ => cases y <;> simp [sameFlat, Value.same_iff, ValueSet.same_iff, ValueSet.sameValues_iff]

end Operand

namespace Condition

theorem mapValues_eq (f : Value → Value) (c : Condition) :
    c.mapValues f = ⟨c.path, c.operator, c.operand.mapValues f, none⟩ := by
  cases c
  rfl

theorem canonical_eq (c : Condition) :
    c.canonical = ⟨c.path, c.operator, c.operand.canonical, none⟩ := by
  cases c
  rfl

@[simp] theorem path_canonical (c : Condition) : c.canonical.path = c.path := by
  rw [canonical_eq]

@[simp] theorem operator_canonical (c : Condition) : c.canonical.operator = c.operator := by
  rw [canonical_eq]

@[simp] theorem operand_canonical (c : Condition) :
    c.canonical.operand = c.operand.canonical := by
  rw [canonical_eq]

@[simp] theorem isDotted_canonical (c : Condition) : c.canonical.isDotted = c.isDotted := by
  rw [canonical_eq]
  rfl

theorem canonical_eq_iff {c c' : Condition} : c.canonical = c'.canonical ↔
    c.path = c'.path ∧ c.operator = c'.operator ∧ c.operand.canonical = c'.operand.canonical := by
  simp [canonical_eq]

end Condition

namespace Domain

theorem sameAll_iff {as bs : List Domain}
    (h : ∀ a ∈ as, ∀ b, a.same b = true ↔ a.canonical = b.canonical) :
    sameAll as bs = true ↔ as.map canonical = bs.map canonical := by
  induction as generalizing bs with
  | nil => cases bs <;> simp [sameAll]
  | cons a as ih =>
    cases bs with
    | nil => simp [sameAll]
    | cons b bs =>
      rw [sameAll, Bool.and_eq_true, h a (List.mem_cons_self ..),
        ih fun e he => h e (List.mem_cons_of_mem _ he)]
      simp

theorem same_iff {a b : Domain} : a.same b = true ↔ a.canonical = b.canonical := by
  induction a using induct generalizing b with
  | constant v => cases b <;> simp [same]
  | negation a ih =>
    cases b with
    | negation b => simpa [same] using ih
    | _ => simp [same]
  | nary k as mark ih =>
    cases b with
    | nary l bs mark' =>
      have hall : sameAll as bs = true ↔ as.map canonical = bs.map canonical :=
        sameAll_iff fun a ha b => ih a ha
      simp [same, hall]
    | _ => simp [same]
  | condition c ih =>
    cases b with
    | condition c' =>
      rw [canonical_condition, canonical_condition, condition.injEq, Condition.canonical_eq_iff]
      obtain ⟨p, op, x, mark⟩ := c
      obtain ⟨q, op', y, mark'⟩ := c'
      cases x with
      | domain a =>
        cases y with
        | domain b => simp [same, ih a rfl, and_assoc]
        | _ => simp [same, Operand.sameFlat]
      | _ => simp [same, Operand.sameFlat_iff, and_assoc]
    | _ => simp [same]

@[simp] theorem canonical_canonical (d : Domain) : d.canonical.canonical = d.canonical := by
  rw [canonical, canonical, mapValues_mapValues]
  congr 1
  funext v
  exact v.canonical_canonical

@[simp] theorem same_canonical (a b : Domain) : a.canonical.same b.canonical = a.same b := by
  rw [Bool.eq_iff_iff, same_iff, same_iff, canonical_canonical, canonical_canonical]

theorem same_mapValues {f : Value → Value} (hf : Value.KeepsEqual f) (a b : Domain) :
    (a.mapValues f).same (b.mapValues f) = a.same b := by
  have hcanonical : ∀ d : Domain, (d.mapValues f).canonical = d.canonical := by
    intro d
    rw [canonical, mapValues_mapValues, canonical]
    congr 1
    funext v
    exact hf v
  rw [Bool.eq_iff_iff, same_iff, same_iff, hcanonical, hcanonical]

theorem sameAll_eq_true_iff {as bs : List Domain} :
    sameAll as bs = true ↔ as.map canonical = bs.map canonical :=
  sameAll_iff fun _ _ _ => same_iff

@[simp] theorem isTrue_canonical (d : Domain) : d.canonical.isTrue = d.isTrue := by
  cases d <;> rfl

@[simp] theorem isFalse_canonical (d : Domain) : d.canonical.isFalse = d.isFalse := by
  cases d <;> rfl

@[simp] theorem connective?_canonical (d : Domain) :
    d.canonical.connective? = d.connective? := by
  cases d <;> rfl

theorem canonical_withMark (d : Domain) (mark : Mark) :
    (d.withMark mark).canonical = d.canonical := by
  cases d with
  | nary k ds mark' => simp [withMark]
  | condition c => simp [withMark, Condition.withMark, Condition.canonical_eq]
  | _ => rfl

end Domain

namespace Connective

variable (k : Connective) (f : Value → Value)

theorem contribution?_mapValues (d : Domain) :
    k.contribution? (d.mapValues f) = (k.contribution? d).map (List.map (Domain.mapValues f)) := by
  cases d with
  | constant v =>
    simp only [Domain.mapValues, contribution?]
    split <;> rfl
  | nary l ds mark =>
    simp only [Domain.mapValues_nary, contribution?]
    split <;> simp
  | _ => rfl

theorem collect?_mapValues (ds : List Domain) :
    k.collect? (ds.map (Domain.mapValues f)) =
      (k.collect? ds).map (List.map (Domain.mapValues f)) := by
  induction ds with
  | nil => rfl
  | cons d ds ih =>
    rw [List.map_cons, collect?, collect?, contribution?_mapValues, ih]
    cases k.contribution? d with
    | none => rfl
    | some new => cases k.collect? ds <;> simp

theorem mapValues_node (ds : List Domain) :
    (k.node ds).mapValues f = k.node (ds.map (Domain.mapValues f)) := by
  match ds with
  | [] => rfl
  | [d] => rfl
  | d :: e :: ds => simp [node]

theorem mapValues_apply (ds : List Domain) :
    (k.apply ds).mapValues f = k.apply (ds.map (Domain.mapValues f)) := by
  rw [apply, apply, collect?_mapValues]
  cases k.collect? ds with
  | none => rfl
  | some children => exact k.mapValues_node f children

end Connective

end QueryDomain
