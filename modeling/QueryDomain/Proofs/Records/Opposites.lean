import QueryDomain.Proofs.Records.Complement

/-! A domain and its complement, evaluated as they are on one record. Evaluation may end before it
comes to a condition that fails, so a result stands whatever truth values are given to the conditions
that fail; given opposite ones to a condition and its inverse, it turns into its opposite. -/
namespace QueryDomain

open List Domain

def Operator.isOther : Operator → Bool
  | .notAny | .notMem | .notEqual | .lessOrEqual | .greaterOrEqual | .notLike | .notIlike => true
  | _ => false

theorem Operator.isOther_inverse {op inverse : Operator} (h : op.inverse? = some inverse) :
    inverse.isOther = !op.isOther := by
  cases op <;> cases h <;> rfl

namespace Condition

variable {c : Condition} {op : Operator} {value : Value} {b : Bool}

theorem test_inverse (h : c.operator.inverse? = some op)
    (hordered : c.operator.isOrdering = true → ∀ literal, c.operand = .scalar literal →
      (value.compare? literal).isSome = true) :
    (c.withOperator op).test value = .ok b ↔ c.test value = .ok (!b) := by
  obtain ⟨path, operator, operand, mark⟩ := c
  dsimp only [withOperator] at h hordered ⊢
  cases operand with
  | set values => cases operator <;> cases h <;> cases b <;> simp [test]
  | scalar literal =>
    have horder : operator.isOrdering = true →
        ordered op (value.compare? literal) = !ordered operator (value.compare? literal) := by
      intro hop
      obtain ⟨o, ho⟩ := Option.isSome_iff_exists.1 (hordered hop literal rfl)
      rw [ho, ordered_inverse h hop o]
    have hpattern : operator.isPattern = true → ∀ pattern,
        Pattern.test op pattern value = !Pattern.test operator pattern value :=
      fun hop pattern => Pattern.test_inverse h hop pattern value
    cases operator <;> cases h <;> cases b <;>
      simp_all [test, Operator.isOrdering, Operator.isPattern, Operator.family, Operator.positive]
    all_goals cases literal <;> simp_all
  | _ => cases operator <;> cases h <;> simp [test]

end Condition

namespace Catalog

variable {catalog : Catalog} {entity : Entity} {record : Record} {c : Condition} {op : Operator}
  {v : Condition → Bool} {d : Domain} {b : Bool}

theorem holds_inverse (h : c.operator.inverse? = some op)
    (hordered : c.operator.isOrdering = true → ∀ field literal,
      entity.field? c.head = some field → c.operand = .scalar literal →
        ((c.valueOn field record).compare? literal).isSome = true) :
    catalog.holds (.condition (c.withOperator op)) entity record = .ok b ↔
      catalog.holds (.condition c) entity record = .ok (!b) := by
  obtain ⟨-, -, -, htraversal⟩ := Operator.kinds_of_inverse? h
  rw [holds_condition, holds_condition]
  cases hop : c.operator.isTraversal with
  | false =>
    rw [conditionHolds_of_test (htraversal.trans hop), conditionHolds_of_test hop]
    refine exists_congr fun field => and_congr_right fun hfield => ?_
    exact Condition.test_inverse h fun hop literal hoperand => hordered hop field literal hfield hoperand
  | true =>
    cases hinner : c.operand.inner? with
    | none =>
      have hinner' : (c.withOperator op).operand.inner? = none := hinner
      rw [hinner']
      exact iff_of_false (conditionHolds_none_of_traversal (htraversal.trans hop))
        (conditionHolds_none_of_traversal hop)
    | some inner =>
      have hinner' : (c.withOperator op).operand.inner? = some inner := hinner
      rw [hinner', Option.map_some, conditionHolds_of_traversal (htraversal.trans hop),
        conditionHolds_of_traversal hop]
      have hopposite : ∀ found : Bool, (found == (op == .any)) = b ↔
          (found == (c.operator == .any)) = !b := by
        cases hoperator : c.operator <;> rw [hoperator] at hop h <;> cases hop <;> cases h <;>
          cases b <;> decide
      exact exists_congr fun target => exists_congr fun records => exists_congr fun found =>
        and_congr_right fun _ => and_congr_right fun _ => hopposite found

/-- The valuation gives every condition that can be evaluated the value that it comes to. -/
def Extends (catalog : Catalog) (entity : Entity) (record : Record) (v : Condition → Bool) : Prop :=
  ∀ c b, catalog.holds (.condition c) entity record = .ok b → v c = b

/-- A result is the value under every such valuation: what fails is not reached. -/
theorem value_of_holds (hv : catalog.Extends entity record v)
    (h : catalog.holds d entity record = .ok b) : d.value v = b := by
  induction d using Domain.induct generalizing b with
  | constant value =>
    rw [holds] at h
    cases h
    rfl
  | negation d ih =>
    rw [holds, Except.bind_eq_ok] at h
    obtain ⟨b', hb', h⟩ := h
    cases h
    rw [value, ih hb']
  | nary k children mark ih =>
    rw [value]
    induction children generalizing b with
    | nil =>
      rw [holds_nary_nil] at h
      cases h
      rfl
    | cons d ds ihds =>
      rw [forall_mem_cons] at ih
      obtain ⟨found, hfound, h⟩ := holds_nary_cons.1 h
      rw [valueAll, ih.1 hfound]
      split at h
      · rename_i hidentity
        rw [hidentity, ihds ih.2 h, Connective.identity_join]
      · rename_i hdecides
        rw [k.eq_absorbing_of_ne hdecides, Connective.absorbing_join, h]
  | condition c _ => exact hv c b h

/-- What conditions come to, and opposite values for a condition that fails and its inverse. -/
def outcome (catalog : Catalog) (entity : Entity) (record : Record) (c : Condition) : Bool :=
  match catalog.holds (.condition c) entity record with
  | .ok b => b
  | .error _ => c.operator.isOther

theorem extends_outcome : catalog.Extends entity record (catalog.outcome entity record) := by
  intro c b h
  rw [outcome, h]

theorem outcome_inverse (h : c.operator.inverse? = some op)
    (hordered : c.operator.isOrdering = true → ∀ field literal,
      entity.field? c.head = some field → c.operand = .scalar literal →
        ((c.valueOn field record).compare? literal).isSome = true) :
    catalog.outcome entity record (c.withOperator op) = !catalog.outcome entity record c := by
  have hopposite : ∀ b, catalog.holds (.condition (c.withOperator op)) entity record = .ok b ↔
      catalog.holds (.condition c) entity record = .ok (!b) := fun b => holds_inverse h hordered
  cases hc : catalog.holds (.condition c) entity record with
  | ok b =>
    have hinverse := (hopposite !b).2 (by rw [hc, Bool.not_not])
    rw [outcome, outcome, hc, hinverse]
  | error e =>
    cases hinverse : catalog.holds (.condition (c.withOperator op)) entity record with
    | ok b =>
      rw [(hopposite b).1 hinverse] at hc
      cases hc
    | error e' =>
      rw [outcome, outcome, hc, hinverse]
      exact Operator.isOther_inverse h

def Compares (d : Domain) (entity : Entity) (record : Record) : Prop :=
  ∀ c ∈ d.leaves, c.isDotted = false → c.operator.isOrdering = true → ∀ field literal,
    entity.field? c.head = some field → c.operand = .scalar literal →
      ((c.valueOn field record).compare? literal).isSome = true

/-- Where a domain and its complement can both be evaluated, they come to opposite values. -/
theorem holds_negate (hcompares : Compares d entity record) {x y : Bool}
    (hx : catalog.holds d entity record = .ok x)
    (hy : catalog.holds d.negate entity record = .ok y) : y = !x := by
  rw [← value_of_holds extends_outcome hx, ← value_of_holds extends_outcome hy]
  refine value_negate_of_leaves fun c hc op hop hdotted _ => ?_
  exact outcome_inverse hop fun hordering => hcompares c hc hdotted hordering

/-- Lines above size 5, or those of size 3 whose note does not begin with a letter. A color, which no
line has, is asked for by neither the domain nor its complement. -/
theorem holds_negate_line :
    let entity : Entity := { name := "line", fields := [{ name := "size", type := .integer },
      { name := "note", type := .char }] }
    let catalog : Catalog := { entities := [entity] }
    let record : Record := [("id", .integer 1), ("size", .integer 3)]
    let d : Domain := .nary .or [.leaf "size" .greater (.scalar (.int 5)),
      .nary .and [.negation (.leaf "note" .eqLike (.scalar (.text "a%"))),
        .nary .or [.leaf "size" .mem (.set ⟨[.int 3]⟩), .leaf "color" .mem (.set ⟨[.int 1]⟩)] none]
        none] none
    Compares d entity record ∧ catalog.holds d entity record = .ok true ∧
      catalog.holds d.negate entity record = .ok false ∧ false = !true := by
  intro entity catalog record d
  have hx : catalog.holds d entity record = .ok true := rfl
  have hy : catalog.holds d.negate entity record = .ok false := rfl
  have hcompares : Compares d entity record := by
    intro c hc _ hordering field literal hfield hoperand
    have hleaves : d.leaves = [.mk "size" .greater (.scalar (.int 5)) none,
      .mk "note" .eqLike (.scalar (.text "a%")) none, .mk "size" .mem (.set ⟨[.int 3]⟩) none,
      .mk "color" .mem (.set ⟨[.int 1]⟩) none] := rfl
    rw [hleaves] at hc
    obtain rfl | rfl | rfl | rfl : _ ∨ _ ∨ _ ∨ _ := by simpa using hc
    · cases hoperand
      have hsize : entity.field? "size" = some { name := "size", type := .integer } := by cbv
      rw [← Option.some.inj (hsize.symm.trans hfield)]
      cbv
    all_goals cases hordering
  exact ⟨hcompares, hx, hy, holds_negate hcompares hx hy⟩

end Catalog

end QueryDomain
