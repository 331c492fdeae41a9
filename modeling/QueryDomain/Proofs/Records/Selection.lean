import QueryDomain.Proofs.Records.MergedRuns

/-! What a domain says of a record, and which records it selects. -/
namespace QueryDomain

open List Domain

/-- The domain that a pass puts in place of a condition: the condition itself, if it is kept. -/
def Pass.rewriting (pass : Pass) (c : Condition) (ctx : Context) : Except Error Domain :=
  (pass c ctx).result.map fun d => d.getD (.condition c)

theorem Json.asInt64?_eq_some {json : Json} {x : Int} :
    json.asInt64? = some x ↔ json = .integer x ∧ isInt64 x = true := by
  cases json with
  | integer n =>
    rw [asInt64?, integer.injEq]
    split
    · rename_i hn
      rw [Option.some.injEq]
      exact ⟨fun h => ⟨h, h ▸ hn⟩, And.left⟩
    · rename_i hn
      exact iff_of_false (Option.some_ne_none _ ·.symm) fun h => hn (h.1 ▸ h.2)
  | _ => simp [asInt64?]

theorem Record.isInt64_of_id? {record : Record} {x : Int} (h : Record.id? record = some x) :
    Json.isInt64 x = true := by
  obtain ⟨json, -, hjson⟩ := Option.bind_eq_some_iff.1 h
  exact (Json.asInt64?_eq_some.1 hjson).2

theorem Field.valueOf_id {field : Field} {record : Record} {x : Int}
    (hname : field.name = Entity.idName) (h : Record.id? record = some x) :
    field.valueOf (Record.get? record field.name) = .int x := by
  obtain ⟨json, hjson, hint⟩ := Option.bind_eq_some_iff.1 h
  obtain ⟨rfl, hx⟩ := Json.asInt64?_eq_some.1 hint
  rw [hname, hjson]
  cases htype : field.type <;> simp [Field.valueOf, htype, Value.ofJson?, hx]

namespace Catalog

variable {catalog : Catalog} {entity : Entity} {record : Record} {d : Domain} {P Q : Prop}

/-- Evaluation succeeds, and comes to true exactly if the statement is true. -/
def Tells (catalog : Catalog) (d : Domain) (entity : Entity) (record : Record) (P : Prop) : Prop :=
  ∃ b, catalog.holds d entity record = .ok b ∧ (b = true ↔ P)

namespace Tells

theorem congr (h : catalog.Tells d entity record P) (hPQ : P ↔ Q) :
    catalog.Tells d entity record Q := by
  obtain ⟨b, hb, hP⟩ := h
  exact ⟨b, hb, hP.trans hPQ⟩

theorem constant (b : Bool) : catalog.Tells (.constant b) entity record (b = true) :=
  ⟨b, rfl, Iff.rfl⟩

theorem evaluates (h : catalog.Tells d entity record P) : catalog.Evaluates d entity record := by
  obtain ⟨b, hb, -⟩ := h
  exact ⟨b, hb⟩

theorem met_iff (h : catalog.Tells d entity record P) :
    catalog.holds d entity record = .ok true ↔ P := by
  obtain ⟨b, hb, hP⟩ := h
  rw [hb, Except.ok.injEq, hP]

end Tells

theorem anyRecord_congr {f g : Record → Except Error Bool}
    (h : ∀ r b, f r = .ok b ↔ g r = .ok b) {records : List Record} {b : Bool} :
    anyRecord f records = .ok b ↔ anyRecord g records = .ok b := by
  induction records generalizing b with
  | nil => rfl
  | cons r rs ih =>
    rw [anyRecord, anyRecord, Except.bind_eq_ok, Except.bind_eq_ok]
    refine exists_congr fun found => and_congr (h r found) ?_
    cases found with
    | true => rfl
    | false => exact ih

theorem holds_canonical {b : Bool} :
    catalog.holds d.canonical entity record = .ok b ↔ catalog.holds d entity record = .ok b := by
  induction d using Domain.induct generalizing entity record b with
  | constant v => rfl
  | negation d ih =>
    rw [canonical_negation, holds, holds, Except.bind_eq_ok, Except.bind_eq_ok]
    simp only [ih]
  | nary k children mark ih =>
    rw [canonical_nary]
    induction children generalizing b with
    | nil => rw [map_nil, holds_nary_nil, holds_nary_nil]
    | cons d ds ihds =>
      rw [forall_mem_cons] at ih
      rw [map_cons, holds_nary_cons, holds_nary_cons]
      refine exists_congr fun found => and_congr ih.1 ?_
      split
      · exact ihds ih.2
      · rfl
  | condition c ih =>
    rw [canonical_condition, holds_condition, holds_condition]
    have hpath : c.canonical.path = c.path := Condition.path_canonical c
    have hoperator : c.canonical.operator = c.operator := Condition.operator_canonical c
    have hoperand : c.canonical.operand = c.operand.canonical := Condition.operand_canonical c
    cases hop : c.operator.isTraversal with
    | false =>
      have hvalue : ∀ field, c.canonical.valueOn field record = c.valueOn field record := by
        intro field
        unfold Condition.valueOn Condition.rest?
        rw [hpath]
      rw [conditionHolds_of_test (by rw [hoperator, hop]), conditionHolds_of_test hop, hpath]
      simp only [hvalue, Condition.test_canonical]
    | true =>
      cases hinner : c.operand with
      | domain inner =>
        rw [hoperand, hinner, Operand.canonical_domain]
        refine (conditionHolds_of_traversal (by rw [hoperator, hop])).trans
          (.trans ?_ (conditionHolds_of_traversal hop).symm)
        rw [hpath, hoperator]
        refine exists_congr fun target => exists_congr fun records => exists_congr fun found =>
          and_congr_right fun _ => and_congr_left fun _ => ?_
        exact anyRecord_congr fun r b => ih inner hinner
      | _ =>
        have hnone : catalog.conditionHolds c none entity record ≠ .ok b :=
          conditionHolds_none_of_traversal hop
        have hnone' : catalog.conditionHolds c.canonical none entity record ≠ .ok b :=
          conditionHolds_none_of_traversal (by rw [hoperator, hop])
        rw [hoperand, hinner]
        exact ⟨fun h => absurd h hnone', fun h => absurd h hnone⟩

theorem Tells.of_canonical {d' : Domain} (h : catalog.Tells d entity record P)
    (hsame : d.canonical = d'.canonical) : catalog.Tells d' entity record P := by
  obtain ⟨b, hb, hP⟩ := h
  exact ⟨b, holds_canonical.1 (hsame ▸ holds_canonical.2 hb), hP⟩

section Leaves

variable {c : Condition} {field : Field} {value : Value} (hplain : c.isDotted = false)
  (hfield : entity.field? c.head = some field)
  (hvalue : field.valueOf (Record.get? record field.name) = value)

include hplain hfield hvalue

theorem tells_test {b : Bool} (hop : c.operator.isTraversal = false) (h : c.test value = .ok b) :
    catalog.Tells (.condition c) entity record (b = true) := by
  refine ⟨b, ?_, Iff.rfl⟩
  rw [holds_condition]
  refine (conditionHolds_of_test hop _).2 ⟨field, hfield, ?_⟩
  rw [Condition.valueOn, Condition.rest?_eq_none.2 hplain, hvalue, h]

theorem tells_membership (hop : c.operator.isMembership = true) {members : ValueSet}
    (hoperand : c.operand = .set members) :
    catalog.Tells (.condition c) entity record (members.holds value = true ↔ c.operator = .mem) := by
  have htest : c.operator.isTraversal = false := by
    cases hoperator : c.operator <;> rw [hoperator] at hop <;> cases hop <;> rfl
  refine (tells_test hplain hfield hvalue htest (Condition.test_membership hop hoperand value)).congr ?_
  cases hoperator : c.operator <;> rw [hoperator] at hop <;> cases hop <;>
    cases members.holds value <;> decide

theorem tells_pattern (hop : c.operator.isPattern = true) {pattern : String}
    (hoperand : c.operand = .scalar (.text pattern)) :
    catalog.Tells (.condition c) entity record (Pattern.test c.operator pattern value = true) := by
  have htest : c.operator.isTraversal = false := by
    cases hoperator : c.operator <;> rw [hoperator] at hop <;> cases hop <;> rfl
  exact tells_test hplain hfield hvalue htest (Condition.test_pattern hop hoperand value)

end Leaves

section Joined

variable {ds : List Domain} (h : ∀ d ∈ ds, catalog.Evaluates d entity record)

include h

theorem value_of_evaluates (hd : d ∈ ds) : d.value (catalog.valuation entity record) = true ↔
    catalog.holds d entity record = .ok true := by
  rw [(h d hd).holds_eq, ← truth_eq, Except.ok.injEq]

theorem tells_or : catalog.Tells (Domain.or ds) entity record
    (∃ d ∈ ds, catalog.holds d entity record = .ok true) := by
  refine ⟨_, (evaluates_apply h).holds_eq, ?_⟩
  rw [truth_eq, Connective.value_apply, Connective.valueAll_or, any_eq_true]
  exact exists_congr fun d => and_congr_right fun hd => value_of_evaluates h hd

theorem tells_and : catalog.Tells (Domain.and ds) entity record
    (∀ d ∈ ds, catalog.holds d entity record = .ok true) := by
  refine ⟨_, (evaluates_apply h).holds_eq, ?_⟩
  rw [truth_eq, Connective.value_apply, Connective.valueAll_and, all_eq_true]
  exact forall₂_congr fun d hd => value_of_evaluates h hd

end Joined

/-- The records are selected of which the domain tells that they are to be. -/
theorem matching_of_tells {records : List Record} {S : Record → Prop} [DecidablePred S]
    (h : ∀ r ∈ records, ∀ x, Record.id? r = some x → catalog.Tells d entity r (S r)) :
    catalog.matching entity d records = .ok ((records.filter fun r => S r).filterMap Record.id?) := by
  induction records with
  | nil => rfl
  | cons r rs ih =>
    rw [forall_mem_cons] at h
    rw [matching, ih h.2, filter_cons]
    cases hid : Record.id? r with
    | none =>
      dsimp only
      split
      · rw [filterMap_cons_none hid]
      · rfl
    | some x =>
      obtain ⟨b, hb, hS⟩ := h.1 x hid
      rw [hb]
      cases b with
      | true => rw [if_pos (by simpa using hS), filterMap_cons_some hid]; rfl
      | false => rw [if_neg (by simpa using hS)]; rfl

theorem matching_of_tells_id {records : List Record} {S : Int → Prop} [DecidablePred S]
    (h : ∀ r ∈ records, ∀ x, Record.id? r = some x → catalog.Tells d entity r (S x)) :
    catalog.matching entity d records = .ok ((records.filterMap Record.id?).filter fun x => S x) := by
  rw [matching_of_tells (S := fun r => (Record.id? r).any fun x => S x) fun r hr x hid =>
    (h r hr x hid).congr (by simp [hid]), filter_filterMap, filterMap_filter]
  refine congrArg Except.ok (filterMap_congr fun r _ => ?_)
  cases hid : Record.id? r <;> simp [Option.filter]

end Catalog

end QueryDomain
