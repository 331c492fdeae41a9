import QueryDomain.Proofs.Calendar.Order
import QueryDomain.Proofs.Domain.Sets
import QueryDomain.Proofs.Domain.Valuation
import QueryDomain.Proofs.Schema.Paths
import QueryDomain.Records.Matching

/-! The truth value of a domain on a record. Where evaluation succeeds it comes to this value; a
condition that cannot be evaluated counts as false. Two conditions that are `same` have one truth
value, and without floats two values are equal exactly if they are `same`. -/
namespace QueryDomain

theorem Binary64.compare?_canonical (x y : Binary64) : x.compare? y.canonical = x.compare? y := by
  unfold Binary64.compare?
  rw [Binary64.isNaN_canonical]
  split
  · rfl
  · rename_i hnan
    rw [Bool.or_eq_true, not_or, Bool.not_eq_true, Bool.not_eq_true] at hnan
    rw [Binary64.key_canonical hnan.2]

namespace Value

def isFloat : Value → Bool
  | .float _ => true
  | _ => false

theorem compare?_canonical (v w : Value) : v.compare? w.canonical = v.compare? w := by
  cases w with
  | float y => cases v <;> simp [canonical, compare?, Binary64.compare?_canonical]
  | _ => rfl

theorem equals_canonical (v w : Value) : v.equals w.canonical = v.equals w := by
  rw [equals, equals, isNull_canonical, compare?_canonical]

theorem equals_congr (x : Value) {v w : Value} (h : v.same w = true) : x.equals v = x.equals w := by
  rw [← equals_canonical, same_iff.1 h, equals_canonical]

/-- Without floats, values are equal exactly if they are `same`. -/
theorem equals_eq_same {v w : Value} (hv : v.isFloat = false) (hw : w.isFloat = false) :
    v.equals w = w.same v := by
  cases v with
  | float x => cases hv
  | bool a =>
    cases w with
    | bool b => cases a <;> cases b <;> rfl
    | _ => rfl
  | int a =>
    cases w with
    | int b =>
      rw [Bool.eq_iff_iff]
      simp only [equals, isNull, compare?, same, Bool.and_self, Bool.false_or, beq_iff_eq,
        Option.some.injEq, Std.compare_eq_iff_eq]
      exact eq_comm
    | float y => cases hw
    | _ => rfl
  | text a =>
    cases w with
    | text b =>
      rw [Bool.eq_iff_iff]
      simp only [equals, isNull, compare?, same, Bool.and_self, Bool.false_or, beq_iff_eq,
        Option.some.injEq, Std.compare_eq_iff_eq]
      exact eq_comm
    | _ => rfl
  | date a =>
    cases w with
    | date b =>
      rw [Bool.eq_iff_iff]
      simp only [equals, isNull, compare?, same, Bool.and_self, Bool.false_or, beq_iff_eq,
        Option.some.injEq, Std.compare_eq_iff_eq]
      exact ⟨fun h => (Date.key_injective h).symm, fun h => by rw [h]⟩
    | _ => rfl
  | timestamp a =>
    cases w with
    | timestamp b =>
      rw [Bool.eq_iff_iff]
      simp only [equals, isNull, compare?, same, Bool.and_self, Bool.false_or, beq_iff_eq,
        Option.some.injEq, Std.compare_eq_iff_eq]
      exact ⟨fun h => (Timestamp.key_injective h).symm, fun h => by rw [h]⟩
    | _ => rfl
  | null => cases w <;> rfl

end Value

def isMet : Except Error Bool → Bool
  | .ok b => b
  | .error _ => false

theorem isMet_eq_true {x : Except Error Bool} : isMet x = true ↔ x = .ok true := by
  cases x <;> simp [isMet]

theorem ValueSet.holds_canonical (s : ValueSet) (v : Value) :
    s.canonical.holds v = s.holds v := by
  simp only [holds, canonical, List.any_map, Function.comp_def, Value.equals_canonical]

theorem Condition.test_canonical {c : Condition} {v : Value} {b : Bool} :
    c.canonical.test v = .ok b ↔ c.test v = .ok b := by
  obtain ⟨path, operator, operand, mark⟩ := c
  rw [canonical_eq]
  unfold test
  cases operand with
  | set values => cases operator <;> simp [ValueSet.holds_canonical]
  | scalar w =>
    rw [Operand.canonical_scalar]
    cases operator <;>
      simp only [Value.equals_canonical, Value.compare?_canonical, Operator.isOrdering,
        Bool.false_eq_true, if_false, if_true]
    all_goals cases w <;>
      simp [Value.canonical, Operator.isPattern, Operator.family, Operator.positive]
  | _ => simp

theorem Condition.isMet_test_canonical (c : Condition) (v : Value) :
    isMet (c.canonical.test v) = isMet (c.test v) := by
  rw [Bool.eq_iff_iff, isMet_eq_true, isMet_eq_true, test_canonical]

namespace Condition

variable {c : Condition}

theorem test_membership (hop : c.operator.isMembership = true) {values : ValueSet}
    (hoperand : c.operand = .set values) (v : Value) :
    c.test v = .ok (values.holds v != (c.operator == .notMem)) := by
  unfold test
  rw [hoperand]
  cases hoperator : c.operator <;> rw [hoperator] at hop <;> first
    | contradiction
    | (dsimp only; cases values.holds v <;> rfl)

theorem test_pattern (hop : c.operator.isPattern = true) {pattern : String}
    (hoperand : c.operand = .scalar (.text pattern)) (v : Value) :
    c.test v = .ok (Pattern.test c.operator pattern v) := by
  unfold test
  rw [hoperand]
  cases hoperator : c.operator <;> rw [hoperator] at hop <;> first
    | contradiction
    | rfl

theorem test_ordering (hop : c.operator.isOrdering = true) {expected : Value}
    (hoperand : c.operand = .scalar expected) (v : Value) :
    c.test v = .ok (ordered c.operator (v.compare? expected)) := by
  unfold test
  rw [hoperand]
  cases hoperator : c.operator <;> rw [hoperator] at hop <;> first
    | contradiction
    | rfl

end Condition

def Operand.inner? : Operand → Option Domain
  | domain inner => some inner
  | _ => none

namespace Catalog

def conditionTruth (catalog : Catalog) (c : Condition) (inner : Option (Entity → Record → Bool))
    (entity : Entity) (record : Record) : Bool :=
  isMet (catalog.conditionHolds c (inner.map fun truth e r => .ok (truth e r)) entity record)

mutual

/-- The truth value of a domain on a record of the entity. -/
def truth (catalog : Catalog) : Domain → Entity → Record → Bool
  | .constant value, _, _ => value
  | .negation inner, entity, record => !truth catalog inner entity record
  | .nary k children _, entity, record => truthAll catalog k children entity record
  | .condition ⟨path, operator, .domain inner, mark⟩, entity, record =>
    catalog.conditionTruth ⟨path, operator, .domain inner, mark⟩
      (some fun e r => truth catalog inner e r) entity record
  | .condition c, entity, record => catalog.conditionTruth c none entity record

def truthAll (catalog : Catalog) (k : Connective) : List Domain → Entity → Record → Bool
  | [], _, _ => k.identity
  | d :: ds, entity, record =>
    k.join (truth catalog d entity record) (truthAll catalog k ds entity record)

end

variable {catalog : Catalog} {entity : Entity} {record : Record} {c : Condition}

theorem truth_condition (c : Condition) : catalog.truth (.condition c) entity record =
    catalog.conditionTruth c (c.operand.inner?.map catalog.truth) entity record := by
  obtain ⟨path, operator, operand, mark⟩ := c
  cases operand <;> rw [truth] <;> first
    | rfl
    | nofun

theorem holds_condition (c : Condition) : catalog.holds (.condition c) entity record =
    catalog.conditionHolds c (c.operand.inner?.map catalog.holds) entity record := by
  obtain ⟨path, operator, operand, mark⟩ := c
  cases operand <;> rw [holds] <;> first
    | rfl
    | nofun

/-- The valuation of conditions that a record of the entity gives. -/
def valuation (catalog : Catalog) (entity : Entity) (record : Record) (c : Condition) : Bool :=
  catalog.truth (.condition c) entity record

theorem truth_eq (d : Domain) :
    catalog.truth d entity record = d.value (catalog.valuation entity record) := by
  induction d using Domain.induct with
  | constant b => rw [truth, Domain.value]
  | negation d ih => rw [truth, Domain.value, ih]
  | nary k children mark ih =>
    rw [truth, Domain.value]
    clear mark
    induction children with
    | nil => rw [truthAll, Domain.valueAll]
    | cons d ds ihds =>
      rw [truthAll, Domain.valueAll, ih d (List.mem_cons_self ..),
        ihds fun e he => ih e (List.mem_cons_of_mem _ he)]
  | condition c _ => rw [Domain.value, valuation]

def linked (catalog : Catalog) (field : Field) (target : Entity) (record : Record) : List Record :=
  match catalog.related ⟨field.name, .any, .domain (.constant true), none⟩ field target record with
  | .ok records => records
  | .error _ => []

theorem related_eq_ok {field : Field} {target : Entity} {records : List Record} :
    catalog.related c field target record = .ok records ↔
      field.isRelational = true ∧ catalog.linked field target record = records := by
  unfold linked related Field.isRelational
  cases field.type <;> simp [FieldType.isRelational]
  split <;> simp

theorem linked_many2one {field : Field} (htype : field.type = .many2one) (target : Entity) :
    catalog.linked field target record =
      (((Record.get? record field.name).bind Json.asInt64?).bind
        (catalog.record? target.name)).toList := by
  unfold linked related
  rw [htype]

/-- The entity that a traversal leads to from a record, and the records of it. -/
def reached (catalog : Catalog) (path : String) (entity : Entity) (record : Record) :
    Option (Entity × List Record) :=
  (entity.field? (Text.cut '.' path).1).bind fun field =>
    if field.name = Entity.idName then some (entity, [record])
    else if field.isRelational then
      (field.comodel.bind catalog.entity?).map fun target =>
        (target, catalog.linked field target record)
    else none

theorem anyRecord_singleton (test : Record → Except Error Bool) :
    anyRecord test [record] = test record := by
  rw [anyRecord]
  cases test record with
  | error e => rfl
  | ok found => cases found <;> rfl

theorem anyRelated_eq_ok {f : Entity → Record → Except Error Bool} {field : Field} {found : Bool}
    (hfield : entity.field? (Text.cut '.' c.path).1 = some field) :
    catalog.anyRelated c (some f) field entity record = .ok found ↔
      ∃ target records, catalog.reached c.path entity record = some (target, records) ∧
        anyRecord (f target) records = .ok found := by
  unfold anyRelated reached
  rw [hfield, Option.bind_some]
  dsimp only
  split
  · simp only [Option.some.injEq, Prod.mk.injEq, and_assoc, exists_and_left, exists_eq_left',
      anyRecord_singleton]
  · simp only [Except.bind_eq_ok, comodel_eq_ok, related_eq_ok]
    cases hrelational : field.isRelational with
    | false => simp
    | true =>
      cases field.comodel.bind catalog.entity? with
      | none => simp
      | some target => simp

theorem conditionHolds_of_traversal (hop : c.operator.isTraversal = true)
    {f : Entity → Record → Except Error Bool} {b : Bool} :
    catalog.conditionHolds c (some f) entity record = .ok b ↔
      ∃ target records found, catalog.reached c.path entity record = some (target, records) ∧
        anyRecord (f target) records = .ok found ∧ (found == (c.operator == .any)) = b := by
  unfold conditionHolds
  simp only [Except.bind_eq_ok, Entity.conditionField_eq_ok, hop, if_true]
  constructor
  · rintro ⟨field, hfield, found, hfound, hb⟩
    obtain ⟨target, records, hreached, hany⟩ := (anyRelated_eq_ok hfield).1 hfound
    cases hb
    exact ⟨target, records, found, hreached, hany, rfl⟩
  · rintro ⟨target, records, found, hreached, hany, rfl⟩
    have hfield : ∃ field, entity.field? (Text.cut '.' c.path).1 = some field := by
      unfold reached at hreached
      obtain ⟨field, hfield, -⟩ := Option.bind_eq_some_iff.1 hreached
      exact ⟨field, hfield⟩
    obtain ⟨field, hfield⟩ := hfield
    exact ⟨field, hfield, found,
      (anyRelated_eq_ok hfield).2 ⟨target, records, hreached, hany⟩, rfl⟩

theorem conditionHolds_none_of_traversal (hop : c.operator.isTraversal = true) {b : Bool} :
    catalog.conditionHolds c none entity record ≠ .ok b := by
  unfold conditionHolds
  simp only [ne_eq, Except.bind_eq_ok, hop, if_true, anyRelated, reduceCtorEq, false_and,
    exists_false, and_false, not_false_eq_true]

theorem conditionHolds_of_test (hop : c.operator.isTraversal = false)
    (inner : Option (Entity → Record → Except Error Bool)) {b : Bool} :
    catalog.conditionHolds c inner entity record = .ok b ↔
      ∃ field, entity.field? (Text.cut '.' c.path).1 = some field ∧
        c.test (c.valueOn field record) = .ok b := by
  unfold conditionHolds
  simp only [Except.bind_eq_ok, Entity.conditionField_eq_ok, hop, Bool.false_eq_true, if_false]
  rfl

theorem anyRecord_eq_ok {test : Record → Except Error Bool} {truth : Record → Bool}
    {records : List Record} {b : Bool}
    (h : ∀ r ∈ records, ∀ b, test r = .ok b → truth r = b)
    (hany : anyRecord test records = .ok b) : records.any truth = b := by
  induction records with
  | nil =>
    cases hany
    rfl
  | cons r rs ih =>
    rw [List.forall_mem_cons] at h
    rw [anyRecord, Except.bind_eq_ok] at hany
    obtain ⟨found, hfound, hany⟩ := hany
    rw [List.any_cons, h.1 found hfound]
    cases found with
    | true =>
      cases hany
      rfl
    | false => exact ih h.2 hany

theorem anyRecord_ok {test : Record → Except Error Bool} {truth : Record → Bool}
    {records : List Record} (h : ∀ r ∈ records, test r = .ok (truth r)) :
    anyRecord test records = .ok (records.any truth) := by
  induction records with
  | nil => rfl
  | cons r rs ih =>
    rw [List.forall_mem_cons] at h
    rw [anyRecord, List.any_cons, h.1]
    cases truth r with
    | true => rfl
    | false => exact ih h.2

theorem truth_traversal (hop : c.operator.isTraversal = true) {inner : Domain}
    (hoperand : c.operand = .domain inner) {target : Entity} {records : List Record}
    (hreached : catalog.reached c.path entity record = some (target, records)) :
    catalog.truth (.condition c) entity record =
      (records.any (catalog.truth inner target) == (c.operator == .any)) := by
  have hholds : catalog.conditionHolds c
      ((some (catalog.truth inner)).map fun truth e r => .ok (truth e r)) entity record =
      .ok (records.any (catalog.truth inner target) == (c.operator == .any)) :=
    (conditionHolds_of_traversal hop).2
      ⟨target, records, _, hreached, anyRecord_ok fun _ _ => rfl, rfl⟩
  rw [truth_condition, hoperand, Operand.inner?, Option.map_some, conditionTruth, hholds]
  rfl

theorem truth_test (hop : c.operator.isTraversal = false) {field : Field}
    (hfield : entity.field? (Text.cut '.' c.path).1 = some field) :
    catalog.truth (.condition c) entity record = isMet (c.test (c.valueOn field record)) := by
  rw [truth_condition, conditionTruth]
  unfold conditionHolds
  rw [Entity.conditionField_eq_ok.2 hfield]
  change isMet (if c.operator.isTraversal = true then _ else _) = _
  rw [hop]
  rfl

theorem holds_nary_nil {k : Connective} {mark : Option Mark} :
    catalog.holds (.nary k [] mark) entity record = .ok k.identity := by
  cases k <;> rfl

theorem holds_nary_cons {k : Connective} {d : Domain} {ds : List Domain} {mark : Option Mark}
    {b : Bool} : catalog.holds (.nary k (d :: ds) mark) entity record = .ok b ↔
      ∃ found, catalog.holds d entity record = .ok found ∧
        if found = k.identity then catalog.holds (.nary k ds mark) entity record = .ok b
        else b = k.absorbing := by
  cases k with
  | and =>
    simp only [holds, holdsAll, Except.bind_eq_ok]
    refine exists_congr fun found => and_congr_right fun _ => ?_
    cases found with
    | true => rfl
    | false => exact ⟨fun h => (Except.ok.inj h).symm, congrArg Except.ok ∘ Eq.symm⟩
  | or =>
    simp only [holds, holdsAny, Except.bind_eq_ok]
    refine exists_congr fun found => and_congr_right fun _ => ?_
    cases found with
    | false => rfl
    | true => exact ⟨fun h => (Except.ok.inj h).symm, congrArg Except.ok ∘ Eq.symm⟩

/-- Evaluation comes to the truth value, if it succeeds. -/
theorem truth_of_holds {d : Domain} {b : Bool} (h : catalog.holds d entity record = .ok b) :
    catalog.truth d entity record = b := by
  induction d using Domain.induct generalizing entity record b with
  | constant v =>
    rw [holds] at h
    cases h
    rw [truth]
  | negation d ih =>
    rw [holds, Except.bind_eq_ok] at h
    obtain ⟨b', hb', h⟩ := h
    cases h
    rw [truth, ih hb']
  | nary k children mark ih =>
    rw [truth]
    induction children generalizing b with
    | nil =>
      rw [holds_nary_nil] at h
      cases h
      rw [truthAll]
    | cons d ds ihds =>
      rw [List.forall_mem_cons] at ih
      obtain ⟨found, hfound, h⟩ := holds_nary_cons.1 h
      rw [truthAll, ih.1 hfound]
      split at h
      · rename_i hidentity
        rw [hidentity, ihds ih.2 h, Connective.identity_join]
      · rename_i hdecides
        rw [k.eq_absorbing_of_ne hdecides, Connective.absorbing_join, h]
  | condition c ih =>
    rw [holds_condition] at h
    cases hop : c.operator.isTraversal with
    | false =>
      obtain ⟨field, hfield, htest⟩ := (conditionHolds_of_test hop _).1 h
      rw [truth_test hop hfield, htest]
      rfl
    | true =>
      cases hoperand : c.operand with
      | domain inner =>
        rw [hoperand] at h
        obtain ⟨target, records, found, hreached, hany, rfl⟩ := (conditionHolds_of_traversal hop).1 h
        rw [truth_traversal hop hoperand hreached,
          anyRecord_eq_ok (fun r _ b hb => ih inner hoperand hb) hany]
      | _ =>
        rw [hoperand] at h
        exact absurd h (conditionHolds_none_of_traversal hop)

theorem holds_nary {k : Connective} {children : List Domain} {mark : Option Mark}
    (h : ∀ d ∈ children, catalog.holds d entity record = .ok (catalog.truth d entity record)) :
    catalog.holds (.nary k children mark) entity record =
      .ok (catalog.truth (.nary k children mark) entity record) := by
  rw [truth]
  induction children with
  | nil => rw [holds_nary_nil, truthAll]
  | cons d ds ih =>
    rw [List.forall_mem_cons] at h
    refine holds_nary_cons.2 ⟨_, h.1, ?_⟩
    rw [truthAll]
    split
    · rename_i hidentity
      rw [hidentity, Connective.identity_join, ih h.2]
    · rename_i hdecides
      rw [k.eq_absorbing_of_ne hdecides, Connective.absorbing_join]

theorem truth_unreached (hop : c.operator.isTraversal = true)
    (h : catalog.reached c.path entity record = none) :
    catalog.truth (.condition c) entity record = false := by
  rw [Bool.eq_false_iff, ne_eq, truth_condition, conditionTruth, isMet_eq_true]
  intro hholds
  cases hinner : c.operand.inner? with
  | none =>
    rw [hinner] at hholds
    exact conditionHolds_none_of_traversal hop hholds
  | some inner =>
    rw [hinner] at hholds
    obtain ⟨target, records, found, hreached, -⟩ := (conditionHolds_of_traversal hop).1 hholds
    rw [h] at hreached
    cases hreached

theorem truth_of_inner?_eq_none (hop : c.operator.isTraversal = true)
    (h : c.operand.inner? = none) : catalog.truth (.condition c) entity record = false := by
  rw [Bool.eq_false_iff, ne_eq, truth_condition, conditionTruth, isMet_eq_true, h]
  exact conditionHolds_none_of_traversal hop

theorem truth_of_unknown (hop : c.operator.isTraversal = false)
    (h : entity.field? (Text.cut '.' c.path).1 = none) :
    catalog.truth (.condition c) entity record = false := by
  rw [Bool.eq_false_iff, ne_eq, truth_condition, conditionTruth, isMet_eq_true,
    conditionHolds_of_test hop]
  rintro ⟨field, hfield, -⟩
  rw [h] at hfield
  cases hfield

theorem truth_canonical (d : Domain) :
    catalog.truth d.canonical entity record = catalog.truth d entity record := by
  induction d using Domain.induct generalizing entity record with
  | constant v => rfl
  | negation d ih => rw [Domain.canonical_negation, truth, truth, ih]
  | nary k children mark ih =>
    rw [Domain.canonical_nary, truth, truth]
    clear mark
    induction children with
    | nil => rfl
    | cons d ds ihds =>
      rw [List.map_cons, truthAll, truthAll, ih d (List.mem_cons_self ..),
        ihds fun e he => ih e (List.mem_cons_of_mem _ he)]
  | condition c ih =>
    rw [Domain.canonical_condition]
    have hpath : c.canonical.path = c.path := Condition.path_canonical c
    have hoperator : c.canonical.operator = c.operator := Condition.operator_canonical c
    cases hop : c.operator.isTraversal with
    | false =>
      have hop' : c.canonical.operator.isTraversal = false := by rw [hoperator, hop]
      cases hfield : entity.field? (Text.cut '.' c.path).1 with
      | none => rw [truth_of_unknown hop hfield, truth_of_unknown hop' (by rwa [hpath])]
      | some field =>
        have hvalue : c.canonical.valueOn field record = c.valueOn field record := by
          unfold Condition.valueOn Condition.rest?
          rw [hpath]
        rw [truth_test hop hfield, truth_test hop' (by rwa [hpath]), hvalue,
          Condition.isMet_test_canonical]
    | true =>
      have hop' : c.canonical.operator.isTraversal = true := by rw [hoperator, hop]
      cases hreached : catalog.reached c.path entity record with
      | none => rw [truth_unreached hop hreached, truth_unreached hop' (by rwa [hpath])]
      | some pair =>
        obtain ⟨target, records⟩ := pair
        have hreached' : catalog.reached c.canonical.path entity record =
            some (target, records) := by rwa [hpath]
        have hcanonical : c.canonical.operand = c.operand.canonical := by
          rw [Condition.canonical_eq]
        cases hoperand : c.operand with
        | domain inner =>
          rw [hoperand, Operand.canonical_domain] at hcanonical
          have hinner : catalog.truth inner.canonical target = catalog.truth inner target :=
            funext fun r => ih inner hoperand
          rw [truth_traversal hop hoperand hreached, truth_traversal hop' hcanonical hreached',
            hinner, hoperator]
        | _ =>
          rw [hoperand] at hcanonical
          rw [truth_of_inner?_eq_none hop (by rw [hoperand]; rfl),
            truth_of_inner?_eq_none hop' (by rw [hcanonical]; rfl)]

theorem respectsSame_valuation (catalog : Catalog) (entity : Entity) (record : Record) :
    Domain.RespectsSame (catalog.valuation entity record) := by
  intro c
  unfold valuation
  rw [← Domain.canonical_condition, truth_canonical]

theorem exists_reached {path : String} {target : Entity}
    (h : catalog.target? entity path = some target) (record : Record) :
    ∃ records, catalog.reached path entity record = some (target, records) := by
  unfold target? at h
  unfold reached
  obtain ⟨field, hfield, h⟩ := Option.bind_eq_some_iff.1 h
  rw [hfield, Option.bind_some]
  split at h
  · cases h
    rw [if_pos ‹_›]
    exact ⟨_, rfl⟩
  · rw [if_neg ‹_›]
    split at h
    · rw [if_pos ‹_›, h]
      exact ⟨_, rfl⟩
    · cases h

theorem reached_of_id {field : Field} (hfield : entity.field? c.head = some field)
    (hid : field.name = Entity.idName) (record : Record) :
    catalog.reached c.path entity record = some (entity, [record]) := by
  unfold reached
  change (entity.field? c.head).bind _ = _
  rw [hfield, Option.bind_some, if_pos hid]

theorem reached_of_comodel {field : Field} {target : Entity}
    (hfield : entity.field? c.head = some field) (hid : field.name ≠ Entity.idName)
    (hrelational : field.isRelational = true) (htarget : catalog.comodel c field = .ok target)
    (record : Record) : catalog.reached c.path entity record =
      some (target, catalog.linked field target record) := by
  unfold reached
  change (entity.field? c.head).bind _ = _
  rw [hfield, Option.bind_some, if_neg hid, if_pos hrelational, comodel_eq_ok.1 htarget,
    Option.map_some]

theorem eq_of_id? {records : List Record} (hids : (records.filterMap Record.id?).Nodup)
    {r r' : Record} (hr : r ∈ records) (hr' : r' ∈ records) {id : Int}
    (hid : Record.id? r = some id) (hid' : Record.id? r' = some id) : r = r' := by
  induction records with
  | nil => cases hr
  | cons s rs ih =>
    have hother : ∀ {t}, t ∈ rs → Record.id? t = some id → Record.id? s ≠ some id := by
      intro t ht hid hs
      rw [List.filterMap_cons_some hs, List.nodup_cons] at hids
      exact hids.1 (List.mem_filterMap.2 ⟨t, ht, hid⟩)
    obtain rfl | hmem := List.mem_cons.1 hr
    · obtain rfl | hmem' := List.mem_cons.1 hr'
      · rfl
      · exact absurd hid (hother hmem' hid')
    · obtain rfl | hmem' := List.mem_cons.1 hr'
      · exact absurd hid' (hother hmem hid)
      · exact ih (hids.sublist ((List.sublist_cons_self s rs).filterMap _)) hmem hmem'

theorem record?_eq_some (hids : ((catalog.records entity.name).filterMap Record.id?).Nodup)
    {id : Int} : catalog.record? entity.name id = some record ↔
      record ∈ catalog.records entity.name ∧ Record.id? record = some id := by
  constructor
  · intro h
    exact ⟨List.mem_of_find?_eq_some h, by simpa using List.find?_some h⟩
  · rintro ⟨hrecord, hid⟩
    cases hfound : catalog.record? entity.name id with
    | none =>
      rw [record?, List.find?_eq_none] at hfound
      exact absurd (by rw [hid, beq_self_eq_true]) (hfound record hrecord)
    | some found =>
      have hid' : Record.id? found = some id := by simpa using List.find?_some hfound
      rw [eq_of_id? hids hrecord (List.mem_of_find?_eq_some hfound) hid hid']

theorem mem_linked {field : Field} {target : Entity} {r : Record}
    (h : r ∈ catalog.linked field target record) : r ∈ catalog.records target.name := by
  have hfound : ∀ (ids : List Int), r ∈ ids.filterMap (catalog.record? target.name) →
      r ∈ catalog.records target.name := by
    intro ids hr
    obtain ⟨id, -, hid⟩ := List.mem_filterMap.1 hr
    exact List.mem_of_find?_eq_some hid
  unfold linked related at h
  cases htype : field.type <;> simp only [htype] at h <;> try cases h
  · refine hfound (((Record.get? record field.name).bind Json.asInt64?).toList) ?_
    cases hid : (Record.get? record field.name).bind Json.asInt64? with
    | none => simp [hid] at h
    | some id => simpa [hid] using h
  · split at h
    · rename_i records hrecords
      split at hrecords
      · cases hrecords
        exact List.mem_of_mem_filter h
      · cases hrecords
        cases h
    · cases h
  · exact hfound _ h

theorem mem_reached {path : String} {target : Entity} {records : List Record}
    (hrecord : record ∈ catalog.records entity.name)
    (h : catalog.reached path entity record = some (target, records)) :
    ∀ r ∈ records, r ∈ catalog.records target.name := by
  unfold reached at h
  obtain ⟨field, -, h⟩ := Option.bind_eq_some_iff.1 h
  split at h
  · cases h
    exact List.forall_mem_singleton.2 hrecord
  · split at h
    · obtain ⟨target', -, h⟩ := Option.map_eq_some_iff.1 h
      cases h
      exact fun r => mem_linked
    · cases h

end Catalog

end QueryDomain
