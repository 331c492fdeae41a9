import QueryDomain.Proofs.Calendar.Reading
import QueryDomain.Proofs.Domain.Laws
import QueryDomain.Proofs.Records.Selection

/-! Days on a datetime field. Compared with a day, a timestamp is on its own day: what a condition is
rewritten to holds on the records whose timestamps are before, on or after the day. -/
namespace QueryDomain

open List Domain

/-- What a literal stands for on a datetime field: no value, a day or a timestamp. -/
inductive Value.StandsFor : Value → Value → Prop
  | unset : StandsFor .null .null
  | falsehood : StandsFor (.bool false) .null
  | day (d : Date) : StandsFor (.date d) (.date d)
  | moment (t : Timestamp) : StandsFor (.timestamp t) (.timestamp t)
  | dayText {s : String} {d : Date} : Date.read? s = some d → StandsFor (.text s) (.date d)
  | momentText {s : String} {t : Timestamp} : Timestamp.read? s = some t →
      StandsFor (.text s) (.timestamp t)

/-- The set lists the value, or the day that the value is on. -/
def ValueSet.Covers (values : ValueSet) (value : Value) : Prop :=
  (∃ v ∈ values.values, v.StandsFor value) ∨
    ∃ t, value = .timestamp t ∧ ∃ v ∈ values.values, v.StandsFor (.date t.date)

def Operator.Orders (op : Operator) (a b : Date) : Prop :=
  match op with
  | .less => a.Before b
  | .greater => b.Before a
  | .lessOrEqual => ¬b.Before a
  | .greaterOrEqual => ¬a.Before b
  | _ => False

theorem Value.equals_of_isMoment {value m : Value} (hmoment : Pass.isMoment value = true) :
    value.equals m = true ↔ m = value := by
  cases value with
  | null => cases m <;> simp [equals, isNull, compare?]
  | timestamp t =>
    cases m with
    | timestamp t' =>
      rw [equals_eq_same rfl rfl, same, beq_iff_eq, Value.timestamp.injEq]
    | _ => simp [equals, isNull, compare?]
  | _ => cases hmoment

theorem Value.any_equals_of_isMoment {value : Value} (hmoment : Pass.isMoment value = true)
    {values : List Value} : values.any value.equals = true ↔ value ∈ values := by
  rw [any_eq_true]
  simp only [Value.equals_of_isMoment hmoment, exists_eq_right]

open Catalog

namespace Pass

/-- The parts of a membership among days: an interval for each day, and the other members. -/
def parts (c : Condition) (values : List Value) : List Domain :=
  (daysOf values).map (withinDay c) ++
    if (withoutDays values).isEmpty then []
    else [.leaf c.path .mem (.set (.ofList (withoutDays values)))]

def Lists (values : List Value) (value : Value) : Prop :=
  value ∈ values ∨ ∃ t, value = .timestamp t ∧ .date t.date ∈ values

variable {catalog : Catalog} {entity : Entity} {record : Record} {c : Condition} {field : Field}
  {value : Value} {t : Timestamp} {day : Date} {values : List Value}

theorem mem_daysOf : day ∈ daysOf values ↔ .date day ∈ values := by
  simp only [daysOf, mem_filterMap]
  constructor
  · rintro ⟨v, hv, hday⟩
    cases v <;> simp at hday
    exact hday ▸ hv
  · exact fun h => ⟨_, h, rfl⟩

theorem mem_withoutDays (hmoment : isMoment value = true) :
    value ∈ withoutDays values ↔ value ∈ values := by
  refine mem_filter.trans (and_iff_left ?_)
  cases value <;> cases hmoment <;> rfl

theorem withoutDays_eq_nil (hmoment : isMoment value = true)
    (h : (withoutDays values).isEmpty = true) : value ∉ values := by
  rw [← mem_withoutDays hmoment, isEmpty_iff.1 h]
  exact not_mem_nil

theorem holds_withoutDays (hmoment : isMoment value = true) :
    (ValueSet.ofList (withoutDays values)).holds value = true ↔ value ∈ values := by
  rw [ValueSet.holds_ofList, Value.any_equals_of_isMoment hmoment, mem_withoutDays hmoment]

theorem forall_mem_parts {P : Domain → Prop} : (∀ d ∈ parts c values, P d) ↔
    (∀ day ∈ daysOf values, P (withinDay c day)) ∧ (¬(withoutDays values).isEmpty = true →
      P (.leaf c.path .mem (.set (.ofList (withoutDays values))))) := by
  unfold parts
  rw [forall_mem_append, forall_mem_map]
  refine and_congr_right fun _ => ?_
  split <;> simp_all

theorem exists_mem_parts {P : Domain → Prop} : (∃ d ∈ parts c values, P d) ↔
    (∃ day ∈ daysOf values, P (withinDay c day)) ∨ (¬(withoutDays values).isEmpty = true ∧
      P (.leaf c.path .mem (.set (.ofList (withoutDays values))))) := by
  unfold parts
  simp only [mem_append, or_and_right, exists_or, mem_map, exists_exists_and_eq_and]
  refine or_congr Iff.rfl ?_
  split <;> simp_all

theorem isBuilt_compareAt (op : Operator) (s : Timestamp) :
    (compareAt c op s).IsBuilt fun _ => True :=
  .condition trivial

theorem isBuilt_withinDay (day : Date) : (withinDay c day).IsBuilt fun _ => True := by
  unfold withinDay
  dsimp only
  split
  · exact .apply (by simp [isBuilt_compareAt])
  · exact isBuilt_compareAt _ _

section Moments

variable (catalog) (hplain : c.isDotted = false) (hfield : entity.field? c.head = some field)
  (hvalue : field.valueOf (Record.get? record field.name) = value)

include hplain hfield hvalue

theorem tells_compareAt {op : Operator} (hop : op.isOrdering = true) (s : Timestamp) :
    catalog.Tells (compareAt c op s) entity record
      (∃ t, value = .timestamp t ∧ Condition.ordered op (some (compare t.key s.key)) = true) := by
  have htest : op.isTraversal = false := by cases op <;> cases hop <;> rfl
  let bound : Condition := ⟨c.path, op, .scalar (.timestamp s), none⟩
  have hbound : bound.test value = .ok (Condition.ordered op (value.compare? (.timestamp s))) :=
    Condition.test_ordering hop rfl value
  refine (tells_test (c := bound) hplain hfield hvalue htest hbound).congr ?_
  cases value with
  | timestamp t => simp [Value.compare?]
  | _ => simp [Value.compare?, Condition.ordered]

theorem tells_less (s : Timestamp) : catalog.Tells (compareAt c .less s) entity record
    (∃ t, value = .timestamp t ∧ t.key < s.key) := by
  refine (tells_compareAt catalog hplain hfield hvalue rfl s).congr ?_
  simp [Condition.ordered, compare_lt_iff_lt]

theorem tells_greaterOrEqual (s : Timestamp) :
    catalog.Tells (compareAt c .greaterOrEqual s) entity record
      (∃ t, value = .timestamp t ∧ s.key ≤ t.key) := by
  refine (tells_compareAt catalog hplain hfield hvalue rfl s).congr ?_
  simp [Condition.ordered, compare_lt_iff_lt]

theorem tells_leaf (op : Operator) (hop : op.isMembership = true) (members : ValueSet) :
    catalog.Tells (.leaf c.path op (.set members)) entity record
      (members.holds value = true ↔ op = .mem) :=
  tells_membership (c := ⟨c.path, op, .set members, none⟩) hplain hfield hvalue hop rfl

theorem tells_dayBound (hop : c.operator.isOrdering = true) (hmoment : value = .timestamp t) :
    catalog.Tells (dayBound c day) entity record (c.operator.Orders t.date day) := by
  have hless := tells_less catalog hplain hfield hvalue
  have hgreater := tells_greaterOrEqual catalog hplain hfield hvalue
  simp only [hmoment, Value.timestamp.injEq, exists_eq_left'] at hless hgreater
  unfold dayBound Operator.Orders
  simp only [← Date.key_lt_key_iff, Int.not_lt]
  cases hoperator : c.operator <;> rw [hoperator] at hop <;> cases hop
  · exact (hless _).congr (Timestamp.key_lt_startOf t day)
  · cases hnext : Timestamp.startOfNext? day with
    | none =>
      refine (Tells.constant false).congr (iff_of_false Bool.false_ne_true ?_)
      exact Int.not_lt.2 (Timestamp.key_le_of_startOfNext?_eq_none hnext t)
    | some next =>
      refine (hgreater next).congr ?_
      rw [← Int.not_lt, Timestamp.key_lt_startOfNext hnext, Int.not_le]
  · cases hnext : Timestamp.startOfNext? day with
    | none =>
      exact (Tells.constant true).congr (iff_of_true rfl
        (Timestamp.key_le_of_startOfNext?_eq_none hnext t))
    | some next => exact (hless next).congr (Timestamp.key_lt_startOfNext hnext t)
  · refine (hgreater _).congr ?_
    rw [← Int.not_lt, Timestamp.key_lt_startOf, Int.not_lt]

theorem tells_withinDay (day : Date) : catalog.Tells (withinDay c day) entity record
    (∃ t, value = .timestamp t ∧ t.date = day) := by
  have hless := tells_less catalog hplain hfield hvalue
  have hgreater := tells_greaterOrEqual catalog hplain hfield hvalue (.startOf day)
  have hsame : ∀ t : Timestamp, t.date = day ↔
      (Timestamp.startOf day).key ≤ t.key ∧ t.date.key ≤ day.key := by
    intro t
    rw [← Int.not_lt, Timestamp.key_lt_startOf, Int.not_lt]
    exact ⟨fun h => by simp [h], fun h => Date.key_injective (Int.le_antisymm h.2 h.1)⟩
  unfold withinDay
  dsimp only
  cases hnext : Timestamp.startOfNext? day with
  | none =>
    refine hgreater.congr (exists_congr fun t => and_congr_right fun _ => ?_)
    rw [hsame, and_iff_left (Timestamp.key_le_of_startOfNext?_eq_none hnext t)]
  | some next =>
    refine (tells_and (by simp [hgreater.evaluates, (hless next).evaluates])).congr ?_
    simp only [forall_mem_cons, not_mem_nil, false_implies, implies_true, and_true, hgreater.met_iff,
      (hless next).met_iff, hsame, Timestamp.key_lt_startOfNext hnext]
    exact ⟨fun ⟨⟨t, ht, h⟩, t', ht', h'⟩ => ⟨t, ht, h, by cases ht.symm.trans ht'; exact h'⟩,
      fun ⟨t, ht, h, h'⟩ => ⟨⟨t, ht, h⟩, t, ht, h'⟩⟩

omit hfield hvalue in
theorem negate_compareAt {op inverse : Operator} (h : op.inverse? = some inverse) (s : Timestamp) :
    (compareAt c op s).negate = compareAt c inverse s := by
  have hdotted : (⟨c.path, op, .scalar (.timestamp s), none⟩ : Condition).isDotted = false := hplain
  rw [compareAt, Domain.leaf, Domain.negate, Condition.negate]
  simp only [h, hdotted]
  rfl

/-- Outside of the interval are the timestamps of other days, but no unset value. -/
theorem tells_withinDay_negate (day : Date) :
    catalog.Tells (withinDay c day).negate entity record
    (∃ t, value = .timestamp t ∧ t.date ≠ day) := by
  have hless := tells_less catalog hplain hfield hvalue (.startOf day)
  have hgreater := tells_greaterOrEqual catalog hplain hfield hvalue
  have hother : ∀ t : Timestamp, t.date ≠ day ↔
      t.key < (Timestamp.startOf day).key ∨ day.key < t.date.key := by
    intro t
    rw [Timestamp.key_lt_startOf, ← Int.ne_iff_lt_or_gt]
    exact not_congr ⟨fun h => by rw [h], Date.key_injective⟩
  have hlast : ∀ {t : Timestamp}, Timestamp.startOfNext? day = none → ¬day.key < t.date.key :=
    fun hnone => Int.not_lt.2 (Timestamp.key_le_of_startOfNext?_eq_none hnone _)
  unfold withinDay
  dsimp only
  cases hnext : Timestamp.startOfNext? day with
  | none =>
    rw [negate_compareAt hplain rfl]
    refine hless.congr (exists_congr fun t => and_congr_right fun _ => ?_)
    rw [hother, or_iff_left (hlast hnext)]
  | some next =>
    have hnegate : (Domain.and [compareAt c .greaterOrEqual (.startOf day),
        compareAt c .less next]).negate =
          Domain.or [compareAt c .less (.startOf day), compareAt c .greaterOrEqual next] := by
      refine (IsBuilt.negate_apply (L := fun _ => True) (by simp [isBuilt_compareAt]) .and).trans ?_
      rw [map_cons, map_singleton, negate_compareAt hplain rfl, negate_compareAt hplain rfl]
      rfl
    rw [hnegate]
    refine (tells_or (by simp [hless.evaluates, (hgreater next).evaluates])).congr ?_
    have hlater : ∀ t : Timestamp, next.key ≤ t.key ↔ day.key < t.date.key := by
      intro t
      rw [← Int.not_lt, Timestamp.key_lt_startOfNext hnext, Int.not_le]
    simp only [mem_cons, not_mem_nil, or_false, exists_eq_or_imp, exists_eq_left, hless.met_iff,
      (hgreater next).met_iff, hother, hlater, and_or_left, exists_or]

theorem tells_parts {values : List Value} (hmoment : isMoment value = true) :
    catalog.Tells (.or (parts c values)) entity record (Lists values value) := by
  have hday := tells_withinDay catalog hplain hfield hvalue
  have hrest := tells_leaf catalog hplain hfield hvalue .mem rfl (.ofList (withoutDays values))
  simp only [holds_withoutDays hmoment, iff_true] at hrest
  have hevaluates : ∀ d ∈ parts c values, catalog.Evaluates d entity record := by
    refine forall_mem_parts.2 ⟨fun day _ => (hday day).evaluates, fun _ => hrest.evaluates⟩
  refine (tells_or hevaluates).congr ?_
  rw [exists_mem_parts]
  simp only [(hday _).met_iff, hrest.met_iff, mem_daysOf]
  constructor
  · rintro (⟨day, hmem, t, ht, rfl⟩ | ⟨-, hmem⟩)
    · exact .inr ⟨t, ht, hmem⟩
    · exact .inl hmem
  · rintro (hmem | ⟨t, ht, hmem⟩)
    · exact .inr ⟨fun hnone => withoutDays_eq_nil hmoment hnone hmem, hmem⟩
    · exact .inl ⟨t.date, hmem, t, ht, rfl⟩

theorem tells_parts_negate (hmoment : isMoment value = true) (hdays : daysOf values ≠ []) :
    catalog.Tells (Domain.or (parts c values)).negate entity record
      (value ≠ .null ∧ ¬Lists values value) := by
  have hday := tells_withinDay_negate catalog hplain hfield hvalue
  have hrest := tells_leaf catalog hplain hfield hvalue .notMem rfl (.ofList (withoutDays values))
  simp only [holds_withoutDays hmoment, reduceCtorEq, iff_false] at hrest
  have hbuilt : ∀ d ∈ parts c values, d.IsBuilt fun _ => True :=
    forall_mem_parts.2 ⟨fun day _ => isBuilt_withinDay day, fun _ => .condition trivial⟩
  have hnegate : (Domain.leaf c.path .mem (.set (.ofList (withoutDays values)))).negate =
      .leaf c.path .notMem (.set (.ofList (withoutDays values))) := by
    rw [Domain.leaf, Domain.negate, Condition.negate]
    exact if_neg (by simpa [Condition.isDotted] using hplain)
  have hall := IsBuilt.negate_apply hbuilt .or
  have hevaluates : ∀ d ∈ (parts c values).map Domain.negate, catalog.Evaluates d entity record := by
    rw [forall_mem_map, forall_mem_parts, hnegate]
    exact ⟨fun day _ => (hday day).evaluates, fun _ => hrest.evaluates⟩
  change catalog.Tells (Connective.or.apply _).negate entity record _
  rw [hall]
  refine (tells_and hevaluates).congr ?_
  rw [forall_mem_map, forall_mem_parts, hnegate]
  simp only [(hday _).met_iff, hrest.met_iff]
  have hlisted : (¬(withoutDays values).isEmpty = true → value ∉ values) ↔ value ∉ values :=
    ⟨fun h hmem => h (fun hnone => withoutDays_eq_nil hmoment hnone hmem) hmem, fun h _ => h⟩
  rw [hlisted]
  cases value with
  | timestamp t =>
    simp only [Lists, mem_daysOf, Value.timestamp.injEq, exists_eq_left', ne_eq, reduceCtorEq,
      not_false_eq_true, true_and, not_or]
    rw [and_comm]
    exact and_congr_right fun _ => ⟨fun h hmem => h _ hmem rfl, fun h day hmem heq => h (heq ▸ hmem)⟩
  | null =>
    refine iff_of_false (fun h => ?_) fun h => h.1 rfl
    obtain ⟨day, hmem⟩ := exists_mem_of_ne_nil _ hdays
    obtain ⟨t, ht, -⟩ := h.1 day hmem
    cases ht
  | _ => cases hmoment

/-- A membership among days tells whether the value or its day is listed. For an unset value, which
is outside of no interval, the complement asks apart. -/
theorem tells_dayMembership (hmoment : isMoment value = true) {members : ValueSet}
    (hdays : daysOf members.values ≠ []) :
    catalog.Tells (dayMembership c members) entity record
      (Lists members.values value ↔ c.operator = .mem) := by
  have houtside := tells_parts_negate catalog hplain hfield hvalue hmoment hdays
  have hunset := tells_leaf catalog hplain hfield hvalue .mem rfl .unset
  have hmembership : dayMembership c members =
      if c.operator = .mem then Domain.or (parts c members.values)
      else if members.containsNull then (Domain.or (parts c members.values)).negate
      else .or [(Domain.or (parts c members.values)).negate, .leaf c.path .mem (.set .unset)] := rfl
  have hnull : members.containsNull = true ↔ Lists members.values .null := by
    simp only [ValueSet.containsNull, any_eq_true, Lists, reduceCtorEq, false_and, exists_false,
      or_false]
    exact ⟨fun ⟨v, hv, h⟩ => by cases v <;> cases h; exact hv, fun h => ⟨_, h, rfl⟩⟩
  rw [hmembership]
  split
  · rename_i hmem
    exact (tells_parts catalog hplain hfield hvalue hmoment).congr (by simp [hmem])
  · rename_i hmem
    simp only [hmem, iff_false]
    split
    · rename_i hcontains
      refine houtside.congr (and_iff_right_of_imp fun h hvalue => h ?_)
      rw [hvalue]
      exact hnull.1 hcontains
    · rename_i hcontains
      have hset : ValueSet.unset.holds value = true ↔ value = .null := by
        simp [ValueSet.holds, ValueSet.unset, ValueSet.singleton,
          Value.equals_of_isMoment hmoment, eq_comm]
      refine (tells_or (by simp [houtside.evaluates, hunset.evaluates])).congr ?_
      simp only [mem_cons, not_mem_nil, or_false, exists_eq_or_imp, exists_eq_left,
        houtside.met_iff, hunset.met_iff, hset, iff_true]
      refine ⟨?_, fun h => (em (value = .null)).symm.imp (fun hsome => ⟨hsome, h⟩) id⟩
      rintro (⟨-, h⟩ | rfl)
      · exact h
      · exact mt hnull.2 hcontains

end Moments

section Literals

variable {ctx : Context} {coerced : ValueSet} {v w : Value}

theorem toDatetime_eq_ok : toDatetime c v = .ok w ↔ v.StandsFor w := by
  constructor
  · intro h
    unfold toDatetime at h
    split at h
    · cases h
      exact .unset
    · cases h
      exact .falsehood
    · cases h
      exact .day _
    · cases h
      exact .moment _
    · split at h
      · rename_i found hfound
        cases h
        simp only [Option.orElse_eq_orElse, Option.orElse_eq_or, Option.or_eq_some_iff,
          Option.map_eq_some_iff] at hfound
        obtain ⟨t, ht, rfl⟩ | ⟨-, day, hday, rfl⟩ := hfound
        · exact .momentText ht
        · exact .dayText hday
      · cases h
    · cases h
  · rintro (_ | _ | _ | _ | hday | hmoment)
    · rfl
    · rfl
    · rfl
    · rfl
    · simp [toDatetime, hday, Timestamp.read?_of_day hday]
    · simp [toDatetime, hmoment]

theorem eq_of_same_of_standsFor {u : Value} (h : v.StandsFor w) (hsame : u.same w = true) : u = w := by
  cases h <;> cases u <;> simp_all [Value.same]

theorem exists_mapM {coerce : Value → Except Error Value} (h : ∀ v ∈ values, ∃ w, coerce v = .ok w) :
    ∃ ws, values.mapM coerce = .ok ws := by
  induction values with
  | nil => exact ⟨[], rfl⟩
  | cons v vs ih =>
    rw [forall_mem_cons] at h
    obtain ⟨⟨w, hw⟩, hvs⟩ := h
    obtain ⟨ws, hws⟩ := ih hvs
    exact ⟨w :: ws, by rw [mapM_cons, hw, hws]; rfl⟩

theorem exists_coerceSet {given : ValueSet} (h : ∀ v ∈ given.values, ∃ w, v.StandsFor w) :
    ∃ coerced, coerceSet (toDatetime c) given = .ok coerced ∧
      ∀ w, w ∈ coerced.values ↔ ∃ v ∈ given.values, v.StandsFor w := by
  simp only [← toDatetime_eq_ok (c := c)] at h ⊢
  obtain ⟨ws, hws⟩ := exists_mapM h
  have hall := mapM_eq_ok hws
  refine ⟨.ofList ws, by rw [coerceSet, hws]; rfl, fun w => ⟨fun hw => ?_, ?_⟩⟩
  · exact exists_of_forall₂ hall ((ValueSet.fresh_sublist [] ws).mem hw)
  · rintro ⟨v, hv, hvw⟩
    obtain ⟨w', hw', hvw'⟩ := exists_of_forall₂ hall.flip hv
    obtain rfl := Except.ok.inj (hvw.symm.trans hvw')
    have hany : ws.any (·.same w) = true := any_eq_true.2 ⟨w, hw', w.same_refl⟩
    have hrespects : ∀ u u' : Value, u.same u' = true → u.same w = u'.same w := fun u u' h => by
      rw [Bool.eq_iff_iff, Value.same_iff, Value.same_iff, Value.same_iff.1 h]
    rw [← ValueSet.any_ofList hrespects, any_eq_true] at hany
    obtain ⟨u, hu, hsame⟩ := hany
    rwa [eq_of_same_of_standsFor (toDatetime_eq_ok.1 hvw) hsame] at hu

theorem rewriting_scalar {literal : Value} (hplain : c.isDotted = false)
    (hop : c.operator.isOrdering = true) (hoperand : c.operand = .scalar literal)
    (hday : literal.StandsFor (.date day)) :
    rewriting datetimeLiterals c ctx = .ok (dayBound c day) := by
  have hcompares : comparesLiterals c = true := by simp [comparesLiterals, hplain, hop]
  have hordered : ordersUnset c = false := by
    rw [ordersUnset, hoperand]
    cases hday <;> simp
  rw [rewriting, datetimeLiterals, hcompares, hordered, hoperand]
  simp [toDatetime_eq_ok.2 hday, Except.bind, Except.map]

theorem rewriting_set {given : ValueSet} (hplain : c.isDotted = false)
    (hop : c.operator.isMembership = true) (hoperand : c.operand = .set given)
    (hcoerced : coerceSet (toDatetime c) given = .ok coerced) :
    rewriting datetimeLiterals c ctx = .ok (
      if daysOf coerced.values ≠ [] then dayMembership c coerced
      else if given.same coerced then .condition c
      else .condition (c.withOperand (.set coerced))) := by
  have hordering : c.operator.isOrdering = false := by
    cases hoperator : c.operator <;> rw [hoperator] at hop <;> cases hop <;> rfl
  have hcompares : comparesLiterals c = true := by simp [comparesLiterals, hplain, hop]
  have hordered : ordersUnset c = false := by rw [ordersUnset, hordering, Bool.false_and]
  rw [rewriting, datetimeLiterals, hcompares, hordered, hoperand]
  simp only [Bool.not_true, Bool.false_eq_true, if_false, Run.result_bind, Run.result_liftM, hcoerced,
    Except.bind]
  by_cases hdays : daysOf coerced.values = []
  · simp only [hdays, isEmpty_nil, if_true, result_replaceOperand, hoperand, Operand.sameFlat]
    cases given.same coerced <;> rfl
  · simp [hdays, Except.map]

end Literals

theorem tells_coerced {given coerced : ValueSet} (hplain : c.isDotted = false)
    (hfield : entity.field? c.head = some field)
    (hvalue : field.valueOf (Record.get? record field.name) = value)
    (hop : c.operator.isMembership = true) (hoperand : c.operand = .set given) :
    catalog.Tells (if given.same coerced then .condition c
      else .condition (c.withOperand (.set coerced))) entity record
        (coerced.holds value = true ↔ c.operator = .mem) := by
  split
  · rename_i hsame
    have hholds : coerced.holds value = given.holds value := by
      rw [← ValueSet.holds_canonical, ← ValueSet.same_iff.1 hsame, ValueSet.holds_canonical]
    rw [hholds]
    exact tells_membership hplain hfield hvalue hop hoperand
  · exact tells_membership (c := c.withOperand (.set coerced)) hplain hfield hvalue hop rfl

/-- Rewritten for a datetime field, a condition says of days and timestamps what it seems to say. An
ordering against a day compares the day that a timestamp is on, up to the last day of the calendar;
a set covers a timestamp by itself or by its day, and an unset value if it lists one. -/
theorem rewriting_datetimeLiterals {ctx : Context} (hplain : c.isDotted = false)
    (hfield : ctx.entity.field? c.head = some field)
    (hvalue : field.valueOf (Record.get? record field.name) = value) :
    (∀ (literal : Value) (day : Date) (t : Timestamp), c.operator.isOrdering = true →
      c.operand = .scalar literal → literal.StandsFor (.date day) → value = .timestamp t →
      ∃ d, rewriting datetimeLiterals c ctx = .ok d ∧
        ctx.catalog.Tells d ctx.entity record (c.operator.Orders t.date day)) ∧
    (∀ given : ValueSet, c.operand = .set given → (∀ v ∈ given.values, ∃ w, v.StandsFor w) →
      (value = .null ∨ ∃ t, value = .timestamp t) →
      (c.operator = .mem → ∃ d, rewriting datetimeLiterals c ctx = .ok d ∧
        ctx.catalog.Tells d ctx.entity record (given.Covers value)) ∧
      (c.operator = .notMem → ∃ d, rewriting datetimeLiterals c ctx = .ok d ∧
        ctx.catalog.Tells d ctx.entity record (¬given.Covers value))) := by
  refine ⟨fun literal day t hop hoperand hday hmoment => ?_, fun given hoperand hgiven hvalues => ?_⟩
  · exact ⟨_, rewriting_scalar hplain hop hoperand hday,
      tells_dayBound _ hplain hfield hvalue hop hmoment⟩
  · have hmoment : isMoment value = true := by
      obtain rfl | ⟨t, rfl⟩ := hvalues <;> rfl
    obtain ⟨coerced, hcoerced, hmem⟩ := exists_coerceSet (c := c) hgiven
    have hlists : Lists coerced.values value ↔ given.Covers value := by
      simp only [Lists, ValueSet.Covers, hmem]
    have htells : c.operator.isMembership = true → ∃ d,
        rewriting datetimeLiterals c ctx = .ok d ∧
          ctx.catalog.Tells d ctx.entity record (given.Covers value ↔ c.operator = .mem) := by
      intro hop
      refine ⟨_, rewriting_set hplain hop hoperand hcoerced, ?_⟩
      split
      · rename_i hdays
        exact (tells_dayMembership _ hplain hfield hvalue hmoment hdays).congr (by rw [hlists])
      · rename_i hdays
        refine (tells_coerced hplain hfield hvalue hop hoperand).congr ?_
        have hnone : ∀ t : Timestamp, .date t.date ∉ coerced.values := by
          intro t hday
          rw [← mem_daysOf, not_not.1 hdays] at hday
          cases hday
        rw [ValueSet.holds, Value.any_equals_of_isMoment hmoment, ← hlists, Lists]
        simp only [hnone, and_false, exists_false, or_false]
    refine ⟨fun hop => ?_, fun hop => ?_⟩
    · obtain ⟨d, hd, h⟩ := htells (by rw [hop]; rfl)
      exact ⟨d, hd, h.congr (by simp [hop])⟩
    · obtain ⟨d, hd, h⟩ := htells (by rw [hop]; rfl)
      exact ⟨d, hd, h.congr (by simp [hop])⟩

/-- A meeting on or before the last day of the calendar, and outside of a set that lists another day,
another time of its own day, and no value. -/
theorem rewriting_datetimeLiterals_meeting :
    let entity : Entity := { name := "meeting", fields := [{ name := "start", type := .datetime }] }
    let catalog : Catalog := { entities := [entity] }
    let record : Record := [("id", .integer 1), ("start", .string "2024-03-01 10:00:00")]
    let ctx := Optimizer.standard.contextAt catalog 1 .basic entity
    let last : Date := ⟨262142, 12, 31, by decide⟩
    let moment : Timestamp := ⟨⟨2024, 3, 1, by decide⟩, ⟨10, 0, 0, 0, by decide⟩⟩
    let before : Condition := ⟨"start", .lessOrEqual, .scalar (.date last), none⟩
    let given : ValueSet := ⟨[.text "2024-02-29", .text "2024-03-01 09:00:00", .null]⟩
    let others : Condition := ⟨"start", .notMem, .set given, none⟩
    (∃ d, rewriting datetimeLiterals before ctx = .ok d ∧
      ctx.catalog.Tells d ctx.entity record (Operator.lessOrEqual.Orders moment.date last)) ∧
    (∃ d, rewriting datetimeLiterals others ctx = .ok d ∧
      ctx.catalog.Tells d ctx.entity record (¬given.Covers (.timestamp moment))) := by
  intro entity catalog record ctx last moment before given others
  have hfield : ctx.entity.field? before.head = some { name := "start", type := .datetime } := by cbv
  have hfield' : ctx.entity.field? others.head = some { name := "start", type := .datetime } := hfield
  have hplain : before.isDotted = false := by cbv
  have hplain' : others.isDotted = false := hplain
  have hvalue : ({ name := "start", type := .datetime } : Field).valueOf
      (Record.get? record "start") = .timestamp moment := by cbv
  have hgiven : ∀ v ∈ given.values, ∃ w, v.StandsFor w := by
    have hday : Date.read? "2024-02-29" = some ⟨2024, 2, 29, by decide⟩ := by cbv
    have htime : Timestamp.read? "2024-03-01 09:00:00" =
        some ⟨⟨2024, 3, 1, by decide⟩, ⟨9, 0, 0, 0, by decide⟩⟩ := by cbv
    simp only [given, forall_mem_cons, not_mem_nil, false_implies, implies_true, and_true]
    exact ⟨⟨_, .dayText hday⟩, ⟨_, .momentText htime⟩, ⟨_, .unset⟩⟩
  have hbefore := rewriting_datetimeLiterals hplain hfield hvalue
  have hothers := rewriting_datetimeLiterals hplain' hfield' hvalue
  exact ⟨hbefore.1 _ last moment rfl rfl (.day last) rfl,
    (hothers.2 given rfl hgiven (.inr ⟨moment, rfl⟩)).2 rfl⟩

end Pass

end QueryDomain
