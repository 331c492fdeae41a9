import QueryDomain.Proofs.Optimization.Exact
import QueryDomain.Proofs.Optimization.Meaning
import QueryDomain.Proofs.Records.Truth

/-! On a record of a regular catalog, the standard merges keep the truth value of the children that
they are given: sets are joined as their memberships are, and traversals as the domains inside them
are. -/
namespace QueryDomain

open List Domain

variable {k : Connective} {v : Condition → Bool}

theorem Connective.valueAll_and (ds : List Domain) : valueAll v .and ds = ds.all (·.value v) := by
  induction ds with
  | nil => rfl
  | cons d ds ih => rw [valueAll, ih, all_cons]; rfl

theorem Connective.valueAll_or (ds : List Domain) : valueAll v .or ds = ds.any (·.value v) := by
  induction ds with
  | nil => rfl
  | cons d ds ih => rw [valueAll, ih, any_cons]; rfl

namespace Value

/-- Of the values with a property, those that equal this one are `same`. -/
def Discerns (x : Value) (Q : Value → Prop) : Prop :=
  ∀ v w, Q v → Q w → x.equals v = true → x.equals w = true → v.same w = true

theorem discerns_of_isFloat {x : Value} (hx : x.isFloat = false) :
    x.Discerns fun v => v.isFloat = false := by
  intro v w hv hw hxv hxw
  rw [equals_eq_same hx hv, same_iff] at hxv
  rw [equals_eq_same hx hw, same_iff] at hxw
  rw [same_iff, hxv, hxw]

end Value

namespace ValueSet

theorem holds_ofList (values : List Value) (x : Value) :
    (ofList values).holds x = values.any x.equals :=
  any_ofList (fun _ _ => x.equals_congr) values

theorem holds_union (s t : ValueSet) (x : Value) :
    (s.union t).holds x = (s.holds x || t.holds x) := by
  rw [union, holds_ofList, any_append]
  rfl

variable {s t : ValueSet} {x : Value} {Q : Value → Prop}

theorem contains_eq_holds (hx : x.Discerns Q) (ht : ∀ w ∈ t.values, Q w) {v : Value} (hv : Q v)
    (hxv : x.equals v = true) : t.contains v = t.holds x := by
  rw [Bool.eq_iff_iff, contains, holds, any_eq_true, any_eq_true]
  constructor
  · rintro ⟨w, hw, hwv⟩
    exact ⟨w, hw, (x.equals_congr hwv).trans hxv⟩
  · rintro ⟨w, hw, hxw⟩
    exact ⟨w, hw, hx w v (ht w hw) hv hxw hxv⟩

theorem any_filter_contains (hx : x.Discerns Q) (hs : ∀ v ∈ s.values, Q v)
    (ht : ∀ w ∈ t.values, Q w) (test : Bool → Bool) :
    (s.values.filter fun v => test (t.contains v)).any x.equals =
      (s.holds x && test (t.holds x)) := by
  obtain ⟨values⟩ := s
  unfold holds
  induction values with
  | nil => rfl
  | cons v vs ih =>
    rw [forall_mem_cons] at hs
    have ih := ih hs.2
    rw [filter_cons, any_cons]
    cases hxv : x.equals v with
    | true =>
      rw [contains_eq_holds hx ht hs.1 hxv]
      split <;> simp_all [holds]
    | false => split <;> simp_all

theorem holds_intersection (hx : x.Discerns Q) (hs : ∀ v ∈ s.values, Q v)
    (ht : ∀ w ∈ t.values, Q w) : (s.intersection t).holds x = (s.holds x && t.holds x) := by
  rw [intersection, holds_ofList]
  exact any_filter_contains hx hs ht id

theorem holds_difference (hx : x.Discerns Q) (hs : ∀ v ∈ s.values, Q v)
    (ht : ∀ w ∈ t.values, Q w) : (s.difference t).holds x = (s.holds x && !t.holds x) := by
  rw [difference, holds_ofList]
  exact any_filter_contains hx hs ht not

end ValueSet

def Field.valueAt (field : Field) (path : String) (record : Record) : Value :=
  (⟨path, .mem, .set .empty, none⟩ : Condition).valueOn field record

structure Reads (v : Condition → Bool) (path : String) (x : Value) : Prop where
  mem : ∀ values mark, v ⟨path, .mem, .set values, mark⟩ = values.holds x
  notMem : ∀ values mark, v ⟨path, .notMem, .set values, mark⟩ = !values.holds x

namespace Merge.Membership

variable {path : String} {x : Value} {Q : Value → Prop}

def truth (k : Connective) (x : Value) (m : Membership) : Bool :=
  k.join (m.included.elim k.identity (·.holds x))
    (m.excluded.elim k.identity fun s => !s.holds x)

theorem holds_join_included (hx : x.Discerns Q) {acc : Option ValueSet} {values : ValueSet}
    (hacc : ∀ s, acc = some s → ∀ w ∈ s.values, Q w) (hvalues : ∀ w ∈ values.values, Q w) :
    (join k true acc values).holds x =
      k.join (acc.elim k.identity (·.holds x)) (values.holds x) := by
  cases acc with
  | none => simp [join]
  | some acc =>
    cases k with
    | and =>
      simpa [join, Connective.join] using ValueSet.holds_intersection hx (hacc acc rfl) hvalues
    | or => simp [join, Connective.join, ValueSet.holds_union]

theorem holds_join_excluded (hx : x.Discerns Q) {acc : Option ValueSet} {values : ValueSet}
    (hacc : ∀ s, acc = some s → ∀ w ∈ s.values, Q w) (hvalues : ∀ w ∈ values.values, Q w) :
    (!(join k false acc values).holds x) =
      k.join (acc.elim k.identity fun s => !s.holds x) (!values.holds x) := by
  cases acc with
  | none => simp [join]
  | some acc =>
    cases k with
    | and => simp [join, Connective.join, ValueSet.holds_union]
    | or => simp [join, Connective.join, ValueSet.holds_intersection hx (hacc acc rfl) hvalues]

def IsMember (path : String) (Q : Value → Prop) (d : Domain) : Prop :=
  ∃ c values, d = .condition c ∧ c.path = path ∧ c.operator.isMembership = true ∧
    c.operand = .set values ∧ ∀ w ∈ values.values, Q w

theorem IsMember.hasSet {d : Domain} (hd : IsMember path Q d) : HasSet d := by
  obtain ⟨c, values, rfl, -, -, hoperand, -⟩ := hd
  exact ⟨c, values, rfl, hoperand⟩

theorem IsMember.within_add {m : Membership} (hm : m.Within path Q) {d : Domain}
    (hd : IsMember path Q d) : (m.add k d).Within path Q := by
  obtain ⟨c, values, rfl, hpath, -, hoperand, hvalues⟩ := hd
  refine hm.add (fun c' hc' => ?_) fun c' values' hc' hoperand' => ?_
  · cases hc'
    exact hpath
  · cases hc'
    rw [hoperand, Operand.set.injEq] at hoperand'
    exact hoperand' ▸ hvalues

theorem truth_add (hreads : Reads v path x) (hx : x.Discerns Q) {m : Membership}
    (hm : m.Within path Q) {d : Domain} (hd : IsMember path Q d) :
    (m.add k d).truth k x = k.join (m.truth k x) (d.value v) := by
  obtain ⟨⟨p, operator, operand, mark⟩, values, rfl, rfl, hop, rfl, hvalues⟩ := hd
  cases operator with
  | mem =>
    simp only [add, if_true, truth, Option.elim_some, holds_join_included hx hm.included hvalues,
      Domain.value, hreads.mem]
    rw [k.join_assoc, k.join_assoc, k.join_comm (values.holds x)]
  | notMem =>
    simp only [add, reduceCtorEq, if_false, truth, Option.elim_some,
      holds_join_excluded hx hm.excluded hvalues, Domain.value, hreads.notMem]
    rw [k.join_assoc]
  | _ => cases hop

theorem truth_foldl (hreads : Reads v path x) (hx : x.Discerns Q) {run : List Domain}
    (hrun : ∀ d ∈ run, IsMember path Q d) {m : Membership} (hm : m.Within path Q) :
    (run.foldl (add k) m).truth k x = k.join (m.truth k x) (valueAll v k run) := by
  induction run generalizing m with
  | nil => simp [valueAll]
  | cons d ds ih =>
    rw [forall_mem_cons] at hrun
    rw [foldl_cons, ih hrun.2 (hrun.1.within_add hm), truth_add hreads hx hm hrun.1, k.join_assoc,
      valueAll]

theorem valueAll_condition? (hreads : Reads v path x) (hx : x.Discerns Q) {m : Membership}
    (hm : m.Within path Q) : valueAll v k (m.condition? k).toList = m.truth k x := by
  unfold condition? truth
  cases hpath : m.path with
  | none =>
    obtain ⟨hincluded, hexcluded⟩ := hm.started hpath
    simp [hincluded, hexcluded, valueAll]
  | some p =>
    obtain rfl := hm.path p hpath
    cases hincluded : m.included with
    | none =>
      cases hexcluded : m.excluded with
      | none => simp [valueAll]
      | some excluded => simp [valueAll, Domain.leaf, Domain.value, hreads.notMem]
    | some included =>
      cases hexcluded : m.excluded with
      | none => simp [valueAll, Domain.leaf, Domain.value, hreads.mem]
      | some excluded =>
        have hin := hm.included included hincluded
        have hout := hm.excluded excluded hexcluded
        cases k with
        | and =>
          simp [valueAll, Domain.leaf, Domain.value, hreads.mem, Connective.join,
            ValueSet.holds_difference hx hin hout, Connective.identity]
        | or =>
          simp [valueAll, Domain.leaf, Domain.value, hreads.notMem, Connective.join,
            ValueSet.holds_difference hx hout hin, Connective.identity, Bool.or_comm]

end Merge.Membership

open Merge.Membership in
theorem Merge.valueAll_joinSets {path : String} {x : Value} {Q : Value → Prop}
    (hreads : Reads v path x) (hx : x.Discerns Q) {run : List Domain}
    (hrun : ∀ d ∈ run, IsMember path Q d) :
    valueAll v k (joinSets k run) = valueAll v k run := by
  have hwithin : ∀ m : Membership, m.Within path Q → (run.foldl (add k) m).Within path Q := by
    clear hreads hx
    induction run with
    | nil => exact fun m hm => hm
    | cons d ds ih =>
      intro m hm
      rw [forall_mem_cons] at hrun
      exact ih hrun.2 _ (hrun.1.within_add hm)
  rw [joinSets_eq fun d hd => (hrun d hd).hasSet,
    valueAll_condition? hreads hx (hwithin {} within_empty),
    truth_foldl hreads hx hrun within_empty]
  cases k <;> rfl

namespace Merge

theorem valueAll_groups (run : List Domain) :
    k.join (k.join (valueAll v k (group .any run)) (valueAll v k (group .notAny run)))
      (valueAll v k (run.filter fun d => (inner? .any d).isNone && (inner? .notAny d).isNone)) =
      valueAll v k run := by
  induction run with
  | nil => simp [group, valueAll]
  | cons d ds ih =>
    rw [valueAll, ← ih]
    unfold group at ih ⊢
    simp only [filter_cons]
    cases hany : inner? .any d with
    | some inner =>
      have hnot := inner?_notAny_of_any (d := d) (by rw [hany]; rfl)
      simp only [hnot, Option.isSome_some, Option.isSome_none, Option.isNone_some, if_true,
        Bool.false_and, Bool.false_eq_true, if_false, valueAll, k.join_assoc]
    | none =>
      cases hnot : inner? .notAny d with
      | some inner =>
        simp only [Option.isSome_some, Option.isSome_none, Option.isNone_some, Bool.and_false,
          if_true, Bool.false_eq_true, if_false, valueAll]
        rw [← k.join_assoc, k.join_comm _ (d.value v), k.join_assoc (d.value v),
          k.join_assoc (d.value v)]
      | none =>
        simp only [Option.isSome_none, Option.isNone_none, Bool.and_self, if_true,
          Bool.false_eq_true, if_false, valueAll]
        rw [← k.join_assoc, k.join_comm _ (d.value v), k.join_assoc]

/-- The valuation takes a traversal of a path for the question whether one of some records has the
domain inside. -/
def Asks (v : Condition → Bool) (path : String) (records : List Record)
    (truth : Domain → Record → Bool) : Prop :=
  ∀ c inner, c.path = path → c.operator.isTraversal = true → c.operand = .domain inner →
    v c = (records.any (truth inner) == (c.operator == .any))

variable {path : String} {records : List Record} {truth : Domain → Record → Bool}

theorem group_value (hasks : Asks v path records truth) {operator : Operator}
    (hop : operator.isTraversal = true) {run : List Domain}
    (hpath : ∀ c, .condition c ∈ run → c.path = path) :
    (group operator run).map (·.value v) = (run.filterMap (inner? operator)).map
      fun inner => records.any (truth inner) == (operator == .any) := by
  induction run with
  | nil => rfl
  | cons d ds ih =>
    have ih := ih fun c hc => hpath c (mem_cons_of_mem _ hc)
    unfold group at ih ⊢
    cases hinner : inner? operator d with
    | none => simpa [hinner] using ih
    | some inner =>
      obtain ⟨c, rfl, rfl, hoperand⟩ := inner?_eq_some hinner
      have hvalue := hasks c inner (hpath c (mem_cons_self ..)) hop hoperand
      rw [filter_cons, hinner]
      simp only [Option.isSome_some, if_true, map_cons, filterMap_cons, hinner]
      rw [ih, Domain.value, hvalue]

/-- What joined domains mean for each record. -/
def JoinsTruth (truth : Domain → Record → Bool) : Prop :=
  ∀ inners r, truth (.or inners) r = inners.any (truth · r) ∧
    truth (.and inners) r = inners.all (truth · r)

theorem any_any_comm {α β : Type} (as : List α) (bs : List β) (P : α → β → Bool) :
    (as.any fun a => bs.any (P a)) = bs.any fun b => as.any (P · b) := by
  rw [Bool.eq_iff_iff]
  simp only [any_eq_true]
  constructor
  · rintro ⟨a, ha, b, hb, h⟩
    exact ⟨b, hb, a, ha, h⟩
  · rintro ⟨b, hb, a, ha, h⟩
    exact ⟨a, ha, b, hb, h⟩

theorem any_or (htruth : JoinsTruth truth) (inners : List Domain) :
    records.any (truth (.or inners)) = inners.any fun inner => records.any (truth inner) := by
  have hrecord : truth (.or inners) = fun r => inners.any (truth · r) :=
    funext fun r => (htruth inners r).1
  rw [hrecord]
  exact any_any_comm records inners fun r inner => truth inner r

theorem any_and (htruth : JoinsTruth truth) (hone : records.length ≤ 1) {inners : List Domain}
    (hsome : inners ≠ []) :
    records.any (truth (.and inners)) = inners.all fun inner => records.any (truth inner) := by
  match records, hone with
  | [], _ =>
    obtain ⟨inner, rest, rfl⟩ := exists_cons_of_ne_nil hsome
    simp
  | [r], _ =>
    simp only [any_cons, any_nil, Bool.or_false, (htruth inners r).2]

/-- Traversals with one operator are joined with the truth value that they have together: their
domains may be met in different records where they are united, and else there is but one. -/
theorem valueAll_traversals (hasks : Asks v path records truth) (htruth : JoinsTruth truth)
    {operator : Operator} (hop : operator.isTraversal = true) {single : Bool}
    (hsingle : single = true → records.length ≤ 1) {run : List Domain}
    (hpath : ∀ c, .condition c ∈ run → c.path = path) :
    valueAll v k (traversals k operator (isMergeable k single run operator) run) =
      valueAll v k (group operator run) := by
  cases hmergeable : isMergeable k single run operator with
  | false => rfl
  | true =>
    obtain ⟨c, _, hmem, rfl, -, hsingleton⟩ := traversals_eq_singleton hmergeable
    simp only [isMergeable, Bool.and_eq_true, Bool.or_eq_true, decide_eq_true_eq] at hmergeable
    obtain ⟨hunites, hlong⟩ := hmergeable
    have hjoined : v (c.withOperand (.domain (joinedInner k c.operator run))) =
        (records.any (truth (joinedInner k c.operator run)) == (c.operator == .any)) :=
      hasks _ _ (hpath c hmem) hop rfl
    have hsome : run.filterMap (inner? c.operator) ≠ [] := by
      intro hnil
      rw [hnil] at hlong
      simp at hlong
    have hvalues := group_value hasks hop hpath
    rw [hsingleton, valueAll, valueAll, k.join_identity, Domain.value, hjoined]
    unfold joinedInner
    generalize run.filterMap (inner? c.operator) = inners at hvalues hsome ⊢
    have hone : unites k c.operator = false → records.length ≤ 1 := by
      intro hmeets
      rw [hmeets] at hunites
      exact hsingle (hunites.resolve_left Bool.false_ne_true)
    cases k with
    | and =>
      have hall : (group c.operator run).all (·.value v) =
          inners.all fun inner => records.any (truth inner) == (c.operator == .any) := by
        simpa [all_map, Function.comp_def] using congrArg (all · id) hvalues
      rw [Connective.valueAll_and, hall]
      cases hoperator : c.operator <;> rw [hoperator] at hop hone <;> cases hop
      · have hmeets := any_and htruth (hone rfl) hsome
        simpa [unites] using hmeets
      · have hunited : records.any (truth (.or inners)) = _ := any_or htruth inners
        change (records.any (truth (.or inners)) == false) =
          inners.all fun inner => records.any (truth inner) == false
        simp only [hunited, beq_false, not_any_eq_all_not]
    | or =>
      have hany : (group c.operator run).any (·.value v) =
          inners.any fun inner => records.any (truth inner) == (c.operator == .any) := by
        simpa [any_map, Function.comp_def] using congrArg (any · id) hvalues
      rw [Connective.valueAll_or, hany]
      cases hoperator : c.operator <;> rw [hoperator] at hop hone <;> cases hop
      · have hunited : records.any (truth (.or inners)) = _ := any_or htruth inners
        simpa [unites] using hunited
      · have hmeets := any_and htruth (hone rfl) hsome
        change (records.any (truth (.and inners)) == false) =
          inners.any fun inner => records.any (truth inner) == false
        simp only [hmeets, beq_false, not_all_eq_any_not]

theorem valueAll_joinAnys (hasks : Asks v path records truth) (htruth : JoinsTruth truth)
    {entity : Entity} (hsingle : leadsToOne entity path = true → records.length ≤ 1)
    {run : List Domain} (hpath : ∀ c, .condition c ∈ run → c.path = path) :
    valueAll v k (joinAnys k entity run) = valueAll v k run := by
  match run, hpath with
  | .condition first :: rest, hpath =>
    obtain rfl := hpath first (mem_cons_self ..)
    dsimp only [joinAnys]
    split
    · rfl
    · rw [Connective.valueAll_append, Connective.valueAll_append,
        valueAll_traversals hasks htruth rfl hsingle hpath,
        valueAll_traversals hasks htruth rfl hsingle hpath, valueAll_groups]
  | [], _ | .constant _ :: _, _ | .negation _ :: _, _ | .nary _ _ _ :: _, _ => rfl

end Merge

namespace Optimizer

theorem valueAll_runs {scope : MergeScope} {entity : Entity} {merge : List Domain → List Domain}
    {children : List Domain}
    (h : ∀ path run, (∀ d ∈ run, d ∈ children ∧ scope.runKey? d = some path) →
      valueAll v k (merge run) = valueAll v k run) :
    valueAll v k (replaceRuns (isMerged scope entity) merge (runsBy scope.runKey? children)) =
      valueAll v k children := by
  have hgroups : ∀ groups : List (Option String × List Domain),
      (∀ group ∈ groups, ∀ d ∈ group.2, d ∈ children ∧ scope.runKey? d = group.1) →
      valueAll v k (replaceRuns (isMerged scope entity) merge groups) =
        valueAll v k (groups.flatMap (·.2)) := by
    intro groups hgroups
    induction groups with
    | nil => rfl
    | cons group groups ih =>
      rw [forall_mem_cons] at hgroups
      rw [replaceRuns, flatMap_cons, flatMap_cons, Connective.valueAll_append,
        Connective.valueAll_append, ← replaceRuns, ih hgroups.2]
      congr 1
      split
      · rename_i htaken
        obtain ⟨_ | path, run⟩ := group
        · cases htaken
        · exact h path run hgroups.1
      · rfl
  rw [hgroups _ fun group hgroup => mem_runsBy hgroup, flatMap_runsBy]

end Optimizer

namespace Condition.Kept

variable {catalog : Catalog} {level : Level} {entity : Entity} {c : Condition}

/-- A traversal that is kept has the name of a field for its path, or starts from the identifier,
which may hold a document. -/
theorem plain_or_id (h : c.Kept catalog level entity) (hop : c.operator.isTraversal = true) :
    c.rest? = none ∨ c.head = Entity.idName := by
  obtain ⟨field, hfield, hrest | ⟨hrelational, -⟩⟩ := h.resolved
  · exact .inl hrest
  · obtain ⟨target, htarget⟩ := h.related hop
    unfold Catalog.target? at htarget
    rw [hfield, Option.bind_some, hrelational] at htarget
    split at htarget
    · exact .inr ((Entity.name_of_field? hfield).symm.trans ‹_›)
    · cases htarget

end Condition.Kept

theorem FieldType.eq_many2one {type : FieldType} (h : type.isRelational = true)
    (hone : type.isX2Many = false) : type = .many2one := by
  cases type <;> simp_all [isRelational, isX2Many]

namespace Catalog

variable {catalog : Catalog} {entity : Entity} {record : Record}

theorem length_reached_le {path : String} {target : Entity} {records : List Record}
    (hpath : (Text.cut '.' path).2 = none ∨ (Text.cut '.' path).1 = Entity.idName)
    (h : Merge.leadsToOne entity path = true)
    (hreached : catalog.reached path entity record = some (target, records)) :
    records.length ≤ 1 := by
  unfold Merge.leadsToOne at h
  unfold reached at hreached
  obtain ⟨field, hfield, hreached⟩ := Option.bind_eq_some_iff.1 hreached
  split at hreached
  · cases hreached
    exact Nat.le_refl _
  · rename_i hid
    have hname := Entity.name_of_field? hfield
    rw [Text.cut_fst_of_none (hpath.resolve_right (hname ▸ hid))] at hfield
    rw [hfield] at h
    split at hreached
    · rename_i hrelational
      obtain ⟨target', -, hreached⟩ := Option.map_eq_some_iff.1 hreached
      cases hreached
      rw [linked_many2one (FieldType.eq_many2one hrelational (by simpa using h))]
      exact Option.length_toList_le
    · cases hreached

theorem Regular.isFloat_valueOn (hregular : catalog.Regular) {name : String}
    (hrecord : record ∈ catalog.records name) (c : Condition) (field : Field) :
    (c.valueOn field record).isFloat = false := by
  unfold Condition.valueOn
  split
  · unfold Json.property
    split <;> rfl
  · have hjson : ∀ json, Record.get? record field.name = some json →
        ((Value.ofJson? json).getD .null).isFloat = false := by
      intro json hjson
      have hfloat := hregular.integers name record hrecord field.name json hjson
      cases hvalue : Value.ofJson? json with
      | none => rfl
      | some v =>
        rw [hvalue] at hfloat
        cases v with
        | float x => exact absurd rfl (hfloat x)
        | _ => rfl
    unfold Field.valueOf
    split
    · rfl
    · rfl
    · rfl
    · cases Date.read? _ <;> rfl
    · cases Timestamp.read? _ <;> rfl
    · exact hjson _ (by assumption)

theorem reads_valuation {path : String} {field : Field}
    (hfield : entity.field? (Text.cut '.' path).1 = some field) :
    Reads (catalog.valuation entity record) path (field.valueAt path record) where
  mem _ _ := truth_test rfl hfield
  notMem _ _ := truth_test rfl hfield

theorem asks_valuation {path : String} {target : Entity} {records : List Record}
    (hreached : catalog.reached path entity record = some (target, records)) :
    Merge.Asks (catalog.valuation entity record) path records (catalog.truth · target) := by
  rintro c inner rfl hop hoperand
  exact truth_traversal hop hoperand hreached

theorem joinsTruth (catalog : Catalog) (target : Entity) :
    Merge.JoinsTruth (catalog.truth · target) := by
  intro inners r
  simp only [truth_eq, Domain.or, Domain.and, Connective.value_apply, Connective.valueAll_or,
    Connective.valueAll_and, and_self]

theorem isMember_of_settled {level : Level} {c : Condition}
    (hsettled : Settled catalog level (.condition c) entity)
    (hexact : IsExact catalog (.condition c) entity) (hop : c.operator.isMembership = true) :
    Merge.Membership.IsMember c.path (fun v => v.isFloat = false) (.condition c) := by
  cases hsettled with
  | condition hkept _ =>
    obtain ⟨values, hoperand, -⟩ := hkept.membership hop
    refine ⟨c, values, rfl, rfl, hop, hoperand, fun w hw => ?_⟩
    exact hexact.of_condition.noFloat w (by rwa [hoperand])

/-- Merging settled children keeps their truth value on every record of the catalog. -/
theorem valueAll_mergeAll (hregular : catalog.Regular)
    (hrecord : record ∈ catalog.records entity.name) {level : Level} {children : List Domain}
    (hsettled : ∀ d ∈ children, Settled catalog level d entity)
    (hexact : ∀ d ∈ children, IsExact catalog d entity) :
    valueAll (catalog.valuation entity record) k (Optimizer.mergeAll k entity children) =
      valueAll (catalog.valuation entity record) k children := by
  have hdistinct : valueAll (catalog.valuation entity record) k (Merge.distinct [] children) =
      valueAll (catalog.valuation entity record) k children := by
    simpa [valueAll] using Optimizer.valueAll_distinct (k := k)
      (respectsSame_valuation catalog entity record) [] children
  have hmem : ∀ d ∈ Merge.distinct [] children, d ∈ children :=
    fun d hd => (Merge.distinct_sublist [] children).mem hd
  -- After the merge of memberships, what traverses is still one of the children.
  have hkind : ∀ d ∈ Optimizer.replaceRuns (Optimizer.isMerged Optimizer.setScope entity)
      (Merge.joinSets k) (Optimizer.runsBy Optimizer.setScope.runKey?
        (Merge.distinct [] children)),
      d ∈ children ∨ ∀ c, d = .condition c → c.operator.isTraversal = false := by
    refine Optimizer.forall_mem_runs (fun d hd => .inl (hmem d hd)) fun path run hrun _ d hd => ?_
    have hpath : ∀ c, .condition c ∈ run → c.path = path := by
      intro c hc
      obtain ⟨c', hc', hpath, -⟩ := Optimizer.setScope_key (hrun _ hc).2
      cases hc'
      exact hpath
    obtain hd | ⟨operator, values, hop, rfl, -⟩ := Merge.mem_joinSets_of_path hpath hd
    · exact .inl (hmem d (hrun d hd).1)
    · refine .inr fun c hc => ?_
      cases hc
      change operator.isTraversal = false
      cases operator <;> first
        | rfl
        | cases hop
  unfold Optimizer.mergeAll
  dsimp only
  rw [Optimizer.valueAll_runs, Optimizer.valueAll_runs, hdistinct]
  · intro path run hrun
    cases run with
    | nil => rfl
    | cons first rest =>
      have hmembers : ∀ d ∈ first :: rest,
          Merge.Membership.IsMember path (fun v => v.isFloat = false) d := by
        intro d hd
        obtain ⟨hd', hkey⟩ := hrun d hd
        obtain ⟨c, rfl, rfl, hop⟩ := Optimizer.setScope_key hkey
        exact isMember_of_settled (hsettled _ (hmem _ hd')) (hexact _ (hmem _ hd')) hop
      obtain ⟨hfirst, hkey⟩ := hrun first (mem_cons_self ..)
      obtain ⟨c, rfl, rfl, hop⟩ := Optimizer.setScope_key hkey
      cases hsettled _ (hmem _ hfirst) with
      | condition hkept _ =>
        obtain ⟨field, hfield, -⟩ := hkept.resolved
        exact Merge.valueAll_joinSets (reads_valuation hfield)
          (Value.discerns_of_isFloat (hregular.isFloat_valueOn hrecord _ field)) hmembers
  · intro path run hrun
    have hpath : ∀ c, .condition c ∈ run → c.path = path := by
      intro c hc
      obtain ⟨c', hc', hpath, -⟩ := Optimizer.anyScope_key (hrun _ hc).2
      cases hc'
      exact hpath
    cases run with
    | nil => rfl
    | cons first rest =>
      obtain ⟨hfirst, hkey⟩ := hrun first (mem_cons_self ..)
      obtain ⟨c, rfl, rfl, hop⟩ := Optimizer.anyScope_key hkey
      obtain hchild | hnot := hkind _ hfirst
      · cases hsettled _ hchild with
        | condition hkept _ =>
          obtain ⟨target, htarget⟩ := hkept.related hop
          obtain ⟨records, hreached⟩ := exists_reached htarget record
          exact Merge.valueAll_joinAnys (asks_valuation hreached) (joinsTruth catalog target)
            (fun h => length_reached_le (hkept.plain_or_id hop) h hreached) hpath
      · rw [hnot c rfl] at hop
        cases hop

end Catalog

end QueryDomain
