import QueryDomain.Proofs.Records.Search

/-! What the standard merges make of a run holds on the records that the run holds on: memberships
of one field, where the value that is read tells the listed values apart, and traversals of one
field, where the domains inside can be evaluated. -/
namespace QueryDomain

open List Domain

namespace Catalog

variable {catalog : Catalog} {entity : Entity} {record : Record} {k : Connective} {d : Domain}
  {mark : Option Mark}

def Evaluates (catalog : Catalog) (d : Domain) (entity : Entity) (record : Record) : Prop :=
  ∃ b, catalog.holds d entity record = .ok b

theorem Evaluates.holds_eq (h : catalog.Evaluates d entity record) :
    catalog.holds d entity record = .ok (catalog.truth d entity record) := by
  obtain ⟨b, hb⟩ := h
  rw [hb, truth_of_holds hb]

theorem evaluates_nary_nil : catalog.Evaluates (.nary k [] mark) entity record :=
  ⟨_, holds_nary_nil⟩

theorem evaluates_nary_cons {ds : List Domain} :
    catalog.Evaluates (.nary k (d :: ds) mark) entity record ↔
      ∃ b, catalog.holds d entity record = .ok b ∧
        (b = k.identity → catalog.Evaluates (.nary k ds mark) entity record) := by
  simp only [Evaluates, holds_nary_cons]
  constructor
  · rintro ⟨b, found, hd, h⟩
    exact ⟨found, hd, fun hidentity => ⟨b, by rwa [if_pos hidentity] at h⟩⟩
  · rintro ⟨found, hd, h⟩
    by_cases hidentity : found = k.identity
    · obtain ⟨b, hb⟩ := h hidentity
      exact ⟨b, found, hd, by rwa [if_pos hidentity]⟩
    · exact ⟨k.absorbing, found, hd, by rw [if_neg hidentity]⟩

theorem evaluates_nary {ds : List Domain} (h : ∀ d ∈ ds, catalog.Evaluates d entity record) :
    catalog.Evaluates (.nary k ds mark) entity record :=
  ⟨_, holds_nary fun d hd => (h d hd).holds_eq⟩

theorem Evaluates.append {ds es : List Domain}
    (hds : catalog.Evaluates (.nary k ds mark) entity record)
    (hes : catalog.Evaluates (.nary k es mark) entity record) :
    catalog.Evaluates (.nary k (ds ++ es) mark) entity record := by
  induction ds with
  | nil => exact hes
  | cons d ds ih =>
    obtain ⟨b, hb, hrest⟩ := evaluates_nary_cons.1 hds
    exact evaluates_nary_cons.2 ⟨b, hb, fun hidentity => ih (hrest hidentity)⟩

theorem Evaluates.contribution {new : List Domain} (h : catalog.Evaluates d entity record)
    (hnew : k.contribution? d = some new) :
    catalog.Evaluates (.nary k new mark) entity record := by
  have hself : catalog.Evaluates (.nary k [d] mark) entity record :=
    evaluates_nary (forall_mem_singleton.2 h)
  unfold Connective.contribution? at hnew
  split at hnew
  · split at hnew <;> cases hnew
    exact evaluates_nary_nil
  · split at hnew <;> cases hnew
    · rename_i hkind
      subst hkind
      cases k <;> simpa only [Evaluates, holds] using h
    · exact hself
  · cases hnew
    exact hself

/-- Joined domains can be evaluated where each of them can: what is collected of them stands in
their order, so that a part that fails is not reached before. -/
theorem evaluates_apply {ds : List Domain} (h : ∀ d ∈ ds, catalog.Evaluates d entity record) :
    catalog.Evaluates (k.apply ds) entity record := by
  have hcollected : ∀ children, k.collect? ds = some children →
      catalog.Evaluates (.nary k children none) entity record := by
    induction ds with
    | nil =>
      rintro _ ⟨⟩
      exact evaluates_nary_nil
    | cons d ds ih =>
      intro children hchildren
      rw [forall_mem_cons] at h
      rw [Connective.collect?] at hchildren
      split at hchildren
      · cases hchildren
      · rename_i new hnew
        obtain ⟨rest, hrest, rfl⟩ := Option.map_eq_some_iff.1 hchildren
        exact (h.1.contribution hnew).append (ih h.2 rest hrest)
  unfold Connective.apply
  split
  · exact ⟨_, rfl⟩
  · rename_i children hchildren
    have hnode := hcollected children hchildren
    unfold Connective.node
    split
    · exact ⟨_, rfl⟩
    · obtain ⟨b, hb, -⟩ := evaluates_nary_cons.1 hnode
      exact ⟨b, hb⟩
    · exact hnode

theorem evaluates_traversal {c : Condition} (hop : c.operator.isTraversal = true) {inner : Domain}
    (hoperand : c.operand = .domain inner) {target : Entity} {records : List Record}
    (hreached : catalog.reached c.path entity record = some (target, records))
    (h : ∀ r ∈ records, catalog.Evaluates inner target r) :
    catalog.Evaluates (.condition c) entity record := by
  have hany : anyRecord (catalog.holds inner target) records =
      .ok (records.any (catalog.truth inner target)) :=
    anyRecord_ok fun r hr => (h r hr).holds_eq
  unfold Evaluates
  rw [holds_condition, hoperand]
  exact ⟨_, (conditionHolds_of_traversal hop).2 ⟨target, records, _, hreached, hany, rfl⟩⟩

theorem evaluates_membership {c : Condition} (hop : c.operator.isMembership = true)
    {values : ValueSet} (hoperand : c.operand = .set values) {field : Field}
    (hfield : entity.field? (Text.cut '.' c.path).1 = some field) :
    catalog.Evaluates (.condition c) entity record := by
  have htest : c.operator.isTraversal = false := by
    cases hoperator : c.operator <;> rw [hoperator] at hop <;> first
      | contradiction
      | rfl
  unfold Evaluates
  rw [holds_condition]
  exact ⟨_, (conditionHolds_of_test htest _).2
    ⟨field, hfield, Condition.test_membership hop hoperand _⟩⟩

theorem holds_nary_eq {ds es : List Domain}
    (hds : catalog.Evaluates (.nary k ds none) entity record)
    (hes : catalog.Evaluates (.nary k es none) entity record)
    (h : valueAll (catalog.valuation entity record) k ds =
      valueAll (catalog.valuation entity record) k es) :
    catalog.holds (.nary k ds none) entity record =
      catalog.holds (.nary k es none) entity record := by
  rw [hds.holds_eq, hes.holds_eq, truth_eq, truth_eq, Domain.value, Domain.value, h]

end Catalog

namespace Merge

variable {ctx : Context} {k : Connective} {run : List Domain} {record : Record} {field : Field}

def IsListed (run : List Domain) (w : Value) : Prop :=
  ∃ c values, .condition c ∈ run ∧ c.operand = .set values ∧ w ∈ values.values

/-- Joined memberships hold on the records that the run holds on, where the value that is read
equals no two of the listed values. -/
theorem holds_sets {path : String}
    (hfield : ctx.entity.field? (Text.cut '.' path).1 = some field)
    (hrun : ∀ d ∈ run, ∃ c values, d = .condition c ∧ c.path = path ∧
      c.operator.isMembership = true ∧ c.operand = .set values)
    (hdiscerns : (field.valueAt path record).Discerns (IsListed run)) :
    ∃ merged b, (sets k run ctx).result = .ok merged ∧
      ctx.catalog.holds (.nary k merged none) ctx.entity record = .ok b ∧
      ctx.catalog.holds (.nary k run none) ctx.entity record = .ok b := by
  have hpath : ∀ c, .condition c ∈ run → c.path = path := by
    intro c hc
    obtain ⟨c', values, hc', hpath, -⟩ := hrun _ hc
    cases hc'
    exact hpath
  have hmember : ∀ d ∈ run, Membership.IsMember path (IsListed run) d := by
    intro d hd
    obtain ⟨c, values, rfl, hpath, hop, hoperand⟩ := hrun d hd
    exact ⟨c, values, rfl, hpath, hop, hoperand, fun w hw => ⟨c, values, hd, hoperand, hw⟩⟩
  have hevaluates : ∀ d ∈ run, ctx.catalog.Evaluates d ctx.entity record := by
    intro d hd
    obtain ⟨c, values, rfl, rfl, hop, hoperand⟩ := hrun d hd
    exact Catalog.evaluates_membership hop hoperand hfield
  have hjoined : ∀ d ∈ joinSets k run, ctx.catalog.Evaluates d ctx.entity record := by
    intro d hd
    obtain hd | ⟨operator, values, hop, rfl, -⟩ := mem_joinSets_of_path hpath hd
    · exact hevaluates d hd
    · exact Catalog.evaluates_membership hop rfl hfield
  have hrun : ctx.catalog.Evaluates (.nary k run none) ctx.entity record :=
    Catalog.evaluates_nary hevaluates
  obtain ⟨b, hb⟩ := hrun
  refine ⟨joinSets k run, b, rfl, ?_, hb⟩
  rw [← hb]
  exact Catalog.holds_nary_eq (Catalog.evaluates_nary hjoined) ⟨b, hb⟩
    (valueAll_joinSets (Catalog.reads_valuation hfield) hdiscerns hmember)

/-- Sizes in whole numbers and parts: the size 0 is in `{0, 1}` and not in `{0.5, null}`. -/
theorem holds_sets_size :
    let size : Field := { name := "size", type := .float }
    let entity : Entity := { name := "line", fields := [size] }
    let half : Value := .float ⟨false, 0x3FE0000000000000⟩
    let run : List Domain := [.leaf "size" .mem (.set ⟨[.int 0, .int 1]⟩),
      .leaf "size" .notMem (.set ⟨[half, .null]⟩)]
    let ctx := Optimizer.standard.contextAt { entities := [entity] } 0 .basic entity
    let record : Record := [("id", .integer 7), ("size", .integer 0)]
    (∀ d ∈ run, ∃ c values, d = .condition c ∧ c.path = "size" ∧
        c.operator.isMembership = true ∧ c.operand = .set values) ∧
      (size.valueAt "size" record).Discerns (IsListed run) ∧
      ∃ merged b, (sets .and run ctx).result = .ok merged ∧
        ctx.catalog.holds (.nary .and merged none) entity record = .ok b ∧
        ctx.catalog.holds (.nary .and run none) entity record = .ok b := by
  intro size entity half run ctx record
  have hrun : ∀ d ∈ run, ∃ c values, d = .condition c ∧ c.path = "size" ∧
      c.operator.isMembership = true ∧ c.operand = .set values :=
    forall_mem_cons.2 ⟨⟨_, _, rfl, rfl, rfl, rfl⟩,
      forall_mem_singleton.2 ⟨_, _, rfl, rfl, rfl, rfl⟩⟩
  have hlisted : ∀ w, IsListed run w → w ∈ [.int 0, .int 1, half, .null] := by
    rintro w ⟨c, values, hc, hoperand, hw⟩
    obtain hc | hc := mem_cons.1 hc
    · cases hc
      cases hoperand
      exact mem_append_left [half, .null] hw
    · cases mem_singleton.1 hc
      cases hoperand
      exact mem_append_right [.int 0, .int 1] hw
  have hdiscerns : (size.valueAt "size" record).Discerns (IsListed run) := by
    have hvalue : size.valueAt "size" record = .int 0 := by cbv
    have hequal : ∀ w ∈ [.int 0, .int 1, half, .null],
        (Value.int 0).equals w = true → w = .int 0 := by decide
    intro v w hv hw hxv hxw
    rw [hvalue] at hxv hxw
    rw [hequal v (hlisted v hv) hxv, hequal w (hlisted w hw) hxw]
    exact Value.same_refl _
  exact ⟨hrun, hdiscerns, holds_sets (by cbv) hrun hdiscerns⟩

/-- The size 0 is in `{0}` and in `{0.0}`, which have no value in common. -/
theorem holds_sets_not_kept :
    let entity : Entity := { name := "line", fields := [{ name := "size", type := .integer }] }
    let record : Record := [("id", .integer 1), ("size", .integer 0)]
    let catalog : Catalog := { entities := [entity], tables := [("line", [record])] }
    let whole : Domain := .leaf "size" .mem (.set ⟨[.int 0]⟩)
    let real : Domain := .leaf "size" .mem (.set ⟨[.float (.zero false)]⟩)
    let nothing : Domain := .leaf "size" .mem (.set .empty)
    let ctx := Optimizer.standard.contextAt catalog 0 .basic entity
    (sets .and [whole, real] ctx).result = .ok [nothing] ∧
      catalog.holds (.nary .and [whole, real] none) entity record = .ok true ∧
      catalog.holds (.nary .and [nothing] none) entity record = .ok false ∧
      (catalog.search entity whole).result = .ok [1] ∧
      (catalog.search entity real).result = .ok [1] ∧
      (catalog.search entity (.and [whole, real])).result = .ok [] := by
  intro entity record catalog whole real nothing ctx
  have hle : 3 ≤ Optimizer.defaultDepth := by decide
  refine ⟨by cbv, by cbv, by cbv, ?_, ?_, ?_⟩
  all_goals exact Catalog.searchWithin_of_le hle (by cbv)

/-- Whether a child traverses to a domain, and not to a query written by hand. -/
def hasInner (d : Domain) : Bool := (inner? .any d).isSome || (inner? .notAny d).isSome

theorem hasInner_eq_true {d : Domain} : hasInner d = true ↔
    ∃ c inner, d = .condition c ∧ c.operator.isTraversal = true ∧ c.operand = .domain inner := by
  unfold hasInner
  rw [Bool.or_eq_true, Option.isSome_iff_exists, Option.isSome_iff_exists]
  constructor
  · rintro (⟨inner, h⟩ | ⟨inner, h⟩) <;> obtain ⟨c, rfl, hop, hoperand⟩ := inner?_eq_some h
    · exact ⟨c, inner, rfl, by rw [hop]; rfl, hoperand⟩
    · exact ⟨c, inner, rfl, by rw [hop]; rfl, hoperand⟩
  · rintro ⟨⟨path, operator, operand, mark⟩, inner, rfl, hop, rfl⟩
    cases operator <;> first
      | exact .inl ⟨inner, rfl⟩
      | exact .inr ⟨inner, rfl⟩
      | cases hop

theorem filter_hasInner_eq_nil {ds : List Domain} :
    ds.filter hasInner = [] ↔ ¬∃ d ∈ ds, hasInner d = true := by
  simp [filter_eq_nil_iff]

theorem joinAnys_cases (entity : Entity) (run : List Domain) :
    joinAnys k entity run = run ∨ ∃ single,
      joinAnys k entity run = traversals k .any (isMergeable k single run .any) run ++
        traversals k .notAny (isMergeable k single run .notAny) run ++
        run.filter fun d => !hasInner d := by
  match run with
  | .condition first :: rest =>
    dsimp only [joinAnys]
    split
    · exact .inl rfl
    · refine .inr ⟨leadsToOne entity first.path, ?_⟩
      congr 2
      funext d
      rw [hasInner, Bool.not_or, Option.not_isSome, Option.not_isSome]
  | [] | .constant _ :: _ | .negation _ :: _ | .nary _ _ _ :: _ => exact .inl rfl

theorem hasInner_of_mem_traversals {operator : Operator} (hop : operator.isTraversal = true)
    {single : Bool} {d : Domain}
    (h : d ∈ traversals k operator (isMergeable k single run operator) run) :
    hasInner d = true := by
  rw [hasInner_eq_true]
  cases hmergeable : isMergeable k single run operator with
  | false =>
    rw [hmergeable] at h
    obtain ⟨inner, hinner⟩ := Option.isSome_iff_exists.1 (mem_filter.1 h).2
    obtain ⟨c, rfl, rfl, hoperand⟩ := inner?_eq_some hinner
    exact ⟨c, inner, rfl, hop, hoperand⟩
  | true =>
    obtain ⟨c, inner, -, rfl, -, hjoined⟩ := traversals_eq_singleton hmergeable
    rw [hmergeable, hjoined, mem_singleton] at h
    exact ⟨_, _, h, hop, rfl⟩

theorem filter_joinAnys (entity : Entity) (run : List Domain) :
    ((joinAnys k entity run).filter fun d => !hasInner d) = run.filter fun d => !hasInner d := by
  obtain h | ⟨single, h⟩ := joinAnys_cases (k := k) entity run
  · rw [h]
  · have hnone : ∀ operator : Operator, operator.isTraversal = true →
        ((traversals k operator (isMergeable k single run operator) run).filter
          fun d => !hasInner d) = [] := by
      intro operator hop
      rw [filter_eq_nil_iff]
      intro d hd
      rw [hasInner_of_mem_traversals hop hd]
      exact Bool.false_ne_true
    rw [h, filter_append, filter_append, hnone .any rfl, hnone .notAny rfl, filter_filter]
    simp

theorem exists_hasInner_joinAnys (entity : Entity) (run : List Domain) :
    (∃ d ∈ joinAnys k entity run, hasInner d = true) ↔ ∃ d ∈ run, hasInner d = true := by
  constructor
  · rintro ⟨d, hd, hinner⟩
    obtain hd | ⟨c, hc, ⟨inner, hoperand⟩, rfl⟩ := mem_joinAnys hd
    · exact ⟨d, hd, hinner⟩
    · obtain ⟨_, -, ⟨⟩, hop, -⟩ := hasInner_eq_true.1 hinner
      exact ⟨_, hc, hasInner_eq_true.2 ⟨c, inner, rfl, hop, hoperand⟩⟩
  · rintro ⟨d, hd, hinner⟩
    obtain h | ⟨single, h⟩ := joinAnys_cases (k := k) entity run
    · rw [h]
      exact ⟨d, hd, hinner⟩
    · have htraversals : ∀ operator : Operator, operator.isTraversal = true →
          (inner? operator d).isSome = true →
          ∃ e ∈ traversals k operator (isMergeable k single run operator) run,
            hasInner e = true := by
        intro operator hop hsome
        cases hmergeable : isMergeable k single run operator with
        | false => exact ⟨d, mem_filter.2 ⟨hd, hsome⟩, hinner⟩
        | true =>
          obtain ⟨c, -, -, rfl, -, hjoined⟩ := traversals_eq_singleton hmergeable
          rw [hjoined]
          exact ⟨_, mem_singleton_self _, hasInner_eq_true.2 ⟨_, _, rfl, hop, rfl⟩⟩
      rw [h]
      obtain hsome | hsome := Bool.or_eq_true_iff.1 hinner
      · obtain ⟨e, he, heinner⟩ := htraversals .any rfl hsome
        exact ⟨e, mem_append_left _ (mem_append_left _ he), heinner⟩
      · obtain ⟨e, he, heinner⟩ := htraversals .notAny rfl hsome
        exact ⟨e, mem_append_left _ (mem_append_right _ he), heinner⟩

section Traversals

variable {catalog : Catalog} {entity : Entity} {path : String}

/-- A traversal of the path, whose domain can be evaluated on every record that it leads to. -/
def Answers (catalog : Catalog) (path : String) (entity : Entity) (record : Record)
    (d : Domain) : Prop :=
  ∃ c, d = .condition c ∧ c.path = path ∧ c.operator.isTraversal = true ∧
    ∀ inner target records, c.operand = .domain inner →
      catalog.reached path entity record = some (target, records) →
      ∀ r ∈ records, catalog.Evaluates inner target r

theorem answers_joinAnys (h : ∀ d ∈ run, Answers catalog path entity record d) :
    ∀ d ∈ joinAnys k entity run, Answers catalog path entity record d := by
  intro d hd
  obtain hd | ⟨c, hc, -, rfl⟩ := mem_joinAnys hd
  · exact h d hd
  · obtain ⟨c', hc', hpath, hop, -⟩ := h _ hc
    cases hc'
    refine ⟨_, rfl, hpath, hop, ?_⟩
    rintro _ target records ⟨⟩ hreached r hr
    have hinners : ∀ inner ∈ run.filterMap (inner? c.operator),
        catalog.Evaluates inner target r := by
      intro inner hinner
      obtain ⟨c', hc', -, hoperand⟩ := mem_inners hinner
      obtain ⟨_, ⟨⟩, -, -, hanswers⟩ := h _ hc'
      exact hanswers inner target records hoperand hreached r hr
    unfold joinedInner
    split
    · exact Catalog.evaluates_apply hinners
    · exact Catalog.evaluates_apply hinners

theorem evaluates_filter_iff {ds : List Domain}
    (h : ∀ d ∈ ds, Answers catalog path entity record d) :
    catalog.Evaluates (.nary k (ds.filter hasInner) none) entity record ↔
      (catalog.reached path entity record).isSome = true ∨ ¬∃ d ∈ ds, hasInner d = true := by
  constructor
  · intro hevaluates
    cases hds : ds.filter hasInner with
    | nil => exact .inr (filter_hasInner_eq_nil.1 hds)
    | cons d rest =>
      rw [hds] at hevaluates
      obtain ⟨b, hb, -⟩ := Catalog.evaluates_nary_cons.1 hevaluates
      have hd : d ∈ ds.filter hasInner := by
        rw [hds]
        exact mem_cons_self ..
      obtain ⟨hmem, hinner⟩ := mem_filter.1 hd
      obtain ⟨c, inner, rfl, hop, hoperand⟩ := hasInner_eq_true.1 hinner
      obtain ⟨_, ⟨⟩, rfl, -, -⟩ := h _ hmem
      rw [Catalog.holds_condition, hoperand] at hb
      obtain ⟨target, records, -, hreached, -⟩ := (Catalog.conditionHolds_of_traversal hop).1 hb
      exact .inl (Option.isSome_iff_exists.2 ⟨_, hreached⟩)
  · rintro (hsome | hnone)
    · obtain ⟨⟨target, records⟩, hreached⟩ := Option.isSome_iff_exists.1 hsome
      refine Catalog.evaluates_nary fun d hd => ?_
      obtain ⟨hmem, hinner⟩ := mem_filter.1 hd
      obtain ⟨c, inner, rfl, hop, hoperand⟩ := hasInner_eq_true.1 hinner
      obtain ⟨_, ⟨⟩, rfl, -, hanswers⟩ := h _ hmem
      exact Catalog.evaluates_traversal hop hoperand hreached
        (hanswers inner target records hoperand hreached)
    · rw [filter_hasInner_eq_nil.2 hnone]
      exact Catalog.evaluates_nary_nil

theorem valueAll_filter {v w : Condition → Bool} {p : Domain → Bool} {ds : List Domain}
    (h : ∀ d ∈ ds, d.value w = if p d then d.value v else k.identity) :
    valueAll w k ds = valueAll v k (ds.filter p) := by
  induction ds with
  | nil => rfl
  | cons d ds ih =>
    rw [forall_mem_cons] at h
    rw [valueAll, h.1, ih h.2, filter_cons]
    split
    · rfl
    · exact k.identity_join _

theorem evaluates_joinAnys (h : ∀ d ∈ run, Answers catalog path entity record d) :
    catalog.Evaluates (.nary k ((joinAnys k entity run).filter hasInner) none) entity record ↔
      catalog.Evaluates (.nary k (run.filter hasInner) none) entity record := by
  rw [evaluates_filter_iff (answers_joinAnys h), evaluates_filter_iff h,
    exists_hasInner_joinAnys entity run]

/-- Without the queries written by hand, the joined run has the truth value of the run: a valuation
that takes each of them for the constant that changes nothing leaves the others alone. -/
theorem valueAll_filter_joinAnys (hplain : (Text.cut '.' path).2 = none)
    (h : ∀ d ∈ run, Answers catalog path entity record d) {target : Entity}
    {records : List Record}
    (hreached : catalog.reached path entity record = some (target, records)) :
    valueAll (catalog.valuation entity record) k ((joinAnys k entity run).filter hasInner) =
      valueAll (catalog.valuation entity record) k (run.filter hasInner) := by
  let v : Condition → Bool := fun c =>
    if hasInner (.condition c) then catalog.valuation entity record c else k.identity
  have hasks : Asks v path records (catalog.truth · target) := by
    intro c inner hpath hop hoperand
    have hinner : hasInner (.condition c) = true :=
      hasInner_eq_true.2 ⟨c, inner, rfl, hop, hoperand⟩
    simp only [v, hinner, if_true]
    exact Catalog.asks_valuation hreached c inner hpath hop hoperand
  have hvalues : ∀ ds : List Domain, (∀ d ∈ ds, Answers catalog path entity record d) →
      valueAll v k ds = valueAll (catalog.valuation entity record) k (ds.filter hasInner) := by
    intro ds hds
    refine valueAll_filter fun d hd => ?_
    obtain ⟨c, rfl, -⟩ := hds d hd
    rfl
  rw [← hvalues _ (answers_joinAnys h), ← hvalues run h]
  refine valueAll_joinAnys hasks (Catalog.joinsTruth catalog target)
    (fun hone => Catalog.length_reached_le (.inl hplain) hone hreached) fun c hc => ?_
  obtain ⟨_, ⟨⟩, hpath, -⟩ := h _ hc
  exact hpath

theorem holds_filter_joinAnys (hplain : (Text.cut '.' path).2 = none)
    (h : ∀ d ∈ run, Answers catalog path entity record d)
    (hevaluates : catalog.Evaluates (.nary k (run.filter hasInner) none) entity record) :
    catalog.holds (.nary k ((joinAnys k entity run).filter hasInner) none) entity record =
      catalog.holds (.nary k (run.filter hasInner) none) entity record := by
  refine Catalog.holds_nary_eq ((evaluates_joinAnys h).2 hevaluates) hevaluates ?_
  obtain hsome | hnone := (evaluates_filter_iff h).1 hevaluates
  · obtain ⟨⟨target, records⟩, hreached⟩ := Option.isSome_iff_exists.1 hsome
    exact valueAll_filter_joinAnys hplain h hreached
  · rw [filter_hasInner_eq_nil.2 hnone,
      filter_hasInner_eq_nil.2 (mt (exists_hasInner_joinAnys entity run).1 hnone)]

end Traversals

/-- Joined traversals hold on the records that the run holds on, where the domains inside can be
evaluated on the records that the field leads to; queries written by hand are left as they are, and
the run does not become longer. -/
theorem holds_anys
    (hrun : ∀ d ∈ run, ∃ c, d = .condition c ∧ ctx.field c = .ok field ∧ c.path = field.name ∧
      c.operator.isTraversal = true)
    (hinner : ∀ c inner target records, .condition c ∈ run → c.operand = .domain inner →
      ctx.catalog.reached field.name ctx.entity record = some (target, records) →
      ∀ r ∈ records, ctx.catalog.Evaluates inner target r) :
    ∃ merged, (anys k run ctx).result = .ok merged ∧
      (∀ b, ctx.catalog.holds (.nary k (merged.filter hasInner) none) ctx.entity record = .ok b ↔
        ctx.catalog.holds (.nary k (run.filter hasInner) none) ctx.entity record = .ok b) ∧
      ((ctx.catalog.reached field.name ctx.entity record).isSome = true →
        ctx.catalog.Evaluates (.nary k (run.filter hasInner) none) ctx.entity record) ∧
      (merged.filter fun d => !hasInner d) = (run.filter fun d => !hasInner d) ∧
      merged.length ≤ run.length := by
  have hanswers : ∀ d ∈ run, Answers ctx.catalog field.name ctx.entity record d := by
    intro d hd
    obtain ⟨c, rfl, -, hpath, hop⟩ := hrun d hd
    exact ⟨c, rfl, hpath, hop, fun inner target records => hinner c inner target records hd⟩
  refine ⟨_, result_anys run, fun b => ?_,
    fun hsome => (evaluates_filter_iff hanswers).2 (.inl hsome), filter_joinAnys ctx.entity run, ?_⟩
  · by_cases hevaluates :
      ctx.catalog.Evaluates (.nary k (run.filter hasInner) none) ctx.entity record
    · cases run with
      | nil => rfl
      | cons d rest =>
        obtain ⟨c, -, hfield, hpath, -⟩ := hrun d (mem_cons_self ..)
        have hname : field.name = (Text.cut '.' c.path).1 :=
          Entity.name_of_field? (Context.field_eq_ok.1 hfield)
        -- The path is the name of the field, so that it goes no further.
        have hplain : (Text.cut '.' field.name).2 = none := by
          rw [hname]
          exact Text.cut_cut_fst
        rw [holds_filter_joinAnys hplain hanswers hevaluates]
    · exact iff_of_false (fun hb => hevaluates ((evaluates_joinAnys hanswers).1 ⟨b, hb⟩))
        fun hb => hevaluates ⟨b, hb⟩
  · obtain heq | hlt := shrinks_joinAnys (k := k) ctx.entity run
    · rw [heq]
    · exact hlt.le

/-- An order of a customer that is open and of size 3: two traversals to the customer become one,
and the query between them stays. -/
theorem holds_anys_customer :
    let link : Field := .many2one "customer" "customer"
    let entity : Entity := { name := "order", fields := [link] }
    let customer : Entity := { name := "customer"
                               fields := [{ name := "size", type := .integer },
                                 { name := "open", type := .boolean }] }
    let catalog : Catalog :=
      { entities := [entity, customer]
        tables := [("customer",
          [[("id", .integer 1), ("size", .integer 3), ("open", .bool true)]])] }
    let small : Domain := .leaf "size" .mem (.set ⟨[.int 3]⟩)
    let isOpen : Domain := .leaf "open" .mem (.set ⟨[.bool true]⟩)
    let run : List Domain := [.leaf "customer" .any (.domain small),
      .leaf "customer" .any (.query ⟨"SELECT 1", []⟩), .leaf "customer" .any (.domain isOpen)]
    let ctx := Optimizer.standard.contextAt catalog 0 .basic entity
    let record : Record := [("id", .integer 7), ("customer", .integer 1)]
    (∀ d ∈ run, ∃ c, d = .condition c ∧ ctx.field c = .ok link ∧ c.path = link.name ∧
        c.operator.isTraversal = true) ∧
      (∀ c inner target records, .condition c ∈ run → c.operand = .domain inner →
        ctx.catalog.reached link.name entity record = some (target, records) →
        ∀ r ∈ records, ctx.catalog.Evaluates inner target r) ∧
      ∃ merged, (anys .and run ctx).result = .ok merged ∧
        (∀ b, catalog.holds (.nary .and (merged.filter hasInner) none) entity record = .ok b ↔
          catalog.holds (.nary .and (run.filter hasInner) none) entity record = .ok b) ∧
        ((catalog.reached link.name entity record).isSome = true →
          catalog.Evaluates (.nary .and (run.filter hasInner) none) entity record) ∧
        (merged.filter fun d => !hasInner d) = (run.filter fun d => !hasInner d) ∧
        merged.length ≤ run.length := by
  intro link entity customer catalog small isOpen run ctx record
  have hrun : ∀ d ∈ run, ∃ c, d = .condition c ∧ ctx.field c = .ok link ∧ c.path = link.name ∧
      c.operator.isTraversal = true :=
    forall_mem_cons.2 ⟨⟨_, rfl, by cbv, rfl, rfl⟩, forall_mem_cons.2 ⟨⟨_, rfl, by cbv, rfl, rfl⟩,
      forall_mem_singleton.2 ⟨_, rfl, by cbv, rfl, rfl⟩⟩⟩
  have hinner : ∀ c inner target records, .condition c ∈ run → c.operand = .domain inner →
      ctx.catalog.reached link.name entity record = some (target, records) →
      ∀ r ∈ records, ctx.catalog.Evaluates inner target r := by
    intro c inner target records hc hoperand hreached r _
    have hcustomer : (ctx.catalog.reached link.name entity record).map (·.1) = some customer := by
      cbv
    rw [hreached] at hcustomer
    have htarget : target = customer := Option.some.inj hcustomer
    have hsize : customer.field? (Text.cut '.' "size").1 =
        some { name := "size", type := .integer } := by cbv
    have hopen : customer.field? (Text.cut '.' "open").1 =
        some { name := "open", type := .boolean } := by cbv
    rw [htarget]
    simp only [run, mem_cons, not_mem_nil, or_false, Domain.leaf, Domain.condition.injEq] at hc
    obtain rfl | rfl | rfl := hc
    · cases hoperand
      exact Catalog.evaluates_membership rfl rfl hsize
    · cases hoperand
    · cases hoperand
      exact Catalog.evaluates_membership rfl rfl hopen
  exact ⟨hrun, hinner, holds_anys hrun hinner⟩

end Merge

end QueryDomain
