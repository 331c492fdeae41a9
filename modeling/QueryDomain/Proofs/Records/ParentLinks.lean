import Mathlib.Logic.Relation
import QueryDomain.Proofs.Optimization.Endings
import QueryDomain.Proofs.Records.MergedRuns

/-! Walks along the parent links of an entity. Whatever the links look like, `child_of` comes to the
records from which one of the given ones is reached along the links, and `parent_of` to those that
are reached. -/
namespace QueryDomain

open List Domain

namespace Hierarchy

theorem nodup_newIds (known ids : List Int) : (newIds known ids).Nodup := by
  induction ids generalizing known with
  | nil => exact nodup_nil
  | cons first ids ih =>
    rw [newIds]
    split
    · exact ih known
    · refine nodup_cons.2 ⟨fun h => ?_, ih _⟩
      exact (mem_newIds.1 h).2 (mem_cons_self ..)

theorem newIds_of_nodup {known ids : List Int} (h : ids.Nodup) (hnew : ∀ id ∈ ids, id ∉ known) :
    newIds known ids = ids := by
  induction ids generalizing known with
  | nil => rfl
  | cons first ids ih =>
    rw [forall_mem_cons] at hnew
    rw [nodup_cons] at h
    rw [newIds, if_neg (by simpa using hnew.1), ih h.2]
    intro id hid hknown
    obtain rfl | hknown := mem_cons.1 hknown
    · exact h.1 hid
    · exact hnew.2 id hid hknown

theorem ofList_map_int (ids : List Int) :
    ValueSet.ofList (ids.map Value.int) = ⟨(newIds [] ids).map Value.int⟩ := by
  have hfresh : ∀ known : List Int, ValueSet.fresh (known.map Value.int) (ids.map Value.int) =
      (newIds known ids).map Value.int := by
    induction ids with
    | nil => exact fun known => rfl
    | cons id ids ih =>
      intro known
      have hknown : (known.map Value.int).any (·.same (.int id)) = known.contains id := by
        rw [any_map, ← any_beq']
        rfl
      rw [map_cons, ValueSet.fresh, newIds, hknown]
      split
      · exact ih known
      · rw [map_cons, ← ih (id :: known)]
        rfl
  exact congrArg ValueSet.mk (hfresh [])

variable {next : List Int → Run Error (List Int)} {step : Int → Int → Prop}
  {known frontier found : List Int} {y : Int}

/-- How far a walk has come: nothing is known twice, and wherever one step leads from what is known,
the frontier aside, is known as well. -/
structure IsWalked (step : Int → Int → Prop) (known frontier : List Int) : Prop where
  distinct : known.Nodup
  subset : frontier ⊆ known
  passed : ∀ p ∈ known, p ∉ frontier → ∀ y, step p y → y ∈ known

theorem IsWalked.advance (h : IsWalked step known frontier)
    (hfound : ∀ y, y ∈ found ↔ ∃ p ∈ frontier, step p y) :
    IsWalked step (known ++ newIds known found) (newIds known found) where
  distinct := h.distinct.append (nodup_newIds known found) fun _ hx hnew => (mem_newIds.1 hnew).2 hx
  subset := subset_append_right ..
  passed p hp hnew y hy := by
    have hp : p ∈ known := (mem_append.1 hp).resolve_right hnew
    by_cases hknown : y ∈ known
    · exact mem_append_left _ hknown
    · by_cases hfrontier : p ∈ frontier
      · exact mem_append_right _ (mem_newIds.2 ⟨(hfound y).2 ⟨p, hfrontier, hy⟩, hknown⟩)
      · exact absurd (h.passed p hp hfrontier y hy) hknown

theorem IsWalked.reaches_advance (h : IsWalked step known frontier)
    (hfound : ∀ y, y ∈ found ↔ ∃ p ∈ frontier, step p y) :
    (∃ s ∈ known ++ newIds known found, Relation.ReflTransGen step s y) ↔
      ∃ s ∈ known, Relation.ReflTransGen step s y := by
  constructor
  · rintro ⟨s, hs, hreach⟩
    obtain hs | hs := mem_append.1 hs
    · exact ⟨s, hs, hreach⟩
    · obtain ⟨p, hp, hstep⟩ := (hfound s).1 (mem_newIds.1 hs).1
      exact ⟨p, h.subset hp, .head hstep hreach⟩
  · rintro ⟨s, hs, hreach⟩
    exact ⟨s, mem_append_left _ hs, hreach⟩

theorem IsWalked.mem_iff (h : IsWalked step known []) :
    y ∈ known ↔ ∃ s ∈ known, Relation.ReflTransGen step s y := by
  constructor
  · exact fun hy => ⟨y, hy, .refl⟩
  · rintro ⟨s, hs, hreach⟩
    induction hreach with
    | refl => exact hs
    | tail _ hstep ih => exact h.passed _ ih not_mem_nil _ hstep

/-- A walk comes to an end with exactly what can be reached, if each step finds what it leads to and
every one that finds something new comes closer to the end by a measure below the number of
steps. -/
theorem exists_closure (step : Int → Int → Prop) (measure : List Int → List Int → Nat)
    (hnext : ∀ frontier : List Int, frontier ≠ [] → ∃ found, (next frontier).result = .ok found ∧
      ∀ y, y ∈ found ↔ ∃ p ∈ frontier, step p y)
    (hmeasure : ∀ known frontier found : List Int, frontier ⊆ known →
      (∀ y, y ∈ found ↔ ∃ p ∈ frontier, step p y) → newIds known found ≠ [] →
      measure (known ++ newIds known found) (newIds known found) < measure known frontier)
    {steps : Nat} (h : IsWalked step known frontier) (hsteps : measure known frontier < steps) :
    ∃ reached, (closure next known frontier steps).result = .ok reached ∧ reached.Nodup ∧
      ∀ y, y ∈ reached ↔ ∃ s ∈ known, Relation.ReflTransGen step s y := by
  induction steps generalizing known frontier with
  | zero => omega
  | succ steps ih =>
    rw [closure]
    cases hfrontier : frontier with
    | nil =>
      subst hfrontier
      exact ⟨known, rfl, h.distinct, fun y => h.mem_iff⟩
    | cons p rest =>
      rw [← hfrontier]
      obtain ⟨found, hresult, hfound⟩ := hnext frontier (by simp [hfrontier])
      have hadvance := h.advance hfound
      have hrest : ∃ reached, (closure next (known ++ newIds known found) (newIds known found)
          steps).result = .ok reached ∧ reached.Nodup ∧
          ∀ y, y ∈ reached ↔ ∃ s ∈ known ++ newIds known found, Relation.ReflTransGen step s y := by
        by_cases hnew : newIds known found = []
        · rw [hnew] at hadvance ⊢
          exact ⟨_, by cases steps <;> rfl, hadvance.distinct, fun y => hadvance.mem_iff⟩
        · have hless := hmeasure known frontier found h.subset hfound hnew
          exact ih hadvance (by omega)
      obtain ⟨reached, hreached, hdistinct, hmem⟩ := hrest
      refine ⟨reached, ?_, hdistinct, fun y => (hmem y).trans (h.reaches_advance hfound)⟩
      rw [if_neg (by simp [hfrontier]), Run.result_bind, hresult]
      exact hreached

end Hierarchy

namespace Catalog

/-- The parent link of an entity: a stored many2one to the entity itself, which conditions can name
and which no materialized path stands in for. Records may name any parent or none, themselves and
missing records included. -/
structure LinksParents (catalog : Catalog) (entity : Entity) (parent : String) : Prop where
  ids : ((catalog.records entity.name).filterMap Record.id?).Nodup
  field : ∃ field, entity.field? parent = some field ∧ field.type = .many2one ∧
    field.comodel = some entity.name ∧ field.stored = true ∧ field.delegatedVia = none
  plain : '.' ∉ parent.toList
  noPath : Hierarchy.usesPath entity parent = false
  values : ∀ r ∈ catalog.records entity.name, ∀ json, Record.get? r parent = some json →
    json = .null ∨ ∃ n, json = .integer n ∧ Json.isInt64 n = true

def IsChild (catalog : Catalog) (entity : Entity) (parent : String) (x p : Int) : Prop :=
  ∃ r ∈ catalog.records entity.name, Record.id? r = some x ∧
    (Record.get? r parent).bind Json.asInt64? = some p

variable {catalog : Catalog} {entity : Entity} {parent : String} {depth : Nat} {level : Level}

namespace LinksParents

theorem link (h : catalog.LinksParents entity parent) :
    ∃ field, entity.field? parent = some field ∧ field.type = .many2one ∧
      field.comodel = some entity.name := by
  obtain ⟨field, hfield, htype, hcomodel, -⟩ := h.field
  exact ⟨field, hfield, htype, hcomodel⟩

theorem valueOf (h : catalog.LinksParents entity parent) {field : Field}
    (htype : field.type = .many2one) {r : Record} (hr : r ∈ catalog.records entity.name) :
    field.valueOf (Record.get? r parent) =
      ((Record.get? r parent).bind Json.asInt64?).elim .null .int := by
  cases hjson : Record.get? r parent with
  | none => simp [Field.valueOf, htype]
  | some json =>
    obtain rfl | ⟨n, rfl, hn⟩ := h.values r hr json hjson
    · simp [Field.valueOf, htype, Value.ofJson?, Json.asInt64?]
    · simp [Field.valueOf, htype, Value.ofJson?, Json.asInt64?, hn]

theorem holds_iff (h : catalog.LinksParents entity parent) {field : Field}
    (hfield : entity.field? parent = some field) (htype : field.type = .many2one) {r : Record}
    (hr : r ∈ catalog.records entity.name) (ids : List Int) :
    (ValueSet.ofList (ids.map Value.int)).holds (field.valueAt parent r) = true ↔
      ∃ p ∈ ids, (Record.get? r parent).bind Json.asInt64? = some p := by
  have hvalue : field.valueAt parent r = field.valueOf (Record.get? r parent) := by
    have hname := Entity.name_of_field? hfield
    unfold Field.valueAt Condition.valueOn Condition.rest?
    rw [Text.cut_snd_eq_none.2 h.plain, hname]
  rw [ValueSet.holds_ofList, hvalue, h.valueOf htype hr, any_map, any_eq_true]
  refine exists_congr fun p => and_congr_right fun _ => ?_
  cases (Record.get? r parent).bind Json.asInt64? with
  | none => simp [Value.equals, Value.isNull, Value.compare?]
  | some n => simp [Value.equals, Value.isNull, Value.compare?]

theorem kept (h : catalog.LinksParents entity parent) {ids : List Int} (hids : ids ≠ []) :
    (⟨parent, .mem, .set (.ofList (ids.map Value.int)), none⟩ : Condition).Kept catalog .search
      entity := by
  obtain ⟨field, hfield, htype, -, hstored, hdelegated⟩ := h.field
  have hplain : (Text.cut '.' parent).2 = none := Text.cut_snd_eq_none.2 h.plain
  have hhead : entity.field? (Text.cut '.' parent).1 = some field := by
    rwa [Text.cut_fst_of_none hplain]
  have hresolved : (Context.still catalog .search entity).field
      ⟨parent, .mem, .set (.ofList (ids.map Value.int)), none⟩ = .ok field :=
    Context.field_eq_ok.2 hhead
  have hsome : (ValueSet.ofList (ids.map Value.int)).isEmpty = false := by
    obtain ⟨id, rest, rfl⟩ := exists_cons_of_ne_nil hids
    rfl
  have hlabels : Pass.namesLabels ⟨parent, .mem, .set (.ofList (ids.map Value.int)), none⟩ =
      false := by
    have hint : ∀ v ∈ (ValueSet.ofList (ids.map Value.int)).values, Pass.isLabel v = false := by
      intro v hv
      obtain ⟨id, -, rfl⟩ := mem_map.1 ((ValueSet.fresh_sublist [] _).mem hv)
      rfl
    simpa [Pass.namesLabels, any_eq_false] using fun _ => hint
  have htypes : entity.headType? parent = some .many2one := by
    rw [Entity.headType?, hhead, Option.map_some, htype]
  intro entry hentry hlevel hcovers
  dsimp only at hcovers
  rw [htypes] at hcovers
  cases Registry.isStandard_of_mem hentry
  -- Most passes are for other operators, for other types of fields or for SQL.
  all_goals first
    | exact absurd hcovers (by decide)
    | exact absurd hlevel (by decide)
    | skip
  case resolvePath => exact Pass.resolvePath_eq_none.2 ⟨field, hresolved, .inl hplain⟩
  case membershipOperand => exact Pass.membershipOperand_eq_none.2 ⟨_, rfl, hsome⟩
  case labels => exact Pass.labels_eq_none.2 ⟨field, hresolved, .inr (.inr hlabels)⟩
  case inheritedField => exact Pass.inheritedField_eq_none.2 ⟨field, hresolved, hdelegated⟩
  case computedField => exact Pass.computedField_eq_none.2 ⟨field, hresolved, by simp [hstored]⟩

end LinksParents

theorem exists_matching {d : Domain} {records : List Record}
    (h : ∀ r ∈ records, catalog.Evaluates d entity r) :
    ∃ found, catalog.matching entity d records = .ok found := by
  induction records with
  | nil => exact ⟨[], rfl⟩
  | cons r rs ih =>
    rw [forall_mem_cons] at h
    obtain ⟨found, hfound⟩ := ih h.2
    rw [matching]
    split
    · exact ⟨found, hfound⟩
    · rw [h.1.holds_eq, hfound]
      exact ⟨_, rfl⟩

open Optimizer in
theorem LinksParents.search_children (h : catalog.LinksParents entity parent) {ids : List Int}
    (hids : ids ≠ []) :
    ∃ found, (catalog.searchWithin (depth + 1) entity
        (.leaf parent .mem (.set (.ofList (ids.map Value.int))))).result = .ok found ∧
      ∀ x, x ∈ found ↔ ∃ p ∈ ids, catalog.IsChild entity parent x p := by
  obtain ⟨field, hfield, htype, -⟩ := h.field
  have hhead : entity.field? (Text.cut '.' parent).1 = some field := by
    rwa [Text.cut_fst_of_none (Text.cut_snd_eq_none.2 h.plain)]
  let c : Condition :=
    ⟨parent, .mem, .set (.ofList (ids.map Value.int)), some ⟨entity.name, .search⟩⟩
  have hnode : (node catalog (depth + 1) standard .search entity
      (.leaf parent .mem (.set (.ofList (ids.map Value.int))))).result = .ok (.condition c) := by
    rw [node_succ]
    refine settle_of_done rfl (stepCondition_of_kept fun pass hpass => ?_)
    obtain ⟨entry, hentry, hlevel, hcovers, rfl⟩ := mem_candidates.1 hpass
    exact Pass.keeps_of_still hentry hcovers nofun (h.kept hids entry hentry hlevel hcovers)
  have hevaluates : ∀ r ∈ catalog.records entity.name, catalog.Evaluates (.condition c) entity r :=
    fun r _ => evaluates_membership rfl rfl hhead
  obtain ⟨found, hfound⟩ := exists_matching hevaluates
  refine ⟨found, searchWithin_eq_ok.2 ⟨_, hnode, hfound⟩, fun x => ?_⟩
  have hholds : ∀ r ∈ catalog.records entity.name, catalog.truth (.condition c) entity r = true ↔
      ∃ p ∈ ids, (Record.get? r parent).bind Json.asInt64? = some p := by
    intro r hr
    rw [← h.holds_iff hfield htype hr]
    exact Eq.congr ((reads_valuation hhead).mem _ _) rfl
  rw [matching_eq_ok hfound, mem_filterMap]
  constructor
  · rintro ⟨r, hr, hx⟩
    obtain ⟨hr, htruth⟩ := mem_filter.1 hr
    obtain ⟨p, hp, hparent⟩ := (hholds r hr).1 htruth
    exact ⟨p, hp, r, hr, hx, hparent⟩
  · rintro ⟨p, hp, r, hr, hx, hparent⟩
    exact ⟨r, mem_filter.2 ⟨hr, (hholds r hr).2 ⟨p, hp, hparent⟩⟩, hx⟩

theorem LinksParents.read_parents (h : catalog.LinksParents entity parent) (ids : List Int) :
    ∃ values, catalog.readField entity ids parent = .ok values ∧
      ∀ p, p ∈ (values.filterMap fun (_, value) => value.asInt?) ↔
        ∃ x ∈ ids, catalog.IsChild entity parent x p := by
  obtain ⟨field, hfield, htype, -⟩ := h.field
  unfold readField
  rw [hfield]
  dsimp only
  rw [Entity.name_of_field? hfield]
  refine ⟨_, rfl, fun p => ?_⟩
  have hasInt : ∀ r ∈ catalog.records entity.name,
      (field.valueOf (Record.get? r parent)).asInt? =
        (Record.get? r parent).bind Json.asInt64? := by
    intro r hr
    rw [h.valueOf htype hr]
    cases (Record.get? r parent).bind Json.asInt64? <;> rfl
  simp only [mem_filterMap, Option.map_eq_some_iff]
  constructor
  · rintro ⟨_, ⟨x, hx, r, hfound, rfl⟩, hp⟩
    obtain ⟨hr, hid⟩ := (record?_eq_some h.ids).1 hfound
    exact ⟨x, hx, r, hr, hid, (hasInt r hr).symm.trans hp⟩
  · rintro ⟨x, hx, r, hr, hid, hp⟩
    exact ⟨_, ⟨x, hx, r, (record?_eq_some h.ids).2 ⟨hr, hid⟩, rfl⟩, (hasInt r hr).trans hp⟩

end Catalog

namespace Hierarchy

variable {catalog : Catalog} {entity : Entity} {parent path : String} {depth : Nat} {level : Level}
  {ctx : Context} {c : Condition} {ids : List Int}

theorem seeds_ids (hoperand : c.operand = .set (.ofList (ids.map Value.int))) (target : Entity) :
    (seeds c ctx target).result = .ok (newIds [] ids) := by
  have hstart : startValues c = pure ((newIds [] ids).map Value.int) := by
    rw [startValues, hoperand, ofList_map_int]
  have hfound : (((newIds [] ids).map Value.int).mapM (startIds c ctx target)).result =
      .ok ((newIds [] ids).map fun id => [id]) := by
    rw [Run.result_mapM_eq_ok, forall₂_map_left_iff, forall₂_map_right_iff, forall₂_same]
    exact fun _ _ => rfl
  rw [seeds_eq, hstart, pure_bind, Run.result_bind, hfound]
  refine congrArg Except.ok ?_
  rw [← flatMap_def, flatMap_singleton']
  exact newIds_of_nodup (nodup_newIds [] ids) fun _ _ => not_mem_nil

theorem requireParent_ok (h : catalog.LinksParents entity parent) (c : Condition) :
    requireParent c entity parent = .ok () := by
  obtain ⟨field, hfield, -⟩ := h.field
  rw [requireParent, hfield]

theorem isWalked_self {step : Int → Int → Prop} (hids : ids.Nodup) : IsWalked step ids ids where
  distinct := hids
  subset := Subset.refl ids
  passed _ hp hnew := absurd hp hnew

def unmet (catalog : Catalog) (entity : Entity) (known : List Int) : Nat :=
  (((catalog.records entity.name).filterMap Record.id?).toFinset \ known.toFinset).card

def unpassed (catalog : Catalog) (entity : Entity) (known frontier : List Int) : Nat :=
  (((catalog.records entity.name).filterMap Record.id?).toFinset \
    (known.toFinset \ frontier.toFinset)).card

theorem unmet_lt {known frontier found : List Int}
    (hfound : ∀ x, x ∈ found ↔ ∃ p ∈ frontier, catalog.IsChild entity parent x p)
    (hnew : newIds known found ≠ []) :
    unmet catalog entity (known ++ newIds known found) < unmet catalog entity known := by
  refine card_sdiff_known_lt (fun x hx => ?_) hnew
  obtain ⟨p, -, r, hr, hid, -⟩ := (hfound x).1 hx
  exact mem_filterMap.2 ⟨r, hr, hid⟩

theorem unpassed_lt {step : Int → Int → Prop} {known frontier found : List Int}
    (hrecord : ∀ x p, step x p → x ∈ (catalog.records entity.name).filterMap Record.id?)
    (hfrontier : frontier ⊆ known) (hfound : ∀ p, p ∈ found ↔ ∃ x ∈ frontier, step x p)
    (hnew : newIds known found ≠ []) :
    unpassed catalog entity (known ++ newIds known found) (newIds known found) <
      unpassed catalog entity known frontier := by
  obtain ⟨p, hp⟩ := exists_mem_of_ne_nil _ hnew
  obtain ⟨x, hx, hstep⟩ := (hfound p).1 (mem_newIds.1 hp).1
  exact card_sdiff_passed_lt hfrontier hx (hrecord x p hstep)

theorem exists_ancestors_of_read {step : Int → Int → Prop} (hpath : usesPath entity parent = false)
    (hrequired : requireParent c entity parent = .ok ())
    (hrecord : ∀ x p, step x p → x ∈ (ctx.catalog.records entity.name).filterMap Record.id?)
    (hread : ∀ frontier, ∃ values, ctx.catalog.readField entity frontier parent = .ok values ∧
      ∀ p, p ∈ (values.filterMap fun (_, value) => value.asInt?) ↔ ∃ x ∈ frontier, step x p)
    (hids : ids.Nodup) :
    ∃ found, (ancestors c ctx entity parent ids).result = .ok (idIn found) ∧ found.Nodup ∧
      ∀ y, y ∈ found ↔ ∃ s ∈ ids, Relation.ReflTransGen step s y := by
  have hnext : ∀ frontier : List Int, frontier ≠ [] → ∃ found,
      (liftM (ctx.catalog.readField entity frontier parent) >>= fun values =>
        pure (values.filterMap fun (_, value) => value.asInt?) : Run Error (List Int)).result =
          .ok found ∧ ∀ p, p ∈ found ↔ ∃ x ∈ frontier, step x p := by
    intro frontier _
    obtain ⟨values, hvalues, hmem⟩ := hread frontier
    rw [hvalues]
    exact ⟨_, rfl, hmem⟩
  obtain ⟨found, hfound, hdistinct, hmem⟩ := exists_closure step (unpassed ctx.catalog entity)
    hnext (fun _ _ _ => unpassed_lt hrecord) (isWalked_self hids)
    (Optimizer.card_sdiff_lt_stepLimit ctx entity _)
  refine ⟨found, ?_, hdistinct, hmem⟩
  unfold ancestors
  rw [if_neg (by simp [hpath]), hrequired]
  simp only [Run.result_bind_eq_ok, Run.result_liftM, Run.result_pure]
  exact ⟨(), trivial, found, hfound, rfl⟩

open Optimizer in
theorem exists_descendants (h : catalog.LinksParents entity parent) (hids : ids.Nodup)
    (c : Condition) (depth : Nat) (level : Level) :
    ∃ found, (descendants c (standard.contextAt catalog (depth + 1) level entity) entity parent
        ids).result = .ok (idIn found) ∧ found.Nodup ∧
      ∀ x, x ∈ found ↔ ∃ s ∈ ids, Relation.ReflTransGen (catalog.IsChild entity parent) x s := by
  obtain ⟨found, hfound, hdistinct, hmem⟩ := exists_closure
    (fun p x => catalog.IsChild entity parent x p) (fun known _ => unmet catalog entity known)
    (fun _ => h.search_children) (fun _ _ _ _ => unmet_lt) (isWalked_self hids)
    (card_sdiff_lt_stepLimit (standard.contextAt catalog (depth + 1) level entity) entity _)
  refine ⟨found, ?_, hdistinct, fun x => (hmem x).trans ?_⟩
  · unfold descendants
    rw [if_neg (by simp [h.noPath]), requireParent_ok h]
    simp only [Run.result_bind_eq_ok, Run.result_liftM, Run.result_pure]
    exact ⟨(), trivial, found, hfound, rfl⟩
  · simp only [← Relation.reflTransGen_swap (r := catalog.IsChild entity parent)]

open Optimizer in
theorem exists_ancestors (h : catalog.LinksParents entity parent) (hids : ids.Nodup)
    (c : Condition) (depth : Nat) (level : Level) :
    ∃ found, (ancestors c (standard.contextAt catalog depth level entity) entity parent
        ids).result = .ok (idIn found) ∧ found.Nodup ∧
      ∀ x, x ∈ found ↔ ∃ s ∈ ids, Relation.ReflTransGen (catalog.IsChild entity parent) s x := by
  refine exists_ancestors_of_read h.noPath (requireParent_ok h c) ?_ h.read_parents hids
  rintro x p ⟨r, hr, hid, -⟩
  exact mem_filterMap.2 ⟨r, hr, hid⟩

def among (path : String) (operator : Operator) (ids : List Int) : Condition :=
  ⟨path, operator, .set (.ofList (ids.map Value.int)), none⟩

/-- The condition is replaced by a membership of `id` in some identifiers, each of them once. -/
def Yields (ctx : Context) (c : Condition) (found : List Int) : Prop :=
  found.Nodup ∧ (Pass.hierarchy c ctx).result =
    .ok (some (.leaf Entity.idName .mem (.set ⟨found.map Value.int⟩)))

theorem Yields.unique {found found' : List Int} (h : Yields ctx c found)
    (h' : Yields ctx c found') : found = found' := by
  have hsame := h.2.symm.trans h'.2
  simp only [Domain.leaf, Except.ok.injEq, Option.some.injEq, Domain.condition.injEq,
    Condition.mk.injEq, Operand.set.injEq, ValueSet.mk.injEq, true_and, and_true] at hsame
  exact map_injective_iff.2 (fun _ _ => Value.int.inj) hsame

section Following

variable (hlink : ∃ field, entity.field? parent = some field ∧ field.type = .many2one ∧
    field.comodel = some entity.name) (hplain : '.' ∉ parent.toList)
  (hpath : path = Entity.idName ∧ parent = entity.parentName ∨
    path = parent ∧ parent ≠ Entity.idName) (hentity : ctx.entity = entity)

include hlink hplain hpath hentity

theorem follows (hc : c.path = path) :
    ∃ field, ctx.field c = .ok field ∧ (walked c ctx field).result = .ok entity ∧
      followed ctx field entity = parent ∧
      (field.name = Entity.idName ∨ isOwnLink ctx field = true) := by
  subst hc hentity
  obtain ⟨hid, hname⟩ | ⟨rfl, hne⟩ := hpath
  · obtain ⟨field, hfield⟩ : ∃ field, ctx.entity.field? c.head = some field := by
      rw [Condition.head, hid, show (Text.cut '.' Entity.idName).1 = Entity.idName by decide]
      unfold Entity.field?
      split
      · exact ⟨_, rfl⟩
      · exact ⟨_, if_pos rfl⟩
    have hfieldId : field.name = Entity.idName := by
      rw [Entity.name_of_field? hfield, Condition.head, hid]
      decide
    have hown : isOwnLink ctx field = false := by simp [isOwnLink, hfieldId]
    refine ⟨field, Context.field_eq_ok.2 hfield, ?_, ?_, .inl hfieldId⟩
    · simp [walked, hown, Context.target, hfieldId]
    · rw [followed, hown, if_neg Bool.false_ne_true, hname]
  · obtain ⟨field, hfield, htype, hcomodel⟩ := hlink
    have hname : field.name = c.path := Entity.name_of_field? hfield
    have hown : isOwnLink ctx field = true := by simp [isOwnLink, hname, hne, htype, hcomodel]
    refine ⟨field, Context.field_eq_ok.2 ?_, ?_, ?_, .inr hown⟩
    · rwa [Condition.head, Text.cut_fst_of_none (Text.cut_snd_eq_none.2 hplain)]
    · rw [walked, if_pos hown]
      rfl
    · rw [followed, if_pos hown, hname]

theorem hierarchy_among {operator : Operator} (hids : ids ≠ []) {d : Domain}
    (hwalk : (walk (among path operator ids) ctx entity parent (newIds [] ids)).result = .ok d) :
    (Pass.hierarchy (among path operator ids) ctx).result = .ok (some d) := by
  obtain ⟨field, hfield, hwalked, hfollowed, hself⟩ :=
    follows hlink hplain hpath hentity (c := among path operator ids) rfl
  have hsome : (newIds [] ids).isEmpty = false := by
    obtain ⟨id, rest, rfl⟩ := exists_cons_of_ne_nil hids
    rfl
  rw [Pass.hierarchy_eq, hfield]
  simp only [Run.result_bind_eq_ok, Run.result_liftM]
  refine ⟨field, rfl, entity, hwalked, newIds [] ids, seeds_ids rfl entity, ?_⟩
  rw [hsome, if_neg Bool.false_ne_true, hfollowed]
  simp only [Run.result_bind_eq_ok]
  refine ⟨d, hwalk, (), rfl, ?_⟩
  rw [if_pos (by simpa using hself)]
  rfl

theorem hierarchy_among_nil (operator : Operator) :
    (Pass.hierarchy (among path operator []) ctx).result = .ok (some (.constant false)) := by
  obtain ⟨field, hfield, hwalked, -, -⟩ :=
    follows hlink hplain hpath hentity (c := among path operator []) rfl
  rw [Pass.hierarchy_eq, hfield]
  have hseeds : (seeds (among path operator []) ctx entity).result = .ok (newIds [] []) :=
    seeds_ids rfl entity
  simp only [Run.result_bind_eq_ok, Run.result_liftM]
  exact ⟨field, rfl, entity, hwalked, [], hseeds, rfl⟩

end Following

theorem yields_of_walk (h : catalog.LinksParents entity parent)
    (hpath : path = Entity.idName ∧ parent = entity.parentName ∨
      path = parent ∧ parent ≠ Entity.idName)
    {operator : Operator} (hentity : ctx.entity = entity) (hids : ids ≠ []) {found : List Int}
    (hdistinct : found.Nodup)
    (hfound : (walk (among path operator ids) ctx entity parent (newIds [] ids)).result =
      .ok (idIn found)) : Yields ctx (among path operator ids) found := by
  have hset : idIn found = .leaf Entity.idName .mem (.set ⟨found.map Value.int⟩) := by
    rw [idIn, ofList_map_int, newIds_of_nodup hdistinct fun _ _ => not_mem_nil]
  exact ⟨hdistinct, hset ▸ hierarchy_among h.link h.plain hpath hentity hids hfound⟩

open Optimizer in
/-- Whatever the parent links look like, `child_of` comes to the given records and those from which
one of them is reached along the links, and `parent_of` to the given records and those that are
reached; so one record is below another exactly if that is above it. -/
theorem yields_closure (h : catalog.LinksParents entity parent)
    (hpath : path = Entity.idName ∧ parent = entity.parentName ∨
      path = parent ∧ parent ≠ Entity.idName) (depth : Nat) (level : Level) :
    let ctx := standard.contextAt catalog (depth + 1) level entity
    (∀ ids, ids ≠ [] → ∃ found, Yields ctx (among path .childOf ids) found ∧
      ∀ x, x ∈ found ↔ ∃ s ∈ ids, Relation.ReflTransGen (catalog.IsChild entity parent) x s) ∧
    (∀ ids, ids ≠ [] → ∃ found, Yields ctx (among path .parentOf ids) found ∧
      ∀ x, x ∈ found ↔ ∃ s ∈ ids, Relation.ReflTransGen (catalog.IsChild entity parent) s x) ∧
    ∀ x y below above, Yields ctx (among path .childOf [x]) below →
      Yields ctx (among path .parentOf [y]) above → (y ∈ below ↔ x ∈ above) := by
  intro ctx
  have hmem : ∀ (ids : List Int) (x : Int), x ∈ newIds [] ids ↔ x ∈ ids := fun ids x =>
    mem_newIds.trans (and_iff_left not_mem_nil)
  have hbelow : ∀ ids, ids ≠ [] → ∃ found, Yields ctx (among path .childOf ids) found ∧
      ∀ x, x ∈ found ↔ ∃ s ∈ ids, Relation.ReflTransGen (catalog.IsChild entity parent) x s := by
    intro ids hids
    obtain ⟨found, hfound, hdistinct, hreached⟩ := exists_descendants h
      (nodup_newIds [] ids) (among path .childOf ids) depth level
    refine ⟨found, yields_of_walk h hpath rfl hids hdistinct ?_, fun x => ?_⟩
    · rw [walk, among, if_pos rfl]
      exact hfound
    · simp only [hreached, hmem]
  have habove : ∀ ids, ids ≠ [] → ∃ found, Yields ctx (among path .parentOf ids) found ∧
      ∀ x, x ∈ found ↔ ∃ s ∈ ids, Relation.ReflTransGen (catalog.IsChild entity parent) s x := by
    intro ids hids
    obtain ⟨found, hfound, hdistinct, hreached⟩ := exists_ancestors h
      (nodup_newIds [] ids) (among path .parentOf ids) (depth + 1) level
    refine ⟨found, yields_of_walk h hpath rfl hids hdistinct ?_, fun x => ?_⟩
    · rw [walk, among, if_neg (by simp)]
      exact hfound
    · simp only [hreached, hmem]
  refine ⟨hbelow, habove, fun x y below above hx hy => ?_⟩
  obtain ⟨found, hfound, hreaches⟩ := hbelow [x] (cons_ne_nil _ _)
  obtain ⟨found', hfound', hreached⟩ := habove [y] (cons_ne_nil _ _)
  rw [hx.unique hfound, hy.unique hfound', hreaches, hreached]
  simp

open Optimizer in
/-- Two records above each other, one above itself, one with a missing parent and one with none. -/
theorem yields_closure_cycle :
    let entity : Entity := { name := "node", fields := [.many2one "parent_id" "node"] }
    let catalog : Catalog :=
      { entities := [entity]
        tables := [("node", [[("id", .integer 1), ("parent_id", .integer 2)],
          [("id", .integer 2), ("parent_id", .integer 1)],
          [("id", .integer 3), ("parent_id", .integer 3)],
          [("id", .integer 4), ("parent_id", .integer 9)],
          [("id", .integer 5), ("parent_id", .null)]])] }
    let ctx := standard.contextAt catalog 1 .search entity
    catalog.LinksParents entity "parent_id" ∧
    (∀ ids, ids ≠ [] → ∃ found, Yields ctx (among "id" .childOf ids) found ∧ ∀ x,
      x ∈ found ↔ ∃ s ∈ ids, Relation.ReflTransGen (catalog.IsChild entity "parent_id") x s) ∧
    (∀ ids, ids ≠ [] → ∃ found, Yields ctx (among "id" .parentOf ids) found ∧ ∀ x,
      x ∈ found ↔ ∃ s ∈ ids, Relation.ReflTransGen (catalog.IsChild entity "parent_id") s x) ∧
    ∀ x y below above, Yields ctx (among "id" .childOf [x]) below →
      Yields ctx (among "id" .parentOf [y]) above → (y ∈ below ↔ x ∈ above) := by
  intro entity catalog ctx
  have hlinks : catalog.LinksParents entity "parent_id" := by
    refine ⟨by cbv; decide, ⟨.many2one "parent_id" "node", by cbv, rfl, rfl, rfl, rfl⟩, by decide,
      rfl, fun r hr json hjson => ?_⟩
    have hrecords : ∀ r ∈ catalog.records entity.name, Record.get? r "parent_id" = some .null ∨
        ∃ n, Record.get? r "parent_id" = some (.integer n) ∧ Json.isInt64 n = true :=
      forall_mem_cons.2 ⟨.inr ⟨2, by cbv, rfl⟩, forall_mem_cons.2 ⟨.inr ⟨1, by cbv, rfl⟩,
        forall_mem_cons.2 ⟨.inr ⟨3, by cbv, rfl⟩, forall_mem_cons.2 ⟨.inr ⟨9, by cbv, rfl⟩,
          forall_mem_singleton.2 (.inl (by cbv))⟩⟩⟩⟩
    obtain hnull | ⟨n, hinteger, hn⟩ := hrecords r hr
    · exact .inl (Option.some.inj (hjson.symm.trans hnull))
    · exact .inr ⟨n, Option.some.inj (hjson.symm.trans hinteger), hn⟩
  exact ⟨hlinks, yields_closure hlinks (.inl ⟨rfl, rfl⟩) 0 .search⟩

open Optimizer in
/-- A link with a dot in its name cannot be searched on, and a parent beyond the integers of 64 bits
is rounded to one of them. -/
theorem yields_closure_not_named :
    let node (link : String) : Entity :=
      { name := "node", parentName := link, fields := [.many2one link "node"] }
    let dotted : Catalog :=
      { entities := [node "up.link"]
        tables := [("node", [[("id", .integer 2)],
          [("id", .integer 1), ("up.link", .integer 2)]])] }
    let beyond : Catalog :=
      { entities := [node "parent_id"]
        tables := [("node", [[("id", .integer 9223372036854775807)],
          [("id", .integer 1), ("parent_id", .integer 9223372036854775808)]])] }
    (((dotted.records "node").filterMap Record.id?).Nodup ∧
      (node "up.link").field? "up.link" = some (.many2one "up.link" "node") ∧
      dotted.IsChild (node "up.link") "up.link" 1 2 ∧
      (Pass.hierarchy (among "id" .childOf [2])
        (standard.contextAt dotted 1 .search (node "up.link"))).result =
          .error (.unknownField "node" "up" "('up.link', 'in', [2])")) ∧
    ((beyond.records "node").filterMap Record.id?).Nodup ∧
      (∀ p, ¬beyond.IsChild (node "parent_id") "parent_id" 1 p) ∧
      (beyond.search (node "parent_id") (.condition (among "id" .childOf
        [9223372036854775807]))).result = .ok [9223372036854775807, 1] := by
  intro node dotted beyond
  refine ⟨⟨by cbv; decide, by cbv, ?_, by cbv⟩, by cbv; decide, ?_, ?_⟩
  · exact ⟨_, mem_cons_of_mem _ (mem_cons_self ..), by cbv, by cbv⟩
  · rintro p ⟨r, hr, hid, hp⟩
    have hr : r ∈ [[("id", .integer 9223372036854775807)],
      [("id", .integer 1), ("parent_id", .integer 9223372036854775808)]] := hr
    simp only [mem_cons, not_mem_nil, or_false] at hr
    obtain rfl | rfl := hr
    · exact absurd hid (by cbv; decide)
    · exact absurd hp (by cbv; intro h; cases h)
  · have hle : 3 ≤ defaultDepth := by decide
    exact Catalog.searchWithin_of_le hle (Except.toOption_eq_some.1 (by decide +kernel))

end Hierarchy

end QueryDomain
