import QueryDomain.Proofs.Calendar.Reading
import QueryDomain.Proofs.Optimization.Printable
import QueryDomain.Proofs.Records.ParentLinks
import QueryDomain.Proofs.Records.Patterns
import QueryDomain.Proofs.Records.Selection

/-! Materialized paths. Where every record has the path of its ancestors, a record is at or below
another exactly if the path of that begins its own, and `child_of` and `parent_of` select by the paths
what they select by walking along the parent links. -/
namespace QueryDomain

open List Domain

namespace Hierarchy

def pathChars (ids : List Int) : List Char :=
  ids.flatMap fun id => (toString id).toList ++ ['/']

def pathText (ids : List Int) : String := .ofList (pathChars ids)

theorem toList_toString (n : Int) :
    (toString n).toList =
      if n < 0 then '-' :: Nat.toDigits 10 n.natAbs else Nat.toDigits 10 n.natAbs := by
  cases n with
  | ofNat m => exact Nat.toList_repr
  | negSucc m =>
    rw [if_pos (Int.negSucc_lt_zero m)]
    change ("-" ++ Nat.repr (m + 1)).toList = _
    rw [String.toList_append, Nat.toList_repr]
    rfl

theorem digitsValue_toDigits (n : Nat) : Text.digitsValue (Nat.toDigits 10 n) = n := by
  simpa [Text.zeroPadded] using @Text.digitsValue_zeroPadded 0 n

theorem mem_toString {n : Int} {c : Char} (h : c ∈ (toString n).toList) :
    c = '-' ∨ c.isDigit = true := by
  rw [toList_toString] at h
  split at h
  · obtain rfl | h := mem_cons.1 h
    · exact .inl rfl
    · exact .inr (Nat.isDigit_of_mem_toDigits (by decide) (by decide) h)
  · exact .inr (Nat.isDigit_of_mem_toDigits (by decide) (by decide) h)

theorem readInt?_toString {n : Int} (h : Json.isInt64 n = true) :
    Value.readInt? (toString n) = some n := by
  have hdigits : ∀ c ∈ Nat.toDigits 10 n.natAbs, c.isDigit = true := fun c hc =>
    Nat.isDigit_of_mem_toDigits (by decide) (by decide) hc
  have hsome : (Nat.toDigits 10 n.natAbs).isEmpty = false := by
    have := @Nat.length_toDigits_pos 10 n.natAbs
    rw [← Bool.not_eq_true, isEmpty_iff_length_eq_zero]
    omega
  by_cases hneg : n < 0
  · have htext : (toString n).toList = '-' :: Nat.toDigits 10 n.natAbs := by
      rw [toList_toString, if_pos hneg]
    have hvalue : -(Text.digitsValue (Nat.toDigits 10 n.natAbs) : Int) = n := by
      rw [digitsValue_toDigits]
      omega
    unfold Value.readInt?
    rw [htext]
    simpa [hvalue, hsome, h] using hdigits
  · have htext : (toString n).toList = Nat.toDigits 10 n.natAbs := by
      rw [toList_toString, if_neg hneg]
    have hvalue : (Text.digitsValue (Nat.toDigits 10 n.natAbs) : Int) = n := by
      rw [digitsValue_toDigits]
      omega
    have hsign : ∀ c cs, Nat.toDigits 10 n.natAbs = c :: cs → c ≠ '-' ∧ c ≠ '+' := by
      intro c cs hcs
      have hdigit := hdigits c (by rw [hcs]; exact mem_cons_self)
      constructor <;> rintro rfl <;> cases hdigit
    unfold Value.readInt?
    rw [htext]
    split
    rename_i hscan
    split at hscan
    · exact absurd rfl (hsign _ _ ‹_›).1
    · exact absurd rfl (hsign _ _ ‹_›).2
    · cases hscan
      simpa [hvalue, hsome, h] using hdigits

theorem prefix_slash {front front' rest rest' : List Char} (hfront : '/' ∉ front)
    (hfront' : '/' ∉ front') : front ++ '/' :: rest <+: front' ++ '/' :: rest' ↔
      front = front' ∧ rest <+: rest' := by
  constructor
  · rintro ⟨more, hmore⟩
    rw [append_assoc, cons_append] at hmore
    have hpieces := congrArg (Text.splitChars '/') hmore
    rw [Text.splitChars_append hfront, Text.splitChars_append hfront'] at hpieces
    obtain rfl := (cons.inj hpieces).1
    exact ⟨rfl, more, (cons.inj (append_cancel_left hmore)).2⟩
  · rintro ⟨rfl, more, rfl⟩
    exact ⟨more, by simp⟩

theorem slash_notMem_toString (n : Int) : '/' ∉ (toString n).toList := by
  intro h
  obtain h | h := mem_toString h
  · cases h
  · cases h

theorem toList_toString_inj {m n : Int} : (toString m).toList = (toString n).toList ↔ m = n := by
  rw [String.toList_inj]
  exact ⟨fun h => Int.repr_injective h, fun h => by rw [h]⟩

theorem pathChars_cons (id : Int) (ids : List Int) :
    pathChars (id :: ids) = (toString id).toList ++ '/' :: pathChars ids := by
  simp [pathChars]

theorem pathChars_prefix {ids ids' : List Int} : pathChars ids <+: pathChars ids' ↔ ids <+: ids' := by
  induction ids generalizing ids' with
  | nil => simp [pathChars]
  | cons id ids ih =>
    cases ids' with
    | nil => simp [pathChars]
    | cons id' ids' =>
      rw [pathChars_cons, pathChars_cons, prefix_slash (slash_notMem_toString id)
        (slash_notMem_toString id'), ih, toList_toString_inj, cons_prefix_cons]

theorem pathIds_pathText {ids : List Int} (h : ∀ id ∈ ids, Json.isInt64 id = true) :
    pathIds (pathText ids) = ids := by
  have hpieces : Text.split '/' (pathText ids) = ids.map toString ++ [""] := by
    rw [Text.split, pathText, String.toList_ofList]
    clear h
    induction ids with
    | nil => rfl
    | cons id ids ih =>
      rw [pathChars_cons, Text.splitChars_append (slash_notMem_toString id), map_cons, ih,
        String.ofList_toList]
      rfl
  have hnone : Value.readInt? "" = none := by decide
  have hread : (ids.map toString).filterMap Value.readInt? = ids := by
    rw [filterMap_map]
    exact (filterMap_congr fun id hid => readInt?_toString (h id hid)).trans filterMap_some
  rw [pathIds, hpieces, filterMap_append, hread]
  simp [hnone]

end Hierarchy

namespace Catalog

/-- The records from the root of a tree down to `x`. -/
inductive Lineage (catalog : Catalog) (entity : Entity) (parent : String) : Int → List Int → Prop
  | root {r x} : r ∈ catalog.records entity.name → Record.id? r = some x →
      (Record.get? r parent).bind Json.asInt64? = none → Lineage catalog entity parent x [x]
  | child {x p ids} : catalog.IsChild entity parent x p → Lineage catalog entity parent p ids →
      Lineage catalog entity parent x (ids ++ [x])

variable {catalog : Catalog} {entity : Entity} {parent : String} {x y p : Int} {ids ids' : List Int}

namespace Lineage

theorem of_mem (h : catalog.Lineage entity parent x ids) (hy : y ∈ ids) :
    ∃ above, catalog.Lineage entity parent y above ∧ above <+: ids := by
  induction h with
  | root hr hid hparent =>
    obtain rfl := mem_singleton.1 hy
    exact ⟨_, .root hr hid hparent, prefix_refl _⟩
  | child hchild h ih =>
    obtain hy | hy := mem_append.1 hy
    · obtain ⟨above, habove, hprefix⟩ := ih hy
      exact ⟨above, habove, hprefix.trans (prefix_append ..)⟩
    · obtain rfl := mem_singleton.1 hy
      exact ⟨_, .child hchild h, prefix_refl _⟩

theorem self_mem (h : catalog.Lineage entity parent x ids) : x ∈ ids := by
  cases h <;> simp

theorem exists_record (h : catalog.Lineage entity parent x ids) :
    ∃ r ∈ catalog.records entity.name, Record.id? r = some x := by
  cases h with
  | root hr hid => exact ⟨_, hr, hid⟩
  | child hchild =>
    obtain ⟨r, hr, hid, -⟩ := hchild
    exact ⟨r, hr, hid⟩

theorem isInt64 (h : catalog.Lineage entity parent x ids) : ∀ id ∈ ids, Json.isInt64 id = true := by
  intro id hid
  obtain ⟨above, habove, -⟩ := h.of_mem hid
  obtain ⟨r, -, hr⟩ := habove.exists_record
  exact Record.isInt64_of_id? hr

variable (hids : ((catalog.records entity.name).filterMap Record.id?).Nodup)

include hids

theorem mem_iff (h : catalog.Lineage entity parent x ids) :
    y ∈ ids ↔ Relation.ReflTransGen (catalog.IsChild entity parent) x y := by
  induction h with
  | @root r x hr hid hparent =>
    rw [mem_singleton, Relation.ReflTransGen.cases_head_iff]
    refine ⟨fun h => .inl h.symm, ?_⟩
    rintro (rfl | ⟨p, ⟨r', hr', hid', hp⟩, -⟩)
    · rfl
    · rw [eq_of_id? hids hr' hr hid' hid, hparent] at hp
      cases hp
  | @child x p ids hchild h ih =>
    rw [mem_append, mem_singleton, ih, Relation.ReflTransGen.cases_head_iff (a := x)]
    constructor
    · rintro (hreach | rfl)
      · exact .inr ⟨p, hchild, hreach⟩
      · exact .inl rfl
    · rintro (rfl | ⟨p', hchild', hreach⟩)
      · exact .inr rfl
      · obtain ⟨r, hr, hid, hp⟩ := hchild
        obtain ⟨r', hr', hid', hp'⟩ := hchild'
        rw [eq_of_id? hids hr' hr hid' hid, hp] at hp'
        exact .inl (Option.some.inj hp' ▸ hreach)

theorem unique (h : catalog.Lineage entity parent x ids)
    (h' : catalog.Lineage entity parent x ids') : ids = ids' := by
  induction h generalizing ids' with
  | @root r x hr hid hparent =>
    cases h' with
    | root => rfl
    | child hchild =>
      obtain ⟨r', hr', hid', hp⟩ := hchild
      rw [eq_of_id? hids hr' hr hid' hid, hparent] at hp
      cases hp
  | @child x p ids hchild _ ih =>
    obtain ⟨r, hr, hid, hp⟩ := hchild
    cases h' with
    | root hr' hid' hparent =>
      rw [eq_of_id? hids hr' hr hid' hid, hp] at hparent
      cases hparent
    | child hchild' h' =>
      obtain ⟨r', hr', hid', hp'⟩ := hchild'
      rw [eq_of_id? hids hr' hr hid' hid, hp] at hp'
      cases hp'
      rw [ih h']

/-- A lineage begins another exactly if its record is on the way. -/
theorem prefix_iff (h : catalog.Lineage entity parent x ids) (h' : catalog.Lineage entity parent y ids') :
    ids' <+: ids ↔ y ∈ ids := by
  refine ⟨fun hprefix => hprefix.subset h'.self_mem, fun hy => ?_⟩
  obtain ⟨above, habove, hprefix⟩ := h.of_mem hy
  rwa [h'.unique hids habove]

end Lineage

/-- The entity has a parent link along which its records are a forest, and the path of each record
is kept with it. -/
structure KeepsPaths (catalog : Catalog) (entity : Entity) : Prop where
  ids : ((catalog.records entity.name).filterMap Record.id?).Nodup
  store : entity.parentStore = true
  link : ∃ field, entity.field? entity.parentName = some field ∧ field.type = .many2one ∧
    field.comodel = some entity.name ∧ field.stored = true ∧ field.delegatedVia = none
  plain : '.' ∉ entity.parentName.toList
  values : ∀ r ∈ catalog.records entity.name, ∀ json, Record.get? r entity.parentName = some json →
    json = .null ∨ ∃ n, json = .integer n ∧ Json.isInt64 n = true
  forest : ∀ r ∈ catalog.records entity.name, ∀ x, Record.id? r = some x →
    ∃ ids, catalog.Lineage entity entity.parentName x ids
  paths : ∃ field, entity.field? Entity.parentPath = some field ∧
    ∀ r ∈ catalog.records entity.name, ∀ x ids, Record.id? r = some x →
      catalog.Lineage entity entity.parentName x ids →
      field.valueOf (Record.get? r Entity.parentPath) = .text (Hierarchy.pathText ids)

def IsAmong (catalog : Catalog) (entity : Entity) (parent : String) (operator : Operator)
    (ids : List Int) (x : Int) : Prop :=
  ∃ s ∈ ids, if operator = .childOf then Relation.ReflTransGen (catalog.IsChild entity parent) x s
    else Relation.ReflTransGen (catalog.IsChild entity parent) s x

end Catalog

namespace Hierarchy

variable {catalog : Catalog} {entity : Entity} {parent path : String} {operator : Operator}
  {ids found : List Int} {record : Record} {x s : Int} {ctx : Context}

theorem head_eq {c : Condition} (hplain : '.' ∉ c.path.toList) : c.head = c.path :=
  Text.cut_fst_of_none (Text.cut_snd_eq_none.2 hplain)

theorem tells_idIn (hid : Record.id? record = some x) :
    catalog.Tells (idIn ids) entity record (x ∈ ids) := by
  obtain ⟨field, hfield⟩ : ∃ field, entity.field? Entity.idName = some field := by
    unfold Entity.field?
    split
    · exact ⟨_, rfl⟩
    · exact ⟨_, if_pos rfl⟩
  have hvalue := Field.valueOf_id (Entity.name_of_field? hfield) hid
  have hmember : (ValueSet.ofList (ids.map Value.int)).holds (.int x) = true ↔ x ∈ ids := by
    rw [ValueSet.holds_ofList, any_map, any_eq_true]
    simp [Value.equals, Value.isNull, Value.compare?]
  let c : Condition := ⟨Entity.idName, .mem, .set (.ofList (ids.map Value.int)), none⟩
  have hhead : entity.field? c.head = some field := by rwa [head_eq (show '.' ∉ "id".toList by decide)]
  have hplain : c.isDotted = false := show "id".toList.contains '.' = false by decide
  exact (Catalog.tells_membership hplain hhead hvalue rfl rfl).congr (by simp [c, hmember])

open Optimizer in
theorem exists_byWalk (h : catalog.LinksParents entity parent)
    (hpath : path = Entity.idName ∧ parent = entity.parentName ∨
      path = parent ∧ parent ≠ Entity.idName)
    (hop : operator = .childOf ∨ operator = .parentOf) (ids : List Int) (depth : Nat) (level : Level) :
    ∃ d, (Pass.hierarchy (among path operator ids)
        (standard.contextAt catalog (depth + 1) level entity)).result = .ok (some d) ∧
      ∀ r x, Record.id? r = some x →
        catalog.Tells d entity r (catalog.IsAmong entity parent operator ids x) := by
  by_cases hids : ids = []
  · subst hids
    refine ⟨_, hierarchy_among_nil h.link h.plain hpath rfl operator, fun r x _ => ?_⟩
    exact (Catalog.Tells.constant false).congr (by simp [Catalog.IsAmong])
  · have hseeds : ∀ s, s ∈ newIds [] ids ↔ s ∈ ids := fun s => mem_newIds.trans (by simp)
    have hwalk : ∃ found, (walk (among path operator ids)
        (standard.contextAt catalog (depth + 1) level entity) entity parent
        (newIds [] ids)).result = .ok (idIn found) ∧
        ∀ x, x ∈ found ↔ catalog.IsAmong entity parent operator ids x := by
      obtain rfl | rfl := hop
      · obtain ⟨found, hfound, -, hreached⟩ := exists_descendants h (nodup_newIds [] ids)
          (among path .childOf ids) depth level
        exact ⟨found, hfound, fun x => (hreached x).trans (by simp [Catalog.IsAmong, hseeds])⟩
      · obtain ⟨found, hfound, -, hreached⟩ := exists_ancestors h (nodup_newIds [] ids)
          (among path .parentOf ids) (depth + 1) level
        exact ⟨found, hfound, fun x => (hreached x).trans (by simp [Catalog.IsAmong, hseeds])⟩
    obtain ⟨found, hfound, hmem⟩ := hwalk
    exact ⟨_, hierarchy_among h.link h.plain hpath rfl hids hfound,
      fun r x hid => (tells_idIn hid).congr (hmem x)⟩

section Paths

variable (h : catalog.KeepsPaths entity)

include h

theorem mem_paths (hcatalog : ctx.catalog = catalog) (ids : List Int) :
    ∃ texts, paths ctx entity ids = .ok texts ∧ ∀ text, text ∈ texts ↔
      ∃ s ∈ ids, ∃ lineage, catalog.Lineage entity entity.parentName s lineage ∧
        text = pathText lineage := by
  obtain ⟨field, hfield, hvalue⟩ := h.paths
  unfold paths Catalog.readField
  rw [hcatalog, hfield]
  dsimp only
  rw [Entity.name_of_field? hfield]
  refine ⟨_, rfl, fun text => ?_⟩
  simp only [mem_filterMap, Option.map_eq_some_iff]
  constructor
  · rintro ⟨_, ⟨s, hs, r, hr, rfl⟩, htext⟩
    obtain ⟨hr, hid⟩ := (Catalog.record?_eq_some h.ids).1 hr
    obtain ⟨lineage, hlineage⟩ := h.forest r hr s hid
    rw [hvalue r hr s lineage hid hlineage] at htext
    exact ⟨s, hs, lineage, hlineage, (Option.some.inj htext).symm⟩
  · rintro ⟨s, hs, lineage, hlineage, rfl⟩
    obtain ⟨r, hr, hid⟩ := hlineage.exists_record
    refine ⟨_, ⟨s, hs, r, (Catalog.record?_eq_some h.ids).2 ⟨hr, hid⟩, rfl⟩, ?_⟩
    rw [hvalue r hr s lineage hid hlineage]
    rfl

/-- The path of a record starts with that of another exactly if it is at or below that one. -/
theorem tells_below (hrecord : record ∈ catalog.records entity.name) (hid : Record.id? record = some x)
    {lineage : List Int} (hlineage : catalog.Lineage entity entity.parentName s lineage) :
    catalog.Tells (.leaf Entity.parentPath .eqLike (.scalar (.text (pathText lineage ++ "%")))) entity
      record (Relation.ReflTransGen (catalog.IsChild entity entity.parentName) x s) := by
  obtain ⟨field, hfield, hvalue⟩ := h.paths
  obtain ⟨own, hown⟩ := h.forest record hrecord x hid
  have hname : field.name = Entity.parentPath := Entity.name_of_field? hfield
  have hvalue : field.valueOf (Record.get? record field.name) = .text (pathText own) := by
    rw [hname]
    exact hvalue record hrecord x own hid hown
  have hplain : ∀ p ∈ pathChars lineage, p ≠ '%' ∧ p ≠ '_' := by
    intro p hp
    obtain ⟨id, -, hp⟩ := mem_flatMap.1 hp
    obtain hp | hp := mem_append.1 hp
    · obtain rfl | hdigit := mem_toString hp
      · decide
      · constructor <;> rintro rfl <;> cases hdigit
    · obtain rfl := mem_singleton.1 hp
      decide
  have hstarts : Pattern.test .eqLike (pathText lineage ++ "%") (.text (pathText own)) = true ↔
      lineage <+: own := by
    rw [← pathChars_prefix, ← Pattern.like_append_any hplain]
    simp [Pattern.test, Value.isNull, Operator.positive, Operator.isNegative, Pattern.subject, pathText]
  let c : Condition :=
    ⟨Entity.parentPath, .eqLike, .scalar (.text (pathText lineage ++ "%")), none⟩
  have hhead : entity.field? c.head = some field := by
    rwa [head_eq (show '.' ∉ "parent_path".toList by decide)]
  have hplain : c.isDotted = false := show "parent_path".toList.contains '.' = false by decide
  refine (Catalog.tells_pattern hplain hhead hvalue rfl rfl).congr ?_
  rw [hstarts, hown.prefix_iff h.ids hlineage, hown.mem_iff h.ids]

theorem tells_descendants (hrecord : record ∈ catalog.records entity.name)
    (hid : Record.id? record = some x) {texts : List String}
    (htexts : ∀ text, text ∈ texts ↔ ∃ s ∈ ids, ∃ lineage,
      catalog.Lineage entity entity.parentName s lineage ∧ text = pathText lineage) :
    catalog.Tells (.or (texts.map fun path =>
        .leaf Entity.parentPath .eqLike (.scalar (.text (path ++ "%"))))) entity record
      (catalog.IsAmong entity entity.parentName .childOf ids x) := by
  have hleaf : ∀ text ∈ texts, ∃ s ∈ ids, catalog.Tells
      (.leaf Entity.parentPath .eqLike (.scalar (.text (text ++ "%")))) entity record
      (Relation.ReflTransGen (catalog.IsChild entity entity.parentName) x s) := by
    intro text htext
    obtain ⟨s, hs, lineage, hlineage, rfl⟩ := (htexts text).1 htext
    exact ⟨s, hs, tells_below h hrecord hid hlineage⟩
  refine (Catalog.tells_or (forall_mem_map.2 fun text htext => ?_)).congr ?_
  · obtain ⟨s, -, htells⟩ := hleaf text htext
    exact htells.evaluates
  · constructor
    · rintro ⟨d, hd, hmet⟩
      obtain ⟨text, htext, rfl⟩ := mem_map.1 hd
      obtain ⟨s, hs, htells⟩ := hleaf text htext
      exact ⟨s, hs, htells.met_iff.1 hmet⟩
    · rintro ⟨s, hs, hreach⟩
      obtain ⟨own, hown⟩ := h.forest record hrecord x hid
      obtain ⟨above, habove, -⟩ := hown.of_mem ((hown.mem_iff h.ids).2 hreach)
      exact ⟨_, mem_map_of_mem ((htexts _).2 ⟨s, hs, above, habove, rfl⟩),
        (tells_below h hrecord hid habove).met_iff.2 hreach⟩

theorem tells_ancestors (hrecord : record ∈ catalog.records entity.name)
    (hid : Record.id? record = some x) {texts : List String}
    (htexts : ∀ text, text ∈ texts ↔ ∃ s ∈ ids, ∃ lineage,
      catalog.Lineage entity entity.parentName s lineage ∧ text = pathText lineage) :
    catalog.Tells (idIn (newIds [] (texts.flatMap pathIds))) entity record
      (catalog.IsAmong entity entity.parentName .parentOf ids x) := by
  refine (tells_idIn hid).congr ?_
  simp only [mem_newIds, not_mem_nil, not_false_eq_true, and_true, mem_flatMap, htexts]
  constructor
  · rintro ⟨_, ⟨s, hs, lineage, hlineage, rfl⟩, hx⟩
    rw [pathIds_pathText hlineage.isInt64, hlineage.mem_iff h.ids] at hx
    exact ⟨s, hs, hx⟩
  · rintro ⟨s, hs, hreach⟩
    have hseed : ∃ r ∈ catalog.records entity.name, Record.id? r = some s := by
      obtain rfl | ⟨p, ⟨r, hr, hs, -⟩, -⟩ := Relation.ReflTransGen.cases_head_iff.1 hreach
      · exact ⟨record, hrecord, hid⟩
      · exact ⟨r, hr, hs⟩
    obtain ⟨r, hr, hrs⟩ := hseed
    obtain ⟨lineage, hlineage⟩ := h.forest r hr s hrs
    refine ⟨_, ⟨s, hs, lineage, hlineage, rfl⟩, ?_⟩
    rw [pathIds_pathText hlineage.isInt64, hlineage.mem_iff h.ids]
    exact hreach

open Optimizer in
theorem exists_byPath (hpath : path = Entity.idName ∨ path = entity.parentName ∧
      entity.parentName ≠ Entity.idName)
    (hop : operator = .childOf ∨ operator = .parentOf) (ids : List Int)
    (hcatalog : ctx.catalog = catalog) (hentity : ctx.entity = entity) :
    ∃ d, (Pass.hierarchy (among path operator ids) ctx).result = .ok (some d) ∧
      ∀ r ∈ catalog.records entity.name, ∀ x, Record.id? r = some x →
        catalog.Tells d entity r (catalog.IsAmong entity entity.parentName operator ids x) := by
  obtain ⟨field, hfield, htype, hcomodel, -⟩ := h.link
  have hlink : ∃ field, entity.field? entity.parentName = some field ∧ field.type = .many2one ∧
      field.comodel = some entity.name := ⟨field, hfield, htype, hcomodel⟩
  have hpath : path = Entity.idName ∧ entity.parentName = entity.parentName ∨
      path = entity.parentName ∧ entity.parentName ≠ Entity.idName := by simpa using hpath
  by_cases hids : ids = []
  · subst hids
    refine ⟨_, hierarchy_among_nil hlink h.plain hpath hentity operator, fun r _ x _ => ?_⟩
    exact (Catalog.Tells.constant false).congr (by simp [Catalog.IsAmong])
  · obtain ⟨texts, htexts, hmem⟩ := mem_paths h hcatalog (newIds [] ids)
    have hmem : ∀ text, text ∈ texts ↔ ∃ s ∈ ids, ∃ lineage,
        catalog.Lineage entity entity.parentName s lineage ∧ text = pathText lineage := by
      simpa [mem_newIds] using hmem
    have huses : usesPath entity entity.parentName = true := by simp [usesPath, h.store]
    obtain rfl | rfl := hop
    · refine ⟨_, hierarchy_among hlink h.plain hpath hentity hids ?_,
        fun r hr x hid => tells_descendants h hr hid hmem⟩
      rw [walk, among, if_pos rfl, descendants, if_pos huses, htexts]
      rfl
    · refine ⟨_, hierarchy_among hlink h.plain hpath hentity hids ?_,
        fun r hr x hid => tells_ancestors h hr hid hmem⟩
      rw [walk, among, if_neg (by simp), ancestors, if_pos huses, htexts]
      rfl

end Paths

open Optimizer in
/-- By the paths of a forest the same records are selected as by the walk along the parent links that
would be made without the paths: `child_of` and `parent_of` come to a domain either way, from any
records, missing ones included. -/
theorem matching_by_paths (h : catalog.KeepsPaths entity)
    (hpath : path = Entity.idName ∨ path = entity.parentName ∧ entity.parentName ≠ Entity.idName)
    (hop : operator = .childOf ∨ operator = .parentOf) (ids : List Int) (depth : Nat)
    (level : Level) :
    let plain : Entity := { entity with parentStore := false }
    let unpathed := catalog.addEntity plain
    ∃ byPath byWalk found,
      (Pass.hierarchy (among path operator ids)
        (standard.contextAt catalog (depth + 1) level entity)).result = .ok (some byPath) ∧
      (Pass.hierarchy (among path operator ids)
        (standard.contextAt unpathed (depth + 1) level plain)).result = .ok (some byWalk) ∧
      catalog.matching entity byPath (catalog.records entity.name) = .ok found ∧
      unpathed.matching plain byWalk (unpathed.records plain.name) = .ok found := by
  intro plain unpathed
  have hlinks : unpathed.LinksParents plain plain.parentName :=
    ⟨h.ids, h.link, h.plain, rfl, h.values⟩
  obtain ⟨byPath, hbyPath, hpaths⟩ := exists_byPath h hpath hop ids
    (show (standard.contextAt catalog (depth + 1) level entity).catalog = catalog from rfl) rfl
  obtain ⟨byWalk, hbyWalk, hwalk⟩ := exists_byWalk hlinks (by simpa [plain] using hpath) hop ids
    depth level
  classical
  exact ⟨byPath, byWalk, _, hbyPath, hbyWalk, Catalog.matching_of_tells_id hpaths,
    Catalog.matching_of_tells_id fun r _ x hid => hwalk r x hid⟩

open Optimizer in
/-- Where the identifier of one root begins that of another, and one of the given records is
missing. -/
theorem matching_by_paths_roots :
    let entity : Entity :=
      { name := "node", parentStore := true
        fields := [.many2one "parent_id" "node", { name := "parent_path", type := .char }] }
    let catalog : Catalog :=
      { entities := [entity]
        tables := [("node", [[("id", .integer 1), ("parent_path", .string "1/")],
          [("id", .integer 11), ("parent_id", .null), ("parent_path", .string "11/")],
          [("id", .integer 2), ("parent_id", .integer 1), ("parent_path", .string "1/2/")]])] }
    let plain : Entity := { entity with parentStore := false }
    let unpathed := catalog.addEntity plain
    catalog.KeepsPaths entity ∧
    ∃ byPath byWalk found,
      (Pass.hierarchy (among "id" .childOf [1, 7])
        (standard.contextAt catalog 1 .search entity)).result = .ok (some byPath) ∧
      (Pass.hierarchy (among "id" .childOf [1, 7])
        (standard.contextAt unpathed 1 .search plain)).result = .ok (some byWalk) ∧
      catalog.matching entity byPath (catalog.records "node") = .ok found ∧
      unpathed.matching plain byWalk (unpathed.records "node") = .ok found := by
  intro entity catalog plain unpathed
  let first : Record := [("id", .integer 1), ("parent_path", .string "1/")]
  let second : Record := [("id", .integer 11), ("parent_id", .null), ("parent_path", .string "11/")]
  let third : Record := [("id", .integer 2), ("parent_id", .integer 1), ("parent_path", .string "1/2/")]
  have hids : ((catalog.records entity.name).filterMap Record.id?).Nodup := by cbv; decide
  have hone : catalog.Lineage entity "parent_id" 1 [1] :=
    .root (r := first) (mem_cons_self ..) (by cbv) (by cbv)
  have heleven : catalog.Lineage entity "parent_id" 11 [11] :=
    .root (r := second) (mem_cons_of_mem _ (mem_cons_self ..)) (by cbv) (by cbv)
  have htwo : catalog.Lineage entity "parent_id" 2 [1, 2] :=
    .child ⟨third, mem_cons_of_mem _ (mem_cons_of_mem _ (mem_cons_self ..)), by cbv, by cbv⟩ hone
  have hrecords : ∀ r ∈ [first, second, third], ∃ x ids, Record.id? r = some x ∧
      catalog.Lineage entity "parent_id" x ids ∧
      Record.get? r "parent_path" = some (.string (pathText ids)) ∧
      ∀ json, Record.get? r "parent_id" = some json → json = .null ∨ json = .integer 1 :=
    forall_mem_cons.2 ⟨⟨1, [1], by cbv, hone, by cbv,
        fun json hjson => absurd hjson.symm (Option.some_ne_none json)⟩,
      forall_mem_cons.2 ⟨⟨11, [11], by cbv, heleven, by cbv,
          fun json hjson => .inl (Option.some.inj hjson).symm⟩,
        forall_mem_singleton.2 ⟨2, [1, 2], by cbv, htwo, by cbv,
          fun json hjson => .inr (Option.some.inj hjson).symm⟩⟩⟩
  have hkeeps : catalog.KeepsPaths entity := by
    refine ⟨hids, rfl, ⟨.many2one "parent_id" "node", by cbv, rfl, rfl, rfl, rfl⟩, by decide,
      fun r hr json hjson => ?_, fun r hr x hid => ?_, { name := "parent_path", type := .char }, by cbv,
      fun r hr x ids hid hlineage => ?_⟩
    · obtain ⟨-, -, -, -, -, hparent⟩ := hrecords r hr
      exact (hparent json hjson).imp_right fun h => ⟨1, h, rfl⟩
    · obtain ⟨x', ids, hid', hlineage, -⟩ := hrecords r hr
      obtain rfl := Option.some.inj (hid.symm.trans hid')
      exact ⟨ids, hlineage⟩
    · obtain ⟨x', ids', hid', hlineage', htext, -⟩ := hrecords r hr
      obtain rfl := Option.some.inj (hid.symm.trans hid')
      rw [hlineage.unique hids hlineage', Entity.parentPath, htext]
      rfl
  exact ⟨hkeeps, matching_by_paths hkeeps (.inl rfl) (.inl rfl) [1, 7] 0 .search⟩

open Optimizer in
/-- A link with a dot in its name cannot be searched on, a path that is no field cannot be read, and a
link that an entity has from another one is followed there. -/
theorem matching_by_paths_differs :
    let node (link : String) (fields : List Field) (store : Bool) : Entity :=
      { name := "node", parentName := link, parentStore := store, fields }
    let ways : Field := { name := "parent_path", type := .char }
    let dotted := node "up.link" [.many2one "up.link" "node", ways]
    let unread := node "parent_id" [.many2one "parent_id" "node"]
    let inherited := node "parent_id" [.many2one "base_id" "base",
      { name := "parent_id", type := .many2one, comodel := some "node",
        delegatedVia := some "base_id" }, ways]
    let root : Record := [("id", .integer 1), ("parent_path", .string "1/")]
    let child (link : String) : Record :=
      [("id", .integer 2), (link, .integer 1), ("parent_path", .string "1/2/")]
    let catalog (entity : Entity) : Catalog :=
      { entities := [{ name := "base", fields := [.many2one "parent_id" "node"] }, entity]
        tables := [("node", [root, child entity.parentName])] }
    let below (entity : Entity) : Except Error (List Int) :=
      Pass.rewriting Pass.hierarchy (among "id" .childOf [1])
        (standard.contextAt (catalog entity) 2 .search entity) >>= fun d =>
          (catalog entity).matching entity d ((catalog entity).records "node")
    (∀ entity ∈ [dotted true, unread true, inherited true],
      (((catalog entity).records "node").filterMap Record.id?).Nodup ∧
      (∃ field, entity.field? entity.parentName = some field ∧ field.type = .many2one ∧
        field.comodel = some "node" ∧ field.stored = true) ∧
      (catalog entity).Lineage entity entity.parentName 1 [1] ∧
      (catalog entity).Lineage entity entity.parentName 2 [1, 2]) ∧
    pathText [1] = "1/" ∧ pathText [1, 2] = "1/2/" ∧
    below (dotted true) = .ok [1, 2] ∧
    below (dotted false) = .error (.unknownField "node" "up" "('up.link', 'in', [1])") ∧
    below (unread true) = .error (.unknownField "node" "parent_path" "read(parent_path)") ∧
    below (unread false) = .ok [1, 2] ∧
    below (inherited true) = .ok [1, 2] ∧
    below (inherited false) = .ok [1] := by
  intro node ways dotted unread inherited root child catalog below
  have hforest : ∀ entity : Entity, entity.name = "node" →
      Record.get? root entity.parentName = none →
      Record.get? (child entity.parentName) entity.parentName = some (.integer 1) →
      (((catalog entity).records "node").filterMap Record.id?).Nodup ∧
      (catalog entity).Lineage entity entity.parentName 1 [1] ∧
      (catalog entity).Lineage entity entity.parentName 2 [1, 2] := by
    intro entity hname hroot hchild
    have hrecords : (catalog entity).records entity.name = [root, child entity.parentName] := by
      rw [hname]
      rfl
    have hone : (catalog entity).Lineage entity entity.parentName 1 [1] :=
      .root (r := root) (by simp [hrecords]) (by cbv) (by rw [hroot]; rfl)
    have hlink : (catalog entity).IsChild entity entity.parentName 2 1 :=
      ⟨child entity.parentName, by simp [hrecords], by cbv, by rw [hchild]; rfl⟩
    exact ⟨by cbv; decide, hone, .child hlink hone⟩
  have hcases : ∀ entity ∈ [dotted true, unread true, inherited true],
      (((catalog entity).records "node").filterMap Record.id?).Nodup ∧
      (∃ field, entity.field? entity.parentName = some field ∧ field.type = .many2one ∧
        field.comodel = some "node" ∧ field.stored = true) ∧
      (catalog entity).Lineage entity entity.parentName 1 [1] ∧
      (catalog entity).Lineage entity entity.parentName 2 [1, 2] := by
    intro entity hentity
    simp only [mem_cons, not_mem_nil, or_false] at hentity
    obtain rfl | rfl | rfl := hentity
    · obtain ⟨hids, hone, htwo⟩ := hforest (dotted true) rfl (by cbv) (by cbv)
      exact ⟨hids, ⟨.many2one "up.link" "node", by cbv, rfl, rfl, rfl⟩, hone, htwo⟩
    · obtain ⟨hids, hone, htwo⟩ := hforest (unread true) rfl (by cbv) (by cbv)
      exact ⟨hids, ⟨.many2one "parent_id" "node", by cbv, rfl, rfl, rfl⟩, hone, htwo⟩
    · obtain ⟨hids, hone, htwo⟩ := hforest (inherited true) rfl (by cbv) (by cbv)
      exact ⟨hids, ⟨_, by cbv, rfl, rfl, rfl⟩, hone, htwo⟩
  refine ⟨hcases, by decide, by decide, Except.toOption_eq_some.1 (by decide +kernel),
    by dsimp only [below]; cbv, by cbv, Except.toOption_eq_some.1 (by decide +kernel),
    Except.toOption_eq_some.1 (by decide +kernel), Except.toOption_eq_some.1 (by decide +kernel)⟩

end Hierarchy

end QueryDomain
