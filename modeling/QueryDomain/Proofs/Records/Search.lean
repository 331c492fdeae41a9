import Mathlib
import QueryDomain.Proofs.Records.Joining

/-! Searching for a conjunction finds what both searches find, and searching for a disjunction what
at least one of them finds. -/
namespace QueryDomain

open List Domain

namespace Catalog

variable {catalog : Catalog} {entity : Entity} {depth : Nat}

theorem searchWithin_eq_ok {d : Domain} {found : List Int} :
    (catalog.searchWithin depth entity d).result = .ok found ↔
      ∃ optimized, (Optimizer.node catalog depth .standard .search entity d).result =
        .ok optimized ∧
        catalog.matching entity optimized (catalog.records entity.name) = .ok found := by
  unfold searchWithin Optimizer.searchBy Optimizer.conclude
  simp only [Run.result_bind_eq_ok, Run.result_report, Run.result_pure, Run.result_liftM,
    Except.ok.injEq]
  constructor
  · rintro ⟨_, ⟨optimized, hnode, -, -, rfl⟩, found', hfound, -, -, rfl⟩
    exact ⟨optimized, hnode, hfound⟩
  · rintro ⟨optimized, hnode, hfound⟩
    exact ⟨_, ⟨optimized, hnode, (), trivial, rfl⟩, found, hfound, (), trivial, rfl⟩

theorem searchWithin_of_le {depth' : Nat} (hle : depth ≤ depth') {d : Domain} {found : List Int}
    (h : (catalog.searchWithin depth entity d).result = .ok found) :
    (catalog.searchWithin depth' entity d).result = .ok found := by
  obtain ⟨optimized, hnode, hfound⟩ := searchWithin_eq_ok.1 h
  exact searchWithin_eq_ok.2 ⟨optimized, Optimizer.node_of_le hle hnode, hfound⟩

theorem matching_eq_ok {d : Domain} {records : List Record} {found : List Int}
    (h : catalog.matching entity d records = .ok found) :
    found = (records.filter (catalog.truth d entity)).filterMap Record.id? := by
  induction records generalizing found with
  | nil =>
    cases h
    rfl
  | cons r rs ih =>
    rw [matching] at h
    split at h
    · rename_i hnone
      rw [ih h, filter_cons]
      split
      · rw [filterMap_cons_none hnone]
      · rfl
    · rename_i id hid
      simp only [Except.bind_eq_ok] at h
      obtain ⟨b, hb, found', hfound', h⟩ := h
      cases h
      rw [filter_cons, truth_of_holds hb, ih hfound']
      cases b with
      | true => exact (filterMap_cons_some hid).symm
      | false => rfl

theorem mem_filterMap_id? {records : List Record}
    (hids : (records.filterMap Record.id?).Nodup) {p : Record → Bool} {r : Record}
    (hr : r ∈ records) {id : Int} (hid : Record.id? r = some id) :
    id ∈ (records.filter p).filterMap Record.id? ↔ p r = true := by
  constructor
  · intro h
    obtain ⟨r', hr', hid'⟩ := mem_filterMap.1 h
    obtain ⟨hr', hp⟩ := mem_filter.1 hr'
    rwa [eq_of_id? hids hr hr' hid hid']
  · intro hp
    exact mem_filterMap.2 ⟨r, mem_filter.2 ⟨hr, hp⟩, hid⟩

theorem filterMap_filter_id? {records : List Record} {p : Record → Bool} {q : Int → Bool}
    (h : ∀ r ∈ records, ∀ id, Record.id? r = some id → q id = p r) :
    (records.filter p).filterMap Record.id? = (records.filterMap Record.id?).filter q := by
  induction records with
  | nil => rfl
  | cons r rs ih =>
    rw [forall_mem_cons] at h
    rw [filter_cons]
    cases hid : Record.id? r with
    | none =>
      rw [filterMap_cons_none hid, ← ih h.2]
      split
      · exact filterMap_cons_none hid
      · rfl
    | some id =>
      rw [filterMap_cons_some hid, filter_cons, h.1 id hid]
      split
      · rw [filterMap_cons_some hid, ih h.2]
      · exact ih h.2

variable (hregular : catalog.Regular) (huniform : catalog.Uniform)
  (hentity : catalog.entity? entity.name = some entity) {a b : Domain}
  (hunmarked : a.unmarked = a ∧ b.unmarked = b)
  (hexact : IsExact catalog a entity ∧ IsExact catalog b entity)
  {as bs : List Int} (ha : (catalog.searchWithin depth entity a).result = .ok as)
  (hb : (catalog.searchWithin depth entity b).result = .ok bs)

include hregular huniform hentity hunmarked hexact ha hb

theorem searchWithin_apply {k : Connective} {found : List Int}
    (h : (catalog.searchWithin depth entity (k.apply [a, b])).result = .ok found) :
    found = ((catalog.records entity.name).filterMap Record.id?).filter fun id =>
      k.join (as.contains id) (bs.contains id) := by
  obtain ⟨a', ha', has⟩ := searchWithin_eq_ok.1 ha
  obtain ⟨b', hb', hbs⟩ := searchWithin_eq_ok.1 hb
  obtain ⟨d, hd, hfound⟩ := searchWithin_eq_ok.1 h
  have hids := hregular.ids entity (mem_of_find?_eq_some hentity)
  have hclean : ∀ e ∈ [a, b], e.unmarked = e ∧ Optimizer.IsClean catalog e entity := by
    intro e he
    have hmarks : e.unmarked = e → e.EachMark (Optimizer.Vouched catalog) :=
      fun h => h ▸ eachMark_mapValues id e
    simp only [mem_cons, not_mem_nil, or_false] at he
    obtain rfl | rfl := he
    · exact ⟨hunmarked.1, hmarks hunmarked.1, hexact.1⟩
    · exact ⟨hunmarked.2, hmarks hunmarked.2, hexact.2⟩
  have htruth := Optimizer.node_apply_truth (k := k) hregular huniform hentity hclean
    (.cons ha' (.cons hb' .nil)) hd
  rw [matching_eq_ok hfound]
  refine filterMap_filter_id? fun r hr id hid => ?_
  have hcontains : ∀ {e found}, catalog.matching entity e (catalog.records entity.name) =
      .ok found → found.contains id = catalog.truth e entity r := by
    intro e found hfound
    rw [Bool.eq_iff_iff, contains_iff_mem, matching_eq_ok hfound, mem_filterMap_id? hids hr hid]
  rw [hcontains has, hcontains hbs, htruth r hr, valueAll, valueAll, valueAll,
    Connective.join_identity, truth_eq, truth_eq]

/-- A search for a conjunction finds what both searches find, and one for a disjunction what at
least one of them finds, in the order of the records. -/
theorem searchWithin_and_or {both either : List Int}
    (hand : (catalog.searchWithin depth entity (.and [a, b])).result = .ok both)
    (hor : (catalog.searchWithin depth entity (.or [a, b])).result = .ok either) :
    both = ((catalog.records entity.name).filterMap Record.id?).filter
        (fun id => as.contains id && bs.contains id) ∧
      either = ((catalog.records entity.name).filterMap Record.id?).filter
        (fun id => as.contains id || bs.contains id) :=
  ⟨searchWithin_apply hregular huniform hentity hunmarked hexact ha hb hand,
    searchWithin_apply hregular huniform hentity hunmarked hexact ha hb hor⟩

omit hregular huniform hentity hunmarked hexact ha hb

/-- Lines of size one or unset, and lines with a size. -/
theorem searchWithin_and_or_sizes :
    let entity : Entity := { name := "line", fields := [{ name := "size", type := .integer }] }
    let catalog : Catalog :=
      { entities := [entity]
        tables := [("line", [[("id", .integer 1)], [("id", .integer 2), ("size", .integer 1)]])] }
    let a : Domain := .leaf "size" .mem (.set ⟨[.int 1, .null]⟩)
    let b : Domain := .leaf "size" .notMem (.set .unset)
    ∃ as bs both either, (catalog.search entity a).result = .ok as ∧
      (catalog.search entity b).result = .ok bs ∧
      (catalog.search entity (.and [a, b])).result = .ok both ∧
      (catalog.search entity (.or [a, b])).result = .ok either ∧
      both = [1, 2].filter (fun id => as.contains id && bs.contains id) ∧
      either = [1, 2].filter fun id => as.contains id || bs.contains id := by
  intro entity catalog a b
  have hregular : catalog.Regular := regular_of_isRegular (by cbv)
  have huniform : catalog.Uniform := by
    constructor
    · intro e he field hfield hname
      obtain rfl := mem_singleton.1 he
      obtain rfl := mem_singleton.1 hfield
      exact absurd hname (by decide)
    · intro e he field hfield link owner original hvia
      obtain rfl := mem_singleton.1 he
      obtain rfl := mem_singleton.1 hfield
      cases hvia
  have hexact : IsExact catalog a entity ∧ IsExact catalog b entity :=
    ⟨.leaf_set (by decide), .leaf_set (by decide)⟩
  have hle : 3 ≤ Optimizer.defaultDepth := by decide
  have ha : (catalog.search entity a).result = .ok [1, 2] := searchWithin_of_le hle (by cbv)
  have hb : (catalog.search entity b).result = .ok [2] := searchWithin_of_le hle (by cbv)
  have hand : (catalog.search entity (.and [a, b])).result = .ok [2] :=
    searchWithin_of_le hle (by cbv)
  have hor : (catalog.search entity (.or [a, b])).result = .ok [1, 2] :=
    searchWithin_of_le hle (by cbv)
  exact ⟨_, _, _, _, ha, hb, hand, hor,
    searchWithin_and_or hregular huniform rfl ⟨rfl, rfl⟩ hexact ha hb hand hor⟩

namespace Sample

def owned : Entity :=
  { name := "a", fields := [.many2one "link" "p", (Field.many2one "kind" "x").delegated "link"] }

/-- The inherited `kind` leads to `x`, the original to `y`. -/
def inherited : Catalog :=
  { entities := [owned,
      { name := "p", fields := [{ name := "name", type := .char }, .many2one "kind" "y"] },
      { name := "x", fields := [{ name := "name", type := .char }] },
      { name := "y", recName := "code"
        fields := [{ name := "code", type := .char }, { name := "name", type := .integer }] }]
    tables := [("a", [[("id", .integer 1), ("link", .integer 1)]]),
      ("p", [[("id", .integer 1), ("kind", .integer 1)]]),
      ("y", [[("id", .integer 1), ("name", .integer 0)]])] }

def byLabel : Domain := .leaf "kind" .mem (.set ⟨[.text "0.0"]⟩)

def byName : Domain := .leaf "link.kind.name" .mem (.set ⟨[.int 0]⟩)

def owner : Entity := { name := "a", fields := [.one2many "lines" "line" "a"] }

/-- The identifier of a line is declared as a relation, and the line has none. -/
def selfLinked : Catalog :=
  { entities := [owner,
      { name := "line"
        fields := [.many2one "id" "line", .many2one "a" "a", { name := "open", type := .boolean }] }]
    tables := [("a", [[("id", .integer 1)]]),
      ("line", [[("a", .integer 1), ("open", .bool true)]])] }

def hasLine (isOpen : Bool) : Domain :=
  .leaf "lines" .any (.domain (.leaf "id" .any (.domain
    (.leaf "open" .mem (.set ⟨[.bool isOpen]⟩)))))

theorem exact_byLabel : IsExact inherited byLabel owned := by
  refine .condition ⟨fun v hv => mem_singleton.1 hv ▸ rfl, fun last field hreaches hnumeric => ?_⟩
    nofun
  have hkind : owned.field? (Text.cut '.' "kind").1 =
      some ((Field.many2one "kind" "x").delegated "link") := by cbv
  obtain ⟨-, rfl⟩ := hreaches.of_end hkind (.inl (by decide))
  cases hnumeric

theorem exact_hasLine (isOpen : Bool) : IsExact selfLinked (hasLine isOpen) owner :=
  .traversal fun _ _ => .traversal fun _ _ => .leaf_set fun _ hv => mem_singleton.1 hv ▸ rfl

end Sample

open Sample in
set_option maxRecDepth 16000 in
/-- Where an inherited field leads elsewhere than the original, or a declared identifier is a
relation, the search for joined domains loses records. -/
theorem search_and_or_not_uniform :
    (inherited.Regular ∧ inherited.entity? owned.name = some owned ∧
      (byLabel.unmarked = byLabel ∧ byName.unmarked = byName) ∧
      (IsExact inherited byLabel owned ∧ IsExact inherited byName owned) ∧
      (inherited.search owned byLabel).result = .ok [1] ∧
      (inherited.search owned byName).result = .ok [1] ∧
      (inherited.search owned (.and [byLabel, byName])).result = .ok [] ∧
      (inherited.search owned (.or [byLabel, byName])).result = .ok [1]) ∧
    selfLinked.Regular ∧ selfLinked.entity? owner.name = some owner ∧
      ((hasLine true).unmarked = hasLine true ∧ (hasLine false).unmarked = hasLine false) ∧
      (IsExact selfLinked (hasLine true) owner ∧ IsExact selfLinked (hasLine false) owner) ∧
      (selfLinked.search owner (hasLine true)).result = .ok [1] ∧
      (selfLinked.search owner (hasLine false)).result = .ok [] ∧
      (selfLinked.search owner (.and [hasLine true, hasLine false])).result = .ok [] ∧
      (selfLinked.search owner (.or [hasLine true, hasLine false])).result = .ok [] := by
  have hle : 10 ≤ Optimizer.defaultDepth := by decide
  refine ⟨⟨regular_of_isRegular rfl, rfl, ⟨rfl, rfl⟩, ⟨exact_byLabel, ?_⟩, ?_, ?_, ?_, ?_⟩,
    regular_of_isRegular rfl, rfl, ⟨rfl, rfl⟩, ⟨exact_hasLine true, exact_hasLine false⟩,
    ?_, ?_, ?_, ?_⟩
  · exact .leaf_set (by decide)
  all_goals exact searchWithin_of_le hle (by cbv)

end Catalog

end QueryDomain
