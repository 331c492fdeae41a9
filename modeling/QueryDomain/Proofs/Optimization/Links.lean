import QueryDomain.Proofs.Optimization.Making

/-! Conditions on one relation to many records under one connective. What they ask of a related record
is joined, and whether there is any related record is asked apart. -/
namespace QueryDomain

open List Domain

namespace Connective

/-- The traversal under the connective that asks for a related record, or for none. -/
def link : Connective → Operator
  | or => .any
  | and => .notAny

def member : Connective → Operator
  | or => .mem
  | and => .notMem

def pair (k : Connective) (x y : Domain) : List Domain :=
  match k with
  | or => [x, y]
  | and => [y, x]

end Connective

namespace Optimizer

variable {path : String} {k : Connective} {entity : Entity} {X Y : Domain} {m m' m'' : Option Mark}

/-- The condition that there is a related record, or none, of which the domain holds. -/
def linked (path : String) (k : Connective) (X : Domain) (m : Option Mark) : Domain :=
  .condition ⟨path, k.link, .domain X, m⟩

def unlinked (path : String) (k : Connective) (m : Option Mark) : Domain :=
  linked path k.inverse (.constant true) m

theorem childLe_linked {l : Connective} :
    (linked path k X m).childLe (linked path l Y m') = (k == .or || l == .and) := by
  have hranks : (decide (k.link.family.rank < l.link.family.rank) ||
      (k.link.family.rank == l.link.family.rank && decide (k.link.rank ≤ l.link.rank))) =
        (k == .or || l == .and) := by
    cases k <;> cases l <;> decide
  rw [← hranks]
  exact if_pos rfl

theorem sortChildren_of_childLe {a b : Domain} (h : a.childLe b = true) :
    sortChildren [a, b] = [a, b] :=
  mergeSort_of_pairwise (by simpa using h)

theorem sortChildren_swap {a b : Domain} (h : a.childLe b = false) : sortChildren [a, b] = [b, a] := by
  simp [sortChildren, mergeSort, MergeSort.Internal.splitInTwo, h]

theorem sortedJoin_conditions (cs : List Condition) (hseveral : 1 < cs.length) :
    sortedJoin k (cs.map .condition) = .nary k (sortChildren (cs.map .condition)) none := by
  have hconstant : ∀ d ∈ cs.map Domain.condition, ∀ v, d ≠ .constant v := by
    simp
  have hnode : ∀ d ∈ cs.map Domain.condition, d.connective? ≠ some k := by
    simp [connective?]
  exact sortedJoin_eq_nary (Connective.collect?_eq_self hconstant hnode) (by simpa using hseveral)
    hconstant hnode

theorem sortChildren_pair : sortChildren (k.pair (linked path k X m) (unlinked path k m')) =
    k.pair (linked path k X m) (unlinked path k m') := by
  cases k <;> exact sortChildren_of_childLe childLe_linked

theorem sortChildren_unlinked : sortChildren [linked path k X m, unlinked path k m'] =
    k.pair (linked path k X m) (unlinked path k m') := by
  cases k with
  | or => exact sortChildren_of_childLe childLe_linked
  | and => exact sortChildren_swap childLe_linked

/-- The traversals of one kind, and the one of the other kind, in their order. -/
def beside (path : String) (k : Connective) (X Y : Domain) (m m' m'' : Option Mark) : List Domain :=
  match k with
  | .or => [linked path .or X m, linked path .or Y m', unlinked path .or m'']
  | .and => [unlinked path .and m'', linked path .and X m, linked path .and Y m']

theorem sortChildren_beside : sortChildren (linked path k X m ::
    k.pair (linked path k Y m') (unlinked path k m'')) = beside path k X Y m m' m'' := by
  cases k with
  | or =>
    refine mergeSort_of_pairwise ?_
    simp [Connective.pair, unlinked, childLe_linked]
  | and =>
    simp [sortChildren, Connective.pair, beside, unlinked, mergeSort, MergeSort.Internal.splitInTwo,
      childLe_linked, Connective.inverse]

section Merging

variable {ds : List Domain}

theorem runsBy_of_forall {key : Domain → Option String} (hkey : ∀ d ∈ ds, key d = some path)
    (hne : ds ≠ []) : runsBy key ds = [(some path, ds)] := by
  induction ds with
  | nil => exact absurd rfl hne
  | cons d ds ih =>
    rw [forall_mem_cons] at hkey
    cases ds with
    | nil => rw [runsBy, hkey.1]; rfl
    | cons e ds => rw [runsBy, ih hkey.2 (cons_ne_nil _ _), hkey.1]; exact if_pos rfl

theorem mergeAll_of_run (hkey : ∀ d ∈ ds, keyOf .traversal d = some path) (hseveral : 1 < ds.length)
    (hdifferent : ds.Pairwise fun a b => a.same b = false)
    (haccepts : anyScope.acceptsType (entity.headType? path) = true) :
    mergeAll k entity ds = Merge.joinAnys k entity ds := by
  have hmembers : ds.Pairwise fun a b => ¬BothMembers a b := by
    refine pairwise_of_forall_mem_list fun a ha b _ => ?_
    intro hboth
    obtain ⟨_, hmember, -⟩ := bothMembers_iff.1 hboth
    rw [keyOf_ne (by decide) (hkey a ha)] at hmember
    cases hmember
  have hne : ds ≠ [] := by
    rintro rfl
    cases hseveral
  have hdistinct : Merge.distinct [] ds = ds :=
    distinct_eq_self hdifferent fun _ _ _ hnone => nomatch hnone
  rw [mergeAll_eq, hdistinct, mergedSets_eq_self hmembers, mergedAnys, runsBy_of_forall hkey hne]
  simp [replaceRuns, isMerged, hseveral, haccepts]

theorem keyOf_linked : keyOf .traversal (linked path k X m) = some path := by
  cases k <;> rfl

theorem inner?_linked : Merge.inner? k.link (linked path k X m) = some X := if_pos rfl

theorem inner?_unlinked : Merge.inner? k.link (unlinked path k m) = none := by
  cases k <;> rfl

theorem same_linked : (linked path k X m).same (linked path k Y m') = X.same Y := by
  simp [linked, same]

theorem apart_unlinked : Apart k entity (linked path k X m) (unlinked path k m') :=
  apart_of_inner keyOf_linked (by rw [inner?_linked]; rfl) (by rw [inner?_unlinked]; rfl)

variable (haccepts : anyScope.acceptsType (entity.headType? path) = true)
  (hsingle : Merge.leadsToOne entity path = false) (hdifferent : X.same Y = false)

include haccepts hsingle hdifferent

theorem mergeAll_linked : mergeAll k entity [linked path k X m, linked path k Y m'] =
    [linked path k (Domain.or [X, Y]) none] := by
  have hlinks : ∀ d ∈ [linked path k X m, linked path k Y m'], keyOf .traversal d = some path := by
    simp [keyOf_linked]
  rw [mergeAll_of_run hlinks (by simp) (by simpa [same_linked] using hdifferent) haccepts]
  cases k <;> simp [Merge.joinAnys, Merge.isMergeable, Merge.traversals, Merge.unites, Merge.inner?,
    linked, Connective.link, hsingle, Condition.withOperand]

theorem mergeAll_beside : mergeAll k entity (beside path k X Y m m' m'') =
    k.pair (linked path k (Domain.or [X, Y]) none) (unlinked path k m'') := by
  have hlinks : ∀ d ∈ beside path k X Y m m' m'', keyOf .traversal d = some path := by
    cases k <;> simp [beside, unlinked, keyOf_linked]
  have hapart : (beside path k X Y m m' m'').Pairwise fun a b => a.same b = false := by
    have hother : ∀ {l Z n n'}, (linked path l Z n).same (unlinked path l n') = false ∧
        (unlinked path l n').same (linked path l Z n) = false := by
      intro l Z n n'
      cases l <;> simp [linked, unlinked, same, Connective.link, Connective.inverse]
    cases k <;> simp [beside, same_linked, hother, hdifferent]
  rw [mergeAll_of_run hlinks (by cases k <;> simp [beside]) hapart haccepts]
  cases k <;> simp [Merge.joinAnys, Merge.isMergeable, Merge.traversals, Merge.unites, Merge.inner?,
    beside, unlinked, linked, Connective.link, Connective.inverse, Connective.pair, hsingle,
    Condition.withOperand]

end Merging

theorem keyOf_eq_path {family : OperatorFamily} {x : Condition}
    (h : keyOf family (.condition x) = some path) : x.path = path := by
  obtain ⟨_, hx, -, hpath⟩ := keyOf_eq_some.1 h
  cases hx
  exact hpath

theorem different_of_path {x y : Condition} (hpath : x.path ≠ y.path) :
    (Domain.condition x).same (.condition y) = false := by
  rw [Bool.eq_false_iff]
  intro hsame
  have hcanonical := same_iff.1 hsame
  rw [canonical_condition, canonical_condition, condition.injEq, Condition.canonical_eq_iff]
    at hcanonical
  exact hpath hcanonical.1

theorem apart_of_path {x y : Condition} (hpath : x.path ≠ y.path) :
    Apart k entity (.condition x) (.condition y) where
  different := different_of_path hpath
  oneMembership hboth := by
    obtain ⟨path, hx, hy⟩ := bothMembers_iff.1 hboth
    exact hpath ((keyOf_eq_path hx).trans (keyOf_eq_path hy).symm)
  oneTraversal := by
    rintro ⟨path, -, hx, hy, -⟩
    exact hpath ((keyOf_eq_path hx).trans (keyOf_eq_path hy).symm)

section Two

variable {catalog : Catalog} {n : Nat} {x y : Condition}
  (hapart : Apart k entity (.condition x) (.condition y))

include hapart

theorem pairwise_two : (sortChildren [.condition x, .condition y]).Pairwise (Apart k entity) :=
  ((sortChildren_perm _).pairwise_iff fun h => h.symm).2 (by simpa using hapart)

theorem joined_two {ds : List Domain}
    (h : Forall₂ (Makes catalog n entity) ds [.condition x, .condition y])
    (hn : n ≤ standard.maxIterations) :
    Joined catalog (n + 1) entity k ds (.nary k (sortChildren [.condition x, .condition y]) none) :=
  .of_apart h hn (sortedJoin_conditions [x, y] (by simp))
    (mergeAll_of_apart (pairwise_two hapart))

theorem settled_two (hx : Settled catalog .search (.condition x) entity)
    (hy : Settled catalog .search (.condition y) entity) :
    Settled catalog .search (.nary k (sortChildren [.condition x, .condition y]) m) entity := by
  have hperm := sortChildren_perm [.condition x, .condition y]
  refine .nary (fun d hd => ?_) ⟨?_, fun d hd => ?_, fun d hd => ?_, pairwise_sortChildren _, ?_⟩
  · simp only [hperm.mem_iff, mem_cons, not_mem_nil, or_false] at hd
    obtain rfl | rfl := hd
    · exact hx
    · exact hy
  · simp [hperm.length_eq]
  · simp only [hperm.mem_iff, mem_cons, not_mem_nil, or_false] at hd
    obtain rfl | rfl := hd <;> nofun
  · simp only [hperm.mem_iff, mem_cons, not_mem_nil, or_false] at hd
    obtain rfl | rfl := hd <;> simp [connective?]
  · rw [mergeAll_of_apart (pairwise_two hapart)]

end Two

theorem joined_pair {catalog : Catalog} {n : Nat} {ds : List Domain}
    (hds : Forall₂ (Makes catalog n entity) ds [linked path k X none, unlinked path k none] ∨
      Forall₂ (Makes catalog n entity) ds (k.pair (linked path k X none) (unlinked path k none)))
    (hn : n ≤ standard.maxIterations) : Joined catalog (n + 1) entity k ds
      (.nary k (k.pair (linked path k X none) (unlinked path k none)) none) := by
  obtain hds | hds := hds
  · rw [← sortChildren_unlinked]
    exact joined_two apart_unlinked hds hn
  · rw [← sortChildren_pair]
    cases k with
    | or => exact joined_two apart_unlinked hds hn
    | and => exact joined_two apart_unlinked.symm hds hn

theorem canonical_linked : (linked path k X m).canonical = (linked path k X m').canonical := by
  rw [linked, linked, canonical_condition, canonical_condition, Condition.canonical_eq,
    Condition.canonical_eq]

theorem eq_condition_of_canonical {x : Condition} {d : Domain}
    (h : d.canonical = (Domain.condition x).canonical) :
    ∃ x', d = .condition x' ∧ x'.canonical = x.canonical := by
  cases d with
  | condition x' =>
    rw [canonical_condition, canonical_condition, condition.injEq] at h
    exact ⟨x', rfl, h⟩
  | _ => cases h

theorem paths_ne {x x' y y' : Condition} (hpath : x.path ≠ y.path) (hx : x'.canonical = x.canonical)
    (hy : y'.canonical = y.canonical) : x'.path ≠ y'.path := by
  rwa [(Condition.canonical_eq_iff.1 hx).1, (Condition.canonical_eq_iff.1 hy).1]

theorem eq_linked_of_canonical {d : Domain} (h : d.canonical = (linked path k X m).canonical) :
    ∃ X' m', d = linked path k X' m' ∧ X'.canonical = X.canonical := by
  obtain ⟨⟨path', op, x, m'⟩, rfl, hsame⟩ := eq_condition_of_canonical h
  obtain ⟨hpath, hop, hoperand⟩ := Condition.canonical_eq_iff.1 hsame
  dsimp only at hpath hop
  subst hpath hop
  obtain ⟨X', rfl, hX⟩ := Operand.eq_domain_of_canonical hoperand
  exact ⟨X', m', rfl, hX⟩

theorem eq_linked_condition_of_canonical {x : Condition} {d : Domain}
    (h : d.canonical = (linked path k (.condition x) m).canonical) :
    ∃ x' m', d = linked path k (.condition x') m' ∧ x'.canonical = x.canonical := by
  obtain ⟨X', m', rfl, hX⟩ := eq_linked_of_canonical h
  obtain ⟨x', rfl, hx'⟩ := eq_condition_of_canonical hX
  exact ⟨x', m', rfl, hx'⟩

theorem eq_unlinked_of_canonical {d : Domain} (h : d.canonical = (unlinked path k m).canonical) :
    ∃ m', d = unlinked path k m' := by
  obtain ⟨X', m', rfl, hX⟩ := eq_linked_of_canonical h
  cases X' <;> cases hX
  exact ⟨m', rfl⟩

def union (x y : Condition) : Domain := .nary .or (sortChildren [.condition x, .condition y]) none

theorem height_union {x y : Condition} (hx : (Domain.condition x).height = 0)
    (hy : (Domain.condition y).height = 0) : (union x y).height = 1 := by
  rw [union, height]
  cases hle : (Domain.condition x).childLe (.condition y) with
  | true => simp [sortChildren_of_childLe hle, heights, hx, hy]
  | false => simp [sortChildren_swap hle, heights, hx, hy]

section Relations

variable {catalog : Catalog} {field : Field} {target : Entity} {n : Nat}
  (h : catalog.LeadsTo entity path field target)

include h

theorem settled_linked (hX : Settled catalog .search X target) (hfalse : X.isFalse = false)
    (htrue : (X.isTrue && field.type == .many2one) = false) :
    Settled catalog .search (linked path k X m) entity :=
  settled_traversal (c := ⟨path, k.link, .domain X, m⟩) h (by cases k <;> rfl) rfl hX hfalse htrue

theorem makes_linked {Y : Domain} (hX : Makes catalog n target X Y) (hn : n ≤ standard.maxIterations)
    (hY : Settled catalog .search Y target) (hheight : Y.height < n) (hfalse : Y.isFalse = false)
    (htrue : (Y.isTrue && field.type == .many2one) = false) :
    Makes catalog (n + 1) entity (linked path k X none) (linked path k Y none) :=
  makes_traversal (c := ⟨path, k.link, .domain X, none⟩) h (by cases k <;> rfl) rfl rfl hX hn hY
    hheight hfalse htrue

theorem accepts_relation : anyScope.acceptsType (entity.headType? path) = true := by
  have hrelational := h.relational
  have htype : entity.headType? path = some field.type :=
    h.headType? (c := ⟨path, .any, .domain (.constant true), none⟩)
  rw [htype]
  unfold Field.isRelational at hrelational
  cases hfieldtype : field.type <;> rw [hfieldtype] at hrelational <;> cases hrelational <;> rfl

variable (hmany : field.type.isX2Many = true)

include hmany

theorem leadsToOne_of_isX2Many : Merge.leadsToOne entity path = false := by
  rw [Merge.leadsToOne, h.found]
  simp [hmany]

theorem settled_unlinked : Settled catalog .search (unlinked path k m) entity :=
  settled_linked h (.constant true target) rfl
    (by cases htype : field.type <;> rw [htype] at hmany <;> first | rfl | cases hmany)

section Unions

variable {x y : Condition} (hx : Settled catalog .search (.condition x) target)
  (hy : Settled catalog .search (.condition y) target) (hpath : x.path ≠ y.path)
  (hflat : (Domain.condition x).height = 0 ∧ (Domain.condition y).height = 0)

omit hmany

include hx hy hpath hflat

omit h in
theorem makes_union {x' y' : Condition} (hx' : x'.canonical = x.canonical)
    (hy' : y'.canonical = y.canonical) :
    Makes catalog 1 target (Domain.or [.condition x', .condition y']) (union x y) := by
  have hmakes : ∀ {z z' : Condition}, Settled catalog .search (.condition z) target →
      (Domain.condition z).height = 0 → z'.canonical = z.canonical →
      Makes catalog 0 target (.condition z') (.condition z) := by
    intro z z' hz hheight hsame
    have hsame' : (Domain.condition z').canonical = (Domain.condition z).canonical := by
      rw [canonical_condition, canonical_condition, hsame]
    have hheight' : (Domain.condition z').height = 0 := (height_of_canonical hsame').trans hheight
    exact (Makes.of_settled (hz.of_canonical hsame'.symm) hheight'.le).congr hsame'
  exact .of_joined (joined_two (apart_of_path hpath)
    (.cons (hmakes hx hflat.1 hx') (.cons (hmakes hy hflat.2 hy') .nil)) (by decide)) (by decide)

theorem makes_merged {x' y' : Condition} (hx' : x'.canonical = x.canonical)
    (hy' : y'.canonical = y.canonical) : Makes catalog 3 entity
      (linked path k (Domain.or [.condition x', .condition y']) none)
      (linked path k (union x y) none) :=
  makes_linked h ((makes_union hx hy hpath hflat hx' hy').mono (Nat.le_succ 1)) (by decide)
    (settled_two (apart_of_path hpath) hx hy)
    (by rw [height_union hflat.1 hflat.2]; decide) rfl rfl

variable {ds : List Domain}

include hmany

theorem joined_linked (hds : Forall₂ (Makes catalog 4 entity) ds
      [linked path k (.condition x) none, linked path k (.condition y) none]) :
    Joined catalog 5 entity k ds (linked path k (union x y) none) := by
  have haccepts := accepts_relation h
  have hsingle := leadsToOne_of_isX2Many h hmany
  have hle : (linked path k (.condition x) none).childLe (linked path k (.condition y) none) =
      true := by
    rw [childLe_linked]
    cases k <;> rfl
  have hsorted : sortedJoin k [linked path k (.condition x) none,
      linked path k (.condition y) none] = .nary k [linked path k (.condition x) none,
        linked path k (.condition y) none] none := by
    refine (sortedJoin_conditions [⟨path, k.link, .domain (.condition x), none⟩,
      ⟨path, k.link, .domain (.condition y), none⟩] (by simp)).trans ?_
    exact congrArg (Domain.nary k · none) (sortChildren_of_childLe hle)
  refine .of_merged hds (by decide) hsorted ?_ fun fs' hfs' => ?_
  · simp [mergeAll_linked haccepts hsingle (different_of_path hpath)]
  · obtain ⟨a, as, rfl, ha, has⟩ := map_eq_cons_iff.1 hfs'
    obtain ⟨b, bs, rfl, hb, hbs⟩ := map_eq_cons_iff.1 has
    obtain rfl := map_eq_nil_iff.1 hbs
    obtain ⟨x', m, rfl, hx'⟩ := eq_linked_condition_of_canonical ha
    obtain ⟨y', m', rfl, hy'⟩ := eq_linked_condition_of_canonical hb
    rw [mergeAll_linked haccepts hsingle (different_of_path (paths_ne hpath hx' hy'))]
    have hmade : Forall₂ (Makes catalog 3 entity)
        [linked path k (Domain.or [.condition x', .condition y']) none]
        [linked path k (union x y) none] :=
      .cons (makes_merged h hx hy hpath hflat hx' hy') .nil
    exact .of_folded hmade (by decide) nofun

theorem joined_beside {m : Option Mark} (hds : Forall₂ (Makes catalog 4 entity) ds
      [linked path k (.condition x) none,
        .nary k (k.pair (linked path k (.condition y) none) (unlinked path k none)) m]) :
    Joined catalog 5 entity k ds
      (.nary k (k.pair (linked path k (union x y) none) (unlinked path k none)) none) := by
  have haccepts := accepts_relation h
  have hsingle := leadsToOne_of_isX2Many h hmany
  have hsorted : sortedJoin k [linked path k (.condition x) none,
      .nary k (k.pair (linked path k (.condition y) none) (unlinked path k none)) m] =
        .nary k (beside path k (.condition x) (.condition y) none none none) none := by
    rw [← sortChildren_beside]
    refine sortedJoin_eq_nary ?_ ?_ ?_ ?_
    · cases k <;> rfl
    · cases k <;> simp [Connective.pair]
    · cases k <;> simp [Connective.pair, linked, unlinked]
    · cases k <;> simp [Connective.pair, linked, unlinked, connective?]
  refine .of_merged hds (by decide) hsorted ?_ fun fs' hfs' => ?_
  · rw [mergeAll_beside haccepts hsingle (different_of_path hpath)]
    cases k <;> simp [Connective.pair, beside]
  · have hshape : ∃ x' y' m m' m'', fs' = beside path k (.condition x') (.condition y') m m' m'' ∧
        x'.canonical = x.canonical ∧ y'.canonical = y.canonical := by
      cases k with
      | or =>
        obtain ⟨a, as, rfl, ha, has⟩ := map_eq_cons_iff.1 hfs'
        obtain ⟨b, bs, rfl, hb, hbs⟩ := map_eq_cons_iff.1 has
        obtain ⟨u, us, rfl, hu, hus⟩ := map_eq_cons_iff.1 hbs
        obtain rfl := map_eq_nil_iff.1 hus
        obtain ⟨x', m, rfl, hx'⟩ := eq_linked_condition_of_canonical ha
        obtain ⟨y', m', rfl, hy'⟩ := eq_linked_condition_of_canonical hb
        obtain ⟨m'', rfl⟩ := eq_unlinked_of_canonical hu
        exact ⟨x', y', m, m', m'', rfl, hx', hy'⟩
      | and =>
        obtain ⟨u, us, rfl, hu, has⟩ := map_eq_cons_iff.1 hfs'
        obtain ⟨a, as, rfl, ha, hbs⟩ := map_eq_cons_iff.1 has
        obtain ⟨b, bs, rfl, hb, hnil⟩ := map_eq_cons_iff.1 hbs
        obtain rfl := map_eq_nil_iff.1 hnil
        obtain ⟨x', m, rfl, hx'⟩ := eq_linked_condition_of_canonical ha
        obtain ⟨y', m', rfl, hy'⟩ := eq_linked_condition_of_canonical hb
        obtain ⟨m'', rfl⟩ := eq_unlinked_of_canonical hu
        exact ⟨x', y', m, m', m'', rfl, hx', hy'⟩
    obtain ⟨x', y', m, m', m'', rfl, hx', hy'⟩ := hshape
    rw [mergeAll_beside haccepts hsingle (different_of_path (paths_ne hpath hx' hy'))]
    have hunlinked : Makes catalog 3 entity (unlinked path k m'') (unlinked path k none) :=
      (Makes.of_settled (settled_unlinked h hmany) (by simp [unlinked, linked, height])).congr
        canonical_linked
    have hmerged := makes_merged (k := k) h hx hy hpath hflat hx' hy'
    refine joined_pair (.inr ?_) (by decide)
    cases k with
    | or => exact .cons hmerged (.cons hunlinked .nil)
    | and => exact .cons hunlinked (.cons hmerged .nil)

end Unions

end Relations

end Optimizer

end QueryDomain
