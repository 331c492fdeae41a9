import QueryDomain.Proofs.Optimization.NormalForm

/-! What is left to merge after a merge: nothing. Children that the merges have been applied to are
apart, which means that none repeats another, and that neither two memberships nor two traversals
that could be joined are on one path. Children that are apart are merged no further. -/
namespace QueryDomain

open List

namespace Domain

def keyOf (family : OperatorFamily) : Domain → Option String
  | .condition c => if c.operator.family = family then some c.path else none
  | _ => none

variable {family : OperatorFamily} {a b c : Domain} {path : String}

theorem keyOf_eq_some : keyOf family a = some path ↔
    ∃ c : Condition, a = .condition c ∧ c.operator.family = family ∧ c.path = path := by
  cases a with
  | condition c =>
    by_cases hfamily : c.operator.family = family <;> simp [keyOf, hfamily]
  | _ => simp [keyOf]

theorem keyOf_canonical (a : Domain) : keyOf family a.canonical = keyOf family a := by
  cases a with
  | condition c => simp [keyOf]
  | _ => rfl

theorem keyOf_of_same (h : a.same b = true) : keyOf family a = keyOf family b := by
  rw [← keyOf_canonical a, same_iff.1 h, keyOf_canonical]

/-- No later in the order of paths and of families of operators; conditions come first. -/
def PlaceLe : Domain → Domain → Prop
  | .condition c, .condition d => c.path < d.path ∨
      (c.path = d.path ∧ c.operator.family.rank ≤ d.operator.family.rank)
  | .condition _, _ => True
  | _, .condition _ => False
  | _, _ => True

theorem placeLe_condition {c d : Condition} : PlaceLe (.condition c) (.condition d) ↔
    c.path < d.path ∨ (c.path = d.path ∧ c.operator.family.rank ≤ d.operator.family.rank) :=
  Iff.rfl

theorem PlaceLe.of_childLe (h : a.childLe b = true) : PlaceLe a b := by
  cases a with
  | condition c =>
    cases b with
    | condition d =>
      rw [childLe_condition] at h
      obtain hlt | ⟨heq, hrank⟩ := h
      · exact .inl hlt
      · exact .inr ⟨heq, by omega⟩
    | _ => trivial
  | _ =>
    cases b with
    | condition d => cases h
    | _ => trivial

theorem rank_injective {family' : OperatorFamily} (h : family.rank = family'.rank) :
    family = family' := by
  cases family <;> cases family' <;> first
    | rfl
    | cases h

theorem keyOf_between (hab : PlaceLe a b) (hbc : PlaceLe b c) (ha : keyOf family a = some path)
    (hc : keyOf family c = some path) : keyOf family b = some path := by
  obtain ⟨x, rfl, hx, rfl⟩ := keyOf_eq_some.1 ha
  obtain ⟨z, rfl, hz, hpath⟩ := keyOf_eq_some.1 hc
  cases b with
  | condition y =>
    rw [placeLe_condition, hpath, hz] at hbc
    rw [placeLe_condition, hx] at hab
    obtain hlt | ⟨heq, hle⟩ := hab
    · obtain hgt | ⟨heq, -⟩ := hbc
      · exact absurd (String.lt_trans hlt hgt) (String.lt_irrefl _)
      · exact absurd hlt (heq ▸ String.lt_irrefl _)
    · obtain hgt | ⟨-, hge⟩ := hbc
      · exact absurd hgt (heq ▸ String.lt_irrefl _)
      · exact keyOf_eq_some.2 ⟨y, rfl, rank_injective (Nat.le_antisymm hge hle), heq.symm⟩
  | _ => cases hbc

theorem PlaceLe.congr {a' b' : Domain} {family' : OperatorFamily} {path' : String}
    (h : PlaceLe a b) (ha : a' = a ∨ (keyOf family a = some path ∧ keyOf family a' = some path))
    (hb : b' = b ∨ (keyOf family' b = some path' ∧ keyOf family' b' = some path')) :
    PlaceLe a' b' := by
  have hleft : PlaceLe a' b := by
    obtain rfl | ⟨ha, ha'⟩ := ha
    · exact h
    · obtain ⟨x, rfl, hx, rfl⟩ := keyOf_eq_some.1 ha
      obtain ⟨x', rfl, hx', hpath⟩ := keyOf_eq_some.1 ha'
      cases b with
      | condition y =>
        rw [placeLe_condition] at h ⊢
        rwa [hpath, hx', ← hx]
      | _ => trivial
  obtain rfl | ⟨hb, hb'⟩ := hb
  · exact hleft
  · obtain ⟨y, rfl, hy, rfl⟩ := keyOf_eq_some.1 hb
    obtain ⟨y', rfl, hy', hpath⟩ := keyOf_eq_some.1 hb'
    cases a' with
    | condition x =>
      rw [placeLe_condition] at hleft ⊢
      rwa [hpath, hy', ← hy]
    | _ => cases hleft

theorem PlaceLe.of_keyOf (ha : keyOf family a = some path) (hb : keyOf family b = some path) :
    PlaceLe a b := by
  obtain ⟨x, rfl, hx, hxpath⟩ := keyOf_eq_some.1 ha
  obtain ⟨y, rfl, hy, hypath⟩ := keyOf_eq_some.1 hb
  exact .inr ⟨hxpath.trans hypath.symm, by rw [hx, hy]⟩

end Domain

namespace Optimizer

open Domain

variable {k : Connective} {entity : Entity} {key : Domain → Option String} {ds : List Domain}

theorem runKey?_setScope (d : Domain) : setScope.runKey? d = keyOf .membership d := by
  cases d with
  | condition c =>
    have hcontains : ∀ op : Operator, Registry.membershipOperators.contains op =
        decide (op.family = .membership) := by
      intro op
      cases op <;> rfl
    simp only [setScope, MergeScope.runKey?, keyOf, hcontains, decide_eq_true_eq]
  | _ => rfl

theorem runKey?_anyScope (d : Domain) : anyScope.runKey? d = keyOf .traversal d := by
  cases d with
  | condition c =>
    have hcontains : ∀ op : Operator, [Operator.any, .notAny].contains op =
        decide (op.family = .traversal) := by
      intro op
      cases op <;> rfl
    simp only [anyScope, MergeScope.runKey?, keyOf, hcontains, decide_eq_true_eq]
  | _ => rfl

section Runs

theorem ne_nil_of_mem_runsBy {group : Option String × List Domain} (h : group ∈ runsBy key ds) :
    group.2 ≠ [] := by
  induction ds generalizing group with
  | nil => cases h
  | cons d ds ih =>
    rw [runsBy] at h
    split at h
    · rename_i hruns
      rw [hruns] at ih
      split at h
      · obtain rfl | h := mem_cons.1 h
        · exact cons_ne_nil _ _
        · exact ih (mem_cons_of_mem _ h)
      · obtain rfl | h := mem_cons.1 h
        · exact cons_ne_nil _ _
        · exact ih h
    · obtain rfl | h := mem_cons.1 h
      · exact cons_ne_nil _ _
      · exact ih h

theorem pairwise_runsBy {le : Domain → Domain → Prop}
    (hbetween : ∀ {a b c path}, le a b → le b c → key a = some path → key c = some path →
      key b = some path) (h : ds.Pairwise le) :
    (runsBy key ds).Pairwise fun group group' => group.1 = none ∨ group.1 ≠ group'.1 := by
  induction ds with
  | nil => exact .nil
  | cons d ds ih =>
    rw [pairwise_cons] at h
    have hruns := ih h.2
    -- A run further on with the key of the first child would reach up to it.
    have hnew : ∀ path, key d = some path → ∀ group ∈ runsBy key ds, group.1 = some path →
        ∃ run groups, runsBy key ds = (some path, run) :: groups := by
      intro path hd group hgroup hkey
      obtain ⟨e, he⟩ := exists_mem_of_ne_nil _ (ne_nil_of_mem_runsBy hgroup)
      obtain ⟨hmem, hekey⟩ := mem_runsBy hgroup e he
      rw [hkey] at hekey
      cases ds with
      | nil => cases hmem
      | cons b rest =>
        obtain ⟨run, groups, hcons⟩ := runsBy_cons key b rest
        refine ⟨b :: run, groups, ?_⟩
        rw [hcons]
        obtain rfl | hrest := mem_cons.1 hmem
        · rw [hekey]
        · rw [hbetween (h.1 b (mem_cons_self ..)) ((pairwise_cons.1 h.2).1 e hrest) hd hekey]
    rw [runsBy]
    split
    · rename_i path path' run groups hd hcons
      rw [hcons] at hruns
      split
      · rename_i hpath
        subst hpath
        rw [pairwise_cons] at hruns ⊢
        exact hruns
      · rename_i hne
        refine pairwise_cons.2 ⟨fun group hgroup => .inr fun heq => ?_, hruns⟩
        rw [← hcons] at hgroup
        obtain ⟨run', groups', hcons'⟩ := hnew path hd group hgroup heq.symm
        rw [hcons, cons.injEq, Prod.mk.injEq, Option.some.injEq] at hcons'
        exact hne hcons'.1.1.symm
    · rename_i hother
      refine pairwise_cons.2 ⟨fun group hgroup => ?_, hruns⟩
      cases hd : key d with
      | none => exact .inl rfl
      | some path =>
        refine .inr fun heq => ?_
        obtain ⟨run, groups, hcons⟩ := hnew path hd group hgroup heq.symm
        exact hother path path run groups hd hcons

variable {R : Domain → Domain → Prop} {taken : Option String → List Domain → Bool}
  {merge : List Domain → List Domain}

def KeepsKey (key : Domain → Option String) (taken : Option String → List Domain → Bool)
    (merge : List Domain → List Domain) (ds : List Domain) : Prop :=
  ∀ group ∈ runsBy key ds, taken group.1 group.2 = true →
    group.1 ≠ none ∧ ∀ d ∈ merge group.2, key d = group.1

/-- A relation between children that holds across keys, and within what each run is replaced by,
holds after the merge. -/
theorem pairwise_replaceRuns
    (hruns : (runsBy key ds).Pairwise fun group group' => group.1 = none ∨ group.1 ≠ group'.1)
    (hkeeps : KeepsKey key taken merge ds)
    (hwithin : ∀ path run, (some path, run) ∈ runsBy key ds →
      (if taken (some path) run then merge run else run).Pairwise R)
    (hapart : ∀ a b, key a ≠ key b → R a b)
    (hrest : ds.Pairwise fun a b => key a = none → key b = none → R a b) :
    (replaceRuns taken merge (runsBy key ds)).Pairwise R := by
  have hkeys : ∀ group ∈ runsBy key ds,
      ∀ d ∈ (if taken group.1 group.2 then merge group.2 else group.2), key d = group.1 := by
    intro group hgroup d hd
    split at hd
    · exact (hkeeps group hgroup ‹_›).2 d hd
    · exact (mem_runsBy hgroup d hd).2
  have hnone : ∀ run, (none, run) ∈ runsBy key ds → taken none run = false := by
    intro run hrun
    by_contra htaken
    exact (hkeeps _ hrun (by simpa using htaken)).1 rfl
  rw [← flatMap_runsBy key ds, pairwise_flatMap] at hrest
  refine pairwise_flatMap.2 ⟨?_, ?_⟩
  · rintro ⟨_ | path, run⟩ hgroup
    · rw [hnone run hgroup]
      refine (hrest.1 _ hgroup).imp_of_mem fun ha hb hR => ?_
      exact hR (mem_runsBy hgroup _ ha).2 (mem_runsBy hgroup _ hb).2
    · exact hwithin path run hgroup
  · refine (hruns.and hrest.2).imp_of_mem ?_
    rintro ⟨key₁, run₁⟩ ⟨key₂, run₂⟩ hgroup₁ hgroup₂ ⟨hne, hrest⟩ a ha b hb
    by_cases hkey : key₁ = key₂
    · obtain hnone₁ | hne := hne
      · cases hnone₁
        subst hkey
        rw [hnone run₁ hgroup₁] at ha
        rw [hnone run₂ hgroup₂] at hb
        exact hrest a ha b hb (mem_runsBy hgroup₁ a ha).2 (mem_runsBy hgroup₂ b hb).2
      · exact absurd hkey hne
    · apply hapart
      rwa [hkeys _ hgroup₁ a ha, hkeys _ hgroup₂ b hb]

end Runs

/-- Both are traversals to domains that the merge would join: on one path, with one operator, and
under a connective for which the field allows it. -/
def BothTraverse (k : Connective) (entity : Entity) (a b : Domain) : Prop :=
  ∃ path operator, keyOf .traversal a = some path ∧ keyOf .traversal b = some path ∧
    (Merge.inner? operator a).isSome = true ∧ (Merge.inner? operator b).isSome = true ∧
    (Merge.unites k operator || Merge.leadsToOne entity path) = true ∧
    anyScope.acceptsType (entity.headType? path) = true

/-- There is nothing to merge about two children. -/
structure Apart (k : Connective) (entity : Entity) (a b : Domain) : Prop where
  different : a.same b = false
  oneMembership : ¬BothMembers a b
  oneTraversal : ¬BothTraverse k entity a b

theorem bothMembers_iff {a b : Domain} : BothMembers a b ↔
    ∃ path, keyOf .membership a = some path ∧ keyOf .membership b = some path := by
  have hmember : ∀ op : Operator, op.isMembership = true ↔ op.family = .membership := by
    intro op
    cases op <;> decide
  constructor
  · rintro ⟨c, d, rfl, rfl, hc, hd, hpath⟩
    exact ⟨d.path, keyOf_eq_some.2 ⟨c, rfl, (hmember _).1 hc, hpath⟩,
      keyOf_eq_some.2 ⟨d, rfl, (hmember _).1 hd, rfl⟩⟩
  · rintro ⟨path, ha, hb⟩
    obtain ⟨c, rfl, hc, hcpath⟩ := keyOf_eq_some.1 ha
    obtain ⟨d, rfl, hd, hdpath⟩ := keyOf_eq_some.1 hb
    exact ⟨c, d, rfl, rfl, (hmember _).2 hc, (hmember _).2 hd, hcpath.trans hdpath.symm⟩

theorem keyOf_ne {family family' : OperatorFamily} (hne : family ≠ family') {d : Domain}
    {path : String} (h : keyOf family d = some path) : keyOf family' d = none := by
  obtain ⟨c, rfl, hc, -⟩ := keyOf_eq_some.1 h
  exact if_neg fun hc' => hne (hc.symm.trans hc')

/-- Two memberships, or two traversals, that clash have the same key. -/
theorem apart_of_keyOf {a b : Domain} (h : keyOf .traversal a ≠ keyOf .traversal b) :
    Apart k entity a b where
  different := by
    rw [Bool.eq_false_iff]
    exact fun hsame => h (keyOf_of_same hsame)
  oneMembership hboth := by
    obtain ⟨path, ha, hb⟩ := bothMembers_iff.1 hboth
    rw [keyOf_ne (by decide) ha, keyOf_ne (by decide) hb] at h
    exact h rfl
  oneTraversal := by
    rintro ⟨path, operator, ha, hb, -⟩
    rw [ha, hb] at h
    exact h rfl

theorem Apart.symm {a b : Domain} (h : Apart k entity a b) : Apart k entity b a where
  different := by
    rw [Bool.eq_false_iff, ne_eq, same_iff]
    exact fun hsame => Bool.eq_false_iff.1 h.different (same_iff.2 hsame.symm)
  oneMembership hboth := by
    obtain ⟨path, hb, ha⟩ := bothMembers_iff.1 hboth
    exact h.oneMembership (bothMembers_iff.2 ⟨path, ha, hb⟩)
  oneTraversal := by
    rintro ⟨path, op, hb, ha, hb', ha', hrest⟩
    exact h.oneTraversal ⟨path, op, ha, hb, ha', hb', hrest⟩

theorem isSome_inner?_of_same {a b : Domain} (h : a.same b = true) (operator : Operator) :
    (Merge.inner? operator a).isSome = (Merge.inner? operator b).isSome := by
  have hcanonical : ∀ d : Domain, (Merge.inner? operator d.canonical).isSome =
      (Merge.inner? operator d).isSome := by
    intro d
    rw [canonical, Merge.inner?_mapValues, Option.isSome_map]
  rw [← hcanonical a, same_iff.1 h, hcanonical]

section Distinct

theorem pairwise_distinct (seen ds : List Domain) :
    (Merge.distinct seen ds).Pairwise (fun a b => a.same b = false) ∧
      ∀ d ∈ Merge.distinct seen ds, ∀ e ∈ seen, e.same d = false := by
  induction ds generalizing seen with
  | nil => exact ⟨.nil, nofun⟩
  | cons d ds ih =>
    rw [Merge.distinct]
    split
    · exact ih seen
    · rename_i hseen
      rw [Bool.not_eq_true, any_eq_false] at hseen
      obtain ⟨hpairwise, hdifferent⟩ := ih (d :: seen)
      refine ⟨.cons (fun e he => hdifferent e he d (mem_cons_self ..)) hpairwise, ?_⟩
      intro e he f hf
      obtain rfl | he := mem_cons.1 he
      · simpa using hseen f hf
      · exact hdifferent e he f (mem_cons_of_mem _ hf)

theorem distinct_eq_self {seen ds : List Domain} (h : ds.Pairwise fun a b => a.same b = false)
    (hseen : ∀ d ∈ ds, ∀ e ∈ seen, e.same d = false) : Merge.distinct seen ds = ds := by
  induction ds generalizing seen with
  | nil => rfl
  | cons d ds ih =>
    rw [pairwise_cons] at h
    rw [forall_mem_cons] at hseen
    rw [Merge.distinct, if_neg (by simpa using hseen.1), ih h.2]
    intro e he f hf
    obtain rfl | hf := mem_cons.1 hf
    · exact h.1 e he
    · exact hseen.2 e he f hf

end Distinct

section Traversals

variable {run : List Domain} {path : String} {a b : Domain} {op : Operator} {single : Bool}

theorem operator_unique {op' : Operator} (h : (Merge.inner? op a).isSome = true)
    (h' : (Merge.inner? op' a).isSome = true) : op = op' := by
  obtain ⟨inner, hinner⟩ := Option.isSome_iff_exists.1 h
  obtain ⟨inner', hinner'⟩ := Option.isSome_iff_exists.1 h'
  obtain ⟨c, rfl, hc, -⟩ := Merge.inner?_eq_some hinner
  obtain ⟨c', hc', hop, -⟩ := Merge.inner?_eq_some hinner'
  cases hc'
  exact hc.symm.trans hop

theorem operator_of_keyOf (ha : keyOf .traversal a = some path)
    (h : (Merge.inner? op a).isSome = true) : op = .any ∨ op = .notAny := by
  obtain ⟨inner, hinner⟩ := Option.isSome_iff_exists.1 h
  obtain ⟨c, rfl, rfl, -⟩ := Merge.inner?_eq_some hinner
  obtain ⟨c', hc', hfamily, -⟩ := keyOf_eq_some.1 ha
  cases hc'
  cases hoperator : c.operator <;> rw [hoperator] at hfamily <;> first
    | exact .inl rfl
    | exact .inr rfl
    | cases hfamily

theorem isMergeable_eq_false : Merge.isMergeable k single run op = false ↔
    run.Pairwise fun a b => (Merge.inner? op a).isSome = true → (Merge.inner? op b).isSome = true →
      (Merge.unites k op || single) = false := by
  rw [pairwise_iff_forall_sublist]
  constructor
  · intro h a b hsub ha hb
    by_contra hunites
    have hlong := (hsub.filterMap (Merge.inner? op)).length_le
    obtain ⟨inner, ha⟩ := Option.isSome_iff_exists.1 ha
    obtain ⟨inner', hb⟩ := Option.isSome_iff_exists.1 hb
    rw [Bool.not_eq_false] at hunites
    simp only [filterMap_cons, ha, hb, filterMap_nil, length_cons, length_nil] at hlong
    rw [Merge.isMergeable, hunites, Bool.true_and, decide_eq_false_iff_not] at h
    omega
  · intro h
    by_contra hmergeable
    rw [Bool.not_eq_false, Merge.isMergeable, Bool.and_eq_true, decide_eq_true_eq,
      ← Merge.length_group] at hmergeable
    obtain ⟨hunites, hlong⟩ := hmergeable
    have hgroup : (Merge.group op run).Sublist run := filter_sublist
    have hall : ∀ d ∈ Merge.group op run, (Merge.inner? op d).isSome = true :=
      fun d hd => (mem_filter.1 hd).2
    rcases hcases : Merge.group op run with _ | ⟨a, _ | ⟨b, rest⟩⟩
    · rw [hcases] at hlong
      simp at hlong
    · rw [hcases] at hlong
      simp at hlong
    · rw [hcases] at hgroup hall
      have hsub : [a, b].Sublist run := .trans (by simp) hgroup
      rw [h hsub (hall a (by simp)) (hall b (by simp))] at hunites
      cases hunites

theorem apart_of_inner (hb : keyOf .traversal b = some path)
    (hsome : (Merge.inner? op a).isSome = true) (hnone : (Merge.inner? op b).isSome = false) :
    Apart k entity a b where
  different := by
    rw [Bool.eq_false_iff]
    intro hsame
    rw [isSome_inner?_of_same hsame, hnone] at hsome
    cases hsome
  oneMembership hboth := by
    obtain ⟨path', -, hb'⟩ := bothMembers_iff.1 hboth
    rw [keyOf_ne (by decide) hb] at hb'
    cases hb'
  oneTraversal := by
    rintro ⟨-, op', -, -, ha', hb', -⟩
    rw [← operator_unique hsome ha', hnone] at hb'
    cases hb'

variable (hrun : ∀ d ∈ run, keyOf .traversal d = some path)
  (hdifferent : run.Pairwise fun a b => a.same b = false)

theorem apart_of_different (ha : keyOf .traversal a = some path) (hdifferent : a.same b = false)
    (hone : ∀ op, (Merge.inner? op a).isSome = true → (Merge.inner? op b).isSome = true →
      (Merge.unites k op || Merge.leadsToOne entity path) = false) : Apart k entity a b where
  different := hdifferent
  oneMembership hboth := by
    obtain ⟨path', ha', -⟩ := bothMembers_iff.1 hboth
    rw [keyOf_ne (by decide) ha] at ha'
    cases ha'
  oneTraversal := by
    rintro ⟨path', op, ha', -, hinner, hinner', hunites, -⟩
    rw [ha, Option.some.injEq] at ha'
    subst ha'
    rw [hone op hinner hinner'] at hunites
    cases hunites

include hrun in
theorem keyOf_joinAnys : ∀ d ∈ Merge.joinAnys k entity run, keyOf .traversal d = some path := by
  intro d hd
  obtain hd | ⟨c, hc, -, rfl⟩ := Merge.mem_joinAnys hd
  · exact hrun d hd
  · obtain ⟨c', hc', hfamily, hpath⟩ := keyOf_eq_some.1 (hrun _ hc)
    cases hc'
    exact keyOf_eq_some.2 ⟨_, rfl, hfamily, hpath⟩

include hrun in
theorem mem_traversals {d : Domain}
    (h : d ∈ Merge.traversals k op (Merge.isMergeable k single run op) run) :
    (Merge.inner? op d).isSome = true ∧ keyOf .traversal d = some path := by
  cases hmergeable : Merge.isMergeable k single run op with
  | false =>
    rw [hmergeable] at h
    exact ⟨(mem_filter.1 h).2, hrun d (mem_filter.1 h).1⟩
  | true =>
    rw [hmergeable] at h
    simp only [Merge.isMergeable, Bool.and_eq_true, decide_eq_true_eq, ← Merge.length_group]
      at hmergeable
    obtain ⟨c, rest, hgroup⟩ := Merge.group_eq_condition_cons (by omega :
      0 < (Merge.group op run).length)
    have hc : .condition c ∈ Merge.group op run := by
      rw [hgroup]
      exact mem_cons_self ..
    obtain ⟨inner, hinner⟩ := Option.isSome_iff_exists.1 (mem_filter.1 hc).2
    obtain ⟨c', hc', hop, -⟩ := Merge.inner?_eq_some hinner
    cases hc'
    obtain ⟨c', hc', hfamily, hpath⟩ := keyOf_eq_some.1 (hrun _ (mem_filter.1 hc).1)
    cases hc'
    rw [Merge.traversals_of_mergeable hgroup, mem_singleton] at h
    rw [h, ← hop]
    exact ⟨by simp [Merge.inner?, Condition.withOperand],
      keyOf_eq_some.2 ⟨_, rfl, hfamily, hpath⟩⟩

include hrun hdifferent in
theorem pairwise_traversals (op : Operator) : (Merge.traversals k op
    (Merge.isMergeable k (Merge.leadsToOne entity path) run op) run).Pairwise
      (Apart k entity) := by
  cases hmergeable : Merge.isMergeable k (Merge.leadsToOne entity path) run op with
  | false =>
    have hgroup : (Merge.group op run).Sublist run := filter_sublist
    have hone := (isMergeable_eq_false.1 hmergeable).sublist hgroup
    refine ((hdifferent.sublist hgroup).and hone).imp_of_mem ?_
    intro a b ha hb hab
    refine apart_of_different (hrun a (hgroup.mem ha)) hab.1 fun op' ha' hb' => ?_
    obtain rfl := operator_unique (mem_filter.1 ha).2 ha'
    exact hab.2 ha' hb'
  | true =>
    simp only [Merge.isMergeable, Bool.and_eq_true, decide_eq_true_eq, ← Merge.length_group]
      at hmergeable
    obtain ⟨c, rest, hgroup⟩ := Merge.group_eq_condition_cons (by omega :
      0 < (Merge.group op run).length)
    rw [Merge.traversals_of_mergeable hgroup]
    exact pairwise_singleton ..

include hrun hdifferent in
theorem pairwise_joinAnys : (Merge.joinAnys k entity run).Pairwise (Apart k entity) := by
  unfold Merge.joinAnys
  split
  · rename_i first rest
    have hfirst : first.path = path := by
      obtain ⟨c, hc, -, hpath⟩ := keyOf_eq_some.1 (hrun _ (mem_cons_self ..))
      cases hc
      exact hpath
    rw [hfirst]
    generalize Domain.condition first :: rest = run at hrun hdifferent ⊢
    dsimp only
    split
    · rename_i hneither
      rw [Bool.and_eq_true, Bool.not_eq_true', Bool.not_eq_true', isMergeable_eq_false,
        isMergeable_eq_false] at hneither
      refine ((hdifferent.and hneither.1).and hneither.2).imp_of_mem fun ha hb hab => ?_
      refine apart_of_different (hrun _ ha) hab.1.1 fun op hinner hinner' => ?_
      obtain hop | hop := operator_of_keyOf (hrun _ ha) hinner <;> subst hop
      · exact hab.1.2 hinner hinner'
      · exact hab.2 hinner hinner'
    · have hrest : ∀ d ∈ run.filter fun d =>
          (Merge.inner? .any d).isNone && (Merge.inner? .notAny d).isNone,
          keyOf .traversal d = some path ∧ (Merge.inner? .any d).isSome = false ∧
            (Merge.inner? .notAny d).isSome = false := by
        intro d hd
        obtain ⟨hmem, hnone⟩ := mem_filter.1 hd
        simp only [Bool.and_eq_true, Option.isNone_iff_eq_none] at hnone
        exact ⟨hrun d hmem, by simp [hnone.1], by simp [hnone.2]⟩
      refine pairwise_append.2 ⟨pairwise_append.2 ⟨pairwise_traversals hrun hdifferent _,
        pairwise_traversals hrun hdifferent _, fun a ha b hb => ?_⟩, ?_, fun a ha b hb => ?_⟩
      · obtain ⟨hany, -⟩ := mem_traversals hrun ha
        obtain ⟨hnot, hkey⟩ := mem_traversals hrun hb
        refine apart_of_inner hkey hany (Bool.eq_false_iff.2 fun hany' => ?_)
        cases operator_unique hany' hnot
      · refine (hdifferent.sublist filter_sublist).imp_of_mem fun ha hb hab => ?_
        obtain ⟨hkey, hany, hnot⟩ := hrest _ ha
        refine apart_of_different hkey hab fun op hinner _ => ?_
        obtain hop | hop := operator_of_keyOf hkey hinner <;> rw [hop] at hinner
        · rw [hany] at hinner
          cases hinner
        · rw [hnot] at hinner
          cases hinner
      · obtain ⟨hkey, hany, hnot⟩ := hrest b hb
        obtain ha | ha := mem_append.1 ha
        · exact apart_of_inner hkey (mem_traversals hrun ha).1 hany
        · exact apart_of_inner hkey (mem_traversals hrun ha).1 hnot
  · rename_i hfirst
    cases run with
    | nil => exact .nil
    | cons d ds =>
      obtain ⟨c, rfl, -, -⟩ := keyOf_eq_some.1 (hrun d (mem_cons_self ..))
      exact absurd rfl (hfirst c ds)

include hrun in
theorem joinAnys_eq_self (haccepts : anyScope.acceptsType (entity.headType? path) = true)
    (hone : run.Pairwise fun a b => ¬BothTraverse k entity a b) :
    Merge.joinAnys k entity run = run := by
  have hneither : ∀ op, Merge.isMergeable k (Merge.leadsToOne entity path) run op = false := by
    intro op
    refine isMergeable_eq_false.2 (hone.imp_of_mem fun ha hb hab hinner hinner' => ?_)
    by_contra hunites
    exact hab ⟨path, op, hrun _ ha, hrun _ hb, hinner, hinner', (Bool.not_eq_false _).mp hunites, haccepts⟩
  unfold Merge.joinAnys
  split
  · rename_i first rest
    obtain ⟨c, hc, -, hpath⟩ := keyOf_eq_some.1 (hrun _ (mem_cons_self ..))
    cases hc
    dsimp only
    rw [hpath, hneither, hneither]
    rfl
  · rfl

end Traversals

section Sets

def mergedSets (k : Connective) (entity : Entity) (ds : List Domain) : List Domain :=
  replaceRuns (isMerged setScope entity) (Merge.joinSets k) (runsBy (keyOf .membership) ds)

def mergedAnys (k : Connective) (entity : Entity) (ds : List Domain) : List Domain :=
  replaceRuns (isMerged anyScope entity) (Merge.joinAnys k entity) (runsBy (keyOf .traversal) ds)

theorem mergeAll_eq (ds : List Domain) : mergeAll k entity ds =
    mergedAnys k entity (mergedSets k entity (Merge.distinct [] ds)) := by
  have hset : setScope.runKey? = keyOf .membership := funext runKey?_setScope
  have hany : anyScope.runKey? = keyOf .traversal := funext runKey?_anyScope
  unfold mergeAll mergedAnys mergedSets
  rw [hset, hany]

theorem keepsKey_joinSets : KeepsKey (keyOf .membership) (isMerged setScope entity)
    (Merge.joinSets k) ds := by
  rintro ⟨_ | path, run⟩ hgroup htaken
  · cases htaken
  · refine ⟨nofun, fun d hd => ?_⟩
    have hkeys : ∀ e ∈ run, keyOf .membership e = some path := fun e he => (mem_runsBy hgroup e he).2
    have hpath : ∀ c, .condition c ∈ run → c.path = path := by
      intro c hc
      obtain ⟨c', hc', -, hpath⟩ := keyOf_eq_some.1 (hkeys _ hc)
      cases hc'
      exact hpath
    obtain hd | ⟨operator, values, hop, rfl, -⟩ := Merge.mem_joinSets_of_path hpath hd
    · exact hkeys d hd
    · refine keyOf_eq_some.2 ⟨_, rfl, ?_, rfl⟩
      cases operator <;> first
        | rfl
        | cases hop

theorem keepsKey_joinAnys : KeepsKey (keyOf .traversal) (isMerged anyScope entity)
    (Merge.joinAnys k entity) ds := by
  rintro ⟨_ | path, run⟩ hgroup htaken
  · cases htaken
  · exact ⟨nofun, keyOf_joinAnys fun e he => (mem_runsBy hgroup e he).2⟩

variable {family : OperatorFamily} {taken : Option String → List Domain → Bool}
  {merge : List Domain → List Domain}

theorem placeLe_replaceRuns (hsorted : ds.Pairwise PlaceLe)
    (hkeeps : KeepsKey (keyOf family) taken merge ds) :
    (replaceRuns taken merge (runsBy (keyOf family) ds)).Pairwise PlaceLe := by
  -- Each child that is put in stands where one of the run has stood.
  have hplace : ∀ group ∈ runsBy (keyOf family) ds,
      ∀ a ∈ (if taken group.1 group.2 then merge group.2 else group.2), ∃ x ∈ group.2, ∃ path,
        a = x ∨ (keyOf family x = some path ∧ keyOf family a = some path) := by
    intro group hgroup a ha
    split at ha
    · obtain ⟨hsome, hkey⟩ := hkeeps group hgroup ‹_›
      obtain ⟨path, hpath⟩ := Option.ne_none_iff_exists'.1 hsome
      obtain ⟨x, hx⟩ := exists_mem_of_ne_nil _ (ne_nil_of_mem_runsBy hgroup)
      refine ⟨x, hx, path, .inr ⟨?_, ?_⟩⟩
      · rw [(mem_runsBy hgroup x hx).2, hpath]
      · rw [hkey a ha, hpath]
    · exact ⟨a, ha, "", .inl rfl⟩
  rw [← flatMap_runsBy (keyOf family) ds, pairwise_flatMap] at hsorted
  refine pairwise_flatMap.2 ⟨fun group hgroup => ?_, hsorted.2.imp_of_mem ?_⟩
  · split
    · obtain ⟨hsome, hkey⟩ := hkeeps group hgroup ‹_›
      obtain ⟨path, hpath⟩ := Option.ne_none_iff_exists'.1 hsome
      rw [hpath] at hkey
      exact pairwise_of_forall_mem_list fun a ha b hb => .of_keyOf (hkey a ha) (hkey b hb)
    · exact hsorted.1 group hgroup
  · intro group group' hgroup hgroup' hle a ha b hb
    obtain ⟨x, hx, path, ha⟩ := hplace group hgroup a ha
    obtain ⟨y, hy, path', hb⟩ := hplace group' hgroup' b hb
    exact (hle x hx y hy).congr ha hb

theorem pairwise_runsBy_keyOf (hsorted : ds.Pairwise PlaceLe) :
    (runsBy (keyOf family) ds).Pairwise fun group group' =>
      group.1 = none ∨ group.1 ≠ group'.1 :=
  pairwise_runsBy keyOf_between hsorted

theorem mem_mergedSets {d : Domain} (h : d ∈ mergedSets k entity ds) :
    d ∈ ds ∨ ∃ path, keyOf .membership d = some path := by
  obtain ⟨group, hgroup, hd⟩ := mem_flatMap.1 h
  split at hd
  · obtain ⟨hsome, hkey⟩ := keepsKey_joinSets group hgroup ‹_›
    exact .inr (by rw [hkey d hd]; exact Option.ne_none_iff_exists'.1 hsome)
  · exact .inl (mem_runsBy hgroup d hd).1

theorem length_joinedSets {path : String} {run : List Domain} (hsets : MembersAreSets ds)
    (hrun : (some path, run) ∈ runsBy (keyOf .membership) ds) :
    (if isMerged setScope entity (some path) run then Merge.joinSets k run else run).length ≤ 1 := by
  split
  · have hkeys : ∀ d ∈ run, d ∈ ds ∧ setScope.runKey? d = some path := by
      intro d hd
      rw [runKey?_setScope]
      exact mem_runsBy hrun d hd
    exact Merge.length_joinSets_le (hsets.hasSet hkeys)
  · rename_i hmerged
    simp only [isMerged, setScope, MergeScope.acceptsType, Bool.and_true, decide_eq_true_eq]
      at hmerged
    omega

theorem pairwise_of_length_le {R : Domain → Domain → Prop} {run : List Domain}
    (h : run.length ≤ 1) : run.Pairwise R := by
  match run, h with
  | [], _ => exact .nil
  | [a], _ => exact pairwise_singleton R a

theorem pairwise_mergedSets (hsorted : ds.Pairwise PlaceLe) (hsets : MembersAreSets ds)
    {R : Domain → Domain → Prop}
    (hapart : ∀ a b, keyOf .membership a ≠ keyOf .membership b → R a b)
    (hrest : ds.Pairwise fun a b => keyOf .membership a = none → keyOf .membership b = none →
      R a b) : (mergedSets k entity ds).Pairwise R :=
  pairwise_replaceRuns (pairwise_runsBy_keyOf hsorted) keepsKey_joinSets
    (fun _ _ hrun => pairwise_of_length_le (length_joinedSets hsets hrun)) hapart hrest

end Sets

section Merged

variable (hsorted : ds.Pairwise PlaceLe) (hsets : MembersAreSets ds)

include hsorted in
theorem placeLe_distinct : (Merge.distinct [] ds).Pairwise PlaceLe :=
  hsorted.sublist (Merge.distinct_sublist [] ds)

include hsets in
theorem membersAreSets_distinct : MembersAreSets (Merge.distinct [] ds) :=
  fun c hc => hsets c ((Merge.distinct_sublist [] ds).mem hc)

include hsorted hsets in
theorem pairwise_mergeAll : (mergeAll k entity ds).Pairwise (Apart k entity) := by
  rw [mergeAll_eq]
  have hplace : (mergedSets k entity (Merge.distinct [] ds)).Pairwise PlaceLe :=
    placeLe_replaceRuns (placeLe_distinct hsorted) keepsKey_joinSets
  have hone : (mergedSets k entity (Merge.distinct [] ds)).Pairwise fun a b =>
      a.same b = false ∧ ¬BothMembers a b := by
    refine pairwise_mergedSets (placeLe_distinct hsorted) (membersAreSets_distinct hsets) ?_ ?_
    · intro a b hne
      refine ⟨Bool.eq_false_iff.2 fun hsame => hne (keyOf_of_same hsame), fun hboth => ?_⟩
      obtain ⟨path, ha, hb⟩ := bothMembers_iff.1 hboth
      exact hne (ha.trans hb.symm)
    · refine (pairwise_distinct [] ds).1.imp fun hdifferent hnone _ => ⟨hdifferent, fun hboth => ?_⟩
      obtain ⟨path, ha, -⟩ := bothMembers_iff.1 hboth
      rw [hnone] at ha
      cases ha
  refine pairwise_replaceRuns (pairwise_runsBy_keyOf hplace) keepsKey_joinAnys ?_
    (fun a b => apart_of_keyOf) ?_
  · intro path run hrun
    have hkeys : ∀ d ∈ run, keyOf .traversal d = some path := fun d hd => (mem_runsBy hrun d hd).2
    have hdifferent : run.Pairwise fun a b => a.same b = false := by
      rw [← flatMap_runsBy (keyOf .traversal) (mergedSets k entity _), pairwise_flatMap] at hone
      exact (hone.1 _ hrun).imp And.left
    split
    · exact pairwise_joinAnys hkeys hdifferent
    · rename_i hmerged
      simp only [isMerged, Bool.and_eq_true, decide_eq_true_eq, not_and_or, Bool.not_eq_true]
        at hmerged
      obtain hshort | hrefused := hmerged
      · exact pairwise_of_length_le (by omega)
      · refine hdifferent.imp_of_mem fun ha _ hab => ⟨hab, fun hboth => ?_, ?_⟩
        · obtain ⟨path', ha', -⟩ := bothMembers_iff.1 hboth
          rw [keyOf_ne (by decide) (hkeys _ ha)] at ha'
          cases ha'
        · rintro ⟨path', -, ha', -, -, -, -, haccepts⟩
          rw [hkeys _ ha, Option.some.injEq] at ha'
          rw [← ha', hrefused] at haccepts
          cases haccepts
  · refine hone.imp fun hab hnone _ => ⟨hab.1, hab.2, ?_⟩
    rintro ⟨path, -, ha, -⟩
    rw [hnone] at ha
    cases ha

theorem mergedAnys_eq_self (hone : ds.Pairwise fun a b => ¬BothTraverse k entity a b) :
    mergedAnys k entity ds = ds := by
  have hruns : ∀ group ∈ runsBy (keyOf .traversal) ds,
      (if isMerged anyScope entity group.1 group.2 then Merge.joinAnys k entity group.2
        else group.2) = group.2 := by
    rintro ⟨_ | path, run⟩ hgroup
    · rfl
    · split
      · rename_i hmerged
        simp only [isMerged, Bool.and_eq_true, decide_eq_true_eq] at hmerged
        rw [← flatMap_runsBy (keyOf .traversal) ds, pairwise_flatMap] at hone
        exact joinAnys_eq_self (fun d hd => (mem_runsBy hgroup d hd).2) hmerged.2
          (hone.1 _ hgroup)
      · rfl
  calc mergedAnys k entity ds
      = (runsBy (keyOf .traversal) ds).flatMap (·.2) := flatMap_congr hruns
    _ = ds := flatMap_runsBy ..

include hsorted hsets in
theorem mem_mergeAll_of_oneTraversal (hone : ds.Pairwise fun a b => ¬BothTraverse k entity a b)
    {d : Domain} (h : d ∈ mergeAll k entity ds) :
    d ∈ ds ∨ ∃ path, keyOf .membership d = some path := by
  have hone' : (mergedSets k entity (Merge.distinct [] ds)).Pairwise fun a b =>
      ¬BothTraverse k entity a b := by
    refine pairwise_mergedSets (placeLe_distinct hsorted) (membersAreSets_distinct hsets) ?_ ?_
    · rintro a b hne ⟨path, -, ha, hb, -⟩
      rw [keyOf_ne (by decide) ha, keyOf_ne (by decide) hb] at hne
      exact hne rfl
    · exact (hone.sublist (Merge.distinct_sublist [] ds)).imp fun hab _ _ => hab
  rw [mergeAll_eq, mergedAnys_eq_self hone'] at h
  exact (mem_mergedSets h).imp_left (Merge.distinct_sublist [] ds).mem

theorem mergedSets_eq_self (hone : ds.Pairwise fun a b => ¬BothMembers a b) :
    mergedSets k entity ds = ds := by
  have hruns : ∀ group ∈ runsBy (keyOf .membership) ds,
      (if isMerged setScope entity group.1 group.2 then Merge.joinSets k group.2
        else group.2) = group.2 := by
    rintro ⟨_ | path, run⟩ hgroup
    · rfl
    · refine if_neg fun hlong => ?_
      simp only [isMerged, Bool.and_eq_true, decide_eq_true_eq] at hlong
      rw [← flatMap_runsBy (keyOf .membership) ds, pairwise_flatMap] at hone
      have hkeys : ∀ d ∈ run, keyOf .membership d = some path :=
        fun d hd => (mem_runsBy hgroup d hd).2
      have hapart := hone.1 _ hgroup
      obtain _ | ⟨a, _ | ⟨b, rest⟩⟩ := run
      · simp at hlong
      · simp at hlong
      · have hab := (pairwise_cons.1 hapart).1 b (mem_cons_self ..)
        exact hab (bothMembers_iff.2 ⟨path, hkeys a (by simp), hkeys b (by simp)⟩)
  calc mergedSets k entity ds
      = (runsBy (keyOf .membership) ds).flatMap (·.2) := flatMap_congr hruns
    _ = ds := flatMap_runsBy ..

/-- Children that are apart are merged no further. -/
theorem mergeAll_of_apart (h : ds.Pairwise (Apart k entity)) : mergeAll k entity ds = ds := by
  have hdistinct : Merge.distinct [] ds = ds :=
    distinct_eq_self (h.imp Apart.different) fun _ _ _ hnone => nomatch hnone
  rw [mergeAll_eq, hdistinct, mergedSets_eq_self (h.imp Apart.oneMembership)]
  exact mergedAnys_eq_self (h.imp Apart.oneTraversal)

end Merged

end Optimizer

end QueryDomain
