import Mathlib.Data.List.Chain
import QueryDomain.Proofs.Optimization.FixedPoint

/-! The normal form of domains, said without the optimizer, and that every optimized domain has
it. -/
namespace QueryDomain

open List

def Operator.isEquality : Operator → Bool
  | equal | notEqual | doubleEqual | lessGreater | equalIfSet => true
  | _ => false

/-- A condition on the field is in normal form, the domain in its operand aside. -/
structure Condition.IsNormal (level : Level) (field : Field) (c : Condition) : Prop where
  noEquality : c.operator.isEquality = false
  membership : c.operator.isMembership = true →
    ∃ values, c.operand = .set values ∧ values.values ≠ []
  pattern : c.operator.isPattern = true → ∃ text, c.operand = .scalar (.text text) ∧ text ≠ ""
  traversal : c.operator.isTraversal = true → (∃ query, c.operand = .query query) ∨
    ∃ inner, c.operand = .domain inner ∧ inner ≠ .constant false ∧
      (field.type = .many2one → inner ≠ .constant true)
  noHierarchy : Level.search.le level = true → c.operator ≠ .childOf ∧ c.operator ≠ .parentOf
  searchable : Level.search.le level = true → field.name = Entity.idName ∨
    (field.delegatedVia = none ∧ (field.stored = true ∨ field.sqlHook.isSome = true))

namespace Domain

def BothMembers (a b : Domain) : Prop :=
  ∃ c d, a = .condition c ∧ b = .condition d ∧ c.operator.isMembership = true ∧
    d.operator.isMembership = true ∧ c.path = d.path

/-- The children can stand under the connective in normal form. -/
structure AreNormal (k : Connective) (children : List Domain) : Prop where
  several : 2 ≤ children.length
  noConstant : ∀ d ∈ children, ∀ v, d ≠ .constant v
  noNode : ∀ d ∈ children, d.connective? ≠ some k
  sorted : children.Pairwise fun a b => a.childLe b = true
  different : children.Pairwise fun a b => a.same b = false
  oneMembership : children.Pairwise fun a b => ¬BothMembers a b

/-- The domain is in normal form for the entity at the level, and so is every domain that it
traverses to, for the entity it leads to. -/
inductive IsNormal (catalog : Catalog) (level : Level) : Domain → Entity → Prop
  | constant (v entity) : IsNormal catalog level (.constant v) entity
  | negation {c entity} : c.isDotted = true ∨ c.operator.inverse? = none →
      IsNormal catalog level (.condition c) entity →
      IsNormal catalog level (.negation (.condition c)) entity
  | nary {k children mark entity} : (∀ d ∈ children, IsNormal catalog level d entity) →
      AreNormal k children → IsNormal catalog level (.nary k children mark) entity
  | condition {c field entity} : entity.field? c.head = some field → c.IsNormal level field →
      (c.operator.isTraversal = true → ∃ query, c.operand = .query query) →
      IsNormal catalog level (.condition c) entity
  | traversal {c field inner target entity} : entity.field? c.head = some field →
      c.IsNormal level field → c.operator.isTraversal = true → c.operand = .domain inner →
      catalog.target? entity c.path = some target → IsNormal catalog level inner target →
      IsNormal catalog level (.condition c) entity

end Domain

namespace Condition.Kept

variable {catalog : Catalog} {level : Level} {entity : Entity} {c : Condition} {field : Field}

theorem noEquality (h : c.Kept catalog level entity) : c.operator.isEquality = false := by
  have hlegacy := h _ PassEntry.IsStandard.deprecatedOperator.mem (Level.basic_le level)
  have hequality := h _ PassEntry.IsStandard.equalityToMembership.mem (Level.basic_le level)
  simp only [Pass.deprecatedOperator_eq_none, Pass.equalityToMembership_ne_none,
    PassScope.covers] at hlegacy hequality
  cases hop : c.operator <;> simp_all [Operator.isEquality]

theorem pattern (h : c.Kept catalog level entity) (hop : c.operator.isPattern = true) :
    ∃ text, c.operand = .scalar (.text text) ∧ text ≠ "" := by
  have hpass := h _ PassEntry.IsStandard.patternOperand.mem (Level.basic_le level)
    (PassScope.covers_operators.2 (Registry.mem_patternOperators.2 hop))
  change (Pass.patternOperand c (.still catalog level entity)).result = _ at hpass
  obtain ⟨text, hoperand, hempty⟩ := Pass.patternOperand_eq_none.1 hpass
  exact ⟨text, hoperand, by simpa using hempty⟩

theorem traversal (h : c.Kept catalog level entity) (hop : c.operator.isTraversal = true)
    (hfield : entity.field? c.head = some field) :
    (∃ query, c.operand = .query query) ∨ ∃ inner, c.operand = .domain inner ∧
      inner ≠ .constant false ∧ (field.type = .many2one → inner ≠ .constant true) := by
  have hpass := h _ PassEntry.IsStandard.relatedDomain.mem (Level.basic_le level)
    (PassScope.covers_operators.2 (Operator.mem_traversals.2 hop))
  obtain ⟨field', target, hfield', -, hoperand⟩ := Pass.relatedDomain_eq_none.1 hpass
  obtain rfl : field = field' := Option.some.inj (hfield.symm.trans (Context.field_eq_ok.1 hfield'))
  refine hoperand.imp_right ?_
  rintro ⟨inner, optimized, hinner, hoptimized, hfalse, htrue, -⟩
  cases hoptimized
  refine ⟨inner, hinner, ?_, ?_⟩
  · rintro rfl
    cases hfalse
  · rintro htype rfl
    simp [Domain.isTrue, htype] at htrue

theorem noHierarchy (h : c.Kept catalog level entity) (hlevel : Level.search.le level = true) :
    c.operator ≠ .childOf ∧ c.operator ≠ .parentOf := by
  have hpass := h _ PassEntry.IsStandard.hierarchy.mem hlevel
  simp only [Pass.hierarchy_ne_none, PassScope.covers] at hpass
  constructor <;> intro hop <;> simp [hop] at hpass

theorem searchable (h : c.Kept catalog level entity) (hlevel : Level.search.le level = true)
    (hfield : entity.field? c.head = some field) : field.name = Entity.idName ∨
      (field.delegatedVia = none ∧ (field.stored = true ∨ field.sqlHook.isSome = true)) := by
  have hinherited := h _ PassEntry.IsStandard.inheritedField.mem hlevel rfl
  have hcomputed := h _ PassEntry.IsStandard.computedField.mem hlevel rfl
  obtain ⟨owned, howned, hdelegated⟩ := Pass.inheritedField_eq_none.1 hinherited
  obtain ⟨found, hfound, hstored⟩ := Pass.computedField_eq_none.1 hcomputed
  obtain rfl : field = owned := Option.some.inj (hfield.symm.trans (Context.field_eq_ok.1 howned))
  obtain rfl : field = found := Option.some.inj (hfield.symm.trans (Context.field_eq_ok.1 hfound))
  simp only [hdelegated, Option.isSome_none, Bool.or_false, Bool.or_eq_true, beq_iff_eq] at hstored
  tauto

theorem isNormal (h : c.Kept catalog level entity) (hfield : entity.field? c.head = some field) :
    c.IsNormal level field where
  noEquality := h.noEquality
  membership hop := by
    obtain ⟨values, hoperand, hempty⟩ := h.membership hop
    exact ⟨values, hoperand, by simpa [ValueSet.isEmpty] using hempty⟩
  pattern := h.pattern
  traversal hop := h.traversal hop hfield
  noHierarchy := h.noHierarchy
  searchable hlevel := h.searchable hlevel hfield

end Condition.Kept

theorem Merge.pairwise_of_distinct {seen ds : List Domain} (h : distinct seen ds = ds) :
    ds.Pairwise (fun a b => a.same b = false) ∧ ∀ d ∈ ds, ∀ e ∈ seen, e.same d = false := by
  induction ds generalizing seen with
  | nil => exact ⟨.nil, nofun⟩
  | cons d ds ih =>
    rw [distinct] at h
    split at h
    · have hlength := (distinct_sublist seen ds).length_le
      rw [h, length_cons] at hlength
      omega
    · rename_i hseen
      obtain ⟨hpairwise, hdifferent⟩ := ih (cons.inj h).2
      simp only [Bool.not_eq_true, any_eq_false] at hseen
      refine ⟨.cons (fun e he => hdifferent e he d (mem_cons_self ..)) hpairwise, ?_⟩
      intro e he f hf
      obtain rfl | he := mem_cons.1 he
      · exact hseen f hf
      · exact hdifferent e he f (mem_cons_of_mem _ hf)

namespace Optimizer

variable {k : Connective} {entity : Entity} {children : List Domain}

theorem runsBy_cons (key : Domain → Option String) (d : Domain) (ds : List Domain) :
    ∃ run groups, runsBy key (d :: ds) = (key d, d :: run) :: groups := by
  rw [runsBy]
  split
  · rename_i path path' run groups hkey _
    split
    · exact ⟨run, groups, by rw [hkey]⟩
    · exact ⟨[], _, by rw [hkey]⟩
  · exact ⟨[], _, rfl⟩

theorem isChain_of_runsBy {key : Domain → Option String} {ds : List Domain}
    (h : ∀ path run, (some path, run) ∈ runsBy key ds → run.length ≤ 1) :
    ds.IsChain fun a b => key a = none ∨ key a ≠ key b := by
  induction ds with
  | nil => exact .nil
  | cons a ds ih =>
    cases ds with
    | nil => exact .singleton a
    | cons b ds =>
      obtain ⟨run, groups, hruns⟩ := runsBy_cons key b ds
      rw [runsBy, hruns] at h
      cases ha : key a with
      | none =>
        simp only [ha] at h
        refine .cons_cons (.inl ha) (ih fun path run hrun => ?_)
        rw [hruns] at hrun
        exact h path run (mem_cons_of_mem _ hrun)
      | some path =>
        cases hb : key b with
        | none =>
          simp only [ha, hb] at h
          refine .cons_cons (.inr (by simp [ha, hb])) (ih fun path run hrun => ?_)
          rw [hruns, hb] at hrun
          exact h path run (mem_cons_of_mem _ hrun)
        | some path' =>
          simp only [ha, hb] at h
          split at h
          · have := h path (a :: b :: run) (mem_cons_self ..)
            simp at this
          · rename_i hne
            refine .cons_cons (.inr (by simpa [ha, hb] using hne)) (ih fun path run hrun => ?_)
            rw [hruns, hb] at hrun
            exact h path run (mem_cons_of_mem _ hrun)

/-- A merge that makes every run shorter that it takes makes the children fewer. -/
theorem length_replaceRuns_lt {taken : Option String → List Domain → Bool}
    {merge : List Domain → List Domain} {groups : List (Option String × List Domain)}
    (h : ∀ group ∈ groups, taken group.1 group.2 = true →
      (merge group.2).length < group.2.length)
    {group : Option String × List Domain} (hgroup : group ∈ groups)
    (htaken : taken group.1 group.2 = true) :
    (replaceRuns taken merge groups).length < (groups.flatMap (·.2)).length := by
  have hle : ∀ gs, (∀ g ∈ gs, g ∈ groups) →
      (replaceRuns taken merge gs).length ≤ (gs.flatMap (·.2)).length := fun gs hgs =>
    (shrinks_replaceRuns fun g hg htaken => .inr (h g (hgs g hg) htaken)).length_le
  obtain ⟨before, after, rfl⟩ := append_of_mem hgroup
  have hbefore := hle before fun g hg => mem_append_left _ hg
  have hafter := hle after fun g hg => mem_append_right _ (mem_cons_of_mem _ hg)
  have hshorter := h group hgroup htaken
  simp only [replaceRuns, flatMap_append, flatMap_cons, length_append, htaken, if_true]
    at hbefore hafter ⊢
  omega

/-- Merging that leaves as many children as there were has found no repetition and no two
memberships side by side. -/
theorem mergeAll_length (hsets : MembersAreSets children)
    (hlength : (mergeAll k entity children).length = children.length) :
    Merge.distinct [] children = children ∧
      ∀ path run, (some path, run) ∈ runsBy setScope.runKey? children → run.length ≤ 1 := by
  have hanys : ∀ ds, (replaceRuns (isMerged anyScope entity) (Merge.joinAnys k entity)
      (runsBy anyScope.runKey? ds)).length ≤ ds.length := fun ds =>
    (shrinks_runs fun _ run _ _ => Merge.shrinks_joinAnys entity run).length_le
  have hshorter : ∀ ds, MembersAreSets ds → ∀ group ∈ runsBy setScope.runKey? ds,
      isMerged setScope entity group.1 group.2 = true →
      (Merge.joinSets k group.2).length < group.2.length := by
    rintro ds hds ⟨_ | path, run⟩ hgroup htaken
    · cases htaken
    · simp only [isMerged, Bool.and_eq_true, decide_eq_true_eq] at htaken
      have := Merge.length_joinSets_le (hds.hasSet (mem_runsBy hgroup)) (k := k)
      exact Nat.lt_of_le_of_lt this htaken.1
  have hdistinct : Merge.distinct [] children = children := by
    obtain heq | hlt := Merge.shrinks_distinct [] children
    · exact heq
    · have hsets' : MembersAreSets (Merge.distinct [] children) := fun c hc =>
        hsets c ((Merge.distinct_sublist [] children).mem hc)
      have hle := (shrinks_replaceRuns fun group hgroup htaken =>
        .inr (hshorter _ hsets' group hgroup htaken)).length_le
      rw [flatMap_runsBy] at hle
      have := hanys (replaceRuns (isMerged setScope entity) (Merge.joinSets k)
        (runsBy setScope.runKey? (Merge.distinct [] children)))
      unfold mergeAll at hlength
      dsimp only at hlength
      omega
  refine ⟨hdistinct, fun path run hrun => ?_⟩
  by_contra hlong
  have hlt := length_replaceRuns_lt (hshorter children hsets) hrun
    (by simp [isMerged, setScope, MergeScope.acceptsType]; omega)
  rw [flatMap_runsBy] at hlt
  have := hanys (replaceRuns (isMerged setScope entity) (Merge.joinSets k)
    (runsBy setScope.runKey? children))
  unfold mergeAll at hlength
  rw [hdistinct] at hlength
  dsimp only at hlength
  omega

end Optimizer

namespace Domain

variable {catalog : Catalog} {level : Level} {entity : Entity} {k : Connective} {a b c : Domain}

theorem BothMembers.key (h : BothMembers a b) :
    Optimizer.setScope.runKey? a ≠ none ∧
      Optimizer.setScope.runKey? a = Optimizer.setScope.runKey? b := by
  obtain ⟨c, d, rfl, rfl, hc, hd, hpath⟩ := h
  have hcontains : ∀ op : Operator, op.isMembership = true →
      Registry.membershipOperators.contains op = true :=
    fun op hop => contains_iff_mem.2 (Registry.mem_membershipOperators.2 hop)
  simp only [Optimizer.setScope, MergeScope.runKey?, hcontains _ hc, hcontains _ hd, if_true, hpath]
  simp

theorem BothMembers.between (h : BothMembers a c) (hab : a.childLe b = true)
    (hbc : b.childLe c = true) : BothMembers a b := by
  obtain ⟨x, z, rfl, rfl, hx, hz, hpath⟩ := h
  cases b with
  | condition y =>
    rw [childLe_condition] at hab hbc
    have hrank : ∀ op : Operator, op.isMembership = true ↔ op.family.rank = 0 := by
      intro op
      cases op <;> decide
    have hyx : x.path = y.path := by
      obtain hlt | ⟨heq, -⟩ := hab
      · obtain hgt | ⟨heq, -⟩ := hbc
        · exact absurd (String.lt_trans hlt hgt) (hpath ▸ String.lt_irrefl x.path)
        · rw [hpath, heq]
      · exact heq
    refine ⟨x, y, rfl, rfl, hx, ?_, hyx⟩
    rw [hrank] at hz ⊢
    simp only [← hyx, hpath, String.lt_irrefl, false_or, true_and, hz] at hbc
    omega
  | _ => cases hbc

/-- Sorted memberships on one path would be neighbours. -/
theorem pairwise_not_bothMembers {children : List Domain}
    (hsorted : children.Pairwise fun a b => a.childLe b = true)
    (hchain : children.IsChain fun a b => Optimizer.setScope.runKey? a = none ∨
      Optimizer.setScope.runKey? a ≠ Optimizer.setScope.runKey? b) :
    children.Pairwise fun a b => ¬BothMembers a b := by
  let Apart (a b : Domain) : Prop := a.childLe b = true ∧ ¬BothMembers a b
  have htrans : IsTrans Domain Apart :=
    ⟨fun a b c hab hbc => ⟨childLe_trans a b c hab.1 hbc.1,
      fun hac => hab.2 (hac.between hab.1 hbc.1)⟩⟩
  have hapart : children.IsChain Apart := by
    rw [isChain_iff_getElem] at hchain ⊢
    intro i hi
    refine ⟨pairwise_iff_getElem.1 hsorted i (i + 1) _ hi (Nat.lt_succ_self i), fun h => ?_⟩
    exact (hchain i hi).elim h.key.1 fun hne => hne h.key.2
  exact hapart.pairwise.imp fun h => h.2

theorem IsJoined.areNormal {children : List Domain} (h : IsJoined k entity children)
    (hsets : Optimizer.MembersAreSets children) : AreNormal k children := by
  have hlength : (Optimizer.mergeAll k entity children).length = children.length := by
    simpa using congrArg List.length h.merged
  obtain ⟨hdistinct, hruns⟩ := Optimizer.mergeAll_length hsets hlength
  exact ⟨h.several, h.noConstant, h.noNode, h.sorted, (Merge.pairwise_of_distinct hdistinct).1,
    pairwise_not_bothMembers h.sorted (Optimizer.isChain_of_runsBy hruns)⟩

theorem Settled.isNormal {d : Domain} (h : Settled catalog level d entity) :
    IsNormal catalog level d entity := by
  induction h with
  | constant v entity => exact .constant v entity
  | negation hnegate _ ih => exact .negation (Condition.negate_eq_negation hnegate) ih
  | nary hchildren hjoined ih =>
    exact .nary ih (hjoined.areNormal (Optimizer.membersAreSets_of_settled hchildren))
  | @condition c entity hkept _ ih =>
    obtain ⟨field, hfield, -⟩ := hkept.resolved
    have hnormal := hkept.isNormal hfield
    cases hop : c.operator.isTraversal with
    | false => exact .condition hfield hnormal (by simp [hop])
    | true =>
      obtain hquery | ⟨inner, hinner, -, -⟩ := hnormal.traversal hop
      · exact .condition hfield hnormal fun _ => hquery
      · obtain ⟨target, htarget⟩ := hkept.related hop
        exact .traversal hfield hnormal hop hinner htarget (ih inner target hinner hop htarget)

end Domain

namespace Optimizer

variable {catalog : Catalog} {level : Level} {entity : Entity}

/-- Every optimized domain is in normal form, with all domains that it traverses to. -/
theorem optimize_isNormal {depth : Nat} {d : Domain} {r : OptimizedDomain}
    (hhooks : catalog.Hookless) (hentity : catalog.entity? entity.name = some entity)
    (hd : d.unmarked = d)
    (h : (standard.optimizeWithin depth catalog level entity d).result = .ok r) :
    r.domain.IsNormal catalog level entity := by
  have hmarks : d.EachMark (Vouched catalog) := hd ▸ Domain.eachMark_mapValues id d
  exact (node_settled hhooks.hooksCarry hentity hmarks (optimizeWithin_eq_ok.1 h).1).2.isNormal

/-- The parts of a conjunction, each on its own far from the normal form, become two conditions in
it: one membership for the two on `n`, and a traversal for the path. -/
theorem optimize_isNormal_conjunction :
    let item : Entity := { name := "i", fields :=
      [{ name := "n", type := .integer }, .many2one "p" "i"] }
    let catalog : Catalog := { entities := [item] }
    let d : Domain := .nary .and [.leaf "p.n" .equal (.scalar (.int 1)),
      .negation (.leaf "n" .mem (.set ⟨[.int 2]⟩)), .leaf "n" .lessGreater (.scalar (.int 3))] none
    ∃ r, (standard.optimizeWithin 5 catalog .search item d).result = .ok r ∧
      r.domain.children.length = 2 ∧ r.domain.IsNormal catalog .search item := by
  intro item catalog d
  have hrun : ∃ r, (standard.optimizeWithin 5 catalog .search item d).result = .ok r ∧
      r.domain.children.length = 2 := by
    let mark : Option Mark := some ⟨"i", .search⟩
    refine ⟨⟨.nary .and [.condition ⟨"n", .notMem, .set ⟨[.int 2, .int 3]⟩, mark⟩,
      .condition ⟨"p", .any, .domain (.condition ⟨"n", .mem, .set ⟨[.int 1]⟩, mark⟩), mark⟩] mark,
      "i", .search⟩, ?_, rfl⟩
    cbv
  obtain ⟨r, hr, hchildren⟩ := hrun
  have hhooks : catalog.Hookless := by
    intro entity hentity field hfield
    obtain rfl := mem_singleton.1 hentity
    simp only [item, mem_cons, not_mem_nil, or_false] at hfield
    obtain rfl | rfl := hfield <;> rfl
  exact ⟨r, hr, hchildren, optimize_isNormal hhooks rfl rfl hr⟩

end Optimizer

end QueryDomain
