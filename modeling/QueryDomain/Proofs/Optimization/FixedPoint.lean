import Mathlib.Data.List.Permutation
import QueryDomain.Proofs.Domain.Unmarked
import QueryDomain.Proofs.Optimization.Settled

/-! Optimizing is done after one run: what the standard optimizer returns is settled, and settled
domains are returned as they are, at the same level and at every lower one. -/
namespace QueryDomain

open List

namespace Domain

theorem childLe_condition (c d : Condition) : (condition c).childLe (condition d) = true ↔
    c.path < d.path ∨ (c.path = d.path ∧ (c.operator.family.rank < d.operator.family.rank ∨
      (c.operator.family.rank = d.operator.family.rank ∧ c.operator.rank ≤ d.operator.rank))) := by
  simp only [childLe, asCondition?]
  split
  · rename_i hpath
    simp only [Bool.or_eq_true, decide_eq_true_eq, Bool.and_eq_true, beq_iff_eq, hpath,
      String.lt_irrefl, true_and, false_or]
  · rename_i hpath
    simp [hpath]

theorem childLe_trans (a b c : Domain) (hab : a.childLe b = true) (hbc : b.childLe c = true) :
    a.childLe c = true := by
  cases c with
  | condition z =>
    cases b with
    | condition y =>
      cases a with
      | condition x =>
        rw [childLe_condition] at hab hbc ⊢
        obtain hab | ⟨hpath, hab⟩ := hab
        · obtain hbc | ⟨hpath', -⟩ := hbc
          · exact .inl (String.lt_trans hab hbc)
          · exact .inl (hpath' ▸ hab)
        · obtain hbc | ⟨hpath', hbc⟩ := hbc
          · exact .inl (hpath ▸ hbc)
          · exact .inr ⟨hpath.trans hpath', by omega⟩
      | _ => cases hab
    | _ => cases hbc
  | _ => cases a <;> rfl

theorem childLe_total (a b : Domain) : (a.childLe b || b.childLe a) = true := by
  cases a with
  | condition x =>
    cases b with
    | condition y =>
      rw [Bool.or_eq_true, childLe_condition, childLe_condition]
      by_cases hlt : x.path < y.path
      · exact .inl (.inl hlt)
      · by_cases hgt : y.path < x.path
        · exact .inr (.inl hgt)
        · have hpath : x.path = y.path := String.le_antisymm hgt hlt
          simp only [hpath, true_and]
          omega
    | _ => rfl
  | _ => cases b <;> rfl

theorem pairwise_sortChildren (children : List Domain) :
    (sortChildren children).Pairwise fun a b => a.childLe b = true :=
  pairwise_mergeSort childLe_trans childLe_total children

theorem sortChildren_perm (children : List Domain) : (sortChildren children).Perm children :=
  mergeSort_perm children childLe

end Domain

namespace Catalog

variable {catalog : Catalog} {entity target : Entity}

def Hookless (catalog : Catalog) : Prop := ∀ entity ∈ catalog.entities, entity.Hookless

instance (catalog : Catalog) : Decidable catalog.Hookless :=
  inferInstanceAs (Decidable (∀ entity ∈ catalog.entities, ∀ field ∈ entity.fields,
    field.searchHook = none))

theorem Hookless.of_entity? (h : catalog.Hookless) {name : String}
    (hentity : catalog.entity? name = some entity) : entity.Hookless :=
  h entity (List.mem_of_find?_eq_some hentity)

/-- What search hooks return has no marks but those with the property. -/
def HooksCarry (catalog : Catalog) (P : Mark → Domain → Prop) : Prop :=
  ∀ entity ∈ catalog.entities, entity.HooksCarry P

theorem HooksCarry.of_entity? {P : Mark → Domain → Prop} (h : catalog.HooksCarry P) {name : String}
    (hentity : catalog.entity? name = some entity) : entity.HooksCarry P :=
  h entity (List.mem_of_find?_eq_some hentity)

theorem Hookless.hooksCarry (h : catalog.Hookless) {P : Mark → Domain → Prop} :
    catalog.HooksCarry P :=
  fun entity hentity => (h entity hentity).hooksCarry

end Catalog

theorem Context.entity?_target {ctx : Context} {c : Condition} {field : Field} {target : Entity}
    (hentity : ctx.catalog.entity? ctx.entity.name = some ctx.entity)
    (h : ctx.target c field = .ok target) : ctx.catalog.entity? target.name = some target := by
  unfold Context.target at h
  split at h
  · cases h
    exact hentity
  · split at h
    · obtain ⟨name, -, h⟩ := Option.bind_eq_some_iff.1 (Catalog.comodel_eq_ok.1 h)
      exact Catalog.entity?_name h
    · cases h

namespace Optimizer

open Domain

variable {catalog : Catalog} {level : Level} {entity : Entity} {k : Connective}

theorem sortedJoin_eq_nary {children collected : List Domain}
    (h : k.collect? children = some collected) (hseveral : 1 < collected.length)
    (hconstant : ∀ d ∈ collected, ∀ v, d ≠ .constant v)
    (hnode : ∀ d ∈ collected, d.connective? ≠ some k) :
    sortedJoin k children = .nary k (sortChildren collected) none := by
  have hperm := sortChildren_perm collected
  have hjoined : k.apply children = .nary k collected none := by
    rw [← Connective.apply_eq_nary hseveral hconstant hnode, Connective.apply, h, Connective.apply,
      Connective.collect?_eq_self hconstant hnode]
  rw [sortedJoin, hjoined, connective?, if_pos rfl, Domain.children]
  refine Connective.apply_eq_nary (by rwa [hperm.length_eq]) ?_ ?_
  · exact fun d hd => hconstant d (hperm.mem_iff.1 hd)
  · exact fun d hd => hnode d (hperm.mem_iff.1 hd)

theorem sortedJoin_of_settled {children : List Domain}
    (h : ∀ d ∈ children, Settled catalog level d entity) :
    ((sortedJoin k children).connective? ≠ some k ∧
      Settled catalog level (sortedJoin k children) entity) ∨
    ∃ sorted, sortedJoin k children = .nary k sorted none ∧ 1 < sorted.length ∧
      (∀ d ∈ sorted, Settled catalog level d entity ∧ (∀ v, d ≠ .constant v) ∧
        d.connective? ≠ some k) ∧ sorted.Pairwise fun a b => a.childLe b = true := by
  cases hcollected : k.collect? children with
  | none =>
    have hjoin : sortedJoin k children = .constant k.absorbing := by
      simp [sortedJoin, Connective.apply, hcollected, connective?]
    rw [hjoin]
    exact .inl ⟨by simp [connective?], .constant _ _⟩
  | some collected =>
    have hall : ∀ d ∈ collected, Settled catalog level d entity ∧ (∀ v, d ≠ .constant v) ∧
        d.connective? ≠ some k := by
      intro d hd
      obtain ⟨hmem, hconstant, hnode⟩ | ⟨grandchildren, mark, hmem, hd⟩ :=
        Connective.mem_collect? hcollected hd
      · exact ⟨h d hmem, hconstant, hnode⟩
      · cases h _ hmem with
        | nary hsettled hjoined =>
          exact ⟨hsettled d hd, hjoined.noConstant d hd, hjoined.noNode d hd⟩
    obtain _ | ⟨a, _ | ⟨b, rest⟩⟩ := collected
    · have hjoin : sortedJoin k children = .constant k.identity := by
        simp [sortedJoin, Connective.apply, hcollected, Connective.node, connective?]
      rw [hjoin]
      exact .inl ⟨by simp [connective?], .constant _ _⟩
    · obtain ⟨hsettled, -, hnode⟩ := hall a (mem_singleton.2 rfl)
      have hjoin : sortedJoin k children = a := by
        simp [sortedJoin, Connective.apply, hcollected, Connective.node, hnode]
      rw [hjoin]
      exact .inl ⟨hnode, hsettled⟩
    · have hperm := sortChildren_perm (a :: b :: rest)
      refine .inr ⟨sortChildren (a :: b :: rest), ?_, ?_, ?_, pairwise_sortChildren _⟩
      · exact sortedJoin_eq_nary hcollected (by simp) (fun d hd => (hall d hd).2.1)
          fun d hd => (hall d hd).2.2
      · rw [hperm.length_eq]
        simp
      · exact fun d hd => hall d (hperm.mem_iff.1 hd)

theorem eachMark_sortedJoin {P : Mark → Domain → Prop} {children : List Domain}
    (h : ∀ d ∈ children, d.EachMark P) : (sortedJoin k children).EachMark P := by
  have happly : (k.apply children).EachMark P := Connective.eachMark_apply h
  unfold sortedJoin
  dsimp only
  split
  · refine Connective.eachMark_apply fun d hd => ?_
    exact happly.children d ((sortChildren_perm _).mem_iff.1 hd)
  · exact happly

theorem membersAreSets_of_settled {children : List Domain}
    (h : ∀ d ∈ children, Settled catalog level d entity) : MembersAreSets children := by
  intro c hc hmember
  cases h _ hc with
  | condition hkept _ =>
    obtain ⟨values, hvalues, -⟩ := hkept.membership hmember
    exact ⟨values, hvalues⟩

/-- The mark of a node tells the truth: the node is settled for the entity and level it names. -/
def Vouched (catalog : Catalog) (mark : Mark) (d : Domain) : Prop :=
  ∃ entity, catalog.entity? mark.entity = some entity ∧ Settled catalog mark.level d entity

section Run

variable {ctx : Context}
  (hentity : ctx.catalog.entity? ctx.entity.name = some ctx.entity)
  (hnested : ∀ d d', d.EachMark (Vouched ctx.catalog) →
    (ctx.nested ctx.entity d).result = .ok d' →
    d'.EachMark (Vouched ctx.catalog) ∧ Settled ctx.catalog ctx.level d' ctx.entity)

include hnested in
theorem rebuild_settled {children : List Domain} {d : Domain}
    (hchildren : ∀ d ∈ children, d.EachMark (Vouched ctx.catalog))
    (h : (rebuild k ctx children).result = .ok d) :
    ∃ optimized, d = sortedJoin k optimized ∧
      ∀ e ∈ optimized, e.EachMark (Vouched ctx.catalog) ∧
        Settled ctx.catalog ctx.level e ctx.entity := by
  obtain ⟨optimized, hoptimized, rfl⟩ := rebuild_eq_ok.1 h
  refine ⟨optimized, rfl, ?_⟩
  clear h
  induction hoptimized with
  | nil => simp
  | cons hd _ ih =>
    rw [forall_mem_cons] at hchildren ⊢
    exact ⟨hnested _ _ hchildren.1 hd, ih hchildren.2⟩

include hentity in
theorem eachMark_withMark {d : Domain} (hd : d.EachMark (Vouched ctx.catalog))
    (hsettled : Settled ctx.catalog ctx.level d ctx.entity) :
    (d.withMark ctx.mark).EachMark (Vouched ctx.catalog) ∧
      Settled ctx.catalog ctx.level (d.withMark ctx.mark) ctx.entity := by
  have hmarked : Settled ctx.catalog ctx.level (d.withMark ctx.mark) ctx.entity :=
    hsettled.of_canonical (canonical_withMark d ctx.mark).symm
  exact ⟨hd.withMark ⟨ctx.entity, hentity, hmarked⟩, hmarked⟩

include hentity hnested in
/-- The loop over the children of a node ends with something settled. Merging never changes
children without making them fewer, so the loop does not stop before they are merged. -/
theorem Joins.settled {children : List Domain} {d : Domain}
    (h : Joins standard ctx k children d)
    (hchildren : ∀ d ∈ children, d.EachMark (Vouched ctx.catalog)) :
    d.EachMark (Vouched ctx.catalog) ∧ Settled ctx.catalog ctx.level d ctx.entity := by
  induction h with
  | folded hd hk =>
    obtain ⟨optimized, rfl, hoptimized⟩ := rebuild_settled hnested hchildren hd
    refine ⟨eachMark_sortedJoin fun e he => (hoptimized e he).1, ?_⟩
    obtain ⟨-, hsettled⟩ | ⟨sorted, heq, -⟩ :=
      sortedJoin_of_settled (k := k) fun e he => (hoptimized e he).2
    · exact hsettled
    · rw [heq] at hk
      exact absurd rfl hk
  | stable hd hk hmerged hsame =>
    obtain ⟨optimized, rfl, hoptimized⟩ := rebuild_settled hnested hchildren hd
    obtain ⟨hne, -⟩ | ⟨sorted, heq, hseveral, hsorted, hpairwise⟩ :=
      sortedJoin_of_settled (k := k) fun e he => (hoptimized e he).2
    · exact absurd hk hne
    · refine eachMark_withMark hentity (eachMark_sortedJoin fun e he => (hoptimized e he).1) ?_
      have hsorted' : (sortedJoin k optimized).children = sorted := by rw [heq]; rfl
      rw [result_applyMerges, Except.ok.injEq, hsorted'] at hmerged
      rw [hsorted', ← hmerged] at hsame
      rw [heq]
      refine .nary (fun d hd => (hsorted d hd).1) ⟨hseveral, fun d hd => (hsorted d hd).2.1,
        fun d hd => (hsorted d hd).2.2, hpairwise, sameAll_eq_true_iff.1 hsame⟩
  | inPlace hd hk hmerged hsame hlength _ =>
    obtain ⟨optimized, rfl, hoptimized⟩ := rebuild_settled hnested hchildren hd
    obtain ⟨hne, -⟩ | ⟨sorted, heq, hseveral, hsorted, hpairwise⟩ :=
      sortedJoin_of_settled (k := k) fun e he => (hoptimized e he).2
    · exact absurd hk hne
    · have hsorted' : (sortedJoin k optimized).children = sorted := by rw [heq]; rfl
      rw [result_applyMerges, Except.ok.injEq, hsorted'] at hmerged
      rw [hsorted'] at hsame hlength
      obtain hmerge | hmerge :=
        shrinks_mergeAll (k := k) ctx.entity (membersAreSets_of_settled fun d hd => (hsorted d hd).1)
      · rw [← hmerged, hmerge, sameAll_eq_true_iff.2 rfl] at hsame
        cases hsame
      · rw [hmerged] at hmerge
        omega
  | again hd hk hmerged _ _ ih =>
    obtain ⟨optimized, rfl, hoptimized⟩ := rebuild_settled hnested hchildren hd
    rw [result_applyMerges, Except.ok.injEq] at hmerged
    subst hmerged
    refine ih (eachMark_mergeAll ?_)
    exact (eachMark_sortedJoin fun e he => (hoptimized e he).1).children

theorem kept_settled {c : Condition}
    (hrelated : ∀ target d d', ctx.catalog.target? ctx.entity c.path = some target →
      c.operand = .domain d → (ctx.nested target d).result = .ok d' →
      Settled ctx.catalog ctx.level d' target)
    (h : ∀ pass ∈ standard.candidates ctx c, (pass.run c ctx).result = .ok none) :
    Settled ctx.catalog ctx.level (.condition c) ctx.entity := by
  have hkeeps : ∀ entry ∈ Registry.standard.passes, entry.level.le ctx.level = true →
      entry.scope.covers c.operator (ctx.entity.headType? c.path) = true →
      (entry.pass.run c ctx).result = .ok none :=
    fun entry hentry hlevel hcovers =>
      h entry.pass (mem_candidates.2 ⟨entry, hentry, hlevel, hcovers, rfl⟩)
  refine .condition (fun entry hentry hlevel hcovers =>
    Pass.keeps_still hentry (hkeeps entry hentry hlevel hcovers)) ?_
  intro inner target hinner htraversal htarget
  have hpass := hkeeps _ PassEntry.IsStandard.relatedDomain.mem (Level.basic_le ctx.level)
    (PassScope.covers_operators.2 (Operator.mem_traversals.2 htraversal))
  obtain ⟨field, target', hfield, htarget', hoperand⟩ := Pass.relatedDomain_eq_none.1 hpass
  rw [Context.target_eq_ok hfield, htarget, Option.some.injEq] at htarget'
  subst htarget'
  obtain ⟨query, hquery⟩ | ⟨inner', optimized, hinner', hoptimized, -, -, hsame⟩ := hoperand
  · rw [hinner] at hquery
    cases hquery
  · rw [hinner, Operand.domain.injEq] at hinner'
    subst hinner'
    exact (hrelated target inner optimized htarget hinner hoptimized).of_canonical
      (same_iff.1 hsame)

variable (hhooks : ctx.entity.HooksCarry (Vouched ctx.catalog))
  (hrelated : ∀ target d d', ctx.catalog.entity? target.name = some target →
    d.EachMark (Vouched ctx.catalog) → (ctx.nested target d).result = .ok d' →
    d'.EachMark (Vouched ctx.catalog) ∧ Settled ctx.catalog ctx.level d' target)

include hentity hhooks hrelated in
/-- One step: what is done is settled, and what has changed can be trusted in its marks. -/
theorem Steps.settled {d : Domain} {s : Step} (h : Steps standard ctx d s)
    (hd : d.EachMark (Vouched ctx.catalog)) :
    match s with
    | .done r => r.EachMark (Vouched ctx.catalog) ∧ Settled ctx.catalog ctx.level r ctx.entity
    | .changed r => r.EachMark (Vouched ctx.catalog) := by
  cases h with
  | constant v => exact ⟨trivial, .constant _ _⟩
  | complement hinner hrigid =>
    obtain ⟨hmarks, hsettled⟩ := hrelated _ _ _ hentity (eachMark_negation.1 hd) hinner
    exact ⟨hmarks.negate, hsettled.negate_of_isRigid hrigid⟩
  | pushed hinner _ =>
    exact (hrelated _ _ _ hentity (eachMark_negation.1 hd) hinner).1.negate
  | joined hjoins => exact hjoins.settled hentity (fun d d' => hrelated _ d d' hentity) hd.children
  | @kept c hkept =>
    refine eachMark_withMark (d := .condition c) hentity hd (kept_settled ?_ hkept)
    intro target inner d' htarget hinner hd'
    exact (hrelated target inner d' (Catalog.entity?_target? hentity htarget)
      ((eachMark_condition.1 hd).2 inner hinner) hd').2
  | @replaced c before pass after d' hsplit _ hpass =>
    have hmem : pass ∈ standard.candidates ctx c := by simp [hsplit]
    obtain ⟨entry, hentry, -, -, rfl⟩ := mem_candidates.1 hmem
    refine Pass.carriesMarks_standard hhooks ?_ entry hentry c d' hd hpass
    intro c field target d d' htarget hnested hmarks
    exact (hrelated target d d' (Context.entity?_target hentity htarget) hmarks hnested).1

include hentity in
theorem settled_of_covered {d : Domain} (hd : d.EachMark (Vouched ctx.catalog))
    (hcovered : covered ctx d = true) : Settled ctx.catalog ctx.level d ctx.entity := by
  unfold Optimizer.covered at hcovered
  cases hmark : d.mark? with
  | none => simp [hmark] at hcovered
  | some mark =>
    simp only [hmark, Mark.covers, Bool.and_eq_true, beq_iff_eq] at hcovered
    obtain ⟨entity, hfound, hsettled⟩ := hd.self hmark
    rw [hcovered.1, hentity, Option.some.injEq] at hfound
    exact hfound ▸ hsettled.antitone hcovered.2

include hentity hhooks hrelated in
theorem Settles.settled {d result : Domain} (h : Settles standard ctx d result)
    (hd : d.EachMark (Vouched ctx.catalog)) :
    result.EachMark (Vouched ctx.catalog) ∧
      Settled ctx.catalog ctx.level result ctx.entity := by
  induction h with
  | covered hcovered => exact ⟨hd, settled_of_covered hentity hd hcovered⟩
  | done _ hstep => exact hstep.settled hentity hhooks hrelated hd
  | changed _ hstep _ ih => exact ih (hstep.settled hentity hhooks hrelated hd)

end Run

/-- What the standard optimizer returns is settled, and its marks tell the truth. -/
theorem node_settled {depth : Nat} {d result : Domain}
    (hhooks : catalog.HooksCarry (Vouched catalog))
    (hentity : catalog.entity? entity.name = some entity) (hd : d.EachMark (Vouched catalog))
    (h : (node catalog depth standard level entity d).result = .ok result) :
    result.EachMark (Vouched catalog) ∧ Settled catalog level result entity := by
  induction depth generalizing entity d result with
  | zero =>
    rw [node_zero] at h
    cases h
  | succ depth ih =>
    rw [node_succ] at h
    exact (settle_eq_ok h).settled hentity (hhooks.of_entity? hentity)
      (fun target d d' htarget hmarks hnested => ih htarget hmarks hnested) hd

section Again

variable {ctx : Context}

theorem settle_of_covered {o : Optimizer} {changes : Nat} {d : Domain}
    (h : covered ctx d = true) : (o.settle ctx changes d).result = .ok d :=
  settle_turn.2 (.inl ⟨h, rfl⟩)

theorem settle_of_done {o : Optimizer} {changes : Nat} {d result : Domain}
    (hcovered : covered ctx d = false) (h : (o.step ctx d).result = .ok (.done result)) :
    (o.settle ctx changes d).result = .ok result :=
  settle_turn.2 (.inr (.inl ⟨hcovered, h⟩))

theorem stepCondition_of_kept {c : Condition}
    (h : ∀ pass ∈ standard.candidates ctx c, (pass.run c ctx).result = .ok none) :
    (standard.stepCondition ctx c).result = .ok (.done (.condition (c.withMark ctx.mark))) := by
  rw [stepCondition, Run.result_bind, firstChange_eq_none.2 h]
  rfl

theorem stepNary_of_merged {rounds : Nat} {children sorted : List Domain} {mark : Option Mark}
    (hrebuild : (rebuild k ctx children).result = .ok (.nary k sorted mark))
    (hmerged : (mergeAll k ctx.entity sorted).map canonical = sorted.map canonical) :
    (standard.stepNary k ctx rounds children).result =
      .ok (.done (.nary k sorted (some ctx.mark))) := by
  rw [stepNary.eq_def, Run.result_bind, hrebuild]
  dsimp only [Except.bind]
  rw [if_neg (by simp [connective?]), Run.result_bind, result_applyMerges]
  change (if sameAll (mergeAll k ctx.entity sorted) sorted = true then _ else _ : Run _ _).result = _
  rw [if_pos (sameAll_eq_true_iff.2 hmerged)]
  rfl

theorem sortedJoin_of_isJoined {children : List Domain} (h : IsJoined k entity children) :
    sortedJoin k children = .nary k children none := by
  rw [sortedJoin_eq_nary (Connective.collect?_eq_self h.noConstant h.noNode) h.several
    h.noConstant h.noNode, sortChildren, mergeSort_of_pairwise h.sorted]

theorem exists_forall₂_of_forall_mem {α : Type} {g : Domain → α} {f : Domain → Run Error Domain}
    {children : List Domain} (h : ∀ a ∈ children, ∃ b, (f a).result = .ok b ∧ g b = g a) :
    ∃ optimized, Forall₂ (fun a b => (f a).result = .ok b) children optimized ∧
      optimized.map g = children.map g := by
  induction children with
  | nil => exact ⟨[], .nil, rfl⟩
  | cons a as ih =>
    obtain ⟨b, hb, heq⟩ := h a (mem_cons_self ..)
    obtain ⟨bs, hbs, hsame⟩ := ih fun e he => h e (mem_cons_of_mem _ he)
    exact ⟨b :: bs, .cons hb hbs, by rw [map_cons, map_cons, heq, hsame]⟩

end Again

section Nodes

variable {depth changes : Nat}

theorem settle_negation {inner : Domain} {c : Condition}
    (hinner : (node catalog depth standard level entity inner).result = .ok (.condition c))
    (hnegate : c.negate = .negation (.condition c)) :
    (standard.settle (standard.contextAt catalog depth level entity) changes
      (.negation inner)).result = .ok (.negation (.condition c)) := by
  refine settle_of_done rfl ?_
  change (node catalog depth standard level entity inner >>= _).result = _
  rw [Run.result_bind, hinner]
  simp only [Except.bind, negate, hnegate]
  rfl

theorem settle_nary {children optimized : List Domain} {mark : Option Mark}
    (hcovered : covered (standard.contextAt catalog depth level entity)
      (.nary k children mark) = false)
    (hnodes : Forall₂ (fun a b => (node catalog depth standard level entity a).result = .ok b)
      children optimized) (hjoined : IsJoined k entity optimized) :
    (standard.settle (standard.contextAt catalog depth level entity) changes
      (.nary k children mark)).result = .ok (.nary k optimized (some ⟨entity.name, level⟩)) := by
  have hrebuild : (rebuild k (standard.contextAt catalog depth level entity) children).result =
      .ok (.nary k optimized none) :=
    rebuild_eq_ok.2 ⟨optimized, hnodes, (sortedJoin_of_isJoined hjoined).symm⟩
  exact settle_of_done hcovered (stepNary_of_merged hrebuild hjoined.merged)

end Nodes

theorem settle_of_settled {d : Domain} (h : Settled catalog level d entity) {depth : Nat}
    (hdepth : d.height ≤ depth) (changes : Nat) :
    ∃ result, (standard.settle (standard.contextAt catalog depth level entity) changes d).result =
      .ok result ∧ result.unmarked = d.unmarked := by
  induction h generalizing depth changes with
  | constant v entity => exact ⟨.constant v, settle_of_done rfl rfl, rfl⟩
  | @negation c entity hnegate hinner ih =>
    rw [height] at hdepth
    obtain ⟨depth, rfl⟩ := Nat.exists_eq_succ_of_ne_zero (by omega : depth ≠ 0)
    obtain ⟨d, hd, heq⟩ := ih (by omega : (condition c).height ≤ depth) standard.maxIterations
    have hsettled : Settled catalog level (.negation d) entity :=
      (Settled.negation hnegate hinner).of_canonical
        (canonical_of_alike (congrArg Domain.negation heq.symm))
    cases hsettled with
    | @negation c' _ hnegate' _ =>
      refine ⟨.negation (.condition c'), settle_negation ?_ hnegate', by simpa using heq⟩
      rw [node_succ, hd]
  | @nary k children mark entity hchildren hjoined ih =>
    rw [height] at hdepth
    obtain ⟨depth, rfl⟩ := Nat.exists_eq_succ_of_ne_zero (by omega : depth ≠ 0)
    cases hcovered : covered (standard.contextAt catalog (depth + 1) level entity)
      (.nary k children mark) with
    | true => exact ⟨_, settle_of_covered hcovered, rfl⟩
    | false =>
      have hoptimized : ∃ optimized, Forall₂ (fun a b =>
          (node catalog (depth + 1) standard level entity a).result = .ok b) children optimized ∧
          optimized.map unmarked = children.map unmarked := by
        refine exists_forall₂_of_forall_mem fun a ha => ih a ha ?_ standard.maxIterations
        have := height_lt_of_mem ha
        omega
      obtain ⟨optimized, hnodes, hsame⟩ := hoptimized
      have hjoined' := hjoined.of_canonical (map_canonical_of_unmarked hsame.symm)
      exact ⟨_, settle_nary hcovered hnodes hjoined', by simp [hsame]⟩
  | @condition c entity hkept hinner ih =>
    cases hcovered : covered (standard.contextAt catalog depth level entity) (.condition c) with
    | true => exact ⟨_, settle_of_covered hcovered, rfl⟩
    | false =>
      refine ⟨_, settle_of_done hcovered (stepCondition_of_kept ?_),
        unmarked_withMark (.condition c) _⟩
      intro pass hpass
      obtain ⟨entry, hentry, hlevel, hcovers, rfl⟩ := mem_candidates.1 hpass
      refine Pass.keeps_of_still hentry hcovers ?_ (hkept entry hentry hlevel hcovers)
      intro inner target hoperand htraversal htarget
      obtain ⟨path, operator, operand, mark⟩ := c
      cases hoperand
      rw [height] at hdepth
      obtain ⟨depth, rfl⟩ := Nat.exists_eq_succ_of_ne_zero (by omega : depth ≠ 0)
      obtain ⟨d, hd, heq⟩ := ih inner target rfl htraversal htarget
        (by omega : inner.height ≤ depth) standard.maxIterations
      exact ⟨d, hd, canonical_of_alike heq⟩

/-- A settled domain is returned as it is, given calls enough inside each other. -/
theorem node_of_settled {d : Domain} (h : Settled catalog level d entity) {depth : Nat}
    (hdepth : d.height < depth) :
    ∃ result, (node catalog depth standard level entity d).result = .ok result ∧
      result.canonical = d.canonical := by
  obtain ⟨depth, rfl⟩ := Nat.exists_eq_succ_of_ne_zero (by omega : depth ≠ 0)
  obtain ⟨result, hresult, heq⟩ :=
    settle_of_settled h (Nat.le_of_lt_succ hdepth) standard.maxIterations
  exact ⟨result, hresult, canonical_of_alike heq⟩

theorem optimizeWithin_eq_ok {o : Optimizer} {depth : Nat} {d : Domain} {r : OptimizedDomain} :
    (o.optimizeWithin depth catalog level entity d).result = .ok r ↔
      (node catalog depth o level entity d).result = .ok r.domain ∧ r.entity = entity.name ∧
        r.level = level := by
  simp only [optimizeWithin, conclude, Run.result_bind_eq_ok, Run.result_report, Run.result_pure,
    Except.ok.injEq]
  constructor
  · rintro ⟨d', hd', -, -, rfl⟩
    exact ⟨hd', rfl, rfl⟩
  · rintro ⟨hd', hname, hlevel⟩
    exact ⟨r.domain, hd', (), trivial, by rw [← hname, ← hlevel]⟩

/-- What the standard optimizer returns is a fixed point, of its level and of every lower one:
without its marks and optimized again, it comes back, whatever depth above its height is allowed. -/
theorem optimize_again {depth : Nat} {lower : Level} {d : Domain} {r : OptimizedDomain}
    (hhooks : catalog.Hookless) (hentity : catalog.entity? entity.name = some entity)
    (hd : d.unmarked = d) (hlower : lower.le level = true)
    (h : (standard.optimizeWithin depth catalog level entity d).result = .ok r) :
    ∀ again > r.domain.height,
      ∃ r', (standard.optimizeWithin again catalog lower entity r.domain.unmarked).result = .ok r' ∧
        r'.domain.same r.domain = true := by
  intro again hagain
  have hmarks : d.EachMark (Vouched catalog) := hd ▸ eachMark_mapValues id d
  obtain ⟨hnode, -, -⟩ := optimizeWithin_eq_ok.1 h
  have hsettled := (node_settled hhooks.hooksCarry hentity hmarks hnode).2.antitone hlower
  have hunmarked : Settled catalog lower r.domain.unmarked entity :=
    hsettled.of_canonical (canonical_unmarked r.domain).symm
  have hheight : r.domain.unmarked.height < again := by
    rwa [unmarked, height_mapValues]
  obtain ⟨result, hresult, hsame⟩ := node_of_settled hunmarked hheight
  refine ⟨⟨result, entity.name, lower⟩, optimizeWithin_eq_ok.2 ⟨hresult, rfl, rfl⟩, ?_⟩
  rw [same_iff, hsame, canonical_unmarked]

/-- A complement optimized for SQL is a fixed point of the basic level. -/
theorem optimize_again_person :
    let person : Entity := { name := "person", fields := [{ name := "name", type := .char }] }
    let catalog : Catalog := { entities := [person] }
    let d : Domain := .negation (.leaf "name" .equal (.scalar (.text "Ann")))
    ∃ r, (standard.optimizeWithin 4 catalog .sql person d).result = .ok r ∧
      ∃ r', (standard.optimizeWithin 4 catalog .basic person r.domain.unmarked).result = .ok r' ∧
        r'.domain.same r.domain = true := by
  intro person catalog d
  have hrun : ∃ r, (standard.optimizeWithin 4 catalog .sql person d).result = .ok r ∧
      r.domain.height < 4 := by
    refine ⟨⟨.condition ⟨"name", .notMem, .set ⟨[.text "Ann"]⟩, some ⟨"person", .sql⟩⟩,
      "person", .sql⟩, ?_, ?_⟩
    · cbv
    · decide
  obtain ⟨r, hr, hheight⟩ := hrun
  have hhooks : catalog.Hookless := by
    intro entity hentity field hfield
    obtain rfl := mem_singleton.1 hentity
    obtain rfl := mem_singleton.1 hfield
    rfl
  exact ⟨r, hr, optimize_again hhooks rfl rfl rfl hr 4 hheight⟩

end Optimizer

end QueryDomain
