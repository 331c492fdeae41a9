import Mathlib.Data.Finset.Card
import QueryDomain.Proofs.Optimization.Answers

/-! Runs that end. A family of runs, one for each depth, ends if from some depth on all of them end
in the same way and are not broken off. Whatever a pass does besides optimizing nested domains and
searching records ends by itself: in particular, a walk through a hierarchy meets every record once
at most, so that cycles among the records do no harm. -/
namespace QueryDomain

open List

/-- Whether an error means that a run was broken off. Too many changes count if `strict`. -/
def Error.breaks (strict : Bool) : Error → Bool
  | tooDeep => true
  | diverged _ => strict
  | _ => false

theorem Error.breaks_of_not_brokenOff {strict : Bool} {e : Error} (h : e.isBrokenOff = false) :
    e.breaks strict = false := by
  cases e <;> first
    | rfl
    | cases h

namespace Run

variable {α β : Type} {strict : Bool}

/-- From some depth on, all runs end in one way, and not by being broken off. -/
def Ends (strict : Bool) (b : Nat → Run Error α) : Prop :=
  ∃ r, Reaches b r ∧ ∀ e, r = .error e → e.breaks strict = false

namespace Ends

theorem of_answers {b : Nat → Run Error α} (hb : ∀ depth, (b depth).result = (b 0).result)
    (h : Answers (b 0).result) : Ends strict b :=
  ⟨(b 0).result, ⟨0, fun depth _ => hb depth⟩, fun e he => Error.breaks_of_not_brokenOff (h e he)⟩

theorem of_ok {b : Nat → Run Error α} {a : α} (h : ∀ depth, (b depth).result = .ok a) :
    Ends strict b :=
  ⟨.ok a, ⟨0, fun depth _ => h depth⟩, nofun⟩

theorem of_error {b : Nat → Run Error α} {e : Error} (h : ∀ depth, (b depth).result = .error e)
    (he : e.breaks strict = false) : Ends strict b := by
  refine ⟨.error e, ⟨0, fun depth _ => h depth⟩, ?_⟩
  rintro _ ⟨⟩
  exact he

theorem bind {b : Nat → Run Error α} {g : Nat → α → Run Error β} (hb : Ends strict b)
    (hg : ∀ a, Reaches b (.ok a) → Ends strict fun depth => g depth a) :
    Ends strict fun depth => b depth >>= g depth := by
  obtain ⟨r, hr, herror⟩ := hb
  cases r with
  | error e => exact ⟨.error e, hr.bind_error, by rintro _ ⟨⟩; exact herror e rfl⟩
  | ok a =>
    obtain ⟨r', hr', herror'⟩ := hg a hr
    exact ⟨r', hr.bind hr', herror'⟩

theorem ite {p : Prop} [Decidable p] {b b' : Nat → Run Error α} (h : p → Ends strict b)
    (h' : ¬p → Ends strict b') : Ends strict fun depth => if p then b depth else b' depth := by
  split
  · exact h ‹_›
  · exact h' ‹_›

theorem mapM {f : Nat → α → Run Error β} {as : List α}
    (h : ∀ a ∈ as, Ends strict fun depth => f depth a) :
    Ends strict fun depth => as.mapM (f depth) := by
  induction as with
  | nil => exact .of_ok fun _ => rfl
  | cons a as ih =>
    rw [forall_mem_cons] at h
    simp only [List.mapM_cons]
    exact .bind h.1 fun b _ => .bind (ih h.2) fun bs _ => .of_ok fun _ => rfl

theorem of_succ {b : Nat → Run Error α} (h : Ends strict fun depth => b (depth + 1)) :
    Ends strict b := by
  obtain ⟨r, ⟨enough, hr⟩, herror⟩ := h
  refine ⟨r, ⟨enough + 1, fun depth hdepth => ?_⟩, herror⟩
  obtain ⟨depth, rfl⟩ := Nat.exists_eq_succ_of_ne_zero (by omega : depth ≠ 0)
  exact hr depth (Nat.le_of_succ_le_succ hdepth)

end Ends

end Run

open Run (Ends Reaches)

namespace Hierarchy

variable {strict : Bool}

theorem mem_newIds {known ids : List Int} {id : Int} :
    id ∈ newIds known ids ↔ id ∈ ids ∧ id ∉ known := by
  induction ids generalizing known with
  | nil => simp [newIds]
  | cons first ids ih =>
    rw [newIds]
    split
    · rename_i hknown
      rw [contains_eq_mem, decide_eq_true_eq] at hknown
      rw [ih, mem_cons]
      constructor
      · exact fun h => ⟨.inr h.1, h.2⟩
      · rintro ⟨rfl | hmem, hnew⟩
        · exact absurd hknown hnew
        · exact ⟨hmem, hnew⟩
    · rename_i hknown
      rw [contains_eq_mem, decide_eq_true_eq] at hknown
      rw [mem_cons, ih, mem_cons, mem_cons]
      by_cases hid : id = first
      · simp [hid, hknown]
      · simp [hid]

/-- A walk ends if every step that finds something new comes closer to the end by a measure that
starts below the number of steps. -/
theorem ends_closure {next : Nat → List Int → Run Error (List Int)}
    (measure : List Int → List Int → Nat) (hnext : ∀ ids, Ends strict fun depth => next depth ids)
    (hmeasure : ∀ known frontier found, frontier ⊆ known →
      Reaches (fun depth => next depth frontier) (.ok found) → newIds known found ≠ [] →
      measure (known ++ newIds known found) (newIds known found) < measure known frontier)
    {known frontier : List Int} {steps : Nat} (hfrontier : frontier ⊆ known)
    (hsteps : measure known frontier < steps) :
    Ends strict fun depth => closure (next depth) known frontier steps := by
  induction steps generalizing known frontier with
  | zero => omega
  | succ steps ih =>
    simp only [closure]
    refine .ite (fun _ => .of_ok fun _ => rfl) fun _ => .bind (hnext frontier) fun found hfound => ?_
    by_cases hfresh : newIds known found = []
    · rw [hfresh]
      exact .of_ok fun _ => by cases steps <;> rfl
    · have hless := hmeasure known frontier found hfrontier hfound hfresh
      exact ih (subset_append_right ..) (by omega)

theorem answers_paths (ctx : Context) (target : Entity) (ids : List Int) :
    Answers (paths ctx target ids) :=
  .bind (Catalog.answers_readField _ _) fun _ _ => .ok _

theorem answers_requireParent (c : Condition) (target : Entity) (parent : String) :
    Answers (requireParent c target parent) := by
  unfold requireParent
  split
  · exact .ok _
  · exact .error rfl

theorem card_sdiff_known_lt {records known found : List Int} (hfound : found ⊆ records)
    (hfresh : newIds known found ≠ []) :
    (records.toFinset \ (known ++ newIds known found).toFinset).card <
      (records.toFinset \ known.toFinset).card := by
  obtain ⟨id, hid⟩ := exists_mem_of_ne_nil _ hfresh
  obtain ⟨hmem, hnew⟩ := mem_newIds.1 hid
  refine Finset.card_lt_card (Finset.ssubset_iff_of_subset ?_ |>.2 ⟨id, ?_, ?_⟩)
  · intro x
    simp only [Finset.mem_sdiff, mem_toFinset, mem_append]
    tauto
  · simpa using ⟨hfound hmem, hnew⟩
  · simp [hid]

/-- Upwards, every step that finds something goes through records whose parents were not asked for
before. -/
theorem card_sdiff_passed_lt {records known frontier found : List Int} {id : Int}
    (hfrontier : frontier ⊆ known) (hid : id ∈ frontier) (hrecord : id ∈ records) :
    (records.toFinset \ ((known ++ newIds known found).toFinset \
        (newIds known found).toFinset)).card <
      (records.toFinset \ (known.toFinset \ frontier.toFinset)).card := by
  refine Finset.card_lt_card (Finset.ssubset_iff_of_subset ?_ |>.2 ⟨id, ?_, ?_⟩)
  · intro x
    simp only [Finset.mem_sdiff, mem_toFinset, mem_append, mem_newIds]
    tauto
  · simp [hid, hrecord]
  · simp [hfrontier hid, mem_newIds]

end Hierarchy

namespace Optimizer

open Domain

variable {strict : Bool} {catalog : Catalog} {level : Level} {entity target : Entity}
  {c : Condition}

theorem ends_search {d : Domain}
    (h : Ends strict fun depth => node catalog depth standard .search target d) :
    Ends strict fun depth => (standard.contextAt catalog depth level entity).search target d := by
  refine .bind (.bind h fun d' _ => .bind (.of_ok fun _ => rfl) fun _ _ => .of_ok fun _ => rfl)
    fun optimized _ => ?_
  refine .bind (.of_answers (fun _ => rfl) (Catalog.answers_matching _ _)) fun ids _ => ?_
  exact .bind (.of_ok fun _ => rfl) fun _ _ => .of_ok fun _ => rfl

theorem mem_of_search {optimize : Entity → Domain → Run Error Domain} {d : Domain} {ids : List Int}
    (h : (searchBy catalog optimize target d).result = .ok ids) :
    ids ⊆ (catalog.records target.name).filterMap Record.id? := by
  unfold searchBy at h
  simp only [Run.result_bind_eq_ok, Run.result_liftM, Run.result_pure, Except.ok.injEq] at h
  obtain ⟨optimized, -, ids', hids, -, -, rfl⟩ := h
  exact Catalog.mem_of_matching hids

theorem card_sdiff_lt_stepLimit (ctx : Context) (target : Entity) (known : Finset Int) :
    (((ctx.catalog.records target.name).filterMap Record.id?).toFinset \ known).card <
      Hierarchy.stepLimit ctx target := by
  have hsdiff := Finset.card_le_card (Finset.sdiff_subset (s := ((ctx.catalog.records
    target.name).filterMap Record.id?).toFinset) (t := known))
  have hcard := toFinset_card_le ((ctx.catalog.records target.name).filterMap Record.id?)
  have hlength := length_filterMap_le Record.id? (ctx.catalog.records target.name)
  unfold Hierarchy.stepLimit
  omega

theorem ends_descendants {parent : String} {ids : List Int}
    (hparents : ∀ ids : List Int, Ends strict fun depth => (standard.contextAt catalog depth level
      entity).search target (.leaf parent .mem (.set (.ofList (ids.map Value.int))))) :
    Ends strict fun depth => Hierarchy.descendants c
      (standard.contextAt catalog depth level entity) target parent ids := by
  unfold Hierarchy.descendants
  refine .ite (fun _ => ?_) fun _ => ?_
  · exact .of_answers (fun _ => rfl)
      (.run_bind (Hierarchy.answers_paths (standard.contextAt catalog 0 level entity) target ids)
        fun _ _ => .ok _)
  · have hparent := Hierarchy.answers_requireParent c target parent
    refine .bind (.of_answers (fun _ => rfl) hparent) fun _ _ => ?_
    refine .bind (Hierarchy.ends_closure (fun known _ => (((catalog.records target.name).filterMap
      Record.id?).toFinset \ known.toFinset).card) hparents ?_ (Subset.refl ids)
      (card_sdiff_lt_stepLimit (standard.contextAt catalog 0 level entity) target _))
      fun found _ => .of_ok fun _ => rfl
    intro known frontier found _ hfound hfresh
    obtain ⟨depth, hfound⟩ := hfound.exists
    exact Hierarchy.card_sdiff_known_lt (mem_of_search hfound) hfresh

theorem ends_ancestors {parent : String} {ids : List Int} :
    Ends strict fun depth => Hierarchy.ancestors c
      (standard.contextAt catalog depth level entity) target parent ids := by
  unfold Hierarchy.ancestors
  refine .ite (fun _ => ?_) fun _ => ?_
  · exact .of_answers (fun _ => rfl)
      (.run_bind (Hierarchy.answers_paths (standard.contextAt catalog 0 level entity) target ids)
        fun _ _ => .ok _)
  · have hparent := Hierarchy.answers_requireParent c target parent
    refine .bind (.of_answers (fun _ => rfl) hparent) fun _ _ => ?_
    refine .bind (Hierarchy.ends_closure (fun known frontier => (((catalog.records
      target.name).filterMap Record.id?).toFinset \ (known.toFinset \ frontier.toFinset)).card)
      (fun frontier => .of_answers (fun _ => rfl)
        (.run_bind (Catalog.answers_readField _ _) fun _ _ => .ok _))
      ?_ (Subset.refl ids)
      (card_sdiff_lt_stepLimit (standard.contextAt catalog 0 level entity) target _))
      fun found _ => .of_ok fun _ => rfl
    intro known frontier found hfrontier hfound hfresh
    obtain ⟨depth, hfound⟩ := hfound.exists
    simp only [Run.result_bind_eq_ok, Run.result_liftM, Run.result_pure, Except.ok.injEq] at hfound
    obtain ⟨values, hvalues, rfl⟩ := hfound
    have hrecord : ∃ id ∈ frontier, id ∈ (catalog.records target.name).filterMap Record.id? := by
      by_contra hnone
      push Not at hnone
      rw [Catalog.readField_eq_nil hnone hvalues] at hfresh
      exact hfresh rfl
    obtain ⟨id, hid, hrecord⟩ := hrecord
    exact Hierarchy.card_sdiff_passed_lt hfrontier hid hrecord

theorem ends_seeds (hlabels : Pass.IsFlat c.operand → ∀ label, Ends strict fun depth =>
      (standard.contextAt catalog depth level entity).search target
        (.leaf target.recName .ilike (.scalar (.text label)))) :
    Ends strict fun depth =>
      Hierarchy.seeds c (standard.contextAt catalog depth level entity) target := by
  simp only [Hierarchy.seeds_eq]
  refine .bind (.of_answers (fun _ => rfl) ?_) fun values hvalues =>
    .bind (.mapM fun value _ => ?_) fun _ _ => .of_ok fun _ => rfl
  · unfold Hierarchy.startValues
    split
    · exact .ok _
    · exact .ok _
    · exact .error rfl
  · cases value with
    | text label =>
      obtain ⟨_, hvalues⟩ := hvalues.exists
      exact hlabels (Pass.isFlat_of_startValues hvalues) label
    | int id => exact .of_ok fun _ => rfl
    | _ =>
      unfold Hierarchy.startIds
      exact .ite (fun _ => .of_ok fun _ => rfl) fun _ => .of_error (fun _ => rfl) rfl

theorem ends_hierarchy (hentity : catalog.entity? entity.name = some entity)
    (hlabels : Pass.IsFlat c.operand → ∀ target, catalog.target? entity c.path = some target →
      ∀ label, Ends strict fun depth => (standard.contextAt catalog depth level entity).search target
        (.leaf target.recName .ilike (.scalar (.text label))))
    (hparents : Pass.IsFlat c.operand → ∀ field target parent, entity.field? c.head = some field →
      catalog.target? entity c.path = some target →
      (parent = target.parentName ∨ (target = entity ∧ parent = field.name)) →
      ∀ ids : List Int, Ends strict fun depth => (standard.contextAt catalog depth level
        entity).search target (.leaf parent .mem (.set (.ofList (ids.map Value.int))))) :
    Ends strict fun depth =>
      Pass.hierarchy c (standard.contextAt catalog depth level entity) := by
  -- Where the walk goes does not depend on the depth.
  have hfollowed : ∀ depth, Hierarchy.followed (standard.contextAt catalog depth level entity) =
      Hierarchy.followed (standard.contextAt catalog 0 level entity) := fun _ => rfl
  have hown : ∀ depth, Hierarchy.isOwnLink (standard.contextAt catalog depth level entity) =
      Hierarchy.isOwnLink (standard.contextAt catalog 0 level entity) := fun _ => rfl
  simp only [Pass.hierarchy_eq, hfollowed, hown]
  refine .bind (.of_answers (fun _ => rfl) (entity.answers_conditionField c)) fun field hfield => ?_
  obtain ⟨depth₀, hfield⟩ := hfield.exists
  refine .bind (b := fun depth => Hierarchy.walked c (standard.contextAt catalog depth level entity)
    field) ?_ fun target htarget => ?_
  · unfold Hierarchy.walked
    simp only [hown]
    refine .ite (fun _ => .of_ok fun _ => rfl) fun _ => ?_
    refine .of_answers (fun _ => rfl) ?_
    exact Context.answers_target _ c field
  · obtain ⟨depth₁, htarget⟩ := htarget.exists
    have htarget' : catalog.target? entity c.path = some target :=
      @Pass.target?_of_walked (standard.contextAt catalog depth₁ level entity) c hentity field target
        hfield htarget
    have hparent : Hierarchy.followed (standard.contextAt catalog 0 level entity) field target =
        target.parentName ∨ (target = entity ∧ Hierarchy.followed
          (standard.contextAt catalog 0 level entity) field target = field.name) := by
      unfold Hierarchy.followed
      unfold Hierarchy.walked at htarget
      rw [hown] at htarget
      split
      · rename_i hlink
        rw [if_pos hlink] at htarget
        cases htarget
        exact .inr ⟨rfl, rfl⟩
      · exact .inl rfl
    refine .bind (ends_seeds fun hflat => hlabels hflat target htarget') fun ids hids =>
      .ite (fun _ => .of_ok fun _ => rfl) fun _ => ?_
    obtain ⟨_, hids⟩ := hids.exists
    have hflat := Pass.isFlat_of_seeds hids
    refine .bind (b := fun depth => Hierarchy.walk c (standard.contextAt catalog depth level entity)
      target _ ids) ?_ fun found _ => .bind (.of_ok fun _ => rfl) fun _ _ => ?_
    · unfold Hierarchy.walk
      exact .ite (fun _ => ends_descendants (hparents hflat field target _ (Context.field_eq_ok.1 hfield)
        htarget' hparent)) fun _ => ends_ancestors
    · exact .ite (fun _ => .of_ok fun _ => rfl) fun _ => .of_ok fun _ => rfl

theorem ends_relatedDomain (hnested : ∀ inner target, c.operand = .domain inner →
      catalog.target? entity c.path = some target →
      Ends strict fun depth => node catalog depth standard level target inner) :
    Ends strict fun depth =>
      Pass.relatedDomain c (standard.contextAt catalog depth level entity) := by
  unfold Pass.relatedDomain
  refine .bind (.of_answers (fun _ => rfl) (entity.answers_conditionField c)) fun field hfield => ?_
  obtain ⟨depth₀, hfield⟩ := hfield.exists
  refine .bind (.of_answers (fun _ => rfl) (Context.answers_target _ c field))
    fun target htarget => ?_
  obtain ⟨depth₁, htarget⟩ := htarget.exists
  cases hoperand : c.operand with
  | query query => exact .of_ok fun _ => rfl
  | domain inner =>
    refine .bind (hnested inner target hoperand ((Context.target_eq_ok hfield).1 htarget))
      fun optimized _ => ?_
    exact .ite (fun _ => .of_ok fun _ => rfl) fun _ => .ite (fun _ => .of_ok fun _ => rfl) fun _ =>
      .ite (fun _ => .of_ok fun _ => rfl) fun _ => .of_ok fun _ => rfl
  | _ => exact .of_error (fun _ => rfl) rfl

theorem ends_firstChange {ctxs : Nat → Context} {passes : List NamedPass}
    (h : ∀ pass ∈ passes, Ends strict fun depth => pass.run c (ctxs depth)) :
    Ends strict fun depth => firstChange c (ctxs depth) passes := by
  induction passes with
  | nil => exact .of_ok fun _ => rfl
  | cons pass passes ih =>
    rw [forall_mem_cons] at h
    simp only [firstChange]
    refine .bind h.1 fun change _ => ?_
    cases change with
    | some d => exact .of_ok fun _ => rfl
    | none => exact ih h.2

theorem ends_stepCondition (hhooks : catalog.Hookless)
    (hentity : catalog.entity? entity.name = some entity)
    (hnested : ∀ inner target, c.operand = .domain inner → catalog.Leads entity c.path target →
      Ends strict fun depth => node catalog depth standard level target inner)
    (hwalk : (c.operator = .childOf ∨ c.operator = .parentOf) →
      Ends strict fun depth => Pass.hierarchy c (standard.contextAt catalog depth level entity)) :
    Ends strict fun depth =>
      standard.stepCondition (standard.contextAt catalog depth level entity) c := by
  have hpasses : ∀ {field}, entity.field? c.head = some field →
      (c.rest? = none ∨ field.type = .json) →
      ∀ pass ∈ standard.candidates (standard.contextAt catalog 0 level entity) c,
      Ends strict fun depth => pass.run c (standard.contextAt catalog depth level entity) := by
    intro field hfield hrest pass hpass
    obtain ⟨entry, hentry, -, hcovers, rfl⟩ := mem_candidates.1 hpass
    have hhooks' : (standard.contextAt catalog 0 level entity).entity.Hookless :=
      hhooks.of_entity? hentity
    obtain hrun | ⟨hrun, hscope⟩ | ⟨hstill, hanswers⟩ :=
      Pass.answers_standard (c := c) hhooks' entry hentry
    · rw [hrun]
      exact ends_relatedDomain fun inner target hinner htarget =>
        hnested inner target hinner (Catalog.leads_of_target? hfield hrest htarget)
    · rw [hrun]
      rw [hscope] at hcovers
      exact hwalk (by simpa [PassScope.covers] using hcovers)
    · refine .of_answers (fun depth => ?_) hanswers
      rw [hstill, hstill c (standard.contextAt catalog 0 level entity)]
      rfl
  -- The path is cut before any other pass is tried.
  have hfirst : Ends strict fun depth => firstChange c (standard.contextAt catalog depth level entity)
      (standard.candidates (standard.contextAt catalog 0 level entity) c) := by
    obtain ⟨rest, hrest⟩ := candidates_eq_cons (standard.contextAt catalog 0 level entity) c
    simp only [hrest, cons_append, nil_append, firstChange]
    refine .bind (.of_answers (fun _ => rfl)
      (@Pass.answers_resolvePath (standard.contextAt catalog 0 level entity) c)) fun change hchange => ?_
    cases change with
    | some d => exact .of_ok fun _ => rfl
    | none =>
      obtain ⟨depth, hkept⟩ := hchange.exists
      obtain ⟨field, hfield, hends⟩ := Pass.resolvePath_eq_none.1 hkept
      refine ends_firstChange fun pass hpass => ?_
      refine hpasses (Context.field_eq_ok.1 hfield) (hends.imp_right And.right) pass ?_
      exact hrest ▸ mem_cons_of_mem _ hpass
  unfold stepCondition
  simp only [mark_contextAt]
  refine .bind hfirst fun change _ => ?_
  obtain _ | ⟨name, d⟩ := change
  · exact .of_ok fun _ => rfl
  · exact .bind (.of_ok fun _ => rfl) fun _ _ => .of_ok fun _ => rfl

end Optimizer

end QueryDomain
