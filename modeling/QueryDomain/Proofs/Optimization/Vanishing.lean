import QueryDomain.Proofs.Optimization.AskedFor

/-! Conditions that are taken for true at the search level, because their field cannot be searched:
what the basic passes make of them on the way there is followed change by change. -/
namespace QueryDomain

open List

/-- A computed field that is not inherited and has neither a search hook nor SQL of its own. -/
structure Field.IsUnsearchable (field : Field) : Prop where
  computed : field.stored = false
  noSql : field.sqlHook = none
  noId : field.name ≠ Entity.idName
  own : field.delegatedVia = none
  noHook : field.searchHook = none

namespace Domain

open Optimizer

variable {catalog : Catalog} {entity : Entity} {d : Domain} {n m : Nat}

/-- Optimized for searching, the domain is found to be true after a number of changes. -/
def Vanishes (catalog : Catalog) (entity : Entity) (n : Nat) (d : Domain) : Prop :=
  ∃ depth, (standard.settle (standard.contextAt catalog depth .search entity) n d).result =
    .ok (.constant true)

namespace Vanishes

theorem mono (h : d.Vanishes catalog entity n) (hle : n ≤ m) : d.Vanishes catalog entity m := by
  obtain ⟨depth, h⟩ := h
  exact ⟨depth, settle_of_le hle h⟩

theorem node (h : d.Vanishes catalog entity n) (hle : n ≤ standard.maxIterations) :
    ∃ depth, (node catalog depth standard .search entity d).result = .ok (.constant true) := by
  obtain ⟨depth, h⟩ := h
  exact ⟨depth + 1, by rw [node_succ]; exact settle_of_le hle h⟩

theorem of_true : (constant true).Vanishes catalog entity n := by
  refine ⟨0, ?_⟩
  rw [settle_turn]
  exact .inr (.inl ⟨rfl, rfl⟩)

theorem of_changed {depth : Nat} {next : Domain} (hmark : d.mark? = none)
    (hstep : (standard.step (standard.contextAt catalog depth .search entity) d).result =
      .ok (.changed next))
    (h : next.Vanishes catalog entity n) : d.Vanishes catalog entity (n + 1) := by
  obtain ⟨depth', h⟩ := h
  have hcovered :
      covered (standard.contextAt catalog (max depth depth') .search entity) d = false := by
    rw [covered, hmark]
  have hctx : ∀ {fewer}, fewer ≤ max depth depth' →
      (standard.contextAt catalog fewer .search entity).Le
        (standard.contextAt catalog (max depth depth') .search entity) :=
    contextAt_le
  have hle := step_le (hctx (Nat.le_max_left ..)) d (by rw [hstep]; simp)
  have hle' := settle_le (hctx (Nat.le_max_right ..)) n next (by rw [h]; simp)
  refine ⟨max depth depth', ?_⟩
  rw [settle_of_changed hcovered (hle.trans hstep), hle', h]

end Vanishes

theorem apply_true {k : Connective} {ds : List Domain} (hsome : ds ≠ [])
    (h : ∀ d ∈ ds, d = .constant true) : k.apply ds = .constant true := by
  cases k with
  | or =>
    cases ds with
    | nil => exact absurd rfl hsome
    | cons d ds =>
      rw [h d (mem_cons_self ..)]
      rfl
  | and =>
    have hcollected : Connective.and.collect? ds = some [] := by
      clear hsome
      induction ds with
      | nil => rfl
      | cons d ds ih =>
        rw [forall_mem_cons] at h
        rw [h.1, Connective.collect?, ih h.2]
        rfl
    rw [Connective.apply, hcollected]
    rfl

theorem vanishes_nary {k : Connective} {children : List Domain} (hsome : children ≠ [])
    (hle : n ≤ standard.maxIterations) (h : ∀ e ∈ children, e.Vanishes catalog entity n) :
    (nary k children none).Vanishes catalog entity m := by
  have hdepth : ∃ depth, ∀ e ∈ children,
      (Optimizer.node catalog depth standard .search entity e).result = .ok (.constant true) :=
    exists_common_bound (fun hle h => node_of_le hle h) fun e he => (h e he).node hle
  obtain ⟨depth, hdepth⟩ := hdepth
  have hjoined : sortedJoin k (children.map fun _ => .constant true) = .constant true := by
    have htrue : k.apply (children.map fun _ => .constant true) = .constant true :=
      apply_true (by simpa using hsome) (by simp)
    rw [sortedJoin, htrue]
    rfl
  have hrebuilt : (rebuild k (standard.contextAt catalog depth .search entity) children).result =
      .ok (.constant true) := by
    refine rebuild_eq_ok.2 ⟨children.map fun _ => .constant true, ?_, hjoined.symm⟩
    rw [forall₂_map_right_iff, forall₂_same]
    exact hdepth
  refine ⟨depth, settle_turn.2 (.inr (.inl ⟨rfl, ?_⟩))⟩
  change (standard.stepNary k _ standard.maxIterations children).result = _
  rw [stepNary.eq_def, Run.result_bind, hrebuilt]
  rfl

/-- What is built of conditions that are found to be true, if it is not false from the start. -/
theorem Over.vanishes {Q : Condition → Prop} (h : d.Over Q) (hopen : ∀ v, d ≠ .constant v)
    (hle : n ≤ standard.maxIterations)
    (hQ : ∀ c, Q c → (Domain.condition c).Vanishes catalog entity n) :
    d.Vanishes catalog entity n := by
  induction h with
  | constant v => exact absurd rfl (hopen v)
  | nary hsome hconstant _ ih =>
    exact vanishes_nary hsome hle fun e he => ih e he (hconstant e he)
  | condition hc => exact hQ _ hc

end Domain

/-- A pattern that is changed and not decided matches what is not set, and has no inverse. -/
theorem Pass.unset_of_patternOperand {ctx : Context} {c : Condition} {d : Domain}
    (h : (patternOperand c ctx).result = .ok (some d)) (hopen : ∀ v, d ≠ .constant v) :
    c.operator.inverse? = none ∧ c.operand.isFalsy = true ∧
      d = .leaf c.path .mem (.set .unset) := by
  unfold patternOperand at h
  split at h
  · rename_i value hvalue
    split at h
    · rename_i hfalsy
      split at h
      · rename_i hop
        exact ⟨by rw [hop]; rfl, by rw [hvalue]; exact hfalsy, by simpa [eq_comm] using h⟩
      · rename_i hop
        exact ⟨by rw [hop]; rfl, by rw [hvalue]; exact hfalsy, by simpa [eq_comm] using h⟩
      all_goals exact absurd (by simpa [eq_comm] using h) (hopen _)
    · split at h <;> cases h
  · cases h

theorem Pass.result_labels {ctx : Context} {c : Condition} {field : Field} {comodel : Entity}
    {values : ValueSet} (hfield : ctx.field c = .ok field) (hrelational : field.isRelational = true)
    (hplain : c.isDotted = false) (hoperand : c.operand = .set values)
    (hlabels : namesLabels c = true) (hcomodel : ctx.catalog.comodel c field = .ok comodel) :
    (labels c ctx).result = .ok (some (if c.operator = .mem then
        labelledMembers field comodel (values.values.filter isLabel)
          (values.values.filter (not ∘ isLabel))
      else (labelledMembers field comodel (values.values.filter isLabel)
        (values.values.filter (not ∘ isLabel))).negate)) := by
  have hkeep : ¬(!c.operator.isMembership || (values.values.filter isLabel).isEmpty) = true := by
    rw [namesLabels, hoperand] at hlabels
    simpa using hlabels
  unfold labels
  rw [Run.result_bind, Run.result_liftM, hfield]
  simp only [Except.bind, hoperand, partition_eq_filter_filter]
  rw [if_neg (by simp [hrelational, hplain]), if_neg hkeep, Run.result_bind, Run.result_liftM,
    hcomodel]
  rfl

namespace Optimizer

variable {ctx ctx' : Context} {c : Condition} {passes more : List NamedPass}

theorem firstChange_append_of_none (h : (firstChange c ctx passes).result = .ok none) :
    (firstChange c ctx (passes ++ more)).result = (firstChange c ctx more).result := by
  induction passes with
  | nil => rfl
  | cons pass passes ih =>
    obtain ⟨x, hx, h⟩ := Run.result_bind_eq_ok.1 h
    cases x with
    | none =>
      rw [cons_append, firstChange, Run.result_bind, hx]
      exact ih h
    | some d => cases h

theorem firstChange_append_of_some {x : String × Domain}
    (h : (firstChange c ctx passes).result = .ok (some x)) :
    (firstChange c ctx (passes ++ more)).result = .ok (some x) := by
  induction passes with
  | nil => cases h
  | cons pass passes ih =>
    obtain ⟨y, hy, h⟩ := Run.result_bind_eq_ok.1 h
    rw [cons_append, firstChange, Run.result_bind, hy]
    cases y with
    | none => exact ih h
    | some d => exact h

theorem firstChange_congr
    (h : ∀ pass ∈ passes, (pass.run c ctx').result = (pass.run c ctx).result) :
    (firstChange c ctx' passes).result = (firstChange c ctx passes).result := by
  induction passes with
  | nil => rfl
  | cons pass passes ih =>
    rw [forall_mem_cons] at h
    rw [firstChange, firstChange, Run.result_bind, Run.result_bind, h.1]
    cases (pass.run c ctx).result with
    | error e => rfl
    | ok x =>
      cases x with
      | none => exact ih h.2
      | some d => rfl

theorem step_of_firstChange (name : String) {d : Domain}
    (h : (firstChange c ctx (standard.candidates ctx c)).result = .ok (some (name, d))) :
    (standard.step ctx (.condition c)).result = .ok (.changed d) := by
  change (standard.stepCondition ctx c).result = _
  rw [stepCondition, Run.result_bind, h]
  rfl

section Levels

variable {catalog : Catalog} {entity : Entity} {field : Field} {depth : Nat}

theorem candidates_search (catalog : Catalog) (entity : Entity) (depth : Nat) (c : Condition) :
    ∃ rest, standard.candidates (standard.contextAt catalog depth .search entity) c =
      standard.candidates (standard.contextAt catalog depth .basic entity) c ++
        ⟨"delegated_field", Pass.inheritedField⟩ :: ⟨"non_stored_field", Pass.computedField⟩ ::
          rest := by
  have hsearch : ∃ rest, Registry.standard.passesFor .search c.operator (entity.headType? c.path) =
      ⟨"delegated_field", Pass.inheritedField⟩ :: ⟨"non_stored_field", Pass.computedField⟩ ::
        rest :=
    ⟨_, rfl⟩
  obtain ⟨rest, hrest⟩ := hsearch
  refine ⟨rest, ?_⟩
  rw [← hrest]
  change Registry.passesFor _ .basic _ _ ++ (Registry.passesFor _ .search _ _ ++ []) =
    (Registry.passesFor _ .basic _ _ ++ []) ++ _
  rw [append_nil, append_nil]
  rfl

theorem exists_candidates_search {before more : List NamedPass} {pass : NamedPass}
    (h : standard.candidates (standard.contextAt catalog depth .basic entity) c =
      before ++ pass :: more) :
    ∃ after, standard.candidates (standard.contextAt catalog depth .search entity) c =
      before ++ pass :: after := by
  obtain ⟨rest, hrest⟩ := candidates_search catalog entity depth c
  rw [h, append_assoc, cons_append] at hrest
  exact ⟨_, hrest⟩

theorem step_of_kept (hfield : entity.field? c.head = some field)
    (hunsearchable : field.IsUnsearchable)
    (h : ∀ pass ∈ standard.candidates (standard.contextAt catalog depth .basic entity) c,
      (pass.run c (standard.contextAt catalog depth .search entity)).result = .ok none) :
    (standard.step (standard.contextAt catalog depth .search entity) (.condition c)).result =
      .ok (.changed (.constant true)) := by
  have hctx : (standard.contextAt catalog depth .search entity).field c = .ok field :=
    Context.field_eq_ok.2 hfield
  obtain ⟨rest, hrest⟩ := candidates_search catalog entity depth c
  have hinherited := Pass.inheritedField_eq_none.2 ⟨field, hctx, hunsearchable.own⟩
  have hcomputed : (Pass.computedField c (standard.contextAt catalog depth .search entity)).result =
      .ok (some (.constant true)) := by
    unfold Pass.computedField
    rw [Run.result_bind, Run.result_liftM, hctx]
    simp [Except.bind, hunsearchable.computed, hunsearchable.noSql, hunsearchable.noId,
      hunsearchable.own, hunsearchable.noHook]
  refine step_of_firstChange "non_stored_field" ?_
  rw [hrest, firstChange_append_of_none (firstChange_eq_none.2 h), firstChange, Run.result_bind,
    hinherited]
  change (firstChange c _ _).result = _
  rw [firstChange, Run.result_bind, hcomputed]
  rfl

theorem run_search (hflat : c.operator.isTraversal = true → ∃ query, c.operand = .query query)
    {pass : NamedPass}
    (hmem : pass ∈ standard.candidates (standard.contextAt catalog depth .basic entity) c) :
    (pass.run c (standard.contextAt catalog depth .search entity)).result =
      (pass.run c (standard.contextAt catalog depth .basic entity)).result := by
  obtain ⟨entry, hentry, -, hcovers, rfl⟩ := mem_candidates.1 hmem
  cases Registry.isStandard_of_mem hentry with
  | relatedDomain =>
    obtain ⟨query, hquery⟩ :=
      hflat (Operator.mem_traversals.1 (PassScope.covers_operators.1 hcovers))
    change (Pass.relatedDomain _ _).result = (Pass.relatedDomain _ _).result
    unfold Pass.relatedDomain
    rw [hquery]
    rfl
  | _ => rfl

theorem step_of_replaced {ctx : Context} {before after : List NamedPass} {pass : NamedPass}
    {d : Domain} (hsplit : standard.candidates ctx c = before ++ pass :: after)
    (hbefore : ∀ earlier ∈ before, (earlier.run c ctx).result = .ok none)
    (hpass : (pass.run c ctx).result = .ok (some d)) :
    (standard.step ctx (.condition c)).result = .ok (.changed d) := by
  refine step_of_firstChange pass.name ?_
  rw [hsplit, firstChange_append_of_none (firstChange_eq_none.2 hbefore), firstChange,
    Run.result_bind, hpass]
  rfl

variable {n : Nat} (hmark : c.mark = none)

include hmark

theorem vanishes_of_kept (depth : Nat) (hfield : entity.field? c.head = some field)
    (hunsearchable : field.IsUnsearchable)
    (h : ∀ pass ∈ standard.candidates (standard.contextAt catalog depth .basic entity) c,
      (pass.run c (standard.contextAt catalog depth .search entity)).result = .ok none) :
    (Domain.condition c).Vanishes catalog entity 1 :=
  .of_changed hmark (step_of_kept hfield hunsearchable h) .of_true

section Flat

variable (hflat : c.operator.isTraversal = true → ∃ query, c.operand = .query query)

include hflat

theorem vanishes_of_done (hfield : entity.field? c.head = some field)
    (hunsearchable : field.IsUnsearchable) {d : Domain}
    (h : (standard.step (standard.contextAt catalog depth .basic entity) (.condition c)).result =
      .ok (.done d)) :
    (Domain.condition c).Vanishes catalog entity 1 := by
  obtain ⟨-, hkept⟩ | ⟨before, pass, after, next, hs, -⟩ := stepCondition_eq_ok h
  · refine vanishes_of_kept hmark depth hfield hunsearchable fun pass hmem => ?_
    rw [run_search hflat hmem]
    exact hkept pass hmem
  · cases hs

theorem vanishes_of_changed {next : Domain}
    (h : (standard.step (standard.contextAt catalog depth .basic entity) (.condition c)).result =
      .ok (.changed next))
    (hnext : next.Vanishes catalog entity n) :
    (Domain.condition c).Vanishes catalog entity (n + 1) := by
  obtain ⟨x, hx, hs⟩ := Run.result_bind_eq_ok.1 h
  cases x with
  | none => cases hs
  | some change =>
    cases hs
    have hfirst : (firstChange c (standard.contextAt catalog depth .search entity)
        (standard.candidates (standard.contextAt catalog depth .search entity) c)).result =
          .ok (some change) := by
      obtain ⟨rest, hrest⟩ := candidates_search catalog entity depth c
      rw [hrest]
      refine firstChange_append_of_some ?_
      rw [firstChange_congr fun pass hmem => run_search hflat hmem]
      exact hx
    exact .of_changed hmark (step_of_firstChange change.1 hfirst) hnext

end Flat

theorem vanishes_of_isKept (hfield : entity.field? c.head = some field)
    (hunsearchable : field.IsUnsearchable) (hinner : ∀ inner, c.operand ≠ .domain inner)
    (h : c.Kept catalog .basic entity) : (Domain.condition c).Vanishes catalog entity 1 := by
  refine vanishes_of_kept hmark 0 hfield hunsearchable fun pass hmem => ?_
  obtain ⟨entry, hentry, hlevel, hcovers, rfl⟩ := mem_candidates.1 hmem
  refine Pass.keeps_of_still hentry hcovers (fun inner _ hoperand => absurd hoperand (hinner inner))
    ?_
  exact Condition.run_level .basic entry hentry ▸ h entry hentry hlevel hcovers

end Levels

section Single

variable {catalog : Catalog} {entity : Entity} {field : Field} {depth : Nat}

theorem candidates_basic (catalog : Catalog) (entity : Entity) (depth : Nat) (c : Condition) :
    standard.candidates (standard.contextAt catalog depth .basic entity) c =
      Registry.standard.passesFor .basic c.operator (entity.headType? c.path) :=
  append_nil _

theorem candidates_traversal (hop : c.operator.isTraversal = true) {type : FieldType}
    (htype : entity.headType? c.path = some type) (hrelational : type.isRelational = true) :
    ∃ more, standard.candidates (standard.contextAt catalog depth .basic entity) c =
      [⟨"resolve_field", Pass.resolvePath⟩] ++ ⟨"traverse_relation", Pass.relatedDomain⟩ :: more ∧
      ∀ pass ∈ more, pass = ⟨"x2many_membership", Pass.manyMembers⟩ := by
  rw [candidates_basic, htype]
  obtain hop | hop := Operator.eq_of_isTraversal hop <;> rw [hop] <;>
    cases type <;> cases hrelational
  all_goals first
    | exact ⟨[], rfl, nofun⟩
    | exact ⟨[_], rfl, fun _ => mem_singleton.1⟩

theorem candidates_x2many (hop : c.operator.isMembership = true) {type : FieldType}
    (htype : entity.headType? c.path = some type) (hmany : type.isX2Many = true) :
    standard.candidates (standard.contextAt catalog depth .basic entity) c =
      [⟨"resolve_field", Pass.resolvePath⟩, ⟨"membership_value", Pass.membershipOperand⟩,
        ⟨"search_by_label", Pass.labels⟩] ++ ⟨"x2many_membership", Pass.manyMembers⟩ :: [] := by
  rw [candidates_basic, htype]
  obtain hop | hop := Operator.eq_of_isMembership hop <;> rw [hop] <;> cases type <;>
    cases hmany <;> rfl

theorem candidates_many2one (hop : c.operator.isMembership = true)
    (htype : entity.headType? c.path = some .many2one) :
    standard.candidates (standard.contextAt catalog depth .basic entity) c =
      [⟨"resolve_field", Pass.resolvePath⟩, ⟨"membership_value", Pass.membershipOperand⟩,
        ⟨"search_by_label", Pass.labels⟩] := by
  rw [candidates_basic, htype]
  obtain hop | hop := Operator.eq_of_isMembership hop <;> rw [hop] <;> rfl

theorem candidates_of_pattern (ctx : Context) (h : c.operator.isPattern = true) :
    ∃ rest, standard.candidates ctx c = [⟨"resolve_field", Pass.resolvePath⟩,
      ⟨"validate_pattern", Pass.patternOperand⟩] ++ ⟨"search_by_label", Pass.labels⟩ :: rest := by
  cases hop : c.operator <;> rw [hop] at h <;> cases h
  all_goals
    cases hlevel : ctx.level <;> exact ⟨_, by unfold candidates; rw [hlevel, hop]; rfl⟩

variable (hfield : entity.field? c.head = some field) (hunsearchable : field.IsUnsearchable)

include hfield

theorem headType?_of_field : entity.headType? c.path = some field.type :=
  congrArg (Option.map Field.type) hfield

include hunsearchable

theorem isRelational_of_target? {target : Entity}
    (htarget : catalog.target? entity c.path = some target) : field.type.isRelational = true := by
  change entity.field? (Text.cut '.' c.path).1 = some field at hfield
  rw [Catalog.target?, hfield, Option.bind_some, if_neg hunsearchable.noId] at htarget
  split at htarget
  · assumption
  · cases htarget

theorem entity?_of_target? {target : Entity}
    (htarget : catalog.target? entity c.path = some target) :
    catalog.entity? target.name = some target :=
  Catalog.entity?_of_comodel (Catalog.comodel_of_target? hfield hunsearchable.noId htarget).2

variable (hmark : c.mark = none) (hplain : c.isDotted = false)

include hmark hplain

omit hunsearchable hmark in
theorem members_kept {level : Level} {values : ValueSet} (hoperand : c.operand = .set values)
    (hsome : values.isEmpty = false) (hlabels : Pass.namesLabels c = false) :
    ∀ earlier ∈ [⟨"resolve_field", Pass.resolvePath⟩,
      ⟨"membership_value", Pass.membershipOperand⟩, ⟨"search_by_label", Pass.labels⟩],
      (NamedPass.run earlier c (standard.contextAt catalog depth level entity)).result =
        .ok none := by
  have hctx : (standard.contextAt catalog depth level entity).field c = .ok field :=
    Context.field_eq_ok.2 hfield
  refine forall_mem_cons.2 ⟨?_, forall_mem_cons.2 ⟨?_, forall_mem_singleton.2 ?_⟩⟩
  · exact Pass.resolvePath_eq_none.2 ⟨field, hctx, .inl (Condition.rest?_eq_none.2 hplain)⟩
  · change (Pass.membershipOperand c (standard.contextAt catalog depth level entity)).result = _
    exact Pass.membershipOperand_eq_none.2 ⟨values, hoperand, hsome⟩
  · exact Pass.labels_eq_none.2 ⟨field, hctx, .inr (.inr hlabels)⟩

theorem vanishes_many2one (htype : field.type = .many2one) (hop : c.operator.isMembership = true)
    {values : ValueSet} (hoperand : c.operand = .set values) (hsome : values.isEmpty = false)
    (hlabels : Pass.namesLabels c = false) : (Domain.condition c).Vanishes catalog entity 1 := by
  refine vanishes_of_kept hmark 0 hfield hunsearchable ?_
  rw [candidates_many2one hop ((headType?_of_field hfield).trans (congrArg some htype))]
  exact members_kept hfield hplain hoperand hsome hlabels

section Traversal

variable (hop : c.operator.isTraversal = true) {inner : Domain} {target : Entity}
  (hoperand : c.operand = .domain inner) (htarget : catalog.target? entity c.path = some target)

include hop hoperand htarget

omit hoperand in
theorem vanishes_of_relatedDomain (hset : ∀ values, c.operand ≠ .set values)
    (hkept : (Pass.relatedDomain c (standard.contextAt catalog depth .search entity)).result =
      .ok none) : (Domain.condition c).Vanishes catalog entity 1 := by
  obtain ⟨more, hmore, hmany⟩ := @candidates_traversal c catalog entity depth hop _
    (headType?_of_field hfield) (isRelational_of_target? hfield hunsearchable htarget)
  refine vanishes_of_kept hmark depth hfield hunsearchable ?_
  rw [hmore]
  refine forall_mem_cons.2 ⟨?_, forall_mem_cons.2 ⟨hkept, fun pass hmem => ?_⟩⟩
  · exact Pass.resolvePath_eq_none.2
      ⟨field, Context.field_eq_ok.2 hfield, .inl (Condition.rest?_eq_none.2 hplain)⟩
  · rw [hmany pass hmem]
    change (Pass.manyMembers c (standard.contextAt catalog depth .search entity)).result = _
    exact Pass.manyMembers_eq_none.2 fun values hvalues => absurd hvalues (hset values)

theorem vanishes_of_stays {optimized : Domain}
    (hnested : (node catalog depth standard .search target inner).result = .ok optimized)
    (hfalse : optimized.isFalse = false)
    (htrue : (optimized.isTrue && field.type == .many2one) = false)
    (hsame : optimized.same inner = true) : (Domain.condition c).Vanishes catalog entity 1 := by
  have hctx : (standard.contextAt catalog depth .search entity).field c = .ok field :=
    Context.field_eq_ok.2 hfield
  have htarget' := (Context.target_eq_ok hctx).2 htarget
  refine vanishes_of_relatedDomain hfield hunsearchable hmark hplain hop htarget (by simp [hoperand])
    (Pass.relatedDomain_eq_none.2 ⟨field, target, hctx, htarget', ?_⟩)
  exact .inr ⟨inner, optimized, hoperand, hnested, hfalse, htrue, hsame⟩

theorem vanishes_traversal (hrests : inner.Rests catalog target) :
    (Domain.condition c).Vanishes catalog entity 2 := by
  have hentity := entity?_of_target? hfield hunsearchable htarget
  obtain ⟨depth, optimized, again, hopen, hnested, hagain, hstays⟩ := hrests.exists_stays hentity
  have hctx : (standard.contextAt catalog depth .search entity).field c = .ok field :=
    Context.field_eq_ok.2 hfield
  have hfalse : optimized.isFalse = false := by
    cases optimized with
    | constant v =>
      cases v with
      | true => rfl
      | false => exact absurd rfl hopen
    | _ => rfl
  have hcanonical := Domain.same_iff.1 hstays
  have hfalse' : again.isFalse = false := by
    rw [← Domain.isFalse_canonical, hcanonical, Domain.isFalse_canonical, hfalse]
  have htrue' : again.isTrue = optimized.isTrue := by
    rw [← Domain.isTrue_canonical, hcanonical, Domain.isTrue_canonical]
  have hpath : field.name = c.path := (Entity.name_of_field? hfield).trans
    (Text.cut_fst_of_none (Condition.rest?_eq_none.2 hplain))
  have hchanged : ∀ {d}, (Pass.relatedDomain c (standard.contextAt catalog depth .search
      entity)).result = .ok (some d) → d.Vanishes catalog entity 1 →
      (Domain.condition c).Vanishes catalog entity 2 := by
    intro d hd hvanishes
    obtain ⟨more, hmore, -⟩ := @candidates_traversal c catalog entity depth hop _
      (headType?_of_field hfield) (isRelational_of_target? hfield hunsearchable htarget)
    obtain ⟨after, hafter⟩ := exists_candidates_search hmore
    refine .of_changed hmark (step_of_replaced hafter (forall_mem_singleton.2 ?_) hd) hvanishes
    exact Pass.resolvePath_eq_none.2 ⟨field, hctx, .inl (Condition.rest?_eq_none.2 hplain)⟩
  have hresult := Pass.result_relatedDomain hctx ((Context.target_eq_ok hctx).2 htarget) hoperand
    hnested
  rw [hfalse, if_neg Bool.false_ne_true] at hresult
  split at hresult
  · rename_i htrue
    rw [Bool.and_eq_true, beq_iff_eq] at htrue
    rw [hpath] at hresult
    refine hchanged hresult (vanishes_many2one (c := ⟨c.path, _, .set .unset, none⟩) hfield
      hunsearchable rfl hplain htrue.2 ?_ rfl rfl (namesLabels_eq_false rfl Pass.isLabel_unset))
    split <;> rfl
  · rename_i htrue
    rw [Bool.not_eq_true] at htrue
    split at hresult
    · rename_i hsame
      exact (vanishes_of_stays hfield hunsearchable hmark hplain hop hoperand htarget hnested hfalse
        htrue hsame).mono (by decide)
    · exact hchanged hresult (vanishes_of_stays (c := c.withOperand (.domain optimized)) hfield
        hunsearchable rfl hplain hop rfl htarget hagain hfalse' (htrue' ▸ htrue) hstays)

end Traversal

theorem vanishes_members (hrelational : field.isRelational = true)
    (hop : c.operator.isMembership = true) {values : ValueSet} (hoperand : c.operand = .set values)
    (hsome : values.isEmpty = false) (hlabels : Pass.namesLabels c = false)
    (hanswered : c.IsAnswered catalog entity) : (Domain.condition c).Vanishes catalog entity 3 := by
  have hheadType := headType?_of_field hfield
  cases hmany : field.type.isX2Many with
  | false =>
    have htype : field.type = .many2one := by
      rw [Field.isRelational] at hrelational
      cases htype : field.type <;> rw [htype] at hrelational hmany <;> first
        | rfl
        | cases hmany; done
        | cases hrelational
    exact (vanishes_many2one hfield hunsearchable hmark hplain htype hop hoperand hsome
      hlabels).mono (by decide)
  | true =>
    have hselects := Operator.selects_of_isMembership hop
    have hids : values.values.filter (fun v => !v.isNull) =
        c.operand.literals.filter fun v => !Pass.isLabel v && !v.isNull := by
      rw [hoperand]
      refine filter_congr fun v hv => ?_
      simp only [Pass.namesLabels, hoperand, hop, Bool.true_and, any_eq_false] at hlabels
      simp [hlabels v hv]
    have hresult : (Pass.manyMembers c (standard.contextAt catalog 0 .search entity)).result =
        .ok (some (if c.operator = .mem then .or (Pass.manyParts c values)
          else (Domain.or (Pass.manyParts c values)).negate)) := by
      unfold Pass.manyMembers
      rw [hoperand]
      dsimp only
      rw [if_neg (by simp [hplain, hop])]
      rfl
    obtain ⟨after, hafter⟩ :=
      exists_candidates_search (@candidates_x2many c catalog entity 0 hop _ hheadType hmany)
    have hsplit := Domain.Over.either (p := c.operator = .mem) (d := .or (Pass.manyParts c values))
      (fun _ => Pass.Related.inverse hplain)
      ⟨.apply fun e he => (Pass.over_manyParts e he).1,
        Domain.Over.apply_ne_constant (Pass.manyParts_ne_nil hsome) Pass.over_manyParts⟩
    refine .of_changed hmark (step_of_replaced hafter
      (members_kept hfield hplain hoperand hsome hlabels) hresult)
      (hsplit.1.vanishes hsplit.2 (by decide) ?_)
    rintro c' (⟨hop', ⟨hnull, rfl⟩ | ⟨hids', rfl⟩⟩ | ⟨-, hfalse⟩)
    · obtain ⟨target, htarget, hrests⟩ := hanswered _ (.present hplain hheadType hmany (by
        rw [hoperand, hselects]
        exact Bool.or_eq_true_iff.2 (.inl hnull)))
      exact vanishes_traversal hfield hunsearchable rfl hplain hop' rfl htarget hrests
    · rw [hids] at hids' ⊢
      obtain ⟨target, htarget, hrests⟩ := hanswered _ (.ids hplain hheadType hmany hselects hids')
      exact vanishes_traversal hfield hunsearchable rfl hplain hop' rfl htarget hrests
    · exact hfalse.elim

theorem vanishes_labelled {target : Entity} (htarget : catalog.target? entity c.path = some target)
    (hop : c.operator.isMembership = true) {values : ValueSet} (hoperand : c.operand = .set values)
    (hlabels : Pass.namesLabels c = true) (hanswered : c.IsAnswered catalog entity) :
    (Domain.condition c).Vanishes catalog entity 4 := by
  have hctx : (standard.contextAt catalog 0 .search entity).field c = .ok field :=
    Context.field_eq_ok.2 hfield
  have hselects := Operator.selects_of_isMembership hop
  have hpath : field.name = c.path := (Entity.name_of_field? hfield).trans
    (Text.cut_fst_of_none (Condition.rest?_eq_none.2 hplain))
  obtain ⟨hrelational, hcomodel⟩ := Catalog.comodel_of_target? hfield hunsearchable.noId htarget
  have hany : values.values.any Pass.isLabel = true := by
    simpa [Pass.namesLabels, hoperand, hop] using hlabels
  obtain ⟨v, hv, hlabel⟩ := any_eq_true.1 hany
  have hsome : values.values.filter Pass.isLabel ≠ [] := ne_nil_of_mem (mem_filter.2 ⟨hv, hlabel⟩)
  have hempty : values.isEmpty = false := by
    simpa [ValueSet.isEmpty] using ne_nil_of_mem hv
  have hresult := Pass.result_labels hctx hrelational hplain hoperand hlabels hcomodel
  obtain ⟨rest, hrest⟩ :=
    @candidates_of_membership (standard.contextAt catalog 0 .search entity) c hop
  have hsplit : standard.candidates (standard.contextAt catalog 0 .search entity) c =
      [⟨"resolve_field", Pass.resolvePath⟩, ⟨"membership_value", Pass.membershipOperand⟩] ++
        ⟨"search_by_label", Pass.labels⟩ :: rest := hrest
  have hmembers := Pass.over_labelledMembers field target (values.values.filter Pass.isLabel)
    (values.values.filter (not ∘ Pass.isLabel))
  rw [hpath] at hmembers
  have hboth := Domain.Over.either (p := c.operator = .mem)
    (fun _ => Pass.Related.inverse hplain) hmembers
  refine .of_changed hmark (step_of_replaced hsplit (forall_mem_cons.2 ⟨?_, forall_mem_singleton.2
    ?_⟩) hresult) (hboth.1.vanishes hboth.2 (by decide) ?_)
  · exact Pass.resolvePath_eq_none.2 ⟨field, hctx, .inl (Condition.rest?_eq_none.2 hplain)⟩
  · change (Pass.membershipOperand c (standard.contextAt catalog 0 .search entity)).result = _
    exact Pass.membershipOperand_eq_none.2 ⟨values, hoperand, hempty⟩
  rintro c' (⟨hop', rfl⟩ | ⟨hop', hids, rfl⟩)
  · obtain ⟨target', htarget', hrests⟩ := hanswered _ (.labels hplain htarget hselects
      (by rw [hoperand]; exact hsome))
    rw [hoperand] at hrests
    exact .mono (n := 2) (vanishes_traversal hfield hunsearchable rfl hplain hop' rfl htarget'
      hrests) (by decide)
  · refine vanishes_members hfield hunsearchable rfl hplain hrelational hop' rfl ?_ ?_
      (hanswered.identified hplain hselects hop' hoperand)
    · rw [ValueSet.isEmpty_ofList]
      simpa using hids
    · refine namesLabels_eq_false rfl fun v hv => ?_
      simpa using of_mem_filter ((ValueSet.fresh_sublist [] _).mem hv)

theorem vanishes_pattern {target : Entity} (htarget : catalog.target? entity c.path = some target)
    (hop : c.operator.isPattern = true) {label : String}
    (hoperand : c.operand = .scalar (.text label)) (hsome : label.isEmpty = false)
    (hanswered : c.IsAnswered catalog entity) : (Domain.condition c).Vanishes catalog entity 3 := by
  have hctx : (standard.contextAt catalog 0 .search entity).field c = .ok field :=
    Context.field_eq_ok.2 hfield
  have hpath : field.name = c.path := (Entity.name_of_field? hfield).trans
    (Text.cut_fst_of_none (Condition.rest?_eq_none.2 hplain))
  obtain ⟨hrelational, hcomodel⟩ := Catalog.comodel_of_target? hfield hunsearchable.noId htarget
  have hresult : (Pass.labels c (standard.contextAt catalog 0 .search entity)).result =
      .ok (some (Pass.traversal c.path (if c.operator.isNegative then .notAny else .any)
        (.leaf target.recName c.operator.positive c.operand))) := by
    unfold Pass.labels
    rw [Run.result_bind, Run.result_liftM, hctx]
    simp only [Except.bind, hoperand]
    rw [if_neg (by simp [hrelational, hplain]), if_neg (by simp [hop]), Run.result_bind,
      Run.result_liftM, hpath]
    change (Except.bind (catalog.comodel c field) _) = _
    rw [hcomodel]
    rfl
  obtain ⟨rest, hrest⟩ := candidates_of_pattern (standard.contextAt catalog 0 .search entity) hop
  obtain ⟨target', htarget', hrests⟩ := hanswered _ (.pattern hplain htarget hop hoperand hsome)
  refine .of_changed hmark (step_of_replaced hrest
    (forall_mem_cons.2 ⟨?_, forall_mem_singleton.2 ?_⟩) hresult)
    (vanishes_traversal (c := ⟨c.path, _, .domain _, none⟩) hfield hunsearchable rfl hplain ?_ rfl
      htarget' hrests)
  · exact Pass.resolvePath_eq_none.2 ⟨field, hctx, .inl (Condition.rest?_eq_none.2 hplain)⟩
  · change (Pass.patternOperand c (standard.contextAt catalog 0 .search entity)).result = _
    exact Pass.patternOperand_eq_none.2 ⟨label, hoperand, hsome⟩
  · split <;> rfl

omit hplain in
theorem vanishes_crossed {rest : String} (hrest : c.rest? = some rest)
    (hrelational : field.isRelational = true) (hanswered : c.IsAnswered catalog entity) :
    (Domain.condition c).Vanishes catalog entity 3 := by
  have hctx : (standard.contextAt catalog 0 .search entity).field c = .ok field :=
    Context.field_eq_ok.2 hfield
  have hhead : (Text.cut '.' field.name).1 = (Text.cut '.' c.path).1 := by
    rw [Entity.name_of_field? hfield]
    exact Text.cut_fst_of_none Text.cut_cut_fst
  obtain ⟨target, htarget, hrests⟩ := hanswered _ (.rest hfield hrelational hrest)
  have htarget' : catalog.target? entity field.name = some target := by
    rw [Catalog.target?, hhead]
    exact htarget
  have hresult : (Pass.resolvePath c (standard.contextAt catalog 0 .search entity)).result =
      .ok (some (Pass.traversal field.name .any (.leaf rest c.operator c.operand))) := by
    unfold Pass.resolvePath
    rw [Run.result_bind, Run.result_liftM, hctx]
    simp only [Except.bind, hrest]
    rw [if_pos hrelational]
    rfl
  obtain ⟨after, hafter⟩ := candidates_eq_cons (standard.contextAt catalog 0 .search entity) c
  have hsplit : standard.candidates (standard.contextAt catalog 0 .search entity) c =
      [] ++ ⟨"resolve_field", Pass.resolvePath⟩ :: after := hafter
  have hdirect : (⟨field.name, .any, .domain (.leaf rest c.operator c.operand), none⟩ :
      Condition).isDotted = false :=
    @not_isDotted_of_field (standard.contextAt catalog 0 .search entity) c field hfield ..
  refine .of_changed hmark (step_of_replaced hsplit (forall_mem_nil _) hresult)
    (vanishes_traversal (c := ⟨field.name, .any, .domain _, none⟩) ?_ hunsearchable rfl
      hdirect rfl rfl htarget' hrests)
  change entity.field? (Text.cut '.' field.name).1 = _
  rw [hhead]
  exact hfield

omit hmark in
theorem vanishes_dated (htype : entity.headType? c.path = some .datetime) {d : Domain}
    (hover : d.Over (Pass.Dated c)) (hopen : ∀ v, d ≠ .constant v) :
    d.Vanishes catalog entity 1 := by
  refine hover.vanishes hopen (by decide) fun c' hc' => ?_
  have hkept : c'.Kept catalog .basic entity :=
    hc'.kept (by decide) (fun h => absurd h (by decide)) htype hplain
  cases hc' with
  | bound | moments => exact vanishes_of_isKept rfl hfield hunsearchable nofun hkept

end Single

end Optimizer

end QueryDomain
