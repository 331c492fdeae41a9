import QueryDomain.Proofs.Optimization.Vanishing

/-! Conditions on a field that cannot be searched. Once no other pass has anything to make of them,
they are taken for true, and so are their inverses; what is asked of related records on the way must
not fail, and must not come to nothing. -/
namespace QueryDomain

open List

namespace Optimizer

variable {c : Condition}

section Basic

variable {catalog : Catalog} {entity : Entity} {field : Field} {depth : Nat}
  (hfield : entity.field? c.head = some field)
  (hresolved : c.rest? = none ∨ (field.isRelational = false ∧ field.type = .json))

theorem run_of_step {ctx : Context} {before after : List NamedPass} {pass : NamedPass} {s : Step}
    (hsplit : standard.candidates ctx c = before ++ pass :: after)
    (hbefore : ∀ earlier ∈ before, (earlier.run c ctx).result = .ok none)
    (h : (standard.step ctx (.condition c)).result = .ok s) :
    ∃ x, (pass.run c ctx).result = .ok x := by
  obtain ⟨y, hy, -⟩ := Run.result_bind_eq_ok.1 h
  rw [hsplit, firstChange_append_of_none (firstChange_eq_none.2 hbefore)] at hy
  obtain ⟨x, hx, -⟩ := Run.result_bind_eq_ok.1 hy
  exact ⟨x, hx⟩

theorem candidates_of_traversal (ctx : Context) (h : c.operator.isTraversal = true) :
    ∃ rest, standard.candidates ctx c = [⟨"resolve_field", Pass.resolvePath⟩] ++
      ⟨"traverse_relation", Pass.relatedDomain⟩ :: rest := by
  obtain hop | hop := Operator.eq_of_isTraversal h
  all_goals
    cases hlevel : ctx.level <;> exact ⟨_, by unfold candidates; rw [hlevel, hop]; rfl⟩

include hresolved in
theorem plain_of_resolved (hrelational : field.isRelational = true) : c.isDotted = false := by
  refine Condition.rest?_eq_none.1 (hresolved.resolve_right fun hjson => ?_)
  cases hjson.1.symm.trans hrelational

include hfield hresolved

theorem resolvePath_kept {level : Level} :
    (Pass.resolvePath c (standard.contextAt catalog depth level entity)).result = .ok none :=
  Pass.resolvePath_eq_none.2 ⟨field, Context.field_eq_ok.2 hfield, hresolved⟩

theorem exists_target_of_step (hop : c.operator.isTraversal = true) {s : Step}
    (h : (standard.step (standard.contextAt catalog depth .basic entity) (.condition c)).result =
      .ok s) :
    ∃ target, catalog.target? entity c.path = some target ∧
      ((∃ query, c.operand = .query query) ∨ ∃ inner, c.operand = .domain inner) := by
  have hctx : (standard.contextAt catalog depth .basic entity).field c = .ok field :=
    Context.field_eq_ok.2 hfield
  obtain ⟨rest, hrest⟩ :=
    candidates_of_traversal (standard.contextAt catalog depth .basic entity) hop
  obtain ⟨x, hx⟩ := run_of_step hrest
    (forall_mem_singleton.2 (resolvePath_kept hfield hresolved)) h
  cases x with
  | none =>
    obtain ⟨field', target, hfield', htarget, hoperand⟩ := Pass.relatedDomain_eq_none.1 hx
    cases hctx.symm.trans hfield'
    exact ⟨target, (Context.target_eq_ok hctx).1 htarget,
      hoperand.imp_right fun h => h.imp fun _ h => h.elim fun _ h => h.1⟩
  | some d =>
    obtain ⟨field', target, inner, -, hfield', htarget, hinner, -⟩ := Pass.relatedDomain_eq_some hx
    cases hctx.symm.trans hfield'
    exact ⟨target, (Context.target_eq_ok hctx).1 htarget, .inr ⟨inner, hinner⟩⟩

theorem exists_target_of_labels (hid : field.name ≠ Entity.idName)
    (hrelational : field.isRelational = true) (hnames : Pass.namesLabels c = true)
    {x : Option Domain}
    (h : (Pass.labels c (standard.contextAt catalog depth .basic entity)).result = .ok x) :
    ∃ target, catalog.target? entity c.path = some target := by
  have hctx : (standard.contextAt catalog depth .basic entity).field c = .ok field :=
    Context.field_eq_ok.2 hfield
  have hplain := plain_of_resolved hresolved hrelational
  have hcomodel : ∀ {next : Entity → Run Error (Option Domain)},
      (liftM (catalog.comodel c field) >>= next).result = .ok x →
      ∃ target, catalog.target? entity c.path = some target := by
    intro next h
    obtain ⟨target, htarget, -⟩ := Run.result_bind_eq_ok.1 h
    exact ⟨target, Catalog.target?_of_comodel hfield hid hrelational htarget⟩
  unfold Pass.labels at h
  rw [Run.result_bind, Run.result_liftM, hctx] at h
  simp only [Except.bind] at h
  rw [if_neg (by simp [hrelational, hplain])] at h
  unfold Pass.namesLabels at hnames
  cases hoperand : c.operand with
  | set values =>
    simp only [hoperand, partition_eq_filter_filter] at h hnames
    rw [if_neg (by simpa using hnames)] at h
    exact hcomodel h
  | scalar value =>
    cases value with
    | text label =>
      simp only [hoperand] at h hnames
      rw [if_neg (by simp [hnames])] at h
      exact hcomodel h
    | _ => simp [hoperand] at hnames
  | _ => simp [hoperand] at hnames

/-- At the basic level, hierarchies are kept or decided. -/
theorem constant_of_hierarchy (hop : c.operator = .childOf ∨ c.operator = .parentOf) {next : Domain}
    (h : (standard.step (standard.contextAt catalog depth .basic entity) (.condition c)).result =
      .ok (.changed next)) :
    ∃ v, next = .constant v := by
  have hmember : c.operator.isMembership = false := by
    obtain hop | hop := hop <;> rw [hop] <;> rfl
  have hcompares : Pass.comparesLiterals c = false := by
    unfold Pass.comparesLiterals
    obtain hop | hop := hop <;> rw [hop] <;> exact Bool.and_false _
  obtain ⟨hs, -⟩ | ⟨before, pass, after, d, hs, hsplit, -, hpass⟩ := stepCondition_eq_ok h
  · cases hs
  cases hs
  have hkept : (pass.run c (standard.contextAt catalog depth .basic entity)).result ≠ .ok none := by
    simp [hpass]
  obtain ⟨entry, hentry, hlevel, hcovers, rfl⟩ := mem_candidates.1 (by rw [hsplit]; simp : pass ∈ _)
  have hoperators : ∀ ops : List Operator, (∀ op ∈ ops, op ≠ .childOf ∧ op ≠ .parentOf) →
      c.operator ∉ ops := by
    intro ops hops hmem
    obtain hop | hop := hop
    · exact (hops _ hmem).1 hop
    · exact (hops _ hmem).2 hop
  cases Registry.isStandard_of_mem hentry
  all_goals dsimp only at hkept hpass
  case resolvePath => exact absurd (resolvePath_kept hfield hresolved) hkept
  case deprecatedOperator | equalityToMembership | membershipOperand | patternOperand | labels |
      relatedDomain =>
    exact absurd (contains_iff_mem.1 hcovers) (hoperators _ (by decide))
  case manyMembers =>
    exact absurd (Pass.manyMembers_eq_none.2 fun _ _ => by simp [hmember]) hkept
  case booleanMembers =>
    exact absurd (Pass.booleanMembers_eq_none.2 fun _ _ hop => by simp [hmember] at hop) hkept
  case dateLiterals =>
    exact absurd (Pass.dateLiterals_eq_none.2 fun hop => by simp [hcompares] at hop) hkept
  case datetimeLiterals =>
    exact absurd (Pass.datetimeLiterals_eq_none.2 fun hop => by simp [hcompares] at hop) hkept
  case numericLiterals =>
    exact absurd (Pass.numericLiterals_eq_none.2 fun hop => by simp [hcompares] at hop) hkept
  case attachmentExists =>
    unfold Pass.attachmentExists at hpass
    simp only [Run.result_bind_eq_ok, hmember, Bool.false_and, Bool.false_eq_true, if_false]
      at hpass
    obtain ⟨field', -, hpass⟩ := hpass
    split at hpass
    · simp at hpass
    · split at hpass <;> exact ⟨true, by simpa [Except.bind, eq_comm] using hpass⟩
  all_goals cases hlevel

variable (hunsearchable : field.IsUnsearchable) (hmark : c.mark = none)
  (hanswered : c.IsAnswered catalog entity) {s : Step}
  (hstep : (standard.step (standard.contextAt catalog depth .basic entity) (.condition c)).result =
    .ok s)

include hunsearchable hmark hanswered hstep

theorem vanishes_pole_traversal (hop : c.operator.isTraversal = true) {c' : Condition}
    (hpole : c.Pole c') : (Domain.condition c').Vanishes catalog entity 2 := by
  obtain ⟨target, htarget, hoperand⟩ := exists_target_of_step hfield hresolved hop hstep
  have hplain := plain_of_resolved hresolved
    (isRelational_of_target? hfield hunsearchable htarget)
  have hfield' : entity.field? c'.head = some field := hpole.head.symm ▸ hfield
  have hplain' : c'.isDotted = false := hpole.isDotted.trans hplain
  have hop' : c'.operator.isTraversal = true := hpole.kinds.2.2.trans hop
  rw [← hpole.path] at htarget
  obtain ⟨query, hquery⟩ | ⟨inner, hinner⟩ := hoperand
  · rw [← hpole.operand] at hquery
    have hctx : (standard.contextAt catalog depth .search entity).field c' = .ok field :=
      Context.field_eq_ok.2 hfield'
    have hkept := Pass.relatedDomain_eq_none.2
      ⟨field, target, hctx, (Context.target_eq_ok hctx).2 htarget, .inl ⟨query, hquery⟩⟩
    exact .mono (n := 1) (vanishes_of_relatedDomain hfield' hunsearchable (hpole.mark hmark) hplain'
      hop' htarget (by simp [hquery]) hkept) (by decide)
  · obtain ⟨target', htarget', hrests⟩ :=
      hanswered inner (.inner hplain (by rw [hop, Bool.true_or]) hinner)
    rw [← hpole.path] at htarget'
    rw [← hpole.operand] at hinner
    exact vanishes_traversal hfield' hunsearchable (hpole.mark hmark) hplain' hop' hinner htarget'
      hrests

variable (hopen : ∀ v, s ≠ .changed (.constant v)) (hrelational : field.isRelational = true)

include hopen hrelational

theorem vanishes_pole_members (hop : c.operator.isMembership = true) {values : ValueSet}
    (hoperand : c.operand = .set values) {c' : Condition} (hpole : c.Pole c') :
    (Domain.condition c').Vanishes catalog entity 4 := by
  have hplain := plain_of_resolved hresolved hrelational
  have hfield' : entity.field? c'.head = some field := hpole.head.symm ▸ hfield
  have hplain' : c'.isDotted = false := hpole.isDotted.trans hplain
  have hop' : c'.operator.isMembership = true := hpole.kinds.1.trans hop
  have hoperand' : c'.operand = .set values := hpole.operand.trans hoperand
  have hanswered' := hpole.isAnswered hanswered
  obtain ⟨rest, hrest⟩ :=
    @candidates_of_membership (standard.contextAt catalog depth .basic entity) c hop
  have hresolve : (Pass.resolvePath c (standard.contextAt catalog depth .basic entity)).result =
      .ok none :=
    resolvePath_kept hfield hresolved
  have hsome : values.isEmpty = false := by
    refine Bool.eq_false_iff.2 fun hempty => ?_
    have hdecided : (Pass.membershipOperand c (standard.contextAt catalog depth .basic
        entity)).result = .ok (some (.constant !(c.operator == .mem))) := by
      unfold Pass.membershipOperand
      simp only [hoperand]
      rw [if_pos hempty]
      rfl
    have hsplit : standard.candidates (standard.contextAt catalog depth .basic entity) c =
        [⟨"resolve_field", Pass.resolvePath⟩] ++ ⟨"membership_value", Pass.membershipOperand⟩ ::
          ⟨"search_by_label", Pass.labels⟩ :: rest := hrest
    have hchanged := step_of_replaced hsplit (forall_mem_singleton.2 hresolve) hdecided
    rw [hstep, Except.ok.injEq] at hchanged
    exact hopen _ hchanged
  cases hlabels : Pass.namesLabels c with
  | false =>
    exact .mono (n := 3) (vanishes_members hfield' hunsearchable (hpole.mark hmark) hplain'
      hrelational hop' hoperand' hsome (hpole.namesLabels.trans hlabels) hanswered') (by decide)
  | true =>
    obtain ⟨x, hx⟩ : ∃ x, (Pass.labels c (standard.contextAt catalog depth .basic entity)).result =
        .ok x := by
      have hsplit : standard.candidates (standard.contextAt catalog depth .basic entity) c =
          [⟨"resolve_field", Pass.resolvePath⟩, ⟨"membership_value", Pass.membershipOperand⟩] ++
            ⟨"search_by_label", Pass.labels⟩ :: rest := hrest
      refine run_of_step hsplit (forall_mem_cons.2 ⟨hresolve, forall_mem_singleton.2 ?_⟩) hstep
      change (Pass.membershipOperand c (standard.contextAt catalog depth .basic entity)).result = _
      exact Pass.membershipOperand_eq_none.2 ⟨values, hoperand, hsome⟩
    obtain ⟨target, htarget⟩ := exists_target_of_labels hfield hresolved hunsearchable.noId
      hrelational hlabels hx
    rw [← hpole.path] at htarget
    exact vanishes_labelled hfield' hunsearchable (hpole.mark hmark) hplain' htarget hop' hoperand'
      (hpole.namesLabels.trans hlabels) hanswered'

theorem vanishes_pole_pattern (hop : c.operator.isPattern = true) {c' : Condition}
    (hpole : c.Pole c') : (Domain.condition c').Vanishes catalog entity 4 := by
  have hplain := plain_of_resolved hresolved hrelational
  have hresolve : (Pass.resolvePath c (standard.contextAt catalog depth .basic entity)).result =
      .ok none :=
    resolvePath_kept hfield hresolved
  obtain ⟨rest, hrest⟩ := candidates_of_pattern (standard.contextAt catalog depth .basic entity) hop
  have hsplit : standard.candidates (standard.contextAt catalog depth .basic entity) c =
      [⟨"resolve_field", Pass.resolvePath⟩] ++ ⟨"validate_pattern", Pass.patternOperand⟩ ::
        ⟨"search_by_label", Pass.labels⟩ :: rest := hrest
  obtain ⟨x, hx⟩ := run_of_step hsplit (forall_mem_singleton.2 hresolve) hstep
  cases x with
  | none =>
    change (Pass.patternOperand c (standard.contextAt catalog depth .basic entity)).result = _ at hx
    obtain ⟨label, hoperand, hsome⟩ := Pass.patternOperand_eq_none.1 hx
    obtain ⟨y, hy⟩ := run_of_step hrest
      (forall_mem_cons.2 ⟨hresolve, forall_mem_singleton.2 hx⟩) hstep
    have hlabels : Pass.namesLabels c = true := by
      rw [Pass.namesLabels, hoperand]
      exact hop
    obtain ⟨target, htarget⟩ := exists_target_of_labels hfield hresolved hunsearchable.noId
      hrelational hlabels hy
    rw [← hpole.path] at htarget
    exact .mono (n := 3) (vanishes_pattern (hpole.head.symm ▸ hfield) hunsearchable
      (hpole.mark hmark) (hpole.isDotted.trans hplain) htarget (hpole.kinds.2.1.trans hop)
      (hpole.operand.trans hoperand) hsome (hpole.isAnswered hanswered)) (by decide)
  | some d =>
    have hchanged := step_of_replaced hsplit (forall_mem_singleton.2 hresolve) hx
    have hs : s = .changed d := by
      rw [hstep, Except.ok.injEq] at hchanged
      exact hchanged
    subst hs
    change (Pass.patternOperand c (standard.contextAt catalog depth .basic entity)).result = _ at hx
    obtain ⟨hinverse, hfalsy, rfl⟩ :=
      Pass.unset_of_patternOperand hx fun v hv => hopen v (by rw [hv])
    obtain rfl : c' = c := by
      cases hpole with
      | itself => rfl
      | inverse hc => cases hinverse.symm.trans hc.inverse
    have hflat : c'.operator.isTraversal = true → ∃ query, c'.operand = .query query := by
      intro htraversal
      obtain hop' | hop' := Operator.eq_of_isTraversal htraversal <;> rw [hop'] at hop <;> cases hop
    exact vanishes_of_changed hmark hflat hstep (vanishes_members
      (c := ⟨c'.path, .mem, .set .unset, none⟩) hfield hunsearchable rfl hplain hrelational rfl rfl
      rfl (namesLabels_eq_false rfl Pass.isLabel_unset) (hanswered.unset hplain hop hfalsy))

end Basic

section Flat

variable {catalog : Catalog} {entity : Entity} {field : Field} {depth n : Nat}
  (hfield : entity.field? c.head = some field) (hunsearchable : field.IsUnsearchable)
  (hresolved : c.rest? = none ∨ (field.isRelational = false ∧ field.type = .json))
  (hop : c.operator.isTraversal = false)
  (hmembers : field.isRelational = true → c.operator.isMembership = true →
    ∀ values, c.operand ≠ .set values)
  (hpattern : c.operator.isPattern = true → field.isRelational = false) {s : Step}
  (hstep : (standard.step (standard.contextAt catalog depth .basic entity) (.condition c)).result =
    .ok s)
  (hopen : ∀ v, s ≠ .changed (.constant v))

include hfield hunsearchable hresolved hop hmembers hpattern hstep hopen

omit hop in
theorem becomes_of_changed {next : Domain} (hs : s = .changed next) :
    (∃ c₁, next = .condition c₁ ∧
      Pass.Becomes (standard.contextAt catalog depth .basic entity) c c₁) ∨
    (entity.headType? c.path = some .datetime ∧ c.isDotted = false ∧ next.Over (Pass.Dated c)) := by
  subst hs
  obtain ⟨hs, -⟩ | ⟨before, pass, after, d, hs, hsplit, hbefore, hpass⟩ := stepCondition_eq_ok hstep
  · cases hs
  cases hs
  have hnames : field.isRelational = true → Pass.namesLabels c = false := by
    intro hrelational
    unfold Pass.namesLabels
    cases hoperand : c.operand with
    | set values =>
      dsimp only
      cases hmember : c.operator.isMembership with
      | false => rfl
      | true => exact absurd hoperand (hmembers hrelational hmember values)
    | scalar value =>
      cases value with
      | text label =>
        refine Bool.eq_false_iff.2 fun hop => ?_
        cases (hpattern hop).symm.trans hrelational
      | _ => rfl
    | _ => rfl
  have hsame : ∀ {field'}, entity.field? c.head = some field' → field' = field :=
    fun hfield' => Option.some.inj (hfield'.symm.trans hfield)
  have houtcome : Pass.Outcome (standard.contextAt catalog depth .basic entity) c next :=
    outcome_of_replaced (fun h => absurd h Bool.false_ne_true)
      (fun h => absurd h Bool.false_ne_true) hsplit hbefore hpass
  cases houtcome with
  | becomes h => exact .inl ⟨_, rfl, h⟩
  | dated hdays hover =>
    refine .inr ⟨hdays.1, ?_, hover⟩
    have hcompares := hdays.2.1
    simp only [Pass.comparesLiterals, Bool.and_eq_true, Bool.not_eq_true'] at hcompares
    exact hcompares.1
  | splits hover =>
    obtain ⟨v, rfl⟩ | ⟨c₁, hsplits⟩ := hover.constant_or_exists
    · exact absurd rfl (hopen v)
    exfalso
    cases hsplits with
    | crossed hfield' hrest hrelational =>
      obtain rfl := hsame hfield'
      obtain hresolved | hresolved := hresolved
      · cases hresolved.symm.trans hrest
      · cases hresolved.1.symm.trans hrelational
    | labelled hfield' _ hrelational _ hlabels | identified hfield' _ hrelational hlabels =>
      obtain rfl := hsame hfield'
      cases (hnames hrelational).symm.trans hlabels
    | listed hfield' _ hmany hmember hoperand | unlisted hfield' _ hmany hmember hoperand =>
      obtain rfl := hsame hfield'
      exact hmembers (Field.isRelational_of_isX2Many hmany) hmember _ hoperand
    | inherited hfield' hlink =>
      obtain rfl := hsame hfield'
      cases hunsearchable.own.symm.trans hlink
    | found hhierarchy | reached hhierarchy =>
      obtain ⟨v, rfl⟩ := constant_of_hierarchy hfield hresolved hhierarchy hstep
      exact hopen v rfl

variable (hmark : c.mark = none) {c' : Condition} (hpole : c.Pole c')

include hmark hpole

theorem vanishes_pole_flat (hpos : 0 < n)
    (ih : ∀ {c₁}, Pass.Becomes (standard.contextAt catalog depth .basic entity) c c₁ →
      s = .changed (.condition c₁) → ∀ {c'}, c₁.Pole c' →
      (Domain.condition c').Vanishes catalog entity n) :
    (Domain.condition c').Vanishes catalog entity (n + 1) := by
  have hbecomes := fun next => @becomes_of_changed c catalog entity field depth hfield hunsearchable
    hresolved hmembers hpattern s hstep hopen next
  have hflat' : c'.operator.isTraversal = true → ∃ query, c'.operand = .query query := by
    intro htraversal
    cases (hpole.kinds.2.2.trans hop).symm.trans htraversal
  cases hpole with
  | itself =>
    cases s with
    | done d =>
      exact .mono (n := 1) (vanishes_of_done hmark hflat' hfield hunsearchable hstep) (by omega)
    | changed next =>
      refine vanishes_of_changed hmark hflat' hstep ?_
      obtain ⟨c₁, rfl, h⟩ | ⟨htype, hplain, hover⟩ := hbecomes next rfl
      · exact ih h rfl .itself
      · exact .mono (n := 1) (vanishes_dated hfield hunsearchable hplain htype hover
          fun v hv => hopen v (by rw [hv])) hpos
  | @inverse op hc =>
    have hagree : Pass.Agree (standard.contextAt catalog depth .basic entity)
        (standard.contextAt catalog depth .basic entity) :=
      ⟨rfl, rfl, rfl, fun _ _ _ _ h h' => Except.ok.inj (h.symm.trans h')⟩
    obtain ⟨s', hs', hchange⟩ := (opposes_stepCondition (E := fun _ => False) hagree hc
      (fun h => absurd h Bool.false_ne_true) (fun h => absurd h Bool.false_ne_true)
      (fun htraversal => by simp [hop] at htraversal) hstep).exists_ok
    cases s' with
    | done d =>
      exact .mono (n := 1) (vanishes_of_done rfl hflat' hfield hunsearchable hs') (by omega)
    | changed e =>
      refine vanishes_of_changed rfl hflat' hs' ?_
      obtain ⟨next, rfl, hopposes⟩ := hchange e rfl
      cases hopposes with
      | constant v => exact absurd rfl (hopen v)
      | dated htype hover hconstant =>
        exact .mono (n := 1) (vanishes_dated hfield hunsearchable hc.plain htype hover hconstant)
          hpos
      | complement =>
        obtain ⟨c₁, rfl, h⟩ | ⟨htype, hplain, hover⟩ := hbecomes next rfl
        · obtain ⟨op₁, hc₁⟩ := h.inverts hc
          rw [hc₁.negate]
          exact ih h rfl (.inverse hc₁)
        · exact .mono (n := 1) (vanishes_dated hfield hunsearchable hplain htype
            (hover.negate fun _ => Pass.Dated.inverse hplain)
            (hover.negate_ne_constant (fun _ => Pass.Dated.inverse hplain)
              fun v hv => hopen v (by rw [hv]))) hpos

end Flat

section Whole

variable {catalog : Catalog} {entity : Entity} {field : Field} {depth : Nat}

theorem resolved_or_crossed (hfield : entity.field? c.head = some field) {s : Step}
    (h : (standard.step (standard.contextAt catalog depth .basic entity) (.condition c)).result =
      .ok s) :
    (c.rest? = none ∨ (field.isRelational = false ∧ field.type = .json)) ∨
      ∃ rest, c.rest? = some rest ∧ field.isRelational = true := by
  have hctx : (standard.contextAt catalog depth .basic entity).field c = .ok field :=
    Context.field_eq_ok.2 hfield
  obtain ⟨after, hafter⟩ := candidates_eq_cons (standard.contextAt catalog depth .basic entity) c
  have hsplit : standard.candidates (standard.contextAt catalog depth .basic entity) c =
      [] ++ ⟨"resolve_field", Pass.resolvePath⟩ :: after := hafter
  obtain ⟨x, hx⟩ := run_of_step hsplit nofun h
  change (Pass.resolvePath c (standard.contextAt catalog depth .basic entity)).result = _ at hx
  unfold Pass.resolvePath at hx
  rw [Run.result_bind, Run.result_liftM, hctx] at hx
  simp only [Except.bind] at hx
  cases hrest : c.rest? with
  | none => exact .inl (.inl rfl)
  | some rest =>
    cases hrelational : field.isRelational with
    | true => exact .inr ⟨rest, rfl, rfl⟩
    | false =>
      simp only [hrest, hrelational, Bool.false_eq_true, if_false] at hx
      split at hx
      · exact .inl (.inr ⟨rfl, ‹_›⟩)
      · cases hx

/-- A condition that is neither refused nor decided at the basic level is taken for true at the
search level, and so is its inverse. -/
theorem vanishes_pole (hfield : entity.field? c.head = some field)
    (hunsearchable : field.IsUnsearchable) (hmark : c.mark = none)
    (hanswered : c.IsAnswered catalog entity) {changes : Nat} {r : Domain}
    (h : (standard.settle (standard.contextAt catalog depth .basic entity) changes
      (.condition c)).result = .ok r)
    (hopen : ∀ v, r ≠ .constant v) {c' : Condition} (hpole : c.Pole c') :
    (Domain.condition c').Vanishes catalog entity (c.stage catalog .basic entity + 4) := by
  induction hstage : c.stage catalog .basic entity using Nat.strong_induction_on
    generalizing c changes c' with
  | _ stage ih =>
    subst hstage
    obtain ⟨s, hstep, hnext⟩ : ∃ s, (standard.step (standard.contextAt catalog depth .basic entity)
        (.condition c)).result = .ok s ∧ ∀ next, s = .changed next → ∃ fewer,
          (standard.settle (standard.contextAt catalog depth .basic entity) fewer next).result =
            .ok r := by
      obtain ⟨hcovered, -⟩ | ⟨-, hstep⟩ | ⟨next, fewer, -, hstep, -, hnext⟩ := settle_turn.1 h
      · simp [covered, Domain.mark?, hmark] at hcovered
      · exact ⟨_, hstep, fun _ hdone => by cases hdone⟩
      · refine ⟨_, hstep, ?_⟩
        rintro _ ⟨⟩
        exact ⟨fewer, hnext⟩
    have hopen' : ∀ v, s ≠ .changed (.constant v) := by
      intro v hs
      obtain ⟨fewer, hfewer⟩ := hnext _ hs
      exact hopen v (settles_constant (settle_eq_ok hfewer))
    have hpos := (@Condition.stage_bounds catalog .basic entity c).1
    obtain hresolved | ⟨rest, hrest, hrelational⟩ := resolved_or_crossed hfield hstep
    · by_cases hop : c.operator.isTraversal = true
      · exact .mono (n := 2) (vanishes_pole_traversal hfield hresolved hunsearchable hmark hanswered
          hstep hop hpole) (by omega)
      by_cases hset : field.isRelational = true ∧ c.operator.isMembership = true ∧
          ∃ values, c.operand = .set values
      · obtain ⟨hrelational, hmember, values, hoperand⟩ := hset
        exact .mono (n := 4) (vanishes_pole_members hfield hresolved hunsearchable hmark hanswered
          hstep hopen' hrelational hmember hoperand hpole) (by omega)
      by_cases hlabel : field.isRelational = true ∧ c.operator.isPattern = true
      · exact .mono (n := 4) (vanishes_pole_pattern hfield hresolved hunsearchable hmark hanswered
          hstep hopen' hlabel.1 hlabel.2 hpole) (by omega)
      have hflat : c.operator.isTraversal = false := by simpa using hop
      have hmembers : field.isRelational = true → c.operator.isMembership = true →
          ∀ values, c.operand ≠ .set values :=
        fun hrelational hmember values hoperand =>
          hset ⟨hrelational, hmember, values, hoperand⟩
      have hpattern : c.operator.isPattern = true → field.isRelational = false := by
        intro hpattern
        exact Bool.eq_false_iff.2 fun hrelational => hlabel ⟨hrelational, hpattern⟩
      refine .mono (vanishes_pole_flat (n := c.stage catalog .basic entity + 3) hfield hunsearchable
        hresolved hflat hmembers hpattern hstep hopen' hmark hpole (by omega) ?_) (by omega)
      intro c₁ hbecomes hs c₁' hpole₁
      obtain ⟨fewer, hfewer⟩ := hnext _ hs
      have hless : c₁.stage catalog .basic entity < c.stage catalog .basic entity :=
        stage_lt_of_becomes hbecomes fun htraversal => absurd htraversal hop
      have hfield₁ : entity.field? c₁.head = some field := by
        rw [Condition.head, hbecomes.path]
        exact hfield
      have hanswered₁ := hbecomes.isAnswered hfield hunsearchable.noId hflat
        (hresolved.imp_right And.left) hpattern hanswered
      exact .mono (ih _ hless hfield₁ hbecomes.mark hanswered₁ hfewer hpole₁ rfl) (by omega)
    · cases hpole with
      | itself =>
        exact .mono (n := 3) (vanishes_crossed hfield hunsearchable hmark hrest hrelational
          hanswered) (by omega)
      | inverse hc => cases (Condition.rest?_eq_none.2 hc.plain).symm.trans hrest

/-- A condition that cannot be searched is ignored: unless the basic level refuses or decides it, it
is true at the search level, and so is its inverse, if whatever it asks of related records gets an
answer. -/
theorem optimize_ignored {r : OptimizedDomain} (hfield : entity.field? c.head = some field)
    (hunsearchable : field.IsUnsearchable) (hmark : c.mark = none)
    (hbasic : (standard.optimizeWithin depth catalog .basic entity (.condition c)).result = .ok r)
    (hopen : ∀ v, r.domain ≠ .constant v) (hanswered : c.IsAnswered catalog entity) :
    ∃ enough, ∀ depth' ≥ enough,
      (standard.optimizeWithin depth' catalog .search entity (.condition c)).result =
        .ok ⟨.constant true, entity.name, .search⟩ ∧
      ∀ op, c.Inverts op →
        (standard.optimizeWithin depth' catalog .search entity
          (Domain.condition c).negate).result = .ok ⟨.constant true, entity.name, .search⟩ := by
  have hnode := (optimizeWithin_eq_ok.1 hbasic).1
  obtain ⟨depth, rfl⟩ : ∃ fewer, depth = fewer + 1 := by
    refine Nat.exists_eq_succ_of_ne_zero ?_
    rintro rfl
    cases hnode
  rw [node_succ] at hnode
  have hle : c.stage catalog .basic entity + 4 ≤ standard.maxIterations :=
    Nat.le_trans (Nat.add_le_add_right Condition.stage_bounds.2 4) (by decide)
  have hpole : ∀ {c'}, c.Pole c' → ∃ enough, ∀ depth' ≥ enough,
      (standard.optimizeWithin depth' catalog .search entity (.condition c')).result =
        .ok ⟨.constant true, entity.name, .search⟩ := by
    intro c' hpole
    obtain ⟨enough, henough⟩ :=
      (vanishes_pole hfield hunsearchable hmark hanswered hnode hopen hpole).node hle
    exact ⟨enough, fun _ hge => optimizeWithin_eq_ok.2 ⟨node_of_le hge henough, rfl, rfl⟩⟩
  obtain ⟨enough, henough⟩ := hpole .itself
  obtain ⟨op, hc⟩ | hstays := c.inverts_or_stays
  · obtain ⟨enough', henough'⟩ := hpole (.inverse hc)
    refine ⟨max enough enough', fun depth' hge => ⟨henough _ (by omega), fun _ _ => ?_⟩⟩
    rw [hc.negate]
    exact henough' _ (by omega)
  · refine ⟨enough, fun depth' hge => ⟨henough _ hge, fun op hc => ?_⟩⟩
    cases hc.negate.symm.trans hstays

/-- What is asked of the partners is settled at the search level only. -/
theorem optimize_ignored_label :
    let item : Entity := { name := "item", fields := [(Field.many2one "partner" "p").computed] }
    let p : Entity := { name := "p", fields := [{ name := "name", type := .char }] }
    let catalog : Catalog := { entities := [item, p] }
    let c : Condition := ⟨"partner", .mem, .set ⟨[.text "x"]⟩, none⟩
    ∃ enough, ∀ depth ≥ enough,
      (standard.optimizeWithin depth catalog .search item (.condition c)).result =
        .ok ⟨.constant true, "item", .search⟩ ∧
      (standard.optimizeWithin depth catalog .search item (Domain.condition c).negate).result =
        .ok ⟨.constant true, "item", .search⟩ := by
  intro item p catalog c
  have hbasic : (standard.optimizeWithin 4 catalog .basic item (.condition c)).result =
      .ok ⟨.condition ⟨"partner", .any, .domain (.condition ⟨"name", .mem, .set ⟨[.text "x"]⟩,
        none⟩), some ⟨"item", .basic⟩⟩, "item", .basic⟩ := by
    cbv
  have hfield : item.field? c.head = some (Field.many2one "partner" "p").computed := by cbv
  have hplain : c.isDotted = false := by cbv
  have htype : item.headType? c.path = some .many2one := by cbv
  have htarget : catalog.target? item c.path = some p := by cbv
  have hlabels : c.operand.literals.filter Pass.isLabel = [.text "x"] := by cbv
  have hhooks : catalog.Hookless := by decide
  have hnode : (node catalog 3 standard .search p (.leaf "name" .mem (.set ⟨[.text "x"]⟩))).result =
      .ok (.condition ⟨"name", .mem, .set ⟨[.text "x"]⟩, some ⟨"p", .search⟩⟩) := by
    cbv
  have hanswered : c.IsAnswered catalog item := by
    intro d hd
    cases hd with
    | inner _ _ hoperand => cases hoperand
    | rest _ _ hrest => cases (Condition.rest?_eq_none.2 hplain).symm.trans hrest
    | labels _ htarget' =>
      cases htarget.symm.trans htarget'
      refine ⟨p, htarget, ?_⟩
      rw [hlabels]
      exact ⟨_, _, by simp, hnode, .inl (Domain.isTrusted_of_unmarked hhooks (by cbv))⟩
    | pattern _ _ hpattern => cases hpattern
    | ids _ htype' hmany | present _ htype' hmany =>
      cases htype.symm.trans htype'
      cases hmany
  obtain ⟨enough, henough⟩ := optimize_ignored hfield ⟨rfl, rfl, by decide, rfl, rfl⟩ rfl hbasic
    (by simp) hanswered
  exact ⟨enough, fun depth hge =>
    ⟨(henough depth hge).1, (henough depth hge).2 .notMem ⟨rfl, hplain⟩⟩⟩

/-- A relation to nothing is false before the field is found to be one that cannot be searched, and
the complement of a pattern that has no inverse is taken of what the pattern comes to. -/
theorem optimize_not_ignored :
    let partner : Field := (Field.many2one "partner" "p").computed
    let code : Field := Field.computed { name := "code", type := .char }
    let item : Entity := { name := "item", fields := [partner, code] }
    let p : Entity := { name := "p", fields := [{ name := "name", type := .char }] }
    let catalog : Catalog := { entities := [item, p] }
    let within : Condition := ⟨"partner", .any, .domain (.leaf "id" .childOf (.set ⟨[]⟩)), none⟩
    let like : Condition := ⟨"code", .eqLike, .scalar (.text "x"), none⟩
    (item.field? within.head = some partner ∧ partner.IsUnsearchable ∧
      item.field? like.head = some code ∧ code.IsUnsearchable) ∧
    ∀ depth ≥ 4,
      ((standard.optimizeWithin depth catalog .basic item (.condition within)).result =
          .ok ⟨.condition (within.withMark ⟨"item", .basic⟩), "item", .basic⟩ ∧
        (standard.optimizeWithin depth catalog .search item (.condition within)).result =
          .ok ⟨.constant false, "item", .search⟩) ∧
      (standard.optimizeWithin depth catalog .basic item (.condition like)).result =
          .ok ⟨.condition (like.withMark ⟨"item", .basic⟩), "item", .basic⟩ ∧
        (standard.optimizeWithin depth catalog .search item (Domain.condition like).negate).result =
          .ok ⟨.constant false, "item", .search⟩ := by
  intro partner code item p catalog within like
  have hgrows : ∀ {level : Level} {d d' : Domain}, (node catalog 4 standard level item d).result =
      .ok d' → ∀ depth ≥ 4, (standard.optimizeWithin depth catalog level item d).result =
        .ok ⟨d', "item", level⟩ :=
    fun h depth hge => optimizeWithin_eq_ok.2 ⟨node_of_le hge h, rfl, rfl⟩
  have hwithin : (node catalog 4 standard .basic item (.condition within)).result =
      .ok (.condition (within.withMark ⟨"item", .basic⟩)) := by
    cbv
  have hfalse : (node catalog 4 standard .search item (.condition within)).result =
      .ok (.constant false) := by
    cbv
  have hlike : (node catalog 4 standard .basic item (.condition like)).result =
      .ok (.condition (like.withMark ⟨"item", .basic⟩)) := by
    cbv
  have hnegated : (node catalog 4 standard .search item (Domain.condition like).negate).result =
      .ok (.constant false) := by
    cbv
  refine ⟨⟨by cbv, ⟨rfl, rfl, by decide, rfl, rfl⟩, by cbv, ⟨rfl, rfl, by decide, rfl, rfl⟩⟩, ?_⟩
  intro depth hge
  exact ⟨⟨hgrows hwithin depth hge, hgrows hfalse depth hge⟩,
    hgrows hlike depth hge, hgrows hnegated depth hge⟩

end Whole

end Optimizer

end QueryDomain
