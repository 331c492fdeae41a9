import QueryDomain.Proofs.Optimization.Acceptance
import QueryDomain.Proofs.Optimization.Mirror

/-! Combining domains that can be optimized gives domains that can be optimized. The complement of a
condition is followed change by change: a pass that makes something of a condition makes the
complement of it, a constant, or intervals of days of the inverse condition. -/
namespace QueryDomain

open List

theorem Run.exists_bind {α β : Type} {run : Run Error α} {next : α → Run Error β} {a : α}
    (h : run.result = .ok a) (hnext : ∃ b, (next a).result = .ok b) :
    ∃ b, (run >>= next).result = .ok b := by
  obtain ⟨b, hb⟩ := hnext
  exact ⟨b, result_bind_eq_ok.2 ⟨a, h, hb⟩⟩

namespace Pass

variable {ctx ctx' : Context} {c : Condition} {op : Operator} {x : Option Domain}
  {E : Error → Prop}

/-- What a pass makes of the inverse of a condition, given what it makes of the condition. -/
inductive Opposes (ctx : Context) (c : Condition) : Option Domain → Option Domain → Prop
  | kept : Opposes ctx c none none
  | complement (d) : Opposes ctx c (some d) (some d.negate)
  | constant (v w) : Opposes ctx c (some (.constant v)) (some (.constant w))
  | dated {d e} : ctx.entity.headType? c.path = some .datetime → e.Over (Dated c) →
      (∀ v, e ≠ .constant v) → Opposes ctx c (some d) (some e)

theorem opposes_dated (hplain : c.isDotted = false)
    (htype : ctx.entity.headType? c.path = some .datetime) {values : ValueSet}
    (hvalues : ∀ v ∈ values.values, isDayOrMoment v = true) (hdays : daysOf values.values ≠ [])
    (d : Domain) : Opposes ctx c (some d) (some (dayMembership (c.withOperator op) values)) := by
  refine .dated htype ?_ (dayMembership_ne_constant (c := c.withOperator op) hplain hvalues hdays)
  refine (over_dayMembership (c := c.withOperator op) hplain hvalues).mono fun c' hc' => ?_
  cases hc' with
  | bound hop => exact .bound hop
  | moments hop hmembers hdistinct hsome => exact .moments hop hmembers hdistinct hsome

theorem Mirrored.opposes (hc : c.Inverts op) {y : Option Domain} (h : Mirrored ctx c op x y) :
    Opposes ctx c x y := by
  cases h with
  | kept => exact .kept
  | replaced hnegate =>
    subst hnegate
    exact .complement _
  | dated hdays _ hvalues hsome => exact opposes_dated hc.plain hdays.1 hvalues hsome _

theorem opposes_of_mirrored (hc : c.Inverts op) {run : Run Error (Option Domain)}
    (hok : ∃ y, run.result = .ok y) (h : ∀ {y}, run.result = .ok y → Mirrored ctx c op x y) :
    run.Meets E (Opposes ctx c x) := by
  obtain ⟨y, hy⟩ := hok
  exact .of_ok hy ((h hy).opposes hc)

theorem Agree.field_ok (hagree : Agree ctx ctx') {field : Field} (hfield : ctx.field c = .ok field) :
    ctx'.field (c.withOperator op) = .ok field := by
  rw [Context.field_eq_ok] at hfield ⊢
  rwa [hagree.entity]

theorem Agree.comodel_ok (hagree : Agree ctx ctx') {field : Field} {comodel : Entity}
    (hcomodel : ctx.catalog.comodel c field = .ok comodel) :
    ctx'.catalog.comodel (c.withOperator op) field = .ok comodel := by
  rw [Catalog.comodel_eq_ok] at hcomodel ⊢
  rwa [hagree.catalog]

theorem exists_membershipOperand (c : Condition) (ctx : Context) :
    ∃ y, (membershipOperand c ctx).result = .ok y := by
  unfold membershipOperand
  cases c.operand with
  | set values =>
    dsimp only
    split <;> exact ⟨_, rfl⟩
  | _ => exact ⟨_, rfl⟩

theorem exists_manyMembers (c : Condition) (ctx : Context) :
    ∃ y, (manyMembers c ctx).result = .ok y := by
  unfold manyMembers
  cases c.operand with
  | set values =>
    dsimp only
    split <;> exact ⟨_, rfl⟩
  | _ => exact ⟨_, rfl⟩

theorem exists_bothBooleans (c : Condition) (ctx : Context) :
    ∃ y, (bothBooleans c ctx).result = .ok y := by
  unfold bothBooleans
  cases c.operand with
  | set values =>
    dsimp only
    split <;> exact ⟨_, rfl⟩
  | _ => exact ⟨_, rfl⟩

theorem exists_patternOperand (h : (patternOperand c ctx).result = .ok x) :
    ∃ y, (patternOperand (c.withOperator op) ctx').result = .ok y := by
  unfold patternOperand at h ⊢
  rw [Condition.operand_withOperator]
  cases hoperand : c.operand with
  | scalar value =>
    rw [hoperand] at h
    dsimp only at h ⊢
    split at h
    · rw [if_pos ‹_›]
      split <;> exact ⟨_, rfl⟩
    · rw [if_neg ‹_›]
      cases value with
      | text _ => exact ⟨_, rfl⟩
      | _ => cases h
  | _ =>
    rw [hoperand] at h
    cases h

theorem exists_labels (hagree : Agree ctx ctx') (hc : c.Inverts op)
    (h : (labels c ctx).result = .ok x) :
    ∃ y, (labels (c.withOperator op) ctx').result = .ok y := by
  obtain ⟨hmember, -, hpattern, -⟩ := Operator.kinds_of_inverse? hc.inverse
  unfold labels at h ⊢
  rw [Run.result_bind_eq_ok] at h
  obtain ⟨field, hfield, h⟩ := h
  refine Run.exists_bind (hagree.field_ok hfield) ?_
  change ∃ y, (if !field.isRelational || c.isDotted then keep else _ :
    Run Error (Option Domain)).result = .ok y
  split
  · exact ⟨_, rfl⟩
  · rename_i hkeep
    rw [if_neg hkeep] at h
    rw [Condition.operand_withOperator, Condition.operator_withOperator]
    cases hoperand : c.operand with
    | set values =>
      simp only [hoperand] at h ⊢
      rw [hmember]
      split
      · exact ⟨_, rfl⟩
      · rename_i hlabels
        rw [if_neg hlabels, Run.result_bind_eq_ok] at h
        obtain ⟨comodel, hcomodel, -⟩ := h
        exact Run.exists_bind (hagree.comodel_ok hcomodel) ⟨_, rfl⟩
    | scalar value =>
      cases value with
      | text label =>
        simp only [hoperand] at h ⊢
        rw [hpattern]
        split
        · exact ⟨_, rfl⟩
        · rename_i hlabels
          rw [if_neg hlabels, Run.result_bind_eq_ok] at h
          obtain ⟨comodel, hcomodel, -⟩ := h
          exact Run.exists_bind (hagree.comodel_ok hcomodel) ⟨_, rfl⟩
      | _ => exact ⟨_, rfl⟩
    | _ => exact ⟨_, rfl⟩

section Literals

variable {c' : Condition} {coerce coerce' : Value → Except Error Value}
  (hcoerce : ∀ v, (coerce v).toOption = (coerce' v).toOption)

include hcoerce

theorem coerce_ok {v w : Value} (h : coerce v = .ok w) : coerce' v = .ok w := by
  rw [← Except.toOption_eq_some, ← hcoerce, h]
  rfl

theorem coerceSet_ok {values s : ValueSet} (h : coerceSet coerce values = .ok s) :
    coerceSet coerce' values = .ok s := by
  obtain ⟨results, hresults, hs⟩ := Except.bind_eq_ok.1 h
  refine Except.bind_eq_ok.2 ⟨results, ?_, hs⟩
  have hforall := mapM_eq_ok hresults
  clear h hresults hs
  generalize values.values = vs at hforall ⊢
  induction hforall with
  | nil => rfl
  | cons hv _ ih =>
    rw [List.mapM_cons, coerce_ok hcoerce hv, ih]
    rfl

theorem exists_replaceLiterals
    (h : (match c.operand with
      | .scalar value => liftM (coerce value) >>= fun v => replaceOperand c (.scalar v)
      | .set values => liftM (coerceSet coerce values) >>= fun s => replaceOperand c (.set s)
      | .domain _ | .query _ => keep : Run Error (Option Domain)).result = .ok x) :
    ∃ y, (match c.operand with
      | .scalar value => liftM (coerce' value) >>= fun v => replaceOperand c' (.scalar v)
      | .set values => liftM (coerceSet coerce' values) >>= fun s => replaceOperand c' (.set s)
      | .domain _ | .query _ => keep : Run Error (Option Domain)).result = .ok y := by
  cases hoperand : c.operand with
  | scalar value =>
    simp only [hoperand, Run.result_bind_eq_ok, Run.result_liftM] at h
    obtain ⟨v, hv, -⟩ := h
    exact Run.exists_bind (coerce_ok hcoerce hv) ⟨_, result_replaceOperand _ _⟩
  | set values =>
    simp only [hoperand, Run.result_bind_eq_ok, Run.result_liftM] at h
    obtain ⟨s, hs, -⟩ := h
    exact Run.exists_bind (coerceSet_ok hcoerce hs) ⟨_, result_replaceOperand _ _⟩
  | domain _ | query _ => exact ⟨_, rfl⟩

omit hcoerce

theorem exists_booleanMembers (hc : c.Inverts op) (h : (booleanMembers c ctx).result = .ok x) :
    ∃ y, (booleanMembers (c.withOperator op) ctx').result = .ok y := by
  unfold booleanMembers at h ⊢
  rw [Condition.operand_withOperator, Condition.operator_withOperator]
  cases hoperand : c.operand with
  | set values =>
    simp only [hoperand] at h ⊢
    rw [hc.isMembership]
    split
    · rename_i hop
      rw [if_pos hop, Run.result_bind_eq_ok] at h
      obtain ⟨coerced, hcoerced, -⟩ := h
      refine Run.exists_bind (coerceSet_ok toOption_toBoolean hcoerced) ?_
      split
      · exact ⟨_, rfl⟩
      · exact ⟨_, result_replaceOperand _ _⟩
    · exact ⟨_, rfl⟩
  | _ => exact ⟨_, rfl⟩

theorem opposes_ordersUnset {run run' : Run Error (Option Domain)}
    (h : run.result = .ok (some (.constant false)))
    (h' : run'.result = .ok (some (.constant false))) (hx : run.result = .ok x) :
    run'.Meets E (Opposes ctx c x) := by
  rw [h, Except.ok.injEq] at hx
  subst hx
  exact .of_ok h' (.constant _ _)

theorem opposes_numericLiterals (hagree : Agree ctx ctx') (hc : c.Inverts op)
    (h : (numericLiterals c ctx).result = .ok x) :
    (numericLiterals (c.withOperator op) ctx').Meets E (Opposes ctx c x) := by
  cases hunset : ordersUnset c with
  | false =>
    refine opposes_of_mirrored hc ?_ (mirrored_numericLiterals hagree hc hunset h)
    unfold numericLiterals at h ⊢
    rw [hc.comparesLiterals, hc.ordersUnset, hunset]
    split
    · rename_i hcompares
      rw [if_pos hcompares, Run.result_bind_eq_ok] at h
      obtain ⟨field, hfield, h⟩ := h
      rw [hunset] at h
      exact Run.exists_bind (hagree.field_ok hfield)
        (exists_replaceLiterals (c := c) (toOption_toNumber _) h)
    · exact ⟨_, rfl⟩
  | true =>
    unfold numericLiterals at h ⊢
    rw [hc.comparesLiterals, hc.ordersUnset, hunset]
    split
    · rename_i hcompares
      rw [if_pos hcompares, Run.result_bind_eq_ok] at h
      obtain ⟨field, hfield, h⟩ := h
      rw [hunset] at h
      cases h
      refine .of_ok (a := some (.constant false)) ?_ (.constant _ _)
      exact Run.result_bind_eq_ok.2 ⟨field, hagree.field_ok hfield, rfl⟩
    · rename_i hcompares
      rw [if_neg hcompares] at h
      cases h
      exact .of_ok rfl .kept

theorem opposes_dateLiterals (hc : c.Inverts op) (h : (dateLiterals c ctx).result = .ok x) :
    (dateLiterals (c.withOperator op) ctx').Meets E (Opposes ctx c x) := by
  cases hunset : ordersUnset c with
  | false =>
    refine opposes_of_mirrored hc ?_ (mirrored_dateLiterals hc hunset h)
    unfold dateLiterals at h ⊢
    rw [hc.comparesLiterals, hc.ordersUnset, hunset]
    split
    · exact ⟨_, rfl⟩
    · rename_i hcompares
      rw [if_neg hcompares, hunset] at h
      exact exists_replaceLiterals (c := c) toOption_toDate h
  | true =>
    unfold dateLiterals at h ⊢
    rw [hc.comparesLiterals, hc.ordersUnset, hunset]
    split
    · rename_i hcompares
      rw [if_pos hcompares] at h
      cases h
      exact .of_ok rfl .kept
    · rename_i hcompares
      rw [if_neg hcompares, hunset] at h
      exact opposes_ordersUnset rfl rfl h

theorem opposes_replaceOperand (hc : c.Inverts op) {z : Operand}
    (h : (replaceOperand c z).result = .ok x) :
    (replaceOperand (c.withOperator op) z).Meets E (Opposes ctx c x) :=
  opposes_of_mirrored hc ⟨_, result_replaceOperand _ _⟩ (mirrored_replaceOperand hc h)

theorem opposes_datetimeLiterals (hc : c.Inverts op)
    (hmembers : c.operator.isMembership = true → ∃ values, c.operand = .set values)
    (htype : ctx.entity.headType? c.path = some .datetime)
    (h : (datetimeLiterals c ctx).result = .ok x) :
    (datetimeLiterals (c.withOperator op) ctx').Meets E (Opposes ctx c x) := by
  unfold datetimeLiterals at h ⊢
  rw [hc.comparesLiterals, hc.ordersUnset, Condition.operand_withOperator]
  split
  · rename_i hcompares
    rw [if_pos hcompares] at h
    cases h
    exact .of_ok rfl .kept
  rename_i hcompares
  rw [if_neg hcompares] at h
  split
  · rename_i hunset
    rw [if_pos hunset] at h
    exact opposes_ordersUnset rfl rfl h
  rename_i hunset
  rw [if_neg hunset] at h
  cases hoperand : c.operand with
  | scalar value =>
    have hordering : c.operator.isOrdering = true := by
      rw [Bool.not_eq_true', Bool.not_eq_false] at hcompares
      have hop : c.operator.isOrdering = true ∨ c.operator.isMembership = true := by
        simpa [comparesLiterals, hc.plain] using hcompares
      refine hop.resolve_right fun hop => ?_
      obtain ⟨values, hvalues⟩ := hmembers hop
      rw [hoperand] at hvalues
      cases hvalues
    simp only [hoperand, Run.result_bind_eq_ok, Run.result_liftM] at h
    obtain ⟨v, hv, h⟩ := h
    refine .bind (P := fun w => w = v) (.of_ok (coerce_ok toOption_toDatetime hv) rfl) ?_
    rintro w - rfl
    cases w with
    | date day =>
      cases h
      refine .of_ok (a := some (dayBound (c.withOperator op) day)) rfl ?_
      rw [← negate_dayBound hc hordering day]
      exact .complement _
    | _ => exact opposes_replaceOperand hc h
  | set values =>
    simp only [hoperand, Run.result_bind_eq_ok, Run.result_liftM] at h
    obtain ⟨s, hs, h⟩ := h
    refine .bind (P := fun t => t = s) (.of_ok (coerceSet_ok toOption_toDatetime hs) rfl) ?_
    rintro t - rfl
    split
    · rename_i hdays
      rw [if_pos hdays] at h
      exact opposes_replaceOperand hc h
    · rename_i hdays
      rw [if_neg hdays] at h
      cases h
      have hvalues := (literalsAre_coerceSet (coerces_toDatetime c) hs).1.1
      exact .of_ok rfl (opposes_dated hc.plain htype hvalues (by simpa using hdays) _)
  | domain _ | query _ =>
    simp only [hoperand] at h
    cases h
    exact .of_ok rfl .kept

end Literals

theorem opposes_attachmentExists (hagree : Agree ctx ctx') (hc : c.Inverts op)
    (h : (attachmentExists c ctx).result = .ok x) :
    (attachmentExists (c.withOperator op) ctx').Meets E (Opposes ctx c x) := by
  unfold attachmentExists at h ⊢
  rw [Run.result_bind_eq_ok] at h
  obtain ⟨field, hfield, h⟩ := h
  refine .bind (P := fun f => f = field) (.of_ok (hagree.field_ok hfield) rfl) ?_
  rintro f - rfl
  rw [Condition.operand_withOperator, Condition.operator_withOperator]
  split
  · rename_i hplain
    rw [if_pos hplain] at h
    cases h
    exact .of_ok rfl .kept
  · rename_i hattached
    rw [if_neg hattached] at h
    cases hoperand : c.operand with
    | set values =>
      simp only [hoperand] at h ⊢
      rw [hc.isMembership]
      split
      · rename_i hfalsy
        rw [if_pos hfalsy] at h
        exact opposes_replaceOperand hc h
      · rename_i hrefused
        rw [if_neg hrefused] at h
        cases h
        exact .of_ok rfl (.constant _ _)
    | _ =>
      simp only [hoperand] at h ⊢
      cases h
      exact .of_ok rfl (.constant _ _)

theorem opposes_computedField (hagree : Agree ctx ctx') (hhooks : ctx.entity.Hookless)
    (h : (computedField c ctx).result = .ok x) :
    (computedField (c.withOperator op) ctx').Meets E (Opposes ctx c x) := by
  unfold computedField at h ⊢
  rw [Run.result_bind_eq_ok] at h
  obtain ⟨field, hfield, h⟩ := h
  refine .bind (P := fun f => f = field) (.of_ok (hagree.field_ok hfield) rfl) ?_
  rintro f - rfl
  split
  · rename_i hkeep
    rw [if_pos hkeep] at h
    cases h
    exact .of_ok rfl .kept
  · rename_i hcomputed
    have hhook := Entity.searchHook_eq_none hhooks hfield
    rw [if_neg hcomputed, hhook] at h
    rw [hhook]
    cases h
    exact .of_ok rfl (.constant _ _)

theorem opposes_relatedDomain (hagree : Agree ctx ctx') (hc : c.Inverts op)
    (hop : c.operator.isTraversal = true)
    (hnested : ∀ {target inner r}, (ctx.nested target inner).result = .ok r →
      (ctx'.nested target inner).Meets E fun _ => True)
    (h : (relatedDomain c ctx).result = .ok x) :
    (relatedDomain (c.withOperator op) ctx').Meets E (Opposes ctx c x) := by
  cases hresult : (relatedDomain (c.withOperator op) ctx').result with
  | ok y => exact .of_ok hresult ((mirrored_relatedDomain hagree hc hop h hresult).opposes hc)
  | error e =>
    refine .of_error hresult ?_
    unfold relatedDomain at h hresult
    simp only [Run.result_bind_eq_ok, Run.result_liftM] at h
    obtain ⟨field, hfield, target, htarget, h⟩ := h
    have htarget' : ctx'.target (c.withOperator op) field = .ok target := by
      rw [Context.target_eq_ok (hagree.field_ok hfield), hagree.catalog, hagree.entity]
      exact (Context.target_eq_ok hfield).1 htarget
    rw [Run.result_bind, Run.result_liftM, hagree.field_ok hfield] at hresult
    simp only [Except.bind] at hresult
    rw [Run.result_bind, Run.result_liftM, htarget'] at hresult
    simp only [Except.bind, Condition.operand_withOperator] at hresult
    cases hoperand : c.operand with
    | domain inner =>
      simp only [hoperand, Run.result_bind_eq_ok] at h hresult
      obtain ⟨optimized, hoptimized, -⟩ := h
      rw [Run.result_bind] at hresult
      cases hnested' : (ctx'.nested target inner).result with
      | error e' =>
        rw [hnested'] at hresult
        cases hresult
        exact (hnested hoptimized).error hnested'
      | ok r =>
        rw [hnested'] at hresult
        simp only [Except.bind] at hresult
        split at hresult
        · cases hresult
        split at hresult
        · cases hresult
        split at hresult <;> cases hresult
    | query q =>
      simp only [hoperand] at hresult
      cases hresult
    | _ =>
      simp only [hoperand] at h
      cases h

end Pass

namespace Optimizer

open Domain Pass

section Inverse

variable {ctx ctx' : Context} {c : Condition} {op : Operator} {E : Error → Prop}
  (hagree : Agree ctx ctx') (hc : c.Inverts op)
  (hhooks : Level.search.le ctx.level = true → ctx.entity.Hookless)
  (howns : Level.search.le ctx.level = true → ctx.entity.OwnsFields)
  (hnested : c.operator.isTraversal = true → ∀ target inner r,
    (ctx.nested target inner).result = .ok r → (ctx'.nested target inner).Meets E fun _ => True)

include hagree hc hhooks howns hnested

theorem opposes_pass {before after : List NamedPass} {pass : NamedPass}
    (hsplit : standard.candidates ctx c = before ++ pass :: after)
    (hbefore : ∀ earlier ∈ before, (earlier.run c ctx).result = .ok none) {x : Option Domain}
    (h : (pass.run c ctx).result = .ok x) :
    (pass.run (c.withOperator op) ctx').Meets E (Opposes ctx c x) := by
  have hmem : pass ∈ standard.candidates ctx c := by simp [hsplit]
  have hmembers : pass.name ∉ ["resolve_field", "membership_value", "search_by_label"] →
      c.operator.isMembership = true → ∃ values, c.operand = .set values :=
    fun hname hop => exists_set_before hop hsplit hbefore hname
  obtain ⟨entry, hentry, hlevel, hcovers, rfl⟩ := mem_candidates.1 hmem
  have hoperators : ∀ operators, entry.scope = .operators operators → c.operator ∈ operators :=
    fun operators hscope => PassScope.covers_operators.1 (hscope ▸ hcovers)
  have hkept : (entry.pass.run c ctx).result = .ok none →
      (entry.pass.run (c.withOperator op) ctx').result = .ok none →
      (entry.pass.run (c.withOperator op) ctx').Meets E (Opposes ctx c x) := by
    intro hkept hkept'
    rw [h, Except.ok.injEq] at hkept
    subst hkept
    exact .of_ok hkept' .kept
  cases Registry.isStandard_of_mem hentry
  all_goals dsimp only at h ⊢
  case resolvePath =>
    obtain ⟨field, hfield, -⟩ := Run.result_bind_eq_ok.1 h
    have hrest := Condition.rest?_eq_none.2 hc.plain
    exact hkept (resolvePath_eq_none.2 ⟨field, hfield, .inl hrest⟩)
      (resolvePath_eq_none.2 ⟨field, hagree.field_ok hfield, .inl hrest⟩)
  case deprecatedOperator | hierarchy =>
    exact absurd (by decide) (hc.not_forall_eq_none (hoperators _ rfl))
  case equalityToMembership =>
    exact opposes_of_mirrored hc ⟨_, result_equalityToMembership _ _⟩
      (mirrored_equalityToMembership hc (by simpa using hoperators _ rfl) h)
  case membershipOperand =>
    have hop := Registry.mem_membershipOperators.1 (hoperators _ rfl)
    exact opposes_of_mirrored hc (exists_membershipOperand _ _) (mirrored_membershipOperand hc hop h)
  case patternOperand =>
    have hop := Registry.mem_patternOperators.1 (hoperators _ rfl)
    exact opposes_of_mirrored hc (exists_patternOperand h) (mirrored_patternOperand hc hop h)
  case labels =>
    exact opposes_of_mirrored hc (exists_labels hagree hc h) (mirrored_labels hagree hc h)
  case relatedDomain =>
    have hop := Operator.mem_traversals.1 (hoperators _ rfl)
    exact opposes_relatedDomain hagree hc hop (hnested hop _ _ _) h
  case manyMembers =>
    exact opposes_of_mirrored hc (exists_manyMembers _ _) (mirrored_manyMembers hc h)
  case booleanMembers =>
    exact opposes_of_mirrored hc (exists_booleanMembers hc h) (mirrored_booleanMembers hc h)
  case dateLiterals => exact opposes_dateLiterals hc h
  case datetimeLiterals =>
    refine opposes_datetimeLiterals hc (hmembers (by decide)) ?_ h
    obtain ⟨field, hfield, htype⟩ := covers_types.1 hcovers
    rw [headType?_of_field hfield, mem_singleton.1 htype]
  case numericLiterals => exact opposes_numericLiterals hagree hc h
  case attachmentExists => exact opposes_attachmentExists hagree hc h
  case inheritedField =>
    obtain ⟨field, hfield, -⟩ := Run.result_bind_eq_ok.1 h
    have hown := (howns hlevel).of_field? (Context.field_eq_ok.1 hfield)
    exact hkept (inheritedField_eq_none.2 ⟨field, hfield, hown⟩)
      (inheritedField_eq_none.2 ⟨field, hagree.field_ok hfield, hown⟩)
  case computedField => exact opposes_computedField hagree (hhooks hlevel) h
  case bothBooleans =>
    exact opposes_of_mirrored hc (exists_bothBooleans _ _) (mirrored_bothBooleans hc h)
  case sqlReady =>
    obtain ⟨rfl, field, hfield, hready⟩ := sqlReady_eq_ok.1 h
    exact hkept h (sqlReady_eq_ok.2 ⟨rfl, field, hagree.field_ok hfield, hready.inverse hc⟩)

/-- The inverse of a condition changes only where the condition does. -/
theorem opposes_stepCondition {s : Step} (h : (standard.stepCondition ctx c).result = .ok s) :
    (standard.stepCondition ctx' (c.withOperator op)).Meets E fun s' =>
      ∀ e, s' = .changed e → ∃ d, s = .changed d ∧ Opposes ctx c (some d) (some e) := by
  have hfirst : ∀ {passes x}, (∀ before pass after, passes = before ++ pass :: after →
        (∀ earlier ∈ before, (earlier.run c ctx).result = .ok none) →
        ∀ {x}, (pass.run c ctx).result = .ok x →
          (pass.run (c.withOperator op) ctx').Meets E (Opposes ctx c x)) →
      (firstChange c ctx passes).result = .ok x →
      (firstChange (c.withOperator op) ctx' passes).Meets E fun y =>
        ∀ name e, y = some (name, e) →
          ∃ name' d, x = some (name', d) ∧ Opposes ctx c (some d) (some e) := by
    intro passes x hpass hx
    induction passes with
    | nil => exact .of_ok (a := none) rfl (by simp)
    | cons pass passes ih =>
      obtain ⟨change, hchange, hx⟩ := Run.result_bind_eq_ok.1 hx
      refine .bind (hpass [] pass passes rfl (by simp) hchange) fun y _ hopposes => ?_
      cases change with
      | none =>
        cases hopposes
        refine ih (fun before next after hsplit hbefore => ?_) hx
        exact hpass (pass :: before) next after (by rw [hsplit]; rfl)
          (forall_mem_cons.2 ⟨hchange, hbefore⟩)
      | some d =>
        cases hx
        cases y with
        | none => cases hopposes
        | some e =>
          refine .of_ok rfl ?_
          rintro name e' ⟨⟩
          exact ⟨_, d, rfl, hopposes⟩
  obtain ⟨x, hx, hs⟩ := Run.result_bind_eq_ok.1 h
  rw [stepCondition, candidates_withOperator hagree hc]
  refine .bind (hfirst (fun before pass after hsplit hbefore => ?_) hx) fun y _ hy => ?_
  · exact opposes_pass hagree hc hhooks howns hnested hsplit hbefore
  · cases y with
    | none => exact .of_ok rfl (by simp)
    | some change =>
      refine .of_ok rfl ?_
      rintro e ⟨⟩
      obtain ⟨name, d, rfl, hopposes⟩ := hy _ _ rfl
      cases hs
      exact ⟨d, rfl, hopposes⟩

end Inverse

section Closure

variable {catalog : Catalog} {level : Level} {entity : Entity} {k : Connective} {d : Domain}

theorem IsValid.optimizeWithin (h : IsValid catalog level d entity) :
    ∃ enough, ∀ depth ≥ enough,
      ∃ r, (standard.optimizeWithin depth catalog level entity d).result = .ok r := by
  obtain ⟨-, enough, r, hr⟩ := h
  refine ⟨enough, fun depth hdepth => ⟨⟨r, entity.name, level⟩, ?_⟩⟩
  exact optimizeWithin_eq_ok.2 ⟨node_of_le hdepth hr, rfl, rfl⟩

theorem IsValid.accepts_settle (h : IsValid catalog level d entity) (depth : Nat) {changes : Nat}
    (hle : changes ≤ standard.maxIterations) :
    (standard.settle (standard.contextAt catalog depth level entity) changes d).Accepts
      fun _ => True := by
  let ctx := standard.contextAt catalog depth level entity
  have hwithin : Run.Within standard.maxIterations (standard.settle ctx changes d)
      (standard.settle ctx standard.maxIterations d) :=
    settle_within Registry.isBuiltIn_standard (fun _ _ => .refl _) (Nat.le_refl _) hle d
  have hnode := h.accepts (depth + 1)
  rw [node_succ] at hnode
  by_cases hdiverged : (standard.settle (standard.contextAt catalog depth level entity) changes
      d).result = .error (.diverged standard.maxIterations)
  · exact .of_error hdiverged rfl
  · have hsame : standard.settle (standard.contextAt catalog depth level entity)
        standard.maxIterations d = standard.settle _ changes d := hwithin hdiverged
    rwa [hsame] at hnode

variable (hhooks : catalog.Hookless) (howns : catalog.OwnsFields)
  (hends : ∀ {entity d}, catalog.entity? entity.name = some entity →
    d.EachMark (Vouched catalog) →
    Run.Ends true fun depth => node catalog depth standard level entity d)
  (hentity : catalog.entity? entity.name = some entity)

include hends hentity

theorem IsValid.of_accepts (hmarks : d.EachMark (Vouched catalog))
    (h : ∀ depth, (node catalog depth standard level entity d).Accepts fun _ => True) :
    IsValid catalog level d entity := by
  obtain ⟨r, ⟨enough, hr⟩, herror⟩ := hends hentity hmarks
  have hresult := hr enough (Nat.le_refl enough)
  cases r with
  | ok result => exact ⟨hmarks, enough, result, hresult⟩
  | error e =>
    have hbroken : e.isBrokenOff = true := (h enough).error hresult
    cases e with
    | tooDeep => cases herror _ rfl
    | diverged => cases herror _ rfl
    | _ => cases hbroken

include hhooks howns

theorem IsValid.nary {children : List Domain}
    (h : ∀ e ∈ children, IsValid catalog level e entity) :
    IsValid catalog level (.nary k children none) entity := by
  refine .of_accepts hends hentity ?_ fun depth => nodesAccepted hhooks howns depth hentity h
  exact eachMark_nary.2 ⟨nofun, fun e he => (h e he).marks⟩

theorem IsValid.apply {ds : List Domain} (h : ∀ e ∈ ds, IsValid catalog level e entity) :
    IsValid catalog level (k.apply ds) entity := by
  refine .of_accepts hends hentity (Connective.eachMark_apply fun e he => (h e he).marks) fun depth => ?_
  exact accepts_apply hentity (fun _ h => nodesAccepted hhooks howns depth hentity h) h

theorem IsValid.of_dated {c : Condition} (hplain : c.isDotted = false)
    (htype : entity.headType? c.path = some .datetime) (h : d.Over (Dated c)) :
    IsValid catalog level d entity := by
  obtain ⟨field, hfield, htype⟩ := Option.map_eq_some_iff.1 htype
  have hrest := Condition.rest?_eq_none.2 hplain
  induction h with
  | constant v => exact .of_settled trivial (.constant v entity)
  | nary _ _ _ ih => exact .nary hhooks howns hends hentity ih
  | @condition c' hdated =>
    have hadmitted : ∀ depth,
        c'.IsAdmitted (standard.contextAt catalog depth level entity) field := by
      intro depth
      cases hdated with
      | bound hop => exact ⟨hfield, .inl hrest, .order hop rfl (by rw [htype]; rfl)⟩
      | moments hop hmembers _ _ =>
        exact ⟨hfield, .inl hrest, .members hop rfl (by rw [htype]; rfl) (by rw [htype]; exact hmembers)⟩
    refine .of_accepts hends hentity ?_ fun depth => ?_
    · cases hdated <;> exact eachMark_leaf.2 nofun
    · cases depth with
      | zero => exact .of_error rfl rfl
      | succ depth => exact accepts_admitted hhooks howns hentity (.inr ⟨c', field, rfl, hadmitted depth⟩)

theorem IsValid.negate_settled (hmarks : d.EachMark (Vouched catalog))
    (h : Settled catalog level d entity) : IsValid catalog level d.negate entity := by
  induction h with
  | constant v entity => exact .of_settled trivial (.constant (!v) entity)
  | negation _ hinner _ => exact .of_settled (eachMark_negation.1 hmarks) hinner
  | nary _ _ ih =>
    rw [Domain.negate, negateAll_eq_map]
    refine .apply hhooks howns hends hentity fun e he => ?_
    obtain ⟨d, hd, rfl⟩ := mem_map.1 he
    exact ih d hd hentity (hmarks.children d hd)
  | @condition c entity hkept hinner _ =>
    refine .of_settled hmarks.negate ?_
    obtain ⟨op, hc⟩ | hstays := c.inverts_or_stays
    · rw [hc.negate]
      refine .condition (hkept.inverse hc) fun inner target hoperand htraversal htarget => ?_
      refine hinner inner target hoperand ?_ htarget
      rw [← (Operator.kinds_of_inverse? hc.inverse).2.2.2]
      exact htraversal
    · rw [Domain.negate, hstays]
      exact .negation hstays (.condition hkept hinner)

theorem IsValid.negation (h : IsValid catalog level d entity) :
    IsValid catalog level (.negation d) entity := by
  refine .of_accepts hends hentity (eachMark_negation.2 h.marks) fun depth => ?_
  cases depth with
  | zero => exact .of_error rfl rfl
  | succ depth =>
    rw [node_succ]
    change (standard.settle _ (999 + 1) _).Accepts _
    rw [settle_succ]
    refine accepts_turn (P := fun next => IsValid catalog level next entity) ?_
      fun next hnext => hnext.accepts_settle depth (by decide)
    rw [step_negation]
    refine .bind (h.accepts depth) fun r hr _ => .of_ok rfl fun next hnext => ?_
    obtain ⟨hmarks, hsettled⟩ := node_settled hhooks.hooksCarry hentity h.marks hr
    have hnegate := negate_settled hhooks howns hends hentity hmarks hsettled
    split at hnext
    · cases hnext
    · cases hnext
      exact hnegate

/-- The inverse of a condition is valid, if the complement of all that the condition changes to is. -/
theorem IsValid.withOperator {depth : Nat} {c : Condition} {op : Operator} {s : Step}
    (hc : c.Inverts op) (hmarks : (Domain.condition c).EachMark (Vouched catalog))
    (h : (standard.stepCondition (standard.contextAt catalog depth level entity) c).result = .ok s)
    (hnext : ∀ next, s = .changed next → IsValid catalog level next.negate entity) :
    IsValid catalog level (.condition (c.withOperator op)) entity := by
  refine .of_accepts hends hentity (eachMark_withOperator hmarks op) fun other => ?_
  cases other with
  | zero => exact .of_error rfl rfl
  | succ other =>
    rw [node_succ]
    change (standard.settle _ (999 + 1) _).Accepts _
    rw [settle_succ]
    refine accepts_turn (P := fun next => IsValid catalog level next entity) ?_
      fun next hnext => hnext.accepts_settle other (by decide)
    have hagree : Agree (standard.contextAt catalog depth level entity)
        (standard.contextAt catalog other level entity) :=
      ⟨rfl, rfl, rfl, fun _ _ _ _ => node_unique⟩
    refine (opposes_stepCondition hagree hc (fun _ => hhooks.of_entity? hentity)
      (fun _ => howns.of_entity? hentity) (fun _ _ _ _ h => accepts_of_node h other) h).mono
      fun s' _ hchange e he => ?_
    obtain ⟨d, rfl, hopposes⟩ := hchange e he
    cases hopposes with
    | complement => exact hnext d rfl
    | constant _ v => exact .of_settled trivial (.constant v entity)
    | dated htype hdated _ => exact .of_dated hhooks howns hends hentity hc.plain htype hdated

theorem IsValid.negate_of_settle {depth : Nat}
    (hlower : ∀ {e r}, e.EachMark (Vouched catalog) →
      (node catalog depth standard level entity e).result = .ok r →
      IsValid catalog level e.negate entity)
    {changes : Nat} (hle : changes ≤ standard.maxIterations) {r : Domain}
    (hmarks : d.EachMark (Vouched catalog))
    (h : (standard.settle (standard.contextAt catalog depth level entity) changes d).result = .ok r) :
    IsValid catalog level d.negate entity := by
  induction changes using Nat.strong_induction_on generalizing d with
  | _ changes ih =>
    have hnode : (node catalog (depth + 1) standard level entity d).result = .ok r := by
      rw [node_succ]
      exact settle_of_le hle h
    cases d with
    | constant v => exact .of_settled trivial (.constant (!v) entity)
    | negation inner => exact IsValid.inner ⟨hmarks, depth + 1, r, hnode⟩
    | nary k children mark =>
      rw [Domain.negate, negateAll_eq_map]
      refine .apply hhooks howns hends hentity fun e he => ?_
      obtain ⟨d, hd, rfl⟩ := mem_map.1 he
      obtain hsettled | ⟨r', hr'⟩ := children_of_node hentity hmarks hnode d hd
      · exact .negate_settled hhooks howns hends hentity (hmarks.children d hd) hsettled
      · exact hlower (hmarks.children d hd) hr'
    | condition c =>
      obtain ⟨op, hc⟩ | hstays := c.inverts_or_stays
      · rw [hc.negate]
        obtain ⟨hcovered, rfl⟩ | ⟨-, hstep⟩ | ⟨next, fewer, -, hstep, rfl, hnext⟩ := settle_turn.1 h
        · have hsettled : Settled catalog level (.condition c) entity :=
            settled_of_covered hentity hmarks hcovered
          rw [← hc.negate]
          exact .negate_settled hhooks howns hends hentity hmarks hsettled
        · exact .withOperator hhooks howns hends hentity hc hmarks hstep (by simp)
        · refine .withOperator hhooks howns hends hentity hc hmarks hstep ?_
          rintro _ ⟨⟩
          refine ih fewer (Nat.lt_succ_self fewer) (Nat.le_of_succ_le hle) ?_ hnext
          exact (step_eq_ok hstep).settled hentity (hhooks.of_entity? hentity).hooksCarry
            (fun _ _ _ htarget hmarks => node_settled hhooks.hooksCarry htarget hmarks) hmarks
      · rw [Domain.negate, hstays]
        exact .negation hhooks howns hends hentity ⟨hmarks, depth + 1, r, hnode⟩

theorem IsValid.negate (h : IsValid catalog level d entity) :
    IsValid catalog level d.negate entity := by
  obtain ⟨hmarks, depth, r, hr⟩ := h
  induction depth generalizing d r with
  | zero => cases hr
  | succ depth ih =>
    rw [node_succ] at hr
    exact .negate_of_settle hhooks howns hends hentity (fun hmarks hr => ih hmarks _ hr) (Nat.le_refl _)
      hmarks hr

end Closure

/-- Combinations of domains that can be optimized can be optimized, with depth enough, where no
field is inherited and names of records do not lead in a circle. -/
theorem optimize_combination {catalog : Catalog} {level : Level} {entity : Entity} {a b : Domain}
    {r s : OptimizedDomain} {m n : Nat} (hhooks : catalog.Hookless) (howns : catalog.OwnsFields)
    (hid : ∀ entity ∈ catalog.entities, ∀ field ∈ entity.fields,
      field.name = Entity.idName → field.isRelational = false)
    (hname : ∀ entity ∈ catalog.entities, '.' ∉ entity.recName.toList)
    (hcycle : ∀ entity, ¬Relation.TransGen catalog.NamedBy entity entity)
    (hentity : catalog.entity? entity.name = some entity)
    (ha : a.unmarked = a) (hb : b.unmarked = b)
    (hr : (standard.optimizeWithin m catalog level entity a).result = .ok r)
    (hs : (standard.optimizeWithin n catalog level entity b).result = .ok s) :
    ∃ enough, ∀ depth ≥ enough,
      (∃ r, (standard.optimizeWithin depth catalog level entity (.and [a, b])).result = .ok r) ∧
      (∃ r, (standard.optimizeWithin depth catalog level entity (.or [a, b])).result = .ok r) ∧
      ∃ r, (standard.optimizeWithin depth catalog level entity a.negate).result = .ok r := by
  have hends : ∀ {entity d}, catalog.entity? entity.name = some entity →
      d.EachMark (Vouched catalog) →
      Run.Ends true fun depth => node catalog depth standard level entity d := by
    have hfounded := isFounded_of_ownsFields howns hid hname hcycle
    intro entity d
    exact ends_node hhooks hfounded.alike (fun _ => howns) hfounded.acyclic
  have hvalid : ∀ {d : Domain} {depth r}, d.unmarked = d →
      (standard.optimizeWithin depth catalog level entity d).result = .ok r →
      IsValid catalog level d entity := by
    intro d depth r hd hr
    exact ⟨hd ▸ eachMark_mapValues id d, depth, r.domain, (optimizeWithin_eq_ok.1 hr).1⟩
  have hparts : ∀ d ∈ [a, b], IsValid catalog level d entity := by
    simpa using ⟨hvalid ha hr, hvalid hb hs⟩
  have hand : IsValid catalog level (.and [a, b]) entity := .apply hhooks howns hends hentity hparts
  have hor : IsValid catalog level (.or [a, b]) entity := .apply hhooks howns hends hentity hparts
  have hnot : IsValid catalog level a.negate entity :=
    (hvalid ha hr).negate hhooks howns hends hentity
  obtain ⟨enough, hand⟩ := hand.optimizeWithin
  obtain ⟨enough', hor⟩ := hor.optimizeWithin
  obtain ⟨enough'', hnot⟩ := hnot.optimizeWithin
  refine ⟨max enough (max enough' enough''), fun depth hdepth => ?_⟩
  simp only [ge_iff_le, max_le_iff] at hdepth
  exact ⟨hand depth hdepth.1, hor depth hdepth.2.1, hnot depth hdepth.2.2⟩

/-- Two conditions on the same relation, which are merged. -/
theorem optimize_combination_items :
    let item : Entity :=
      { name := "i", recName := "n"
        fields := [{ name := "n", type := .integer }, .many2one "up" "i"] }
    let catalog : Catalog := { entities := [item] }
    let a : Domain := .leaf "up.n" .equal (.scalar (.text "5"))
    let b : Domain := .leaf "up" .any (.domain (.leaf "n" .less (.scalar (.int 1))))
    catalog.Hookless ∧ catalog.OwnsFields ∧
    (∀ entity, ¬Relation.TransGen catalog.NamedBy entity entity) ∧
    (∃ r, (standard.optimizeWithin 3 catalog .sql item a).result = .ok r) ∧
    (∃ r, (standard.optimizeWithin 3 catalog .sql item b).result = .ok r) ∧
    ∃ enough, ∀ depth ≥ enough,
      (∃ r, (standard.optimizeWithin depth catalog .sql item (.and [a, b])).result = .ok r) ∧
      (∃ r, (standard.optimizeWithin depth catalog .sql item (.or [a, b])).result = .ok r) ∧
      ∃ r, (standard.optimizeWithin depth catalog .sql item a.negate).result = .ok r := by
  intro item catalog a b
  have hhooks : catalog.Hookless := by
    unfold Catalog.Hookless Entity.Hookless
    decide
  have howns : catalog.OwnsFields := by
    unfold Catalog.OwnsFields Entity.OwnsFields
    decide
  have hnames : catalog.NamesGoDown fun _ => 0 := by decide
  have ha : (standard.optimizeWithin 3 catalog .sql item a).result = .ok
      ⟨.condition ⟨"up", .any, .domain (.condition ⟨"n", .mem, .set ⟨[.int 5]⟩,
        some ⟨"i", .sql⟩⟩), some ⟨"i", .sql⟩⟩, "i", .sql⟩ := by cbv
  have hb : (standard.optimizeWithin 3 catalog .sql item b).result = .ok
      ⟨.condition ⟨"up", .any, .domain (.leaf "n" .less (.scalar (.int 1))),
        some ⟨"i", .sql⟩⟩, "i", .sql⟩ := by cbv
  exact ⟨hhooks, howns, hnames.noNameCycle, ⟨_, ha⟩, ⟨_, hb⟩, optimize_combination hhooks howns
    (by decide) (by decide) hnames.noNameCycle rfl rfl rfl ha hb⟩

end Optimizer

end QueryDomain
