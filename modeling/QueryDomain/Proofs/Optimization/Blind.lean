import QueryDomain.Proofs.Domain.Unmarked
import QueryDomain.Proofs.Optimization.Replacing

/-! No pass looks at marks. Tried on a condition without its marks, a pass does what it does to the
condition itself: it keeps both, replaces both by the same domain, or refuses both for the same
reason. -/
namespace QueryDomain

/-- Both succeed, with results in the relation, or both fail, with errors that differ in marks
alone. -/
inductive Agrees {α β : Type} (R : α → β → Prop) : Except Error α → Except Error β → Prop
  | ok {x y} : R x y → Agrees R (.ok x) (.ok y)
  | error {e e'} : e.unmarked = e'.unmarked → Agrees R (.error e) (.error e')

namespace Agrees

variable {α β γ δ : Type} {R : α → β → Prop} {S : γ → δ → Prop}

theorem refl (r : Except Error α) : Agrees Eq r r := by
  cases r with
  | ok x => exact .ok rfl
  | error e => exact .error rfl

theorem bind {r : Except Error α} {r' : Except Error β} {f : α → Except Error γ}
    {g : β → Except Error δ} (h : Agrees R r r') (hfg : ∀ x y, R x y → Agrees S (f x) (g y)) :
    Agrees S (r.bind f) (r'.bind g) := by
  cases h with
  | ok hxy => exact hfg _ _ hxy
  | error he => exact .error he

theorem ne_tooDeep {r : Except Error α} {r' : Except Error β} (h : Agrees R r r')
    (hr : r ≠ .error .tooDeep) : r' ≠ .error .tooDeep := by
  cases h with
  | ok hxy => nofun
  | error he =>
    rintro ⟨⟩
    exact hr (by rw [Error.unmarked_eq_tooDeep.1 he])

theorem of_common {T : α → α → Prop} (hT : ∀ x x' y, R x y → R x' y → T x x')
    {r s : Except Error α} {t : Except Error β} (hr : Agrees R r t) (hs : Agrees R s t) :
    Agrees T r s := by
  cases hr with
  | ok hxy =>
    cases hs with
    | ok hxy' => exact .ok (hT _ _ _ hxy hxy')
  | error he =>
    cases hs with
    | error he' => exact .error (he.trans he'.symm)

theorem mapM {f g : α → Except Error β} (h : ∀ x, Agrees Eq (f x) (g x)) (xs : List α) :
    Agrees Eq (xs.mapM f) (xs.mapM g) := by
  induction xs with
  | nil => exact .refl _
  | cons x xs ih =>
    rw [List.mapM_cons, List.mapM_cons]
    refine (h x).bind fun y _ hy => ?_
    subst hy
    refine ih.bind fun ys _ hys => ?_
    subst hys
    exact .refl _

end Agrees

namespace Run

variable {α β γ δ : Type}

def Agree (R : α → β → Prop) (a : Run Error α) (b : Run Error β) : Prop :=
  Agrees R a.result b.result

namespace Agree

variable {R : α → β → Prop} {S : γ → δ → Prop}

theorem refl (a : Run Error α) : a.Agree Eq a := Agrees.refl a.result

theorem throw {e e' : Error} (h : e.unmarked = e'.unmarked) :
    (throw e : Run Error α).Agree R (throw e') :=
  .error h

theorem bind {a : Run Error α} {b : Run Error β} {f : α → Run Error γ} {g : β → Run Error δ}
    (hab : a.Agree R b) (hfg : ∀ x y, R x y → (f x).Agree S (g y)) :
    (a >>= f).Agree S (b >>= g) := by
  unfold Agree
  rw [result_bind, result_bind]
  exact Agrees.bind hab hfg

theorem bind_eq {a b : Run Error α} {f : α → Run Error γ} {g : α → Run Error δ} (hab : a.Agree Eq b)
    (hfg : ∀ x, (f x).Agree S (g x)) : (a >>= f).Agree S (b >>= g) :=
  hab.bind fun x _ hxy => hxy ▸ hfg x

theorem report {e e' : Event} {a : Run Error α} {b : Run Error β} (hab : a.Agree R b) :
    (Run.report e >>= fun _ => a).Agree R (Run.report e' >>= fun _ => b) :=
  bind (R := Eq) (.ok rfl) fun _ _ _ => hab

theorem mapM {f g : α → Run Error β} (h : ∀ x, (f x).Agree Eq (g x)) (xs : List α) :
    (xs.mapM f).Agree Eq (xs.mapM g) := by
  induction xs with
  | nil => exact .refl _
  | cons x xs ih =>
    rw [List.mapM_cons, List.mapM_cons]
    exact .bind_eq (h x) fun _ => .bind_eq ih fun _ => .refl _

theorem ite {p : Prop} [Decidable p] {a c : Run Error α} {b d : Run Error β}
    (hab : p → a.Agree R b) (hcd : ¬p → c.Agree R d) :
    (if p then a else c).Agree R (if p then b else d) := by
  split
  · exact hab ‹_›
  · exact hcd ‹_›

theorem guard {p : Prop} [Decidable p] {e e' : Error} {f : γ → Run Error α} {g : δ → Run Error β}
    {a : Run Error α} {b : Run Error β} (he : e.unmarked = e'.unmarked) (hab : a.Agree R b) :
    (if p then MonadExcept.throw e >>= f else a).Agree R
      (if p then MonadExcept.throw e' >>= g else b) :=
  ite (fun _ => .error he) fun _ => hab

end Agree

end Run

namespace Context

variable (ctx : Context) (c : Condition) (field : Field)

@[simp] theorem field_unmarked : ctx.field c.unmarked = ctx.field c := by
  unfold Context.field Entity.conditionField
  rw [Condition.head_unmarked, Condition.display_unmarked]

theorem agrees_comodel :
    Agrees Eq (ctx.catalog.comodel c field) (ctx.catalog.comodel c.unmarked field) := by
  unfold Catalog.comodel
  cases field.comodel with
  | some name => exact .refl _
  | none => exact .error (by simp [Error.unmarked])

theorem agrees_target : Agrees Eq (ctx.target c field) (ctx.target c.unmarked field) := by
  unfold Context.target
  split
  · exact .ok rfl
  · split
    · exact agrees_comodel ctx c field
    · exact .error (by simp [Error.unmarked])

end Context

namespace Pass

variable {ctx : Context}

def SameChange (r r' : Option Domain) : Prop := r.map Domain.unmarked = r'.map Domain.unmarked

theorem SameChange.cases {r r' : Option Domain} (h : SameChange r r') :
    (r = none ∧ r' = none) ∨ ∃ d d', r = some d ∧ r' = some d' ∧ d.Alike d' := by
  cases r with
  | none => exact .inl ⟨rfl, by simpa [SameChange] using h.symm⟩
  | some d =>
    obtain ⟨d', rfl, hd⟩ := Option.map_eq_some_iff.1 h.symm
    exact .inr ⟨d, d', rfl, rfl, hd.symm⟩

/-- The pass does the same to a condition and to the condition without its marks. -/
def Blind (pass : Pass) (ctx : Context) : Prop :=
  ∀ c, (pass c ctx).Agree SameChange (pass c.unmarked ctx)

theorem Blind.agree {pass : Pass} (h : Blind pass ctx) {c c' : Condition}
    (hc : c.unmarked = c'.unmarked) : (pass c ctx).Agree SameChange (pass c' ctx) := by
  have hright := h c'
  rw [← hc] at hright
  exact (h c).of_common (fun _ _ _ hchange hchange' => hchange.trans hchange'.symm) hright

theorem agree_keep : (keep : Run Error (Option Domain)).Agree SameChange keep := .ok rfl

theorem agree_replace {d d' : Domain} (h : d.unmarked = d'.unmarked) :
    (replace d).Agree SameChange (replace d') :=
  .ok (congrArg some h)

theorem agree_replaceOperand (c : Condition) (x : Operand) :
    (replaceOperand c x).Agree SameChange (replaceOperand c.unmarked x) := by
  unfold replaceOperand
  rw [Condition.operand_unmarked, Operand.sameFlat_unmarked]
  refine .ite (fun _ => agree_keep) fun _ => agree_replace ?_
  rw [Domain.unmarked_condition, Domain.unmarked_condition, Condition.unmarked_withOperand,
    Condition.unmarked_withOperand, Condition.unmarked_unmarked]

theorem blind_deprecatedOperator : Blind deprecatedOperator ctx := by
  intro c
  have hmodern (operator : Operator) : Run.Agree SameChange
      (replace (.condition (c.withOperator operator)))
      (replace (.condition (c.unmarked.withOperator operator))) := by
    refine agree_replace ?_
    rw [← Condition.unmarked_withOperator, Domain.unmarked_condition, Domain.unmarked_condition,
      Condition.unmarked_unmarked]
  unfold deprecatedOperator
  simp only [Condition.operator_unmarked, Condition.operand_unmarked, Operand.isFalsy_unmarked]
  cases c.operator with
  | doubleEqual | lessGreater => exact .report (hmodern _)
  | equalIfSet => exact .ite (fun _ => agree_replace rfl) fun _ => .report (hmodern _)
  | _ => exact agree_keep

theorem blind_equalityToMembership : Blind equalityToMembership ctx := by
  intro c
  unfold equalityToMembership
  simp only [Condition.operator_unmarked, Condition.operand_unmarked, Condition.path_unmarked]
  cases c.operand with
  | scalar value => exact agree_replace rfl
  | set _ | domain _ | query _ => exact .report (agree_replace (by simp))

theorem blind_membershipOperand : Blind membershipOperand ctx := by
  intro c
  have htraversal (operator : Operator) : (Domain.condition (c.withOperator operator)).unmarked =
      (Domain.condition (c.unmarked.withOperator operator)).unmarked := by
    rw [← Condition.unmarked_withOperator, Domain.unmarked_condition, Domain.unmarked_condition,
      Condition.unmarked_unmarked]
  unfold membershipOperand
  simp only [Condition.operator_unmarked, Condition.operand_unmarked]
  cases c.operand with
  | scalar value =>
    refine .report (agree_replace ?_)
    simp [Condition.unmarked_withOperand]
  | set values =>
    rw [Operand.unmarked_set]
    exact .ite (fun _ => agree_replace rfl) fun _ => agree_keep
  | domain _ | query _ => exact agree_replace (htraversal _)

theorem blind_patternOperand : Blind patternOperand ctx := by
  intro c
  unfold patternOperand
  simp only [Condition.operator_unmarked, Condition.operand_unmarked, Condition.path_unmarked]
  cases hoperand : c.operand with
  | scalar value =>
    refine .ite (fun _ => ?_) fun _ => ?_
    · cases c.operator <;> exact agree_replace rfl
    · cases value with
      | text _ => exact agree_keep
      | _ => exact .throw (by simp [Error.unmarked])
  | set _ | domain _ | query _ => exact .throw (by simp [Error.unmarked, Mismatch.unmarked])

theorem blind_resolvePath : Blind resolvePath ctx := by
  intro c
  unfold resolvePath
  simp only [Context.field_unmarked, Condition.rest?_unmarked, Condition.operator_unmarked,
    Condition.operand_unmarked]
  refine .bind_eq (.refl _) fun field => ?_
  cases c.rest? with
  | none => exact agree_keep
  | some rest =>
    refine .ite (fun _ => agree_replace ?_) fun _ => .ite (fun _ => agree_keep) fun _ => ?_
    · simp [traversal]
    · exact .throw (by simp [Error.unmarked])

theorem blind_inheritedField : Blind inheritedField ctx := by
  intro c
  unfold inheritedField
  rw [Context.field_unmarked]
  refine .bind_eq (.refl _) fun field => ?_
  cases field.delegatedVia with
  | none => exact agree_keep
  | some link => exact .report (agree_replace (by simp [traversal, Condition.unmarked_withoutMark]))

theorem blind_computedField (hhooks : ctx.entity.Hookless) : Blind computedField ctx := by
  intro c
  unfold computedField
  rw [Context.field_unmarked]
  cases hfield : ctx.field c with
  | error e => exact .error rfl
  | ok field =>
    refine .ite (fun _ => agree_keep) fun _ => ?_
    rw [Entity.searchHook_eq_none hhooks hfield]
    exact .report (agree_replace rfl)

theorem blind_labels : Blind labels ctx := by
  intro c
  unfold labels
  simp only [Context.field_unmarked, Condition.isDotted_unmarked, Condition.operator_unmarked,
    Condition.operand_unmarked]
  refine .bind_eq (.refl _) fun field => .ite (fun _ => agree_keep) fun _ => ?_
  cases c.operand with
  | set values =>
    rw [Operand.unmarked_set]
    refine .ite (fun _ => agree_keep) fun _ => ?_
    exact .bind_eq (ctx.agrees_comodel c field) fun comodel => agree_replace rfl
  | scalar value =>
    cases value with
    | text _ =>
      refine .ite (fun _ => agree_keep) fun _ => ?_
      exact .bind_eq (ctx.agrees_comodel c field) fun comodel => agree_replace rfl
    | _ => exact agree_keep
  | _ => exact agree_keep

theorem blind_manyMembers : Blind manyMembers ctx := by
  intro c
  unfold manyMembers
  simp only [Condition.isDotted_unmarked, Condition.operator_unmarked, Condition.operand_unmarked,
    Condition.path_unmarked]
  cases c.operand with
  | set values =>
    rw [Operand.unmarked_set]
    exact .ite (fun _ => agree_keep) fun _ => agree_replace rfl
  | _ => exact agree_keep

theorem blind_bothBooleans : Blind bothBooleans ctx := by
  intro c
  unfold bothBooleans
  simp only [Condition.operator_unmarked, Condition.operand_unmarked]
  cases c.operand with
  | set values =>
    rw [Operand.unmarked_set]
    exact .ite (fun _ => agree_replace rfl) fun _ => agree_keep
  | _ => exact agree_keep

theorem blind_attachmentExists : Blind attachmentExists ctx := by
  intro c
  unfold attachmentExists
  simp only [Context.field_unmarked, Condition.operator_unmarked, Condition.operand_unmarked]
  refine .bind_eq (.refl _) fun field => .ite (fun _ => agree_keep) fun _ => ?_
  cases c.operand with
  | set values =>
    rw [Operand.unmarked_set]
    refine .ite (fun _ => agree_replaceOperand c _) fun _ => ?_
    exact .report (agree_replace rfl)
  | _ => exact .report (agree_replace rfl)

theorem blind_sqlReady : Blind sqlReady ctx := by
  intro c
  have hshape : acceptsShape c.operator c.operand.unmarked = acceptsShape c.operator c.operand := by
    cases c.operand <;> simp [acceptsShape]
  unfold sqlReady
  simp only [Context.field_unmarked, Condition.isDotted_unmarked, Condition.operator_unmarked,
    Condition.operand_unmarked, hshape]
  refine .guard (by simp [Error.unmarked]) <| .bind_eq (.refl _) fun field => ?_
  refine .guard (by simp [Error.unmarked]) <| .guard (by simp [Error.unmarked]) ?_
  refine .guard (by simp [Error.unmarked, Mismatch.unmarked]) ?_
  exact .guard (by simp [Error.unmarked]) agree_keep

theorem agrees_refused (c : Condition) (cause : Mismatch) :
    Agrees (α := Value) Eq (.error (.mismatch c cause)) (.error (.mismatch c.unmarked cause)) :=
  .error (by simp [Error.unmarked])

def BlindCoercion (coerce : Condition → Value → Except Error Value) : Prop :=
  ∀ c v, Agrees Eq (coerce c v) (coerce c.unmarked v)

theorem blind_toBoolean : BlindCoercion toBoolean := by
  intro c v
  unfold toBoolean
  split
  · exact .ok rfl
  · cases v.asBool? with
    | some b => exact .ok rfl
    | none => exact agrees_refused c _

theorem blind_toNumber (integer : Bool) : BlindCoercion fun c => toNumber c integer := by
  intro c v
  unfold toNumber
  cases v with
  | bool b =>
    cases b with
    | false => exact .refl _
    | true => exact agrees_refused c _
  | text raw =>
    dsimp only
    split
    · exact .refl _
    · exact agrees_refused c _
  | null | int _ | float _ => exact .refl _
  | _ => exact agrees_refused c _

theorem blind_toDate : BlindCoercion toDate := by
  intro c v
  unfold toDate
  cases v with
  | bool b =>
    cases b with
    | false => exact .refl _
    | true => exact agrees_refused c _
  | text raw =>
    dsimp only
    split
    · exact .refl _
    · exact agrees_refused c _
  | null | date _ | timestamp _ => exact .refl _
  | _ => exact agrees_refused c _

theorem blind_toDatetime : BlindCoercion toDatetime := by
  intro c v
  unfold toDatetime
  cases v with
  | bool b =>
    cases b with
    | false => exact .refl _
    | true => exact agrees_refused c _
  | text raw =>
    dsimp only
    split
    · exact .refl _
    · exact agrees_refused c _
  | null | date _ | timestamp _ => exact .refl _
  | _ => exact agrees_refused c _

theorem BlindCoercion.coerceSet {coerce : Condition → Value → Except Error Value}
    (h : BlindCoercion coerce) (c : Condition) (values : ValueSet) :
    Agrees Eq (coerceSet (coerce c) values) (coerceSet (coerce c.unmarked) values) :=
  (Agrees.mapM (h c) values.values).bind fun _ _ hmapped => hmapped ▸ .refl _

theorem blind_booleanMembers : Blind booleanMembers ctx := by
  intro c
  unfold booleanMembers
  simp only [Condition.operator_unmarked, Condition.operand_unmarked, Condition.path_unmarked]
  cases c.operand with
  | set values =>
    rw [Operand.unmarked_set]
    refine .ite (fun _ => ?_) fun _ => agree_keep
    refine .bind_eq (blind_toBoolean.coerceSet c values) fun coerced => ?_
    exact .ite (fun _ => agree_replace rfl) fun _ => agree_replaceOperand c _
  | _ => exact agree_keep

theorem comparesLiterals_unmarked (c : Condition) :
    comparesLiterals c.unmarked = comparesLiterals c := by
  simp [comparesLiterals]

theorem ordersUnset_unmarked (c : Condition) : ordersUnset c.unmarked = ordersUnset c := by
  unfold ordersUnset
  rw [Condition.operator_unmarked, Condition.operand_unmarked]
  cases c.operand <;> simp

theorem blind_numericLiterals : Blind numericLiterals ctx := by
  intro c
  unfold numericLiterals
  simp only [comparesLiterals_unmarked, ordersUnset_unmarked, Context.field_unmarked,
    Condition.operand_unmarked]
  refine .ite (fun _ => .bind_eq (.refl _) fun field => ?_) fun _ => agree_keep
  have hcoerce := blind_toNumber (field.type == .integer)
  refine .ite (fun _ => agree_replace rfl) fun _ => ?_
  cases c.operand with
  | scalar value => exact .bind_eq (hcoerce c value) fun _ => agree_replaceOperand c _
  | set values =>
    rw [Operand.unmarked_set]
    exact .bind_eq (hcoerce.coerceSet c values) fun _ => agree_replaceOperand c _
  | domain _ | query _ => exact agree_keep

theorem agree_orderedUnset (c : Condition) :
    (orderedUnset c).Agree SameChange (orderedUnset c.unmarked) :=
  .report (agree_replace rfl)

theorem blind_dateLiterals : Blind dateLiterals ctx := by
  intro c
  unfold dateLiterals
  simp only [comparesLiterals_unmarked, ordersUnset_unmarked, Condition.operand_unmarked]
  refine .ite (fun _ => agree_keep) fun _ => .ite (fun _ => agree_orderedUnset c) fun _ => ?_
  cases c.operand with
  | scalar value => exact .bind_eq (blind_toDate c value) fun _ => agree_replaceOperand c _
  | set values =>
    rw [Operand.unmarked_set]
    exact .bind_eq (blind_toDate.coerceSet c values) fun _ => agree_replaceOperand c _
  | domain _ | query _ => exact agree_keep

theorem dayBound_unmarked (c : Condition) (day : Date) :
    dayBound c.unmarked day = dayBound c day := by
  simp only [dayBound, compareAt, Condition.operator_unmarked, Condition.path_unmarked]

theorem dayMembership_unmarked (c : Condition) (values : ValueSet) :
    dayMembership c.unmarked values = dayMembership c values := by
  have hwithin : withinDay c.unmarked = withinDay c := by
    funext day
    simp only [withinDay, compareAt, Condition.path_unmarked]
  simp only [dayMembership, hwithin, Condition.operator_unmarked, Condition.path_unmarked]

theorem blind_datetimeLiterals : Blind datetimeLiterals ctx := by
  intro c
  unfold datetimeLiterals
  simp only [comparesLiterals_unmarked, ordersUnset_unmarked, Condition.operand_unmarked]
  refine .ite (fun _ => agree_keep) fun _ => .ite (fun _ => agree_orderedUnset c) fun _ => ?_
  cases c.operand with
  | scalar value =>
    refine .bind_eq (blind_toDatetime c value) fun coerced => ?_
    cases coerced with
    | date day => exact agree_replace (by rw [dayBound_unmarked])
    | _ => exact agree_replaceOperand c _
  | set values =>
    rw [Operand.unmarked_set]
    refine .bind_eq (blind_toDatetime.coerceSet c values) fun coerced => ?_
    refine .ite (fun _ => agree_replaceOperand c _) fun _ => agree_replace ?_
    rw [dayMembership_unmarked]
  | domain _ | query _ => exact agree_keep

end Pass

namespace Hierarchy

variable (c : Condition) (ctx : Context) (target : Entity) (parent : String) (ids : List Int)

theorem agree_seeds : (seeds c ctx target).Agree Eq (seeds c.unmarked ctx target) := by
  have hvalues : (startValues c).Agree Eq (startValues c.unmarked) := by
    unfold startValues
    rw [Condition.operator_unmarked, Condition.operand_unmarked]
    cases c.operand with
    | scalar value => exact .refl _
    | set values =>
      rw [Operand.unmarked_set]
      exact .refl _
    | domain _ | query _ => exact .throw (by simp [Error.unmarked, Mismatch.unmarked])
  have hids : ∀ value,
      (startIds c ctx target value).Agree Eq (startIds c.unmarked ctx target value) := by
    intro value
    unfold startIds
    cases value with
    | int _ | text _ => exact .refl _
    | _ => exact .ite (fun _ => .refl _) fun _ => .throw (by simp [Error.unmarked])
  rw [seeds_eq, seeds_eq]
  exact .bind_eq hvalues fun _ => .bind_eq (.mapM hids _) fun _ => .refl _

theorem agrees_requireParent :
    Agrees Eq (requireParent c target parent) (requireParent c.unmarked target parent) := by
  unfold requireParent
  cases target.field? parent with
  | some field => exact .refl _
  | none => exact .error (by simp [Error.unmarked])

theorem agree_walk : (walk c ctx target parent ids).Agree Eq
    (walk c.unmarked ctx target parent ids) := by
  have hparent := agrees_requireParent c target parent
  unfold walk descendants ancestors
  rw [Condition.operator_unmarked]
  refine .ite (fun _ => ?_) fun _ => ?_
  · exact .ite (fun _ => .refl _) fun _ => .bind_eq hparent fun _ => .refl _
  · exact .ite (fun _ => .refl _) fun _ => .bind_eq hparent fun _ => .refl _

end Hierarchy

namespace Pass

variable {ctx : Context}

theorem blind_hierarchy : Blind hierarchy ctx := by
  intro c
  rw [hierarchy_eq, hierarchy_eq, Context.field_unmarked]
  refine .bind_eq (.refl _) fun field => ?_
  have hwalked : (Hierarchy.walked c ctx field).Agree Eq
      (Hierarchy.walked c.unmarked ctx field) :=
    .ite (fun _ => .refl _) fun _ => ctx.agrees_target c field
  refine .bind_eq hwalked fun target => .bind_eq (Hierarchy.agree_seeds c ctx target) fun ids => ?_
  refine .ite (fun _ => agree_replace rfl) fun _ => ?_
  refine .bind_eq (Hierarchy.agree_walk c ctx target _ ids) fun found => .report ?_
  exact .ite (fun _ => agree_replace rfl) fun _ => agree_replace rfl

/-- No standard pass looks at marks, but for the optimization of nested domains. -/
theorem blind_standard (hhooks : ctx.entity.Hookless) :
    ∀ entry ∈ Registry.standard.passes,
      entry.pass.run = relatedDomain ∨ Blind entry.pass.run ctx := by
  intro entry hentry
  cases Registry.isStandard_of_mem hentry with
  | resolvePath => exact .inr blind_resolvePath
  | deprecatedOperator => exact .inr blind_deprecatedOperator
  | equalityToMembership => exact .inr blind_equalityToMembership
  | membershipOperand => exact .inr blind_membershipOperand
  | patternOperand => exact .inr blind_patternOperand
  | labels => exact .inr blind_labels
  | relatedDomain => exact .inl rfl
  | manyMembers => exact .inr blind_manyMembers
  | booleanMembers => exact .inr blind_booleanMembers
  | dateLiterals => exact .inr blind_dateLiterals
  | datetimeLiterals => exact .inr blind_datetimeLiterals
  | numericLiterals => exact .inr blind_numericLiterals
  | attachmentExists => exact .inr blind_attachmentExists
  | inheritedField => exact .inr blind_inheritedField
  | computedField => exact .inr (blind_computedField hhooks)
  | hierarchy => exact .inr blind_hierarchy
  | bothBooleans => exact .inr blind_bothBooleans
  | sqlReady => exact .inr blind_sqlReady

end Pass

end QueryDomain
