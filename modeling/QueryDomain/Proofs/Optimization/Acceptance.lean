import QueryDomain.Proofs.Optimization.Cap
import QueryDomain.Proofs.Optimization.Termination

/-! Domains in which the optimizer finds nothing wrong, and what is put together from them. The
children of a node are accepted one by one; what merging makes of them is a comparison with literals
of the type of the field, or a traversal to a domain joined from accepted ones. -/
namespace QueryDomain

open List

namespace Run

variable {α β : Type} {E : Error → Prop} {P : α → Prop} {Q : β → Prop}

def Meets (E : Error → Prop) (P : α → Prop) (run : Run Error α) : Prop :=
  match run.result with
  | .ok a => P a
  | .error e => E e

namespace Meets

theorem of_ok {run : Run Error α} {a : α} (h : run.result = .ok a) (ha : P a) : run.Meets E P := by
  unfold Meets
  rwa [h]

theorem of_error {run : Run Error α} {e : Error} (h : run.result = .error e) (he : E e) :
    run.Meets E P := by
  unfold Meets
  rwa [h]

theorem ok {run : Run Error α} (h : run.Meets E P) {a : α} (ha : run.result = .ok a) : P a := by
  unfold Meets at h
  rwa [ha] at h

theorem error {run : Run Error α} (h : run.Meets E P) {e : Error} (he : run.result = .error e) :
    E e := by
  unfold Meets at h
  rwa [he] at h

theorem exists_ok {run : Run Error α} (h : run.Meets (fun _ => False) P) :
    ∃ a, run.result = .ok a ∧ P a := by
  cases hrun : run.result with
  | ok a => exact ⟨a, rfl, h.ok hrun⟩
  | error e => exact (h.error hrun).elim

theorem mono {R : α → Prop} {run : Run Error α} (h : run.Meets E P)
    (hPR : ∀ a, run.result = .ok a → P a → R a) : run.Meets E R := by
  cases hrun : run.result with
  | ok a => exact .of_ok hrun (hPR a hrun (h.ok hrun))
  | error e => exact .of_error hrun (h.error hrun)

theorem bind {run : Run Error α} {next : α → Run Error β} (h : run.Meets E P)
    (hnext : ∀ a, run.result = .ok a → P a → (next a).Meets E Q) : (run >>= next).Meets E Q := by
  have hbind := result_bind run next
  cases hrun : run.result with
  | error e => exact .of_error (by rw [hbind, hrun]; rfl) (h.error hrun)
  | ok a =>
    have hresult : (run >>= next).result = (next a).result := by
      rw [hbind, hrun]
      rfl
    have ha := hnext a hrun (h.ok hrun)
    unfold Meets at ha ⊢
    rwa [hresult]

theorem mapM {f : α → Run Error β} {as : List α} (h : ∀ a ∈ as, (f a).Meets E Q) :
    (as.mapM f).Meets E fun bs => ∀ b ∈ bs, Q b := by
  induction as with
  | nil => exact .of_ok rfl nofun
  | cons a as ih =>
    rw [List.mapM_cons]
    refine .bind (h a (mem_cons_self ..)) fun b _ hb => ?_
    refine .bind (ih fun a ha => h a (mem_cons_of_mem _ ha)) fun bs _ hbs => .of_ok rfl ?_
    exact forall_mem_cons.2 ⟨hb, hbs⟩

end Meets

/-- Nothing wrong is found: the run is broken off, or has a result of the kind. -/
abbrev Accepts (P : α → Prop) (run : Run Error α) : Prop :=
  run.Meets (fun e => e.isBrokenOff = true) P

end Run

/-- The values that conditions on a field of the type hold once they have been brought to it. -/
def FieldType.takes : FieldType → Value → Bool
  | .boolean => Pass.isBoolean
  | .date => Pass.isDay
  | .datetime => Pass.isMoment
  | .integer | .float | .monetary => Pass.isNumber
  | .many2one | .one2many | .many2many => fun v => !Pass.isLabel v
  | _ => fun _ => true

theorem Operator.kind_of_isMembership {op : Operator} (h : op.isMembership = true) :
    op.isOrdering = false ∧ op.isTraversal = false := by
  obtain rfl | rfl := eq_of_isMembership h <;> exact ⟨rfl, rfl⟩

theorem Operator.kind_of_isTraversal {op : Operator} (h : op.isTraversal = true) :
    op.isOrdering = false ∧ op.isMembership = false := by
  obtain rfl | rfl := eq_of_isTraversal h <;> exact ⟨rfl, rfl⟩

namespace Condition

variable {ctx : Context} {field : Field} {c : Condition}

inductive Asks (ctx : Context) (field : Field) (c : Condition) : Prop
  | members {values : ValueSet} : c.operator.isMembership = true → c.operand = .set values →
      field.type.isX2Many = false → (∀ v ∈ values.values, field.type.takes v = true) →
      Asks ctx field c
  | order {value : Value} : c.operator.isOrdering = true → c.operand = .scalar value →
      field.type.takes value = true → Asks ctx field c
  | related {target : Entity} {inner : Domain} : c.operator.isTraversal = true →
      c.operand = .domain inner → ctx.catalog.target? ctx.entity c.path = some target →
      inner.EachMark (Optimizer.Vouched ctx.catalog) →
      (ctx.nested target inner).Accepts (fun _ => True) → Asks ctx field c

/-- A condition that no pass objects to. -/
structure IsAdmitted (ctx : Context) (field : Field) (c : Condition) : Prop where
  found : ctx.entity.field? c.head = some field
  resolved : c.rest? = none ∨ (field.isRelational = false ∧ field.type = .json)
  asks : c.Asks ctx field

theorem Asks.members_of_isMembership (h : c.Asks ctx field) (hop : c.operator.isMembership = true) :
    ∃ values, c.operand = .set values ∧ field.type.isX2Many = false ∧
      ∀ v ∈ values.values, field.type.takes v = true := by
  obtain ⟨hordering, htraversal⟩ := Operator.kind_of_isMembership hop
  cases h with
  | members _ hoperand hsingle hvalues => exact ⟨_, hoperand, hsingle, hvalues⟩
  | order hop' _ _ => simp [hordering] at hop'
  | related hop' _ _ _ _ => simp [htraversal] at hop'

theorem Asks.operator_kind (h : c.Asks ctx field) :
    (c.operator.isMembership || c.operator.isOrdering || c.operator.isTraversal) = true := by
  cases h with
  | members hop _ _ _ => rw [hop]; rfl
  | order hop _ _ => rw [hop, Bool.or_true]; rfl
  | related hop _ _ _ _ => rw [hop, Bool.or_true]

theorem Asks.isStandard (h : c.Asks ctx field) : c.operator.isStandard = true := by
  have hkind := h.operator_kind
  cases hop : c.operator <;> rw [hop] at hkind <;> first
    | rfl
    | cases hkind

theorem IsAdmitted.withMembers (h : c.IsAdmitted ctx field) {op : Operator} {values : ValueSet}
    (hop : op.isMembership = true) (hsingle : field.type.isX2Many = false)
    (hvalues : ∀ v ∈ values.values, field.type.takes v = true) :
    (⟨c.path, op, .set values, none⟩ : Condition).IsAdmitted ctx field :=
  ⟨h.found, h.resolved, .members hop rfl hsingle hvalues⟩

end Condition

def Domain.IsAdmitted (ctx : Context) (d : Domain) : Prop :=
  (∃ v, d = .constant v) ∨ ∃ c field, d = .condition c ∧ c.IsAdmitted ctx field

namespace Pass

variable {ctx : Context} {field : Field} {c : Condition}

/-- The pass does not object, and what it makes of the condition is admitted again. -/
abbrev Admits (ctx : Context) (run : Run Error (Option Domain)) : Prop :=
  run.Accepts fun x => ∀ d, x = some d → d.IsAdmitted ctx

theorem admits_keep {run : Run Error (Option Domain)} (h : run.result = .ok none) :
    Admits ctx run :=
  .of_ok h nofun

theorem admits_constant {run : Run Error (Option Domain)} {v : Bool}
    (h : run.result = .ok (some (.constant v))) : Admits ctx run :=
  .of_ok h fun _ hd => .inl ⟨v, (Option.some.inj hd).symm⟩

theorem admits_condition {run : Run Error (Option Domain)} {c' : Condition}
    (h : run.result = .ok (some (.condition c'))) (hc' : c'.IsAdmitted ctx field) :
    Admits ctx run :=
  .of_ok h fun _ hd => .inr ⟨c', field, (Option.some.inj hd).symm, hc'⟩

theorem mem_of_mem_ofList {values : List Value} {v : Value}
    (h : v ∈ (ValueSet.ofList values).values) : v ∈ values :=
  (ValueSet.fresh_sublist [] values).mem h

theorem coerceSet_of_keeps {coerce : Value → Except Error Value} {values : ValueSet}
    (h : ∀ v ∈ values.values, coerce v = .ok v) :
    coerceSet coerce values = .ok (.ofList values.values) := by
  unfold coerceSet
  rw [mapM_of_keeps h]
  rfl

theorem admits_replaceOperand (h : c.IsAdmitted ctx field) {values : ValueSet}
    (hop : c.operator.isMembership = true) (hsingle : field.type.isX2Many = false)
    (hvalues : ∀ v ∈ values.values, field.type.takes v = true) :
    Admits ctx (replaceOperand c (.set (.ofList values.values))) := by
  have hresult := result_replaceOperand c (.set (.ofList values.values))
  split at hresult
  · exact admits_keep hresult
  · exact admits_condition hresult
      (h.withMembers hop hsingle fun v hv => hvalues v (mem_of_mem_ofList hv))

theorem admits_replaceLiterals (h : c.IsAdmitted ctx field) {coerce : Value → Except Error Value}
    (hkeeps : ∀ v, field.type.takes v = true → coerce v = .ok v) :
    Admits ctx (match c.operand with
      | .scalar value => liftM (coerce value) >>= fun v => replaceOperand c (.scalar v)
      | .set values => liftM (coerceSet coerce values) >>= fun s => replaceOperand c (.set s)
      | .domain _ | .query _ => keep) := by
  cases h.asks with
  | @members values hop hoperand hsingle hvalues =>
    rw [hoperand]
    have hcoerced := coerceSet_of_keeps fun v hv => hkeeps v (hvalues v hv)
    refine .bind (P := fun s => s = .ofList values.values) (.of_ok hcoerced rfl) ?_
    rintro s - rfl
    exact admits_replaceOperand h hop hsingle hvalues
  | @order value hop hoperand htakes =>
    rw [hoperand]
    refine .bind (P := fun v => v = value) (.of_ok (hkeeps value htakes) rfl) ?_
    rintro v - rfl
    exact admits_keep (replaceOperand_eq_none.2 (by rw [hoperand]; exact Value.same_refl _))
  | related _ hoperand _ _ _ =>
    rw [hoperand]
    exact admits_keep rfl

theorem admits_membershipOperand (h : c.IsAdmitted ctx field)
    (hop : c.operator.isMembership = true) : Admits ctx (membershipOperand c ctx) := by
  obtain ⟨values, hoperand, -, -⟩ := h.asks.members_of_isMembership hop
  unfold membershipOperand
  rw [hoperand]
  dsimp only
  split
  · exact admits_constant rfl
  · exact admits_keep rfl

theorem admits_labels (h : c.IsAdmitted ctx field) (hop : c.operator.isMembership = true) :
    Admits ctx (labels c ctx) := by
  obtain ⟨values, hoperand, -, hvalues⟩ := h.asks.members_of_isMembership hop
  refine admits_keep (labels_eq_none.2 ⟨field, Context.field_eq_ok.2 h.found, ?_⟩)
  cases hrelational : field.isRelational with
  | false => exact .inl rfl
  | true =>
    refine .inr (.inr ?_)
    have hlabels : ∀ v ∈ values.values, isLabel v = false := by
      intro v hv
      have htakes := hvalues v hv
      rw [Field.isRelational] at hrelational
      cases htype : field.type <;> rw [htype] at hrelational htakes <;> first
        | exact Bool.eq_false_of_not_eq_true' htakes
        | cases hrelational
    simpa [namesLabels, hoperand, hop] using hlabels

theorem isAdmitted_unset {op : Operator} (hfound : ctx.entity.field? c.head = some field)
    (htype : field.type = .many2one) (hop : op.isMembership = true) :
    (⟨field.name, op, .set .unset, none⟩ : Condition).IsAdmitted ctx field := by
  have hname : field.name = c.head := Entity.name_of_field? hfound
  have hrest : (Text.cut '.' field.name).2 = none := by
    rw [hname]
    exact Text.cut_cut_fst
  refine ⟨?_, .inl hrest, .members hop rfl (by rw [htype]; rfl) fun v hv => ?_⟩
  · change ctx.entity.field? (Text.cut '.' field.name).1 = some field
    rw [Text.cut_fst_of_none hrest, hname, hfound]
  · rw [htype, mem_singleton.1 hv]
    rfl

theorem admits_relatedDomain (h : c.IsAdmitted ctx field)
    (hop : c.operator.isTraversal = true)
    (hagain : ∀ target inner optimized, ctx.catalog.target? ctx.entity c.path = some target →
      inner.EachMark (Optimizer.Vouched ctx.catalog) →
      (ctx.nested target inner).result = .ok optimized →
      optimized.EachMark (Optimizer.Vouched ctx.catalog) ∧
        (ctx.nested target optimized).Accepts fun _ => True) :
    Admits ctx (relatedDomain c ctx) := by
  obtain ⟨hordering, hmember⟩ := Operator.kind_of_isTraversal hop
  cases h.asks with
  | members hop' _ _ _ => simp [hmember] at hop'
  | order hop' _ _ => simp [hordering] at hop'
  | @related target inner _ hoperand htarget hmarks hnested =>
    have hfield := Context.field_eq_ok.2 h.found
    unfold relatedDomain
    refine .bind (P := fun f => f = field) (.of_ok hfield rfl) ?_
    rintro f hf rfl
    refine .bind (P := fun t => t = target)
      (.of_ok ((Context.target_eq_ok hf).2 htarget) rfl) ?_
    rintro t - rfl
    rw [hoperand]
    refine .bind hnested fun optimized hoptimized _ => ?_
    split
    · exact admits_constant rfl
    split
    · rename_i hunrelated
      simp only [Bool.and_eq_true, beq_iff_eq] at hunrelated
      refine admits_condition rfl (isAdmitted_unset h.found hunrelated.2 ?_)
      split <;> rfl
    split
    · exact admits_keep rfl
    · obtain ⟨hmarks', hnested'⟩ := hagain _ _ _ htarget hmarks hoptimized
      have hadmitted : (c.withOperand (.domain optimized)).IsAdmitted ctx f :=
        ⟨h.found, h.resolved, .related hop rfl htarget hmarks' hnested'⟩
      exact admits_condition rfl hadmitted

theorem admits_booleanMembers (h : c.IsAdmitted ctx field) (htype : field.type = .boolean) :
    Admits ctx (booleanMembers c ctx) := by
  unfold booleanMembers
  cases hoperand : c.operand with
  | set values =>
    dsimp only
    split
    · rename_i hop
      obtain ⟨values', hoperand', hsingle, hvalues⟩ := h.asks.members_of_isMembership hop
      obtain rfl := Operand.set.inj (hoperand.symm.trans hoperand')
      have hkeeps : ∀ v ∈ values.values, toBoolean c v = .ok v := by
        intro v hv
        have htakes := hvalues v hv
        rw [htype] at htakes
        exact (coerces_toBoolean c).keeps v htakes
      refine .bind (P := fun s => s = .ofList values.values) (.of_ok (coerceSet_of_keeps hkeeps) rfl)
        ?_
      rintro s - rfl
      split
      · have hmember : (if c.operator = .mem then Operator.notMem else .mem).isMembership = true := by
          split <;> rfl
        refine admits_condition rfl (h.withMembers hmember hsingle fun v hv => ?_)
        rw [htype, mem_singleton.1 hv]
        rfl
      · exact admits_replaceOperand h hop hsingle hvalues
    · exact admits_keep rfl
  | _ => exact admits_keep rfl

theorem admits_bothBooleans : Admits ctx (bothBooleans c ctx) := by
  unfold bothBooleans
  split
  · split
    · exact admits_constant rfl
    · exact admits_keep rfl
  · exact admits_keep rfl

theorem admits_dateLiterals (h : c.IsAdmitted ctx field) (htype : field.type = .date) :
    Admits ctx (dateLiterals c ctx) := by
  unfold dateLiterals
  split
  · exact admits_keep rfl
  split
  · exact admits_constant rfl
  · refine admits_replaceLiterals h fun v hv => (coerces_toDate c).keeps v ?_
    rw [htype] at hv
    exact hv

theorem admits_numericLiterals (h : c.IsAdmitted ctx field)
    (htype : field.type ∈ [FieldType.integer, .float, .monetary]) :
    Admits ctx (numericLiterals c ctx) := by
  unfold numericLiterals
  split
  · refine .bind (P := fun f => f = field) (.of_ok (Context.field_eq_ok.2 h.found) rfl) ?_
    rintro f - rfl
    dsimp only
    split
    · exact admits_constant rfl
    · refine admits_replaceLiterals h fun v hv => (coerces_toNumber c _).keeps v ?_
      simp only [mem_cons, not_mem_nil, or_false] at htype
      obtain htype | htype | htype := htype <;> rw [htype] at hv <;> exact hv
  · exact admits_keep rfl

theorem admits_datetimeLiterals (h : c.IsAdmitted ctx field) (htype : field.type = .datetime) :
    Admits ctx (datetimeLiterals c ctx) := by
  have hkeeps : ∀ v, field.type.takes v = true → isMoment v = true ∧ toDatetime c v = .ok v := by
    intro v hv
    rw [htype] at hv
    exact ⟨hv, (coerces_toDatetime c).keeps v (isDayOrMoment_of_isMoment hv)⟩
  unfold datetimeLiterals
  split
  · exact admits_keep rfl
  split
  · exact admits_constant rfl
  cases h.asks with
  | @members values hop hoperand hsingle hvalues =>
    rw [hoperand]
    have hcoerced := coerceSet_of_keeps fun v hv => (hkeeps v (hvalues v hv)).2
    refine .bind (P := fun s => s = .ofList values.values) (.of_ok hcoerced rfl) ?_
    rintro s - rfl
    rw [if_pos (daysOf_eq_nil.2 fun v hv _ => (hkeeps v (hvalues v (mem_of_mem_ofList hv))).1)]
    exact admits_replaceOperand h hop hsingle hvalues
  | @order value hop hoperand htakes =>
    rw [hoperand]
    refine .bind (P := fun v => v = value) (.of_ok (hkeeps value htakes).2 rfl) ?_
    rintro v - rfl
    have hmoment := (hkeeps v htakes).1
    split
    · cases hmoment
    · exact admits_keep (replaceOperand_eq_none.2 (by rw [hoperand]; exact Value.same_refl _))
  | related _ hoperand _ _ _ =>
    rw [hoperand]
    exact admits_keep rfl

theorem admits_attachmentExists (h : c.IsAdmitted ctx field) (htype : field.type = .binary) :
    Admits ctx (attachmentExists c ctx) := by
  unfold attachmentExists
  refine .bind (P := fun f => f = field) (.of_ok (Context.field_eq_ok.2 h.found) rfl) ?_
  rintro f - rfl
  split
  · exact admits_keep rfl
  split
  · split
    · rename_i hfalsy
      rw [Bool.and_eq_true] at hfalsy
      have hresult := result_replaceOperand c (.set .unset)
      split at hresult
      · exact admits_keep hresult
      · refine admits_condition hresult (h.withMembers hfalsy.1 (by rw [htype]; rfl) fun v _ => ?_)
        rw [htype]
        rfl
    · exact admits_constant rfl
  · exact admits_constant rfl

theorem admits_computedField (hfound : ctx.entity.field? c.head = some field)
    (hhooks : ctx.entity.Hookless) : Admits ctx (computedField c ctx) := by
  unfold computedField
  refine .bind (P := fun f => f = field) (.of_ok (Context.field_eq_ok.2 hfound) rfl) ?_
  rintro f hf rfl
  split
  · exact admits_keep rfl
  · rw [Entity.searchHook_eq_none hhooks hf]
    exact admits_constant rfl

theorem admits_sqlReady (h : c.IsAdmitted ctx field) (howns : field.delegatedVia = none)
    (hcomputed : (computedField c ctx).result = .ok none) : Admits ctx (sqlReady c ctx) := by
  have hfield := Context.field_eq_ok.2 h.found
  refine admits_keep (sqlReady_eq_ok.2 ⟨rfl, field, hfield, ⟨h.asks.isStandard, ?_, ?_, ?_, ?_⟩⟩)
  · obtain hrest | ⟨-, htype⟩ := h.resolved
    · rw [Condition.rest?_eq_none.1 hrest]
      rfl
    · rw [htype]
      exact Bool.and_false _
  · cases h.asks with
    | members hop _ _ _ => rw [(Operator.kind_of_isMembership hop).2]; rfl
    | order hop _ _ =>
      cases hoperator : c.operator <;> rw [hoperator] at hop <;> first
        | rfl
        | cases hop
    | related _ _ htarget _ _ =>
      have htarget' := (Context.target_eq_ok hfield).2 htarget
      unfold Context.target at htarget'
      split at htarget'
      · rename_i hid
        simp [hid]
      · split at htarget'
        · rename_i hrelational
          simp [hrelational]
        · cases htarget'
  · cases h.asks with
    | members hop hoperand _ _ => rw [hoperand]; exact hop
    | order hop hoperand _ =>
      rw [hoperand]
      cases hoperator : c.operator <;> rw [hoperator] at hop <;> first
        | rfl
        | cases hop
    | related hop hoperand _ _ _ => rw [hoperand]; exact hop
  · obtain ⟨field', hfield', hkept⟩ := computedField_eq_none.1 hcomputed
    obtain rfl := Except.ok.inj (hfield.symm.trans hfield')
    rw [howns] at hkept
    unfold Field.isSearchable
    revert hkept
    cases field.stored <;> cases field.sqlHook.isSome <;> simp

end Pass

theorem Condition.Kept.takes {catalog : Catalog} {level : Level} {entity : Entity} {c : Condition}
    {field : Field} (h : c.Kept catalog level entity) (hop : c.operator.isMembership = true)
    (hfield : entity.field? c.head = some field) :
    ∀ v ∈ c.operand.literals, field.type.takes v = true := by
  intro v hv
  obtain ⟨values, hvalues, -⟩ := h.membership hop
  have hctx : (Context.still catalog level entity).field c = .ok field :=
    Context.field_eq_ok.2 hfield
  have hcompares : field.type ≠ .json → Pass.comparesLiterals c = true := by
    intro hjson
    obtain ⟨field', hfield', hrest⟩ := h.resolved
    obtain rfl := Option.some.inj (hfield.symm.trans hfield')
    have hplain := Condition.rest?_eq_none.1 (hrest.resolve_right fun hrest => hjson hrest.2)
    rw [Pass.comparesLiterals, hplain, hop]
    exact Bool.or_true _
  have hkeeps : ∀ {types name} {pass : Pass},
      PassEntry.IsStandard ⟨.basic, .types types, ⟨name, pass⟩⟩ → field.type ∈ types →
      (pass c (.still catalog level entity)).result = .ok none := by
    intro types name pass hentry htype
    refine h _ hentry.mem (Level.basic_le level) ?_
    have hcovers := @Optimizer.covers_types (.still catalog level entity) types c
    exact hcovers.2 ⟨field, hctx, htype⟩
  have hliterals : ∀ {kind}, c.operand.LiteralsAre kind → kind v = true := by
    intro kind hkind
    rw [hvalues] at hkind hv
    exact hkind.1 v hv
  have hnumber : field.type ∈ [FieldType.integer, .float, .monetary] → Pass.isNumber v = true := by
    intro htype
    have hkept := hkeeps .numericLiterals htype
    refine hliterals (Pass.numericLiterals_eq_none.1 hkept (hcompares ?_)).2.2
    intro hjson
    rw [hjson] at htype
    simp at htype
  have hlabel : field.isRelational = true → Pass.isLabel v = false :=
    fun hrelational => (h.isTame hop).noLabels field hfield hrelational v hv
  cases htype : field.type with
  | boolean =>
    have hkept := hkeeps .booleanMembers (mem_singleton.2 htype)
    rw [hvalues] at hv
    exact (Pass.booleanMembers_eq_none.1 hkept values hvalues hop).1 v hv
  | date =>
    have hkept := hkeeps .dateLiterals (mem_singleton.2 htype)
    exact hliterals (Pass.dateLiterals_eq_none.1 hkept (hcompares (by simp [htype]))).2
  | datetime =>
    have hkept := hkeeps .datetimeLiterals (mem_singleton.2 htype)
    exact hliterals (Pass.datetimeLiterals_eq_none.1 hkept (hcompares (by simp [htype]))).2
  | integer | float | monetary => exact hnumber (by simp [htype])
  | many2one | one2many | many2many =>
    exact (congrArg not (hlabel (by rw [Field.isRelational, htype]; rfl))).trans rfl
  | _ => rfl

namespace Optimizer

open Domain

variable {ctx : Context} {c : Condition} {field : Field}

theorem name_sqlReady : ∀ entry ∈ Registry.standard.passes,
    entry.pass.name = "assert_sql_ready" ↔ entry.level = .sql := by
  decide

theorem computedField_before {before after : List NamedPass} {pass : NamedPass}
    (hsplit : standard.candidates ctx c = before ++ pass :: after)
    (hname : pass.name = "assert_sql_ready")
    (hbefore : ∀ earlier ∈ before, (earlier.run c ctx).result = .ok none) :
    (Pass.computedField c ctx).result = .ok none := by
  have hpass : pass ∈ standard.candidates ctx c := by simp [hsplit]
  obtain ⟨entry, hentry, hlevel, -, rfl⟩ := mem_candidates.1 hpass
  rw [(name_sqlReady entry hentry).1 hname] at hlevel
  have hlevels : ctx.level.upTo = [.basic, .search] ++ [.sql] := by
    cases hctx : ctx.level <;> rw [hctx] at hlevel <;> first
      | rfl
      | cases hlevel
  unfold candidates at hsplit
  rw [hlevels, flatMap_append] at hsplit
  refine hbefore ⟨"non_stored_field", Pass.computedField⟩ (mem_before hsplit ?_ _ ?_)
  · intro p hp hp'
    rw [hname] at hp'
    obtain ⟨level, hlevel, hp⟩ := mem_flatMap.1 hp
    obtain ⟨other, hother, rfl, -, rfl⟩ := Registry.mem_passesFor.1 hp
    rw [(name_sqlReady other hother).1 hp'] at hlevel
    simp at hlevel
  · exact mem_flatMap.2 ⟨.search, by simp, Registry.mem_passesFor.2
      ⟨_, PassEntry.IsStandard.computedField.mem, rfl, rfl, rfl⟩⟩

section Loops

variable {P : Domain → Prop}

theorem accepts_firstChange {passes : List NamedPass}
    (h : ∀ before pass after, passes = before ++ pass :: after →
      (∀ earlier ∈ before, (earlier.run c ctx).result = .ok none) →
      (pass.run c ctx).Accepts fun x => ∀ d, x = some d → P d) :
    (firstChange c ctx passes).Accepts fun x => ∀ name d, x = some (name, d) → P d := by
  induction passes with
  | nil => exact .of_ok rfl nofun
  | cons pass passes ih =>
    refine .bind (h [] pass passes rfl nofun) fun x hx hP => ?_
    cases x with
    | some d =>
      refine .of_ok rfl ?_
      rintro name d' ⟨⟩
      exact hP d rfl
    | none =>
      refine ih fun before next after hsplit hbefore => ?_
      exact h (pass :: before) next after (by rw [hsplit]; rfl) (forall_mem_cons.2 ⟨hx, hbefore⟩)

theorem accepts_stepCondition (h : ∀ before pass after,
    standard.candidates ctx c = before ++ pass :: after →
      (∀ earlier ∈ before, (earlier.run c ctx).result = .ok none) →
      (pass.run c ctx).Accepts fun x => ∀ d, x = some d → P d) :
    (standard.stepCondition ctx c).Accepts fun s => ∀ d, s = .changed d → P d := by
  refine .bind (accepts_firstChange h) fun x _ hP => ?_
  cases x with
  | none => exact .of_ok rfl nofun
  | some change =>
    refine .of_ok rfl ?_
    rintro d ⟨⟩
    exact hP _ _ rfl

theorem accepts_turn {again : Domain → Run Error Domain} {d : Domain}
    (hstep : (standard.step ctx d).Accepts fun s => ∀ next, s = .changed next → P next)
    (hagain : ∀ next, P next → (again next).Accepts fun _ => True) :
    (standard.turn ctx again d).Accepts fun _ => True := by
  refine .bind (.of_ok (result_isSettled d) rfl) ?_
  rintro isCovered - rfl
  cases hcovered : covered ctx d with
  | true => exact .of_ok rfl trivial
  | false =>
    refine .bind hstep fun s _ hP => ?_
    cases s with
    | done result => exact .of_ok rfl trivial
    | changed next => exact hagain next (hP next rfl)

theorem accepts_settle (hstep : ∀ d, P d →
      (standard.step ctx d).Accepts fun s => ∀ next, s = .changed next → P next) (changes : Nat)
    {d : Domain} (hd : P d) : (standard.settle ctx changes d).Accepts fun _ => True := by
  induction changes generalizing d with
  | zero =>
    rw [settle_zero]
    exact accepts_turn (hstep d hd) fun _ _ => .of_error rfl rfl
  | succ changes ih =>
    rw [settle_succ]
    exact accepts_turn (hstep d hd) fun _ => ih

end Loops

section Step

variable (hhooks : ctx.entity.Hookless) (howns : ctx.entity.OwnsFields)
  (hagain : ∀ target inner optimized, ctx.catalog.entity? target.name = some target →
    inner.EachMark (Vouched ctx.catalog) → (ctx.nested target inner).result = .ok optimized →
    optimized.EachMark (Vouched ctx.catalog) ∧ (ctx.nested target optimized).Accepts fun _ => True)
  (hentity : ctx.catalog.entity? ctx.entity.name = some ctx.entity)

include hhooks howns hagain hentity

theorem admits_pass (h : c.IsAdmitted ctx field) {before after : List NamedPass} {pass : NamedPass}
    (hsplit : standard.candidates ctx c = before ++ pass :: after)
    (hbefore : ∀ earlier ∈ before, (earlier.run c ctx).result = .ok none) :
    Pass.Admits ctx (pass.run c ctx) := by
  have hfield := Context.field_eq_ok.2 h.found
  have hmem : pass ∈ standard.candidates ctx c := by simp [hsplit]
  obtain ⟨entry, hentry, -, hcovers, rfl⟩ := mem_candidates.1 hmem
  have hoperators : ∀ operators, entry.scope = .operators operators → c.operator ∈ operators :=
    fun operators hscope => PassScope.covers_operators.1 (hscope ▸ hcovers)
  have htypes : ∀ types, entry.scope = .types types → field.type ∈ types := by
    intro types hscope
    rw [hscope] at hcovers
    obtain ⟨field', hfield', htype⟩ := covers_types.1 hcovers
    obtain rfl := Except.ok.inj (hfield.symm.trans hfield')
    exact htype
  -- Passes for operators that no admitted condition has.
  have hother : ∀ operators, entry.scope = .operators operators →
      (∀ op ∈ operators, (op.isMembership || op.isOrdering || op.isTraversal) = false) → False := by
    intro operators hscope hnone
    have hkind := h.asks.operator_kind
    rw [hnone _ (hoperators operators hscope)] at hkind
    cases hkind
  cases Registry.isStandard_of_mem hentry with
  | resolvePath => exact Pass.admits_keep (Pass.resolvePath_eq_none.2 ⟨field, hfield, h.resolved⟩)
  | deprecatedOperator | equalityToMembership | patternOperand | hierarchy =>
    exact (hother _ rfl (by decide)).elim
  | membershipOperand =>
    exact Pass.admits_membershipOperand h (Registry.mem_membershipOperators.1 (hoperators _ rfl))
  | labels =>
    refine Pass.admits_labels h ?_
    have hmember : ∀ op ∈ Registry.membershipOperators ++ Registry.patternOperators,
        (op.isMembership || op.isOrdering || op.isTraversal) = true → op.isMembership = true := by
      decide
    exact hmember _ (hoperators _ rfl) h.asks.operator_kind
  | relatedDomain =>
    exact Pass.admits_relatedDomain h (Operator.mem_traversals.1 (hoperators _ rfl))
      fun target inner optimized htarget =>
        hagain target inner optimized (Catalog.entity?_target? hentity htarget)
  | manyMembers =>
    have htype := htypes _ rfl
    refine Pass.admits_keep ((@Pass.manyMembers_eq_none ctx c).2 fun values hvalues => ?_)
    cases hop : c.operator.isMembership with
    | false => exact Bool.or_true _
    | true =>
      obtain ⟨-, -, hsingle, -⟩ := h.asks.members_of_isMembership hop
      simp only [mem_cons, not_mem_nil, or_false] at htype
      obtain htype | htype := htype <;> rw [htype] at hsingle <;> cases hsingle
  | booleanMembers => exact Pass.admits_booleanMembers h (mem_singleton.1 (htypes _ rfl))
  | dateLiterals => exact Pass.admits_dateLiterals h (mem_singleton.1 (htypes _ rfl))
  | datetimeLiterals => exact Pass.admits_datetimeLiterals h (mem_singleton.1 (htypes _ rfl))
  | numericLiterals => exact Pass.admits_numericLiterals h (htypes _ rfl)
  | attachmentExists => exact Pass.admits_attachmentExists h (mem_singleton.1 (htypes _ rfl))
  | inheritedField =>
    exact Pass.admits_keep ((@Pass.inheritedField_eq_none ctx c).2
      ⟨field, hfield, howns.of_field? h.found⟩)
  | computedField => exact Pass.admits_computedField h.found hhooks
  | bothBooleans => exact Pass.admits_bothBooleans
  | sqlReady =>
    exact Pass.admits_sqlReady h (howns.of_field? h.found)
      (computedField_before hsplit rfl hbefore)

theorem accepts_of_isAdmitted {d : Domain} (h : d.IsAdmitted ctx) (changes : Nat) :
    (standard.settle ctx changes d).Accepts fun _ => True := by
  refine accepts_settle (P := Domain.IsAdmitted ctx) ?_ changes h
  rintro d (⟨v, rfl⟩ | ⟨c, field, rfl, hc⟩)
  · exact .of_ok rfl nofun
  · exact accepts_stepCondition fun _ _ _ hsplit hbefore =>
      admits_pass hhooks howns hagain hentity hc hsplit hbefore

end Step

/-- The marks of the domain tell the truth, and optimizing it has a result. -/
structure IsValid (catalog : Catalog) (level : Level) (d : Domain) (entity : Entity) : Prop where
  marks : d.EachMark (Vouched catalog)
  optimizes : ∃ depth result, (node catalog depth standard level entity d).result = .ok result

section Valid

variable {catalog : Catalog} {level : Level} {entity : Entity} {k : Connective} {d : Domain}

theorem IsValid.of_settled (hmarks : d.EachMark (Vouched catalog))
    (h : Settled catalog level d entity) : IsValid catalog level d entity := by
  obtain ⟨result, hresult, -⟩ := node_of_settled h (Nat.lt_succ_self d.height)
  exact ⟨hmarks, _, result, hresult⟩

theorem Joins.exists_rebuild {o : Optimizer} {ctx : Context} {children : List Domain}
    (h : Joins o ctx k children d) : ∃ r, (rebuild k ctx children).result = .ok r := by
  cases h with
  | folded hd _ | stable hd _ _ _ | inPlace hd _ _ _ _ _ | again hd _ _ _ _ => exact ⟨_, hd⟩

theorem children_of_node (hentity : catalog.entity? entity.name = some entity)
    {children : List Domain} {mark : Option Mark} {depth : Nat} {r : Domain}
    (hmarks : (Domain.nary k children mark).EachMark (Vouched catalog))
    (h : (node catalog (depth + 1) standard level entity (.nary k children mark)).result = .ok r) :
    ∀ e ∈ children, Settled catalog level e entity ∨
      ∃ r', (node catalog depth standard level entity e).result = .ok r' := by
  intro e he
  rw [node_succ] at h
  cases settle_eq_ok h with
  | covered hcovered =>
    cases settled_of_covered hentity hmarks hcovered with
    | nary hsettled _ => exact .inl (hsettled e he)
  | done _ hstep =>
    cases hstep with
    | joined hjoined =>
      obtain ⟨r, hr⟩ := hjoined.exists_rebuild
      obtain ⟨optimized, hoptimized, -⟩ := rebuild_eq_ok.1 hr
      obtain ⟨r', -, hr'⟩ := Pass.exists_of_forall₂ hoptimized.flip he
      exact .inr ⟨r', hr'⟩
  | changed _ hstep _ => cases hstep

theorem IsValid.children (hentity : catalog.entity? entity.name = some entity)
    {children : List Domain} {mark : Option Mark}
    (h : IsValid catalog level (.nary k children mark) entity) :
    ∀ e ∈ children, IsValid catalog level e entity := by
  intro e he
  have hmarks := h.marks.children e he
  obtain ⟨_ | depth, result, hresult⟩ := h.optimizes
  · cases hresult
  obtain hsettled | ⟨r, hr⟩ := children_of_node hentity h.marks hresult e he
  · exact .of_settled hmarks hsettled
  · exact ⟨hmarks, depth, r, hr⟩

theorem IsValid.inner {inner : Domain} (h : IsValid catalog level (.negation inner) entity) :
    IsValid catalog level inner entity := by
  refine ⟨eachMark_negation.1 h.marks, ?_⟩
  obtain ⟨_ | depth, result, hresult⟩ := h.optimizes
  · cases hresult
  rw [node_succ] at hresult
  cases settle_eq_ok hresult with
  | covered hcovered => cases hcovered
  | done _ hstep =>
    cases hstep with
    | complement hinner _ => exact ⟨depth, _, hinner⟩
  | changed _ hstep _ =>
    cases hstep with
    | pushed hinner _ => exact ⟨depth, _, hinner⟩

/-- A domain that has a result with one depth is accepted with every depth. -/
theorem accepts_of_node {deep : Nat} {r : Domain}
    (h : (node catalog deep standard level entity d).result = .ok r) (depth : Nat) :
    (node catalog depth standard level entity d).Accepts fun _ => True := by
  cases hresult : (node catalog depth standard level entity d).result with
  | ok _ => exact .of_ok hresult trivial
  | error e =>
    refine .of_error hresult ?_
    by_contra hbroken
    -- An error that does not come from the depth comes with every greater one.
    have hmax := node_of_le (Nat.le_max_right depth deep) h
    rw [node_le (Nat.le_max_left depth deep), hresult] at hmax
    · cases hmax
    · rw [hresult]
      rintro ⟨⟩
      exact hbroken rfl

theorem IsValid.accepts (h : IsValid catalog level d entity) (depth : Nat) :
    (node catalog depth standard level entity d).Accepts fun _ => True := by
  obtain ⟨deep, r, hr⟩ := h.optimizes
  exact accepts_of_node hr depth

end Valid

section Joined

variable {catalog : Catalog} {level : Level} {entity : Entity} {k : Connective} {depth : Nat}

theorem apply_cases {Q : Domain → Prop} {ds : List Domain} (h : ∀ d ∈ ds, Q d)
    (hchildren : ∀ {children mark}, Q (.nary k children mark) → ∀ d ∈ children, Q d) :
    (∃ v, k.apply ds = .constant v) ∨ Q (k.apply ds) ∨
      ∃ children, k.apply ds = .nary k children none ∧ ∀ d ∈ children, Q d := by
  unfold Connective.apply
  split
  · exact .inl ⟨_, rfl⟩
  · rename_i collected hcollected
    have hall : ∀ d ∈ collected, Q d := by
      intro d hd
      obtain ⟨hmem, -⟩ | ⟨children, mark, hmem, hd⟩ := Connective.mem_collect? hcollected hd
      · exact h d hmem
      · exact hchildren (h _ hmem) d hd
    unfold Connective.node
    split
    · exact .inl ⟨_, rfl⟩
    · exact .inr (.inl (hall _ (mem_singleton.2 rfl)))
    · exact .inr (.inr ⟨_, rfl, hall⟩)

theorem accepts_apply (hentity : catalog.entity? entity.name = some entity)
    (hnary : ∀ children, (∀ d ∈ children, IsValid catalog level d entity) →
      (node catalog depth standard level entity (.nary k children none)).Accepts fun _ => True)
    {ds : List Domain} (h : ∀ d ∈ ds, IsValid catalog level d entity) :
    (node catalog depth standard level entity (k.apply ds)).Accepts fun _ => True := by
  obtain ⟨v, hv⟩ | hvalid | ⟨children, hjoined, hchildren⟩ :=
    apply_cases h fun hvalid => hvalid.children hentity
  · rw [hv]
    have hvalid : IsValid catalog level (.constant v) entity := .of_settled trivial (.constant v entity)
    exact hvalid.accepts depth
  · exact hvalid.accepts depth
  · rw [hjoined]
    exact hnary children hchildren

def AreAccepted (catalog : Catalog) (level : Level) (depth : Nat) (entity : Entity)
    (children : List Domain) : Prop :=
  ∀ d ∈ children, d.EachMark (Vouched catalog) ∧
    (node catalog depth standard level entity d).Accepts fun _ => True

def NodesAccepted (catalog : Catalog) (level : Level) (depth : Nat) : Prop :=
  ∀ {entity k children mark}, catalog.entity? entity.name = some entity →
    (∀ d ∈ children, IsValid catalog level d entity) →
    (node catalog depth standard level entity (.nary k children mark)).Accepts fun _ => True

variable (hhooks : catalog.Hookless) (howns : catalog.OwnsFields)

include hhooks howns

theorem accepts_admitted {d : Domain} (hentity : catalog.entity? entity.name = some entity)
    (h : d.IsAdmitted (standard.contextAt catalog depth level entity)) :
    (node catalog (depth + 1) standard level entity d).Accepts fun _ => True := by
  rw [node_succ]
  let ctx := standard.contextAt catalog depth level entity
  have hhooks' : ctx.entity.Hookless := hhooks.of_entity? hentity
  refine accepts_of_isAdmitted hhooks' (howns.of_entity? hentity) ?_ hentity h _
  intro target inner optimized htarget hmarks hoptimized
  obtain ⟨hmarks', hsettled⟩ := node_settled hhooks.hooksCarry htarget hmarks hoptimized
  have hvalid : IsValid catalog level optimized target := .of_settled hmarks' hsettled
  exact ⟨hmarks', hvalid.accepts depth⟩

theorem accepts_merged (hentity : catalog.entity? entity.name = some entity)
    (hlower : ∀ lower < depth, NodesAccepted catalog level lower) {children : List Domain}
    (hchildren : ∀ d ∈ children, d.EachMark (Vouched catalog) ∧ Settled catalog level d entity) :
    ∀ d ∈ mergeAll k entity children,
      (node catalog depth standard level entity d).Accepts fun _ => True := by
  intro d hd
  have hkept : ∀ {c : Condition}, .condition c ∈ children → c.Kept catalog level entity := by
    intro c hc
    cases (hchildren _ hc).2 with
    | condition hkept _ => exact hkept
  obtain hchild | hmerged := mem_mergeAll d hd
  · obtain ⟨hmarks, hsettled⟩ := hchildren d hchild
    have hvalid : IsValid catalog level d entity := .of_settled hmarks hsettled
    exact hvalid.accepts depth
  cases depth with
  | zero => exact .of_error rfl rfl
  | succ depth =>
    have hadmitted : d.IsAdmitted (standard.contextAt catalog depth level entity) := by
      cases hmerged with
      | @member path op values run hop hsome hrun hvalues =>
        obtain ⟨c₀, hc₀⟩ := exists_mem_of_ne_nil run hsome
        obtain ⟨hchild, rfl, hop₀⟩ := hrun c₀ hc₀
        obtain ⟨field, hfield, hrest⟩ := (hkept hchild).resolved
        refine .inr ⟨_, field, rfl, hfield, hrest, .members hop rfl ?_ fun v hv => ?_⟩
        · exact ((hkept hchild).isTame hop₀).single field hfield
        · obtain ⟨c, hc, hv⟩ := hvalues v hv
          obtain ⟨hchild', hpath, hop'⟩ := hrun c hc
          refine (hkept hchild').takes hop' ?_ v hv
          rwa [Condition.head, hpath]
      | @traversal c l inners hchild hop hinners =>
        obtain ⟨field, hfield, hrest⟩ := (hkept hchild).resolved
        obtain ⟨target, htarget⟩ := (hkept hchild).related hop
        have htarget' := Catalog.entity?_target? hentity htarget
        have hvalid : ∀ inner ∈ inners, IsValid catalog level inner target := by
          intro inner hinner
          obtain ⟨c', hchild', hpath, hop', hoperand⟩ := hinners inner hinner
          obtain ⟨hmarks, hsettled⟩ := hchildren _ hchild'
          cases hsettled with
          | condition _ hsettled =>
            refine .of_settled ((eachMark_condition.1 hmarks).2 inner hoperand)
              (hsettled inner target hoperand (hop' ▸ hop) ?_)
            rwa [hpath]
        refine .inr ⟨_, field, rfl, hfield, hrest, .related hop rfl htarget
          (Connective.eachMark_apply fun inner hinner => (hvalid inner hinner).marks) ?_⟩
        exact accepts_apply htarget' (fun _ h => hlower depth (Nat.lt_succ_self depth)
          htarget' h) hvalid
    exact accepts_admitted hhooks howns hentity hadmitted

omit howns in
theorem accepts_rebuild (hentity : catalog.entity? entity.name = some entity)
    {children : List Domain} (hchildren : AreAccepted catalog level depth entity children) :
    (rebuild k (standard.contextAt catalog depth level entity) children).Accepts fun d =>
      ∃ optimized, d = sortedJoin k optimized ∧
        ∀ e ∈ optimized, e.EachMark (Vouched catalog) ∧ Settled catalog level e entity := by
  rw [rebuild_eq]
  refine .bind (.mapM fun d hd => (hchildren d hd).2.mono fun r hr _ =>
    node_settled hhooks.hooksCarry hentity (hchildren d hd).1 hr) fun optimized _ hoptimized => ?_
  exact .of_ok rfl ⟨optimized, rfl, hoptimized⟩

theorem accepts_round (hentity : catalog.entity? entity.name = some entity)
    (hlower : ∀ lower < depth, NodesAccepted catalog level lower)
    {again : List Domain → Run Error Step}
    (hagain : ∀ merged, AreAccepted catalog level depth entity merged →
      (again merged).Accepts fun s => ∀ next, s ≠ .changed next)
    {children : List Domain} (hchildren : AreAccepted catalog level depth entity children) :
    (standard.round k (standard.contextAt catalog depth level entity) again children).Accepts
      fun s => ∀ next, s ≠ .changed next := by
  refine .bind (accepts_rebuild hhooks hentity hchildren) ?_
  rintro _ - ⟨optimized, rfl, hoptimized⟩
  split
  · exact .of_ok rfl nofun
  rename_i hk
  rw [not_not] at hk
  obtain ⟨hne, -⟩ | ⟨sorted, heq, -, hsorted, -⟩ :=
    sortedJoin_of_settled (k := k) fun e he => (hoptimized e he).2
  · exact absurd hk hne
  have hparts : ∀ d ∈ (sortedJoin k optimized).children,
      d.EachMark (Vouched catalog) ∧ Settled catalog level d entity := by
    intro d hd
    refine ⟨(eachMark_sortedJoin fun e he => (hoptimized e he).1).children d hd, ?_⟩
    rw [heq] at hd
    exact (hsorted d hd).1
  have hmerged : AreAccepted catalog level depth entity
      (mergeAll k entity (sortedJoin k optimized).children) :=
    fun d hd => ⟨eachMark_mergeAll (fun d hd => (hparts d hd).1) d hd,
      accepts_merged hhooks howns hentity hlower hparts d hd⟩
  refine .bind (.of_ok (result_applyMerges _ k _) rfl) ?_
  rintro _ - rfl
  split
  · exact .of_ok rfl nofun
  split
  · refine .bind (.of_ok (P := fun _ => True) rfl trivial) fun _ _ _ => ?_
    exact .bind (accepts_rebuild hhooks hentity hmerged) fun _ _ _ => .of_ok rfl nofun
  · exact .bind (.of_ok (P := fun _ => True) rfl trivial) fun _ _ _ => hagain _ hmerged

theorem accepts_stepNary (hentity : catalog.entity? entity.name = some entity)
    (hlower : ∀ lower < depth, NodesAccepted catalog level lower) (rounds : Nat)
    {children : List Domain} (hchildren : AreAccepted catalog level depth entity children) :
    (standard.stepNary k (standard.contextAt catalog depth level entity) rounds children).Accepts
      fun s => ∀ next, s ≠ .changed next := by
  induction rounds generalizing children with
  | zero =>
    rw [stepNary_zero]
    exact accepts_round hhooks howns hentity hlower (fun _ _ => .of_error rfl rfl) hchildren
  | succ rounds ih =>
    rw [stepNary_succ]
    exact accepts_round hhooks howns hentity hlower (fun _ => ih) hchildren

/-- A node over valid children is accepted. -/
theorem nodesAccepted (depth : Nat) : NodesAccepted catalog level depth := by
  induction depth using Nat.strong_induction_on with
  | _ depth hlower =>
    intro entity k children mark hentity hchildren
    cases depth with
    | zero => exact .of_error rfl rfl
    | succ depth =>
      rw [node_succ]
      change (standard.settle _ (999 + 1) _).Accepts _
      rw [settle_succ]
      refine accepts_turn (P := fun _ => False) ?_ nofun
      exact accepts_stepNary hhooks howns hentity
        (fun lower hlt => hlower lower (Nat.lt_succ_of_lt hlt)) _
        fun d hd => ⟨(hchildren d hd).marks, (hchildren d hd).accepts depth⟩

end Joined

end Optimizer

end QueryDomain
