import QueryDomain.Proofs.Optimization.Invariant
import QueryDomain.Proofs.Optimization.Shortcut

/-! Computations that answer: they return a result, or an error about what was given. The two errors
that say nothing about it, too many changes and too much depth, do not come from passes, from walks
through a hierarchy or from the evaluation on records. -/
namespace QueryDomain

open List

/-- Whether an error stands for a computation that was broken off. -/
def Error.isBrokenOff : Error → Bool
  | tooDeep | diverged _ => true
  | _ => false

variable {α β : Type}

def Answers (r : Except Error α) : Prop := ∀ e, r = .error e → e.isBrokenOff = false

namespace Answers

theorem ok (a : α) : Answers (.ok a : Except Error α) := nofun

theorem error {e : Error} (h : e.isBrokenOff = false) : Answers (.error e : Except Error α) := by
  rintro _ ⟨⟩
  exact h

theorem bind {r : Except Error α} {f : α → Except Error β} (hr : Answers r)
    (hf : ∀ a, r = .ok a → Answers (f a)) : Answers (r.bind f) := by
  cases r with
  | error e =>
    rintro _ ⟨⟩
    exact hr e rfl
  | ok a => exact hf a rfl

theorem run_bind {run : Run Error α} {next : α → Run Error β} (hrun : Answers run.result)
    (hnext : ∀ a, run.result = .ok a → Answers (next a).result) :
    Answers (run >>= next).result := by
  rw [Run.result_bind]
  exact hrun.bind hnext

theorem mapM {f : α → Except Error β} {as : List α} (h : ∀ a ∈ as, Answers (f a)) :
    Answers (as.mapM f) := by
  induction as with
  | nil => exact .ok []
  | cons a as ih =>
    rw [List.mapM_cons]
    refine .bind (h a (mem_cons_self ..)) fun b _ => ?_
    exact .bind (ih fun a ha => h a (mem_cons_of_mem _ ha)) fun bs _ => .ok (b :: bs)

end Answers

section Fields

variable {ctx : Context} {c : Condition}

theorem Entity.answers_conditionField (entity : Entity) (c : Condition) :
    Answers (entity.conditionField c) := by
  unfold Entity.conditionField
  split
  · exact .ok _
  · exact .error rfl

theorem Catalog.answers_comodel (catalog : Catalog) (c : Condition) (field : Field) :
    Answers (catalog.comodel c field) := by
  unfold Catalog.comodel Catalog.entity
  split
  · split
    · exact .ok _
    · exact .error rfl
  · exact .error rfl

theorem Context.answers_target (ctx : Context) (c : Condition) (field : Field) :
    Answers (ctx.target c field) := by
  unfold Context.target
  split
  · exact .ok _
  · split
    · exact ctx.catalog.answers_comodel c field
    · exact .error rfl

end Fields

namespace Pass

variable {ctx : Context} {c : Condition}

theorem answers_replaceOperand (c : Condition) (x : Operand) :
    Answers (replaceOperand c x).result := by
  rw [result_replaceOperand]
  exact .ok _

theorem answers_field_bind {next : Field → Run Error α}
    (h : ∀ field, ctx.field c = .ok field → Answers (next field).result) :
    Answers (liftM (ctx.field c) >>= next : Run Error α).result :=
  .run_bind (ctx.entity.answers_conditionField c) h

theorem answers_report {event : Event} {next : Unit → Run Error α} (h : Answers (next ()).result) :
    Answers (Run.report event >>= next).result :=
  .run_bind (.ok ()) fun _ _ => h

theorem answers_resolvePath : Answers (resolvePath c ctx).result := by
  unfold resolvePath
  refine answers_field_bind fun field _ => ?_
  split
  · exact .ok _
  · split
    · exact .ok _
    · split
      · exact .ok _
      · exact .error rfl

theorem answers_deprecatedOperator : Answers (deprecatedOperator c ctx).result := by
  unfold deprecatedOperator
  dsimp only
  split
  · exact answers_report (.ok _)
  · exact answers_report (.ok _)
  · split
    · exact .ok _
    · exact answers_report (.ok _)
  · exact .ok _

theorem answers_equalityToMembership : Answers (equalityToMembership c ctx).result := by
  unfold equalityToMembership
  dsimp only
  split
  · exact .ok _
  · exact answers_report (.ok _)

theorem answers_membershipOperand : Answers (membershipOperand c ctx).result := by
  unfold membershipOperand
  dsimp only
  split
  · split <;> exact .ok _
  · exact answers_report (.ok _)
  · exact .ok _
  · exact .ok _

theorem answers_patternOperand : Answers (patternOperand c ctx).result := by
  unfold patternOperand
  split
  · split
    · split <;> exact .ok _
    · split
      · exact .ok _
      · exact .error rfl
  · exact .error rfl

theorem answers_labels : Answers (labels c ctx).result := by
  unfold labels
  refine answers_field_bind fun field _ => ?_
  split
  · exact .ok _
  · split
    · dsimp only
      split
      · exact .ok _
      · exact .run_bind (ctx.catalog.answers_comodel c field) fun _ _ => .ok _
    · split
      · exact .ok _
      · exact .run_bind (ctx.catalog.answers_comodel c field) fun _ _ => .ok _
    · exact .ok _

theorem answers_manyMembers : Answers (manyMembers c ctx).result := by
  unfold manyMembers
  split
  · split <;> exact .ok _
  · exact .ok _

theorem answers_coerceSet {coerce : Value → Except Error Value} (h : ∀ v, Answers (coerce v))
    (values : ValueSet) : Answers (coerceSet coerce values) :=
  .bind (.mapM fun v _ => h v) fun _ _ => .ok _

theorem answers_toBoolean (v : Value) : Answers (toBoolean c v) := by
  unfold toBoolean
  split
  · exact .ok _
  · split
    · exact .ok _
    · exact .error rfl

theorem answers_toNumber (integer : Bool) (v : Value) : Answers (toNumber c integer v) := by
  unfold toNumber
  split <;> first
    | exact .ok _
    | exact .error rfl
    | (dsimp only; split <;> first | exact .ok _ | exact .error rfl)

theorem answers_toDate (v : Value) : Answers (toDate c v) := by
  unfold toDate
  split <;> first
    | exact .ok _
    | exact .error rfl
    | (split <;> first | exact .ok _ | exact .error rfl)

theorem answers_toDatetime (v : Value) : Answers (toDatetime c v) := by
  unfold toDatetime
  split <;> first
    | exact .ok _
    | exact .error rfl
    | (split <;> first | exact .ok _ | exact .error rfl)

theorem answers_booleanMembers : Answers (booleanMembers c ctx).result := by
  unfold booleanMembers
  split
  · split
    · refine .run_bind (answers_coerceSet answers_toBoolean _) fun coerced _ => ?_
      split
      · exact .ok _
      · exact answers_replaceOperand _ _
    · exact .ok _
  · exact .ok _

theorem answers_bothBooleans : Answers (bothBooleans c ctx).result := by
  unfold bothBooleans
  split
  · split <;> exact .ok _
  · exact .ok _

theorem answers_numericLiterals : Answers (numericLiterals c ctx).result := by
  unfold numericLiterals
  split
  · refine answers_field_bind fun field _ => ?_
    dsimp only
    split
    · exact .ok _
    · split
      · exact .run_bind (answers_toNumber _ _) fun _ _ => answers_replaceOperand _ _
      · exact .run_bind (answers_coerceSet (answers_toNumber _) _) fun _ _ =>
          answers_replaceOperand _ _
      · exact .ok _
      · exact .ok _
  · exact .ok _

theorem answers_dateLiterals : Answers (dateLiterals c ctx).result := by
  unfold dateLiterals
  split
  · exact .ok _
  · split
    · exact answers_report (.ok _)
    · split
      · exact .run_bind (answers_toDate _) fun _ _ => answers_replaceOperand _ _
      · exact .run_bind (answers_coerceSet answers_toDate _) fun _ _ => answers_replaceOperand _ _
      · exact .ok _
      · exact .ok _

theorem answers_datetimeLiterals : Answers (datetimeLiterals c ctx).result := by
  unfold datetimeLiterals
  split
  · exact .ok _
  · split
    · exact answers_report (.ok _)
    · split
      · refine .run_bind (answers_toDatetime _) fun coerced _ => ?_
        split
        · exact .ok _
        · exact answers_replaceOperand _ _
      · refine .run_bind (answers_coerceSet answers_toDatetime _) fun coerced _ => ?_
        split
        · exact answers_replaceOperand _ _
        · exact .ok _
      · exact .ok _
      · exact .ok _

theorem answers_attachmentExists : Answers (attachmentExists c ctx).result := by
  unfold attachmentExists
  refine answers_field_bind fun field _ => ?_
  dsimp only
  split
  · exact .ok _
  · split
    · split
      · exact answers_replaceOperand _ _
      · exact answers_report (.ok _)
    · exact answers_report (.ok _)

theorem answers_inheritedField : Answers (inheritedField c ctx).result := by
  unfold inheritedField
  refine answers_field_bind fun field _ => ?_
  split
  · exact .ok _
  · exact answers_report (.ok _)

theorem answers_computedField (hhooks : ctx.entity.Hookless) :
    Answers (computedField c ctx).result := by
  unfold computedField
  refine answers_field_bind fun field hfield => ?_
  split
  · exact .ok _
  · split
    · rename_i hook hhook
      rw [Entity.searchHook_eq_none hhooks hfield] at hhook
      cases hhook
    · exact answers_report (.ok _)

theorem answers_guard {b : Bool} {e : Error} {next : β → Run Error α} {run : Run Error α}
    (he : e.isBrokenOff = false) (hrun : Answers run.result) :
    Answers (if b = true then throw e >>= next else run).result := by
  cases b with
  | true => exact .error he
  | false => exact hrun

theorem answers_sqlReady : Answers (sqlReady c ctx).result := by
  unfold sqlReady
  refine answers_guard rfl (answers_field_bind fun field _ => ?_)
  refine answers_guard rfl (answers_guard rfl ?_)
  exact answers_guard rfl (answers_guard rfl (.ok _))

/-- Of the standard passes only two can be broken off, those that look beyond the catalog. -/
theorem answers_standard (hhooks : ctx.entity.Hookless) : ∀ entry ∈ Registry.standard.passes,
    entry.pass.run = relatedDomain ∨
    (entry.pass.run = hierarchy ∧ entry.scope = .operators [.childOf, .parentOf]) ∨
    ((∀ c ctx, entry.pass.run c ctx =
        entry.pass.run c (.still ctx.catalog ctx.level ctx.entity)) ∧
      Answers (entry.pass.run c ctx).result) := by
  intro entry hentry
  cases Registry.isStandard_of_mem hentry with
  | resolvePath => exact .inr (.inr ⟨fun _ _ => rfl, answers_resolvePath⟩)
  | deprecatedOperator => exact .inr (.inr ⟨fun _ _ => rfl, @answers_deprecatedOperator ctx c⟩)
  | equalityToMembership => exact .inr (.inr ⟨fun _ _ => rfl, @answers_equalityToMembership ctx c⟩)
  | membershipOperand => exact .inr (.inr ⟨fun _ _ => rfl, @answers_membershipOperand ctx c⟩)
  | patternOperand => exact .inr (.inr ⟨fun _ _ => rfl, @answers_patternOperand ctx c⟩)
  | labels => exact .inr (.inr ⟨fun _ _ => rfl, answers_labels⟩)
  | relatedDomain => exact .inl rfl
  | manyMembers => exact .inr (.inr ⟨fun _ _ => rfl, @answers_manyMembers ctx c⟩)
  | booleanMembers => exact .inr (.inr ⟨fun _ _ => rfl, @answers_booleanMembers ctx c⟩)
  | dateLiterals => exact .inr (.inr ⟨fun _ _ => rfl, @answers_dateLiterals ctx c⟩)
  | datetimeLiterals => exact .inr (.inr ⟨fun _ _ => rfl, @answers_datetimeLiterals ctx c⟩)
  | numericLiterals => exact .inr (.inr ⟨fun _ _ => rfl, answers_numericLiterals⟩)
  | attachmentExists => exact .inr (.inr ⟨fun _ _ => rfl, answers_attachmentExists⟩)
  | inheritedField => exact .inr (.inr ⟨fun _ _ => rfl, answers_inheritedField⟩)
  | computedField => exact .inr (.inr ⟨fun _ _ => rfl, answers_computedField hhooks⟩)
  | hierarchy => exact .inr (.inl ⟨rfl, rfl⟩)
  | bothBooleans => exact .inr (.inr ⟨fun _ _ => rfl, @answers_bothBooleans ctx c⟩)
  | sqlReady => exact .inr (.inr ⟨fun _ _ => rfl, answers_sqlReady⟩)

end Pass

namespace Catalog

variable {catalog : Catalog} {entity : Entity}

theorem answers_test (c : Condition) (value : Value) : Answers (c.test value) := by
  unfold Condition.test
  split <;> first
    | exact .ok _
    | exact .error rfl
    | skip
  split
  · exact .ok _
  · split
    · split
      · exact .ok _
      · exact .error rfl
    · exact .error rfl

theorem answers_related (c : Condition) (field : Field) (target : Entity) (record : Record) :
    Answers (catalog.related c field target record) := by
  unfold related
  split
  · exact .ok _
  · split <;> exact .ok _
  · exact .ok _
  · exact .error rfl

theorem answers_anyRecord {test : Record → Except Error Bool} (h : ∀ r, Answers (test r))
    (records : List Record) : Answers (anyRecord test records) := by
  induction records with
  | nil => exact .ok false
  | cons r rs ih =>
    refine .bind (h r) fun found _ => ?_
    cases found with
    | true => exact .ok true
    | false => exact ih

theorem answers_conditionHolds (c : Condition) {inner : Option (Entity → Record → Except Error Bool)}
    (h : ∀ holds, inner = some holds → ∀ entity record, Answers (holds entity record))
    (entity : Entity) (record : Record) :
    Answers (catalog.conditionHolds c inner entity record) := by
  unfold conditionHolds
  refine .bind (entity.answers_conditionField c) fun field _ => ?_
  split
  · refine .bind ?_ fun _ _ => .ok _
    unfold anyRelated
    split
    · exact .error rfl
    · rename_i holds
      split
      · exact h holds rfl entity record
      · refine .bind (catalog.answers_comodel c field) fun target _ => ?_
        exact .bind (answers_related c field target record) fun records _ =>
          answers_anyRecord (h holds rfl target) records
  · exact answers_test c _

theorem answers_holds (d : Domain) (entity : Entity) (record : Record) :
    Answers (catalog.holds d entity record) := by
  induction d using Domain.induct generalizing entity record with
  | constant v => exact .ok v
  | negation d ih => exact .bind (ih entity record) fun _ _ => .ok _
  | nary k children mark ih =>
    cases k with
    | and =>
      rw [holds]
      clear mark
      induction children with
      | nil => exact .ok true
      | cons d ds ihs =>
        rw [forall_mem_cons] at ih
        rw [holdsAll]
        refine .bind (ih.1 entity record) fun found _ => ?_
        cases found with
        | true => exact ihs ih.2
        | false => exact .ok false
    | or =>
      rw [holds]
      clear mark
      induction children with
      | nil => exact .ok false
      | cons d ds ihs =>
        rw [forall_mem_cons] at ih
        rw [holdsAny]
        refine .bind (ih.1 entity record) fun found _ => ?_
        cases found with
        | true => exact .ok true
        | false => exact ihs ih.2
  | condition c ih =>
    obtain ⟨path, operator, operand, mark⟩ := c
    cases operand with
    | domain inner =>
      rw [holds]
      refine answers_conditionHolds _ ?_ entity record
      rintro _ ⟨⟩
      exact ih inner rfl
    | _ =>
      change Answers (catalog.conditionHolds _ none entity record)
      exact answers_conditionHolds _ (fun _ hnone => by cases hnone) entity record

theorem answers_matching (d : Domain) (records : List Record) :
    Answers (catalog.matching entity d records) := by
  induction records with
  | nil => exact .ok []
  | cons r rs ih =>
    rw [matching]
    split
    · exact ih
    · exact .bind (answers_holds d entity r) fun _ _ => .bind ih fun _ _ => .ok _

theorem answers_readField (ids : List Int) (name : String) :
    Answers (catalog.readField entity ids name) := by
  unfold readField
  split
  · exact .error rfl
  · exact .ok _

theorem mem_of_matching {d : Domain} {records : List Record} {ids : List Int}
    (h : catalog.matching entity d records = .ok ids) :
    ∀ id ∈ ids, id ∈ records.filterMap Record.id? := by
  induction records generalizing ids with
  | nil =>
    cases h
    nofun
  | cons r rs ih =>
    rw [matching] at h
    split at h
    · rename_i hid
      rw [filterMap_cons_none hid]
      exact ih h
    · rename_i id hid
      rw [filterMap_cons_some hid]
      cases hfound : catalog.holds d entity r with
      | error e =>
        rw [hfound] at h
        cases h
      | ok found =>
        cases hrest : catalog.matching entity d rs with
        | error e =>
          rw [hfound, hrest] at h
          cases h
        | ok rest =>
          rw [hfound, hrest] at h
          cases h
          intro id' hid'
          split at hid'
          · obtain rfl | hid' := mem_cons.1 hid'
            · exact mem_cons_self ..
            · exact mem_cons_of_mem _ (ih hrest id' hid')
          · exact mem_cons_of_mem _ (ih hrest id' hid')

theorem readField_eq_nil {ids : List Int} {name : String} {values : List (Int × Value)}
    (hids : ∀ id ∈ ids, id ∉ (catalog.records entity.name).filterMap Record.id?)
    (h : catalog.readField entity ids name = .ok values) : values = [] := by
  unfold readField at h
  split at h
  · cases h
  · cases h
    rw [filterMap_eq_nil_iff]
    intro id hid
    have hnone : catalog.record? entity.name id = none := by
      by_contra hsome
      obtain ⟨r, hr⟩ := Option.ne_none_iff_exists'.1 hsome
      have hrid : Record.id? r = some id := by simpa using find?_some hr
      exact hids id hid (mem_filterMap.2 ⟨r, mem_of_find?_eq_some hr, hrid⟩)
    rw [hnone]
    rfl

end Catalog

end QueryDomain
