import QueryDomain.Proofs.Optimization.Replacing
import QueryDomain.Proofs.Schema.Paths

/-! When the standard passes keep a condition. That a condition is kept depends on its canonical form
alone. -/
namespace QueryDomain

/-- Literals of one kind, and in a set each of them once. -/
def Operand.LiteralsAre (kind : Value → Bool) : Operand → Prop
  | .scalar value => kind value = true
  | .set values => (∀ v ∈ values.values, kind v = true) ∧ values.IsDistinct
  | .domain _ | .query _ => True

theorem Operand.literalsAre_canonical {kind : Value → Bool}
    (hkind : ∀ v : Value, kind v.canonical = kind v) (x : Operand) :
    x.canonical.LiteralsAre kind ↔ x.LiteralsAre kind := by
  cases x with
  | scalar v => simp [LiteralsAre, hkind]
  | set values =>
    rw [canonical_set, LiteralsAre, LiteralsAre, ValueSet.isDistinct_canonical]
    simp [ValueSet.canonical, hkind]
  | _ => rfl

namespace Pass

variable {ctx : Context} {c : Condition}

theorem resolvePath_eq_none :
    (resolvePath c ctx).result = .ok none ↔ ∃ field, ctx.field c = .ok field ∧
      (c.rest? = none ∨ (field.isRelational = false ∧ field.type = .json)) := by
  unfold resolvePath
  simp only [Run.result_bind_eq_ok, Run.result_liftM]
  refine exists_congr fun field => and_congr_right fun _ => ?_
  cases c.rest? with
  | none => simp
  | some rest =>
    dsimp only
    split
    · simp_all
    · split <;> simp_all

theorem deprecatedOperator_eq_none :
    (deprecatedOperator c ctx).result = .ok none ↔
      c.operator ≠ .doubleEqual ∧ c.operator ≠ .lessGreater ∧ c.operator ≠ .equalIfSet := by
  unfold deprecatedOperator
  cases hop : c.operator <;> simp [Except.bind]
  split <;> simp [Except.bind]

theorem equalityToMembership_ne_none (c : Condition) (ctx : Context) :
    (equalityToMembership c ctx).result ≠ .ok none := by
  unfold equalityToMembership
  dsimp only
  split <;> simp [Except.bind]

theorem membershipOperand_eq_none :
    (membershipOperand c ctx).result = .ok none ↔
      ∃ values, c.operand = .set values ∧ values.isEmpty = false := by
  unfold membershipOperand
  cases hoperand : c.operand with
  | set values =>
    dsimp only
    split <;> simp_all
  | _ => simp [Except.bind]

theorem patternOperand_eq_none :
    (patternOperand c ctx).result = .ok none ↔
      ∃ pattern, c.operand = .scalar (.text pattern) ∧ pattern.isEmpty = false := by
  unfold patternOperand
  cases hoperand : c.operand with
  | scalar value =>
    dsimp only
    split
    · rename_i hfalsy
      split
      all_goals
        simp only [result_replace, Except.ok.injEq, reduceCtorEq, false_iff]
        rintro ⟨pattern, hpattern, hempty⟩
        cases hpattern
        simp [Value.isFalsy, hempty] at hfalsy
    · rename_i hfalsy
      split
      · rename_i pattern
        simp only [result_keep, true_iff]
        exact ⟨pattern, rfl, by simpa [Value.isFalsy] using hfalsy⟩
      · rename_i hno
        simp only [Run.result_throw, reduceCtorEq, false_iff]
        rintro ⟨pattern, hpattern, -⟩
        cases hpattern
        exact hno pattern rfl
  | _ => simp

def namesLabels (c : Condition) : Bool :=
  match c.operand with
  | .set values => c.operator.isMembership && values.values.any isLabel
  | .scalar (.text _) => c.operator.isPattern
  | _ => false

theorem labels_eq_none :
    (labels c ctx).result = .ok none ↔ ∃ field, ctx.field c = .ok field ∧
      (field.isRelational = false ∨ c.isDotted = true ∨ namesLabels c = false) := by
  unfold labels
  simp only [Run.result_bind_eq_ok, Run.result_liftM]
  refine exists_congr fun field => and_congr_right fun _ => ?_
  split
  · rename_i h
    simp only [result_keep, true_iff]
    simp only [Bool.or_eq_true, Bool.not_eq_true'] at h
    tauto
  · rename_i h
    simp only [Bool.or_eq_true, Bool.not_eq_true', not_or, Bool.not_eq_false, Bool.not_eq_true] at h
    simp only [h, Bool.true_eq_false, Bool.false_eq_true, false_or]
    unfold namesLabels
    cases hoperand : c.operand with
    | set values =>
      have hlabels : (values.values.partition isLabel).1.isEmpty = !values.values.any isLabel := by
        rw [List.partition_eq_filter_filter]
        cases hany : values.values.any isLabel <;> simp_all
      dsimp only
      rw [hlabels]
      split
      · rename_i hkeep
        simpa [← Bool.not_and] using hkeep
      · rename_i hkeep
        simp only [Run.result_bind_eq_ok, result_replace, Except.ok.injEq, reduceCtorEq, and_false,
          exists_false, false_iff]
        simpa [← Bool.not_and] using hkeep
    | scalar value =>
      cases value with
      | text s =>
        dsimp only
        split
        · simp_all
        · rename_i hpattern
          simp only [Run.result_bind_eq_ok, result_replace, Except.ok.injEq, reduceCtorEq,
            and_false, exists_false, false_iff]
          simpa using hpattern
      | _ => simp
    | _ => simp

theorem manyMembers_eq_none :
    (manyMembers c ctx).result = .ok none ↔
      ∀ values, c.operand = .set values → (c.isDotted || !c.operator.isMembership) = true := by
  unfold manyMembers
  cases hoperand : c.operand with
  | set values =>
    dsimp only
    split <;> simp_all
  | _ => simp

theorem result_relatedDomain {field : Field} {target : Entity} {inner optimized : Domain}
    (hfield : ctx.field c = .ok field) (htarget : ctx.target c field = .ok target)
    (hinner : c.operand = .domain inner)
    (hoptimized : (ctx.nested target inner).result = .ok optimized) :
    (relatedDomain c ctx).result = .ok (if optimized.isFalse then
        some (.constant !(c.operator == .any))
      else if optimized.isTrue && field.type == .many2one then
        some (.leaf field.name (if c.operator == .any then .notMem else .mem) (.set .unset))
      else if optimized.same inner then none
      else some (.condition (c.withOperand (.domain optimized)))) := by
  unfold relatedDomain
  rw [Run.result_bind, Run.result_liftM, hfield]
  change (liftM (ctx.target c field) >>= _ : Run Error (Option Domain)).result = _
  rw [Run.result_bind, Run.result_liftM, htarget]
  simp only [Except.bind, hinner]
  rw [Run.result_bind, hoptimized]
  simp only [Except.bind]
  split
  · rfl
  · split
    · rfl
    · split <;> rfl

theorem relatedDomain_eq_none :
    (relatedDomain c ctx).result = .ok none ↔
      ∃ field target, ctx.field c = .ok field ∧ ctx.target c field = .ok target ∧
        ((∃ query, c.operand = .query query) ∨
          ∃ inner optimized, c.operand = .domain inner ∧
            (ctx.nested target inner).result = .ok optimized ∧ optimized.isFalse = false ∧
            (optimized.isTrue && field.type == .many2one) = false ∧
            optimized.same inner = true) := by
  unfold relatedDomain
  simp only [Run.result_bind_eq_ok, Run.result_liftM, ← exists_and_left]
  refine exists_congr fun field => exists_congr fun target => ?_
  cases hoperand : c.operand with
  | domain inner =>
    simp only [reduceCtorEq, exists_false, false_or, Operand.domain.injEq, Run.result_bind_eq_ok,
      ← exists_and_left]
    constructor
    · rintro ⟨optimized, hfield, htarget, hoptimized, h⟩
      refine ⟨inner, optimized, hfield, htarget, rfl, hoptimized, ?_⟩
      split at h
      · simp at h
      · split at h
        · simp at h
        · split at h <;> simp_all
    · rintro ⟨inner', optimized, hfield, htarget, rfl, hoptimized, hfalse, htrue, hsame⟩
      exact ⟨optimized, hfield, htarget, hoptimized, by simp [hfalse, htrue, hsame]⟩
  | _ => simp

theorem inheritedField_eq_none :
    (inheritedField c ctx).result = .ok none ↔
      ∃ field, ctx.field c = .ok field ∧ field.delegatedVia = none := by
  unfold inheritedField
  simp only [Run.result_bind_eq_ok, Run.result_liftM]
  refine exists_congr fun field => and_congr_right fun _ => ?_
  cases field.delegatedVia <;> simp [Except.bind]

theorem computedField_eq_none :
    (computedField c ctx).result = .ok none ↔ ∃ field, ctx.field c = .ok field ∧
      (field.stored || field.sqlHook.isSome || field.name == Entity.idName ||
        field.delegatedVia.isSome) = true := by
  unfold computedField
  simp only [Run.result_bind_eq_ok, Run.result_liftM]
  refine exists_congr fun field => and_congr_right fun _ => ?_
  split
  · simp_all
  · rename_i h
    rw [Bool.not_eq_true] at h
    cases field.searchHook with
    | none => simp [Except.bind, h]
    | some hook =>
      simp only [Run.result_bind_eq_ok, Run.result_pure, Except.ok.injEq, reduceCtorEq, and_false,
        exists_false, h, Bool.false_eq_true]

theorem hierarchy_ne_none : (hierarchy c ctx).result ≠ .ok none := by
  intro h
  obtain ⟨d, hd, -⟩ := hierarchy_eq_ok h (P := fun _ _ => True)
  cases hd

theorem bothBooleans_eq_none :
    (bothBooleans c ctx).result = .ok none ↔ ∀ values, c.operand = .set values →
      (c.operator.isMembership && values.contains (.bool true) && values.contains (.bool false)) =
        false := by
  unfold bothBooleans
  cases hoperand : c.operand with
  | set values =>
    dsimp only
    split <;> simp_all
  | _ => simp

theorem attachmentExists_eq_none :
    (attachmentExists c ctx).result = .ok none ↔ ∃ field, ctx.field c = .ok field ∧
      (field.attachment = false ∨ ∃ values, c.operand = .set values ∧
        (c.operator.isMembership && values.values.all Value.isFalsy) = true ∧
        values.same .unset = true) := by
  unfold attachmentExists
  simp only [Run.result_bind_eq_ok, Run.result_liftM]
  refine exists_congr fun field => and_congr_right fun _ => ?_
  split
  · simp_all
  · rename_i h
    simp only [Bool.not_eq_true', Bool.not_eq_false] at h
    simp only [h, Bool.true_eq_false, false_or]
    cases hoperand : c.operand with
    | set values =>
      dsimp only
      split
      · rename_i hfalsy
        simp only [replaceOperand_eq_none, hoperand, Operand.sameFlat, Operand.set.injEq,
          exists_eq_left', hfalsy, true_and]
      · rename_i hfalsy
        simp only [Operand.set.injEq, exists_eq_left', hfalsy]
        simp [Except.bind]
    | _ => simp [Except.bind]

structure Coerces (coerce : Value → Except Error Value) (kind : Value → Bool) : Prop where
  keeps : ∀ v, kind v = true → coerce v = .ok v
  lands : ∀ v w, coerce v = .ok w → kind w = true
  /-- Only what is unset, or false, becomes unset. -/
  unset : ∀ v, coerce v = .ok .null → v = .null ∨ v = .bool false
  respects : ∀ v : Value, kind v.canonical = kind v

theorem mapM_of_keeps {coerce : Value → Except Error Value} {values : List Value}
    (h : ∀ v ∈ values, coerce v = .ok v) : values.mapM coerce = .ok values := by
  induction values with
  | nil => rfl
  | cons v vs ih =>
    rw [List.mapM_cons, h v (List.mem_cons_self ..),
      ih fun w hw => h w (List.mem_cons_of_mem _ hw)]
    rfl

theorem mapM_eq_ok {coerce : Value → Except Error Value} {values results : List Value}
    (h : values.mapM coerce = .ok results) :
    List.Forall₂ (fun v w => coerce v = .ok w) values results := by
  induction values generalizing results with
  | nil =>
    cases h
    exact .nil
  | cons v vs ih =>
    rw [List.mapM_cons] at h
    cases hv : coerce v with
    | error e => rw [hv] at h; cases h
    | ok w =>
      cases hvs : vs.mapM coerce with
      | error e => rw [hv, hvs] at h; cases h
      | ok ws =>
        rw [hv, hvs] at h
        cases h
        exact .cons hv (ih hvs)

namespace Coerces

variable {coerce : Value → Except Error Value} {kind : Value → Bool}

theorem moves (h : Coerces coerce kind) (v w : Value) (hw : coerce v = .ok w)
    (hsame : v.same w = true) : kind v = true := by
  rw [← h.respects, Value.same_iff.1 hsame, h.respects]
  exact h.lands v w hw

theorem scalar (h : Coerces coerce kind) (v : Value) :
    (∃ w, coerce v = .ok w ∧ v.same w = true) ↔ kind v = true :=
  ⟨fun ⟨w, hw, hsame⟩ => h.moves v w hw hsame, fun hv => ⟨v, h.keeps v hv, v.same_refl⟩⟩

theorem of_sameValues (h : Coerces coerce kind) {values results : List Value}
    (hcoerce : List.Forall₂ (fun v w => coerce v = .ok w) values results)
    (hsame : ValueSet.sameValues values results = true) :
    (∀ v ∈ values, kind v = true) ∧ results = values := by
  induction hcoerce with
  | nil => simp
  | cons hv _ ih =>
    rw [ValueSet.sameValues, Bool.and_eq_true] at hsame
    obtain ⟨hkinds, hrest⟩ := ih hsame.2
    have hkind := h.moves _ _ hv hsame.1
    rw [h.keeps _ hkind] at hv
    cases hv
    exact ⟨List.forall_mem_cons.2 ⟨hkind, hkinds⟩, by rw [hrest]⟩

theorem coerceSet_eq (h : Coerces coerce kind) {values : ValueSet}
    (hkind : ∀ v ∈ values.values, kind v = true) (hdistinct : values.IsDistinct) :
    coerceSet coerce values = .ok values := by
  unfold coerceSet
  rw [mapM_of_keeps fun v hv => h.keeps v (hkind v hv)]
  change Except.ok (ValueSet.ofList values.values) = _
  rw [ValueSet.ofList, hdistinct]

theorem set (h : Coerces coerce kind) (values : ValueSet) :
    (∃ coerced, coerceSet coerce values = .ok coerced ∧ values.same coerced = true) ↔
      (∀ v ∈ values.values, kind v = true) ∧ values.IsDistinct := by
  constructor
  · rintro ⟨coerced, hcoerced, hsame⟩
    unfold coerceSet at hcoerced
    cases hresults : values.values.mapM coerce with
    | error e => rw [hresults] at hcoerced; cases hcoerced
    | ok results =>
      rw [hresults] at hcoerced
      cases hcoerced
      have hcoerce := mapM_eq_ok hresults
      have hlength := ValueSet.length_eq_of_same hsame
      have hfresh : ValueSet.fresh [] results = results := by
        refine (ValueSet.fresh_sublist [] results).eq_of_length ?_
        rw [← hcoerce.length_eq]
        exact hlength.symm
      have hsame' : ValueSet.sameValues values.values results = true := by
        rwa [ValueSet.same, ValueSet.ofList, hfresh] at hsame
      obtain ⟨hkinds, hresults⟩ := h.of_sameValues hcoerce hsame'
      rw [hresults] at hfresh
      exact ⟨hkinds, hfresh⟩
  · rintro ⟨hkind, hdistinct⟩
    exact ⟨values, h.coerceSet_eq hkind hdistinct, ValueSet.same_iff.2 rfl⟩

end Coerces

def isNumber : Value → Bool
  | .null | .int _ | .float _ => true
  | _ => false

def isBoolean : Value → Bool
  | .bool _ => true
  | _ => false

def isDay : Value → Bool
  | .null | .date _ => true
  | _ => false

def isDayOrMoment : Value → Bool
  | .null | .date _ | .timestamp _ => true
  | _ => false

def isMoment : Value → Bool
  | .null | .timestamp _ => true
  | _ => false

/-- What may stand for a day on a datetime field: a date, or the text of one. -/
def mayBeDay : Value → Bool
  | .date _ | .text _ => true
  | _ => false

theorem mayBeDay_of_isMoment {v : Value} (h : isMoment v = true) : mayBeDay v = false := by
  cases v <;> simp_all [isMoment, mayBeDay]

theorem coerces_toNumber (c : Condition) (integer : Bool) :
    Coerces (toNumber c integer) isNumber where
  keeps v hv := by
    cases v with
    | null | int _ | float _ => rfl
    | _ => cases hv
  lands v w hw := by
    cases v with
    | null | int _ | float _ => cases hw; rfl
    | bool b => cases b <;> cases hw; rfl
    | text s =>
      simp only [toNumber] at hw
      split at hw
      · rename_i number hnumber
        cases hw
        simp only [Option.orElse_eq_orElse, Option.orElse_eq_or, Option.or_eq_some_iff,
          Option.map_eq_some_iff] at hnumber
        obtain hnumber | ⟨-, x, -, rfl⟩ := hnumber
        · split at hnumber
          · obtain ⟨n, -, rfl⟩ := Option.map_eq_some_iff.1 hnumber
            rfl
          · cases hnumber
        · rfl
      · cases hw
    | date _ | timestamp _ => cases hw
  unset v hv := by
    cases v with
    | null => exact .inl rfl
    | bool b =>
      cases b
      · exact .inr rfl
      · cases hv
    | text s =>
      simp only [toNumber] at hv
      split at hv
      · rename_i number hnumber
        cases hv
        split at hnumber <;> simp at hnumber
      · cases hv
    | _ => cases hv
  respects v := by cases v <;> rfl

theorem coerces_toBoolean (c : Condition) : Coerces (toBoolean c) isBoolean where
  keeps v hv := by
    cases v with
    | bool b => rfl
    | _ => cases hv
  lands v w hw := by
    unfold toBoolean at hw
    split at hw
    · cases hw
      rfl
    · split at hw
      · cases hw
        rfl
      · cases hw
  unset v hv := by
    unfold toBoolean at hv
    split at hv
    · cases hv
    · split at hv <;> cases hv
  respects v := by cases v <;> rfl

theorem coerces_toDate (c : Condition) : Coerces (toDate c) isDay where
  keeps v hv := by
    cases v with
    | null | date _ => rfl
    | _ => cases hv
  lands v w hw := by
    unfold toDate at hw
    split at hw
    · cases hw; rfl
    · cases hw; rfl
    · cases hw; rfl
    · cases hw; rfl
    · split at hw <;> cases hw; rfl
    · cases hw
  unset v hv := by
    unfold toDate at hv
    split at hv
    · exact .inl rfl
    · exact .inr rfl
    · cases hv
    · cases hv
    · split at hv <;> cases hv
    · cases hv
  respects v := by cases v <;> rfl

theorem coerces_toDatetime (c : Condition) : Coerces (toDatetime c) isDayOrMoment where
  keeps v hv := by
    cases v with
    | null | date _ | timestamp _ => rfl
    | _ => cases hv
  lands v w hw := by
    unfold toDatetime at hw
    split at hw
    · cases hw; rfl
    · cases hw; rfl
    · cases hw; rfl
    · cases hw; rfl
    · split at hw
      · rename_i found hfound
        cases hw
        simp only [Option.orElse_eq_orElse, Option.orElse_eq_or, Option.or_eq_some_iff,
          Option.map_eq_some_iff] at hfound
        obtain ⟨t, -, rfl⟩ | ⟨-, day, -, rfl⟩ := hfound <;> rfl
      · cases hw
    · cases hw
  unset v hv := by
    unfold toDatetime at hv
    split at hv
    · exact .inl rfl
    · exact .inr rfl
    · cases hv
    · cases hv
    · split at hv
      · rename_i found hfound
        cases hv
        simp at hfound
      · cases hv
    · cases hv
  respects v := by cases v <;> rfl

theorem booleanMembers_eq_none :
    (booleanMembers c ctx).result = .ok none ↔ ∀ values, c.operand = .set values →
      c.operator.isMembership = true → (∀ v ∈ values.values, isBoolean v = true) ∧
        values.IsDistinct ∧ values.same (.singleton (.bool false)) = false := by
  unfold booleanMembers
  cases hoperand : c.operand with
  | set values =>
    dsimp only
    split
    · rename_i hmember
      have hset := (coerces_toBoolean c).set values
      simp only [Run.result_bind_eq_ok, Run.result_liftM, Operand.set.injEq, forall_eq', hmember,
        true_implies]
      rw [← and_assoc, ← hset]
      constructor
      · rintro ⟨coerced, hcoerced, h⟩
        split at h
        · simp at h
        · rename_i hfalse
          rw [replaceOperand_eq_none, hoperand] at h
          rw [Bool.not_eq_true] at hfalse
          exact ⟨⟨coerced, hcoerced, h⟩, (ValueSet.same_congr h _).trans hfalse⟩
      · rintro ⟨⟨coerced, hcoerced, h⟩, hfalse⟩
        refine ⟨coerced, hcoerced, ?_⟩
        rw [ValueSet.same_congr h] at hfalse
        rw [hfalse, if_neg Bool.false_ne_true, replaceOperand_eq_none, hoperand]
        exact h
    · simp_all
  | _ => simp

theorem replaceLiterals_eq_none {coerce : Value → Except Error Value} {kind : Value → Bool}
    (h : Coerces coerce kind) :
    (match c.operand with
      | .scalar value => liftM (coerce value) >>= fun v => replaceOperand c (.scalar v)
      | .set values => liftM (coerceSet coerce values) >>= fun s => replaceOperand c (.set s)
      | .domain _ | .query _ => keep : Run Error (Option Domain)).result = .ok none ↔
      c.operand.LiteralsAre kind := by
  cases hoperand : c.operand with
  | scalar value =>
    simp only [Run.result_bind_eq_ok, Run.result_liftM, replaceOperand_eq_none, hoperand,
      Operand.sameFlat, Operand.LiteralsAre]
    exact h.scalar value
  | set values =>
    simp only [Run.result_bind_eq_ok, Run.result_liftM, replaceOperand_eq_none, hoperand,
      Operand.sameFlat, Operand.LiteralsAre]
    exact h.set values
  | _ => simp [Operand.LiteralsAre]

theorem numericLiterals_eq_none :
    (numericLiterals c ctx).result = .ok none ↔ (comparesLiterals c = true →
      (∃ field, ctx.field c = .ok field) ∧ ordersUnset c = false ∧
        c.operand.LiteralsAre isNumber) := by
  unfold numericLiterals
  split
  · rename_i hcompares
    simp only [Run.result_bind_eq_ok, Run.result_liftM, hcompares, true_implies,
      ← exists_and_right]
    refine exists_congr fun field => and_congr_right fun _ => ?_
    split
    · simp_all
    · rename_i hordered
      rw [Bool.not_eq_true] at hordered
      simp only [hordered, true_and]
      exact replaceLiterals_eq_none (coerces_toNumber c (field.type == .integer))
  · simp_all

theorem dateLiterals_eq_none :
    (dateLiterals c ctx).result = .ok none ↔ (comparesLiterals c = true →
      ordersUnset c = false ∧ c.operand.LiteralsAre isDay) := by
  unfold dateLiterals
  split
  · simp_all
  · rename_i hcompares
    simp only [Bool.not_eq_true', Bool.not_eq_false] at hcompares
    simp only [hcompares, true_implies]
    split
    · simp_all [orderedUnset, Except.bind]
    · rename_i hordered
      rw [Bool.not_eq_true] at hordered
      simp only [hordered, true_and]
      exact replaceLiterals_eq_none (coerces_toDate c)

theorem isDayOrMoment_of_isMoment {v : Value} (h : isMoment v = true) :
    isDayOrMoment v = true := by
  cases v <;> simp_all [isMoment, isDayOrMoment]

theorem daysOf_eq_nil {values : List Value} :
    (daysOf values).isEmpty = true ↔ ∀ v ∈ values, isDayOrMoment v = true → isMoment v = true := by
  unfold daysOf
  rw [List.isEmpty_iff, List.filterMap_eq_nil_iff]
  refine forall₂_congr fun v _ => ?_
  cases v <;> simp [isDayOrMoment, isMoment]

theorem datetimeLiterals_eq_none :
    (datetimeLiterals c ctx).result = .ok none ↔ (comparesLiterals c = true →
      ordersUnset c = false ∧ c.operand.LiteralsAre isMoment) := by
  unfold datetimeLiterals
  split
  · simp_all
  · rename_i hcompares
    simp only [Bool.not_eq_true', Bool.not_eq_false] at hcompares
    simp only [hcompares, true_implies]
    split
    · simp_all [orderedUnset, Except.bind]
    · rename_i hordered
      rw [Bool.not_eq_true] at hordered
      simp only [hordered, true_and]
      cases hoperand : c.operand with
      | scalar value =>
        simp only [Run.result_bind_eq_ok, Run.result_liftM, Operand.LiteralsAre]
        constructor
        · rintro ⟨coerced, hcoerced, h⟩
          split at h
          · simp at h
          · rename_i hday
            rw [replaceOperand_eq_none, hoperand] at h
            have hkind := (coerces_toDatetime c).moves value coerced hcoerced h
            rw [(coerces_toDatetime c).keeps value hkind] at hcoerced
            cases hcoerced
            cases value <;> simp_all [isDayOrMoment, isMoment]
        · intro h
          refine ⟨value, ?_⟩
          cases value <;> simp_all [isMoment, toDatetime, replaceOperand_eq_none,
            Operand.sameFlat, Value.same]
      | set values =>
        simp only [Run.result_bind_eq_ok, Run.result_liftM, Operand.LiteralsAre]
        constructor
        · rintro ⟨coerced, hcoerced, h⟩
          split at h
          · rename_i hdays
            rw [replaceOperand_eq_none, hoperand] at h
            obtain ⟨hkinds, hdistinct⟩ := ((coerces_toDatetime c).set values).1
              ⟨coerced, hcoerced, h⟩
            rw [(coerces_toDatetime c).coerceSet_eq hkinds hdistinct] at hcoerced
            cases hcoerced
            exact ⟨fun v hv => daysOf_eq_nil.1 hdays v hv (hkinds v hv), hdistinct⟩
          · simp at h
        · rintro ⟨hkinds, hdistinct⟩
          have hwide : ∀ v ∈ values.values, isDayOrMoment v = true :=
            fun v hv => isDayOrMoment_of_isMoment (hkinds v hv)
          refine ⟨values, (coerces_toDatetime c).coerceSet_eq hwide hdistinct, ?_⟩
          rw [if_pos (daysOf_eq_nil.2 fun v hv _ => hkinds v hv), replaceOperand_eq_none, hoperand]
          exact ValueSet.same_iff.2 rfl
      | _ => simp [Operand.LiteralsAre]

end Pass

/-- The context in which nested domains are left as they are. -/
def Context.still (catalog : Catalog) (level : Level) (entity : Entity) : Context where
  catalog := catalog
  entity := entity
  level := level
  nested _ d := pure d
  search _ _ := throw .tooDeep

namespace Condition

@[simp] theorem head_canonical (c : Condition) : c.canonical.head = c.head := by
  simp [head]

@[simp] theorem rest?_canonical (c : Condition) : c.canonical.rest? = c.rest? := by
  simp [rest?]

end Condition

namespace Context

variable {ctx : Context} {c : Condition} {field : Field}

theorem field_eq_ok : ctx.field c = .ok field ↔ ctx.entity.field? c.head = some field :=
  Entity.conditionField_eq_ok

theorem field_canonical : ctx.field c.canonical = .ok field ↔ ctx.field c = .ok field := by
  rw [field_eq_ok, field_eq_ok, Condition.head_canonical]

theorem target_canonical {target : Entity} :
    ctx.target c.canonical field = .ok target ↔ ctx.target c field = .ok target := by
  unfold Context.target
  split
  · rfl
  · split
    · unfold Catalog.comodel
      split <;> simp
    · simp

end Context

namespace Pass

variable {ctx : Context} {c : Condition} {catalog : Catalog} {level : Level} {entity : Entity}

theorem namesLabels_canonical (c : Condition) : namesLabels c.canonical = namesLabels c := by
  unfold namesLabels
  rw [Condition.operand_canonical, Condition.operator_canonical]
  cases c.operand with
  | scalar v => cases v <;> rfl
  | set values =>
    simp only [Operand.canonical_set, ValueSet.canonical, List.any_map]
    congr 2
    funext v
    cases v <;> rfl
  | _ => rfl

theorem comparesLiterals_canonical (c : Condition) :
    comparesLiterals c.canonical = comparesLiterals c := by
  simp [comparesLiterals]

theorem ordersUnset_canonical (c : Condition) : ordersUnset c.canonical = ordersUnset c := by
  unfold ordersUnset
  rw [Condition.operand_canonical, Condition.operator_canonical]
  cases c.operand with
  | scalar v => cases v <;> rfl
  | _ => rfl

theorem exists_set_canonical {x : Operand} {Q : ValueSet → Prop}
    (hQ : ∀ values : ValueSet, Q values.canonical ↔ Q values) :
    (∃ values, x.canonical = .set values ∧ Q values) ↔ ∃ values, x = .set values ∧ Q values := by
  cases x <;> simp [hQ]

theorem forall_set_canonical {x : Operand} {Q : ValueSet → Prop}
    (hQ : ∀ values : ValueSet, Q values.canonical ↔ Q values) :
    (∀ values, x.canonical = .set values → Q values) ↔ ∀ values, x = .set values → Q values := by
  cases x <;> simp [hQ]

theorem forall_canonical {kind : Value → Bool} (hkind : ∀ v : Value, kind v.canonical = kind v)
    (values : ValueSet) :
    (∀ v ∈ values.canonical.values, kind v = true) ↔ ∀ v ∈ values.values, kind v = true := by
  simp [ValueSet.canonical, hkind]

theorem same_canonical_left (s t : ValueSet) : s.canonical.same t = s.same t := by
  rw [Bool.eq_iff_iff, ValueSet.same_iff, ValueSet.same_iff, ValueSet.canonical_canonical]

theorem isSqlReady_canonical {field : Field} :
    IsSqlReady c.canonical field ↔ IsSqlReady c field := by
  have hshape : acceptsShape c.canonical.operator c.canonical.operand =
      acceptsShape c.operator c.operand := by
    rw [Condition.operand_canonical, Condition.operator_canonical]
    cases c.operand <;> rfl
  constructor
  · rintro ⟨hstandard, hpath, htraversal, haccepts, hsearchable⟩
    exact ⟨by simpa using hstandard, by simpa using hpath, by simpa using htraversal,
      hshape ▸ haccepts, hsearchable⟩
  · rintro ⟨hstandard, hpath, htraversal, haccepts, hsearchable⟩
    exact ⟨by simpa using hstandard, by simpa using hpath, by simpa using htraversal,
      hshape ▸ haccepts, hsearchable⟩

theorem relatedDomain_still_canonical :
    (relatedDomain c.canonical (.still catalog level entity)).result = .ok none ↔
      (relatedDomain c (.still catalog level entity)).result = .ok none := by
  rw [relatedDomain_eq_none, relatedDomain_eq_none]
  refine exists_congr fun field => exists_congr fun target => ?_
  rw [Context.field_canonical, Context.target_canonical, Condition.operand_canonical]
  refine and_congr_right fun _ => and_congr_right fun _ => ?_
  cases c.operand with
  | domain inner =>
    simp only [Operand.canonical_domain, reduceCtorEq, exists_false, false_or,
      Operand.domain.injEq, Context.still, Run.result_pure, Except.ok.injEq, exists_eq_left',
      exists_and_left]
    simp
  | query q => simp
  | _ => simp

/-- Whether a standard pass keeps a condition depends on its canonical form alone. -/
theorem keeps_canonical :
    ∀ entry ∈ Registry.standard.passes,
      (entry.pass.run c.canonical (.still catalog level entity)).result = .ok none ↔
        (entry.pass.run c (.still catalog level entity)).result = .ok none := by
  intro entry hentry
  cases Registry.isStandard_of_mem hentry with
  | resolvePath =>
    simp only [resolvePath_eq_none, Context.field_canonical, Condition.rest?_canonical]
  | deprecatedOperator => simp only [deprecatedOperator_eq_none, Condition.operator_canonical]
  | equalityToMembership =>
    exact iff_of_false (equalityToMembership_ne_none _ (.still catalog level entity))
      (equalityToMembership_ne_none _ (.still catalog level entity))
  | membershipOperand =>
    rw [membershipOperand_eq_none, membershipOperand_eq_none, Condition.operand_canonical]
    exact exists_set_canonical (by simp)
  | patternOperand =>
    rw [patternOperand_eq_none, patternOperand_eq_none, Condition.operand_canonical]
    cases c.operand with
    | scalar v => cases v <;> simp [Value.canonical]
    | _ => simp
  | labels =>
    simp only [labels_eq_none, Context.field_canonical, Condition.isDotted_canonical,
      namesLabels_canonical]
  | relatedDomain => exact relatedDomain_still_canonical
  | manyMembers =>
    rw [manyMembers_eq_none, manyMembers_eq_none, Condition.operand_canonical,
      Condition.operator_canonical, Condition.isDotted_canonical]
    exact forall_set_canonical (by simp)
  | booleanMembers =>
    rw [booleanMembers_eq_none, booleanMembers_eq_none, Condition.operand_canonical,
      Condition.operator_canonical]
    refine forall_set_canonical fun values => ?_
    rw [ValueSet.isDistinct_canonical, same_canonical_left]
    rw [forall_canonical (coerces_toBoolean c).respects]
  | dateLiterals =>
    simp only [dateLiterals_eq_none, comparesLiterals_canonical, ordersUnset_canonical,
      Condition.operand_canonical, Operand.literalsAre_canonical (coerces_toDate c).respects]
  | datetimeLiterals =>
    rw [datetimeLiterals_eq_none, datetimeLiterals_eq_none, comparesLiterals_canonical,
      ordersUnset_canonical, Condition.operand_canonical,
      Operand.literalsAre_canonical (by intro v; cases v <;> rfl)]
  | numericLiterals =>
    simp only [numericLiterals_eq_none, comparesLiterals_canonical, ordersUnset_canonical,
      Context.field_canonical, Condition.operand_canonical,
      Operand.literalsAre_canonical (coerces_toNumber c true).respects]
  | attachmentExists =>
    rw [attachmentExists_eq_none, attachmentExists_eq_none, Condition.operand_canonical,
      Condition.operator_canonical]
    refine exists_congr fun field => ?_
    rw [Context.field_canonical]
    refine and_congr_right fun _ => or_congr_right (exists_set_canonical fun values => ?_)
    rw [same_canonical_left, Bool.and_eq_true, Bool.and_eq_true, List.all_eq_true,
      List.all_eq_true, forall_canonical Value.isFalsy_canonical]
  | inheritedField => simp only [inheritedField_eq_none, Context.field_canonical]
  | computedField => simp only [computedField_eq_none, Context.field_canonical]
  | hierarchy => exact iff_of_false hierarchy_ne_none hierarchy_ne_none
  | bothBooleans =>
    rw [bothBooleans_eq_none, bothBooleans_eq_none, Condition.operand_canonical,
      Condition.operator_canonical]
    refine forall_set_canonical fun values => ?_
    have htrue := values.contains_canonical (.bool true)
    have hfalse := values.contains_canonical (.bool false)
    simp only [Value.canonical] at htrue hfalse
    rw [htrue, hfalse]
  | sqlReady => simp only [sqlReady_eq_ok, Context.field_canonical, isSqlReady_canonical]

end Pass

end QueryDomain
