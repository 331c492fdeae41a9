import QueryDomain.Proofs.Calendar.Reading
import QueryDomain.Proofs.Optimization.Assembled
import QueryDomain.Proofs.Optimization.Printable
import QueryDomain.Proofs.Schema.Naming
import QueryDomain.Proofs.Sql.Readiness

/-! A domain that is optimized for SQL can be printed, read and optimized again, and is what it was.
Printing turns days and moments into text. The two halves meet at printable domains: optimizing
leads to them, and on their fields the passes for days and moments read the text back. -/
namespace QueryDomain

open List

namespace ValueSet

theorem isDistinct_map {f : Value → Value} {s : ValueSet} (h : s.IsDistinct)
    (hf : ∀ v ∈ s.values, ∀ w ∈ s.values, (f v).same (f w) = true → v.same w = true) :
    (s.map f).IsDistinct := by
  have hfresh : ∀ values seen : List Value, fresh seen values = values →
      (∀ v ∈ seen ++ values, ∀ w ∈ seen ++ values, (f v).same (f w) = true → v.same w = true) →
      fresh (seen.map f) (values.map f) = values.map f := by
    intro values
    induction values with
    | nil => exact fun _ _ _ => rfl
    | cons v vs ih =>
      intro seen hfresh hf
      have hseen : seen.any (·.same v) = false := by
        rw [Bool.eq_false_iff]
        intro hseen
        rw [fresh, if_pos hseen] at hfresh
        have hlength := (fresh_sublist seen vs).length_le
        rw [hfresh, length_cons] at hlength
        omega
      have hseen' : (seen.map f).any (·.same (f v)) = false := by
        rw [any_map, any_eq_false] at *
        intro u hu hsame
        exact hseen u hu (hf u (by simp [hu]) v (by simp) hsame)
      rw [fresh, if_neg (by simp [hseen]), cons.injEq] at hfresh
      rw [map_cons, fresh, if_neg (by simp [hseen']), ← map_cons, ih (v :: seen) hfresh.2]
      intro a ha b hb
      exact hf a (perm_middle.mem_iff.2 ha) b (perm_middle.mem_iff.2 hb)
  exact hfresh s.values [] h hf

end ValueSet

theorem Context.field_withOperand {ctx : Context} {c : Condition} {x : Operand} {field : Field} :
    ctx.field (c.withOperand x) = .ok field ↔ ctx.field c = .ok field := by
  rw [field_eq_ok, field_eq_ok]
  rfl

namespace Pass

variable {coerce : Value → Except Error Value} {kind : Value → Bool} {c : Condition}

/-- Days and moments of a kind are coerced to what they were before they were written. -/
structure Restores (coerce : Value → Except Error Value) (kind : Value → Bool) : Prop where
  isDayOrMoment : ∀ v, kind v = true → isDayOrMoment v = true
  written : ∀ v, kind v = true → v.isWritable = true → coerce v.written = .ok v

theorem restores_toDate (c : Condition) : Restores (toDate c) isDay where
  isDayOrMoment v hv := by
    cases v <;> first
      | rfl
      | cases hv
  written v hv _ := by
    cases v with
    | null => rfl
    | date day =>
      simp only [Value.written, toDate, Date.read?_text]
      rfl
    | _ => cases hv

theorem restores_toDatetime (c : Condition) : Restores (toDatetime c) isMoment where
  isDayOrMoment _ hv := isDayOrMoment_of_isMoment hv
  written v hv hwritable := by
    cases v with
    | null => rfl
    | timestamp t =>
      have hwhole : t.whole = t := by
        rw [Timestamp.whole, TimeOfDay.whole_of_mod (by simpa [Value.isWritable] using hwritable)]
      simp only [Value.written, toDatetime, Timestamp.read?_text, hwhole]
      rfl
    | _ => cases hv

namespace Restores

variable {values : ValueSet}

theorem eq_of_written (h : Restores coerce kind) {v w : Value} (hv : kind v = true)
    (hv' : v.isWritable = true) (hw : kind w = true) (hw' : w.isWritable = true)
    (hsame : v.written.same w.written = true) : v = w := by
  have hcanonical : ∀ v : Value, Pass.isDayOrMoment v = true → v.written.canonical = v.written := by
    intro v hv
    cases v <;> first
      | rfl
      | cases hv
  rw [Value.same_iff, hcanonical v (h.isDayOrMoment v hv), hcanonical w (h.isDayOrMoment w hw)]
    at hsame
  have hrestored := h.written v hv hv'
  rw [hsame, h.written w hw hw'] at hrestored
  exact (Except.ok.inj hrestored).symm

theorem isDistinct_written (h : Restores coerce kind) (hkind : ∀ v ∈ values.values, kind v = true)
    (hwritable : ∀ v ∈ values.values, v.isWritable = true) (hdistinct : values.IsDistinct) :
    (values.map Value.written).IsDistinct := by
  refine ValueSet.isDistinct_map hdistinct fun v hv w hw hsame => ?_
  rw [h.eq_of_written (hkind v hv) (hwritable v hv) (hkind w hw) (hwritable w hw) hsame]
  exact w.same_refl

theorem coerceSet_written (h : Restores coerce kind) (hkind : ∀ v ∈ values.values, kind v = true)
    (hwritable : ∀ v ∈ values.values, v.isWritable = true) (hdistinct : values.IsDistinct) :
    coerceSet coerce (values.map Value.written) = .ok values := by
  have hmapM : (values.values.map Value.written).mapM coerce = .ok (values.values.map id) :=
    mapM_map_eq_pure fun v hv => h.written v (hkind v hv) (hwritable v hv)
  unfold coerceSet
  rw [ValueSet.map, hmapM, map_id]
  change Except.ok (ValueSet.ofList values.values) = _
  rw [ValueSet.ofList, hdistinct]

end Restores

section Written

variable (ctx : Context) (hcompares : comparesLiterals c = true) (hordered : ordersUnset c = false)
  (hwritable : ∀ v ∈ c.operand.literals, v.isWritable = true)

theorem ordersUnset_written :
    ordersUnset (c.withOperand (c.operand.mapValues Value.written)) = ordersUnset c := by
  unfold ordersUnset Condition.withOperand
  cases c.operand with
  | scalar v => cases v <;> rfl
  | _ => rfl

include hcompares hordered hwritable

theorem result_dateLiterals_written (hflat : IsFlat c.operand)
    (hliterals : c.operand.LiteralsAre isDay) :
    (dateLiterals (c.withOperand (c.operand.mapValues Value.written)) ctx).result =
      (replaceOperand (c.withOperand (c.operand.mapValues Value.written)) c.operand).result := by
  have hcompares' : comparesLiterals (c.withOperand (c.operand.mapValues Value.written)) = true :=
    hcompares
  unfold dateLiterals
  rw [hcompares', ordersUnset_written, hordered]
  cases hoperand : c.operand with
  | scalar v =>
    rw [hoperand] at hliterals hwritable
    have hv := (restores_toDate (c.withOperand (.scalar v.written))).written v hliterals
      (hwritable v (mem_singleton.2 rfl))
    simp only [Condition.withOperand, Operand.mapValues] at hv ⊢
    rw [hv]
    rfl
  | set values =>
    rw [hoperand] at hliterals hwritable
    have hrestores := restores_toDate (c.withOperand (.set (values.map Value.written)))
    have hvalues := hrestores.coerceSet_written hliterals.1 hwritable hliterals.2
    simp only [Condition.withOperand, Operand.mapValues, ValueSet.map] at hvalues ⊢
    rw [hvalues]
    rfl
  | _ =>
    rw [hoperand] at hflat
    exact hflat.elim

theorem result_datetimeLiterals_written (hflat : IsFlat c.operand)
    (hliterals : c.operand.LiteralsAre isMoment) :
    (datetimeLiterals (c.withOperand (c.operand.mapValues Value.written)) ctx).result =
      (replaceOperand (c.withOperand (c.operand.mapValues Value.written)) c.operand).result := by
  have hcompares' : comparesLiterals (c.withOperand (c.operand.mapValues Value.written)) = true :=
    hcompares
  unfold datetimeLiterals
  rw [hcompares', ordersUnset_written, hordered]
  cases hoperand : c.operand with
  | scalar v =>
    rw [hoperand] at hliterals hwritable
    have hv := (restores_toDatetime (c.withOperand (.scalar v.written))).written v hliterals
      (hwritable v (mem_singleton.2 rfl))
    simp only [Condition.withOperand, Operand.mapValues] at hv ⊢
    rw [hv]
    cases v with
    | null => rfl
    | timestamp t => rfl
    | _ => cases hliterals
  | set values =>
    rw [hoperand] at hliterals hwritable
    have hvalues := (restores_toDatetime
      (c.withOperand (.set (values.map Value.written)))).coerceSet_written
        hliterals.1 hwritable hliterals.2
    have hdays : (daysOf values.values).isEmpty = true :=
      daysOf_eq_nil.2 fun v hv _ => hliterals.1 v hv
    simp only [Condition.withOperand, Operand.mapValues, ValueSet.map] at hvalues ⊢
    rw [hvalues]
    change (if (daysOf values.values).isEmpty = true then _ else _ : Run _ _).result = _
    rw [if_pos hdays]
  | _ =>
    rw [hoperand] at hflat
    exact hflat.elim

end Written

theorem result_sqlReady_withOperand {ctx : Context} {x : Operand}
    (hshape : acceptsShape c.operator x = acceptsShape c.operator c.operand)
    (h : (sqlReady c ctx).result = .ok none) :
    (sqlReady (c.withOperand x) ctx).result = .ok none := by
  obtain ⟨-, field, hfield, hready⟩ := sqlReady_eq_ok.1 h
  exact sqlReady_eq_ok.2 ⟨rfl, field, Context.field_withOperand.2 hfield,
    ⟨hready.standard, hready.path, hready.traversal, hshape.trans hready.shape, hready.searchable⟩⟩

/-- On a field of days or moments the written condition is kept by all passes but the one for the
type, which puts the literals back. -/
theorem result_run_written {ctx : Context} {field : Field}
    (hfield : ctx.entity.field? c.head = some field) (htype : field.type.isTemporal = true)
    (hcompares : comparesLiterals c = true) (hflat : IsFlat c.operand)
    (hwritable : ∀ v ∈ c.operand.literals, v.isWritable = true) {entry : PassEntry}
    (hentry : entry ∈ Registry.standard.passes)
    (hcovers : entry.scope.covers c.operator (ctx.entity.headType? c.path) = true)
    (hkept : (entry.pass.run c (.still ctx.catalog ctx.level ctx.entity)).result = .ok none) :
    let written := c.withOperand (c.operand.mapValues Value.written)
    (entry.pass.run written ctx).result = .ok none ∨
      (entry.pass.run written ctx).result = (replaceOperand written c.operand).result := by
  intro written
  have hheadType : ctx.entity.headType? c.path = some field.type :=
    headType?_of_field (Context.field_eq_ok.2 hfield)
  have hrelational : field.isRelational = false := by
    unfold Field.isRelational
    cases hfield : field.type <;> rw [hfield] at htype <;> first
      | rfl
      | cases htype
  have hfields : ∀ field', (Context.still ctx.catalog ctx.level ctx.entity).field c = .ok field' →
      ctx.field written = .ok field' :=
    fun _ hfield' => Context.field_withOperand.2 hfield'
  have htypes : ∀ types : List FieldType, (∀ type ∈ types, type.isTemporal = false) →
      (PassScope.types types).covers c.operator (some field.type) = false := by
    intro types hall
    rw [Bool.eq_false_iff, ne_eq, PassScope.covers, Option.any_some, contains_iff_mem]
    intro hmem
    rw [hall _ hmem] at htype
    cases htype
  rw [hheadType] at hcovers
  cases Registry.isStandard_of_mem hentry
  all_goals dsimp only at hkept hcovers ⊢
  case resolvePath =>
    obtain ⟨field', hfield', hrest⟩ := resolvePath_eq_none.1 hkept
    exact .inl (resolvePath_eq_none.2 ⟨field', hfields field' hfield', hrest⟩)
  case deprecatedOperator =>
    have hop := deprecatedOperator_eq_none.1 hkept
    exact .inl (deprecatedOperator_eq_none.2 hop)
  case equalityToMembership => exact absurd hkept (equalityToMembership_ne_none _ _)
  case membershipOperand =>
    obtain ⟨values, hvalues, hsome⟩ := membershipOperand_eq_none.1 hkept
    refine .inl (membershipOperand_eq_none.2 ⟨values.map Value.written, ?_, ?_⟩)
    · change c.operand.mapValues Value.written = _
      rw [hvalues]
      rfl
    · simpa [ValueSet.isEmpty, ValueSet.map] using hsome
  case patternOperand =>
    obtain ⟨pattern, hpattern, hsome⟩ := patternOperand_eq_none.1 hkept
    refine .inl (patternOperand_eq_none.2 ⟨pattern, ?_, hsome⟩)
    change c.operand.mapValues Value.written = _
    rw [hpattern]
    rfl
  case labels =>
    exact .inl (labels_eq_none.2 ⟨field, Context.field_eq_ok.2 hfield, .inl hrelational⟩)
  case relatedDomain =>
    obtain ⟨_, _, _, _, ⟨query, hquery⟩ | ⟨inner, _, hinner, _⟩⟩ := relatedDomain_eq_none.1 hkept
    · rw [hquery] at hflat
      exact hflat.elim
    · rw [hinner] at hflat
      exact hflat.elim
  case manyMembers | booleanMembers | numericLiterals | attachmentExists | bothBooleans =>
    cases (htypes _ (by decide)).symm.trans hcovers
  case dateLiterals =>
    obtain ⟨hordered, hliterals⟩ := dateLiterals_eq_none.1 hkept hcompares
    exact .inr (result_dateLiterals_written ctx hcompares hordered hwritable hflat hliterals)
  case datetimeLiterals =>
    obtain ⟨hordered, hliterals⟩ := datetimeLiterals_eq_none.1 hkept hcompares
    exact .inr (result_datetimeLiterals_written ctx hcompares hordered hwritable hflat hliterals)
  case inheritedField =>
    obtain ⟨field', hfield', hvia⟩ := inheritedField_eq_none.1 hkept
    exact .inl (inheritedField_eq_none.2 ⟨field', hfields field' hfield', hvia⟩)
  case computedField =>
    obtain ⟨field', hfield', hstored⟩ := computedField_eq_none.1 hkept
    exact .inl (computedField_eq_none.2 ⟨field', hfields field' hfield', hstored⟩)
  case hierarchy => exact absurd hkept hierarchy_ne_none
  case sqlReady =>
    refine .inl (result_sqlReady_withOperand ?_ hkept)
    cases c.operand <;> rfl

theorem standard_levels : ∀ entry ∈ Registry.standard.passes,
    entry.level.le .search = true ∨ entry.pass.run = sqlReady := by
  intro entry hentry
  cases Registry.isStandard_of_mem hentry
  all_goals first
    | exact .inl rfl
    | exact .inr rfl

end Pass

namespace Condition

variable {catalog : Catalog} {level : Level} {entity : Entity} {c : Condition} {field : Field}

theorem isFlat_of_literals (h : ∃ v, v ∈ c.operand.literals) : Pass.IsFlat c.operand := by
  obtain ⟨v, hv⟩ := h
  cases hoperand : c.operand with
  | scalar _ | set _ => trivial
  | domain _ | query _ =>
    rw [hoperand] at hv
    cases hv

/-- On a field of days or moments, literals that are kept are of the kind that the type asks for,
and the pass for the type puts them back once they are written. -/
theorem Kept.exists_restoring (h : c.Kept catalog level entity)
    (hfield : entity.field? c.head = some field) (htype : field.type.isTemporal = true)
    (hcompares : Pass.comparesLiterals c = true) (hflat : Pass.IsFlat c.operand)
    (hwritable : ∀ v ∈ c.operand.literals, v.isWritable = true) :
    let written := c.withOperand (c.operand.mapValues Value.written)
    ∃ coerce kind entry, Pass.Restores coerce kind ∧ c.operand.LiteralsAre kind ∧
      entry ∈ Registry.standard.passes ∧ entry.level.le level = true ∧
      entry.scope.covers c.operator (entity.headType? c.path) = true ∧
      ∀ ctx, (entry.pass.run written ctx).result =
        (Pass.replaceOperand written c.operand).result := by
  intro written
  have hheadType : entity.headType? c.path = some field.type := congrArg (Option.map _) hfield
  cases hcase : field.type <;> rw [hcase] at htype hheadType
  case date =>
    let entry : PassEntry := ⟨.basic, .types [.date], ⟨"normalize_date", Pass.dateLiterals⟩⟩
    have hentry : entry ∈ Registry.standard.passes := PassEntry.IsStandard.dateLiterals.mem
    have hlevel : entry.level.le level = true := Level.basic_le level
    have hcovers : entry.scope.covers c.operator (entity.headType? c.path) = true := by
      rw [hheadType]
      rfl
    have hpass : (Pass.dateLiterals c (.still catalog level entity)).result = .ok none :=
      h entry hentry hlevel hcovers
    obtain ⟨hordered, hliterals⟩ := Pass.dateLiterals_eq_none.1 hpass hcompares
    exact ⟨_, _, entry, Pass.restores_toDate c, hliterals, hentry, hlevel, hcovers, fun ctx =>
      Pass.result_dateLiterals_written ctx hcompares hordered hwritable hflat hliterals⟩
  case datetime =>
    let entry : PassEntry :=
      ⟨.basic, .types [.datetime], ⟨"normalize_datetime", Pass.datetimeLiterals⟩⟩
    have hentry : entry ∈ Registry.standard.passes := PassEntry.IsStandard.datetimeLiterals.mem
    have hlevel : entry.level.le level = true := Level.basic_le level
    have hcovers : entry.scope.covers c.operator (entity.headType? c.path) = true := by
      rw [hheadType]
      rfl
    have hpass : (Pass.datetimeLiterals c (.still catalog level entity)).result = .ok none :=
      h entry hentry hlevel hcovers
    obtain ⟨hordered, hliterals⟩ := Pass.datetimeLiterals_eq_none.1 hpass hcompares
    exact ⟨_, _, entry, Pass.restores_toDatetime c, hliterals, hentry, hlevel, hcovers, fun ctx =>
      Pass.result_datetimeLiterals_written ctx hcompares hordered hwritable hflat hliterals⟩
  all_goals cases htype

theorem Kept.exists_target (h : c.Kept catalog .sql entity) {inner : Domain}
    (hoperand : c.operand = .domain inner) :
    ∃ target, c.operator.isTraversal = true ∧ catalog.target? entity c.path = some target := by
  obtain ⟨field, hfield, -⟩ := h.resolved
  have hop : c.operator.isTraversal = true := by
    have hshape := (h.sqlReady hfield).shape
    rwa [hoperand] at hshape
  obtain ⟨target, htarget⟩ := h.related hop
  exact ⟨target, hop, htarget⟩

theorem Kept.result_relatedDomain (h : c.Kept catalog level entity)
    (hop : c.operator.isTraversal = true) {inner inner' optimized : Domain}
    (hoperand : c.operand = .domain inner) {ctx : Context}
    (hctx : ctx.catalog = catalog ∧ ctx.entity = entity) {target : Entity}
    (htarget : catalog.target? entity c.path = some target)
    (hoptimized : (ctx.nested target inner').result = .ok optimized)
    (hsame : optimized.canonical = inner.canonical) :
    (Pass.relatedDomain (c.withOperand (.domain inner')) ctx).result =
      .ok (if optimized.same inner' then none
        else some (.condition (c.withOperand (.domain optimized)))) := by
  obtain ⟨rfl, rfl⟩ := hctx
  have hpass : (Pass.relatedDomain c (.still ctx.catalog level ctx.entity)).result = .ok none :=
    h _ PassEntry.IsStandard.relatedDomain.mem (Level.basic_le level)
      (PassScope.covers_operators.2 (Operator.mem_traversals.2 hop))
  obtain ⟨field, _, hfield, -, ⟨_, hquery⟩ | ⟨inner'', _, hinner, hstill, hfalse, htrue, -⟩⟩ :=
    Pass.relatedDomain_eq_none.1 hpass
  · rw [hoperand] at hquery
    cases hquery
  · rw [hoperand] at hinner
    cases hinner
    cases hstill
    have hfield' : ctx.field (c.withOperand (.domain inner')) = .ok field :=
      Context.field_withOperand.2 hfield
    -- What is inside is no constant that decides the traversal, as it was none before.
    rw [← Domain.isFalse_canonical, ← hsame, Domain.isFalse_canonical] at hfalse
    rw [← Domain.isTrue_canonical, ← hsame, Domain.isTrue_canonical] at htrue
    rw [Pass.result_relatedDomain hfield' ((Context.target_eq_ok hfield').2 htarget) rfl hoptimized,
      if_neg (by simp [hfalse]), if_neg (by simp [htrue])]
    rfl

end Condition

namespace Optimizer

open Domain

variable {catalog : Catalog} {level : Level} {entity : Entity} {c : Condition} {depth : Nat}

theorem firstChange_of_each {ctx : Context} {Q : Domain → Prop} {passes : List NamedPass}
    (h : ∀ pass ∈ passes, (pass.run c ctx).result = .ok none ∨
      ∃ d, (pass.run c ctx).result = .ok (some d) ∧ Q d) :
    (firstChange c ctx passes).result = .ok none ∨
      ∃ name d, (firstChange c ctx passes).result = .ok (some (name, d)) ∧ Q d := by
  induction passes with
  | nil => exact .inl rfl
  | cons pass passes ih =>
    rw [forall_mem_cons] at h
    obtain ⟨hpass | ⟨d, hpass, hd⟩, hrest⟩ := h
    · rw [firstChange, Run.result_bind, hpass]
      exact ih hrest
    · rw [firstChange, Run.result_bind, hpass]
      exact .inr ⟨pass.name, d, rfl, hd⟩

theorem settle_of_each {d : Domain} (hd : Settled catalog level d entity)
    (hdepth : d.height ≤ depth) (hmark : c.mark = none)
    (hpasses : ∀ pass ∈ standard.candidates (standard.contextAt catalog depth level entity) c,
      (pass.run c (standard.contextAt catalog depth level entity)).result = .ok none ∨
      ∃ d', (pass.run c (standard.contextAt catalog depth level entity)).result = .ok (some d') ∧
        d'.canonical = d.canonical)
    (hkept : (∀ pass ∈ standard.candidates (standard.contextAt catalog depth level entity) c,
      (pass.run c (standard.contextAt catalog depth level entity)).result = .ok none) →
      (condition c).canonical = d.canonical) (changes : Nat) :
    ∃ result, (standard.settle (standard.contextAt catalog depth level entity) (changes + 1)
      (.condition c)).result = .ok result ∧ result.canonical = d.canonical := by
  have hcovered :
      covered (standard.contextAt catalog depth level entity) (.condition c) = false := by
    simp [covered, mark?, hmark]
  obtain hnone | ⟨name, d', hfirst, hd'⟩ := firstChange_of_each hpasses
  · have hall := firstChange_eq_none.1 hnone
    refine ⟨_, settle_of_done hcovered (stepCondition_of_kept hall), ?_⟩
    exact (canonical_withMark (.condition c) _).trans (hkept hall)
  · have hstep : (standard.step (standard.contextAt catalog depth level entity)
        (.condition c)).result = .ok (.changed d') := by
      change (standard.stepCondition _ c).result = _
      rw [stepCondition, Run.result_bind, hfirst]
      rfl
    have hheight : d'.height ≤ depth := by
      have heq := congrArg height hd'
      rw [canonical, height_mapValues, canonical, height_mapValues] at heq
      omega
    obtain ⟨result, hresult, heq⟩ := settle_of_settled (hd.of_canonical hd'.symm) hheight changes
    exact ⟨result, settle_turn.2 (.inr (.inr ⟨d', changes, hcovered, hstep, rfl, hresult⟩)),
      (canonical_of_alike heq).trans hd'⟩

theorem settle_written_calendar (h : Settled catalog .sql (.condition c) entity)
    (hleaf : c.IsPrintable entity) (hwritable : ∀ v ∈ c.operand.literals, v.isWritable = true)
    (hcalendar : ∃ v ∈ c.operand.literals, v.isCalendar = true)
    (hdepth : (condition c).height ≤ depth) (changes : Nat) :
    ∃ result, (standard.settle (standard.contextAt catalog depth .sql entity) (changes + 1)
      (.condition (c.withOperand (c.operand.mapValues Value.written)))).result = .ok result ∧
        result.canonical = (condition c).canonical := by
  obtain ⟨hcompares, htypes⟩ := hleaf.calendar hcalendar
  have hflat := Condition.isFlat_of_literals (hcalendar.imp fun _ hv => hv.1)
  have hwritten : ∀ inner, c.operand.mapValues Value.written ≠ .domain inner := by
    intro inner
    cases hoperand : c.operand with
    | domain _ =>
      rw [hoperand] at hflat
      exact hflat.elim
    | _ => nofun
  have hcanonical : (condition (c.withOperand c.operand)).canonical = (condition c).canonical := by
    rw [canonical_condition, canonical_condition, condition.injEq, Condition.canonical_eq_iff]
    exact ⟨rfl, rfl, rfl⟩
  cases h with
  | condition hkept hinner =>
    obtain ⟨field, hfield, -⟩ := hkept.resolved
    have htype := htypes field hfield
    refine settle_of_each (.condition hkept hinner) hdepth rfl (fun pass hpass => ?_)
      (fun hall => ?_) changes
    · obtain ⟨entry, hentry, hlevel, hcovers, rfl⟩ := mem_candidates.1 hpass
      obtain hnone | hback := Pass.result_run_written hfield htype hcompares hflat hwritable hentry
        hcovers (hkept entry hentry hlevel hcovers)
      · exact .inl hnone
      · rw [hback, Pass.result_replaceOperand]
        split
        · exact .inl rfl
        · exact .inr ⟨_, rfl, hcanonical⟩
    · obtain ⟨_, _, entry, -, -, hentry, hlevel, hcovers, hback⟩ :=
        hkept.exists_restoring hfield htype hcompares hflat hwritable
      have hsame := hall entry.pass (mem_candidates.2 ⟨entry, hentry, hlevel, hcovers, rfl⟩)
      rw [hback, Pass.replaceOperand_eq_none] at hsame
      rw [canonical_condition, canonical_condition, condition.injEq, Condition.canonical_eq_iff]
      exact ⟨rfl, rfl, (Operand.sameFlat_iff hwritten).1 hsame⟩

theorem settle_written_domain {inner inner' : Domain}
    (h : Settled catalog .sql (.condition c) entity) (hoperand : c.operand = .domain inner)
    (hnested : ∀ target, catalog.target? entity c.path = some target → ∃ optimized,
      (node catalog depth standard .sql target inner').result = .ok optimized ∧
        optimized.canonical = inner.canonical)
    (hdepth : (condition c).height ≤ depth) (changes : Nat) :
    ∃ result, (standard.settle (standard.contextAt catalog depth .sql entity) (changes + 1)
      (.condition (c.withOperand (.domain inner')))).result = .ok result ∧
        result.canonical = (condition c).canonical := by
  have hcanonical : ∀ d : Domain, d.canonical = inner.canonical →
      (condition (c.withOperand (.domain d))).canonical = (condition c).canonical := by
    intro d hd
    rw [canonical_condition, canonical_condition, condition.injEq, Condition.canonical_eq_iff,
      hoperand]
    exact ⟨rfl, rfl, congrArg Operand.domain hd⟩
  cases h with
  | condition hkept hinner =>
    obtain ⟨target, htraversal, htarget⟩ := hkept.exists_target hoperand
    obtain ⟨optimized, hoptimized, hsame⟩ := hnested target htarget
    let ctx := standard.contextAt catalog depth .sql entity
    have hresult : (Pass.relatedDomain (c.withOperand (.domain inner')) ctx).result =
        .ok (if optimized.same inner' then none
          else some (.condition (c.withOperand (.domain optimized)))) :=
      hkept.result_relatedDomain htraversal hoperand ⟨rfl, rfl⟩ htarget hoptimized hsame
    refine settle_of_each (.condition hkept hinner) hdepth rfl (fun pass hpass => ?_)
      (fun hall => ?_) changes
    · obtain ⟨entry, hentry', hlevel, hcovers', rfl⟩ := mem_candidates.1 hpass
      obtain hsearch | hready := Pass.standard_levels entry hentry'
      · have hkept' : c.Kept catalog .search entity := hkept.antitone rfl
        have hkeeps : entry.pass.run = Pass.relatedDomain ∨
            (entry.pass.run (c.withOperand (.domain inner')) ctx).result = .ok none := by
          refine hkept'.keeps_traversal (c := c.withOperand (.domain inner')) htraversal rfl rfl rfl
            ?_ hentry' hsearch hcovers'
          exact ⟨rfl, rfl⟩
        obtain hrun | hnone := hkeeps
        · rw [hrun, hresult]
          split
          · exact .inl rfl
          · exact .inr ⟨_, rfl, hcanonical optimized hsame⟩
        · exact .inl hnone
      · have hlast := hkept entry hentry' hlevel hcovers'
        rw [hready] at hlast ⊢
        refine .inl (Pass.result_sqlReady_withOperand ?_ hlast)
        rw [hoperand]
        rfl
    · have hnone : (Pass.relatedDomain (c.withOperand (.domain inner')) ctx).result = .ok none :=
        hall _ (mem_candidates.2 ⟨_, PassEntry.IsStandard.relatedDomain.mem, rfl,
          PassScope.covers_operators.2 (Operator.mem_traversals.2 htraversal), rfl⟩)
      rw [hresult, Except.ok.injEq] at hnone
      split at hnone
      · rename_i hinner'
        exact hcanonical inner' ((same_iff.1 hinner').symm.trans hsame)
      · cases hnone

end Optimizer

namespace Domain

variable {catalog : Catalog} {entity : Entity} {c : Condition} {d : Domain}

def IsWritable (d : Domain) : Prop :=
  ∀ c ∈ d.conditions, ∀ v ∈ c.operand.literals, v.isWritable = true

theorem IsWritable.of_nary {k : Connective} {children : List Domain} {mark : Option Mark}
    (h : (nary k children mark).IsWritable) : ∀ d ∈ children, d.IsWritable :=
  fun d hd c hc => h c (mem_allConditions.2 ⟨d, hd, hc⟩)

theorem isWritable_condition : (condition c).IsWritable ↔
    (∀ v ∈ c.operand.literals, v.isWritable = true) ∧
      ∀ inner, c.operand = .domain inner → inner.IsWritable := by
  simp only [IsWritable, mem_conditions_condition]
  constructor
  · intro h
    exact ⟨h c (.inl rfl), fun inner hinner e he => h e (.inr ⟨inner, hinner, he⟩)⟩
  · rintro ⟨hc, hinner⟩ e (rfl | ⟨inner, hoperand, he⟩)
    · exact hc
    · exact hinner inner hoperand e he

end Domain

theorem Condition.IsPrintable.mapValues_written {entity : Entity} {c : Condition}
    (h : c.IsPrintable entity) (hcalendar : ∀ v ∈ c.operand.literals, v.isCalendar = false)
    (hflat : ∀ inner, c.operand ≠ .domain inner) :
    c.operand.mapValues Value.written = c.operand := by
  cases hoperand : c.operand with
  | scalar v =>
    rw [hoperand] at hcalendar
    rw [Operand.mapValues, Value.written_of_not_isCalendar (hcalendar v (mem_singleton.2 rfl))]
  | set values =>
    rw [hoperand] at hcalendar
    have hvalues : values.values.map Value.written = values.values :=
      (map_congr_left fun v hv => Value.written_of_not_isCalendar (hcalendar v hv)).trans (map_id _)
    rw [Operand.mapValues, hvalues]
  | domain inner => exact absurd hoperand (hflat inner)
  | query q => rw [Operand.mapValues, Value.map_written_of_isKept (h.query q hoperand)]

theorem Condition.Kept.isLegible {catalog : Catalog} {entity : Entity} {c : Condition}
    (h : c.Kept catalog .sql entity) (hleaf : c.IsPrintable entity)
    (hwritable : ∀ v ∈ c.operand.literals, v.isWritable = true) : c.IsLegible where
  path := hleaf.path
  shape := by
    obtain ⟨field, hfield, -⟩ := h.resolved
    have hshape := (h.sqlReady hfield).shape
    cases hoperand : c.operand with
    | scalar v =>
      rw [hoperand, Pass.acceptsShape, Bool.and_eq_true, Bool.not_eq_true'] at hshape
      exact hshape.1
    | set values =>
      rw [hoperand, Pass.acceptsShape] at hshape
      dsimp only
      cases hop : c.operator <;> rw [hop] at hshape <;> first
        | rfl
        | cases hshape
    | domain inner =>
      rw [hoperand] at hshape
      exact .inl hshape
    | query q => trivial
  scalar v hv := hwritable v (by rw [hv]; exact mem_singleton.2 rfl)
  set values hvalues := by
    rw [hvalues] at hwritable
    refine ⟨hwritable, ?_⟩
    by_cases hcalendar : ∃ v ∈ c.operand.literals, v.isCalendar = true
    · obtain ⟨hcompares, htypes⟩ := hleaf.calendar hcalendar
      obtain ⟨field, hfield, -⟩ := h.resolved
      have hflat := Condition.isFlat_of_literals (hcalendar.imp fun _ hv => hv.1)
      obtain ⟨_, kind, _, hrestores, hliterals, -⟩ := h.exists_restoring hfield
        (htypes field hfield) hcompares hflat (by rw [hvalues]; exact hwritable)
      rw [hvalues] at hliterals
      exact hrestores.isDistinct_written hliterals.1 hwritable hliterals.2
    · have hsame := hleaf.mapValues_written (by simpa using hcalendar) (by simp [hvalues])
      rw [hvalues, Operand.mapValues, Operand.set.injEq] at hsame
      rw [ValueSet.map, hsame]
      exact hleaf.set values hvalues
  query q hq v hv := (hleaf.query q hq v hv).1

namespace Domain

variable {catalog : Catalog} {entity : Entity} {c : Condition} {d : Domain}

theorem Settled.isLegible (h : Settled catalog .sql d entity)
    (hprint : d.IsPrintable catalog entity) (hwritable : d.IsWritable) : d.IsLegible := by
  induction h with
  | constant v entity => exact .constant v
  | negation hnegate _ ih =>
    cases hprint with
    | negation hprint => exact .negation hnegate (ih hprint hwritable)
  | nary _ hjoined ih =>
    cases hprint with
    | nary hchildren =>
      exact .nary hjoined.several hjoined.noConstant hjoined.noNode fun d hd =>
        ih d hd (hchildren d hd) (hwritable.of_nary d hd)
  | @condition c entity hkept _ ih =>
    obtain ⟨hleaf, hinner⟩ := hprint.of_condition
    obtain ⟨hliterals, hwritable⟩ := isWritable_condition.1 hwritable
    refine .condition (hkept.isLegible hleaf hliterals) fun inner hoperand => ?_
    obtain ⟨target, hop, htarget⟩ := hkept.exists_target hoperand
    have hleads := hkept.leads htarget
    exact ih inner target hoperand hop htarget (hinner inner target hoperand hleads)
      (hwritable inner hoperand)

end Domain

namespace Optimizer

open Domain

variable {catalog : Catalog} {entity : Entity} {d : Domain} {depth : Nat}

/-- What is settled, and then written, settles to what it was. -/
theorem settle_written (h : Settled catalog .sql d entity) (hprint : d.IsPrintable catalog entity)
    (hwritable : d.IsWritable) (hdepth : d.height ≤ depth) {changes : Nat}
    (hchanges : changes ≠ 0) :
    ∃ result, (standard.settle (standard.contextAt catalog depth .sql entity) changes
      (d.mapValues Value.written)).result = .ok result ∧ result.canonical = d.canonical := by
  have hmax : standard.maxIterations ≠ 0 := nofun
  induction h generalizing depth changes with
  | constant v entity => exact ⟨.constant v, settle_of_done rfl rfl, rfl⟩
  | @negation c entity hnegate hinner ih =>
    rw [height] at hdepth
    obtain ⟨depth, rfl⟩ := Nat.exists_eq_succ_of_ne_zero (by omega : depth ≠ 0)
    cases hprint with
    | negation hprint =>
      obtain ⟨d, hd, heq⟩ := ih hprint hwritable (by omega : (condition c).height ≤ depth) hmax
      have hsettled : Settled catalog .sql (.negation d) entity :=
        (Settled.negation hnegate hinner).of_canonical (congrArg Domain.negation heq.symm)
      cases hsettled with
      | @negation c' _ hnegate' _ =>
        refine ⟨.negation (.condition c'), settle_negation ?_ hnegate',
          congrArg Domain.negation heq⟩
        rw [node_succ]
        exact hd
  | @nary k children mark entity hchildren hjoined ih =>
    rw [height] at hdepth
    obtain ⟨depth, rfl⟩ := Nat.exists_eq_succ_of_ne_zero (by omega : depth ≠ 0)
    cases hprint with
    | nary hprint =>
      have hoptimized : ∃ optimized, Forall₂ (fun a b =>
          (node catalog (depth + 1) standard .sql entity (a.mapValues Value.written)).result =
            .ok b) children optimized ∧ optimized.map canonical = children.map canonical := by
        refine exists_forall₂_of_forall_mem
          (f := fun a => node catalog (depth + 1) standard .sql entity (a.mapValues Value.written))
          fun a ha => ?_
        have hheight := height_lt_of_mem ha
        exact ih a ha (hprint a ha) (hwritable.of_nary a ha) (by omega) hmax
      obtain ⟨optimized, hnodes, hsame⟩ := hoptimized
      have hjoined' := hjoined.of_canonical hsame.symm
      rw [mapValues_nary]
      refine ⟨_, settle_nary rfl (forall₂_map_left_iff.2 hnodes) hjoined', ?_⟩
      rw [canonical_nary, canonical_nary, hsame]
  | @condition c entity hkept hinner ih =>
    have hsettled := Settled.condition hkept hinner
    obtain ⟨changes, rfl⟩ := Nat.exists_eq_succ_of_ne_zero hchanges
    obtain ⟨hleaf, hprint⟩ := hprint.of_condition
    obtain ⟨hliterals, hwritable⟩ := isWritable_condition.1 hwritable
    have hwritten : (condition c).mapValues Value.written =
        .condition (c.withOperand (c.operand.mapValues Value.written)) := by
      rw [mapValues, Condition.mapValues_eq]
      rfl
    rw [hwritten]
    by_cases hcalendar : ∃ v ∈ c.operand.literals, v.isCalendar = true
    · exact settle_written_calendar hsettled hleaf hliterals hcalendar hdepth changes
    by_cases hdomain : ∃ inner, c.operand = .domain inner
    · obtain ⟨inner, hoperand⟩ := hdomain
      have hheight : inner.height + 1 ≤ depth := by
        obtain ⟨path, operator, operand, mark⟩ := c
        cases hoperand
        rwa [height] at hdepth
      rw [hoperand]
      refine settle_written_domain hsettled hoperand (fun target htarget => ?_) hdepth changes
      obtain ⟨_, hop, -⟩ := hkept.exists_target hoperand
      obtain ⟨depth, rfl⟩ := Nat.exists_eq_succ_of_ne_zero (by omega : depth ≠ 0)
      rw [node_succ]
      have hleads := hkept.leads htarget
      exact ih inner target hoperand hop htarget (hprint inner target hoperand hleads)
        (hwritable inner hoperand) (by omega) hmax
    · rw [hleaf.mapValues_written (by simpa using hcalendar) (by simpa using hdomain)]
      have hcanonical :
          (condition c).canonical = (condition (c.withOperand c.operand)).canonical := by
        rw [canonical_condition, canonical_condition, condition.injEq, Condition.canonical_eq_iff]
        exact ⟨rfl, rfl, rfl⟩
      have hheight : (condition (c.withOperand c.operand)).height ≤ depth := by
        rwa [← height_mapValues Value.canonical, ← canonical, ← hcanonical, canonical,
          height_mapValues]
      obtain ⟨result, hresult, heq⟩ :=
        settle_of_settled (hsettled.of_canonical hcanonical) hheight (changes + 1)
      exact ⟨result, hresult, (canonical_of_alike heq).trans hcanonical.symm⟩

/-- The JSON form of the domain is read, and optimized for SQL to the domain itself, whatever depth
above its height is allowed. -/
def Reprints (catalog : Catalog) (entity : Entity) (d : Domain) : Prop :=
  ∃ e, (ofJson d.toJson).result = .ok e ∧ ∀ depth > d.height,
    ∃ r, (standard.optimizeWithin depth catalog .sql entity e).result = .ok r ∧
      r.domain.same d = true

/-- What is read from JSON and optimized for SQL can be printed and compiled again, unless a float
in it is not finite or a moment not at a whole second. -/
theorem optimize_reprints {json : Json} {r : OptimizedDomain} (hhooks : catalog.Hookless)
    (hpaths : catalog.NamesPaths) (halike : catalog.InheritsAlike)
    (hentity : catalog.entity? entity.name = some entity) (hjson : json.isProper = true)
    (hread : (ofJson json).result = .ok d)
    (h : (standard.optimizeWithin depth catalog .sql entity d).result = .ok r)
    (hwritable : r.domain.IsWritable) : Reprints catalog entity r.domain := by
  obtain ⟨hprintable, hmarks⟩ := isPrintable_of_read (P := Vouched catalog) hjson hread entity
  obtain ⟨hnode, -, -⟩ := optimizeWithin_eq_ok.1 h
  have hsettled := (node_settled hhooks.hooksCarry hentity hmarks hnode).2
  have hprint := node_isPrintable hhooks hpaths halike hentity hprintable hnode
  have hlegible := hsettled.isLegible hprint hwritable
  refine ⟨_, hlegible.result_ofJson, fun again hagain => ?_⟩
  obtain ⟨again, rfl⟩ := Nat.exists_eq_succ_of_ne_zero (by omega : again ≠ 0)
  obtain ⟨result, hresult, hsame⟩ := settle_written hsettled hprint hwritable
    (by omega : r.domain.height ≤ again) (nofun : standard.maxIterations ≠ 0)
  exact ⟨⟨result, entity.name, .sql⟩, optimizeWithin_eq_ok.2 ⟨hresult, rfl, rfl⟩, same_iff.2 hsame⟩

theorem exists_ok_of_any {ε α : Type} {x : Except ε α} {f : α → Bool}
    (h : x.toOption.any f = true) : ∃ a, x = .ok a ∧ f a = true := by
  cases x with
  | error e => cases h
  | ok a => exact ⟨a, rfl, h⟩

/-- Days in a set, on a field that is inherited. -/
theorem optimize_reprints_born :
    let person : Entity := { name := "person", fields := [{ name := "born", type := .date }] }
    let meeting : Entity := { name := "meeting", fields := [
      { name := "host", type := .many2one, comodel := some "person" },
      { name := "born", type := .date, stored := false, delegatedVia := some "host" }] }
    let catalog : Catalog := { entities := [meeting, person] }
    let json : Json := .array [.array [.string "born", .string "not in",
      .array [.string "1990-05-06", .null, .string "1991-01-02"]]]
    (catalog.Hookless ∧ catalog.NamesPaths ∧ catalog.InheritsAlike ∧
      catalog.entity? meeting.name = some meeting ∧ json.isProper = true) ∧
    ∃ d r, ((ofJson json).result = .ok d ∧
      (standard.optimizeWithin 5 catalog .sql meeting d).result = .ok r ∧ r.domain.IsWritable) ∧
      Reprints catalog meeting r.domain := by
  intro person meeting catalog json
  have hhooks : catalog.Hookless := by decide
  have hpaths : catalog.NamesPaths := ⟨by decide, by decide⟩
  have hdown : catalog.InheritanceGoesDown fun e => ["person", "meeting"].idxOf e.name := by decide
  have halike := hdown.inheritsAlike
  have hrun : ((ofJson json).result.toOption.any fun d =>
      (standard.optimizeWithin 5 catalog .sql meeting d).result.toOption.any fun r =>
        r.domain.conditions.all fun c => c.operand.literals.all Value.isWritable) = true := by
    decide +kernel
  obtain ⟨d, hread, hd⟩ := exists_ok_of_any (x := (ofJson json).result) hrun
  obtain ⟨r, hr, hwritable⟩ := exists_ok_of_any hd
  have hwritable : r.domain.IsWritable := by simpa [IsWritable] using hwritable
  exact ⟨⟨hhooks, hpaths, halike, rfl, rfl⟩, d, r, ⟨hread, hr, hwritable⟩,
    optimize_reprints hhooks hpaths halike rfl rfl hread hr hwritable⟩

/-- A JSON value is read and optimized for SQL, in a catalog without hooks, to a domain that cannot
be printed and compiled again. -/
def IsLost (catalog : Catalog) (entity : Entity) (json : Json) : Prop :=
  catalog.Hookless ∧ catalog.entity? entity.name = some entity ∧ json.isProper = true ∧
    ∃ depth d r, (ofJson json).result = .ok d ∧
      (standard.optimizeWithin depth catalog .sql entity d).result = .ok r ∧
      ¬Reprints catalog entity r.domain

def reprintsAt (depth : Nat) (catalog : Catalog) (entity : Entity) (d : Domain) : Bool :=
  (ofJson d.toJson).result.toOption.any fun e =>
    (standard.optimizeWithin depth catalog .sql entity e).result.toOption.any fun r =>
      r.domain.same d

theorem Reprints.reprintsAt (h : Reprints catalog entity d) (hdepth : d.height < depth) :
    reprintsAt depth catalog entity d = true := by
  obtain ⟨e, he, hagain⟩ := h
  obtain ⟨r, hr, hsame⟩ := hagain depth hdepth
  rw [Optimizer.reprintsAt, he]
  change (standard.optimizeWithin depth catalog .sql entity e).result.toOption.any _ = true
  rw [hr]
  exact hsame

theorem isLost_of_run {json : Json} (depth : Nat) (hhooks : catalog.Hookless)
    (hentity : catalog.entity? entity.name = some entity) (hjson : json.isProper = true)
    (hrun : ((ofJson json).result.toOption.any fun d =>
      (standard.optimizeWithin depth catalog .sql entity d).result.toOption.any fun r =>
        decide (r.domain.height < depth) && !reprintsAt depth catalog entity r.domain) = true) :
    IsLost catalog entity json := by
  obtain ⟨d, hread, hd⟩ := exists_ok_of_any (x := (ofJson json).result) hrun
  obtain ⟨r, hr, hlost⟩ := exists_ok_of_any hd
  rw [Bool.and_eq_true, decide_eq_true_eq, Bool.not_eq_true'] at hlost
  refine ⟨hhooks, hentity, hjson, depth, d, r, hread, hr, fun hreprints => ?_⟩
  rw [hreprints.reprintsAt hlost.1] at hlost
  cases hlost.2

/-- Parts of a second and infinite floats are not written. Where an inherited field is a day but its
original is text, or where it leads to another entity than the original, the type of a day is not
told by the field. Names that are no paths cannot be read. -/
theorem optimize_not_reprints :
    let host : Field := { name := "host", type := .many2one, comodel := some "person" }
    let measures : Entity := { name := "measure", fields := [
      { name := "start", type := .datetime }, { name := "size", type := .float }] }
    let textual : Entity := { name := "person", fields := [{ name := "born", type := .char }] }
    let born : Entity := { name := "meeting", fields := [host,
      { name := "born", type := .date, stored := false, delegatedVia := some "host" }] }
    let citizen : Entity := { name := "person", fields := [
      { name := "home", type := .many2one, comodel := some "city" }] }
    let city : Entity := { name := "city", fields := [{ name := "since", type := .char }] }
    let house : Entity := { name := "house", fields := [{ name := "since", type := .date }] }
    let housed : Entity := { name := "meeting", fields := [host,
      { name := "home", type := .many2one, comodel := some "house", stored := false,
        delegatedVia := some "host" }] }
    let blank : Entity := { name := "person", recName := " ", fields := [
      { name := " ", type := .char }, { name := "age", type := .integer }] }
    let hosted : Entity := { name := "meeting", fields := [host] }
    let linked : Entity := { name := "meeting", fields := [{ host with name := " " },
      { name := "age", type := .integer, stored := false, delegatedVia := some " " }] }
    let leaf (path op : String) (operand : Json) : Json :=
      .array [.array [.string path, .string op, operand]]
    IsLost { entities := [measures] } measures
      (leaf "start" "<" (.string "2024-03-01 10:00:00.5")) ∧
    IsLost { entities := [measures] } measures (leaf "size" "<" (.string "inf")) ∧
    IsLost { entities := [born, textual] } born (leaf "born" "<" (.string "2024-03-01")) ∧
    IsLost { entities := [housed, citizen, house, city] } housed
      (leaf "home.since" "<" (.string "2024-03-01")) ∧
    IsLost { entities := [hosted, blank] } hosted (leaf "host" "=" (.string "Ann")) ∧
    IsLost { entities := [linked, blank] } linked (leaf "age" "<" (.integer 5)) := by
  intro host measures textual born citizen city house housed blank hosted linked leaf
  refine ⟨?_, ?_, ?_, ?_, ?_, ?_⟩ <;> exact isLost_of_run 5 (by decide) rfl rfl (by decide +kernel)

end Optimizer

end QueryDomain
