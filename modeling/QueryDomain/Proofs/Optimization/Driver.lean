import Mathlib.Data.List.Forall2
import QueryDomain.Optimization.Optimizer

/-! What the optimizer does, as relations. A run that succeeds is read off once, here; everything
proved about optimized domains goes by induction on these relations and never opens the loops. -/
namespace QueryDomain

open List

namespace Run

variable {ε α β : Type}

theorem result_mapM_eq_ok {f : α → Run ε β} {as : List α} {bs : List β} :
    (as.mapM f).result = .ok bs ↔ Forall₂ (fun a b => (f a).result = .ok b) as bs := by
  induction as generalizing bs with
  | nil => simp [eq_comm]
  | cons a as ih =>
    rw [List.mapM_cons]
    simp only [result_bind_eq_ok, result_pure, Except.ok.injEq, ih, forall₂_cons_left_iff]
    constructor
    · rintro ⟨b, hb, bs', hbs, rfl⟩
      exact ⟨b, bs', hb, hbs, rfl⟩
    · rintro ⟨b, bs', hb, hbs, rfl⟩
      exact ⟨b, hb, bs', hbs, rfl⟩

end Run

def PassScope.covers (op : Operator) (type : Option FieldType) : PassScope → Bool
  | always => true
  | operators ops => ops.contains op
  | types ts => type.any ts.contains

theorem PassScope.covers_operators {ops : List Operator} {op : Operator} {type : Option FieldType} :
    (operators ops).covers op type = true ↔ op ∈ ops := by
  rw [covers, contains_iff_mem]

theorem PassScope.covers_type {t : FieldType} {op : Operator} {type : Option FieldType} :
    (types [t]).covers op type = true ↔ type = some t := by
  cases type <;> simp [covers]

theorem Registry.mem_membershipOperators {op : Operator} :
    op ∈ membershipOperators ↔ op.isMembership = true := by
  cases op <;> decide

theorem Registry.mem_patternOperators {op : Operator} :
    op ∈ patternOperators ↔ op.isPattern = true := by
  cases op <;> decide

theorem Operator.mem_traversals {op : Operator} : op ∈ [any, notAny] ↔ op.isTraversal = true := by
  cases op <;> decide

theorem Operator.eq_of_isMembership {op : Operator} (h : op.isMembership = true) :
    op = .mem ∨ op = .notMem := by
  cases op <;> first
    | exact .inl rfl
    | exact .inr rfl
    | cases h

theorem Level.basic_le (level : Level) : Level.basic.le level = true := by
  cases level <;> rfl

theorem Level.mem_upTo {a b : Level} : a ∈ b.upTo ↔ a.le b = true := by
  cases a <;> cases b <;> decide

theorem Registry.mem_passesFor {r : Registry} {level : Level} {op : Operator}
    {type : Option FieldType} {pass : NamedPass} :
    pass ∈ r.passesFor level op type ↔
      ∃ entry ∈ r.passes, entry.level = level ∧ entry.scope.covers op type = true ∧
        entry.pass = pass := by
  unfold Registry.passesFor
  simp only [mem_append, mem_map, mem_filter, mem_flatMap, mem_replicate, beq_iff_eq]
  constructor
  · rintro ((⟨entry, ⟨⟨hentry, hlevel⟩, halways⟩, rfl⟩ | ⟨entry, ⟨hentry, hlevel⟩, hcount, rfl⟩) | h)
    · refine ⟨entry, hentry, hlevel, ?_, rfl⟩
      cases hscope : entry.scope <;> simp_all [PassScope.isAlways, PassScope.covers]
    · refine ⟨entry, hentry, hlevel, ?_, rfl⟩
      cases hscope : entry.scope <;> simp_all [PassScope.operatorCount, PassScope.covers, count_eq_zero]
    · cases type with
      | none => simp at h
      | some type =>
        simp only [mem_flatMap, mem_filter, beq_iff_eq, mem_replicate] at h
        obtain ⟨entry, ⟨hentry, hlevel⟩, hcount, rfl⟩ := h
        refine ⟨entry, hentry, hlevel, ?_, rfl⟩
        cases hscope : entry.scope <;> simp_all [PassScope.typeCount, PassScope.covers, count_eq_zero]
  · rintro ⟨entry, hentry, hlevel, hcovers, rfl⟩
    cases hscope : entry.scope with
    | always => exact .inl (.inl ⟨entry, ⟨⟨hentry, hlevel⟩, by rw [hscope]; rfl⟩, rfl⟩)
    | operators ops =>
      rw [hscope] at hcovers
      refine .inl (.inr ⟨entry, ⟨hentry, hlevel⟩, ?_, rfl⟩)
      simpa [hscope, PassScope.operatorCount, PassScope.covers, count_eq_zero] using hcovers
    | types ts =>
      rw [hscope] at hcovers
      refine .inr ?_
      cases type with
      | none => simp [PassScope.covers] at hcovers
      | some type =>
        simp only [mem_flatMap, mem_filter, beq_iff_eq, mem_replicate]
        refine ⟨entry, ⟨hentry, hlevel⟩, ?_, rfl⟩
        simpa [hscope, PassScope.typeCount, PassScope.covers, count_eq_zero] using hcovers

/-- The standard passes, each under a name of its own: what is to hold of all of them is proved by
cases on this. -/
inductive PassEntry.IsStandard : PassEntry → Prop
  | resolvePath : IsStandard ⟨.basic, .always, ⟨"resolve_field", Pass.resolvePath⟩⟩
  | deprecatedOperator : IsStandard ⟨.basic, .operators [.doubleEqual, .lessGreater, .equalIfSet],
      ⟨"legacy_operator", Pass.deprecatedOperator⟩⟩
  | equalityToMembership : IsStandard ⟨.basic, .operators [.equal, .notEqual],
      ⟨"equality_to_membership", Pass.equalityToMembership⟩⟩
  | membershipOperand : IsStandard ⟨.basic, .operators Registry.membershipOperators,
      ⟨"membership_value", Pass.membershipOperand⟩⟩
  | patternOperand : IsStandard ⟨.basic, .operators Registry.patternOperators,
      ⟨"validate_pattern", Pass.patternOperand⟩⟩
  | labels : IsStandard ⟨.basic,
      .operators (Registry.membershipOperators ++ Registry.patternOperators),
      ⟨"search_by_label", Pass.labels⟩⟩
  | relatedDomain : IsStandard ⟨.basic, .operators [.any, .notAny],
      ⟨"traverse_relation", Pass.relatedDomain⟩⟩
  | manyMembers : IsStandard ⟨.basic, .types [.one2many, .many2many],
      ⟨"x2many_membership", Pass.manyMembers⟩⟩
  | booleanMembers : IsStandard ⟨.basic, .types [.boolean],
      ⟨"normalize_boolean", Pass.booleanMembers⟩⟩
  | dateLiterals : IsStandard ⟨.basic, .types [.date], ⟨"normalize_date", Pass.dateLiterals⟩⟩
  | datetimeLiterals : IsStandard ⟨.basic, .types [.datetime],
      ⟨"normalize_datetime", Pass.datetimeLiterals⟩⟩
  | numericLiterals : IsStandard ⟨.basic, .types [.integer, .float, .monetary],
      ⟨"coerce_numeric", Pass.numericLiterals⟩⟩
  | attachmentExists : IsStandard ⟨.basic, .types [.binary],
      ⟨"restrict_attachment", Pass.attachmentExists⟩⟩
  | inheritedField : IsStandard ⟨.search, .always, ⟨"delegated_field", Pass.inheritedField⟩⟩
  | computedField : IsStandard ⟨.search, .always, ⟨"non_stored_field", Pass.computedField⟩⟩
  | hierarchy : IsStandard ⟨.search, .operators [.childOf, .parentOf],
      ⟨"resolve_hierarchy", Pass.hierarchy⟩⟩
  | bothBooleans : IsStandard ⟨.search, .types [.boolean], ⟨"collapse_boolean", Pass.bothBooleans⟩⟩
  | sqlReady : IsStandard ⟨.sql, .always, ⟨"assert_sql_ready", Pass.sqlReady⟩⟩

theorem Registry.isStandard_of_mem {entry : PassEntry} (h : entry ∈ standard.passes) :
    entry.IsStandard := by
  simp only [standard, mem_cons, not_mem_nil, or_false] at h
  obtain rfl | rfl | rfl | rfl | rfl | rfl | rfl | rfl | rfl | rfl | rfl | rfl | rfl | rfl | rfl |
    rfl | rfl | rfl := h
  all_goals constructor

theorem PassEntry.IsStandard.mem {entry : PassEntry} (h : entry.IsStandard) :
    entry ∈ Registry.standard.passes := by
  cases h <;> simp [Registry.standard]

namespace Optimizer

variable {o : Optimizer} {ctx : Context} {k : Connective}

theorem mem_candidates {c : Condition} {pass : NamedPass} :
    pass ∈ o.candidates ctx c ↔
      ∃ entry ∈ o.registry.passes, entry.level.le ctx.level = true ∧
        entry.scope.covers c.operator (ctx.entity.headType? c.path) = true ∧
        entry.pass = pass := by
  simp only [candidates, mem_flatMap, Level.mem_upTo, Registry.mem_passesFor]
  constructor
  · rintro ⟨level, hlevel, entry, hentry, rfl, hcovers, rfl⟩
    exact ⟨entry, hentry, hlevel, hcovers, rfl⟩
  · rintro ⟨entry, hentry, hlevel, hcovers, rfl⟩
    exact ⟨entry.level, hlevel, entry, hentry, rfl, hcovers, rfl⟩

def contextAt (o : Optimizer) (catalog : Catalog) (depth : Nat) (level : Level) (entity : Entity) :
    Context where
  catalog := catalog
  entity := entity
  level := level
  nested := node catalog depth o level
  search := searchBy catalog (node catalog depth standard .search)

theorem mark_contextAt (catalog : Catalog) (depth : Nat) (level : Level) (entity : Entity) :
    (o.contextAt catalog depth level entity).mark = ⟨entity.name, level⟩ :=
  rfl

theorem node_zero (catalog : Catalog) (level : Level) (entity : Entity) (d : Domain) :
    (node catalog 0 o level entity d).result = .error .tooDeep :=
  rfl

theorem node_succ (catalog : Catalog) (depth : Nat) (level : Level) (entity : Entity)
    (d : Domain) :
    node catalog (depth + 1) o level entity d =
      o.settle (o.contextAt catalog depth level entity) o.maxIterations d :=
  rfl

theorem firstChange_eq_none {c : Condition} {passes : List NamedPass} :
    (firstChange c ctx passes).result = .ok none ↔
      ∀ pass ∈ passes, (pass.run c ctx).result = .ok none := by
  induction passes with
  | nil => simp [firstChange]
  | cons pass passes ih =>
    rw [firstChange, Run.result_bind_eq_ok]
    simp only [List.forall_mem_cons, ← ih]
    constructor
    · rintro ⟨_ | d, hpass, h⟩
      · exact ⟨hpass, h⟩
      · simp at h
    · rintro ⟨hpass, h⟩
      exact ⟨none, hpass, h⟩

theorem firstChange_eq_some {c : Condition} {passes : List NamedPass} {name : String}
    {d : Domain} (h : (firstChange c ctx passes).result = .ok (some (name, d))) :
    ∃ before pass after, passes = before ++ pass :: after ∧
      (∀ earlier ∈ before, (earlier.run c ctx).result = .ok none) ∧
      (pass.run c ctx).result = .ok (some d) := by
  induction passes with
  | nil => simp [firstChange] at h
  | cons pass passes ih =>
    rw [firstChange, Run.result_bind_eq_ok] at h
    obtain ⟨_ | changed, hpass, h⟩ := h
    · obtain ⟨before, found, after, rfl, hbefore, hfound⟩ := ih h
      exact ⟨pass :: before, found, after, rfl, by simpa [hpass] using hbefore, hfound⟩
    · simp only [Run.result_pure, Except.ok.injEq, Option.some.injEq, Prod.mk.injEq] at h
      exact ⟨[], pass, passes, rfl, by simp, by rw [hpass, h.2]⟩

theorem stepCondition_eq_ok {c : Condition} {s : Step}
    (h : (o.stepCondition ctx c).result = .ok s) :
    (s = .done (.condition (c.withMark ctx.mark)) ∧
      ∀ pass ∈ o.candidates ctx c, (pass.run c ctx).result = .ok none) ∨
    ∃ before pass after d, s = .changed d ∧ o.candidates ctx c = before ++ pass :: after ∧
      (∀ earlier ∈ before, (earlier.run c ctx).result = .ok none) ∧
      (pass.run c ctx).result = .ok (some d) := by
  rw [stepCondition, Run.result_bind_eq_ok] at h
  obtain ⟨_ | ⟨name, d⟩, hfirst, h⟩ := h
  · simp only [Run.result_pure, Except.ok.injEq] at h
    exact .inl ⟨h.symm, firstChange_eq_none.1 hfirst⟩
  · simp only [Run.result_bind_eq_ok, Run.result_pure, Except.ok.injEq] at h
    obtain ⟨-, -, h⟩ := h
    obtain ⟨before, pass, after, hsplit, hbefore, hpass⟩ := firstChange_eq_some hfirst
    exact .inr ⟨before, pass, after, d, h.symm, hsplit, hbefore, hpass⟩

def sortedJoin (k : Connective) (children : List Domain) : Domain :=
  let joined := k.apply children
  if joined.connective? = some k then k.apply (Domain.sortChildren joined.children) else joined

theorem rebuild_eq (children : List Domain) :
    rebuild k ctx children = children.mapM (ctx.nested ctx.entity) >>= fun optimized =>
      pure (sortedJoin k optimized) := by
  unfold rebuild sortedJoin
  refine bind_congr fun optimized => ?_
  dsimp only
  split <;> rfl

theorem rebuild_eq_ok {children : List Domain} {d : Domain} :
    (rebuild k ctx children).result = .ok d ↔
      ∃ optimized, Forall₂ (fun a b => (ctx.nested ctx.entity a).result = .ok b)
        children optimized ∧ d = sortedJoin k optimized := by
  rw [rebuild_eq, Run.result_bind_eq_ok]
  refine exists_congr fun optimized => and_congr Run.result_mapM_eq_ok ?_
  simp [eq_comm]

theorem flatMap_runsBy (key : Domain → Option String) (children : List Domain) :
    (runsBy key children).flatMap (·.2) = children := by
  induction children with
  | nil => rfl
  | cons d ds ih =>
    rw [runsBy]
    split
    · rename_i run groups _ hgroups
      rw [hgroups] at ih
      split <;> simpa using ih
    · simpa using ih

def isMerged (scope : MergeScope) (entity : Entity) : Option String → List Domain → Bool
  | some path, run => decide (1 < run.length) && scope.acceptsType (entity.headType? path)
  | none, _ => false

theorem mergeRuns_cons (entry : MergeEntry) (key : Option String) (run : List Domain)
    (groups : List (Option String × List Domain)) :
    mergeRuns entry k ctx ((key, run) :: groups) =
      (if isMerged entry.scope ctx.entity key run then entry.run k run ctx
        else pure run) >>= fun first =>
        mergeRuns entry k ctx groups >>= fun rest => pure (first ++ rest) := by
  conv_lhs => unfold mergeRuns
  cases key with
  | none => rfl
  | some path =>
    by_cases hmerged : isMerged entry.scope ctx.entity (some path) run = true
    · rw [if_pos hmerged]
      exact if_pos hmerged
    · rw [if_neg hmerged]
      exact if_neg hmerged

theorem mergeRuns_cons_eq_ok {entry : MergeEntry} {key : Option String} {run merged : List Domain}
    {groups : List (Option String × List Domain)} :
    (mergeRuns entry k ctx ((key, run) :: groups)).result = .ok merged ↔
      ∃ first rest,
        (if isMerged entry.scope ctx.entity key run then (entry.run k run ctx).result = .ok first
          else run = first) ∧
        (mergeRuns entry k ctx groups).result = .ok rest ∧ first ++ rest = merged := by
  rw [mergeRuns_cons]
  simp only [Run.result_bind_eq_ok, Run.result_pure, Except.ok.injEq]
  cases isMerged entry.scope ctx.entity key run with
  | true => simp only [if_true, exists_and_left]
  | false =>
    simp only [Bool.false_eq_true, if_false, Run.result_pure, Except.ok.injEq, exists_and_left]

/-- How the loop over the children of a node can end. -/
inductive Joins (o : Optimizer) (ctx : Context) (k : Connective) : List Domain → Domain → Prop
  /-- Joining left a constant, one child or a node of the other kind. -/
  | folded {children d} : (rebuild k ctx children).result = .ok d → d.connective? ≠ some k →
      Joins o ctx k children d
  /-- Merging changed nothing. -/
  | stable {children d merged} : (rebuild k ctx children).result = .ok d →
      d.connective? = some k → (o.applyMerges k ctx d.children).result = .ok merged →
      Domain.sameAll merged d.children = true → Joins o ctx k children (d.withMark ctx.mark)
  /-- Merging changed the children without making them fewer. -/
  | inPlace {children d merged result} : (rebuild k ctx children).result = .ok d →
      d.connective? = some k → (o.applyMerges k ctx d.children).result = .ok merged →
      Domain.sameAll merged d.children = false → d.children.length ≤ merged.length →
      (rebuild k ctx merged).result = .ok result → Joins o ctx k children (result.withMark ctx.mark)
  /-- Merging made the children fewer. -/
  | again {children d merged result} : (rebuild k ctx children).result = .ok d →
      d.connective? = some k → (o.applyMerges k ctx d.children).result = .ok merged →
      merged.length < d.children.length → Joins o ctx k merged result →
      Joins o ctx k children result

/-- One round of the loop over the children of a node; `again` is what follows if merging made them
fewer. -/
def round (o : Optimizer) (k : Connective) (ctx : Context) (again : List Domain → Run Error Step)
    (children : List Domain) : Run Error Step := do
  let rebuilt ← rebuild k ctx children
  if rebuilt.connective? ≠ some k then return .done rebuilt
  let merged ← o.applyMerges k ctx rebuilt.children
  if Domain.sameAll merged rebuilt.children then return .done (rebuilt.withMark ctx.mark)
  if rebuilt.children.length ≤ merged.length then
    Run.report (.mergedInPlace k merged.length)
    return .done ((← rebuild k ctx merged).withMark ctx.mark)
  Run.report (.merged k rebuilt.children.length merged.length)
  again merged

theorem stepNary_zero (children : List Domain) :
    o.stepNary k ctx 0 children =
      o.round k ctx (fun _ => throw (.diverged o.maxIterations)) children := by
  rw [stepNary.eq_def]
  rfl

theorem stepNary_succ (rounds : Nat) (children : List Domain) :
    o.stepNary k ctx (rounds + 1) children = o.round k ctx (o.stepNary k ctx rounds) children := by
  rw [stepNary.eq_def]
  rfl

/-- One round over the children: it ends the loop, or leaves fewer children to the next round. -/
theorem stepNary_round {rounds : Nat} {children : List Domain} {s : Step}
    (h : (o.stepNary k ctx rounds children).result = .ok s) :
    (∃ d, s = .done d ∧ Joins o ctx k children d) ∨
    ∃ d merged fewer, (rebuild k ctx children).result = .ok d ∧ d.connective? = some k ∧
      (o.applyMerges k ctx d.children).result = .ok merged ∧
      merged.length < d.children.length ∧ rounds = fewer + 1 ∧
      (o.stepNary k ctx fewer merged).result = .ok s := by
  rw [stepNary.eq_def, Run.result_bind_eq_ok] at h
  obtain ⟨d, hd, h⟩ := h
  split at h
  · simp only [Run.result_pure, Except.ok.injEq] at h
    exact .inl ⟨d, h.symm, .folded hd ‹_›⟩
  · rename_i hk
    rw [not_not] at hk
    simp only [Run.result_bind_eq_ok] at h
    obtain ⟨merged, hmerged, h⟩ := h
    split at h
    · rename_i hsame
      simp only [Run.result_pure, Except.ok.injEq] at h
      exact .inl ⟨_, h.symm, .stable hd hk hmerged hsame⟩
    · rename_i hsame
      split at h
      · rename_i hlength
        simp only [Run.result_bind_eq_ok, Run.result_pure, Except.ok.injEq] at h
        obtain ⟨-, -, result, hresult, h⟩ := h
        exact .inl ⟨_, h.symm, .inPlace hd hk hmerged (by simpa using hsame) hlength hresult⟩
      · rename_i hlength
        rw [Run.result_bind_eq_ok] at h
        obtain ⟨-, -, h⟩ := h
        split at h
        · simp at h
        · exact .inr ⟨d, merged, _, hd, hk, hmerged, by omega, rfl, h⟩

theorem stepNary_eq_ok {rounds : Nat} {children : List Domain} {s : Step}
    (h : (o.stepNary k ctx rounds children).result = .ok s) :
    ∃ d, s = .done d ∧ Joins o ctx k children d := by
  induction rounds generalizing children with
  | zero =>
    obtain hdone | ⟨_, _, _, _, _, _, _, hzero, _⟩ := stepNary_round h
    · exact hdone
    · simp at hzero
  | succ rounds ih =>
    obtain hdone | ⟨d, merged, _, hd, hk, hmerged, hlength, hrounds, h⟩ := stepNary_round h
    · exact hdone
    · cases hrounds
      obtain ⟨result, rfl, hresult⟩ := ih h
      exact ⟨result, rfl, .again hd hk hmerged hlength hresult⟩

def covered (ctx : Context) (d : Domain) : Bool :=
  match d.mark? with
  | none => false
  | some mark => mark.covers ctx.entity.name ctx.level

theorem result_isSettled (d : Domain) : (isSettled ctx d).result = .ok (covered ctx d) := by
  unfold isSettled covered
  cases d.mark? with
  | none => rfl
  | some mark =>
    cases hcovers : mark.covers ctx.entity.name ctx.level with
    | true => simp [hcovers]
    | false =>
      by_cases hentity : mark.entity = ctx.entity.name
      · simp [hcovers, hentity]
      · simp only [hcovers, Bool.false_eq_true, if_false, ne_eq, hentity, not_false_eq_true, if_true]
        rfl

/-- A complement that cannot be taken further: a constant, or a negation that has to stay. -/
def isRigid : Domain → Bool
  | .negation _ | .constant _ => true
  | .nary _ _ _ | .condition _ => false

theorem step_negation (inner : Domain) :
    o.step ctx (.negation inner) = ctx.nested ctx.entity inner >>= fun d =>
      pure (if isRigid d.negate then .done d.negate else .changed d.negate) := by
  rw [step]
  refine bind_congr fun d => ?_
  cases d.negate <;> rfl

/-- What one step makes of a domain. -/
inductive Steps (o : Optimizer) (ctx : Context) : Domain → Step → Prop
  | constant (v) : Steps o ctx (.constant v) (.done (.constant v))
  | complement {inner d} : (ctx.nested ctx.entity inner).result = .ok d →
      isRigid d.negate = true → Steps o ctx (.negation inner) (.done d.negate)
  | pushed {inner d} : (ctx.nested ctx.entity inner).result = .ok d →
      isRigid d.negate = false → Steps o ctx (.negation inner) (.changed d.negate)
  | joined {k children mark d} : Joins o ctx k children d →
      Steps o ctx (.nary k children mark) (.done d)
  | kept {c} : (∀ pass ∈ o.candidates ctx c, (pass.run c ctx).result = .ok none) →
      Steps o ctx (.condition c) (.done (.condition (c.withMark ctx.mark)))
  | replaced {c before pass after d} : o.candidates ctx c = before ++ pass :: after →
      (∀ earlier ∈ before, (earlier.run c ctx).result = .ok none) →
      (pass.run c ctx).result = .ok (some d) → Steps o ctx (.condition c) (.changed d)

theorem step_eq_ok {d : Domain} {s : Step} (h : (o.step ctx d).result = .ok s) :
    Steps o ctx d s := by
  cases d with
  | constant v =>
    simp only [step, Run.result_pure, Except.ok.injEq] at h
    exact h ▸ .constant v
  | negation inner =>
    rw [step_negation, Run.result_bind_eq_ok] at h
    obtain ⟨d, hd, h⟩ := h
    rw [Run.result_pure, Except.ok.injEq] at h
    subst h
    cases hrigid : isRigid d.negate with
    | true => exact .complement hd hrigid
    | false => exact .pushed hd hrigid
  | nary k children mark =>
    obtain ⟨result, rfl, hresult⟩ := stepNary_eq_ok h
    exact .joined hresult
  | condition c =>
    obtain ⟨rfl, hkept⟩ | ⟨before, pass, after, d, rfl, hsplit, hbefore, hpass⟩ :=
      stepCondition_eq_ok h
    · exact .kept hkept
    · exact .replaced hsplit hbefore hpass

inductive Settles (o : Optimizer) (ctx : Context) : Domain → Domain → Prop
  | covered {d} : covered ctx d = true → Settles o ctx d d
  | done {d result} : Optimizer.covered ctx d = false → Steps o ctx d (.done result) →
      Settles o ctx d result
  | changed {d next result} : Optimizer.covered ctx d = false → Steps o ctx d (.changed next) →
      Settles o ctx next result → Settles o ctx d result

def turn (o : Optimizer) (ctx : Context) (again : Domain → Run Error Domain) (d : Domain) :
    Run Error Domain := do
  if ← isSettled ctx d then return d
  match ← o.step ctx d with
  | .done result => return result
  | .changed result => again result

theorem settle_zero (d : Domain) :
    o.settle ctx 0 d = o.turn ctx (fun _ => throw (.diverged o.maxIterations)) d := by
  rw [settle.eq_def]
  rfl

theorem settle_succ (changes : Nat) (d : Domain) :
    o.settle ctx (changes + 1) d = o.turn ctx (o.settle ctx changes) d := by
  rw [settle.eq_def]
  rfl

theorem settle_turn {changes : Nat} {d result : Domain} :
    (o.settle ctx changes d).result = .ok result ↔
      (covered ctx d = true ∧ d = result) ∨
      (covered ctx d = false ∧ (o.step ctx d).result = .ok (.done result)) ∨
      ∃ next fewer, covered ctx d = false ∧ (o.step ctx d).result = .ok (.changed next) ∧
        changes = fewer + 1 ∧ (o.settle ctx fewer next).result = .ok result := by
  rw [settle.eq_def, Run.result_bind_eq_ok, result_isSettled]
  simp only [Except.ok.injEq, exists_eq_left']
  cases hcovered : covered ctx d with
  | true => simp
  | false =>
    simp only [Bool.false_eq_true, if_false, false_and, false_or, true_and, Run.result_bind_eq_ok]
    constructor
    · rintro ⟨s, hs, h⟩
      split at h
      · simp only [Run.result_pure, Except.ok.injEq] at h
        exact .inl (h ▸ hs)
      · split at h
        · simp at h
        · exact .inr ⟨_, _, hs, rfl, h⟩
    · rintro (hs | ⟨next, fewer, hs, rfl, h⟩)
      · exact ⟨_, hs, rfl⟩
      · exact ⟨_, hs, h⟩

theorem settle_of_le {changes more : Nat} (hle : changes ≤ more) {d result : Domain}
    (h : (o.settle ctx changes d).result = .ok result) :
    (o.settle ctx more d).result = .ok result := by
  induction changes generalizing more d with
  | zero =>
    rw [settle_turn] at h ⊢
    refine h.imp_right (Or.imp_right ?_)
    rintro ⟨_, _, _, _, hzero, _⟩
    simp at hzero
  | succ changes ih =>
    obtain ⟨more, rfl⟩ := Nat.exists_eq_succ_of_ne_zero (by omega : more ≠ 0)
    rw [settle_turn] at h ⊢
    refine h.imp_right (Or.imp_right ?_)
    rintro ⟨next, fewer, hcovered, hstep, hchanges, h⟩
    cases hchanges
    exact ⟨next, more, hcovered, hstep, rfl, ih (by omega) h⟩

theorem settle_eq_ok {changes : Nat} {d result : Domain}
    (h : (o.settle ctx changes d).result = .ok result) : Settles o ctx d result := by
  induction changes generalizing d with
  | zero =>
    obtain ⟨hcovered, rfl⟩ | ⟨hcovered, hstep⟩ | ⟨_, _, _, _, hzero, _⟩ := settle_turn.1 h
    · exact .covered hcovered
    · exact .done hcovered (step_eq_ok hstep)
    · simp at hzero
  | succ changes ih =>
    obtain ⟨hcovered, rfl⟩ | ⟨hcovered, hstep⟩ | ⟨next, _, hcovered, hstep, hchanges, h⟩ :=
      settle_turn.1 h
    · exact .covered hcovered
    · exact .done hcovered (step_eq_ok hstep)
    · cases hchanges
      exact .changed hcovered (step_eq_ok hstep) (ih h)

end Optimizer

end QueryDomain
