import QueryDomain.Domain.Wire
import QueryDomain.Proofs.Domain.Prefix
import QueryDomain.Proofs.Domain.Sets

/-! The JSON form of a domain is read as the domain it was written from, but for days and moments:
they are written as text, and text is what is read. -/
namespace QueryDomain

open List

theorem mapM_map_eq_pure {m : Type → Type} [Monad m] [LawfulMonad m] {α β γ : Type}
    {write : α → β} {read : β → m γ} {f : α → γ} {as : List α}
    (h : ∀ a ∈ as, read (write a) = pure (f a)) :
    (as.map write).mapM read = pure (as.map f) := by
  induction as with
  | nil => rfl
  | cons a as ih =>
    rw [forall_mem_cons] at h
    rw [map_cons, mapM_cons, h.1, pure_bind, ih h.2, pure_bind, map_cons]

namespace Value

def isCalendar : Value → Bool
  | date _ | timestamp _ => true
  | _ => false

/-- What a literal is read as, once it is written. -/
def written : Value → Value
  | date d => text d.text
  | timestamp t => text t.text
  | v => v

/-- Nothing of the literal is lost in its JSON form: integers have 64 bits, floats are finite, and
moments are at a whole second. -/
def isWritable : Value → Bool
  | int n => Json.isInt64 n
  | float x => x.isFinite
  | timestamp t => t.time.nanosecond % Calendar.nanosPerSecond == 0
  | _ => true

theorem written_of_not_isCalendar {v : Value} (h : v.isCalendar = false) : v.written = v := by
  cases v with
  | date _ => cases h
  | timestamp _ => cases h
  | _ => rfl

theorem ofJson?_toJson {v : Value} (h : v.isWritable = true) :
    ofJson? v.toJson = some v.written := by
  cases v with
  | int n =>
    rw [isWritable] at h
    rw [toJson, ofJson?, if_pos h]
    rfl
  | float x =>
    rw [isWritable] at h
    rw [toJson, if_pos h]
    rfl
  | _ => rfl

theorem isArray_toJson (v : Value) : v.toJson.isArray = false := by
  cases v with
  | float x =>
    rw [toJson]
    split <;> rfl
  | _ => rfl

end Value

theorem Operator.read_text (op : Operator) : read op.text = .ok op := by
  cases op <;> rfl

namespace Condition

/-- The condition is read as it was written, the domain in its operand aside. -/
structure IsLegible (c : Condition) : Prop where
  path : isPath c.path = true
  /-- A list is a domain after a traversing operator, and elsewhere if there is a list in it. -/
  shape : match c.operand with
    | .scalar _ | .set _ => c.operator.isTraversal = false
    | .domain inner => c.operator.isTraversal = true ∨ inner ≠ .constant true
    | .query _ => True
  scalar : ∀ v, c.operand = .scalar v → v.isWritable = true
  set : ∀ values, c.operand = .set values →
    (∀ v ∈ values.values, v.isWritable = true) ∧ (values.map Value.written).IsDistinct
  query : ∀ query, c.operand = .query query → ∀ v ∈ query.params, v.isWritable = true

end Condition

namespace Domain

/-- The domain is read as it was written. -/
inductive IsLegible : Domain → Prop
  | constant (v) : IsLegible (.constant v)
  | negation {c} : c.negate = .negation (.condition c) → IsLegible (.condition c) →
      IsLegible (.negation (.condition c))
  | nary {k children mark} : 1 < children.length → (∀ d ∈ children, ∀ v, d ≠ .constant v) →
      (∀ d ∈ children, d.connective? ≠ some k) → (∀ d ∈ children, IsLegible d) →
      IsLegible (.nary k children mark)
  | condition {c} : c.IsLegible → (∀ inner, c.operand = .domain inner → IsLegible inner) →
      IsLegible (.condition c)

variable {d : Domain}

theorem mapValues_ne_constant {f : Value → Value} (h : ∀ v, d ≠ .constant v) (v : Bool) :
    d.mapValues f ≠ .constant v := by
  cases d with
  | constant w => exact absurd rfl (h w)
  | _ => nofun

theorem connective?_mapValues (f : Value → Value) (d : Domain) :
    (d.mapValues f).connective? = d.connective? := by
  cases d <;> rfl

theorem Condition.negate_mapValues {c : Condition} (f : Value → Value)
    (h : c.negate = .negation (.condition c)) :
    (c.mapValues f).negate = .negation (.condition (c.mapValues f)) := by
  rw [Condition.mapValues_eq]
  unfold Condition.negate at h ⊢
  split at h
  · split at h
    · rename_i hinverse hdotted
      simp only [hinverse]
      exact if_pos hdotted
    · cases h
  · rename_i hinverse
    simp only [hinverse]

theorem IsLegible.isBuilt (h : d.IsLegible) (f : Value → Value) :
    (d.mapValues f).IsBuilt (·.mark = none) := by
  induction h with
  | constant v => exact .constant v
  | @negation c hnegate _ _ =>
    exact .negation (by rw [Condition.mapValues_eq]) (Condition.negate_mapValues f hnegate)
  | nary hseveral hconstant hnode _ ih =>
    rw [mapValues_nary]
    refine .nary (by rwa [length_map]) ?_ ?_ ?_ <;> intro e he <;>
      obtain ⟨d, hd, rfl⟩ := mem_map.1 he
    · exact mapValues_ne_constant (hconstant d hd)
    · rw [connective?_mapValues]
      exact hnode d hd
    · exact ih d hd
  | @condition c _ _ _ => exact .condition (by rw [Condition.mapValues_eq])

theorem conditionJson_eq (c : Condition) : conditionJson c =
    .array [.string c.path, .string c.operator.text, operandJson c.operand] := by
  cases c
  rw [conditionJson]

theorem operandJson_domain (h : d ≠ .constant true) :
    operandJson (.domain d) = .array (termJsons d) := by
  rw [operandJson]
  rintro rfl
  exact h rfl

theorem IsLegible.any_isArray (h : d.IsLegible) : (termJsons d).any Json.isArray = true := by
  induction h with
  | constant v => rfl
  | negation _ _ ih =>
    rw [termJsons, any_cons, ih, Bool.or_true]
  | @nary k children mark hseveral _ _ _ ih =>
    obtain ⟨e, he⟩ := exists_mem_of_length_pos (by omega : 0 < children.length)
    obtain ⟨before, after, rfl⟩ := append_of_mem he
    have happend : ∀ ds es, allTermJsons (ds ++ es) = allTermJsons ds ++ allTermJsons es := by
      intro ds es
      induction ds with
      | nil => rfl
      | cons d ds ihds => rw [cons_append, allTermJsons, ihds, allTermJsons, append_assoc]
    rw [termJsons, happend, allTermJsons]
    simp only [any_append, ih e he, Bool.true_or, Bool.or_true]
  | @condition c _ _ _ =>
    rw [termJsons, conditionJson_eq]
    rfl

end Domain

namespace Term

theorem result_allOfJson_append {xs ys : List Json} {as bs : List Term}
    (hxs : (allOfJson xs).result = .ok as) (hys : (allOfJson ys).result = .ok bs) :
    (allOfJson (xs ++ ys)).result = .ok (as ++ bs) := by
  induction xs generalizing as with
  | nil =>
    cases hxs
    exact hys
  | cons x xs ih =>
    simp only [allOfJson, Run.result_bind_eq_ok, Run.result_pure, Except.ok.injEq] at hxs
    obtain ⟨a, ha, rest, hrest, rfl⟩ := hxs
    simp only [cons_append, allOfJson, Run.result_bind_eq_ok, Run.result_pure, Except.ok.injEq]
    exact ⟨a, ha, _, ih hrest, rfl⟩

theorem result_allOfJson_singleton {json : Json} {term : Term}
    (h : (ofJson json).result = .ok term) : (allOfJson [json]).result = .ok [term] := by
  simp only [allOfJson, Run.result_bind_eq_ok, Run.result_pure, Except.ok.injEq]
  exact ⟨term, h, [], rfl, rfl⟩

theorem result_allOfJson_replicate {json : Json} {term : Term}
    (h : (ofJson json).result = .ok term) (n : Nat) :
    (allOfJson (replicate n json)).result = .ok (replicate n term) := by
  induction n with
  | zero => rfl
  | succ n ih =>
    simp only [replicate_succ, allOfJson, Run.result_bind_eq_ok, Run.result_pure, Except.ok.injEq]
    exact ⟨term, h, _, ih, rfl⟩

theorem result_ofJson_token (k : Connective) :
    (ofJson (.string k.token)).result = .ok (.connective k) := by
  cases k <;> rfl

theorem operandOfJson_scalar {v : Value} (h : v.isWritable = true) :
    operandOfJson false v.toJson = pure (.scalar v.written) := by
  have hread := Value.ofJson?_toJson h
  cases hjson : v.toJson with
  | array items => rw [hjson] at hread; cases hread
  | object members => rw [hjson] at hread; cases hread
  | _ => rw [hjson] at hread; simp only [operandOfJson, hread]

theorem operandOfJson_set {values : ValueSet} (h : ∀ v ∈ values.values, v.isWritable = true)
    (hdistinct : (values.map Value.written).IsDistinct) :
    operandOfJson false (Domain.operandJson (.set values)) =
      pure (.set (values.map Value.written)) := by
  have hscalars : (values.values.map Value.toJson).any Json.isArray = false := by
    rw [any_map, any_eq_false]
    intro v _
    simp [Value.isArray_toJson]
  rw [Domain.operandJson, operandOfJson, if_neg (by simpa using hscalars),
    mapM_map_eq_pure fun v hv => Value.ofJson?_toJson (h v hv)]
  have hset : ValueSet.ofList (values.values.map Value.written) = values.map Value.written :=
    congrArg ValueSet.mk hdistinct
  change pure (Operand.set (.ofList _)) = _
  rw [hset]

theorem result_operandOfJson_domain {traversal : Bool} {inner : Domain} (hlegible : inner.IsLegible)
    (hshape : traversal = true ∨ inner ≠ .constant true)
    (hterms : (allOfJson (Domain.termJsons inner)).result =
      .ok (inner.mapValues Value.written).expression) :
    (operandOfJson traversal (Domain.operandJson (.domain inner))).result =
      .ok (.domain (inner.mapValues Value.written)) := by
  by_cases htrue : inner = .constant true
  · subst htrue
    obtain rfl : traversal = true := by simpa using hshape
    rfl
  · have hlist : (traversal || (Domain.termJsons inner).any Json.isArray) = true := by
      rw [hlegible.any_isArray, Bool.or_true]
    rw [Domain.operandJson_domain htrue, operandOfJson, if_pos hlist]
    simp only [Run.result_bind_eq_ok, Run.result_pure, Except.ok.injEq]
    exact ⟨_, hterms, _, Domain.result_ofTerms_expression (hlegible.isBuilt _), rfl⟩

theorem result_operandOfJson_query {traversal : Bool} {q : SubQuery}
    (h : ∀ v ∈ q.params, v.isWritable = true) :
    (operandOfJson traversal (Domain.operandJson (.query q))).result =
      .ok (.query ⟨q.sql, q.params.map Value.written⟩) := by
  have hread : SubQuery.ofJson q.toJson = .ok ⟨q.sql, q.params.map Value.written⟩ := by
    have hquery : q.toJson.get? "query" = some (.string q.sql) := rfl
    have hparams : q.toJson.get? "params" = some (.array (q.params.map Value.toJson)) := rfl
    simp only [SubQuery.ofJson, hquery, hparams, Option.bind_some, Json.asString?]
    rw [pure_bind, mapM_map_eq_pure fun v hv => by rw [Value.ofJson?_toJson (h v hv)]; rfl]
    rfl
  rw [Domain.operandJson]
  change (operandOfJson traversal (.object _)).result = _
  rw [operandOfJson]
  change (liftM (SubQuery.ofJson q.toJson) >>= _ : Run _ _).result = _
  rw [hread]
  rfl

theorem result_ofJson_condition {c : Condition} (h : c.IsLegible)
    (hinner : ∀ inner, c.operand = .domain inner → inner.IsLegible ∧
      (allOfJson (Domain.termJsons inner)).result =
        .ok (inner.mapValues Value.written).expression) :
    (ofJson (Domain.conditionJson c)).result = .ok (.leaf (c.mapValues Value.written)) := by
  have hoperand : (operandOfJson c.operator.isTraversal (Domain.operandJson c.operand)).result =
      .ok (c.operand.mapValues Value.written) := by
    have hshape := h.shape
    cases hx : c.operand with
    | scalar v =>
      rw [hx] at hshape
      rw [hshape, Domain.operandJson, operandOfJson_scalar (h.scalar v hx)]
      rfl
    | set values =>
      rw [hx] at hshape
      obtain ⟨hwritable, hdistinct⟩ := h.set values hx
      rw [hshape, operandOfJson_set hwritable hdistinct]
      rfl
    | domain inner =>
      rw [hx] at hshape
      obtain ⟨hlegible, hterms⟩ := hinner inner hx
      exact result_operandOfJson_domain hlegible hshape hterms
    | query q => exact result_operandOfJson_query (h.query q hx)
  have hleaf : constantLeaf? (.string c.path) (.string c.operator.text)
      (Domain.operandJson c.operand) = none := by
    unfold constantLeaf?
    split
    · rfl
    · rfl
  have hhead : leafHead (.string c.path) (.string c.operator.text) = .ok (c.path, c.operator) := by
    simp only [leafHead, Json.asString?, Operator.read_text]
    rfl
  rw [Domain.conditionJson_eq, ofJson, hleaf, Condition.mapValues_eq]
  simp only [hhead, Run.result_bind_eq_ok, Run.result_liftM, Run.result_pure, Except.ok.injEq]
  refine ⟨_, rfl, _, hoperand, _, if_pos h.path, rfl⟩

end Term

namespace Domain

variable {d : Domain}

theorem result_allTermJsons {children : List Domain}
    (h : ∀ d ∈ children, (Term.allOfJson (termJsons d)).result =
      .ok (d.mapValues Value.written).expression) :
    (Term.allOfJson (allTermJsons children)).result =
      .ok (expressions (children.map (mapValues Value.written))) := by
  induction children with
  | nil => rfl
  | cons e es ih =>
    exact Term.result_allOfJson_append (h e mem_cons_self)
      (ih fun d hd => h d (mem_cons_of_mem e hd))

theorem IsLegible.result_allOfJson (h : d.IsLegible) : (Term.allOfJson (termJsons d)).result =
    .ok (d.mapValues Value.written).expression := by
  induction h with
  | constant v => cases v <;> rfl
  | @negation c _ hcondition ih =>
    exact @Term.result_allOfJson_append [.string "!"] _ [.negation] _ rfl ih
  | @nary k children mark _ _ _ _ ih =>
    rw [mapValues_nary, termJsons, expression, length_map]
    exact Term.result_allOfJson_append
      (Term.result_allOfJson_replicate (Term.result_ofJson_token k) _) (result_allTermJsons ih)
  | @condition c hc hinner ih =>
    have hleaf := Term.result_ofJson_condition hc fun inner hx => ⟨hinner inner hx, ih inner hx⟩
    have hmark : (c.mapValues Value.written).withoutMark = c.mapValues Value.written := by
      rw [Condition.mapValues_eq]
      rfl
    rw [mapValues, expression, hmark]
    exact Term.result_allOfJson_singleton hleaf

theorem IsLegible.result_ofJson (h : d.IsLegible) :
    (ofJson d.toJson).result = .ok (d.mapValues Value.written) := by
  by_cases htrue : d = .constant true
  · subst htrue
    rfl
  · rw [toJson, operandJson_domain htrue, ofJson]
    simp only [Run.result_bind_eq_ok]
    exact ⟨_, h.result_allOfJson, result_ofTerms_expression (h.isBuilt _)⟩

end Domain

end QueryDomain
