import QueryDomain.Proofs.Binary64.Integers
import QueryDomain.Proofs.Domain.Wire

/-! Domains that come from JSON are read again as they were written. The one exception is a domain
that is always true in the operand of an operator that does not traverse: it is written as an empty
list, and there an empty list is a set. -/
namespace QueryDomain

open List

namespace Json

mutual

/-- Integers fit 64 bits, signed or unsigned, and floats are finite, as in every JSON text. -/
def isProper : Json → Bool
  | .integer n => -int64Limit ≤ n && n < 2 * int64Limit
  | .float x => x.isFinite
  | .array items => areProper items
  | .object members => areMembersProper members
  | _ => true

def areProper : List Json → Bool
  | [] => true
  | item :: items => isProper item && areProper items

def areMembersProper : List (String × Json) → Bool
  | [] => true
  | (_, member) :: members => isProper member && areMembersProper members

end

theorem isProper_of_mem {items : List Json} {json : Json} (h : (Json.array items).isProper = true)
    (hjson : json ∈ items) : json.isProper = true := by
  rw [isProper] at h
  induction items with
  | nil => cases hjson
  | cons item items ih =>
    rw [areProper, Bool.and_eq_true] at h
    obtain rfl | hjson := mem_cons.1 hjson
    · exact h.1
    · exact ih h.2 hjson

theorem isProper_of_get? {json member : Json} {key : String} (h : json.isProper = true)
    (hmember : json.get? key = some member) : member.isProper = true := by
  cases json with
  | object members =>
    rw [isProper] at h
    rw [get?, member?] at hmember
    induction members with
    | nil => cases hmember
    | cons first members ih =>
      rw [areMembersProper, Bool.and_eq_true] at h
      rw [find?_cons] at hmember
      split at hmember
      · cases hmember
        exact h.1
      · exact ih h.2 hmember
  | _ => cases hmember

/-- Induction over the tree; what is inside objects is no part of a domain. -/
@[elab_as_elim]
theorem induct {P : Json → Prop} (null : P .null) (bool : ∀ v, P (.bool v))
    (integer : ∀ n, P (.integer n)) (float : ∀ x, P (.float x)) (string : ∀ s, P (.string s))
    (array : ∀ items, (∀ json ∈ items, P json) → P (.array items))
    (object : ∀ members, P (.object members)) : ∀ json, P json :=
  @Json.rec P (fun items => ∀ json ∈ items, P json) (fun _ => True) (fun _ => True)
    null bool integer float string array (fun members _ => object members)
    (fun _ h => nomatch h)
    (fun _ _ hjson hjsons json h => (mem_cons.1 h).elim (fun e => e ▸ hjson) (hjsons json))
    trivial (fun _ _ _ _ => trivial) fun _ _ _ => trivial

end Json

namespace Value

variable {json : Json} {v : Value}

theorem isWritable_of_ofJson? (hjson : json.isProper = true) (h : ofJson? json = some v) :
    v.isWritable = true := by
  cases json with
  | integer n =>
    rw [ofJson?, Option.some.injEq] at h
    split at h
    · rename_i hn
      subst h
      exact hn
    · rename_i hn
      subst h
      simp only [Json.isInt64, Bool.and_eq_true, decide_eq_true_eq] at hn
      simp only [Json.isProper, Bool.and_eq_true, decide_eq_true_eq] at hjson
      rw [Json.int64Limit] at hjson
      exact Binary64.isFinite_ofInt (by omega)
  | float x =>
    cases h
    exact hjson
  | array items => cases h
  | object members => cases h
  | _ =>
    cases h
    rfl

theorem isCalendar_of_ofJson? (h : ofJson? json = some v) : v.isCalendar = false := by
  cases json with
  | integer n =>
    rw [ofJson?, Option.some.injEq] at h
    split at h <;> subst h <;> rfl
  | array items => cases h
  | object members => cases h
  | _ =>
    cases h
    rfl

/-- Nothing of the literal is lost when it is written and read again. -/
def IsKept (v : Value) : Prop := v.isWritable = true ∧ v.written = v

theorem isKept_of_ofJson? (hjson : json.isProper = true) (h : ofJson? json = some v) : v.IsKept :=
  ⟨isWritable_of_ofJson? hjson h, written_of_not_isCalendar (isCalendar_of_ofJson? h)⟩

theorem isKept_of_mapM_ofJson? {items : List Json} {values : List Value}
    (hitems : (Json.array items).isProper = true) (h : items.mapM ofJson? = some values) :
    ∀ v ∈ values, v.IsKept := by
  induction items generalizing values with
  | nil =>
    cases h
    simp
  | cons item items ih =>
    rw [mapM_cons] at h
    obtain ⟨v, hv, h⟩ := Option.bind_eq_some_iff.1 h
    obtain ⟨vs, hvs, h⟩ := Option.bind_eq_some_iff.1 h
    cases h
    rw [Json.isProper, Json.areProper, Bool.and_eq_true] at hitems
    rw [forall_mem_cons]
    exact ⟨isKept_of_ofJson? hitems.1 hv, ih (by rw [Json.isProper]; exact hitems.2) hvs⟩

theorem mapM_ofJson?_of_ok {ε : Type} {read : Json → Except ε Value} {items : List Json}
    {values : List Value} (hread : ∀ item v, read item = .ok v → ofJson? item = some v)
    (h : items.mapM read = .ok values) : items.mapM ofJson? = some values := by
  induction items generalizing values with
  | nil =>
    cases h
    rfl
  | cons item items ih =>
    rw [mapM_cons] at h
    obtain ⟨v, hv, h⟩ := Except.bind_eq_ok.1 h
    obtain ⟨vs, hvs, h⟩ := Except.bind_eq_ok.1 h
    cases h
    rw [mapM_cons, hread item v hv, ih hvs]
    rfl

theorem map_written_of_isKept {values : List Value} (h : ∀ v ∈ values, v.IsKept) :
    values.map written = values :=
  (map_congr_left fun v hv => (h v hv).2).trans (map_id _)

end Value

theorem SubQuery.isKept_of_ofJson {json : Json} {q : SubQuery} (hjson : json.isProper = true)
    (h : ofJson json = .ok q) : ∀ v ∈ q.params, v.IsKept := by
  have hparams : q.params = [] ∨ ∃ items, json.get? "params" = some (.array items) ∧
      items.mapM Value.ofJson? = some q.params := by
    simp only [ofJson] at h
    cases hquery : (json.get? "query").bind Json.asString? with
    | none =>
      rw [hquery] at h
      cases h
    | some sql =>
      rw [hquery] at h
      cases hmember : json.get? "params" with
      | none =>
        rw [hmember] at h
        cases h
        exact .inl rfl
      | some member =>
        rw [hmember] at h
        cases member with
        | array items =>
          simp only [pure_bind] at h
          obtain ⟨params, hparams, h⟩ := Except.bind_eq_ok.1 h
          cases h
          refine .inr ⟨items, rfl, Value.mapM_ofJson?_of_ok (fun item v hv => ?_) hparams⟩
          split at hv
          · cases hv
            assumption
          · cases hv
        | _ => cases h
  obtain hnone | ⟨items, hitems, hvalues⟩ := hparams
  · simp [hnone]
  · exact Value.isKept_of_mapM_ofJson? (Json.isProper_of_get? hjson hitems) hvalues

namespace Domain

mutual

def conditions : Domain → List Condition
  | constant _ => []
  | negation inner => conditions inner
  | nary _ children _ => allConditions children
  | condition ⟨path, operator, .domain inner, mark⟩ =>
    ⟨path, operator, .domain inner, mark⟩ :: conditions inner
  | condition c => [c]

def allConditions : List Domain → List Condition
  | [] => []
  | d :: ds => conditions d ++ allConditions ds

end

variable {L : Condition → Prop} {c : Condition} {d : Domain}

theorem mem_allConditions {ds : List Domain} :
    c ∈ allConditions ds ↔ ∃ d ∈ ds, c ∈ d.conditions := by
  induction ds with
  | nil => simp [allConditions]
  | cons d ds ih => simp [allConditions, ih]

theorem mem_conditions_condition {e : Condition} : e ∈ (condition c).conditions ↔
    e = c ∨ ∃ inner, c.operand = .domain inner ∧ e ∈ inner.conditions := by
  obtain ⟨path, operator, operand, mark⟩ := c
  cases operand <;> simp [conditions]

end Domain

/-- The operand is written as an empty list that is no domain where it stands. -/
def Condition.IsAmbiguous (c : Condition) : Prop :=
  c.operator.isTraversal = false ∧ c.operand = .domain (.constant true)

namespace Domain

def IsClear (d : Domain) : Prop := ∀ c ∈ d.conditions, ¬ c.IsAmbiguous

/-- The domain is read as it was written, and its literals are what they were. -/
def IsKept (d : Domain) : Prop := d.IsLegible ∧ d.mapValues Value.written = d

variable {c : Condition} {d : Domain}

theorem isClear_condition : (condition c).IsClear ↔
    ¬ c.IsAmbiguous ∧ ∀ inner, c.operand = .domain inner → inner.IsClear := by
  simp only [IsClear, mem_conditions_condition]
  constructor
  · intro h
    exact ⟨h c (.inl rfl), fun inner hinner e he => h e (.inr ⟨inner, hinner, he⟩)⟩
  · rintro ⟨hc, hinner⟩ e (rfl | ⟨inner, hoperand, he⟩)
    · exact hc
    · exact hinner inner hoperand e he

end Domain

def Condition.IsKept (c : Condition) : Prop :=
  (Domain.condition c).IsClear → (Domain.condition c).IsKept

namespace Domain

variable {d : Domain}

theorem IsBuilt.isKept (h : d.IsBuilt Condition.IsKept) (hclear : d.IsClear) : d.IsKept := by
  induction h with
  | constant v => exact ⟨.constant v, rfl⟩
  | @negation c hc hnegate =>
    have hkept := hc hclear
    exact ⟨.negation hnegate hkept.1, congrArg Domain.negation hkept.2⟩
  | @nary k children hseveral hconstant hnode _ ih =>
    have hkept : ∀ d ∈ children, d.IsKept := fun d hd =>
      ih d hd fun c hc => hclear c (mem_allConditions.2 ⟨d, hd, hc⟩)
    refine ⟨.nary hseveral hconstant hnode fun d hd => (hkept d hd).1, ?_⟩
    rw [mapValues_nary, (map_congr_left fun d hd => (hkept d hd).2).trans (map_id _)]
  | condition hc => exact hc hclear

end Domain

theorem Operator.isTraversal_of_inverse? {op inverse : Operator} (h : op.inverse? = some inverse) :
    op.isTraversal = inverse.isTraversal := by
  cases op <;> cases h <;> rfl

namespace Condition

variable {c : Condition}

theorem IsKept.withOperator {op : Operator} (h : c.IsKept) (hop : c.operator.inverse? = some op) :
    (c.withOperator op).IsKept := by
  have htraversal := Operator.isTraversal_of_inverse? hop
  intro hclear
  rw [Domain.isClear_condition, IsAmbiguous] at hclear
  have hkept : (Domain.condition c).IsKept := by
    refine h ?_
    rw [Domain.isClear_condition, IsAmbiguous, htraversal]
    exact hclear
  obtain ⟨hlegible, hvalues⟩ := hkept
  cases hlegible with
  | condition hc hinner =>
    rw [Domain.mapValues, mapValues_eq, Domain.condition.injEq] at hvalues
    have hoperand : c.operand.mapValues Value.written = c.operand := congrArg operand hvalues
    refine ⟨.condition ⟨hc.path, ?_, hc.scalar, hc.set, hc.query⟩ hinner, ?_⟩
    · have hshape := hc.shape
      rwa [htraversal] at hshape
    · rw [Domain.mapValues, mapValues_eq]
      change Domain.condition ⟨c.path, op, c.operand.mapValues Value.written, none⟩ = _
      rw [hoperand]
      rfl

end Condition

namespace Term

variable {L : Condition → Prop} {json : Json}

/-- All conditions that can be read are of the kind, if those inside their operands are. -/
structure Admits (L : Condition → Prop) : Prop where
  inverse : ∀ {c op}, L c → c.operator.inverse? = some op → L (c.withOperator op)
  scalar : ∀ {path op v}, Condition.isPath path = true → op.isTraversal = false → v.IsKept →
    L ⟨path, op, .scalar v, none⟩
  set : ∀ {path op values}, Condition.isPath path = true → op.isTraversal = false →
    (∀ v ∈ values.values, v.IsKept) → values.IsDistinct → L ⟨path, op, .set values, none⟩
  domain : ∀ {path op inner}, Condition.isPath path = true → inner.IsBuilt L →
    L ⟨path, op, .domain inner, none⟩
  query : ∀ {path op q}, Condition.isPath path = true → (∀ v ∈ q.params, v.IsKept) →
    L ⟨path, op, .query q, none⟩

/-- Unless something in them is ambiguous, all conditions that can be read are kept. -/
theorem admits_isKept : Admits Condition.IsKept where
  inverse hc hop := hc.withOperator hop
  scalar := by
    intro path op v hpath hop hv _
    refine ⟨.condition ⟨hpath, hop, ?_, by simp, by simp⟩ (by simp), ?_⟩
    · rintro _ ⟨⟩
      exact hv.1
    · rw [Domain.mapValues, Condition.mapValues, Operand.mapValues, hv.2]
  set := by
    intro path op values hpath hop hkept hdistinct _
    have hvalues : values.map Value.written = values :=
      congrArg ValueSet.mk (Value.map_written_of_isKept hkept)
    refine ⟨.condition ⟨hpath, hop, by simp, ?_, by simp⟩ (by simp), ?_⟩
    · rintro _ ⟨⟩
      rw [hvalues]
      exact ⟨fun v hv => (hkept v hv).1, hdistinct⟩
    · rw [Domain.mapValues, Condition.mapValues, Operand.mapValues,
        Value.map_written_of_isKept hkept]
  domain := by
    intro path op inner hpath hbuilt hclear
    rw [Domain.isClear_condition] at hclear
    obtain ⟨hlegible, hvalues⟩ := hbuilt.isKept (hclear.2 inner rfl)
    refine ⟨.condition ⟨hpath, ?_, by simp, by simp, by simp⟩ ?_, ?_⟩
    · cases htraversal : op.isTraversal with
      | true => exact .inl rfl
      | false => exact .inr fun htrue => hclear.1 ⟨htraversal, congrArg Operand.domain htrue⟩
    · rintro _ ⟨⟩
      exact hlegible
    · rw [Domain.mapValues, Condition.mapValues, Operand.mapValues, hvalues]
  query := by
    intro path op q hpath hkept _
    refine ⟨.condition ⟨hpath, trivial, by simp, by simp, ?_⟩ (by simp), ?_⟩
    · rintro _ ⟨⟩ v hv
      exact (hkept v hv).1
    · rw [Domain.mapValues, Condition.mapValues, Operand.mapValues,
        Value.map_written_of_isKept hkept]

theorem isBuilt_of_result_ofTerms (hL : Admits L) {terms : List Term} {d : Domain}
    (hleaves : ∀ c, .leaf c ∈ terms → L c) (h : (Domain.ofTerms terms).result = .ok d) :
    d.IsBuilt L := by
  obtain ⟨ds, hds, rfl⟩ := Domain.readsAll_of_result_ofTerms h
  exact .apply (hds.isBuilt_of_leaves (fun _ _ hc hop => hL.inverse hc hop) hleaves)

theorem mem_of_result_allOfJson {items : List Json} {terms : List Term} {term : Term}
    (h : (allOfJson items).result = .ok terms) (hterm : term ∈ terms) :
    ∃ item ∈ items, (ofJson item).result = .ok term := by
  induction items generalizing terms with
  | nil =>
    cases h
    cases hterm
  | cons item items ih =>
    simp only [allOfJson, Run.result_bind_eq_ok, Run.result_pure, Except.ok.injEq] at h
    obtain ⟨first, hfirst, rest, hrest, rfl⟩ := h
    obtain rfl | hterm := mem_cons.1 hterm
    · exact ⟨item, mem_cons_self, hfirst⟩
    · obtain ⟨item, hitem, hread⟩ := ih hrest hterm
      exact ⟨item, mem_cons_of_mem _ hitem, hread⟩

def AdmitsOperand (L : Condition → Prop) (traversal : Bool) (x : Operand) : Prop :=
  ∀ path op, Condition.isPath path = true → op.isTraversal = traversal → L ⟨path, op, x, none⟩

theorem admitsOperand_of_literal (hL : Admits L) {traversal : Bool} {x : Operand} {v : Value}
    (hread : Value.ofJson? json = some v) (hv : v.IsKept)
    (h : (operandOfJson traversal json).result = .ok x) : AdmitsOperand L traversal x := by
  have hscalar : operandOfJson false json = pure (.scalar v) := by
    cases json with
    | array items => cases hread
    | object members => cases hread
    | _ => simp only [operandOfJson, hread]
  cases traversal with
  | false =>
    rw [hscalar] at h
    cases h
    exact fun _ _ hpath hop => hL.scalar hpath hop hv
  | true =>
    cases json with
    | bool value =>
      cases h
      exact fun _ _ hpath _ => hL.domain hpath (.constant value)
    | array items => cases hread
    | object members => cases hread
    | _ => cases h

theorem admitsOperand_of_items (hL : Admits L) {items : List Json} {traversal : Bool} {x : Operand}
    (hitems : (Json.array items).isProper = true)
    (hleaves : ∀ item ∈ items, ∀ c, (ofJson item).result = .ok (.leaf c) → L c)
    (h : (operandOfJson traversal (.array items)).result = .ok x) :
    AdmitsOperand L traversal x := by
  rw [operandOfJson] at h
  split at h
  · simp only [Run.result_bind_eq_ok, Run.result_pure, Except.ok.injEq] at h
    obtain ⟨terms, hterms, inner, hinner, rfl⟩ := h
    have hbuilt : inner.IsBuilt L := by
      refine isBuilt_of_result_ofTerms hL (fun c hc => ?_) hinner
      obtain ⟨item, hitem, hread⟩ := mem_of_result_allOfJson hterms hc
      exact hleaves item hitem c hread
    exact fun _ _ hpath _ => hL.domain hpath hbuilt
  · rename_i hflat
    obtain rfl : traversal = false := by
      cases traversal with
      | false => rfl
      | true => exact absurd rfl hflat
    split at h
    · rename_i values hvalues
      cases h
      have hkept := Value.isKept_of_mapM_ofJson? hitems hvalues
      exact fun _ _ hpath hop => hL.set hpath hop
        (fun v hv => hkept v ((ValueSet.fresh_sublist [] values).mem hv))
        (ValueSet.isDistinct_ofList values)
    · cases h

theorem admits_of_leaf {items : List Json} {c : Condition}
    (hoperands : ∀ item ∈ items, ∀ traversal x,
      (operandOfJson traversal item).result = .ok x → AdmitsOperand L traversal x)
    (h : (ofJson (.array items)).result = .ok (.leaf c)) : L c := by
  obtain ⟨field, operator, operand, rfl⟩ : ∃ field operator operand,
      items = [field, operator, operand] := by
    obtain _ | ⟨field, _ | ⟨operator, _ | ⟨operand, _ | ⟨extra, rest⟩⟩⟩⟩ := items
    · cases h
    · cases h
    · cases h
    · exact ⟨field, operator, operand, rfl⟩
    · cases h
  rw [ofJson] at h
  split at h
  · cases h
  · simp only [Run.result_bind_eq_ok, Run.result_liftM, Run.result_pure, Except.ok.injEq] at h
    obtain ⟨⟨path, op⟩, -, x, hx, c', hc', hleaf⟩ := h
    cases hleaf
    unfold Condition.of at hc'
    split at hc'
    · rename_i hpath
      cases hc'
      exact hoperands operand (by simp) _ x hx path op hpath rfl
    · cases hc'

theorem ofToken?_ne_leaf (s : String) (c : Condition) : ofToken? s ≠ some (.leaf c) := by
  unfold ofToken?
  split
  · simp
  · split
    · simp
    · split <;> simp

theorem admits_of_isProper (hL : Admits L) (hjson : json.isProper = true) :
    (∀ c, (ofJson json).result = .ok (.leaf c) → L c) ∧
      ∀ traversal x, (operandOfJson traversal json).result = .ok x →
        AdmitsOperand L traversal x := by
  have hliteral : ∀ {json v}, Json.isProper json = true → Value.ofJson? json = some v →
      ∀ traversal x, (operandOfJson traversal json).result = .ok x →
        AdmitsOperand L traversal x := fun hjson hread _ _ h =>
    admitsOperand_of_literal hL hread (Value.isKept_of_ofJson? hjson hread) h
  induction json using Json.induct with
  | array items ih =>
    have hitems := fun item hitem => ih item hitem (Json.isProper_of_mem hjson hitem)
    exact ⟨fun c h => admits_of_leaf (fun item hitem => (hitems item hitem).2) h, fun _ _ h =>
      admitsOperand_of_items hL hjson (fun item hitem => (hitems item hitem).1) h⟩
  | object members =>
    refine ⟨fun _ h => (by cases h), fun traversal x h => ?_⟩
    simp only [operandOfJson, Run.result_bind_eq_ok, Run.result_liftM, Run.result_pure,
      Except.ok.injEq] at h
    obtain ⟨q, hq, rfl⟩ := h
    exact fun _ _ hpath _ => hL.query hpath (SubQuery.isKept_of_ofJson hjson hq)
  | string s =>
    refine ⟨fun c h => ?_, hliteral hjson rfl⟩
    rw [ofJson] at h
    split at h
    · rename_i term hterm
      cases h
      exact absurd hterm (ofToken?_ne_leaf s c)
    · cases h
  | null => exact ⟨fun _ h => (by cases h), hliteral hjson rfl⟩
  | bool v => exact ⟨fun _ h => (by cases h), hliteral hjson rfl⟩
  | integer n => exact ⟨fun _ h => (by cases h), hliteral hjson rfl⟩
  | float x => exact ⟨fun _ h => (by cases h), hliteral hjson rfl⟩

end Term

namespace Domain

variable {json : Json} {d : Domain}

theorem isBuilt_of_read {L : Condition → Prop} (hL : Term.Admits L) (hjson : json.isProper = true)
    (hread : (ofJson json).result = .ok d) : d.IsBuilt L := by
  cases json with
  | bool value =>
    cases hread
    exact .constant value
  | array items =>
    simp only [ofJson, Run.result_bind_eq_ok] at hread
    obtain ⟨terms, hterms, hd⟩ := hread
    refine Term.isBuilt_of_result_ofTerms hL (fun c hc => ?_) hd
    obtain ⟨item, hitem, hitem'⟩ := Term.mem_of_result_allOfJson hterms hc
    exact (Term.admits_of_isProper hL (Json.isProper_of_mem hjson hitem)).1 c hitem'
  | _ => cases hread

theorem isBuilt_of_result_ofJson (hjson : json.isProper = true)
    (hread : (ofJson json).result = .ok d) : d.IsBuilt Condition.IsKept :=
  isBuilt_of_read Term.admits_isKept hjson hread

/-- A domain that comes from JSON and in which nothing is ambiguous is read as it was written. -/
theorem result_ofJson_toJson (hjson : json.isProper = true) (hread : (ofJson json).result = .ok d)
    (hclear : d.IsClear) : (ofJson d.toJson).result = .ok d := by
  obtain ⟨hlegible, hvalues⟩ := (isBuilt_of_result_ofJson hjson hread).isKept hclear
  rw [hlegible.result_ofJson, hvalues]

/-- Constants and negations are folded on the way in, an integer that is too large becomes a float,
and equal members of a set are one. -/
theorem result_ofJson_toJson_nested :
    let json : Json := .array [.string "!", .array [.string "lines", .string "any",
      .array [.array [.integer 1, .string "=", .integer 1], .array [.string "n", .string "in",
        .array [.integer 9223372036854775808, .null, .null]]]]]
    let d : Domain := .condition ⟨"lines", .notAny, .domain (.condition ⟨"n", .mem,
      .set ⟨[.float ⟨false, 4890909195324358656⟩, .null]⟩, none⟩), none⟩
    (json.isProper = true ∧ (ofJson json).result = .ok d ∧ d.IsClear) ∧
      (ofJson d.toJson).result = .ok d := by
  intro json d
  have hjson : json.isProper = true := rfl
  have hread : (ofJson json).result = .ok d := by rfl
  have hclear : d.IsClear := by
    simp [d, IsClear, conditions, Condition.IsAmbiguous]
  exact ⟨⟨hjson, hread, hclear⟩, result_ofJson_toJson hjson hread hclear⟩

/-- The domain that is always true is written as an empty list, which is a set where the operator
does not traverse. -/
theorem result_ofJson_toJson_always_true :
    let json : Json := .array [.array [.string "f", .string "in",
      .array [.array [.integer 1, .string "=", .integer 1]]]]
    let d : Domain := .condition ⟨"f", .mem, .domain (.constant true), none⟩
    let e : Domain := .condition ⟨"f", .mem, .set .empty, none⟩
    json.isProper = true ∧ (ofJson json).result = .ok d ∧ (ofJson d.toJson).result = .ok e ∧
      d.same e = false :=
  ⟨rfl, rfl, rfl, rfl⟩

end Domain

end QueryDomain
