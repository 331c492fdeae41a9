import QueryDomain.Proofs.Optimization.Assembled
import QueryDomain.Proofs.Optimization.NormalForm
import QueryDomain.Proofs.Sql.Lowering

/-! Comparisons of a column agree with comparisons in memory. An unset value is unknown to the
comparisons of SQL, so the predicates ask for it in so many words where the condition is met by it. -/
namespace QueryDomain

open List

namespace Text

theorem meetsCased_append {c : Char} (hignorable : isCaseIgnorable c = false)
    (hcased : isCased c = false) (cs : List Char) : meetsCased (cs ++ [c]) = meetsCased cs := by
  unfold meetsCased
  induction cs with
  | nil => simp [hignorable, hcased]
  | cons d ds ih =>
    rw [cons_append, dropWhile_cons, dropWhile_cons]
    cases isCaseIgnorable d with
    | true => exact ih
    | false => rfl

theorem lowerFrom_append {c : Char} (hignorable : isCaseIgnorable c = false)
    (hcased : isCased c = false) (before cs : List Char) :
    lowerFrom (before ++ [c]) cs = lowerFrom before cs := by
  induction cs generalizing before with
  | nil => rfl
  | cons d ds ih =>
    rw [lowerFrom, lowerFrom, meetsCased_append hignorable hcased, ← cons_append, ih]

theorem lowerFrom_concat {c : Char} (hignorable : isCaseIgnorable c = false)
    (hcased : isCased c = false) (hsigma : c.toNat ≠ 0x3A3) (before cs : List Char) :
    lowerFrom before (cs ++ [c]) = lowerFrom before cs ++ lowerChar c := by
  induction cs generalizing before with
  | nil => simp [lowerFrom, hsigma]
  | cons d ds ih =>
    rw [cons_append, lowerFrom, lowerFrom, meetsCased_append hignorable hcased, ih, append_assoc]

theorem lowercase_enclosed (s : String) : lowercase ("%" ++ s ++ "%") = "%" ++ lowercase s ++ "%" := by
  have hignorable : isCaseIgnorable '%' = false := by decide +kernel
  have hcased : isCased '%' = false := by decide +kernel
  have hsigma : '%'.toNat ≠ 0x3A3 := by decide
  have hlower : lowerChar '%' = ['%'] := by decide
  have hlist : ("%" ++ s ++ "%").toList = '%' :: (s.toList ++ ['%']) := by
    simp [String.toList_append]
  unfold lowercase
  rw [hlist, lowerFrom, if_neg hsigma, hlower, lowerFrom_concat hignorable hcased hsigma, hlower]
  have hbefore : lowerFrom ['%'] s.toList = lowerFrom [] s.toList :=
    lowerFrom_append hignorable hcased [] s.toList
  rw [hbefore]
  apply String.toList_inj.1
  simp [String.toList_append]

end Text

theorem Pattern.accepts_eq {op : Operator} {pattern : String} {value : Value}
    (hvalue : value.isNull = false) :
    (accepts (op.positive == .ilike || op.positive == .eqIlike)
        (if op.positive = .like ∨ op.positive = .ilike then "%" ++ pattern ++ "%" else pattern)
        value != op.isNegative) = test op pattern value := by
  unfold accepts test
  rw [hvalue]
  simp only [Bool.false_eq_true, if_false]
  cases op <;> simp [Operator.positive, Operator.isNegative, Text.lowercase_enclosed]

theorem Value.compare?_null (v : Value) : v.compare? .null = none := by
  cases v <;> rfl

theorem Value.isNull_iff {v : Value} : v.isNull = true ↔ v = .null := by
  cases v <;> simp [Value.isNull]

theorem ValueSet.holds_null (s : ValueSet) : s.holds .null = s.containsNull := by
  unfold holds containsNull
  congr 1
  funext m
  cases m <;> rfl

theorem ValueSet.holds_of_set (s : ValueSet) {v : Value} (hv : v.isNull = false) :
    s.holds v = (s.values.filter fun m => !m.isNull).any fun m => v.compare? m == some .eq := by
  unfold holds
  rw [any_filter]
  congr 1
  funext m
  unfold Value.equals
  rw [hv, Bool.false_and, Bool.false_or]
  cases hm : m.isNull with
  | true =>
    rw [Value.isNull_iff.1 hm, Value.compare?_null]
    rfl
  | false => rfl

namespace Predicate

variable {db : Database} {scope : Scope} {column : ColumnRef}

theorem eval_inList {values : List Value} (hvalues : ∀ v ∈ values, v.isNull = false)
    (hcolumn : (column.read scope).isNull = false) (negated : Bool) :
    (inList column negated values).eval db scope =
      some ((values.any fun v => (column.read scope).compare? v == some .eq) != negated) := by
  have hknown : values.map (Comparison.equal.apply (column.read scope)) =
      (values.map fun v => (column.read scope).compare? v == some .eq).map some := by
    rw [map_map]
    refine map_congr_left fun v hv => ?_
    simp [Comparison.apply, Comparison.accepts, hcolumn, hvalues v hv]
  rw [eval_list, hknown, Ternary.anyOf_some, Ternary.negatedIf_some, any_map]
  rfl

theorem eval_inList_unset {values : List Value} (hcolumn : (column.read scope).isNull = true)
    (hsome : values ≠ []) (negated : Bool) : (inList column negated values).eval db scope = none := by
  have hunknown : ∀ a ∈ values.map (Comparison.equal.apply (column.read scope)), a = none := by
    intro a ha
    obtain ⟨v, -, rfl⟩ := mem_map.1 ha
    simp [Comparison.apply, hcolumn]
  rw [eval_list, Ternary.anyOf_unknown hunknown (by simpa using hsome), Ternary.negatedIf_none]

theorem isTrue_group (k : Connective) (p q : Predicate) :
    ((group k [p, q]).eval db scope == some true) =
      k.join (p.eval db scope == some true) (q.eval db scope == some true) := by
  rw [eval_pair, Ternary.isTrue_join, Ternary.isTrue_join]
  cases k <;> simp [Connective.join, Connective.identity]

theorem isTrue_null (negated : Bool) : ((null column negated).eval db scope == some true) =
    ((column.read scope).isNull != negated) := by
  rw [eval_null]
  cases (column.read scope).isNull != negated <;> rfl

/-- What a list says about a column that is set becomes what the whole set says about any column. -/
theorem isTrue_withUnset {list : Predicate} {negated found : Bool}
    (hlist : list.eval db scope =
      if (column.read scope).isNull then none else some (found != negated)) (unset : Bool) :
    ((if unset && negated then group .and [list, .null column true]
      else if unset || negated then group .or [list, .null column false]
      else list).eval db scope == some true) =
      ((if (column.read scope).isNull then unset else found) != negated) := by
  cases unset <;> cases negated <;>
    simp only [Bool.false_and, Bool.true_and, Bool.false_or, Bool.or_false, Bool.true_or, if_true,
      Bool.false_eq_true, if_false, isTrue_group, Connective.join, isTrue_null, hlist] <;>
    cases (column.read scope).isNull <;> cases found <;> rfl

theorem isTrue_membership (values : ValueSet) (negated : Bool) :
    ((Lowering.membership column values negated).eval db scope == some true) =
      (values.holds (column.read scope) != negated) := by
  have hset : ∀ v ∈ values.values.filter fun v => !v.isNull, v.isNull = false := by
    intro v hv
    simpa using (mem_filter.1 hv).2
  have hholds : values.holds (column.read scope) = if (column.read scope).isNull then
      values.containsNull else (values.values.filter fun v => !v.isNull).any fun v =>
        (column.read scope).compare? v == some .eq := by
    cases hnull : (column.read scope).isNull with
    | true => rw [Value.isNull_iff.1 hnull, ValueSet.holds_null]; rfl
    | false => rw [ValueSet.holds_of_set values hnull]; rfl
  rw [hholds]
  unfold Lowering.membership
  dsimp only
  cases hvalues : values.values.filter fun v => !v.isNull with
  | nil =>
    dsimp only
    cases values.containsNull with
    | true =>
      rw [if_pos rfl, isTrue_null]
      cases (column.read scope).isNull <;> rfl
    | false => cases negated <;> cases (column.read scope).isNull <;> rfl
  | cons first rest =>
    rw [hvalues] at hset
    cases rest with
    | nil =>
      refine isTrue_withUnset ?_ _
      have hfirst := hset first (mem_singleton.2 rfl)
      cases negated <;>
        simp [Comparison.apply, Comparison.accepts, hfirst, bne]
    | cons second rest =>
      refine isTrue_withUnset ?_ _
      cases hnull : (column.read scope).isNull with
      | true => exact eval_inList_unset hnull (cons_ne_nil _ _) negated
      | false => exact eval_inList hset hnull negated

theorem isTrue_pattern {c : Condition} {textual : Bool} {pattern : String} {p : Predicate}
    (h : Lowering.patternMatch c column textual (.text pattern) = .ok p) :
    (p.eval db scope == some true) = Pattern.test c.operator pattern (column.read scope) := by
  unfold Lowering.patternMatch at h
  dsimp only [Value.asText?] at h
  cases h
  cases hnull : (column.read scope).isNull with
  | true =>
    have htest : Pattern.test c.operator pattern (column.read scope) = c.operator.isNegative := by
      rw [Pattern.test, hnull, if_pos rfl]
    rw [htest]
    cases hnegative : c.operator.isNegative with
    | true =>
      rw [if_pos rfl, isTrue_group, isTrue_null, hnull]
      exact Bool.or_true _
    | false =>
      rw [if_neg Bool.false_ne_true]
      simp [hnull]
  | false =>
    rw [← Pattern.accepts_eq hnull]
    cases hnegative : c.operator.isNegative with
    | true =>
      rw [if_pos rfl, isTrue_group, isTrue_null, hnull, eval_like]
      simp [hnull, Connective.join]
    | false =>
      rw [if_neg Bool.false_ne_true, eval_like]
      simp [hnull]

def ofOrdering : Operator → Comparison
  | .less => .less
  | .greater => .greater
  | .lessOrEqual => .lessOrEqual
  | _ => .greaterOrEqual

theorem isTrue_ordering (op : Operator) (value : Value) :
    ((compare column (ofOrdering op) value).eval db scope == some true) =
      Condition.ordered op ((column.read scope).compare? value) := by
  rw [eval_compare, Comparison.apply]
  cases hnull : (column.read scope).isNull with
  | true =>
    rw [Value.isNull_iff.1 hnull]
    rfl
  | false =>
    cases hvalue : value.isNull with
    | true =>
      rw [Value.isNull_iff.1 hvalue, Value.compare?_null]
      rfl
    | false =>
      simp only [Bool.or_self, Bool.false_eq_true, if_false]
      cases (column.read scope).compare? value with
      | none => cases op <;> rfl
      | some ordering => cases op <;> cases ordering <;> rfl

theorem isTrue_comparison {c : Condition} {textual : Bool} {p : Predicate}
    (hequality : c.operator.isEquality = false)
    (h : Lowering.comparison c column textual = .ok p) :
    (p.eval db scope == some true) = isMet (c.test (column.read scope)) := by
  unfold Lowering.comparison at h
  cases hoperand : c.operand with
  | set values =>
    simp only [hoperand] at h
    split at h
    · rename_i hop
      cases h
      rw [isTrue_membership, Condition.test_membership hop hoperand]
      rfl
    · cases h
  | scalar value =>
    simp only [hoperand] at h
    split at h
    · rename_i hop
      obtain ⟨pattern, rfl⟩ : ∃ pattern, value = .text pattern := by
        unfold Lowering.patternMatch at h
        cases value <;> simp_all [Value.asText?]
      rw [isTrue_pattern h, Condition.test_pattern hop hoperand]
      rfl
    · obtain ⟨rfl, hop⟩ : p = compare column (ofOrdering c.operator) value ∧
          c.operator.isOrdering = true := by
        split at h <;> rename_i hop <;> cases h <;> rw [hop] at hequality ⊢ <;> first
          | contradiction
          | exact ⟨rfl, rfl⟩
      rw [Condition.test_ordering hop hoperand, isTrue_ordering]
      rfl
  | domain inner => simp [hoperand] at h
  | query query => simp [hoperand] at h

end Predicate

end QueryDomain
