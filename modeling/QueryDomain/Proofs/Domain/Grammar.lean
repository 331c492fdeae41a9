import QueryDomain.Domain.Prefix
import QueryDomain.Proofs.Domain.Built

/-! The grammar of the prefix form: a list of terms is read if complete expressions stand in it one
after the other, and then it is their conjunction. Where the list is no such sequence an operand is
missing, and no `&` put in front makes up for it. -/
namespace QueryDomain

open List

def Malformation.IsMissingOperand (reason : Malformation) : Prop :=
  reason = .missingOperand ∨ ∃ k, reason = .missingOperands k

namespace Term

/-- The terms are one complete expression with this value. -/
inductive Reads : List Term → Domain → Prop
  | constant (value) : Reads [.constant value] (.constant value)
  | leaf (c) : Reads [.leaf c] (.condition c)
  | negation {ts d} : Reads ts d → Reads (.negation :: ts) d.negate
  | connective {ts us d e} (k) : Reads ts d → Reads us e →
      Reads (.connective k :: (ts ++ us)) (k.apply [d, e])

/-- The terms are complete expressions, one after the other, with these values. -/
inductive ReadsAll : List Term → List Domain → Prop
  | nil : ReadsAll [] []
  | cons {ts us d ds} : Reads ts d → ReadsAll us ds → ReadsAll (ts ++ us) (d :: ds)

variable {term : Term} {terms ts us : List Term} {k : Connective} {d : Domain}
  {as ds stack : List Domain}

theorem Reads.ne_nil (h : Reads ts d) : ts ≠ [] := by
  cases h <;> simp

theorem Reads.isBuilt_of_leaves {L : Condition → Prop}
    (hL : ∀ c op, L c → c.operator.inverse? = some op → L (c.withOperator op)) (h : Reads ts d)
    (hleaves : ∀ c, .leaf c ∈ ts → L c) : d.IsBuilt L := by
  induction h with
  | constant value => exact .constant value
  | leaf c => exact .condition (hleaves c (mem_singleton.2 rfl))
  | negation _ ih => exact (ih fun c hc => hleaves c (mem_cons_of_mem _ hc)).negate hL
  | connective k _ _ ihd ihe =>
    have hd := ihd fun c hc => hleaves c (mem_cons_of_mem _ (mem_append_left _ hc))
    have he := ihe fun c hc => hleaves c (mem_cons_of_mem _ (mem_append_right _ hc))
    exact .apply (by simp [hd, he])

theorem Reads.isBuilt (h : Reads ts d) : d.IsBuilt fun _ => True :=
  h.isBuilt_of_leaves (fun _ _ _ _ => trivial) fun _ _ => trivial

theorem ReadsAll.isBuilt_of_leaves {L : Condition → Prop}
    (hL : ∀ c op, L c → c.operator.inverse? = some op → L (c.withOperator op)) (h : ReadsAll ts ds)
    (hleaves : ∀ c, .leaf c ∈ ts → L c) : ∀ d ∈ ds, d.IsBuilt L := by
  induction h with
  | nil => simp
  | cons hd _ ih =>
    rw [forall_mem_cons]
    exact ⟨hd.isBuilt_of_leaves hL fun c hc => hleaves c (mem_append_left _ hc),
      ih fun c hc => hleaves c (mem_append_right _ hc)⟩

theorem Reads.connectives (h : Reads ts (k.apply as)) (has : ∀ d ∈ as, d.IsBuilt fun _ => True)
    (hds : ReadsAll us ds) :
    Reads (replicate ds.length (.connective k) ++ (ts ++ us)) (k.apply (as ++ ds)) := by
  induction hds generalizing ts as with
  | nil => simpa using h
  | @cons us vs d ds hd _ ih =>
    have hjoined := Reads.connective k h hd
    rw [Domain.IsBuilt.apply_apply has] at hjoined
    have hbuilt : ∀ e ∈ as ++ [d], e.IsBuilt fun _ => True := by
      intro e he
      obtain he | he := mem_append.1 he
      · exact has e he
      · exact mem_singleton.1 he ▸ hd.isBuilt
    have hall := ih hjoined hbuilt
    rwa [cons_append, append_assoc, append_assoc as, singleton_append, append_cons,
      ← replicate_succ'] at hall

theorem Reads.foldrM_push (h : Reads ts d) (stack : List Domain) :
    ts.foldrM push stack = .ok (d :: stack) := by
  induction h generalizing stack with
  | constant value => rfl
  | leaf c => rfl
  | negation _ ih =>
    rw [foldrM_cons, ih]
    rfl
  | connective k _ _ ihd ihe =>
    rw [foldrM_cons, foldrM_append, ihe]
    change (foldrM push _ _ >>= _) = _
    rw [ihd]
    rfl

theorem Reads.reduce_eq_ok (h : Reads ts d) : reduce ts = .ok d := by
  rw [reduce, h.foldrM_push []]
  rfl

theorem ReadsAll.foldrM_push (h : ReadsAll ts ds) : ts.foldrM push [] = .ok ds := by
  induction h with
  | nil => rfl
  | cons hd _ ih =>
    rw [foldrM_append, ih]
    exact hd.foldrM_push _

theorem ReadsAll.of_push (h : ReadsAll terms stack) (hpush : push term stack = .ok ds) :
    ReadsAll (term :: terms) ds := by
  cases term with
  | constant value =>
    cases hpush
    exact .cons (.constant value) h
  | leaf c =>
    cases hpush
    exact .cons (.leaf c) h
  | negation =>
    cases h with
    | nil => cases hpush
    | cons hd hrest =>
      cases hpush
      exact .cons hd.negation hrest
  | connective k =>
    cases h with
    | nil => cases hpush
    | cons hd hrest =>
      cases hrest with
      | nil => cases hpush
      | cons he hrest =>
        cases hpush
        rw [← append_assoc]
        exact .cons (.connective k hd he) hrest

/-- What is on the stack are the values of the expressions read so far. -/
theorem readsAll_of_foldrM_push (h : terms.foldrM push [] = .ok ds) : ReadsAll terms ds := by
  induction terms generalizing ds with
  | nil =>
    cases h
    exact .nil
  | cons term terms ih =>
    rw [foldrM_cons] at h
    cases hstack : terms.foldrM push [] with
    | error reason =>
      rw [hstack] at h
      cases h
    | ok stack =>
      rw [hstack] at h
      exact (ih hstack).of_push h

/-- Reading stops only where an operand is missing. -/
theorem isMissingOperand_of_foldrM_push {reason : Malformation}
    (h : terms.foldrM push stack = .error reason) : reason.IsMissingOperand := by
  induction terms generalizing reason with
  | nil => cases h
  | cons term terms ih =>
    rw [foldrM_cons] at h
    cases hstack : terms.foldrM push stack with
    | error earlier =>
      rw [hstack] at h
      cases h
      exact ih hstack
    | ok operands =>
      rw [hstack] at h
      change push term operands = .error reason at h
      unfold push at h
      split at h <;> cases h
      · exact .inr ⟨_, rfl⟩
      · exact .inl rfl

theorem Reads.missingAnds_append (h : Reads ts d) (expected : Nat) (terms : List Term) :
    missingAnds (expected + 1) (ts ++ terms) = missingAnds expected terms := by
  induction h generalizing expected terms with
  | constant value => rfl
  | leaf c => rfl
  | negation _ ih =>
    rw [cons_append, missingAnds, if_neg (by omega)]
    exact ih expected terms
  | connective k _ _ ihd ihe =>
    rw [cons_append, append_assoc, missingAnds, if_neg (by omega)]
    exact (ihd (expected + 1) _).trans (ihe expected terms)

theorem missingAnds_zero (h : terms ≠ []) : missingAnds 0 terms = 1 + missingAnds 1 terms := by
  cases terms with
  | nil => exact absurd rfl h
  | cons term terms =>
    rw [missingAnds, if_pos rfl, missingAnds, if_neg (by omega), Nat.add_sub_cancel_left]

/-- Each expression that nothing expects asks for one more `&`. -/
theorem ReadsAll.missingAnds_zero (h : ReadsAll ts ds) : missingAnds 0 ts = ds.length := by
  induction h with
  | nil => rfl
  | @cons ts us d ds hd _ ih =>
    have hsome : ts ++ us ≠ [] := by simp [hd.ne_nil]
    rw [Term.missingAnds_zero hsome, hd.missingAnds_append, ih, length_cons, Nat.add_comm]

theorem ReadsAll.withImplicitAnds (h : ReadsAll terms ds) (hsome : terms ≠ []) :
    Reads (withImplicitAnds terms) (Domain.and ds) := by
  cases h with
  | nil => exact absurd rfl hsome
  | @cons ts us d rest hd hrest =>
    have hcount : missingAnds 1 (ts ++ us) = rest.length := by
      rw [hd.missingAnds_append, hrest.missingAnds_zero]
    rw [Term.withImplicitAnds, hcount]
    refine @Reads.connectives ts us .and [d] rest ?_ (by simpa using hd.isBuilt) hrest
    rwa [hd.isBuilt.apply_singleton]

theorem reduce_withImplicitAnds_of_error {reason : Malformation}
    (h : terms.foldrM push [] = .error reason) :
    reduce (Term.withImplicitAnds terms) = .error reason := by
  rw [reduce, Term.withImplicitAnds, foldrM_append, h]
  rfl

end Term

namespace Domain

variable {terms : List Term}

theorem result_ofTerms (hsome : terms ≠ []) : (ofTerms terms).result =
    (Term.reduce (Term.withImplicitAnds terms)).mapError (.malformed terms) := by
  rw [ofTerms, if_neg (by simpa using hsome)]
  by_cases hcount : Term.missingAnds 1 terms = 0
  · simp only [hcount]
    cases Term.reduce (Term.withImplicitAnds terms) <;> rfl
  · simp only [ne_eq, hcount, not_false_eq_true, if_true, Run.result_bind, Run.result_report]
    cases Term.reduce (Term.withImplicitAnds terms) <;> rfl

theorem result_ofTerms_of_readsAll {ds : List Domain} (h : Term.ReadsAll terms ds) :
    (ofTerms terms).result = .ok (and ds) := by
  by_cases hnil : terms = []
  · subst hnil
    cases h.foldrM_push
    rfl
  · rw [result_ofTerms hnil, (h.withImplicitAnds hnil).reduce_eq_ok]
    rfl

theorem ofTerms_cases (terms : List Term) :
    (∃ ds, Term.ReadsAll terms ds ∧ (ofTerms terms).result = .ok (and ds)) ∨
      ∃ reason : Malformation, reason.IsMissingOperand ∧
        (ofTerms terms).result = .error (.malformed terms reason) := by
  cases hread : terms.foldrM Term.push [] with
  | error reason =>
    have hsome : terms ≠ [] := by
      rintro rfl
      cases hread
    refine .inr ⟨reason, Term.isMissingOperand_of_foldrM_push hread, ?_⟩
    rw [result_ofTerms hsome, Term.reduce_withImplicitAnds_of_error hread]
    rfl
  | ok ds =>
    have hds := Term.readsAll_of_foldrM_push hread
    exact .inl ⟨ds, hds, result_ofTerms_of_readsAll hds⟩

theorem readsAll_of_result_ofTerms {d : Domain} (h : (ofTerms terms).result = .ok d) :
    ∃ ds, Term.ReadsAll terms ds ∧ d = and ds := by
  obtain ⟨ds, hds, hresult⟩ | ⟨reason, -, hresult⟩ := ofTerms_cases terms
  · cases h.symm.trans hresult
    exact ⟨ds, hds, rfl⟩
  · cases h.symm.trans hresult

/-- Exactly the sequences of complete expressions are read, as the conjunction of their values; in
all other cases an operand is missing. -/
theorem result_ofTerms_eq_ok_iff (terms : List Term) :
    (∀ d, (ofTerms terms).result = .ok d ↔ ∃ ds, Term.ReadsAll terms ds ∧ d = and ds) ∧
      ∀ error, (ofTerms terms).result = .error error →
        ∃ reason : Malformation, reason.IsMissingOperand ∧ error = .malformed terms reason := by
  refine ⟨fun d => ⟨readsAll_of_result_ofTerms, ?_⟩, fun error h => ?_⟩
  · rintro ⟨ds, hds, rfl⟩
    exact result_ofTerms_of_readsAll hds
  · obtain ⟨ds, -, hresult⟩ | ⟨reason, hreason, hresult⟩ := ofTerms_cases terms
    · cases h.symm.trans hresult
    · cases h.symm.trans hresult
      exact ⟨reason, hreason, rfl⟩

end Domain

end QueryDomain
