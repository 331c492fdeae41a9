import Mathlib.Data.List.Permutation
import Mathlib.Data.List.TakeDrop
import QueryDomain.Proofs.Domain.Valuation
import QueryDomain.Proofs.Optimization.Driver

/-! The optimizer keeps the truth value of a domain, whatever passes and merges it is given, as long
as each of them does. -/
namespace QueryDomain.Optimizer

open List Domain

variable {o : Optimizer} {ctx : Context} {k : Connective} {v : Condition → Bool}

/-- In this context no pass for a condition changes its truth value, and no merge that of a list of
children. -/
structure KeepsValue (o : Optimizer) (ctx : Context) (v : Condition → Bool) : Prop where
  pass : ∀ c, ∀ pass ∈ o.candidates ctx c, ∀ d, (pass.run c ctx).result = .ok (some d) →
    d.value v = v c
  merge : ∀ entry ∈ o.registry.merges, ∀ k children merged,
    (entry.run k children ctx).result = .ok merged → valueAll v k merged = valueAll v k children

theorem valueAll_mergeRuns {entry : MergeEntry} {groups : List (Option String × List Domain)}
    {merged : List Domain}
    (hentry : ∀ children result, (entry.run k children ctx).result = .ok result →
      valueAll v k result = valueAll v k children)
    (h : (mergeRuns entry k ctx groups).result = .ok merged) :
    valueAll v k merged = valueAll v k (groups.flatMap (·.2)) := by
  induction groups generalizing merged with
  | nil =>
    simp only [mergeRuns, Run.result_pure, Except.ok.injEq] at h
    rw [← h]
    rfl
  | cons group groups ih =>
    obtain ⟨key, run⟩ := group
    obtain ⟨first, rest, hfirst, hrest, rfl⟩ := mergeRuns_cons_eq_ok.1 h
    have hrun : valueAll v k first = valueAll v k run := by
      split at hfirst
      · exact hentry _ _ hfirst
      · rw [hfirst]
    rw [Connective.valueAll_append, hrun, ih hrest, flatMap_cons, Connective.valueAll_append]

theorem valueAll_applyMerge {entry : MergeEntry} {children merged : List Domain}
    (hentry : ∀ children result, (entry.run k children ctx).result = .ok result →
      valueAll v k result = valueAll v k children)
    (h : (applyMerge entry k ctx children).result = .ok merged) :
    valueAll v k merged = valueAll v k children := by
  unfold applyMerge at h
  split at h
  · exact hentry _ _ h
  · rw [valueAll_mergeRuns hentry h, flatMap_runsBy]

theorem KeepsValue.applyMerges (hkeeps : KeepsValue o ctx v) {children merged : List Domain}
    (h : (o.applyMerges k ctx children).result = .ok merged) :
    valueAll v k merged = valueAll v k children := by
  have hentries : ∀ entry ∈ ctx.level.upTo.flatMap o.registry.mergesAt,
      entry ∈ o.registry.merges := by
    intro entry hentry
    obtain ⟨level, -, hlevel⟩ := mem_flatMap.1 hentry
    exact (mem_filter.1 hlevel).1
  unfold Optimizer.applyMerges at h
  generalize ctx.level.upTo.flatMap o.registry.mergesAt = entries at h hentries
  induction entries generalizing children with
  | nil =>
    simp only [foldlM_nil, Run.result_pure, Except.ok.injEq] at h
    rw [h]
  | cons entry entries ih =>
    rw [foldlM_cons, Run.result_bind_eq_ok] at h
    obtain ⟨next, hnext, h⟩ := h
    rw [ih h fun e he => hentries e (mem_cons_of_mem _ he)]
    exact valueAll_applyMerge (hkeeps.merge entry (hentries entry (mem_cons_self ..)) k) hnext

theorem value_of_connective {d : Domain} (h : d.connective? = some k) :
    d.value v = valueAll v k d.children := by
  cases d with
  | nary l children mark =>
    rw [connective?, Option.some.injEq] at h
    rw [h]
    rfl
  | _ => simp [connective?] at h

theorem value_sortedJoin (children : List Domain) :
    (sortedJoin k children).value v = valueAll v k children := by
  unfold sortedJoin
  dsimp only
  split
  · rename_i hkind
    have hperm : (sortChildren (k.apply children).children).Perm (k.apply children).children :=
      mergeSort_perm _ _
    rw [Connective.value_apply, Connective.valueAll_perm k hperm, ← value_of_connective hkind,
      Connective.value_apply]
  · rw [Connective.value_apply]

theorem value_withMark (hmarks : IgnoresMarks v) (d : Domain) (mark : Mark) :
    (d.withMark mark).value v = d.value v := by
  cases d with
  | condition c => exact hmarks c (some mark)
  | _ => rfl

section Run

variable (hmarks : IgnoresMarks v) (hkeeps : KeepsValue o ctx v)
  (hnested : ∀ d d', (ctx.nested ctx.entity d).result = .ok d' → d'.value v = d.value v)

include hnested in
theorem value_rebuild {children : List Domain} {d : Domain}
    (h : (rebuild k ctx children).result = .ok d) : d.value v = valueAll v k children := by
  obtain ⟨optimized, hoptimized, rfl⟩ := rebuild_eq_ok.1 h
  rw [value_sortedJoin]
  exact Connective.valueAll_congr k (hoptimized.imp fun d d' hd => hnested d d' hd)

include hmarks hkeeps hnested in
theorem Joins.value {children : List Domain} {d : Domain} (h : Joins o ctx k children d) :
    d.value v = valueAll v k children := by
  induction h with
  | folded hd _ => exact value_rebuild hnested hd
  | stable hd _ _ _ =>
    rw [value_withMark hmarks, value_rebuild hnested hd]
  | inPlace hd hk hmerged _ _ hresult =>
    rw [value_withMark hmarks, value_rebuild hnested hresult, hkeeps.applyMerges hmerged,
      ← value_of_connective hk, value_rebuild hnested hd]
  | again hd hk hmerged _ _ ih =>
    rw [ih, hkeeps.applyMerges hmerged, ← value_of_connective hk, value_rebuild hnested hd]

def Step.domain : Step → Domain
  | .done d | .changed d => d

include hmarks hkeeps hnested in
theorem Steps.value (hinverse : RespectsInverse v) {d : Domain} {s : Step} (h : Steps o ctx d s) :
    (Step.domain s).value v = d.value v := by
  cases h with
  | constant b => rfl
  | complement hinner _ =>
    rw [Step.domain, value_negate hinverse, hnested _ _ hinner, Domain.value]
  | pushed hinner _ =>
    rw [Step.domain, value_negate hinverse, hnested _ _ hinner, Domain.value]
  | joined hjoins => exact hjoins.value hmarks hkeeps hnested
  | kept _ => exact value_withMark hmarks (.condition _) ctx.mark
  | replaced hsplit _ hpass =>
    exact hkeeps.pass _ _ (by simp [hsplit]) _ hpass

include hmarks hkeeps hnested in
theorem Settles.value (hinverse : RespectsInverse v) {d result : Domain}
    (h : Settles o ctx d result) : result.value v = d.value v := by
  induction h with
  | covered _ => rfl
  | done _ hstep => exact hstep.value hmarks hkeeps hnested hinverse
  | changed _ hstep _ ih =>
    rw [ih]
    exact hstep.value hmarks hkeeps hnested hinverse

end Run

/-- Optimizing keeps the truth value of every domain, whatever marks it carries. -/
theorem node_keeps_value {catalog : Catalog} {level : Level} {entity : Entity} {depth : Nat}
    {d result : Domain} (hmarks : IgnoresMarks v) (hinverse : RespectsInverse v)
    (hkeeps : ∀ n < depth, KeepsValue o (o.contextAt catalog n level entity) v)
    (h : (node catalog depth o level entity d).result = .ok result) :
    result.value v = d.value v := by
  induction depth generalizing d result with
  | zero =>
    rw [node_zero] at h
    cases h
  | succ depth ih =>
    rw [node_succ] at h
    refine (settle_eq_ok h).value hmarks (hkeeps depth (Nat.lt_succ_self _)) ?_ hinverse
    intro inner inner' hinner
    exact ih (fun n hn => hkeeps n (Nat.lt_succ_of_lt hn)) hinner

theorem valueAll_distinct (hv : RespectsSame v) (seen children : List Domain) :
    k.join (valueAll v k seen) (valueAll v k (Merge.distinct seen children)) =
      k.join (valueAll v k seen) (valueAll v k children) := by
  induction children generalizing seen with
  | nil => rfl
  | cons d ds ih =>
    rw [Merge.distinct]
    split
    · rename_i hseen
      obtain ⟨e, he, hsame⟩ := any_eq_true.1 hseen
      rw [ih, valueAll, ← Connective.join_assoc,
        k.valueAll_join_of_mem he (value_eq_of_same hv hsame)]
    · have hcons : valueAll v k (d :: seen) = k.join (valueAll v k seen) (d.value v) := by
        rw [valueAll, k.join_comm]
      have := ih (d :: seen)
      rwa [hcons, k.join_assoc, k.join_assoc] at this

section Polarity

def membershipOnly : Optimizer where
  registry := {
    passes := [⟨.basic, .operators [.equal, .notEqual],
      ⟨"equality_to_membership", Pass.equalityToMembership⟩⟩]
    merges := [⟨.basic, .children, "merge_duplicates", Merge.duplicates⟩]
  }

/-- Takes one operator of each pair of inverses for true. -/
def polarity (c : Condition) : Bool :=
  match c.operator with
  | .any | .mem | .equal | .less | .greater | .like | .ilike => true
  | _ => false

theorem respectsInverse_polarity : RespectsInverse polarity := by
  intro c inverse hinverse _
  unfold polarity Condition.withOperator
  cases hc : c.operator <;> rw [hc] at hinverse <;> cases hinverse <;> rfl

theorem respectsSame_polarity : RespectsSame polarity := by
  intro c
  rw [polarity, polarity, Condition.operator_canonical]

theorem value_equalityToMembership {c : Condition} {d : Domain}
    (hop : c.operator = .equal ∨ c.operator = .notEqual)
    (h : (Pass.equalityToMembership c ctx).result = .ok (some d)) :
    d.value polarity = polarity c := by
  have hleaf : ∃ x, d = .leaf c.path (if c.operator = .equal then .mem else .notMem) x := by
    unfold Pass.equalityToMembership at h
    dsimp only at h
    split at h
    · exact ⟨_, by simpa [Pass.replace, eq_comm] using h⟩
    · simp only [Run.result_bind_eq_ok, Run.result_report] at h
      obtain ⟨-, -, h⟩ := h
      exact ⟨_, by simpa [Pass.replace, eq_comm] using h⟩
  obtain ⟨x, rfl⟩ := hleaf
  obtain hop | hop := hop <;> simp [Domain.value, Domain.leaf, polarity, hop]

theorem keepsValue_membershipOnly (ctx : Context) : KeepsValue membershipOnly ctx polarity where
  pass := by
    intro c pass hpass d hd
    obtain ⟨entry, hentry, -, hcovers, rfl⟩ := mem_candidates.1 hpass
    simp only [membershipOnly, mem_singleton] at hentry
    subst hentry
    have hop : c.operator = .equal ∨ c.operator = .notEqual := by
      simpa [PassScope.covers] using hcovers
    change (Pass.equalityToMembership c ctx).result = _ at hd
    exact value_equalityToMembership hop hd
  merge := by
    intro entry hentry k children merged h
    simp only [membershipOnly, mem_singleton] at hentry
    subst hentry
    simp only [Merge.duplicates, Run.result_pure, Except.ok.injEq] at h
    have := valueAll_distinct respectsSame_polarity (k := k) [] children
    simpa [valueAll, h] using this

/-- Two equal conditions on a marked node become one membership, and the truth value stays. -/
theorem node_keeps_value_membershipOnly :
    ∃ result, (node {} 4 membershipOnly .basic { name := "note" }
        (.nary .and [.leaf "id" .equal (.scalar (.int 1)), .leaf "id" .equal (.scalar (.int 1))]
          (some ⟨"task", .sql⟩))).result = .ok result ∧
      result.value polarity = true := by
  have hnode : (node {} 4 membershipOnly .basic { name := "note" }
      (.nary .and [.leaf "id" .equal (.scalar (.int 1)), .leaf "id" .equal (.scalar (.int 1))]
        (some ⟨"task", .sql⟩))).result =
      .ok (.condition ⟨"id", .mem, .set ⟨[.int 1]⟩, some ⟨"note", .basic⟩⟩) := by
    cbv
  refine ⟨_, hnode, ?_⟩
  rw [node_keeps_value (fun _ _ => rfl) respectsInverse_polarity
    (fun _ _ => keepsValue_membershipOnly _) hnode]
  decide

end Polarity

end QueryDomain.Optimizer
