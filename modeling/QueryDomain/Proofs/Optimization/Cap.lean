import Mathlib
import QueryDomain.Proofs.Optimization.Driver

/-! The cap on changes decides between a result and `diverged`, and nothing else. A run with one cap
that does not end in `diverged` goes through the same steps with every greater cap, for every
registry made of passes and merges of the library. -/
namespace QueryDomain

namespace Run

variable {α β : Type} {cap : Nat}

/-- Where the cap does not break the first run off, the second is the same, reports included. -/
def Within (cap : Nat) (a b : Run Error α) : Prop := a.result ≠ .error (.diverged cap) → b = a

namespace Within

theorem refl (a : Run Error α) : Within cap a a := fun _ => rfl

theorem of_diverged {a b : Run Error α} (h : a.result = .error (.diverged cap)) : Within cap a b :=
  fun hne => absurd h hne

theorem bind {a b : Run Error α} {f g : α → Run Error β} (hab : Within cap a b)
    (hfg : ∀ x, Within cap (f x) (g x)) : Within cap (a >>= f) (b >>= g) := by
  intro h
  rw [result_bind] at h
  cases ha : a.result with
  | error e =>
    rw [ha] at h
    rw [hab (by rw [ha]; simpa [Except.bind] using h)]
    simp only [Bind.bind, Run.bind, ha]
  | ok x =>
    rw [ha] at h
    rw [hab (by rw [ha]; nofun)]
    simp only [Bind.bind, Run.bind, ha, hfg x h]

theorem mapM {f g : α → Run Error β} (h : ∀ x, Within cap (f x) (g x)) (xs : List α) :
    Within cap (xs.mapM f) (xs.mapM g) := by
  induction xs with
  | nil => exact .refl _
  | cons x xs ih =>
    rw [List.mapM_cons, List.mapM_cons]
    exact .bind (h x) fun _ => .bind ih fun _ => .refl _

theorem ite {p : Prop} [Decidable p] {a b c d : Run Error α} (hac : p → Within cap a c)
    (hbd : ¬p → Within cap b d) :
    Within cap (if p then a else b) (if p then c else d) := by
  split
  · exact hac ‹_›
  · exact hbd ‹_›

end Within

end Run

def Context.withNested (ctx : Context) (nested : Entity → Domain → Run Error Domain) : Context :=
  { ctx with nested }

/-- Every pass and every merge is one of the library, at whatever level, for whatever operators or
types and under whatever name it is registered. -/
structure Registry.IsBuiltIn (r : Registry) : Prop where
  passes : ∀ entry ∈ r.passes, ∃ pass ∈ library, entry.pass.run = pass.run
  merges : ∀ entry ∈ r.merges,
    entry.run = Merge.duplicates ∨ entry.run = Merge.sets ∨ entry.run = Merge.anys

theorem Registry.library_eq_map : library = standard.passes.map (·.pass) := rfl

theorem Registry.isBuiltIn_standard : standard.IsBuiltIn where
  passes entry hentry := ⟨entry.pass, List.mem_map_of_mem hentry, rfl⟩
  merges entry hentry := by
    simp only [standard, List.mem_cons, List.not_mem_nil, or_false] at hentry
    obtain rfl | rfl | rfl := hentry
    · exact .inl rfl
    · exact .inr (.inl rfl)
    · exact .inr (.inr rfl)

section Contexts

variable {cap : Nat} {ctx : Context} {nested : Entity → Domain → Run Error Domain}

theorem Pass.run_withNested : ∀ pass ∈ Registry.library, pass.run = relatedDomain ∨
    ∀ c ctx nested, pass.run c (Context.withNested ctx nested) = pass.run c ctx := by
  intro pass hpass
  rw [Registry.library_eq_map] at hpass
  obtain ⟨entry, hentry, rfl⟩ := List.mem_map.1 hpass
  cases Registry.isStandard_of_mem hentry with
  | relatedDomain => exact .inl rfl
  | _ => exact .inr fun _ _ _ => rfl

theorem Merge.run_withNested {r : Registry} (hr : r.IsBuiltIn) {entry : MergeEntry}
    (hentry : entry ∈ r.merges) (k : Connective) (run : List Domain) :
    entry.run k run (ctx.withNested nested) = entry.run k run ctx := by
  obtain h | h | h := hr.merges entry hentry <;> rw [h] <;> rfl

variable (hnested : ∀ entity d, Run.Within cap (ctx.nested entity d) (nested entity d))

include hnested in
theorem Pass.relatedDomain_within (c : Condition) :
    Run.Within cap (relatedDomain c ctx) (relatedDomain c (ctx.withNested nested)) := by
  unfold relatedDomain
  refine .bind (.refl _) fun field => .bind (.refl _) fun target => ?_
  cases c.operand with
  | domain inner => exact .bind (hnested target inner) fun _ => .refl _
  | _ => exact .refl _

include hnested in
theorem Pass.builtIn_within {r : Registry} (hr : r.IsBuiltIn) {entry : PassEntry}
    (hentry : entry ∈ r.passes) (c : Condition) :
    Run.Within cap (entry.pass.run c ctx) (entry.pass.run c (ctx.withNested nested)) := by
  obtain ⟨pass, hpass, hrun⟩ := hr.passes entry hentry
  rw [hrun]
  obtain hrelated | hsame := run_withNested pass hpass
  · rw [hrelated]
    exact relatedDomain_within hnested c
  · rw [hsame]
    exact .refl _

end Contexts

namespace Optimizer

variable {r : Registry} {m n : Nat} {ctx : Context} {nested : Entity → Domain → Run Error Domain}

theorem firstChange_within {c : Condition} {passes : List NamedPass} {ctx' : Context}
    (h : ∀ pass ∈ passes, Run.Within m (pass.run c ctx) (pass.run c ctx')) :
    Run.Within m (firstChange c ctx passes) (firstChange c ctx' passes) := by
  induction passes with
  | nil => exact .refl _
  | cons pass passes ih =>
    rw [firstChange, firstChange]
    refine .bind (h pass (List.mem_cons_self ..)) fun change => ?_
    cases change with
    | some d => exact .refl _
    | none => exact ih fun p hp => h p (List.mem_cons_of_mem _ hp)

theorem mergeRuns_withNested {entry : MergeEntry} {k : Connective}
    (h : ∀ run, entry.run k run (ctx.withNested nested) = entry.run k run ctx)
    (groups : List (Option String × List Domain)) :
    mergeRuns entry k (ctx.withNested nested) groups = mergeRuns entry k ctx groups := by
  induction groups with
  | nil => rfl
  | cons group groups ih =>
    obtain ⟨key, run⟩ := group
    rw [mergeRuns_cons, mergeRuns_cons, ih, h]
    rfl

theorem applyMerges_withNested (hr : r.IsBuiltIn) (k : Connective) (children : List Domain) :
    (⟨r, n⟩ : Optimizer).applyMerges k (ctx.withNested nested) children =
      (⟨r, m⟩ : Optimizer).applyMerges k ctx children := by
  unfold applyMerges
  have hentries : ∀ entry ∈ ctx.level.upTo.flatMap r.mergesAt, entry ∈ r.merges := by
    intro entry hentry
    obtain ⟨level, -, hentry⟩ := List.mem_flatMap.1 hentry
    exact List.mem_of_mem_filter hentry
  change (ctx.level.upTo.flatMap r.mergesAt).foldlM _ children = _
  generalize ctx.level.upTo.flatMap r.mergesAt = entries at hentries
  induction entries generalizing children with
  | nil => rfl
  | cons entry entries ih =>
    rw [List.foldlM_cons, List.foldlM_cons]
    have hmerge : ∀ run, entry.run k run (ctx.withNested nested) = entry.run k run ctx :=
      Merge.run_withNested hr (hentries entry (List.mem_cons_self ..)) k
    have happly : applyMerge entry k (ctx.withNested nested) children =
        applyMerge entry k ctx children := by
      unfold applyMerge
      split
      · exact hmerge children
      · exact mergeRuns_withNested hmerge _
    rw [happly]
    exact bind_congr fun merged => ih merged fun e he => hentries e (List.mem_cons_of_mem _ he)

variable (hr : r.IsBuiltIn)
  (hnested : ∀ entity d, Run.Within m (ctx.nested entity d) (nested entity d))

include hnested in
theorem rebuild_within (k : Connective) (children : List Domain) :
    Run.Within m (rebuild k ctx children) (rebuild k (ctx.withNested nested) children) :=
  .bind (.mapM (fun d => hnested _ d) children) fun _ => .refl _

include hr hnested

theorem stepCondition_within (c : Condition) :
    Run.Within m ((⟨r, m⟩ : Optimizer).stepCondition ctx c)
      ((⟨r, n⟩ : Optimizer).stepCondition (ctx.withNested nested) c) := by
  refine .bind (firstChange_within fun pass hpass => ?_) fun _ => .refl _
  obtain ⟨entry, hentry, -, -, rfl⟩ := mem_candidates.1 hpass
  exact Pass.builtIn_within hnested hr hentry c

theorem round_within (k : Connective) {again again' : List Domain → Run Error Step}
    (hagain : ∀ merged, Run.Within m (again merged) (again' merged)) (children : List Domain) :
    Run.Within m ((⟨r, m⟩ : Optimizer).round k ctx again children)
      ((⟨r, n⟩ : Optimizer).round k (ctx.withNested nested) again' children) := by
  unfold round
  refine .bind (rebuild_within hnested k children) fun rebuilt => .ite (fun _ => .refl _) fun _ => ?_
  rw [applyMerges_withNested (m := m) hr]
  refine .bind (.refl _) fun merged => .ite (fun _ => .refl _) fun _ => ?_
  refine .ite (fun _ => ?_) fun _ => .bind (.refl _) fun _ => hagain merged
  exact .bind (.refl _) fun _ => .bind (rebuild_within hnested k merged) fun _ => .refl _

/-- Where the rounds of the first loop run out, it is broken off. -/
theorem stepNary_within (k : Connective) {rounds more : Nat} (hle : rounds ≤ more)
    (children : List Domain) :
    Run.Within m ((⟨r, m⟩ : Optimizer).stepNary k ctx rounds children)
      ((⟨r, n⟩ : Optimizer).stepNary k (ctx.withNested nested) more children) := by
  induction rounds generalizing more children with
  | zero =>
    rw [stepNary_zero]
    cases more with
    | zero =>
      rw [stepNary_zero]
      exact round_within hr hnested k (fun _ => .of_diverged rfl) children
    | succ more =>
      rw [stepNary_succ]
      exact round_within hr hnested k (fun _ => .of_diverged rfl) children
  | succ rounds ih =>
    obtain ⟨more, rfl⟩ := Nat.exists_eq_succ_of_ne_zero (by omega : more ≠ 0)
    rw [stepNary_succ, stepNary_succ]
    exact round_within hr hnested k (ih (Nat.le_of_succ_le_succ hle)) children

theorem step_within (hle : m ≤ n) (d : Domain) :
    Run.Within m ((⟨r, m⟩ : Optimizer).step ctx d)
      ((⟨r, n⟩ : Optimizer).step (ctx.withNested nested) d) := by
  cases d with
  | constant v => exact .refl _
  | negation inner => exact .bind (hnested _ inner) fun _ => .refl _
  | nary k children mark => exact stepNary_within hr hnested k hle children
  | condition c => exact stepCondition_within hr hnested c

theorem turn_within (hle : m ≤ n) {again again' : Domain → Run Error Domain}
    (hagain : ∀ next, Run.Within m (again next) (again' next)) (d : Domain) :
    Run.Within m ((⟨r, m⟩ : Optimizer).turn ctx again d)
      ((⟨r, n⟩ : Optimizer).turn (ctx.withNested nested) again' d) := by
  refine .bind (.refl _) fun _ => .ite (fun _ => .refl _) fun _ => ?_
  refine .bind (step_within hr hnested hle d) fun s => ?_
  cases s with
  | done result => exact .refl _
  | changed result => exact hagain result

theorem settle_within (hle : m ≤ n) {changes more : Nat} (hchanges : changes ≤ more) (d : Domain) :
    Run.Within m ((⟨r, m⟩ : Optimizer).settle ctx changes d)
      ((⟨r, n⟩ : Optimizer).settle (ctx.withNested nested) more d) := by
  induction changes generalizing more d with
  | zero =>
    rw [settle_zero]
    cases more with
    | zero =>
      rw [settle_zero]
      exact turn_within hr hnested hle (fun _ => .of_diverged rfl) d
    | succ more =>
      rw [settle_succ]
      exact turn_within hr hnested hle (fun _ => .of_diverged rfl) d
  | succ changes ih =>
    obtain ⟨more, rfl⟩ := Nat.exists_eq_succ_of_ne_zero (by omega : more ≠ 0)
    rw [settle_succ, settle_succ]
    exact turn_within hr hnested hle (ih (Nat.le_of_succ_le_succ hchanges)) d

omit hnested

/-- Searches on the way have a cap of their own, so only nested domains can be broken off. -/
theorem node_within (hle : m ≤ n) (catalog : Catalog) (depth : Nat) (level : Level)
    (entity : Entity) (d : Domain) :
    Run.Within m (node catalog depth ⟨r, m⟩ level entity d)
      (node catalog depth ⟨r, n⟩ level entity d) := by
  induction depth generalizing entity d with
  | zero => exact .refl _
  | succ depth ih =>
    let ctx := contextAt ⟨r, m⟩ catalog depth level entity
    exact @settle_within r m n ctx _ hr ih hle _ _ hle d

/-- With a greater cap a run is the same, unless the smaller one broke it off: the same reports and
the same domain or error. -/
theorem optimizeWithin_eq_of_cap_le (hle : m ≤ n) (depth : Nat) (catalog : Catalog) (level : Level)
    (entity : Entity) (d : Domain)
    (h : ((⟨r, m⟩ : Optimizer).optimizeWithin depth catalog level entity d).result ≠
      .error (.diverged m)) :
    (⟨r, n⟩ : Optimizer).optimizeWithin depth catalog level entity d =
      (⟨r, m⟩ : Optimizer).optimizeWithin depth catalog level entity d :=
  Run.Within.bind (node_within hr hle catalog depth level entity d) (fun _ => .refl _) h

omit hr in
/-- Three changes are enough for each node here, and two are not. -/
theorem optimizeWithin_eq_of_cap_le_three :
    let item : Entity :=
      { name := "i", fields := [{ name := "n", type := .integer }, .many2one "up" "i"] }
    let catalog : Catalog := { entities := [item] }
    let leaf (path : String) : Domain := .leaf path .doubleEqual (.scalar (.text "5"))
    let d : Domain := .nary .and [leaf "n", .negation (leaf "up.n")] none
    ((⟨.standard, 2⟩ : Optimizer).optimizeWithin 6 catalog .sql item d).result =
      .error (.diverged 2) ∧
    ((⟨.standard, 3⟩ : Optimizer).optimizeWithin 6 catalog .sql item d).result ≠
      .error (.diverged 3) ∧
    (⟨.standard, 1000⟩ : Optimizer).optimizeWithin 6 catalog .sql item d =
      (⟨.standard, 3⟩ : Optimizer).optimizeWithin 6 catalog .sql item d := by
  intro item catalog leaf d
  have hresult : ((⟨.standard, 3⟩ : Optimizer).optimizeWithin 6 catalog .sql item d).result =
      .ok ⟨.nary .and [
        .condition ⟨"n", .mem, .set ⟨[.int 5]⟩, some ⟨"i", .sql⟩⟩,
        .condition ⟨"up", .notAny, .domain (.condition ⟨"n", .mem, .set ⟨[.int 5]⟩,
          some ⟨"i", .sql⟩⟩), some ⟨"i", .sql⟩⟩] (some ⟨"i", .sql⟩), "i", .sql⟩ := by
    cbv
  have hcap : ((⟨.standard, 3⟩ : Optimizer).optimizeWithin 6 catalog .sql item d).result ≠
      .error (.diverged 3) := by
    simp [hresult]
  exact ⟨by cbv, hcap, optimizeWithin_eq_of_cap_le Registry.isBuiltIn_standard (by decide) 6 catalog
    .sql item d hcap⟩

end Optimizer

end QueryDomain
