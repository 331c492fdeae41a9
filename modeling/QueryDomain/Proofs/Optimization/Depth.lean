import QueryDomain.Proofs.Optimization.Settled

/-! The depth is only a bound. A run that does not run out of it ends in the same way with every
greater depth, so there is at most one result for a domain. -/
namespace QueryDomain

namespace Run

variable {α β : Type}

/-- Where the first run does not end for want of depth, the second ends in the same way. -/
def Le (a b : Run Error α) : Prop := a.result ≠ .error .tooDeep → b.result = a.result

namespace Le

theorem refl (a : Run Error α) : a.Le a := fun _ => rfl

theorem bind {a b : Run Error α} {f g : α → Run Error β} (hab : a.Le b)
    (hfg : ∀ x, (f x).Le (g x)) : (a >>= f).Le (b >>= g) := by
  intro h
  rw [result_bind] at h ⊢
  rw [result_bind]
  cases ha : a.result with
  | error e =>
    rw [ha] at h
    rw [hab (by rw [ha]; simpa [Except.bind] using h), ha]
    rfl
  | ok x =>
    rw [ha] at h
    rw [hab (by rw [ha]; nofun), ha]
    exact hfg x h

theorem mapM {f g : α → Run Error β} (h : ∀ x, (f x).Le (g x)) (xs : List α) :
    (xs.mapM f).Le (xs.mapM g) := by
  induction xs with
  | nil => exact .refl _
  | cons x xs ih =>
    rw [List.mapM_cons, List.mapM_cons]
    exact .bind (h x) fun _ => .bind ih fun _ => .refl _

theorem ite {p : Prop} [Decidable p] {a b c d : Run Error α} (hac : p → a.Le c)
    (hbd : ¬p → b.Le d) :
    (if p then a else b).Le (if p then c else d) := by
  split
  · exact hac ‹_›
  · exact hbd ‹_›

end Le

end Run

structure Context.Le (ctx ctx' : Context) : Prop where
  catalog : ctx.catalog = ctx'.catalog
  entity : ctx.entity = ctx'.entity
  level : ctx.level = ctx'.level
  nested : ∀ entity d, (ctx.nested entity d).Le (ctx'.nested entity d)
  search : ∀ entity d, (ctx.search entity d).Le (ctx'.search entity d)

namespace Hierarchy

variable {ctx ctx' : Context} {c : Condition}

theorem closure_le {next next' : List Int → Run Error (List Int)}
    (h : ∀ ids, (next ids).Le (next' ids)) (known frontier : List Int) (steps : Nat) :
    (closure next known frontier steps).Le (closure next' known frontier steps) := by
  induction steps generalizing known frontier with
  | zero => exact .refl _
  | succ steps ih =>
    unfold closure
    exact .ite (fun _ => .refl _) fun _ => .bind (h frontier) fun _ => ih _ _

theorem seeds_le (h : ctx.Le ctx') (target : Entity) :
    (seeds c ctx target).Le (seeds c ctx' target) := by
  have hids : ∀ value, (startIds c ctx target value).Le (startIds c ctx' target value) := by
    intro value
    cases value with
    | text label => exact h.search _ _
    | _ => exact .refl _
  rw [seeds_eq, seeds_eq]
  exact .bind (.refl _) fun _ => .bind (.mapM hids _) fun _ => .refl _

theorem descendants_le (h : ctx.Le ctx') (target : Entity) (parent : String) (ids : List Int) :
    (descendants c ctx target parent ids).Le (descendants c ctx' target parent ids) := by
  unfold descendants stepLimit paths
  rw [← h.catalog]
  refine .ite (fun _ => .refl _) fun _ => .bind (.refl _) fun _ => ?_
  exact .bind (closure_le (fun _ => h.search _ _) _ _ _) fun _ => .refl _

theorem ancestors_le (h : ctx.Le ctx') (target : Entity) (parent : String) (ids : List Int) :
    (ancestors c ctx target parent ids).Le (ancestors c ctx' target parent ids) := by
  unfold ancestors stepLimit paths
  rw [← h.catalog]
  exact .refl _

theorem walk_le (h : ctx.Le ctx') (target : Entity) (parent : String) (ids : List Int) :
    (walk c ctx target parent ids).Le (walk c ctx' target parent ids) :=
  .ite (fun _ => descendants_le h target parent ids) fun _ => ancestors_le h target parent ids

end Hierarchy

namespace Pass

variable {ctx ctx' : Context}

theorem hierarchy_le (h : ctx.Le ctx') (c : Condition) :
    (hierarchy c ctx).Le (hierarchy c ctx') := by
  rw [hierarchy_eq, hierarchy_eq]
  unfold Hierarchy.walked Hierarchy.followed Hierarchy.isOwnLink Context.target Context.field
  rw [← h.catalog, ← h.entity]
  refine .bind (.refl _) fun field => .bind (.refl _) fun target => ?_
  refine .bind (Hierarchy.seeds_le h target) fun ids => .ite (fun _ => .refl _) fun _ => ?_
  exact .bind (Hierarchy.walk_le h target _ ids) fun found => .refl _

theorem relatedDomain_le (h : ctx.Le ctx') (c : Condition) :
    (relatedDomain c ctx).Le (relatedDomain c ctx') := by
  unfold relatedDomain Context.target Context.field
  rw [← h.catalog, ← h.entity]
  refine .bind (.refl _) fun field => .bind (.refl _) fun target => ?_
  cases c.operand with
  | domain inner => exact .bind (h.nested target inner) fun _ => .refl _
  | _ => exact .refl _

theorem standard_le (h : ctx.Le ctx') (c : Condition) :
    ∀ entry ∈ Registry.standard.passes, (entry.pass.run c ctx).Le (entry.pass.run c ctx') := by
  intro entry hentry
  obtain ⟨hrun, -⟩ | hrun | hrun := standard_cases entry hentry
  · rw [hrun]
    exact relatedDomain_le h c
  · rw [hrun]
    exact hierarchy_le h c
  · rw [hrun c ctx, hrun c ctx', h.catalog, h.entity, h.level]
    exact .refl _

end Pass

namespace Optimizer

variable {ctx ctx' : Context}

theorem firstChange_le {c : Condition} {passes : List NamedPass}
    (h : ∀ pass ∈ passes, (pass.run c ctx).Le (pass.run c ctx')) :
    (firstChange c ctx passes).Le (firstChange c ctx' passes) := by
  induction passes with
  | nil => exact .refl _
  | cons pass passes ih =>
    rw [firstChange, firstChange]
    refine .bind (h pass (List.mem_cons_self ..)) fun change => ?_
    cases change with
    | some d => exact .refl _
    | none => exact ih fun p hp => h p (List.mem_cons_of_mem _ hp)

theorem stepCondition_le (h : ctx.Le ctx') (c : Condition) :
    (standard.stepCondition ctx c).Le (standard.stepCondition ctx' c) := by
  have hcandidates : standard.candidates ctx' c = standard.candidates ctx c := by
    unfold candidates
    rw [h.level, h.entity]
  unfold stepCondition Context.mark
  rw [hcandidates, ← h.entity, ← h.level]
  refine .bind (firstChange_le fun pass hpass => ?_) fun _ => .refl _
  obtain ⟨entry, hentry, -, -, rfl⟩ := mem_candidates.1 hpass
  exact Pass.standard_le h c entry hentry

theorem rebuild_le (h : ctx.Le ctx') (k : Connective) (children : List Domain) :
    (rebuild k ctx children).Le (rebuild k ctx' children) := by
  unfold rebuild
  rw [← h.entity]
  exact .bind (.mapM (fun d => h.nested _ d) children) fun _ => .refl _

theorem round_le (h : ctx.Le ctx') (k : Connective) {again again' : List Domain → Run Error Step}
    (hagain : ∀ merged, (again merged).Le (again' merged)) (children : List Domain) :
    (standard.round k ctx again children).Le (standard.round k ctx' again' children) := by
  have hmerges : ∀ children, (standard.applyMerges k ctx children).Le
      (standard.applyMerges k ctx' children) := by
    intro children _
    rw [result_applyMerges, result_applyMerges, h.entity]
  have hmark : ctx.mark = ctx'.mark := by
    unfold Context.mark
    rw [h.entity, h.level]
  unfold round
  rw [← hmark]
  refine .bind (rebuild_le h k children) fun rebuilt => .ite (fun _ => .refl _) fun _ => ?_
  refine .bind (hmerges _) fun merged => .ite (fun _ => .refl _) fun _ => ?_
  refine .ite (fun _ => ?_) fun _ => .bind (.refl _) fun _ => hagain merged
  exact .bind (.refl _) fun _ => .bind (rebuild_le h k merged) fun _ => .refl _

theorem stepNary_le (h : ctx.Le ctx') (k : Connective) (rounds : Nat) (children : List Domain) :
    (standard.stepNary k ctx rounds children).Le (standard.stepNary k ctx' rounds children) := by
  induction rounds generalizing children with
  | zero =>
    rw [stepNary_zero, stepNary_zero]
    exact round_le h k (fun _ => .refl _) children
  | succ rounds ih =>
    rw [stepNary_succ, stepNary_succ]
    exact round_le h k ih children

theorem step_le (h : ctx.Le ctx') (d : Domain) :
    (standard.step ctx d).Le (standard.step ctx' d) := by
  cases d with
  | constant v => exact .refl _
  | negation inner =>
    rw [step, step, ← h.entity]
    exact .bind (h.nested _ inner) fun _ => .refl _
  | nary k children mark => exact stepNary_le h k _ children
  | condition c => exact stepCondition_le h c

theorem isSettled_le (h : ctx.Le ctx') (d : Domain) : (isSettled ctx d).Le (isSettled ctx' d) := by
  unfold isSettled
  rw [← h.entity, ← h.level]
  exact .refl _

theorem turn_le (h : ctx.Le ctx') {again again' : Domain → Run Error Domain}
    (hagain : ∀ next, (again next).Le (again' next)) (d : Domain) :
    (standard.turn ctx again d).Le (standard.turn ctx' again' d) := by
  refine .bind (isSettled_le h d) fun _ => .ite (fun _ => .refl _) fun _ => ?_
  refine .bind (step_le h d) fun s => ?_
  cases s with
  | done result => exact .refl _
  | changed result => exact hagain result

theorem settle_le (h : ctx.Le ctx') (changes : Nat) (d : Domain) :
    (standard.settle ctx changes d).Le (standard.settle ctx' changes d) := by
  induction changes generalizing d with
  | zero =>
    rw [settle_zero, settle_zero]
    exact turn_le h (fun _ => .refl _) d
  | succ changes ih =>
    rw [settle_succ, settle_succ]
    exact turn_le h ih d

theorem searchBy_le {catalog : Catalog} {optimize optimize' : Entity → Domain → Run Error Domain}
    (h : ∀ entity d, (optimize entity d).Le (optimize' entity d)) (entity : Entity) (d : Domain) :
    (searchBy catalog optimize entity d).Le (searchBy catalog optimize' entity d) := by
  unfold searchBy conclude
  exact .bind (.bind (h entity d) fun _ => .refl _) fun _ => .refl _

variable {catalog : Catalog} {level : Level} {entity : Entity} {d : Domain}

theorem node_succ_le (catalog : Catalog) (depth : Nat) :
    ∀ level entity d, (node catalog depth standard level entity d).Le
      (node catalog (depth + 1) standard level entity d) := by
  induction depth with
  | zero => exact fun _ _ _ h => absurd rfl h
  | succ depth ih =>
    intro level entity d
    have hctx : (standard.contextAt catalog depth level entity).Le
        (standard.contextAt catalog (depth + 1) level entity) :=
      ⟨rfl, rfl, rfl, ih level, searchBy_le (ih .search)⟩
    exact settle_le hctx _ d

theorem node_le {depth depth' : Nat} (hle : depth ≤ depth') :
    (node catalog depth standard level entity d).Le
      (node catalog depth' standard level entity d) := by
  induction hle with
  | refl => exact .refl _
  | step _ ih =>
    intro h
    have hresult := ih h
    rw [node_succ_le catalog _ level entity d (by rwa [hresult]), hresult]

theorem contextAt_le {depth depth' : Nat} (hle : depth ≤ depth') :
    (standard.contextAt catalog depth level entity).Le
      (standard.contextAt catalog depth' level entity) :=
  ⟨rfl, rfl, rfl, fun _ _ => node_le hle, searchBy_le fun _ _ => node_le hle⟩

theorem node_of_le {depth depth' : Nat} (hle : depth ≤ depth') {result : Domain}
    (h : (node catalog depth standard level entity d).result = .ok result) :
    (node catalog depth' standard level entity d).result = .ok result := by
  rw [node_le hle (by rw [h]; nofun), h]

/-- A domain has at most one result, whatever depths it is optimized with. -/
theorem node_unique {depth depth' : Nat} {result result' : Domain}
    (h : (node catalog depth standard level entity d).result = .ok result)
    (h' : (node catalog depth' standard level entity d).result = .ok result') :
    result = result' := by
  have hmax := node_of_le (Nat.le_max_left depth depth') h
  rw [node_of_le (Nat.le_max_right depth depth') h'] at hmax
  cases hmax
  rfl

end Optimizer

end QueryDomain
