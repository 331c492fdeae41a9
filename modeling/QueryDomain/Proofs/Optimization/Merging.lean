import QueryDomain.Proofs.Domain.Sets
import QueryDomain.Proofs.Optimization.Driver

/-! The standard merges. They never fail; they leave children as they are or make them fewer; and
they treat children that are `same` alike. -/
namespace QueryDomain

open List

def Shrinks {α : Type} (before after : List α) : Prop :=
  after = before ∨ after.length < before.length

namespace Shrinks

variable {α : Type} {a b c d : List α}

theorem refl (a : List α) : Shrinks a a := .inl rfl

theorem length_le (h : Shrinks a b) : b.length ≤ a.length := by
  obtain rfl | h := h
  · exact Nat.le_refl _
  · exact Nat.le_of_lt h

theorem trans (hab : Shrinks a b) (hbc : Shrinks b c) : Shrinks a c := by
  obtain rfl | hab := hab
  · exact hbc
  · have := hbc.length_le
    exact .inr (by omega)

theorem append (hab : Shrinks a b) (hcd : Shrinks c d) : Shrinks (a ++ c) (b ++ d) := by
  have hb := hab.length_le
  have hd := hcd.length_le
  obtain rfl | hab := hab
  · obtain rfl | hcd := hcd
    · exact .refl _
    · exact .inr (by simp only [length_append]; omega)
  · exact .inr (by simp only [length_append]; omega)

end Shrinks

namespace Optimizer

variable {ctx : Context} {k : Connective}

def replaceRuns (taken : Option String → List Domain → Bool) (merge : List Domain → List Domain)
    (groups : List (Option String × List Domain)) : List Domain :=
  groups.flatMap fun group => if taken group.1 group.2 then merge group.2 else group.2

theorem result_mergeRuns {entry : MergeEntry} {merge : List Domain → List Domain}
    (hmerge : ∀ run, (entry.run k run ctx).result = .ok (merge run))
    (groups : List (Option String × List Domain)) :
    (mergeRuns entry k ctx groups).result =
      .ok (replaceRuns (isMerged entry.scope ctx.entity) merge groups) := by
  induction groups with
  | nil => rfl
  | cons group groups ih =>
    obtain ⟨key, run⟩ := group
    refine mergeRuns_cons_eq_ok.2 ⟨_, _, ?_, ih, rfl⟩
    split
    · rename_i htaken
      simp [htaken, hmerge]
    · rename_i htaken
      simp [htaken]

theorem mem_runsBy {key : Domain → Option String} {children : List Domain}
    {group : Option String × List Domain} (h : group ∈ runsBy key children) :
    ∀ d ∈ group.2, d ∈ children ∧ key d = group.1 := by
  induction children generalizing group with
  | nil => cases h
  | cons d ds ih =>
    rw [runsBy] at h
    split at h
    · rename_i path path' run groups hkey hgroups
      rw [hgroups] at ih
      split at h
      · rename_i hpath
        obtain rfl | h := mem_cons.1 h
        · intro e he
          obtain rfl | he := mem_cons.1 he
          · exact ⟨mem_cons_self .., hkey⟩
          · obtain ⟨hmem, hkey'⟩ := ih (mem_cons_self ..) e he
            exact ⟨mem_cons_of_mem _ hmem, by rw [hkey', hpath]⟩
        · intro e he
          obtain ⟨hmem, hkey'⟩ := ih (mem_cons_of_mem _ h) e he
          exact ⟨mem_cons_of_mem _ hmem, hkey'⟩
      · obtain rfl | h := mem_cons.1 h
        · intro e he
          obtain rfl := mem_singleton.1 he
          exact ⟨mem_cons_self .., hkey⟩
        · intro e he
          obtain ⟨hmem, hkey'⟩ := ih h e he
          exact ⟨mem_cons_of_mem _ hmem, hkey'⟩
    · obtain rfl | h := mem_cons.1 h
      · intro e he
        obtain rfl := mem_singleton.1 he
        exact ⟨mem_cons_self .., rfl⟩
      · intro e he
        obtain ⟨hmem, hkey'⟩ := ih h e he
        exact ⟨mem_cons_of_mem _ hmem, hkey'⟩

theorem forall_mem_runs {scope : MergeScope} {entity : Entity} {merge : List Domain → List Domain}
    {children : List Domain} {Q : Domain → Prop} (hchildren : ∀ d ∈ children, Q d)
    (hmerge : ∀ path run, (∀ d ∈ run, d ∈ children ∧ scope.runKey? d = some path) →
      1 < run.length → ∀ d ∈ merge run, Q d) :
    ∀ d ∈ replaceRuns (isMerged scope entity) merge (runsBy scope.runKey? children), Q d := by
  intro d hd
  obtain ⟨⟨key, run⟩, hgroup, hd⟩ := mem_flatMap.1 hd
  have hrun := mem_runsBy hgroup
  split at hd
  · rename_i htaken
    cases key with
    | none => cases htaken
    | some path =>
      simp only [isMerged, Bool.and_eq_true, decide_eq_true_eq] at htaken
      exact hmerge path run hrun htaken.1 d hd
  · exact hchildren d (hrun d hd).1

theorem shrinks_replaceRuns {taken : Option String → List Domain → Bool}
    {merge : List Domain → List Domain} {groups : List (Option String × List Domain)}
    (h : ∀ group ∈ groups, taken group.1 group.2 = true → Shrinks group.2 (merge group.2)) :
    Shrinks (groups.flatMap (·.2)) (replaceRuns taken merge groups) := by
  induction groups with
  | nil => exact .refl _
  | cons group groups ih =>
    refine .append ?_ (ih fun g hg => h g (mem_cons_of_mem _ hg))
    dsimp only
    split
    · exact h group (mem_cons_self ..) ‹_›
    · exact .refl _

theorem shrinks_runs {scope : MergeScope} {entity : Entity} {merge : List Domain → List Domain}
    {children : List Domain}
    (h : ∀ path run, (∀ d ∈ run, d ∈ children ∧ scope.runKey? d = some path) → 1 < run.length →
      Shrinks run (merge run)) :
    Shrinks children
      (replaceRuns (isMerged scope entity) merge (runsBy scope.runKey? children)) := by
  have hruns : Shrinks ((runsBy scope.runKey? children).flatMap (·.2))
      (replaceRuns (isMerged scope entity) merge (runsBy scope.runKey? children)) := by
    refine shrinks_replaceRuns fun group hgroup htaken => ?_
    have hmem := mem_runsBy hgroup
    obtain ⟨_ | path, run⟩ := group
    · simp [isMerged] at htaken
    · simp only [isMerged, Bool.and_eq_true, decide_eq_true_eq] at htaken
      exact h path run hmem htaken.1
  rwa [flatMap_runsBy] at hruns

theorem replaceRuns_map {taken : Option String → List Domain → Bool}
    {merge : List Domain → List Domain} {g : Domain → Domain}
    (htaken : ∀ key run, taken key (run.map g) = taken key run)
    (hmerge : ∀ run, merge (run.map g) = (merge run).map g)
    (groups : List (Option String × List Domain)) :
    replaceRuns taken merge (groups.map fun group => (group.1, group.2.map g)) =
      (replaceRuns taken merge groups).map g := by
  simp only [replaceRuns, flatMap_map, map_flatMap, htaken, hmerge]
  congr 1
  funext group
  split <;> rfl

theorem runsBy_map {key : Domain → Option String} {g : Domain → Domain}
    (hkey : ∀ d, key (g d) = key d) (children : List Domain) :
    runsBy key (children.map g) =
      (runsBy key children).map fun group => (group.1, group.2.map g) := by
  induction children with
  | nil => rfl
  | cons d ds ih =>
    rw [map_cons, runsBy, runsBy, hkey, ih]
    cases key d with
    | none => cases runsBy key ds <;> rfl
    | some path =>
      cases runsBy key ds with
      | nil => rfl
      | cons group groups =>
        obtain ⟨_ | path', run⟩ := group
        · rfl
        · simp only [map_cons]
          split <;> rfl

theorem isMerged_map (scope : MergeScope) (entity : Entity) (g : Domain → Domain)
    (key : Option String) (run : List Domain) :
    isMerged scope entity key (run.map g) = isMerged scope entity key run := by
  cases key <;> simp [isMerged]

end Optimizer

theorem MergeScope.runKey?_eq_some {operators : List Operator} {types : Option (List FieldType)}
    {d : Domain} {path : String} (h : (MergeScope.runs operators types).runKey? d = some path) :
    ∃ c : Condition, d = .condition c ∧ c.operator ∈ operators ∧ c.path = path := by
  cases d with
  | condition c =>
    simp only [runKey?] at h
    split at h
    · rename_i hop
      cases h
      exact ⟨c, rfl, by simpa using hop, rfl⟩
    · cases h
  | _ => simp [runKey?] at h

theorem MergeScope.runKey?_mapValues (scope : MergeScope) (f : Value → Value) (d : Domain) :
    scope.runKey? (d.mapValues f) = scope.runKey? d := by
  cases scope <;> cases d <;> simp [runKey?, Domain.mapValues, Condition.mapValues_eq]

namespace Merge

variable {k : Connective} {ctx : Context}

theorem distinct_sublist (seen ds : List Domain) : (distinct seen ds).Sublist ds := by
  induction ds generalizing seen with
  | nil => exact .slnil
  | cons d ds ih =>
    rw [distinct]
    split
    · exact (ih seen).cons d
    · exact (ih (d :: seen)).cons_cons d

theorem shrinks_distinct (seen ds : List Domain) : Shrinks ds (distinct seen ds) := by
  have hsub := distinct_sublist seen ds
  obtain hlt | heq := Nat.lt_or_eq_of_le hsub.length_le
  · exact .inr hlt
  · exact .inl (hsub.eq_of_length heq)

variable {f : Value → Value} (hf : Value.KeepsEqual f)

include hf in
theorem distinct_map (seen ds : List Domain) :
    distinct (seen.map (Domain.mapValues f)) (ds.map (Domain.mapValues f)) =
      (distinct seen ds).map (Domain.mapValues f) := by
  induction ds generalizing seen with
  | nil => rfl
  | cons d ds ih =>
    have hseen : (seen.map (Domain.mapValues f)).any (·.same (d.mapValues f)) =
        seen.any (·.same d) := by
      simp [Function.comp_def, Domain.same_mapValues hf]
    rw [map_cons, distinct, distinct, hseen]
    split
    · exact ih seen
    · rw [map_cons, ← ih (d :: seen), map_cons]

namespace Membership

def map (f : Value → Value) (m : Membership) : Membership where
  included := m.included.map (ValueSet.map f)
  excluded := m.excluded.map (ValueSet.map f)
  path := m.path
  others := m.others.map (Domain.mapValues f)

include hf in
theorem join_map (isIncluded : Bool) (acc : Option ValueSet) (values : ValueSet) :
    join k isIncluded (acc.map (ValueSet.map f)) (values.map f) =
      (join k isIncluded acc values).map f := by
  cases acc with
  | none => rfl
  | some acc =>
    simp only [Option.map_some, join]
    split <;> simp [ValueSet.map_union hf, ValueSet.map_intersection hf]

include hf in
theorem add_map (m : Membership) (d : Domain) :
    add k (m.map f) (d.mapValues f) = (add k m d).map f := by
  cases d with
  | condition c =>
    obtain ⟨path, operator, operand, mark⟩ := c
    cases operand with
    | set values =>
      change add k (m.map f) (.condition ⟨path, operator, .set (values.map f), none⟩) = _
      rw [add, add]
      by_cases hop : operator = .mem
      · simp [hop, map, join_map hf]
      · simp [hop, map, join_map hf]
    | _ => simp [add, map, Domain.mapValues, Condition.mapValues_eq, Operand.mapValues]
  | _ => simp [add, map, Domain.mapValues]

include hf in
theorem condition?_map (m : Membership) :
    (m.map f).condition? k = (m.condition? k).map (Domain.mapValues f) := by
  obtain ⟨included, excluded, path, others⟩ := m
  cases path with
  | none => rfl
  | some path =>
    cases included <;> cases excluded <;> cases k <;>
      simp [map, condition?, ← ValueSet.map_difference hf] <;> rfl

theorem others_add_of_set (m : Membership) {c : Condition} {values : ValueSet}
    (h : c.operand = .set values) : (add k m (.condition c)).others = m.others := by
  obtain ⟨path, operator, operand, mark⟩ := c
  cases h
  rw [add]
  split <;> rfl

end Membership

def joinSets (k : Connective) (run : List Domain) : List Domain :=
  let m := run.foldl (Membership.add k) {}
  (m.condition? k).toList ++ m.others

include hf in
theorem joinSets_map (run : List Domain) :
    joinSets k (run.map (Domain.mapValues f)) = (joinSets k run).map (Domain.mapValues f) := by
  have hfold : ∀ m : Membership,
      (run.map (Domain.mapValues f)).foldl (Membership.add k) (m.map f) =
        (run.foldl (Membership.add k) m).map f := by
    induction run with
    | nil => intro m; rfl
    | cons d ds ih =>
      intro m
      rw [map_cons, foldl_cons, foldl_cons, Membership.add_map hf, ih]
  have hfold := hfold {}
  change (run.map (Domain.mapValues f)).foldl (Membership.add k) {} = _ at hfold
  dsimp only [joinSets]
  rw [hfold, Membership.condition?_map hf, map_append]
  cases (run.foldl (Membership.add k) {}).condition? k <;> rfl

theorem Membership.mem_others_add {m : Membership} {d e : Domain}
    (h : e ∈ (Membership.add k m d).others) : e ∈ m.others ∨ e = d := by
  unfold Membership.add at h
  split at h
  · dsimp only at h
    split at h <;> exact .inl h
  · simpa using h

theorem mem_joinSets {run : List Domain} {d : Domain} (h : d ∈ joinSets k run) :
    d ∈ run ∨ (run.foldl (Membership.add k) {}).condition? k = some d := by
  have hothers : ∀ m : Membership, ∀ e ∈ (run.foldl (Membership.add k) m).others,
      e ∈ m.others ∨ e ∈ run := by
    clear h
    induction run with
    | nil => exact fun m e he => .inl he
    | cons d ds ih =>
      intro m e he
      rw [foldl_cons] at he
      obtain he | he := ih _ e he
      · obtain he | rfl := Membership.mem_others_add he
        · exact .inl he
        · exact .inr (mem_cons_self ..)
      · exact .inr (mem_cons_of_mem _ he)
  obtain h | h := mem_append.1 h
  · rw [Option.mem_toList] at h
    exact .inr h
  · obtain h | h := hothers {} d h
    · cases h
    · exact .inl h

namespace Membership

/-- What has been added up is on one path, and its members have a property. -/
structure Within (path : String) (Q : Value → Prop) (m : Membership) : Prop where
  path : ∀ p, m.path = some p → p = path
  started : m.path = none → m.included = none ∧ m.excluded = none
  included : ∀ s, m.included = some s → ∀ v ∈ s.values, Q v
  excluded : ∀ s, m.excluded = some s → ∀ v ∈ s.values, Q v

variable {path : String} {Q : Value → Prop}

theorem mem_join {isIncluded : Bool} {acc : Option ValueSet} {values : ValueSet}
    (hacc : ∀ s, acc = some s → ∀ v ∈ s.values, Q v) (hvalues : ∀ v ∈ values.values, Q v) :
    ∀ v ∈ (join k isIncluded acc values).values, Q v := by
  cases acc with
  | none => exact hvalues
  | some acc =>
    intro v hv
    simp only [join] at hv
    split at hv
    · obtain hv | hv := mem_append.1 ((ValueSet.fresh_sublist [] _).mem hv)
      · exact hacc acc rfl v hv
      · exact hvalues v hv
    · exact hacc acc rfl v (mem_of_mem_filter ((ValueSet.fresh_sublist [] _).mem hv))

theorem Within.add {m : Membership} (h : m.Within path Q) {d : Domain}
    (hpath : ∀ c, d = .condition c → c.path = path)
    (hvalues : ∀ c values, d = .condition c → c.operand = .set values →
      ∀ v ∈ values.values, Q v) : (m.add k d).Within path Q := by
  unfold Membership.add
  split
  · rename_i p operator values mark
    have hp : m.path.getD p = path := by
      cases hm : m.path with
      | none => exact hpath _ rfl
      | some p' => exact h.path p' hm
    have hvalues : ∀ v ∈ values.values, Q v := hvalues _ values rfl rfl
    dsimp only
    split
    · refine ⟨fun p' hp' => ?_, nofun, fun s hs => ?_, h.excluded⟩
      · cases hp'
        exact hp
      · cases hs
        exact mem_join h.included hvalues
    · refine ⟨fun p' hp' => ?_, nofun, h.included, fun s hs => ?_⟩
      · cases hp'
        exact hp
      · cases hs
        exact mem_join h.excluded hvalues
  · exact ⟨h.path, h.started, h.included, h.excluded⟩

theorem Within.foldl {run : List Domain} {m : Membership} (h : m.Within path Q)
    (hpath : ∀ c, .condition c ∈ run → c.path = path)
    (hvalues : ∀ c values, .condition c ∈ run → c.operand = .set values →
      ∀ v ∈ values.values, Q v) : (run.foldl (Membership.add k) m).Within path Q := by
  induction run generalizing m with
  | nil => exact h
  | cons d ds ih =>
    refine ih (h.add (fun c hc => hpath c (hc ▸ mem_cons_self ..)) fun c values hc =>
      hvalues c values (hc ▸ mem_cons_self ..)) ?_ ?_
    · exact fun c hc => hpath c (mem_cons_of_mem _ hc)
    · exact fun c values hc => hvalues c values (mem_cons_of_mem _ hc)

theorem within_empty : Within path Q {} where
  path _ h := by cases h
  started _ := ⟨rfl, rfl⟩
  included _ h := by cases h
  excluded _ h := by cases h

theorem Within.condition?_eq_some {m : Membership} (h : m.Within path Q) {d : Domain}
    (hd : m.condition? k = some d) :
    ∃ operator values, operator.isMembership = true ∧ d = .leaf path operator (.set values) ∧
      ∀ v ∈ values.values, Q v := by
  have hdifference : ∀ s t : ValueSet, (∀ v ∈ s.values, Q v) →
      ∀ v ∈ (s.difference t).values, Q v := by
    intro s t hs v hv
    exact hs v (mem_of_mem_filter ((ValueSet.fresh_sublist [] _).mem hv))
  obtain ⟨p, hp, hd⟩ := Option.bind_eq_some_iff.1 hd
  obtain rfl := h.path p hp
  split at hd
  · rename_i included hincluded _
    cases hd
    exact ⟨_, _, rfl, rfl, h.included _ hincluded⟩
  · rename_i excluded _ hexcluded
    cases hd
    exact ⟨_, _, rfl, rfl, h.excluded _ hexcluded⟩
  · rename_i included excluded hincluded hexcluded
    split at hd <;> cases hd
    · exact ⟨_, _, rfl, rfl, hdifference _ _ (h.included _ hincluded)⟩
    · exact ⟨_, _, rfl, rfl, hdifference _ _ (h.excluded _ hexcluded)⟩
  · cases hd

theorem isDistinct_join (isIncluded : Bool) (acc values : ValueSet) :
    (join k isIncluded (some acc) values).IsDistinct := by
  unfold join
  dsimp only
  split <;> exact ValueSet.isDistinct_ofList _

def IsDistinct (m : Membership) : Prop :=
  (∀ s, m.included = some s → s.IsDistinct) ∧ ∀ s, m.excluded = some s → s.IsDistinct

theorem IsDistinct.add {m : Membership} (h : m.IsDistinct) {d : Domain}
    (hd : ∀ c values, d = .condition c → c.operand = .set values → values.IsDistinct) :
    (m.add k d).IsDistinct := by
  have hjoin : ∀ isIncluded acc values, ValueSet.IsDistinct values →
      (join k isIncluded acc values).IsDistinct := by
    intro isIncluded acc values hvalues
    cases acc with
    | none => exact hvalues
    | some acc => exact isDistinct_join isIncluded acc values
  unfold Membership.add
  split
  · rename_i values mark
    have hvalues := hd _ values rfl rfl
    dsimp only
    split
    · refine ⟨fun s hs => ?_, h.2⟩
      cases hs
      exact hjoin _ _ _ hvalues
    · refine ⟨h.1, fun s hs => ?_⟩
      cases hs
      exact hjoin _ _ _ hvalues
  · exact h

theorem IsDistinct.condition? {m : Membership} (h : m.IsDistinct) {path : String} {op : Operator}
    {values : ValueSet} (hd : m.condition? k = some (.leaf path op (.set values))) :
    values.IsDistinct := by
  obtain ⟨_, -, hd⟩ := Option.bind_eq_some_iff.1 hd
  split at hd
  · cases hd
    exact h.1 _ ‹_›
  · cases hd
    exact h.2 _ ‹_›
  · split at hd <;> cases hd <;> exact ValueSet.isDistinct_ofList _
  · cases hd

end Membership

theorem isDistinct_of_condition? {run : List Domain} {path : String} {op : Operator}
    {values : ValueSet}
    (hrun : ∀ c values', .condition c ∈ run → c.operand = .set values' → values'.IsDistinct)
    (h : (run.foldl (Membership.add k) {}).condition? k = some (.leaf path op (.set values))) :
    values.IsDistinct := by
  have hfold : ∀ m : Membership, m.IsDistinct →
      (run.foldl (Membership.add k) m).IsDistinct := by
    clear h
    induction run with
    | nil => exact fun m hm => hm
    | cons d ds ih =>
      intro m hm
      refine ih (fun c values' hc => hrun c values' (mem_cons_of_mem d hc)) _ (hm.add ?_)
      rintro c values' rfl
      exact hrun c values' mem_cons_self
  exact (hfold {} ⟨nofun, nofun⟩).condition? h

theorem mem_joinSets_of_path {run : List Domain} {d : Domain} {path : String}
    (hpath : ∀ c, .condition c ∈ run → c.path = path) (h : d ∈ joinSets k run) :
    d ∈ run ∨ ∃ operator values, operator.isMembership = true ∧
      d = .leaf path operator (.set values) ∧ ∀ v ∈ values.values, ∃ c values',
        .condition c ∈ run ∧ c.operand = .set values' ∧ v ∈ values'.values := by
  refine (mem_joinSets h).imp_right fun hd => ?_
  refine (Membership.within_empty.foldl hpath fun c values hc hoperand v hv => ?_).condition?_eq_some
    hd
  exact ⟨c, values, hc, hoperand, hv⟩

/-- The child is a condition with a set, as every membership is once it is optimized. -/
def HasSet (d : Domain) : Prop := ∃ c values, d = .condition c ∧ c.operand = .set values

theorem Membership.others_foldl {run : List Domain} (h : ∀ d ∈ run, HasSet d) (m : Membership) :
    (run.foldl (Membership.add k) m).others = m.others := by
  induction run generalizing m with
  | nil => rfl
  | cons d ds ih =>
    rw [forall_mem_cons] at h
    obtain ⟨⟨c, values, rfl, hset⟩, hds⟩ := h
    rw [foldl_cons, ih hds, Membership.others_add_of_set m hset]

theorem joinSets_eq {run : List Domain} (h : ∀ d ∈ run, HasSet d) :
    joinSets k run = ((run.foldl (Membership.add k) {}).condition? k).toList := by
  dsimp only [joinSets]
  rw [Membership.others_foldl h, append_nil]

theorem length_joinSets_le {run : List Domain} (h : ∀ d ∈ run, HasSet d) :
    (joinSets k run).length ≤ 1 := by
  rw [joinSets_eq h]
  exact Option.length_toList_le

def group (operator : Operator) (run : List Domain) : List Domain :=
  run.filter fun d => (inner? operator d).isSome

def leadsToOne (entity : Entity) (path : String) : Bool :=
  match entity.field? path with
  | some field => !field.type.isX2Many
  | none => false

def isMergeable (k : Connective) (single : Bool) (run : List Domain) (operator : Operator) : Bool :=
  (unites k operator || single) && 1 < (run.filterMap (inner? operator)).length

def joinAnys (k : Connective) (entity : Entity) (run : List Domain) : List Domain :=
  match run with
  | .condition first :: _ =>
    let mergeable := isMergeable k (leadsToOne entity first.path) run
    if !mergeable .any && !mergeable .notAny then run
    else traversals k .any (mergeable .any) run ++ traversals k .notAny (mergeable .notAny) run ++
      run.filter fun d => (inner? .any d).isNone && (inner? .notAny d).isNone
  | _ => run

theorem result_anys (run : List Domain) :
    (anys k run ctx).result = .ok (joinAnys k ctx.entity run) := by
  match run with
  | .condition first :: rest =>
    exact (apply_ite Run.result _ _ _).trans (apply_ite Except.ok _ _ _).symm
  | [] | .constant _ :: _ | .negation _ :: _ | .nary _ _ _ :: _ => rfl

theorem inner?_eq_some {operator : Operator} {d inner : Domain}
    (h : inner? operator d = some inner) :
    ∃ c : Condition, d = .condition c ∧ c.operator = operator ∧ c.operand = .domain inner := by
  unfold inner? at h
  split at h
  · split at h
    · rename_i hop
      cases h
      exact ⟨_, rfl, hop, rfl⟩
    · cases h
  · cases h

theorem inner?_notAny_of_any {d : Domain} (h : (inner? .any d).isSome = true) :
    inner? .notAny d = none := by
  obtain ⟨inner, hinner⟩ := Option.isSome_iff_exists.1 h
  obtain ⟨⟨path, operator, operand, mark⟩, rfl, hop, hoperand⟩ := inner?_eq_some hinner
  cases hop
  cases hoperand
  rfl

theorem length_groups (run : List Domain) :
    (group .any run).length + (group .notAny run).length +
      (run.filter fun d => (inner? .any d).isNone && (inner? .notAny d).isNone).length =
      run.length := by
  induction run with
  | nil => rfl
  | cons d ds ih =>
    unfold group at ih ⊢
    simp only [filter_cons, length_cons]
    cases hany : inner? .any d with
    | some inner =>
      have hnot := inner?_notAny_of_any (d := d) (by rw [hany]; rfl)
      simp only [hnot, Option.isSome_some, Option.isSome_none, Option.isNone_some, if_true,
        Bool.false_and, Bool.false_eq_true, if_false, length_cons]
      omega
    | none =>
      cases hnot : inner? .notAny d with
      | some inner =>
        simp only [Option.isSome_some, Option.isSome_none, Option.isNone_some, Bool.and_false,
          if_true, Bool.false_eq_true, if_false, length_cons]
        omega
      | none =>
        simp only [Option.isSome_none, Option.isNone_none, Bool.and_self, if_true,
          Bool.false_eq_true, if_false, length_cons]
        omega

theorem length_group (operator : Operator) (run : List Domain) :
    (group operator run).length = (run.filterMap (inner? operator)).length := by
  induction run with
  | nil => rfl
  | cons d ds ih =>
    unfold group at ih ⊢
    cases hinner : inner? operator d <;> simp_all

theorem group_eq_condition_cons {operator : Operator} {run : List Domain}
    (h : 0 < (group operator run).length) :
    ∃ c rest, group operator run = .condition c :: rest := by
  obtain ⟨d, rest, hgroup⟩ := exists_cons_of_length_pos h
  have hd : d ∈ group operator run := by
    rw [hgroup]
    exact mem_cons_self ..
  obtain ⟨inner, hinner⟩ := Option.isSome_iff_exists.1 (mem_filter.1 hd).2
  obtain ⟨c, rfl, -, -⟩ := inner?_eq_some hinner
  exact ⟨c, rest, hgroup⟩

def joinedInner (k : Connective) (operator : Operator) (run : List Domain) : Domain :=
  if unites k operator then Domain.or (run.filterMap (inner? operator))
  else .and (run.filterMap (inner? operator))

theorem traversals_of_mergeable {operator : Operator} {run rest : List Domain} {c : Condition}
    (h : group operator run = .condition c :: rest) :
    traversals k operator true run =
      [.condition (c.withOperand (.domain (joinedInner k operator run)))] := by
  unfold group at h
  simp only [traversals, h, if_true]
  rfl

theorem length_traversals_le (operator : Operator) (single : Bool) (run : List Domain) :
    (traversals k operator (isMergeable k single run operator) run).length +
      (isMergeable k single run operator).toNat ≤ (group operator run).length := by
  cases hmergeable : isMergeable k single run operator with
  | false => exact Nat.le_refl _
  | true =>
    simp only [isMergeable, Bool.and_eq_true, decide_eq_true_eq, ← length_group] at hmergeable
    have hlong := hmergeable.2
    obtain ⟨c, rest, hgroup⟩ := group_eq_condition_cons (by omega : 0 < (group operator run).length)
    rw [traversals_of_mergeable hgroup, length_singleton, Bool.toNat_true]
    omega

theorem shrinks_joinAnys (entity : Entity) (run : List Domain) :
    Shrinks run (joinAnys k entity run) := by
  unfold joinAnys
  split
  · rename_i first rest
    dsimp only
    split
    · exact .refl _
    · rename_i hmergeable
      generalize Domain.condition first :: rest = run at hmergeable ⊢
      generalize leadsToOne entity first.path = single at hmergeable ⊢
      have hany : (traversals k .any (isMergeable k single run .any) run).length + _ ≤ _ :=
        length_traversals_le ..
      have hnot : (traversals k .notAny (isMergeable k single run .notAny) run).length + _ ≤ _ :=
        length_traversals_le ..
      have hsum := length_groups run
      have hsome : 0 < (isMergeable k single run .any).toNat +
          (isMergeable k single run .notAny).toNat := by
        cases h₁ : isMergeable k single run .any <;>
          cases h₂ : isMergeable k single run .notAny <;> simp_all
      refine .inr ?_
      simp only [length_append]
      omega
  · exact .refl _

theorem traversals_eq_singleton {operator : Operator} {single : Bool} {run : List Domain}
    (h : isMergeable k single run operator = true) :
    ∃ (c : Condition) (inner : Domain), .condition c ∈ run ∧ c.operator = operator ∧
      c.operand = .domain inner ∧ traversals k operator true run =
        [.condition (c.withOperand (.domain (joinedInner k operator run)))] := by
  simp only [isMergeable, Bool.and_eq_true, decide_eq_true_eq, ← length_group] at h
  have hlong := h.2
  obtain ⟨c, rest, hgroup⟩ := group_eq_condition_cons (by omega : 0 < (group operator run).length)
  have hc : .condition c ∈ group operator run := by
    rw [hgroup]
    exact mem_cons_self ..
  obtain ⟨hmem, hinner⟩ := mem_filter.1 hc
  obtain ⟨inner, hinner⟩ := Option.isSome_iff_exists.1 hinner
  obtain ⟨c', hc', hop, hoperand⟩ := inner?_eq_some hinner
  cases hc'
  exact ⟨c, inner, hmem, hop, hoperand, traversals_of_mergeable hgroup⟩

theorem mem_joinAnys {entity : Entity} {run : List Domain} {d : Domain}
    (h : d ∈ joinAnys k entity run) :
    d ∈ run ∨ ∃ c : Condition, .condition c ∈ run ∧ (∃ inner, c.operand = .domain inner) ∧
      d = .condition (c.withOperand (.domain (joinedInner k c.operator run))) := by
  have htraversals : ∀ (operator : Operator) (single : Bool),
      d ∈ traversals k operator (isMergeable k single run operator) run →
      d ∈ run ∨ ∃ c : Condition, .condition c ∈ run ∧ (∃ inner, c.operand = .domain inner) ∧
        d = .condition (c.withOperand (.domain (joinedInner k c.operator run))) := by
    intro operator single h
    cases hmergeable : isMergeable k single run operator with
    | false =>
      rw [hmergeable] at h
      exact .inl (mem_filter.1 h).1
    | true =>
      obtain ⟨c, inner, hmem, rfl, hoperand, hjoined⟩ := traversals_eq_singleton hmergeable
      rw [hmergeable, hjoined, mem_singleton] at h
      exact .inr ⟨c, hmem, ⟨inner, hoperand⟩, h⟩
  match run, h, htraversals with
  | .condition first :: rest, h, htraversals =>
    dsimp only [joinAnys] at h
    split at h
    · exact .inl h
    · obtain h | h := mem_append.1 h
      · obtain h | h := mem_append.1 h
        · exact htraversals _ _ h
        · exact htraversals _ _ h
      · exact .inl (mem_filter.1 h).1
  | [], h, _ | .constant _ :: _, h, _ | .negation _ :: _, h, _ | .nary _ _ _ :: _, h, _ =>
    exact .inl h

theorem mem_inners {operator : Operator} {run : List Domain} {inner : Domain}
    (h : inner ∈ run.filterMap (inner? operator)) :
    ∃ c : Condition, .condition c ∈ run ∧ c.operator = operator ∧ c.operand = .domain inner := by
  obtain ⟨d, hd, hinner⟩ := mem_filterMap.1 h
  obtain ⟨c, rfl, hop, hoperand⟩ := inner?_eq_some hinner
  exact ⟨c, hd, hop, hoperand⟩

theorem inner?_mapValues (f : Value → Value) (operator : Operator) (d : Domain) :
    inner? operator (d.mapValues f) = (inner? operator d).map (Domain.mapValues f) := by
  cases d with
  | condition c =>
    obtain ⟨path, op, operand, mark⟩ := c
    cases operand with
    | domain inner =>
      simp only [Domain.mapValues, Condition.mapValues, Operand.mapValues, inner?]
      split <;> rfl
    | _ => rfl
  | _ => rfl

theorem filterMap_inner?_map (f : Value → Value) (operator : Operator) (run : List Domain) :
    (run.map (Domain.mapValues f)).filterMap (inner? operator) =
      (run.filterMap (inner? operator)).map (Domain.mapValues f) := by
  rw [filterMap_map, map_filterMap]
  congr 1
  funext d
  exact inner?_mapValues f operator d

theorem group_map (f : Value → Value) (operator : Operator) (run : List Domain) :
    group operator (run.map (Domain.mapValues f)) =
      (group operator run).map (Domain.mapValues f) := by
  unfold group
  rw [filter_map]
  congr 2
  funext d
  simp [inner?_mapValues]

theorem joinedInner_map (f : Value → Value) (operator : Operator) (run : List Domain) :
    joinedInner k operator (run.map (Domain.mapValues f)) =
      (joinedInner k operator run).mapValues f := by
  unfold joinedInner
  split <;> simp only [filterMap_inner?_map, Domain.or, Domain.and, Connective.mapValues_apply]

theorem isMergeable_map (f : Value → Value) (single : Bool) (run : List Domain)
    (operator : Operator) :
    isMergeable k single (run.map (Domain.mapValues f)) operator =
      isMergeable k single run operator := by
  simp only [isMergeable, filterMap_inner?_map, length_map]

theorem traversals_map (f : Value → Value) (operator : Operator) (single : Bool)
    (run : List Domain) :
    traversals k operator (isMergeable k single run operator) (run.map (Domain.mapValues f)) =
      (traversals k operator (isMergeable k single run operator) run).map (Domain.mapValues f) := by
  cases hmergeable : isMergeable k single run operator with
  | false => exact group_map f operator run
  | true =>
    simp only [isMergeable, Bool.and_eq_true, decide_eq_true_eq, ← length_group] at hmergeable
    have hlong := hmergeable.2
    obtain ⟨c, rest, hgroup⟩ := group_eq_condition_cons (by omega : 0 < (group operator run).length)
    have hgroup' := group_map f operator run
    rw [hgroup, map_cons, Domain.mapValues] at hgroup'
    rw [traversals_of_mergeable hgroup, traversals_of_mergeable hgroup', joinedInner_map]
    simp [Condition.withOperand, Domain.mapValues, Condition.mapValues_eq, Operand.mapValues]

theorem joinAnys_map (f : Value → Value) (entity : Entity) (run : List Domain) :
    joinAnys k entity (run.map (Domain.mapValues f)) =
      (joinAnys k entity run).map (Domain.mapValues f) := by
  match run with
  | .condition first :: rest =>
    have hrest : ((Domain.condition first :: rest).map (Domain.mapValues f)).filter
          (fun d => (inner? .any d).isNone && (inner? .notAny d).isNone) =
        ((Domain.condition first :: rest).filter fun d =>
          (inner? .any d).isNone && (inner? .notAny d).isNone).map (Domain.mapValues f) := by
      rw [filter_map]
      congr 2
      funext d
      simp [inner?_mapValues]
    have hfirst : (Domain.condition first).mapValues f = .condition (first.mapValues f) := rfl
    have hpath : (first.mapValues f).path = first.path := by rw [Condition.mapValues_eq]
    rw [map_cons, hfirst] at hrest ⊢
    simp only [joinAnys, hpath]
    rw [← hfirst, ← map_cons] at hrest ⊢
    simp only [isMergeable_map, traversals_map, hrest]
    split <;> simp
  | [] | .constant _ :: _ | .negation _ :: _ | .nary _ _ _ :: _ => rfl

end Merge

namespace Optimizer

variable {ctx : Context} {k : Connective}

def setScope : MergeScope := .runs Registry.membershipOperators none

def anyScope : MergeScope :=
  .runs [.any, .notAny] (some [.integer, .many2one, .one2many, .many2many])

theorem setScope_key {d : Domain} {path : String} (h : setScope.runKey? d = some path) :
    ∃ c : Condition, d = .condition c ∧ c.path = path ∧ c.operator.isMembership = true := by
  obtain ⟨c, rfl, hop, hpath⟩ := MergeScope.runKey?_eq_some h
  exact ⟨c, rfl, hpath, Registry.mem_membershipOperators.1 hop⟩

theorem anyScope_key {d : Domain} {path : String} (h : anyScope.runKey? d = some path) :
    ∃ c : Condition, d = .condition c ∧ c.path = path ∧ c.operator.isTraversal = true := by
  obtain ⟨c, rfl, hop, hpath⟩ := MergeScope.runKey?_eq_some h
  exact ⟨c, rfl, hpath, Operator.mem_traversals.1 hop⟩

/-- What the standard merges make of children. -/
def mergeAll (k : Connective) (entity : Entity) (children : List Domain) : List Domain :=
  let distinct := Merge.distinct [] children
  let sets := replaceRuns (isMerged setScope entity) (Merge.joinSets k)
    (runsBy setScope.runKey? distinct)
  replaceRuns (isMerged anyScope entity) (Merge.joinAnys k entity) (runsBy anyScope.runKey? sets)

theorem result_applyMerges (ctx : Context) (k : Connective) (children : List Domain) :
    (standard.applyMerges k ctx children).result = .ok (mergeAll k ctx.entity children) := by
  have hmerges : ctx.level.upTo.flatMap standard.registry.mergesAt =
      Registry.standard.merges := by
    cases ctx.level <;> rfl
  rw [applyMerges, hmerges]
  change ((Registry.standard.merges.foldlM
    (fun children entry => applyMerge entry k ctx children) children)).result = _
  simp only [Registry.standard, foldlM_cons, foldlM_nil, Run.result_bind_eq_ok]
  refine ⟨_, rfl, _, result_mergeRuns (fun run => rfl) _, _,
    result_mergeRuns (fun run => Merge.result_anys run) _, rfl⟩

/-- Merging does not look at marks, and takes equal literals for one. -/
theorem mergeAll_map {f : Value → Value} (hf : Value.KeepsEqual f) (entity : Entity)
    (children : List Domain) :
    mergeAll k entity (children.map (Domain.mapValues f)) =
      (mergeAll k entity children).map (Domain.mapValues f) := by
  have hdistinct := Merge.distinct_map hf [] children
  have hkey (scope : MergeScope) := scope.runKey?_mapValues f
  rw [map_nil] at hdistinct
  dsimp only [mergeAll]
  rw [hdistinct, runsBy_map (hkey _), replaceRuns_map (isMerged_map _ _ _) (Merge.joinSets_map hf),
    runsBy_map (hkey _), replaceRuns_map (isMerged_map _ _ _) (Merge.joinAnys_map f entity)]

theorem mergeAll_canonical (entity : Entity) (children : List Domain) :
    mergeAll k entity (children.map Domain.canonical) =
      (mergeAll k entity children).map Domain.canonical :=
  mergeAll_map Value.keepsEqual_canonical entity children

def MembersAreSets (children : List Domain) : Prop :=
  ∀ c, .condition c ∈ children → c.operator.isMembership = true →
    ∃ values, c.operand = .set values

theorem MembersAreSets.hasSet {children : List Domain} (h : MembersAreSets children)
    {path : String} {run : List Domain}
    (hrun : ∀ d ∈ run, d ∈ children ∧ setScope.runKey? d = some path) :
    ∀ d ∈ run, Merge.HasSet d := by
  intro d hd
  obtain ⟨hmem, hkey⟩ := hrun d hd
  obtain ⟨c, rfl, -, hmember⟩ := setScope_key hkey
  obtain ⟨values, hvalues⟩ := h c hmem hmember
  exact ⟨c, values, rfl, hvalues⟩

theorem shrinks_mergeAll (entity : Entity) {children : List Domain} (h : MembersAreSets children) :
    Shrinks children (mergeAll k entity children) := by
  refine (Merge.shrinks_distinct [] children).trans (Shrinks.trans (shrinks_runs ?_)
    (shrinks_runs fun _ run _ _ => Merge.shrinks_joinAnys entity run))
  intro path run hrun hlong
  have hrun' : ∀ d ∈ run, d ∈ children ∧ setScope.runKey? d = some path := fun d hd =>
    (hrun d hd).imp_left (Merge.distinct_sublist [] children).mem
  have := Merge.length_joinSets_le (h.hasSet hrun') (k := k)
  exact .inr (by omega)

end Optimizer

end QueryDomain
