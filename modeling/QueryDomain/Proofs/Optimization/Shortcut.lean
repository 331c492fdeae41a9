import QueryDomain.Proofs.Optimization.Blind
import QueryDomain.Proofs.Optimization.Depth
import QueryDomain.Proofs.Optimization.FixedPoint

/-! A mark lets the optimizer skip a node, and that is all it does: a domain is optimized to the
same result as without its marks, or fails in the same way. The run that skips may need less depth,
so it is compared with the runs of every depth that is great enough. -/
namespace QueryDomain

open List

namespace Run

variable {α β γ δ : Type} {R : α → β → Prop} {S : γ → δ → Prop}

def Reaches (b : Nat → Run Error β) (r : Except Error β) : Prop :=
  ∃ enough, ∀ depth ≥ enough, (b depth).result = r

/-- Unless the first run ends for want of depth, the others end in agreement with it from some depth
on. -/
def Follows (R : α → β → Prop) (a : Run Error α) (b : Nat → Run Error β) : Prop :=
  a.result ≠ .error .tooDeep → ∃ r, Reaches b r ∧ Agrees R a.result r

theorem Reaches.exists {b : Nat → Run Error β} {r : Except Error β} (h : Reaches b r) :
    ∃ depth, (b depth).result = r := by
  obtain ⟨enough, h⟩ := h
  exact ⟨enough, h enough (Nat.le_refl _)⟩

theorem Reaches.bind {b : Nat → Run Error β} {g : Nat → β → Run Error δ} {y : β}
    {r : Except Error δ} (hb : Reaches b (.ok y)) (hg : Reaches (fun depth => g depth y) r) :
    Reaches (fun depth => b depth >>= g depth) r := by
  obtain ⟨enough, hb⟩ := hb
  obtain ⟨enough', hg⟩ := hg
  refine ⟨max enough enough', fun depth hdepth => ?_⟩
  rw [result_bind, hb depth (Nat.le_trans (Nat.le_max_left ..) hdepth)]
  exact hg depth (Nat.le_trans (Nat.le_max_right ..) hdepth)

theorem Reaches.bind_error {b : Nat → Run Error β} {g : Nat → β → Run Error δ} {e : Error}
    (hb : Reaches b (.error e)) : Reaches (fun depth => b depth >>= g depth) (.error e) := by
  obtain ⟨enough, hb⟩ := hb
  refine ⟨enough, fun depth hdepth => ?_⟩
  rw [result_bind, hb depth hdepth]
  rfl

namespace Follows

theorem of_agree {a : Run Error α} {b : Run Error β} (h : a.Agree R b) :
    Follows R a fun _ => b :=
  fun _ => ⟨b.result, ⟨0, fun _ _ => rfl⟩, h⟩

theorem congr {a a' : Run Error α} {b b' : Nat → Run Error β} (h : Follows R a b)
    (ha : a'.result = a.result) (hb : ∀ depth, (b' depth).result = (b depth).result) :
    Follows R a' b' := by
  unfold Follows Reaches
  simp only [ha, hb]
  exact h

theorem bind {a : Run Error α} {b : Nat → Run Error β} {f : α → Run Error γ}
    {g : Nat → β → Run Error δ} (hab : Follows R a b)
    (hfg : ∀ x y, R x y → a.result = .ok x → Reaches b (.ok y) →
      Follows S (f x) fun depth => g depth y) :
    Follows S (a >>= f) fun depth => b depth >>= g depth := by
  intro h
  rw [result_bind] at h ⊢
  cases ha : a.result with
  | error e =>
    rw [ha] at h
    obtain ⟨r, hr, hagrees⟩ := hab (by rw [ha]; simpa [Except.bind] using h)
    rw [ha] at hagrees
    cases hagrees with
    | error he => exact ⟨_, hr.bind_error, .error he⟩
  | ok x =>
    rw [ha] at h
    obtain ⟨r, hr, hagrees⟩ := hab (by rw [ha]; nofun)
    rw [ha] at hagrees
    cases hagrees with
    | @ok _ y hxy =>
      obtain ⟨r', hr', hagrees'⟩ := hfg x y hxy ha hr h
      exact ⟨r', hr.bind hr', hagrees'⟩

theorem mapM {P : α → γ → Prop} {f : α → Run Error β} {g : Nat → γ → Run Error δ}
    {R : β → δ → Prop} {xs : List α} {ys : List γ} (hxy : Forall₂ P xs ys)
    (h : ∀ x y, P x y → Follows R (f x) fun depth => g depth y) :
    Follows (Forall₂ R) (xs.mapM f) fun depth => ys.mapM (g depth) := by
  induction hxy with
  | nil => exact .of_agree (.ok .nil)
  | cons hxy _ ih =>
    simp only [List.mapM_cons]
    refine .bind (h _ _ hxy) fun x' y' hhead _ _ => .bind ih fun xs' ys' htail _ _ => ?_
    exact .of_agree (.ok (.cons hhead htail))

theorem ite {p : Prop} [Decidable p] {a c : Run Error α} {b d : Nat → Run Error β}
    (hab : p → Follows R a b) (hcd : ¬p → Follows R c d) :
    Follows R (if p then a else c) fun depth => if p then b depth else d depth := by
  split
  · exact hab ‹_›
  · exact hcd ‹_›

end Follows

end Run

namespace Domain

theorem childLe_unmarked (a b : Domain) : a.unmarked.childLe b.unmarked = a.childLe b := by
  cases a with
  | condition c =>
    cases b with
    | condition d => simp [childLe, asCondition?]
    | _ => rfl
  | _ => cases b <;> rfl

theorem unmarked_sortChildren (children : List Domain) :
    (sortChildren children).map unmarked = sortChildren (children.map unmarked) :=
  map_mergeSort fun a _ b _ => (childLe_unmarked a b).symm

end Domain

namespace Optimizer

open Domain
open Run (Follows Reaches)

variable {catalog : Catalog} {level : Level} {entity : Entity} {depth : Nat} {k : Connective}

theorem unmarked_sortedJoin (children : List Domain) :
    (sortedJoin k children).unmarked = sortedJoin k (children.map unmarked) := by
  unfold sortedJoin
  dsimp only
  rw [← unmarked_apply, connective?_unmarked]
  split
  · rw [unmarked_apply, unmarked_sortChildren, children_unmarked]
  · rfl

theorem unmarked_mergeAll (entity : Entity) (children : List Domain) :
    (mergeAll k entity children).map unmarked = mergeAll k entity (children.map unmarked) :=
  (mergeAll_map Value.keepsEqual_id ..).symm

@[simp] theorem isRigid_unmarked (d : Domain) : isRigid d.unmarked = isRigid d := by
  cases d <;> rfl

structure Twins (catalog : Catalog) (d d' : Domain) : Prop where
  alike : d.Alike d'
  left : d.EachMark (Vouched catalog)
  right : d'.EachMark (Vouched catalog)

namespace Twins

variable {d d' : Domain}

theorem symm (h : Twins catalog d d') : Twins catalog d' d := ⟨h.alike.symm, h.right, h.left⟩

theorem settled_iff (h : Twins catalog d d') :
    Settled catalog level d entity ↔ Settled catalog level d' entity :=
  ⟨fun hd => hd.of_canonical (canonical_of_alike h.alike),
    fun hd => hd.of_canonical (canonical_of_alike h.alike.symm)⟩

theorem forall₂_iff {as bs : List Domain} :
    Forall₂ (Twins catalog) as bs ↔ as.map Domain.unmarked = bs.map Domain.unmarked ∧
      (∀ d ∈ as, d.EachMark (Vouched catalog)) ∧ ∀ d ∈ bs, d.EachMark (Vouched catalog) := by
  induction as generalizing bs with
  | nil => cases bs <;> simp
  | cons a as ih =>
    cases bs with
    | nil => simp
    | cons b bs =>
      simp only [forall₂_cons, ih, map_cons, cons.injEq, forall_mem_cons]
      constructor
      · rintro ⟨hab, hmap, has, hbs⟩
        exact ⟨⟨hab.alike, hmap⟩, ⟨hab.left, has⟩, hab.right, hbs⟩
      · rintro ⟨⟨hunmarked, hmap⟩, ⟨hleft, has⟩, hright, hbs⟩
        exact ⟨⟨hunmarked, hleft, hright⟩, hmap, has, hbs⟩

end Twins

theorem map_unmarked_eq_iff {ds ds' : List Domain} :
    ds.map unmarked = ds'.map unmarked ↔ Forall₂ Alike ds ds' := by
  rw [← forall₂_eq_eq_eq, forall₂_map_left_iff, forall₂_map_right_iff]

inductive SameStep : Step → Step → Prop
  | done {d d'} : d.Alike d' → SameStep (.done d) (.done d')
  | changed {d d'} : d.Alike d' → SameStep (.changed d) (.changed d')

/-- Optimizing one of two twins with this depth is followed by optimizing the other with more. -/
def NestedFollow (catalog : Catalog) (level : Level) (depth : Nat) : Prop :=
  ∀ target d d', catalog.entity? target.name = some target → Twins catalog d d' →
    Follows Alike (node catalog depth standard level target d)
      fun deep => node catalog deep standard level target d'

section Nested

variable {c c' : Condition} (hhooks : catalog.Hookless)
  (hentity : catalog.entity? entity.name = some entity)
  (hnested : NestedFollow catalog level depth)

include hentity hnested in
theorem relatedDomain_follows (hc : Twins catalog (.condition c) (.condition c')) :
    Follows Pass.SameChange
      (Pass.relatedDomain c (standard.contextAt catalog depth level entity))
      fun deep => Pass.relatedDomain c' (standard.contextAt catalog deep level entity) := by
  have hunmarked : c.unmarked = c'.unmarked := condition.inj hc.alike
  have hoperator : c.operator = c'.operator := by
    rw [← Condition.operator_unmarked, hunmarked, Condition.operator_unmarked]
  have hoperand : c.operand.unmarked = c'.operand.unmarked := by
    rw [← Condition.operand_unmarked, hunmarked, Condition.operand_unmarked]
  have hfield : ∀ deep, (standard.contextAt catalog deep level entity).field c' =
      (standard.contextAt catalog depth level entity).field c := by
    intro deep
    rw [← Context.field_unmarked, ← hunmarked, Context.field_unmarked]
    rfl
  unfold Pass.relatedDomain
  simp only [hfield, ← hoperator]
  refine .bind (.of_agree (.refl _)) fun field _ hfields _ _ => hfields ▸ ?_
  have htarget : (liftM ((standard.contextAt catalog depth level entity).target c field) :
      Run Error Entity).Agree Eq
        (liftM ((standard.contextAt catalog depth level entity).target c' field)) := by
    have hright := Context.agrees_target (standard.contextAt catalog depth level entity) c' field
    rw [← hunmarked] at hright
    exact (Context.agrees_target _ c field).of_common (fun _ _ _ h h' => h.trans h'.symm) hright
  refine .bind (.of_agree htarget) fun target _ htargets hfound _ => htargets ▸ ?_
  obtain ⟨hflat, hdomain⟩ | ⟨inner, inner', hinner, hinner', hsame⟩ :=
    Operand.eq_or_of_unmarked hoperand
  · rw [← hflat]
    cases hx : c.operand with
    | domain d => exact absurd hx (hdomain d)
    | query q => exact .of_agree Pass.agree_keep
    | scalar _ | set _ => exact .of_agree (.throw (by simp [Error.unmarked, hunmarked]))
  · -- Here alone a pass sees marks: the nested domain may be skipped.
    rw [hinner, hinner']
    have htwins : Twins catalog inner inner' :=
      ⟨hsame, (eachMark_condition.1 hc.left).2 inner hinner,
        (eachMark_condition.1 hc.right).2 inner' hinner'⟩
    refine .bind (hnested target inner inner' (Context.entity?_target hentity hfound) htwins)
      fun optimized optimized' hoptimized _ _ => .of_agree ?_
    rw [← hoptimized.isFalse, ← hoptimized.isTrue, ← same_of_alike hoptimized hsame]
    refine .ite (fun _ => Pass.agree_replace rfl) fun _ => ?_
    refine .ite (fun _ => Pass.agree_replace rfl) fun _ => ?_
    refine .ite (fun _ => Pass.agree_keep) fun _ => Pass.agree_replace ?_
    simp [Condition.unmarked_withOperand, hunmarked, hoptimized]

include hhooks hentity hnested in
theorem pass_follows (hc : Twins catalog (.condition c) (.condition c')) :
    ∀ entry ∈ Registry.standard.passes,
      Follows Pass.SameChange (entry.pass.run c (standard.contextAt catalog depth level entity))
        fun deep => entry.pass.run c' (standard.contextAt catalog deep level entity) := by
  intro entry hentry
  have hcases : entry.pass.run = Pass.relatedDomain ∨
      Pass.Blind entry.pass.run (standard.contextAt catalog depth level entity) :=
    Pass.blind_standard (hhooks.of_entity? hentity) entry hentry
  obtain hrun | hblind := hcases
  · rw [hrun]
    exact relatedDomain_follows hentity hnested hc
  · have hunmarked : c.unmarked = c'.unmarked := condition.inj hc.alike
    have hagree := hblind.agree hunmarked
    intro hdeep
    refine ⟨_, ⟨depth, fun deep hle => ?_⟩, hagree⟩
    exact Pass.standard_le (contextAt_le hle) c' entry hentry (hagree.ne_tooDeep hdeep)

theorem firstChange_follows {passes : List NamedPass} {ctx : Context} {ctxs : Nat → Context}
    (h : ∀ pass ∈ passes,
      Follows Pass.SameChange (pass.run c ctx) fun deep => pass.run c' (ctxs deep)) :
    Follows (fun r r' => r.map (·.2.unmarked) = r'.map (·.2.unmarked)) (firstChange c ctx passes)
      fun deep => firstChange c' (ctxs deep) passes := by
  induction passes with
  | nil => exact .of_agree (.ok rfl)
  | cons pass passes ih =>
    simp only [firstChange]
    refine .bind (h pass (mem_cons_self ..)) fun change change' hchange _ _ => ?_
    obtain ⟨rfl, rfl⟩ | ⟨d, d', rfl, rfl, hd⟩ := hchange.cases
    · exact ih fun p hp => h p (mem_cons_of_mem _ hp)
    · exact .of_agree (.ok (congrArg some hd))

include hhooks hentity hnested in
theorem stepCondition_follows (hc : Twins catalog (.condition c) (.condition c')) :
    Follows SameStep
      (standard.stepCondition (standard.contextAt catalog depth level entity) c)
      fun deep => standard.stepCondition (standard.contextAt catalog deep level entity) c' := by
  have hunmarked : c.unmarked = c'.unmarked := condition.inj hc.alike
  have hcandidates : ∀ deep, standard.candidates (standard.contextAt catalog deep level entity) c' =
      standard.candidates (standard.contextAt catalog depth level entity) c := by
    intro deep
    unfold candidates
    rw [← Condition.operator_unmarked c', ← Condition.path_unmarked c', ← hunmarked,
      Condition.operator_unmarked, Condition.path_unmarked]
    rfl
  have hfirst : Follows (fun r r' => r.map (·.2.unmarked) = r'.map (·.2.unmarked))
      (firstChange c (standard.contextAt catalog depth level entity)
        (standard.candidates (standard.contextAt catalog depth level entity) c))
      fun deep => firstChange c' (standard.contextAt catalog deep level entity)
        (standard.candidates (standard.contextAt catalog depth level entity) c) := by
    refine firstChange_follows fun pass hpass => ?_
    obtain ⟨entry, hentry, -, -, rfl⟩ := mem_candidates.1 hpass
    exact pass_follows hhooks hentity hnested hc entry hentry
  unfold stepCondition
  simp only [hcandidates, mark_contextAt]
  refine .bind hfirst fun change change' hchange _ _ => .of_agree ?_
  obtain _ | ⟨name, d⟩ := change
  · obtain rfl : change' = none := by simpa using hchange.symm
    exact .ok (.done (hc.alike.withMark _))
  · obtain _ | ⟨name', d'⟩ := change'
    · cases hchange
    · exact .report (.ok (.changed (Option.some.inj hchange)))

include hentity hnested in
theorem rebuild_follows {children children' : List Domain}
    (hchildren : Forall₂ (Twins catalog) children children') :
    Follows Alike (rebuild k (standard.contextAt catalog depth level entity) children)
      fun deep => rebuild k (standard.contextAt catalog deep level entity) children' := by
  simp only [rebuild_eq]
  refine .bind (.mapM hchildren fun d d' => hnested entity d d' hentity) fun ds ds' hds _ _ => ?_
  refine .of_agree (.ok ?_)
  rw [Alike, unmarked_sortedJoin, unmarked_sortedJoin, map_unmarked_eq_iff.2 hds]

include hhooks hentity in
theorem eachMark_rebuild {deep : Nat} {children : List Domain} {d : Domain}
    (hchildren : ∀ d ∈ children, d.EachMark (Vouched catalog))
    (h : (rebuild k (standard.contextAt catalog deep level entity) children).result = .ok d) :
    d.EachMark (Vouched catalog) := by
  obtain ⟨optimized, rfl, hoptimized⟩ :=
    rebuild_settled (fun _ _ hd => node_settled hhooks.hooksCarry hentity hd) hchildren h
  exact eachMark_sortedJoin fun e he => (hoptimized e he).1

theorem applyMerges_follows {children children' : List Domain}
    (h : children.map unmarked = children'.map unmarked) :
    Follows (fun merged merged' => merged.map unmarked = merged'.map unmarked)
      (standard.applyMerges k (standard.contextAt catalog depth level entity) children)
      fun deep =>
        standard.applyMerges k (standard.contextAt catalog deep level entity) children' := by
  refine .congr (.of_agree (a := pure (mergeAll k entity children))
    (b := pure (mergeAll k entity children')) (.ok ?_)) (result_applyMerges ..)
    fun _ => result_applyMerges ..
  rw [unmarked_mergeAll, unmarked_mergeAll, h]

include hhooks hentity hnested in
theorem round_follows {children children' : List Domain}
    {again : List Domain → Run Error Step} {again' : Nat → List Domain → Run Error Step}
    (hagain : ∀ ds ds', Forall₂ (Twins catalog) ds ds' →
      Follows SameStep (again ds) fun deep => again' deep ds')
    (hchildren : Forall₂ (Twins catalog) children children') :
    Follows SameStep
      (standard.round k (standard.contextAt catalog depth level entity) again children)
      fun deep => standard.round k (standard.contextAt catalog deep level entity) (again' deep)
        children' := by
  unfold round
  refine .bind (rebuild_follows hentity hnested hchildren) fun d d' hd hleft hright => ?_
  have hlength : d'.children.length = d.children.length := by
    simpa using congrArg List.length hd.children.symm
  rw [← hd.connective?]
  refine .ite (fun _ => .of_agree (.ok (.done hd))) fun _ => ?_
  refine .bind (applyMerges_follows hd.children) fun merged merged' hmerged hleft' hright' => ?_
  have htwins : Forall₂ (Twins catalog) merged merged' := by
    obtain ⟨deep, hright⟩ := hright.exists
    obtain ⟨deep', hright'⟩ := hright'.exists
    rw [result_applyMerges, Except.ok.injEq] at hleft' hright'
    rw [← hleft', ← hright'] at hmerged ⊢
    obtain ⟨-, hchildren, hchildren'⟩ := Twins.forall₂_iff.1 hchildren
    refine Twins.forall₂_iff.2 ⟨hmerged, eachMark_mergeAll ?_, eachMark_mergeAll ?_⟩
    · exact (eachMark_rebuild hhooks hentity hchildren hleft).children
    · exact (eachMark_rebuild hhooks hentity hchildren' hright).children
  have hmergedLength : merged'.length = merged.length := htwins.length_eq.symm
  simp only [mark_contextAt, hlength, hmergedLength, ← sameAll_of_unmarked hmerged hd.children]
  refine .ite (fun _ => .of_agree (.ok (.done (hd.withMark _)))) fun _ => ?_
  refine .ite (fun _ => ?_) fun _ => ?_
  · refine .bind (.of_agree (.refl _)) fun _ _ _ _ _ => ?_
    refine .bind (rebuild_follows hentity hnested htwins) fun e e' he _ _ => ?_
    exact .of_agree (.ok (.done (he.withMark _)))
  · exact .bind (.of_agree (.refl _)) fun _ _ _ _ _ => hagain merged merged' htwins

include hhooks hentity hnested in
theorem stepNary_follows (rounds : Nat) {children children' : List Domain}
    (hchildren : Forall₂ (Twins catalog) children children') :
    Follows SameStep
      (standard.stepNary k (standard.contextAt catalog depth level entity) rounds children)
      fun deep => standard.stepNary k (standard.contextAt catalog deep level entity) rounds
        children' := by
  induction rounds generalizing children children' with
  | zero =>
    simp only [stepNary_zero]
    exact round_follows hhooks hentity hnested (fun _ _ _ => .of_agree (.throw rfl)) hchildren
  | succ rounds ih =>
    simp only [stepNary_succ]
    exact round_follows hhooks hentity hnested (fun _ _ => ih) hchildren

include hhooks hentity hnested in
theorem step_follows {d d' : Domain} (hd : Twins catalog d d') :
    Follows SameStep (standard.step (standard.contextAt catalog depth level entity) d)
      fun deep => standard.step (standard.contextAt catalog deep level entity) d' := by
  have hunmarked := hd.alike
  cases d with
  | constant v =>
    cases d' with
    | constant v' =>
      cases hunmarked
      exact .of_agree (.ok (.done rfl))
    | _ => cases hunmarked
  | negation inner =>
    cases d' with
    | negation inner' =>
      simp only [step_negation]
      refine .bind (hnested entity inner inner' hentity ⟨negation.inj hunmarked, hd.left, hd.right⟩)
        fun r r' hr _ _ => .of_agree (.ok ?_)
      rw [← isRigid_unmarked r'.negate, ← hr.negate, isRigid_unmarked]
      split
      · exact .done hr.negate
      · exact .changed hr.negate
    | _ => cases hunmarked
  | nary k children mark =>
    cases d' with
    | nary k' children' mark' =>
      rw [Alike, unmarked_nary, unmarked_nary, nary.injEq] at hunmarked
      obtain ⟨rfl, hchildren, -⟩ := hunmarked
      exact stepNary_follows hhooks hentity hnested _
        (Twins.forall₂_iff.2 ⟨hchildren, hd.left.children, hd.right.children⟩)
    | _ => cases hunmarked
  | condition c =>
    cases d' with
    | condition c' => exact stepCondition_follows hhooks hentity hnested hd
    | _ => cases hunmarked

end Nested

theorem settle_reaches {d : Domain} (hd : Settled catalog level d entity) (changes : Nat) :
    ∃ r, Reaches (fun deep => standard.settle (standard.contextAt catalog deep level entity)
        changes d) (.ok r) ∧ r.unmarked = d.unmarked := by
  obtain ⟨r, hr, hsame⟩ := settle_of_settled hd (Nat.le_refl _) changes
  refine ⟨r, ⟨d.height, fun deep hle => ?_⟩, hsame⟩
  rw [settle_le (contextAt_le hle) changes d (by rw [hr]; nofun), hr]

/-- Where a settled domain is not skipped, the work on it brings nothing new. -/
theorem settle_follows_of_settled {d d' : Domain} (hsame : d.Alike d')
    (hd : Settled catalog level d entity) (changes : Nat) :
    Follows Alike (standard.settle (standard.contextAt catalog depth level entity) changes d)
      fun deep => standard.settle (standard.contextAt catalog deep level entity) changes d' := by
  obtain ⟨r, ⟨enough, hr⟩, hrd⟩ := settle_reaches hd changes
  obtain ⟨r', hr', hrd'⟩ := settle_reaches (hd.of_canonical (canonical_of_alike hsame)) changes
  intro hdeep
  have hresult := settle_le (contextAt_le (Nat.le_max_left depth enough)) changes d hdeep
  rw [← hresult, hr _ (Nat.le_max_right ..)]
  exact ⟨.ok r', hr', .ok (hrd.trans (hsame.trans hrd'.symm))⟩

theorem result_turn {o : Optimizer} {ctx : Context} {d : Domain}
    {again : Domain → Run Error Domain} (hcovered : covered ctx d = false) :
    (o.turn ctx again d).result = (o.step ctx d >>= fun s => match s with
      | .done result => pure result
      | .changed result => again result).result := by
  unfold turn
  rw [Run.result_bind, result_isSettled, hcovered]
  rfl

section Settling

variable {d d' : Domain} (hhooks : catalog.Hookless)
  (hentity : catalog.entity? entity.name = some entity)

include hhooks hentity in
theorem eachMark_step {deep : Nat} {next : Domain} (hd : d.EachMark (Vouched catalog))
    (h : (standard.step (standard.contextAt catalog deep level entity) d).result =
      .ok (.changed next)) : next.EachMark (Vouched catalog) :=
  (step_eq_ok h).settled hentity (hhooks.of_entity? hentity).hooksCarry
    (fun _ _ _ htarget hmarks => node_settled hhooks.hooksCarry htarget hmarks) hd

include hentity in
theorem covered_of_not_settled (hd : d.EachMark (Vouched catalog))
    (hsettled : ¬Settled catalog level d entity) :
    covered (standard.contextAt catalog depth level entity) d = false := by
  rw [Bool.eq_false_iff]
  exact fun hcovered => hsettled (settled_of_covered hentity hd hcovered)

variable (hnested : NestedFollow catalog level depth)

include hhooks hentity hnested in
/-- A domain that is not settled is skipped neither with its marks nor with others. -/
theorem turn_follows {again : Domain → Run Error Domain} {again' : Nat → Domain → Run Error Domain}
    (hagain : ∀ next next', Twins catalog next next' →
      Follows Alike (again next) fun deep => again' deep next')
    (hd : Twins catalog d d') (hsettled : ¬Settled catalog level d entity) :
    Follows Alike (standard.turn (standard.contextAt catalog depth level entity) again d)
      fun deep =>
        standard.turn (standard.contextAt catalog deep level entity) (again' deep) d' := by
  have hcovered : covered (standard.contextAt catalog depth level entity) d = false :=
    covered_of_not_settled hentity hd.left hsettled
  have hcovered' : ∀ deep, covered (standard.contextAt catalog deep level entity) d' = false :=
    fun _ => covered_of_not_settled hentity hd.right (hd.settled_iff.not.1 hsettled)
  refine .congr (.bind (step_follows hhooks hentity hnested hd) ?_) (result_turn hcovered)
    fun deep => result_turn (hcovered' deep)
  intro s s' hs hleft hright
  obtain ⟨deep, hright⟩ := hright.exists
  cases hs with
  | done hsame => exact .of_agree (.ok hsame)
  | changed hsame =>
    exact hagain _ _ ⟨hsame, eachMark_step hhooks hentity hd.left hleft,
      eachMark_step hhooks hentity hd.right hright⟩

include hhooks hentity hnested in
theorem settle_follows (changes : Nat) (hd : Twins catalog d d') :
    Follows Alike (standard.settle (standard.contextAt catalog depth level entity) changes d)
      fun deep => standard.settle (standard.contextAt catalog deep level entity) changes d' := by
  induction changes generalizing d d' with
  | zero =>
    by_cases hsettled : Settled catalog level d entity
    · exact settle_follows_of_settled hd.alike hsettled _
    · simp only [settle_zero]
      exact turn_follows hhooks hentity hnested (fun _ _ _ => .of_agree (.throw rfl)) hd hsettled
  | succ changes ih =>
    by_cases hsettled : Settled catalog level d entity
    · exact settle_follows_of_settled hd.alike hsettled _
    · simp only [settle_succ]
      exact turn_follows hhooks hentity hnested (fun _ _ => ih) hd hsettled

end Settling

/-- Optimizing domains that differ in marks alone ends in the same way, unless the first run ends
for want of depth. -/
theorem node_follows {d d' : Domain} (hhooks : catalog.Hookless)
    (hentity : catalog.entity? entity.name = some entity) (hd : Twins catalog d d') :
    Follows Alike (node catalog depth standard level entity d)
      fun deep => node catalog deep standard level entity d' := by
  induction depth generalizing entity d d' with
  | zero => exact fun h => absurd rfl h
  | succ depth ih =>
    intro hdeep
    obtain ⟨r, ⟨enough, hr⟩, hagrees⟩ := settle_follows hhooks hentity
      (fun _ _ _ htarget htwins => ih htarget htwins) standard.maxIterations hd hdeep
    refine ⟨r, ⟨enough + 1, fun deep hle => ?_⟩, hagrees⟩
    obtain ⟨deep, rfl⟩ := Nat.exists_eq_succ_of_ne_zero (by omega : deep ≠ 0)
    exact hr deep (Nat.le_of_succ_le_succ hle)

theorem node_agree (level : Level) {d d' : Domain} (hhooks : catalog.Hookless)
    (hentity : catalog.entity? entity.name = some entity) (hd : Twins catalog d d') :
    ∃ enough, ∀ depth ≥ enough, (node catalog depth standard level entity d).Agree
      Alike (node catalog depth standard level entity d') := by
  by_cases hends : ∃ depth, (node catalog depth standard level entity d).result ≠ .error .tooDeep
  · obtain ⟨depth, hdepth⟩ := hends
    obtain ⟨r, ⟨enough, hr⟩, hagrees⟩ := node_follows hhooks hentity hd hdepth
    refine ⟨max depth enough, fun deep hdeep => ?_⟩
    unfold Run.Agree
    rw [node_le (Nat.le_trans (Nat.le_max_left ..) hdeep) hdepth,
      hr deep (Nat.le_trans (Nat.le_max_right ..) hdeep)]
    exact hagrees
  · -- Neither run ends: if the second did, the first would follow it.
    rw [not_exists] at hends
    refine ⟨0, fun depth _ => ?_⟩
    have hleft : (node catalog depth standard level entity d).result = .error .tooDeep :=
      not_not.1 (hends depth)
    have hright : (node catalog depth standard level entity d').result = .error .tooDeep := by
      by_contra hne
      obtain ⟨r, hr, hagrees⟩ := node_follows hhooks hentity hd.symm hne
      obtain ⟨deep, hdeep⟩ := hr.exists
      exact hagrees.ne_tooDeep hne (by rw [← hdeep, not_not.1 (hends deep)])
    unfold Run.Agree
    rw [hleft, hright]
    exact .error rfl

theorem node_agree_of_ends {d d' : Domain} (hhooks : catalog.Hookless)
    (hentity : catalog.entity? entity.name = some entity) (hd : Twins catalog d d')
    (hends : (node catalog depth standard level entity d).result ≠ .error .tooDeep)
    (hends' : (node catalog depth standard level entity d').result ≠ .error .tooDeep) :
    (node catalog depth standard level entity d).Agree Alike
      (node catalog depth standard level entity d') := by
  obtain ⟨enough, hagree⟩ := node_agree level hhooks hentity hd
  have hdeep := hagree (max depth enough) (Nat.le_max_right ..)
  unfold Run.Agree at hdeep ⊢
  rwa [node_le (Nat.le_max_left ..) hends, node_le (Nat.le_max_left ..) hends'] at hdeep

/-- Domains built from unmarked ones and from the results of optimizing, for any entities of the
catalog and any levels. -/
inductive Composed (catalog : Catalog) : Domain → Prop
  | unmarked {d} : d.unmarked = d → Composed catalog d
  | optimized {depth level entity d r} : catalog.entity? entity.name = some entity →
      Composed catalog d → (standard.optimizeWithin depth catalog level entity d).result = .ok r →
      Composed catalog r.domain
  | joined {k : Connective} {ds} : (∀ d ∈ ds, Composed catalog d) → Composed catalog (k.apply ds)
  | complement {d} : Composed catalog d → Composed catalog d.negate
  | negation {d} : Composed catalog d → Composed catalog (.negation d)
  | traversal {path operator d} : Composed catalog d →
      Composed catalog (.leaf path operator (.domain d))

theorem Composed.eachMark (hhooks : catalog.Hookless) {d : Domain} (h : Composed catalog d) :
    d.EachMark (Vouched catalog) := by
  induction h with
  | unmarked hd => exact hd ▸ eachMark_mapValues id _
  | optimized hentity _ hrun ih =>
    exact (node_settled hhooks.hooksCarry hentity ih (optimizeWithin_eq_ok.1 hrun).1).1
  | joined _ ih => exact Connective.eachMark_apply ih
  | complement _ ih => exact ih.negate
  | negation _ ih => exact ih
  | traversal _ ih =>
    refine eachMark_leaf.2 fun inner hinner => ?_
    cases hinner
    exact ih

/-- Structurally equal domains for one entity and level, or the same error. -/
def SameOutcome : Except Error OptimizedDomain → Except Error OptimizedDomain → Prop
  | .ok r, .ok r' => r.domain.same r'.domain = true ∧ r.entity = r'.entity ∧ r.level = r'.level
  | .error e, .error e' => e.unmarked = e'.unmarked ∧ e.message = e'.message
  | _, _ => False

theorem result_optimizeWithin (o : Optimizer) (d : Domain) :
    (o.optimizeWithin depth catalog level entity d).result =
      (node catalog depth o level entity d).result.map (⟨·, entity.name, level⟩) := by
  unfold optimizeWithin conclude
  rw [Run.result_bind]
  cases (node catalog depth o level entity d).result <;> rfl

theorem sameOutcome_of_agree {d d' : Domain}
    (h : (node catalog depth standard level entity d).Agree
      Alike (node catalog depth standard level entity d')) :
    SameOutcome (standard.optimizeWithin depth catalog level entity d).result
      (standard.optimizeWithin depth catalog level entity d').result := by
  unfold Run.Agree at h
  rw [result_optimizeWithin, result_optimizeWithin]
  generalize (node catalog depth standard level entity d).result = r at h ⊢
  generalize (node catalog depth standard level entity d').result = r' at h ⊢
  cases h with
  | ok hsame => exact ⟨same_iff.2 (canonical_of_alike hsame), rfl, rfl⟩
  | error he => exact ⟨he, by rw [← Error.message_unmarked, he, Error.message_unmarked]⟩

theorem node_ends_of_optimizeWithin {d : Domain}
    (h : (standard.optimizeWithin depth catalog level entity d).result ≠ .error .tooDeep) :
    (node catalog depth standard level entity d).result ≠ .error .tooDeep := by
  intro hnode
  rw [result_optimizeWithin, hnode] at h
  exact h rfl

/-- Marks change no outcome. A domain composed of optimized ones is optimized to the same result as
without its marks, or fails in the same way: with every depth that ends neither run, and from some
depth on with all. -/
theorem optimizeWithin_unmarked {d : Domain} (hhooks : catalog.Hookless)
    (hentity : catalog.entity? entity.name = some entity) (hd : Composed catalog d) :
    (∀ depth, (standard.optimizeWithin depth catalog level entity d).result ≠ .error .tooDeep →
      (standard.optimizeWithin depth catalog level entity d.unmarked).result ≠ .error .tooDeep →
      SameOutcome (standard.optimizeWithin depth catalog level entity d).result
        (standard.optimizeWithin depth catalog level entity d.unmarked).result) ∧
    ∃ enough, ∀ depth ≥ enough,
      SameOutcome (standard.optimizeWithin depth catalog level entity d).result
        (standard.optimizeWithin depth catalog level entity d.unmarked).result := by
  have htwins : Twins catalog d d.unmarked :=
    ⟨(unmarked_unmarked d).symm, hd.eachMark hhooks, eachMark_mapValues id d⟩
  constructor
  · intro depth h h'
    exact sameOutcome_of_agree (node_agree_of_ends hhooks hentity htwins
      (node_ends_of_optimizeWithin h) (node_ends_of_optimizeWithin h'))
  · obtain ⟨enough, hagree⟩ := node_agree level hhooks hentity htwins
    exact ⟨enough, fun depth hle => sameOutcome_of_agree (hagree depth hle)⟩

/-- The negation of a traversal to a domain that was optimized for the other entity. -/
theorem optimizeWithin_unmarked_traversal :
    let b : Entity := { name := "b", fields := [{ name := "n", type := .char }] }
    let a : Entity :=
      { name := "a", fields := [{ name := "l", type := .many2one, comodel := some "b" }] }
    let catalog : Catalog := { entities := [a, b] }
    let inner : Domain := .condition ⟨"n", .mem, .set ⟨[.text "x"]⟩, some ⟨"b", .sql⟩⟩
    let d : Domain := .negation (.leaf "l" .any (.domain inner))
    Composed catalog d ∧
      (standard.optimizeWithin 5 catalog .search a d).result = .ok
        ⟨.condition ⟨"l", .notAny, .domain inner, some ⟨"a", .search⟩⟩, "a", .search⟩ ∧
      ∃ enough, ∀ depth ≥ enough,
        SameOutcome (standard.optimizeWithin depth catalog .search a d).result
          (standard.optimizeWithin depth catalog .search a d.unmarked).result := by
  intro b a catalog inner d
  have hinner : (standard.optimizeWithin 3 catalog .sql b
      (.leaf "n" .equal (.scalar (.text "x")))).result = .ok ⟨inner, "b", .sql⟩ := by
    cbv
  have hentity : catalog.entity? b.name = some b := rfl
  have hcomposed : Composed catalog d :=
    .negation (.traversal (.optimized hentity (.unmarked rfl) hinner))
  have hhooks : catalog.Hookless := by
    intro entity hentity field hfield
    obtain rfl | rfl : entity = a ∨ entity = b := by simpa [catalog] using hentity
    · obtain rfl := mem_singleton.1 hfield
      rfl
    · obtain rfl := mem_singleton.1 hfield
      rfl
  refine ⟨hcomposed, ?_, (optimizeWithin_unmarked hhooks rfl hcomposed).2⟩
  cbv

end Optimizer

end QueryDomain
