import QueryDomain.Proofs.Optimization.Budget
import QueryDomain.Proofs.Optimization.Calm
import QueryDomain.Proofs.Optimization.Endings
import QueryDomain.Proofs.Schema.Naming

/-! Optimizing ends wherever no demand of the catalog asks for itself. The argument goes by the
budget that a domain fits: a condition that is split is left with a smaller one, and whatever does
not need less is a change of a single condition, the work on the children of a node, or a complement
taken once. -/
namespace QueryDomain.Optimizer

open List Domain
open Run (Ends Reaches)

variable {strict : Bool} {catalog : Catalog} {level : Level} {entity : Entity}
  {price : Demand → Nat} {budget : Nat} {k : Connective} {c : Condition} {d : Domain}

/-- Optimizing the domain ends, however many changes are allowed. If too many changes count as
broken off, enough of them are allowed. -/
def Finishes (strict : Bool) (catalog : Catalog) (level : Level) (entity : Entity) (d : Domain) :
    Prop :=
  ∀ changes, (strict = true → d.stage catalog level entity ≤ changes) →
    Ends strict fun depth =>
      standard.settle (standard.contextAt catalog depth level entity) changes d

theorem Finishes.ends_node (h : Finishes strict catalog level entity d) :
    Ends strict fun depth => node catalog depth standard level entity d :=
  .of_succ (h standard.maxIterations fun _ => d.stage_le)

theorem ends_settle {changes : Nat}
    (hstep : Ends strict fun depth =>
      standard.step (standard.contextAt catalog depth level entity) d)
    (hchanged : ∀ depth next,
      (standard.step (standard.contextAt catalog depth level entity) d).result =
        .ok (.changed next) →
      (strict = true → changes ≠ 0) ∧ ∀ fewer, changes = fewer + 1 → Ends strict fun depth =>
        standard.settle (standard.contextAt catalog depth level entity) fewer next) :
    Ends strict fun depth =>
      standard.settle (standard.contextAt catalog depth level entity) changes d := by
  have hturn : ∀ {again : Nat → Domain → Run Error Domain},
      (∀ depth next, (standard.step (standard.contextAt catalog depth level entity) d).result =
        .ok (.changed next) → Ends strict fun depth => again depth next) →
      Ends strict fun depth => standard.turn (standard.contextAt catalog depth level entity)
        (again depth) d := by
    intro again hagain
    refine .bind (.of_ok (a := covered (standard.contextAt catalog 0 level entity) d)
      fun depth => result_isSettled d) fun _ _ =>
      .ite (fun _ => .of_ok fun _ => rfl) fun _ => .bind hstep fun s hs => ?_
    cases s with
    | done result => exact .of_ok fun _ => rfl
    | changed next =>
      obtain ⟨depth, hs⟩ := hs.exists
      exact hagain depth next hs
  cases changes with
  | zero =>
    simp only [settle_zero]
    refine hturn fun depth next hnext => .of_error (fun _ => rfl) ?_
    cases hstrict : strict with
    | false => rfl
    | true => exact absurd rfl ((hchanged depth next hnext).1 hstrict)
  | succ fewer =>
    simp only [settle_succ]
    exact hturn fun depth next hnext => (hchanged depth next hnext).2 fewer rfl

theorem finishes_constant (v : Bool) : Finishes strict catalog level entity (.constant v) := by
  intro changes _
  refine ends_settle (.of_ok fun _ => rfl) fun depth next hnext => ?_
  cases hnext

theorem finishes_of_settled (h : Settled catalog level d entity) :
    Finishes strict catalog level entity d := by
  intro changes _
  obtain ⟨r, hr, -⟩ := settle_reaches h changes
  exact ⟨.ok r, hr, nofun⟩

section Catalog

variable (hhooks : catalog.Hookless) (hentity : catalog.entity? entity.name = some entity)

def FinishesWithin (strict : Bool) (catalog : Catalog) (price : Demand → Nat) (budget : Nat) :
    Prop :=
  ∀ level entity d, catalog.entity? entity.name = some entity → d.EachMark (Vouched catalog) →
    Fits catalog price budget d entity → Finishes strict catalog level entity d

section Condition

variable (hpriced : catalog.Priced price)
  (hlower : ∀ lower < budget, FinishesWithin strict catalog price lower)

include hlower in
theorem ends_search_leaf {target : Entity} {path : String} {op : Operator} {x : Operand}
    (htarget : catalog.entity? target.name = some target) (hflat : Pass.IsFlat x)
    (hprice : price ((⟨path, op, x, none⟩ : Condition).demand target) < budget) :
    Ends strict fun depth =>
      (standard.contextAt catalog depth level entity).search target (.leaf path op x) := by
  have hdomain : ∀ inner, x ≠ .domain inner := by
    rintro inner rfl
    exact hflat
  refine ends_search (hlower _ hprice .search target _ htarget ?_
    (.flat (Nat.le_refl _) hdomain)).ends_node
  exact eachMark_condition.2 ⟨nofun, fun inner hinner => absurd hinner (hdomain inner)⟩

include hpriced hlower hentity hhooks in
theorem ends_step_condition (hmarks : (Domain.condition c).EachMark (Vouched catalog))
    (hfits : Fits catalog price budget (.condition c) entity) : Ends strict fun depth =>
      standard.step (standard.contextAt catalog depth level entity) (.condition c) := by
  obtain ⟨left, hleft, hinner⟩ := hfits.of_condition
  have hpos := hpriced.pos (c.demand entity)
  -- A walk pays for the searches on its way.
  have hwalk : (c.operator = .childOf ∨ c.operator = .parentOf) → Pass.IsFlat c.operand →
      ∀ {b}, catalog.Raises ⟨.walk, entity, c.path⟩ b → price b < budget := by
    intro hop hflat b hraises
    have hless := hpriced.raises hentity hraises
    rw [Condition.demand, Condition.need_of_hierarchy hflat hop] at hleft hpos
    omega
  refine ends_stepCondition hhooks hentity ?_ fun hop => ends_hierarchy hentity ?_ ?_
  · intro inner target hoperand hleads
    exact (hlower left (by omega) level target inner (hleads.entity? hentity)
      ((eachMark_condition.1 hmarks).2 inner hoperand)
      (hinner inner target hoperand hleads)).ends_node
  · intro hflat target htarget label
    exact ends_search_leaf hlower (Catalog.entity?_target? hentity htarget) trivial
      (hwalk hop hflat (.seed htarget))
  · intro hflat field target parent hfield htarget hparent ids
    refine ends_search_leaf hlower (Catalog.entity?_target? hentity htarget) trivial ?_
    rw [Condition.demand, Condition.need_of_ids]
    obtain rfl | ⟨rfl, rfl⟩ := hparent
    · exact hwalk hop hflat (.parent hfield htarget)
    · exact hwalk hop hflat (.ownParent hfield)

include hhooks hentity in
theorem outcome_of_changed {depth : Nat} {next : Domain}
    (h : (standard.step (standard.contextAt catalog depth level entity) (.condition c)).result =
      .ok (.changed next)) (hmarks : (Domain.condition c).EachMark (Vouched catalog)) :
    next.EachMark (Vouched catalog) ∧
      Pass.Outcome (standard.contextAt catalog depth level entity) c next := by
  have hsteps := step_eq_ok h
  refine ⟨hsteps.settled hentity (hhooks.of_entity? hentity).hooksCarry
    (fun target d d' htarget hmarks hd' => node_settled hhooks.hooksCarry htarget hmarks hd') hmarks, ?_⟩
  cases hsteps with
  | replaced hsplit hbefore hpass =>
    exact outcome_of_replaced (fun _ => hhooks.of_entity? hentity) (fun _ => hentity) hsplit hbefore
      hpass

include hhooks hentity in
theorem stage_lt_of_changed (howns : entity.OwnsFields) {depth : Nat} {next : Domain}
    (h : Pass.Outcome (standard.contextAt catalog depth level entity) c next)
    (hmarks : (Domain.condition c).EachMark (Vouched catalog)) :
    next.stage catalog level entity < c.stage catalog level entity := by
  refine stage_lt_of_outcome howns h ?_
  intro target inner optimized hinner htarget hoptimized hsame
  constructor
  · intro hsettled
    rw [same_iff.2 (node_canonical_of_settled hsettled hoptimized)] at hsame
    cases hsame
  · exact (node_settled hhooks.hooksCarry (Catalog.entity?_target? hentity htarget)
      ((eachMark_condition.1 hmarks).2 inner hinner) hoptimized).2

variable (halike : catalog.InheritsAlike) (howns : strict = true → entity.OwnsFields)

include hpriced hlower hentity hhooks halike howns in
theorem finishes_condition {K : Condition → Prop}
    (hK : ∀ {ctx : Context} {c c'}, ctx.entity = entity → Pass.Becomes ctx c c' → K c → K c')
    (hdated : ∀ {ctx : Context} {c d}, ctx.entity = entity → K c → Pass.NamesDays ctx c →
      d.Over (Pass.Dated c) → d.EachMark (Vouched catalog) →
      Fits catalog price budget d entity → Finishes strict catalog level entity d)
    (hc : K c) (hmarks : (Domain.condition c).EachMark (Vouched catalog))
    (hfits : Fits catalog price budget (.condition c) entity) :
    Finishes strict catalog level entity (.condition c) := by
  intro changes
  induction changes generalizing c with
  | zero =>
    intro hchanges
    refine ends_settle (ends_step_condition hhooks hentity hpriced hlower hmarks hfits) ?_
    intro depth next hnext
    obtain ⟨-, houtcome⟩ := outcome_of_changed hhooks hentity hnext hmarks
    refine ⟨fun hstrict => ?_, nofun⟩
    have hless := stage_lt_of_changed hhooks hentity (howns hstrict) houtcome hmarks
    exact absurd (hchanges hstrict) (by simp only [Domain.stage]; omega)
  | succ fewer ih =>
    intro hchanges
    refine ends_settle (ends_step_condition hhooks hentity hpriced hlower hmarks hfits) ?_
    intro depth next hnext
    obtain ⟨hmarks', houtcome⟩ := outcome_of_changed hhooks hentity hnext hmarks
    have hless : strict = true → next.stage catalog level entity ≤ fewer := by
      intro hstrict
      have hless := stage_lt_of_changed hhooks hentity (howns hstrict) houtcome hmarks
      have hbound := hchanges hstrict
      simp only [Domain.stage] at hbound
      omega
    have hfits' : Fits catalog price budget next entity :=
      Fits.of_outcome hpriced hentity halike (fun _ _ _ _ htarget hd hd' =>
        node_fits hhooks hpriced halike htarget hd hd') houtcome hfits
    refine ⟨fun _ => Nat.succ_ne_zero fewer, ?_⟩
    rintro _ ⟨⟩
    cases houtcome with
    | becomes hbecomes => exact ih (hK rfl hbecomes hc) hmarks' hfits' hless
    | splits hover =>
      obtain ⟨v, rfl⟩ | ⟨c', hc'⟩ := hover.constant_or_exists
      · exact finishes_constant v fewer hless
      · obtain ⟨hpos, -⟩ := Fits.of_splits hpriced hentity halike hc' hfits
        exact hlower (budget - 1) (by omega) level entity next hentity hmarks'
          (.of_over hover fun c' hc' => (Fits.of_splits hpriced hentity halike hc' hfits).2)
          fewer hless
    | dated hdays hover => exact hdated rfl hc hdays hover hmarks' hfits' fewer hless

end Condition

section Nary

variable (hpriced : catalog.Priced price) (halike : catalog.InheritsAlike)
  (hcalm : ∀ {c : Condition}, c.IsCalm entity →
    (Domain.condition c).EachMark (Vouched catalog) →
    Fits catalog price budget (.condition c) entity →
    Finishes strict catalog level entity (.condition c))

/-- What children need so that a round over them ends. -/
structure AreReady (strict : Bool) (catalog : Catalog) (level : Level) (entity : Entity)
    (price : Demand → Nat) (budget : Nat) (children : List Domain) : Prop where
  ends : ∀ d ∈ children, Finishes strict catalog level entity d
  marks : ∀ d ∈ children, d.EachMark (Vouched catalog)
  fits : ∀ d ∈ children, Fits catalog price budget d entity

variable {children : List Domain}

theorem AreReady.ends_rebuild (h : AreReady strict catalog level entity price budget children) :
    Ends strict fun depth =>
      rebuild k (standard.contextAt catalog depth level entity) children := by
  simp only [rebuild_eq]
  exact .bind (.mapM fun d hd => (h.ends d hd).ends_node) fun _ _ => .of_ok fun _ => rfl

include hpriced halike hhooks hentity hcalm in
theorem AreReady.merged (h : AreReady strict catalog level entity price budget children)
    {depth : Nat} {optimized sorted : List Domain}
    (hoptimized : Forall₂ (fun a b => (node catalog depth standard level entity a).result = .ok b)
      children optimized) (hjoin : sortedJoin k optimized = .nary k sorted none) :
    AreReady strict catalog level entity price budget (mergeAll k entity sorted) := by
  have hall : ∀ d ∈ optimized, (d.EachMark (Vouched catalog) ∧ Settled catalog level d entity) ∧
      Fits catalog price budget d entity := by
    intro d hd
    obtain ⟨a, ha, had⟩ := Pass.exists_of_forall₂ hoptimized hd
    exact ⟨node_settled hhooks.hooksCarry hentity (h.marks a ha) had,
      node_fits hhooks hpriced halike hentity (h.fits a ha) had⟩
  have hchildren : (sortedJoin k optimized).children = sorted := by rw [hjoin]; rfl
  have hmarks : ∀ d ∈ mergeAll k entity sorted, d.EachMark (Vouched catalog) := by
    refine eachMark_mergeAll ?_
    rw [← hchildren]
    exact (eachMark_sortedJoin fun d hd => (hall d hd).1.1).children
  have hfits : ∀ d ∈ mergeAll k entity sorted, Fits catalog price budget d entity := by
    refine (Fits.invariant hpriced).mergeAll ?_
    rw [← hchildren]
    exact (Fits.invariant hpriced).children
      ((Fits.invariant hpriced).sortedJoin fun d hd => (hall d hd).2)
  refine ⟨fun d hd => ?_, hmarks, hfits⟩
  obtain ⟨hne, -⟩ | ⟨sorted', hjoin', -, hsorted, -⟩ :=
    sortedJoin_of_settled (k := k) fun d hd => (hall d hd).1.2
  · rw [hjoin] at hne
    exact absurd rfl hne
  · rw [hjoin, Domain.nary.injEq] at hjoin'
    obtain ⟨-, rfl, -⟩ := hjoin'
    obtain hchild | ⟨c, rfl, hc⟩ | ⟨c, rfl, hc⟩ :=
      mergeAll_cases (fun d hd => (hsorted d hd).1) d hd
    · exact finishes_of_settled (hsorted d hchild).1
    · exact hcalm hc.isCalm (hmarks _ hd) (hfits _ hd)
    · exact hcalm hc.isCalm (hmarks _ hd) (hfits _ hd)

include hpriced halike hhooks hentity hcalm in
theorem AreReady.ends_round (h : AreReady strict catalog level entity price budget children)
    {again : Nat → List Domain → Run Error Step}
    (hagain : ∀ depth optimized sorted,
      Forall₂ (fun a b => (node catalog depth standard level entity a).result = .ok b)
        children optimized → (∀ d ∈ optimized, Settled catalog level d entity) →
      sortedJoin k optimized = .nary k sorted none → mergeAll k entity sorted ≠ sorted →
      AreReady strict catalog level entity price budget (mergeAll k entity sorted) →
      Ends strict fun depth => again depth (mergeAll k entity sorted)) :
    Ends strict fun depth => standard.round k (standard.contextAt catalog depth level entity)
      (again depth) children := by
  unfold round
  simp only [mark_contextAt]
  refine .bind h.ends_rebuild fun rebuilt hrebuilt =>
    .ite (fun _ => .of_ok fun _ => rfl) fun hk => ?_
  obtain ⟨depth, hrebuilt⟩ := hrebuilt.exists
  obtain ⟨optimized, hoptimized, rfl⟩ := rebuild_eq_ok.1 hrebuilt
  have hsettled : ∀ d ∈ optimized, Settled catalog level d entity := by
    intro d hd
    obtain ⟨a, ha, had⟩ := Pass.exists_of_forall₂ hoptimized hd
    exact (node_settled hhooks.hooksCarry hentity (h.marks a ha) had).2
  obtain ⟨hne, -⟩ | ⟨sorted, hjoin, -⟩ := sortedJoin_of_settled (k := k) hsettled
  · exact absurd hne hk
  · have hready := h.merged hhooks hentity hpriced halike hcalm hoptimized hjoin
    rw [hjoin]
    refine .bind (.of_ok (a := mergeAll k entity sorted) fun _ => result_applyMerges _ k sorted)
      fun merged hmerged => ?_
    obtain ⟨_, hmerged⟩ := hmerged.exists
    rw [result_applyMerges, Except.ok.injEq] at hmerged
    subst hmerged
    refine .ite (fun _ => .of_ok fun _ => rfl) fun hsame => .ite (fun _ => ?_) fun _ => ?_
    · exact .bind (.of_ok fun _ => rfl) fun _ _ =>
        .bind hready.ends_rebuild fun _ _ => .of_ok fun _ => rfl
    · refine .bind (.of_ok fun _ => rfl) fun _ _ => ?_
      refine hagain depth optimized sorted hoptimized hsettled hjoin (fun heq => hsame ?_) hready
      exact sameAll_eq_true_iff.2 (congrArg (List.map canonical) heq)

variable (howns : strict = true → entity.OwnsFields)

include hpriced halike hhooks hentity hcalm howns in
/-- The loop over the children of a node ends: three rounds are enough, however many children there
are. -/
theorem AreReady.ends_stepNary {rounds : Nat}
    (h : AreReady strict catalog level entity price budget children)
    (hphase : strict = true → Phase catalog level entity k rounds children) :
    Ends strict fun depth =>
      standard.stepNary k (standard.contextAt catalog depth level entity) rounds children := by
  induction rounds generalizing children with
  | zero =>
    simp only [stepNary_zero]
    refine h.ends_round hhooks hentity hpriced halike hcalm ?_
    intro depth optimized sorted hoptimized hsettled hjoin hne _
    refine .of_error (fun _ => rfl) ?_
    cases hstrict : strict with
    | false => rfl
    | true => exact absurd (phase_next hhooks (howns hstrict) hentity (hphase hstrict) hoptimized
        hsettled hjoin) hne
  | succ rounds ih =>
    simp only [stepNary_succ]
    refine h.ends_round hhooks hentity hpriced halike hcalm ?_
    intro depth optimized sorted hoptimized hsettled hjoin _ hready
    exact ih hready fun hstrict => phase_next hhooks (howns hstrict) hentity (hphase hstrict)
      hoptimized hsettled hjoin

include hpriced halike hhooks hentity hcalm howns in
theorem AreReady.finishes (h : AreReady strict catalog level entity price budget children)
    (mark : Option Mark) : Finishes strict catalog level entity (.nary k children mark) := by
  intro changes _
  refine ends_settle (h.ends_stepNary hhooks hentity hpriced halike hcalm howns
    (fun _ => trivial)) fun depth next hnext => ?_
  cases step_eq_ok hnext

include hpriced halike hhooks hentity hcalm howns in
theorem finishes_of_calm (h : d.Calm catalog level entity) (hmarks : d.EachMark (Vouched catalog))
    (hfits : Fits catalog price budget d entity) : Finishes strict catalog level entity d := by
  induction h with
  | settled hsettled => exact finishes_of_settled hsettled
  | condition hc => exact hcalm hc hmarks hfits
  | @nary k children mark _ ih =>
    have hfits' : ∀ d ∈ children, Fits catalog price budget d entity :=
      (Fits.invariant hpriced).nary.1 hfits
    have hready : AreReady strict catalog level entity price budget children :=
      ⟨fun d hd => ih d hd (hmarks.children d hd) (hfits' d hd), hmarks.children, hfits'⟩
    exact hready.finishes hhooks hentity hpriced halike hcalm howns mark

end Nary

end Catalog

variable (hhooks : catalog.Hookless) (hpriced : catalog.Priced price)
  (halike : catalog.InheritsAlike) (howns : strict = true → catalog.OwnsFields)

include hhooks hpriced halike howns in
/-- Whatever fits a budget can be optimized, since what fits a smaller one can. -/
theorem finishesWithin (budget : Nat) : FinishesWithin strict catalog price budget := by
  induction budget using Nat.strong_induction_on with
  | _ budget hlower =>
    intro level entity d hentity hmarks hfits
    have howns' : strict = true → entity.OwnsFields := fun hstrict =>
      (howns hstrict).of_entity? hentity
    have hcalm : ∀ {c : Condition}, c.IsCalm entity →
        (Domain.condition c).EachMark (Vouched catalog) →
        Fits catalog price budget (.condition c) entity →
        Finishes strict catalog level entity (.condition c) := by
      refine finishes_condition hhooks hentity hpriced hlower halike howns' ?_ ?_
      · rintro ctx c c' rfl hbecomes hc
        exact hc.of_becomes hbecomes
      · rintro ctx c d rfl hc hdays
        exact absurd hdays hc.not_namesDays
    induction d using Domain.induct with
    | constant v => exact finishes_constant v
    | negation inner ih =>
      have hmarks' := eachMark_negation.1 hmarks
      have hfits' := (Fits.invariant hpriced).negation.1 hfits
      refine fun changes hchanges => ends_settle ?_ fun depth next hnext => ?_
      · simp only [step_negation]
        exact .bind (ih hmarks' hfits').ends_node fun _ _ => .of_ok fun _ => rfl
      · cases step_eq_ok hnext with
        | @pushed _ r hr hrigid =>
          obtain ⟨hmarks', hsettled⟩ := node_settled hhooks.hooksCarry hentity hmarks' hr
          have hfits' := node_fits hhooks hpriced halike hentity hfits' hr
          have hless := @stage_of_not_isRigid catalog level entity _ hrigid
          refine ⟨fun hstrict => ?_, ?_⟩
          · have := hchanges hstrict
            simp only [Domain.stage] at this
            omega
          · rintro fewer rfl
            refine finishes_of_calm hhooks hentity hpriced halike hcalm howns' (.negate hsettled)
              hmarks'.negate ((Fits.invariant hpriced).negate hfits') fewer fun hstrict => ?_
            have := hchanges hstrict
            simp only [Domain.stage] at this
            omega
    | nary k children mark ih =>
      have hfits' := (Fits.invariant hpriced).nary.1 hfits
      have hready : AreReady strict catalog level entity price budget children :=
        ⟨fun d hd => ih d hd (hmarks.children d hd) (hfits' d hd), hmarks.children, hfits'⟩
      exact hready.finishes hhooks hentity hpriced halike hcalm howns' mark
    | condition c _ =>
      refine finishes_condition hhooks hentity hpriced hlower halike howns' (K := fun _ => True)
        (fun _ _ _ => trivial) ?_ trivial hmarks hfits
      intro ctx c d _ _ _ hover hmarks hfits
      exact finishes_of_calm hhooks hentity hpriced halike hcalm howns' (.of_dated hover) hmarks
        hfits

include hhooks halike howns in
theorem ends_node (hacyclic : catalog.Acyclic) (hentity : catalog.entity? entity.name = some entity)
    (hmarks : d.EachMark (Vouched catalog)) :
    Ends strict fun depth => node catalog depth standard level entity d := by
  obtain ⟨price, hpriced⟩ := hacyclic.exists_price
  obtain ⟨budget, hfits⟩ : ∃ budget, Fits catalog price budget d entity :=
    Fits.exists_budget d entity
  exact (finishesWithin hhooks hpriced halike howns budget level entity d hentity hmarks
    hfits).ends_node

include hhooks halike howns in
theorem ends_optimizeWithin (hacyclic : catalog.Acyclic)
    (hentity : catalog.entity? entity.name = some entity)
    (hmarks : d.EachMark (Vouched catalog)) :
    Ends strict fun depth => standard.optimizeWithin depth catalog level entity d :=
  .bind (ends_node hhooks halike howns hacyclic hentity hmarks) fun _ _ =>
    .bind (.of_ok fun _ => rfl) fun _ _ => .of_ok fun _ => rfl

/-- Optimizing comes back with one and the same outcome from some depth on, wherever no chain of
demands goes on for ever and inherited fields are like their originals. -/
theorem optimize_comes_back (hhooks : catalog.Hookless) (halike : catalog.InheritsAlike)
    (hacyclic : catalog.Acyclic) (hentity : catalog.entity? entity.name = some entity)
    (hd : d.unmarked = d) :
    ∃ r enough, r ≠ .error .tooDeep ∧ ∀ depth ≥ enough,
      (standard.optimizeWithin depth catalog level entity d).result = r := by
  have hmarks : d.EachMark (Vouched catalog) := hd ▸ eachMark_mapValues id d
  obtain ⟨r, ⟨enough, hr⟩, herror⟩ : Ends false fun depth =>
      standard.optimizeWithin depth catalog level entity d :=
    ends_optimizeWithin hhooks halike nofun hacyclic hentity hmarks
  refine ⟨r, enough, ?_, hr⟩
  rintro rfl
  cases herror .tooDeep rfl

/-- Products have the names of their templates, lines those of their products. -/
def shop : Catalog where
  entities := [
    { name := "template", fields := [{ name := "name", type := .char }] },
    { name := "product", fields := [.many2one "template_id" "template",
      { name := "name", type := .char, delegatedVia := some "template_id", stored := false }] },
    { name := "line", recName := "product_id", fields :=
      [.many2one "product_id" "product", .many2one "parent_id" "line"] }]

/-- Searching lines by label asks for products and then for templates, and no further. -/
theorem optimize_comes_back_shop : ∃ line, shop.entity? "line" = some line ∧
    shop.Hookless ∧ shop.InheritsAlike ∧ shop.Acyclic ∧
    let d : Domain := .nary .or [.leaf "product_id" .ilike (.scalar (.text "pen")),
      .leaf "parent_id" .childOf (.scalar (.text "ink"))] none
    ∃ r enough, r ≠ .error .tooDeep ∧ ∀ depth ≥ enough,
      (standard.optimizeWithin depth shop .sql line d).result = r := by
  let rank (e : Entity) : Nat := ["template", "product", "line"].idxOf e.name
  have hhooks : shop.Hookless := by
    unfold Catalog.Hookless Entity.Hookless
    decide
  have hfounded : shop.IsFounded := Catalog.isFounded_of_rank rank (by decide)
    (by decide) (by decide) (by decide)
  refine ⟨_, rfl, hhooks, hfounded.alike, hfounded.acyclic, ?_⟩
  exact optimize_comes_back hhooks hfounded.alike hfounded.acyclic rfl rfl

theorem settle_of_changed {o : Optimizer} {ctx : Context} {changes : Nat} {d next : Domain}
    (hcovered : covered ctx d = false) (h : (o.step ctx d).result = .ok (.changed next)) :
    (o.settle ctx (changes + 1) d).result = (o.settle ctx changes next).result := by
  rw [settle_succ, turn, Run.result_bind, result_isSettled, hcovered]
  simp only [Except.bind, Bool.false_eq_true, if_false]
  rw [Run.result_bind, h]
  rfl

theorem settle_of_error {o : Optimizer} {ctx : Context} {changes : Nat} {d : Domain} {e : Error}
    (hcovered : covered ctx d = false) (h : (o.step ctx d).result = .error e) :
    (o.settle ctx changes d).result = .error e := by
  rw [settle.eq_def, Run.result_bind, result_isSettled, hcovered]
  simp only [Except.bind, Bool.false_eq_true, if_false]
  rw [Run.result_bind, h]
  rfl

/-- Records that are named by records of their own entity have no label: the search for one goes on
for ever, whatever depth it is given. -/
theorem optimize_self_named :
    let item : Entity := { name := "a", recName := "a_id", fields := [.many2one "a_id" "a"] }
    let catalog : Catalog := { entities := [item] }
    let d : Domain := .leaf "a_id" .mem (.set ⟨[.text "x"]⟩)
    catalog.Hookless ∧ catalog.entity? item.name = some item ∧ d.unmarked = d ∧ ∀ depth,
      (standard.optimizeWithin depth catalog .basic item d).result = .error .tooDeep := by
  intro item catalog d
  refine ⟨?_, rfl, rfl, fun depth => ?_⟩
  · unfold Catalog.Hookless Entity.Hookless
    simp [catalog, item, Field.many2one]
  suffices h : (node catalog depth standard .basic item d).result = .error .tooDeep by
    rw [optimizeWithin, conclude, Run.result_bind, h]
    rfl
  induction depth with
  | zero => rfl
  | succ depth ih =>
    let ctx := standard.contextAt catalog depth .basic item
    let c : Condition := ⟨"a_id", .any, .domain d, none⟩
    have hlabels : (standard.step ctx d).result = .ok (.changed (.condition c)) := by cbv
    have hrelated : (Pass.relatedDomain c ctx).result = .error .tooDeep := by
      have hfield : ctx.field c = .ok (.many2one "a_id" "a") := by cbv
      have htarget : ctx.target c (.many2one "a_id" "a") = .ok item := by cbv
      simp only [Pass.relatedDomain, Run.result_bind, Run.result_liftM, hfield, htarget, Except.bind]
      change (ctx.nested item d >>= _).result = _
      rw [Run.result_bind]
      change (node catalog depth standard .basic item d).result.bind _ = _
      rw [ih]
      rfl
    have hstep : (standard.step ctx (.condition c)).result = .error .tooDeep := by
      have hcandidates : standard.candidates ctx c = [⟨"resolve_field", Pass.resolvePath⟩,
          ⟨"traverse_relation", Pass.relatedDomain⟩] := by cbv
      have hresolved : (Pass.resolvePath c ctx).result = .ok none := by cbv
      change (standard.stepCondition ctx c).result = _
      rw [stepCondition, hcandidates]
      simp [firstChange, Run.result_bind, hresolved, hrelated, Except.bind]
    rw [node_succ]
    change (standard.settle ctx (999 + 1) d).result = _
    rw [settle_of_changed rfl hlabels, settle_of_error rfl hstep]

/-- Without inherited fields, only names of records can make demands go on for ever. -/
theorem isFounded_of_ownsFields (howns : catalog.OwnsFields)
    (hid : ∀ entity ∈ catalog.entities, ∀ field ∈ entity.fields,
      field.name = Entity.idName → field.isRelational = false)
    (hname : ∀ entity ∈ catalog.entities, '.' ∉ entity.recName.toList)
    (hcycle : ∀ entity, ¬Relation.TransGen catalog.NamedBy entity entity) : catalog.IsFounded := by
  have hdelegated : ∀ {entity : Entity} {name field link},
      catalog.entity? entity.name = some entity → entity.field? name = some field →
      field.delegatedVia ≠ some link := by
    intro entity name field link hentity hfield hlink
    rw [(howns.of_entity? hentity).of_field? hfield] at hlink
    cases hlink
  refine ⟨hid, hname, ?_, ?_, hcycle, ?_⟩
  · intro entity hentity field hfield link hlink
    rw [howns entity hentity field hfield] at hlink
    cases hlink
  · intro entity field link owner original hentity hfield hlink
    exact absurd hlink (hdelegated hentity hfield)
  · intro entity hpath
    obtain ⟨_, ⟨hentity, _, _, _, hfield, hlink, _⟩, -⟩ := Relation.TransGen.head'_iff.1 hpath
    exact hdelegated hentity hfield hlink

/-- No domain is changed too often, and none needs endless depth, where no field is inherited,
identifiers are no relations and names of records lead to other records, but not in a circle. -/
theorem optimize_never_diverges (hhooks : catalog.Hookless)
    (howns : catalog.OwnsFields)
    (hid : ∀ entity ∈ catalog.entities, ∀ field ∈ entity.fields,
      field.name = Entity.idName → field.isRelational = false)
    (hname : ∀ entity ∈ catalog.entities, '.' ∉ entity.recName.toList)
    (hcycle : ∀ entity, ¬Relation.TransGen catalog.NamedBy entity entity)
    (hentity : catalog.entity? entity.name = some entity) (hd : d.unmarked = d) :
    ∃ r enough, r ≠ .error .tooDeep ∧ (∀ changes, r ≠ .error (.diverged changes)) ∧
      ∀ depth ≥ enough, (standard.optimizeWithin depth catalog level entity d).result = r := by
  have hfounded := isFounded_of_ownsFields howns hid hname hcycle
  have hmarks : d.EachMark (Vouched catalog) := hd ▸ eachMark_mapValues id d
  obtain ⟨r, ⟨enough, hr⟩, herror⟩ : Ends true fun depth =>
      standard.optimizeWithin depth catalog level entity d :=
    ends_optimizeWithin hhooks hfounded.alike (fun _ => howns) hfounded.acyclic hentity hmarks
  refine ⟨r, enough, ?_, ?_, hr⟩
  · rintro rfl
    cases herror .tooDeep rfl
  · rintro changes rfl
    cases herror (.diverged changes) rfl

/-- Lines are named by their orders, and orders are linked to each other and to their lines. -/
def orders : Catalog where
  entities := [
    { name := "order", recName := "code", fields := [{ name := "code", type := .char },
      .many2one "parent_id" "order",
      { name := "lines", type := .one2many, comodel := some "line",
        inverseName := some "order_id" }] },
    { name := "line", recName := "order_id", fields := [.many2one "order_id" "order"] }]

/-- A search by labels along a circle of relations, in a negation, is not changed too often. -/
theorem optimize_never_diverges_orders : ∃ order, orders.entity? "order" = some order ∧
    orders.Hookless ∧ orders.OwnsFields ∧
    (∀ entity, ¬Relation.TransGen orders.NamedBy entity entity) ∧
    let d : Domain := .negation (.nary .and [.leaf "lines.order_id.lines" .equal (.scalar (.text "x")),
      .leaf "parent_id" .childOf (.set ⟨[.text "y", .int 1]⟩)] none)
    ∃ r enough, r ≠ .error .tooDeep ∧ (∀ changes, r ≠ .error (.diverged changes)) ∧
      ∀ depth ≥ enough, (standard.optimizeWithin depth orders .sql order d).result = r := by
  have hhooks : orders.Hookless := by
    unfold Catalog.Hookless Entity.Hookless
    decide
  have howns : orders.OwnsFields := by
    unfold Catalog.OwnsFields Entity.OwnsFields
    decide
  have hnames : orders.NamesGoDown fun e => ["order", "line"].idxOf e.name := by decide
  refine ⟨_, rfl, hhooks, howns, hnames.noNameCycle, ?_⟩
  exact optimize_never_diverges hhooks howns (by decide) (by decide) hnames.noNameCycle rfl rfl

end QueryDomain.Optimizer
