import QueryDomain.Proofs.Optimization.Invariant
import QueryDomain.Proofs.Schema.Demands

/-! Budgets. A domain fits a budget if no condition in it demands more; a traversal pays for its
field and leaves the rest to the domain inside. Optimizing never needs a greater budget, and where a
condition is split over other fields or entities, a smaller one is enough. -/
namespace QueryDomain

open List

theorem exists_common_bound {α : Type} {Q : Nat → α → Prop} {as : List α}
    (hmono : ∀ {a n m}, n ≤ m → Q n a → Q m a) (h : ∀ a ∈ as, ∃ n, Q n a) :
    ∃ n, ∀ a ∈ as, Q n a := by
  induction as with
  | nil => exact ⟨0, by simp⟩
  | cons a as ih =>
    rw [forall_mem_cons] at h
    obtain ⟨n, hn⟩ := h.1
    obtain ⟨m, hm⟩ := ih h.2
    refine ⟨max n m, forall_mem_cons.2 ⟨hmono (Nat.le_max_left n m) hn, fun b hb => ?_⟩⟩
    exact hmono (Nat.le_max_right n m) (hm b hb)

/-- What an operator needs a field for, if it is compared with labels or not. -/
def Operator.need (labels : Bool) : Operator → Need
  | less | greater | lessOrEqual | greaterOrEqual => .compare
  | mem | notMem => if labels then .name else .compare
  | childOf | parentOf => .walk
  | _ => .name

def Condition.need (c : Condition) : Need :=
  match c.operand with
  | .domain _ | .query _ => .follow
  | x => c.operator.need (x.literals.any Pass.isLabel)

def Condition.demand (c : Condition) (entity : Entity) : Demand := ⟨c.need, entity, c.path⟩

namespace Condition

variable {c : Condition}

theorem need_of_domain {inner : Domain} (h : c.operand = .domain inner) : c.need = .follow := by
  rw [need, h]

theorem need_of_flat (h : Pass.IsFlat c.operand) :
    c.need = c.operator.need (c.operand.literals.any Pass.isLabel) := by
  unfold need
  cases hoperand : c.operand <;> rw [hoperand] at h <;> first
    | rfl
    | exact h.elim

theorem need_of_ordering (h : Pass.IsFlat c.operand) (hop : c.operator.isOrdering = true) :
    c.need = .compare := by
  rw [need_of_flat h]
  cases hoperator : c.operator <;> rw [hoperator] at hop <;> cases hop <;> rfl

theorem need_of_hierarchy (h : Pass.IsFlat c.operand)
    (hop : c.operator = .childOf ∨ c.operator = .parentOf) : c.need = .walk := by
  rw [need_of_flat h]
  obtain hop | hop := hop <;> rw [hop] <;> rfl

theorem need_withOperator_of_equality {op : Operator} (hfamily : c.operator.family = .equality)
    (hop : op = .equal ∨ op = .notEqual) : (c.withOperator op).need = c.need := by
  unfold need withOperator
  cases hoperator : c.operator <;> rw [hoperator] at hfamily <;> first
    | obtain rfl | rfl := hop <;> rfl
    | cases hfamily

theorem need_of_members {values : ValueSet} (h : c.operand = .set values)
    (hop : c.operator.isMembership = true)
    (hlabels : ∀ v ∈ values.values, Pass.isLabel v = false) : c.need = .compare := by
  have hany : c.operand.literals.any Pass.isLabel = false := by
    simpa [h, Operand.literals] using hlabels
  rw [need_of_flat (by rw [h]; trivial), hany]
  cases hoperator : c.operator <;> rw [hoperator] at hop <;> cases hop <;> rfl

theorem need_of_ids {path : String} {ids : List Int} :
    (⟨path, .mem, .set (.ofList (ids.map Value.int)), none⟩ : Condition).need = .compare := by
  refine need_of_members rfl rfl fun v hv => ?_
  obtain ⟨id, -, rfl⟩ := mem_map.1 ((ValueSet.fresh_sublist [] _).mem hv)
  rfl

theorem need_of_set {values : ValueSet} (h : c.operand = .set values)
    (hop : c.operator.isMembership = true) : c.need = .name ∨ c.need = .compare := by
  rw [need_of_flat (by rw [h]; trivial)]
  cases c.operand.literals.any Pass.isLabel <;> cases hoperator : c.operator <;>
    rw [hoperator] at hop <;> first
      | exact .inl rfl
      | exact .inr rfl
      | cases hop

theorem need_of_namesLabels (h : Pass.namesLabels c = true) : c.need = .name := by
  unfold Pass.namesLabels at h
  split at h
  · rename_i values hvalues
    rw [Bool.and_eq_true] at h
    rw [need_of_flat (by rw [hvalues]; trivial), hvalues, Operand.literals, h.2]
    cases hop : c.operator <;> rw [hop] at h <;> first
      | rfl
      | cases h.1
  · rename_i text htext
    rw [need_of_flat (by rw [htext]; trivial)]
    cases hop : c.operator <;> rw [hop] at h <;> first
      | rfl
      | cases h
  · cases h

theorem need_withOperator_inverse {op : Operator} (h : c.operator.inverse? = some op) :
    (c.withOperator op).need = c.need := by
  unfold need withOperator
  cases hoperator : c.operator <;> rw [hoperator] at h <;> cases h <;> rfl

end Condition

/-- No condition demands more than the budget, and inside a traversal no more than it leaves. -/
inductive Domain.Fits (catalog : Catalog) (price : Demand → Nat) : Nat → Domain → Entity → Prop
  | constant (budget v entity) : Fits catalog price budget (.constant v) entity
  | negation {budget d entity} : Fits catalog price budget d entity →
      Fits catalog price budget (.negation d) entity
  | nary {budget k children mark entity} : (∀ d ∈ children, Fits catalog price budget d entity) →
      Fits catalog price budget (.nary k children mark) entity
  | condition {budget left c entity} : price (c.demand entity) + left ≤ budget →
      (∀ inner target, c.operand = .domain inner → catalog.Leads entity c.path target →
        Fits catalog price left inner target) →
      Fits catalog price budget (.condition c) entity

namespace Domain.Fits

variable {catalog : Catalog} {price : Demand → Nat} {budget : Nat} {entity : Entity}
  {c c' : Condition} {d : Domain}

theorem mono (h : Fits catalog price budget d entity) {more : Nat} (hle : budget ≤ more) :
    Fits catalog price more d entity := by
  induction h with
  | constant budget v entity => exact .constant more v entity
  | negation _ ih => exact .negation (ih hle)
  | nary _ ih => exact .nary fun d hd => ih d hd hle
  | condition hprice hinner _ => exact .condition (hprice.trans hle) hinner

theorem flat (h : price (c.demand entity) ≤ budget) (hflat : ∀ inner, c.operand ≠ .domain inner) :
    Fits catalog price budget (.condition c) entity :=
  .condition (show price (c.demand entity) + 0 ≤ budget from h) fun inner _ hoperand =>
    absurd hoperand (hflat inner)

theorem traversal {path : String} {operator : Operator} {inner : Domain} {left : Nat}
    (h : price ⟨.follow, entity, path⟩ + left ≤ budget)
    (hinner : ∀ target, catalog.Leads entity path target →
      Fits catalog price left inner target) :
    Fits catalog price budget (.condition ⟨path, operator, .domain inner, none⟩) entity := by
  refine .condition (c := ⟨path, operator, .domain inner, none⟩) h fun inner' target hoperand => ?_
  cases hoperand
  exact hinner target

theorem of_condition (h : Fits catalog price budget (.condition c) entity) :
    ∃ left, price (c.demand entity) + left ≤ budget ∧
      ∀ inner target, c.operand = .domain inner → catalog.Leads entity c.path target →
        Fits catalog price left inner target := by
  cases h with
  | condition hprice hinner => exact ⟨_, hprice, hinner⟩

theorem exists_budget (d : Domain) :
    ∀ entity : Entity, ∃ budget, Fits catalog price budget d entity := by
  induction d using Domain.induct with
  | constant v => exact fun entity => ⟨0, .constant 0 v entity⟩
  | negation d ih =>
    intro entity
    obtain ⟨budget, h⟩ := ih entity
    exact ⟨budget, .negation h⟩
  | nary k children mark ih =>
    intro entity
    obtain ⟨budget, h⟩ : ∃ budget, ∀ d ∈ children, Fits catalog price budget d entity :=
      exists_common_bound (fun hle h => h.mono hle) fun d hd => ih d hd entity
    exact ⟨budget, .nary h⟩
  | condition c ih =>
    intro entity
    by_cases hdomain : ∃ inner, c.operand = .domain inner
    · obtain ⟨inner, hinner⟩ := hdomain
      obtain ⟨left, h⟩ : ∃ left, ∀ target ∈ entity :: catalog.entities,
          Fits catalog price left inner target :=
        exists_common_bound (fun hle h => h.mono hle) fun target _ => ih inner hinner target
      refine ⟨_, .condition (Nat.le_refl (price (c.demand entity) + left)) ?_⟩
      intro inner' target hinner' hleads
      rw [hinner, Operand.domain.injEq] at hinner'
      exact hinner' ▸ h target hleads.mem
    · exact ⟨_, .flat (Nat.le_refl _) fun inner hinner => hdomain ⟨inner, hinner⟩⟩

theorem of_demand (h : Fits catalog price budget (.condition c) entity)
    (hprice : price (c'.demand entity) ≤ price (c.demand entity)) (hpath : c'.path = c.path)
    (hinner : ∀ inner, c'.operand = .domain inner → c.operand = .domain inner) :
    Fits catalog price budget (.condition c') entity := by
  obtain ⟨left, hleft, hfits⟩ := h.of_condition
  have hle : price (c'.demand entity) + left ≤ budget := by omega
  refine .condition hle fun inner target hoperand hleads => ?_
  exact hfits inner target (hinner inner hoperand) (hpath ▸ hleads)

theorem apply {k : Connective} {ds : List Domain}
    (h : ∀ d ∈ ds, Fits catalog price budget d entity) :
    Fits catalog price budget (k.apply ds) entity := by
  refine Connective.forall_apply (Q := fun d => Fits catalog price budget d entity)
    (fun v => .constant budget v entity) ⟨fun hd => ?_, .nary⟩ h
  cases hd with
  | nary hchildren => exact hchildren

theorem of_over {Q : Condition → Prop} (h : d.Over Q)
    (hQ : ∀ c, Q c → Fits catalog price budget (.condition c) entity) :
    Fits catalog price budget d entity := by
  induction h with
  | constant v => exact .constant _ v _
  | nary _ _ _ ih => exact .nary ih
  | condition hc => exact hQ _ hc

section Priced

variable (hpriced : catalog.Priced price)

include hpriced

theorem invariant : Optimizer.Invariant (Fits catalog price) where
  constant := .constant
  negation := ⟨fun h => by cases h; assumption, .negation⟩
  nary := ⟨fun h => by cases h; assumption, .nary⟩
  remark mark h := h.of_demand (Nat.le_refl _) rfl fun _ h => h
  inverse h hop := by
    refine h.of_demand (Nat.le_of_eq ?_) rfl fun _ h => h
    unfold Condition.demand
    rw [Condition.need_withOperator_inverse hop]
    rfl
  members {budget path entity op values run} hset hall hop hvalues _ := by
    refine .flat ?_ nofun
    -- Labels come from a condition that had to pay for labels.
    by_cases hlabels : ∀ v ∈ values.values, Pass.isLabel v = false
    · obtain ⟨c, hc, values', hoperand⟩ := hset
      obtain ⟨hfits, rfl, hmember⟩ := hall c hc
      obtain ⟨left, hleft, -⟩ := hfits.of_condition
      have hcompare := hpriced.compare_le entity c.path
      unfold Condition.demand at hleft ⊢
      rw [Condition.need_of_members rfl hop hlabels]
      obtain hneed | hneed := c.need_of_set hoperand hmember <;> rw [hneed] at hleft
      · dsimp only
        omega
      · dsimp only
        omega
    · push Not at hlabels
      obtain ⟨v, hv, hlabel⟩ := hlabels
      obtain ⟨c, hc, values', hoperand, hv'⟩ := hvalues v hv
      obtain ⟨hfits, rfl, hmember⟩ := hall c hc
      have hnames : ∀ (c : Condition) (values : ValueSet), c.operand = .set values →
          c.operator.isMembership = true → v ∈ values.values → c.need = .name := by
        intro c values hoperand hop hv
        refine Condition.need_of_namesLabels ?_
        unfold Pass.namesLabels
        rw [hoperand]
        dsimp only
        rw [hop, Bool.true_and, any_eq_true]
        exact ⟨v, hv, by simpa using hlabel⟩
      obtain ⟨left, hleft, -⟩ := hfits.of_condition
      unfold Condition.demand at hleft ⊢
      rw [hnames c values' hoperand hmember hv'] at hleft
      rw [hnames ⟨c.path, op, .set values, none⟩ values rfl hop hv]
      dsimp only
      omega
  inners {budget k c entity ds} hop hdomain h hall := by
    obtain ⟨inner, hinner⟩ := hdomain
    obtain ⟨left, hleft, -⟩ := h.of_condition
    have hneed : ∀ inner, (c.withOperand (.domain inner)).demand entity = c.demand entity := by
      intro inner'
      unfold Condition.demand
      rw [Condition.need_of_domain hinner]
      rfl
    have hle : price (c.demand entity) + (budget - price (c.demand entity)) ≤ budget := by omega
    refine .condition (by rwa [hneed]) fun inner' target hoperand hleads => ?_
    cases hoperand
    refine .apply fun d hd => ?_
    obtain ⟨left', hleft', hfits⟩ := (hall d hd).of_condition
    rw [hneed] at hleft'
    exact (hfits d target rfl hleads).mono (by omega)

end Priced

theorem of_need (hpriced : catalog.Priced price)
    (h : Fits catalog price budget (.condition c) entity)
    (hpath : c'.path = c.path) (hflat : ∀ inner, c'.operand ≠ .domain inner)
    (hneed : c'.need = c.need ∨ (c.need = .name ∧ c'.need = .compare)) :
    Fits catalog price budget (.condition c') entity := by
  refine h.of_demand ?_ hpath fun inner hinner => absurd hinner (hflat inner)
  unfold Condition.demand
  rw [hpath]
  obtain hneed | ⟨hname, hcompare⟩ := hneed
  · rw [hneed]
  · rw [hname, hcompare]
    exact hpriced.compare_le entity c.path

section Outcome

variable {ctx : Context}
  (hpriced : ctx.catalog.Priced price)
  (hentity : ctx.catalog.entity? ctx.entity.name = some ctx.entity)

include hpriced hentity in
theorem of_becomes
    (hnested : ∀ budget target d d', ctx.catalog.entity? target.name = some target →
      Fits ctx.catalog price budget d target → (ctx.nested target d).result = .ok d' →
      Fits ctx.catalog price budget d' target)
    (h : Pass.Becomes ctx c c') (hc : Fits ctx.catalog price budget (.condition c) ctx.entity) :
    Fits ctx.catalog price budget (.condition c') ctx.entity := by
  cases h with
  | @modernized op _ hfamily hop =>
    refine hc.of_demand (Nat.le_of_eq ?_) rfl fun _ h => h
    unfold Condition.demand
    rw [Condition.need_withOperator_of_equality hfamily hop]
    rfl
  | @equated op hop hmember =>
    by_cases hflat : Pass.IsFlat c.operand
    · have hname : c.need = .name := by
        rw [Condition.need_of_flat hflat]
        obtain hop | hop := hop <;> rw [hop] <;> rfl
      have hset : ∃ values, Pass.asMembers c.operand = .set values := by
        cases hoperand : c.operand <;> rw [hoperand] at hflat <;> first
          | exact ⟨_, rfl⟩
          | exact hflat.elim
      obtain ⟨values, hset⟩ := hset
      rw [hset]
      refine hc.of_need hpriced rfl nofun ?_
      rw [hname]
      exact (Condition.need_of_set rfl hmember).imp_right fun h => ⟨rfl, h⟩
    · have hoperand : Pass.asMembers c.operand = c.operand := by
        cases hoperand : c.operand <;> rw [hoperand] at hflat <;> first
          | rfl
          | exact absurd trivial hflat
      rw [hoperand]
      refine hc.of_demand (Nat.le_of_eq ?_) rfl fun _ h => h
      unfold Condition.demand Condition.need
      cases hoperand : c.operand <;> rw [hoperand] at hflat <;> first
        | rfl
        | exact absurd trivial hflat
  | @listed value hop hvalue =>
    refine hc.of_need hpriced rfl nofun (.inl ?_)
    rw [Condition.need_of_flat (c := c) (by rw [hvalue]; trivial), hvalue]
    rfl
  | @entered op hop htraversal hoperand =>
    refine hc.of_demand (Nat.le_of_eq ?_) rfl fun _ h => h
    unfold Condition.demand Condition.need Condition.withOperator
    obtain ⟨inner, hinner⟩ | ⟨query, hquery⟩ := hoperand
    · rw [hinner]
    · rw [hquery]
  | @unmatched value hop hvalue =>
    refine hc.of_need hpriced rfl nofun (.inr ⟨?_, Condition.need_of_members rfl rfl Pass.isLabel_unset⟩)
    rw [Condition.need_of_flat (by rw [hvalue]; trivial)]
    cases hoperator : c.operator <;> rw [hoperator] at hop <;> first
      | rfl
      | cases hop
  | @ordered type x op _ _ hop hop' hflat hflat' _ _ _ =>
    refine hc.of_need hpriced rfl ?_ (.inl ?_)
    · rintro inner rfl
      exact hflat'
    · rw [Condition.need_of_ordering hflat hop]
      exact Condition.need_of_ordering hflat' hop'
  | @members type values members op _ _ hop hop' hvalues _ _ htyped =>
    refine hc.of_need hpriced rfl nofun ?_
    rw [Condition.need_of_members (c := ⟨c.path, op, .set members, none⟩) rfl hop'
      (Pass.isLabel_of_isTyped htyped)]
    obtain hneed | hneed := c.need_of_set hvalues hop
    · exact .inr ⟨hneed, rfl⟩
    · exact .inl hneed.symm
  | @unrelated inner op htype hrest hop hinner hop' =>
    refine hc.of_demand ?_ rfl nofun
    unfold Condition.demand
    rw [Condition.need_of_members (c := ⟨c.path, op, .set .unset, none⟩) rfl hop' Pass.isLabel_unset,
      Condition.need_of_domain hinner]
    obtain ⟨field, hfield, hmany2one⟩ := Option.map_eq_some_iff.1 htype
    have hprice := hpriced.raises hentity (.unset hrest hfield hmany2one)
    dsimp only
    omega
  | @related field target inner optimized hop hfield hrest htarget hinner hoptimized _ =>
    obtain ⟨left, hleft, hfits⟩ := hc.of_condition
    unfold Condition.demand at hleft
    rw [Condition.need_of_domain hinner] at hleft
    refine .traversal hleft fun target' hleads => ?_
    have htarget' : target = target' :=
      Option.some.inj (htarget.symm.trans (hleads.of_end hfield hrest))
    rw [← htarget']
    exact hnested left target inner optimized (Catalog.entity?_target? hentity htarget)
      (hfits inner target hinner (Catalog.leads_of_target? hfield hrest htarget)) hoptimized

include hpriced in
theorem of_dated (hdays : Pass.NamesDays ctx c) (h : Pass.Dated c c')
    (hc : Fits ctx.catalog price budget (.condition c) ctx.entity) :
    Fits ctx.catalog price budget (.condition c') ctx.entity := by
  have hneed : c.need = .name ∨ c.need = .compare := by
    obtain ⟨-, hcompares, values, hvalues, -⟩ := hdays
    simp only [Pass.comparesLiterals, Bool.and_eq_true, Bool.or_eq_true] at hcompares
    obtain hop | hop := hcompares.2
    · exact .inr (Condition.need_of_ordering (by rw [hvalues]; trivial) hop)
    · exact c.need_of_set hvalues hop
  have hcompare : c'.need = .compare := by
    cases h with
    | bound hop => exact Condition.need_of_ordering trivial hop
    | moments hop hmoments _ _ =>
      refine Condition.need_of_members rfl hop fun v hv => ?_
      have := hmoments v hv
      cases v <;> simp_all [Pass.isMoment, Pass.isLabel]
  refine hc.of_need hpriced (by cases h <;> rfl) ?_ ?_
  · intro inner
    cases h <;> simp
  · rw [hcompare]
    exact hneed.elim (fun h => .inr ⟨h, rfl⟩) fun h => .inl h.symm

theorem lt_of_raises {catalog : Catalog} (hpriced : catalog.Priced price) {a b : Demand}
    (ha : catalog.entity? a.entity.name = some a.entity) (hb : catalog.Raises a b) {left : Nat}
    (hleft : price a + left ≤ budget) :
    0 < budget ∧ price b + (price a / 3 + left) ≤ budget - 1 := by
  have hpos := hpriced.pos a
  have hprice := hpriced.raises ha hb
  omega

theorem le_of_raises {catalog : Catalog} (hpriced : catalog.Priced price) {a b : Demand}
    (ha : catalog.entity? a.entity.name = some a.entity) (hb : catalog.Raises a b) :
    price b ≤ price a / 3 := by
  have hprice := hpriced.raises ha hb
  omega

theorem of_found (hfound : Pass.Found c) {target : Entity}
    (hids : price ⟨.compare, target, Entity.idName⟩ ≤ budget)
    (hpaths : price ⟨.name, target, Entity.parentPath⟩ ≤ budget) :
    Fits catalog price budget (.condition c) target := by
  cases hfound with
  | ids ids =>
    refine .flat ?_ nofun
    unfold Condition.demand
    rwa [Condition.need_of_ids]
  | below path => exact .flat hpaths nofun

include hpriced hentity in
theorem of_splits (halike : ctx.catalog.InheritsAlike) (h : Pass.Splits ctx c c')
    (hc : Fits ctx.catalog price budget (.condition c) ctx.entity) :
    0 < budget ∧ Fits ctx.catalog price (budget - 1) (.condition c') ctx.entity := by
  obtain ⟨left, hleft, hfits⟩ := hc.of_condition
  unfold Condition.demand at hleft
  have hplain : ∀ {field : Field}, ctx.entity.field? c.head = some field → ∀ target,
      ctx.catalog.Leads ctx.entity field.name target →
      ctx.catalog.target? ctx.entity c.path = some target := by
    intro field hfield target hleads
    exact hleads.of_head hfield
  cases h with
  | @crossed field rest hfield hrest hrelational =>
    obtain ⟨hpos, hle⟩ := lt_of_raises hpriced hentity (.head hrest hfield hrelational) hleft
    refine ⟨hpos, .traversal hle fun target hleads => ?_⟩
    have htarget := hplain hfield target hleads
    have hraises : ctx.catalog.Raises ⟨c.need, ctx.entity, c.path⟩ ⟨c.need, target, rest⟩ :=
      .rest hrest hfield hrelational htarget
    have hprice := le_of_raises hpriced hentity hraises
    refine .condition (c := ⟨rest, c.operator, c.operand, none⟩)
      (Nat.add_le_add_right hprice left) ?_
    intro inner target' hinner hleads'
    exact hfits inner target' hinner (.through hrest hfield hrelational htarget hleads')
  | @labelled field comodel op op' x hfield hrest hrelational hcomodel hnames hop hx =>
    rw [Condition.need_of_namesLabels hnames] at hleft
    obtain ⟨hpos, hle⟩ := lt_of_raises hpriced hentity (.relation hrest hfield hrelational) hleft
    refine ⟨hpos, .traversal hle fun target hleads => ?_⟩
    have hprice := le_of_raises hpriced hentity (.label hrest hfield hrelational
      (Catalog.comodel_eq_ok.1 hcomodel) (hleads.of_plain hrest))
    have hcompare := hpriced.compare_le target comodel.recName
    refine .flat ?_ (by obtain ⟨_, _, rfl, _⟩ | ⟨_, _, rfl⟩ := hx <;> simp)
    unfold Condition.demand
    dsimp only
    obtain ⟨labels, rfl, rfl, -⟩ | ⟨label, hpattern, rfl⟩ := hx
    · obtain hneed | hneed := Condition.need_of_set
        (c := ⟨comodel.recName, .mem, .set (.ofList labels), none⟩) rfl rfl <;> rw [hneed] <;> omega
    · have hneed : (⟨comodel.recName, op', .scalar (.text label), none⟩ : Condition).need = .name :=
        Condition.need_of_namesLabels hpattern
      rw [hneed]
      omega
  | @identified field op members hfield hrest hrelational hnames hmember hop hids _ =>
    rw [Condition.need_of_namesLabels hnames] at hleft
    obtain ⟨hpos, hle⟩ := lt_of_raises hpriced hentity .compared hleft
    refine ⟨hpos, .flat ?_ (by simp)⟩
    unfold Condition.demand
    rw [Condition.need_of_members rfl hop hids.noLabel]
    dsimp only at hle ⊢
    omega
  | @listed field op values members hfield hrest htype hmember hvalues hlabels hop hids =>
    have hneed : c.need = .compare := by
      refine Condition.need_of_members hvalues hmember ?_
      simpa [Pass.namesLabels, hvalues, hmember] using hlabels
    rw [hneed] at hleft
    obtain ⟨hpos, hle⟩ := lt_of_raises hpriced hentity (.members hrest hfield htype) hleft
    refine ⟨hpos, .traversal hle fun target hleads => .flat ?_ (by simp)⟩
    have hprice := le_of_raises hpriced hentity (.ids hrest hfield htype (hleads.of_plain hrest))
    unfold Condition.demand
    rw [Condition.need_of_members rfl rfl hids.noLabel]
    dsimp only
    omega
  | @unlisted field op values hfield hrest htype hmember hvalues hlabels hop =>
    have hneed : c.need = .compare := by
      refine Condition.need_of_members hvalues hmember ?_
      simpa [Pass.namesLabels, hvalues, hmember] using hlabels
    rw [hneed] at hleft
    obtain ⟨hpos, hle⟩ := lt_of_raises hpriced hentity (.members hrest hfield htype) hleft
    exact ⟨hpos, .traversal hle fun target _ => .constant _ _ _⟩
  | @inherited field link hfield hlink =>
    obtain ⟨hpos, hle⟩ := lt_of_raises hpriced hentity (.link hfield hlink) hleft
    refine ⟨hpos, .traversal hle fun owner howner => ?_⟩
    have hraises : ctx.catalog.Raises ⟨c.need, ctx.entity, c.path⟩ ⟨c.need, owner, c.path⟩ :=
      .owner hfield hlink howner
    have hprice := le_of_raises hpriced hentity hraises
    refine .condition (c := c.withoutMark) (Nat.add_le_add_right hprice left) ?_
    intro inner target hinner hleads
    exact hfits inner target hinner (.of_owner halike hentity hfield hlink howner hleads)
  | @found c' hop hflat htarget hfound =>
    rw [Condition.need_of_hierarchy hflat hop] at hleft
    have hids := hpriced.raises hentity (.found htarget)
    have hpaths := hpriced.raises hentity (.below htarget)
    have hpos := hpriced.pos ⟨.walk, ctx.entity, c.path⟩
    exact ⟨by omega, of_found hfound (by omega) (by omega)⟩
  | @reached field target found hop hflat hfield _ htarget hfound =>
    rw [Condition.need_of_hierarchy hflat hop] at hleft
    obtain ⟨hpos, hle⟩ := lt_of_raises hpriced hentity (.reached hfield) hleft
    refine ⟨hpos, .traversal hle fun target' hleads => ?_⟩
    have htarget' := hplain hfield target' hleads
    rw [htarget, Option.some.injEq] at htarget'
    subst htarget'
    have hids := le_of_raises hpriced hentity (.found htarget)
    have hpaths := le_of_raises hpriced hentity (.below htarget)
    exact of_over hfound fun c' hc' => of_found hc' (by omega) (by omega)

include hpriced hentity in
/-- No change of a condition needs a greater budget. -/
theorem of_outcome (halike : ctx.catalog.InheritsAlike)
    (hnested : ∀ budget target d d', ctx.catalog.entity? target.name = some target →
      Fits ctx.catalog price budget d target → (ctx.nested target d).result = .ok d' →
      Fits ctx.catalog price budget d' target)
    (h : Pass.Outcome ctx c d) (hc : Fits ctx.catalog price budget (.condition c) ctx.entity) :
    Fits ctx.catalog price budget d ctx.entity := by
  cases h with
  | becomes h => exact of_becomes hpriced hentity hnested h hc
  | splits h =>
    exact of_over h fun c' hc' =>
      (of_splits hpriced hentity halike hc' hc).2.mono (Nat.sub_le budget 1)
  | dated hdays h => exact of_over h fun c' hc' => of_dated hpriced hdays hc' hc

end Outcome

end Domain.Fits

namespace Optimizer

open Domain

/-- What a domain is optimized to fits the budgets that the domain fits. -/
theorem node_fits {catalog : Catalog} {price : Demand → Nat} {budget depth : Nat} {level : Level}
    {entity : Entity} {d result : Domain} (hhooks : catalog.Hookless)
    (hpriced : catalog.Priced price) (halike : catalog.InheritsAlike)
    (hentity : catalog.entity? entity.name = some entity)
    (hd : Fits catalog price budget d entity)
    (h : (node catalog depth standard level entity d).result = .ok result) :
    Fits catalog price budget result entity := by
  refine (Fits.invariant hpriced).node hhooks ?_ hentity hd h
  rintro ctx rfl - hentity hnested budget c d houtcome hc
  exact Fits.of_outcome hpriced hentity halike hnested houtcome hc

end Optimizer

end QueryDomain
