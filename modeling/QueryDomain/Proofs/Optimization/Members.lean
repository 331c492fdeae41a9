import QueryDomain.Proofs.Optimization.Exact
import QueryDomain.Proofs.Optimization.Links
import QueryDomain.Proofs.Optimization.Outcomes

/-! What the optimizer makes of memberships on a relation. A set of identifiers, labels and null is
taken apart to what is asked of a related record and whether there may be none. -/
namespace QueryDomain

open List Domain

namespace Optimizer

variable {catalog : Catalog} {entity target : Entity} {path : String} {field recField : Field}
  {k : Connective} {values : ValueSet} {ctx : Context} {n : Nat}

def membership (path : String) (k : Connective) (values : ValueSet) : Condition :=
  ⟨path, k.member, .set values, none⟩

def named (target : Entity) (labels : List Value) : Condition :=
  ⟨target.recName, .mem, .set (.ofList labels), none⟩

def numbered (ids : List Value) : Condition := ⟨Entity.idName, .mem, .set (.ofList ids), none⟩

/-- What asks for a related record or, if the set has null, for none. -/
def outcome (path : String) (k : Connective) : Option Domain → Bool → Domain
  | some X, false => linked path k X none
  | some X, true => .nary k (k.pair (linked path k X none) (unlinked path k none)) none
  | none, _ => unlinked path k none

def labelsOf (values : ValueSet) : List Value := values.values.filter Pass.isLabel

def withoutLabels (values : ValueSet) : ValueSet :=
  if (labelsOf values).isEmpty then values
  else .ofList (values.values.filter fun v => !Pass.isLabel v)

def idsOf (values : ValueSet) : List Value :=
  (withoutLabels values).values.filter fun v => !v.isNull

/-- What a set asks of a related record. -/
def asked (target : Entity) (values : ValueSet) : Option Domain :=
  match labelsOf values, idsOf values with
  | [], [] => none
  | [], ids => some (.condition (numbered ids))
  | labels, [] => some (.condition (named target labels))
  | labels, ids => some (union (named target labels) (numbered ids))

theorem isMembership_member : k.member.isMembership = true := by
  cases k <;> rfl

theorem labelsOf_withoutLabels : labelsOf (withoutLabels values) = [] := by
  rw [withoutLabels]
  split
  · exact List.isEmpty_iff.1 ‹_›
  · refine filter_eq_nil_iff.2 fun v hv => ?_
    have hmem := (ValueSet.fresh_sublist [] _).mem hv
    simpa using (mem_filter.1 hmem).2

theorem withoutLabels_withoutLabels :
    withoutLabels (withoutLabels values) = withoutLabels values :=
  if_pos (by rw [labelsOf_withoutLabels]; rfl)

theorem idsOf_withoutLabels : idsOf (withoutLabels values) = idsOf values := by
  rw [idsOf, withoutLabels_withoutLabels]
  rfl

theorem containsNull_withoutLabels :
    (withoutLabels values).containsNull = values.containsNull := by
  have hnull : ∀ v w : Value, v.same w = true → v.isNull = w.isNull := by
    intro v w hsame
    cases v <;> cases w <;> first
      | rfl
      | cases hsame
  rw [withoutLabels]
  split
  · rfl
  · rw [ValueSet.containsNull, ValueSet.any_ofList hnull, any_filter]
    refine congrArg values.values.any (funext fun v => ?_)
    cases v <;> rfl

theorem containsNull_of_filter (hsome : values.isEmpty = false)
    (h : values.values.filter (fun v => !v.isNull) = []) : values.containsNull = true := by
  obtain ⟨_ | ⟨v, vs⟩⟩ := values
  · cases hsome
  · cases hnull : v.isNull
    · simp [hnull] at h
    · simp [hnull, ValueSet.containsNull]

section Passes

variable (hplain : '.' ∉ path.toList)

include hplain

theorem negate_linked {X : Domain} {m : Option Mark} :
    (linked path k X m).negate = linked path k.inverse X none := by
  cases k <;> simp [linked, negate, Condition.negate, Condition.isDotted, hplain, Operator.inverse?,
    Connective.link, Connective.inverse, Condition.withOperator]

theorem negate_node {c : Condition} (hc : c.isDotted = false) {inverse : Operator}
    (hinverse : c.operator.inverse? = some inverse) {X : Domain} :
    (Domain.nary .or [linked path .or X none, .condition c] none).negate =
      .nary .and [linked path .and X none, .condition (c.withOperator inverse)] none := by
  have hnegate : c.negate = .condition (c.withOperator inverse) := by
    rw [Condition.negate, hinverse]
    simp [hc]
  rw [negate, negateAll_eq_map, map_cons, map_cons, map_nil, negate_linked hplain, negate, hnegate]
  rfl

theorem not_isDotted_membership : (membership path k values).isDotted = false := by
  simpa [Condition.isDotted, membership] using hplain

theorem result_manyMembers (hsome : values.isEmpty = false) :
    (Pass.manyMembers (membership path k values) ctx).result = .ok (some
      (let ids := values.values.filter fun v => !v.isNull
      if ids.isEmpty then unlinked path k none
      else if values.containsNull then
        .nary k [linked path k (.condition (numbered ids)) none, unlinked path k none] none
      else linked path k (.condition (numbered ids)) none)) := by
  have hdotted : (Condition.mk path .notAny (.domain (.constant true)) none).isDotted = false := by
    simpa [Condition.isDotted] using hplain
  have hpass : Pass.manyMembers (membership path k values) ctx = Pass.replace
      (let ids := ValueSet.ofList (values.values.filter fun v => !v.isNull)
      let members := Domain.or
        ((if ids.isEmpty then []
          else [linked path .or (.condition ⟨Entity.idName, .mem, .set ids, none⟩) none]) ++
        if values.containsNull then [unlinked path .or none] else [])
      if k = .or then members else members.negate) := by
    have hdotted : (membership path k values).isDotted = false := not_isDotted_membership hplain
    unfold Pass.manyMembers
    refine (if_neg (by simpa [membership, isMembership_member] using hdotted)).trans ?_
    cases k <;> rfl
  have hand : ¬Connective.and = .or := by decide
  rw [hpass]
  dsimp only
  rw [ValueSet.isEmpty_ofList]
  cases hids : (values.values.filter fun v => !v.isNull).isEmpty with
  | true =>
    rw [containsNull_of_filter hsome (List.isEmpty_iff.1 hids)]
    cases k with
    | or => rfl
    | and =>
      rw [if_neg hand]
      exact congrArg (fun d => Except.ok (some d)) (negate_linked hplain)
  | false =>
    cases hnull : values.containsNull with
    | true =>
      cases k with
      | or => rfl
      | and =>
        rw [if_neg hand]
        exact congrArg (fun d => Except.ok (some d)) (negate_node hplain hdotted rfl)
    | false =>
      cases k with
      | or => rfl
      | and =>
        rw [if_neg hand]
        exact congrArg (fun d => Except.ok (some d)) (negate_linked hplain)

omit hplain in
theorem result_labels (h : catalog.LeadsTo ctx.entity path field target)
    (hcatalog : ctx.catalog = catalog) (hlabels : (labelsOf values).isEmpty = false) :
    (Pass.labels (membership path k values) ctx).result = .ok (some
      (let byLabel := linked path k (.condition (named target (labelsOf values))) none
      if (withoutLabels values).isEmpty then byLabel
      else .nary k [byLabel, .condition (membership path k (withoutLabels values))] none)) := by
  have hrest : withoutLabels values = .ofList (values.values.filter fun v => !Pass.isLabel v) :=
    if_neg (by rw [hlabels]; nofun)
  have hfield : ctx.field (membership path k values) = .ok field :=
    Context.field_eq_ok.2 (h.head (c := membership path k values))
  have hcomodel : ctx.catalog.comodel (membership path k values) field = .ok target := by
    rw [hcatalog]
    exact Catalog.comodel_eq_ok.2 h.comodel
  have hdotted : (membership path k values).isDotted = false := not_isDotted_membership h.plain
  have hname : field.name = path := Entity.name_of_field? h.found
  unfold Pass.labels
  simp only [Run.result_bind_eq_ok, Run.result_liftM]
  refine ⟨field, hfield, ?_⟩
  rw [if_neg (by simp [h.relational, hdotted])]
  have hmembers : ∀ ids : List Value,
      (if k.member = .mem then Pass.labelledMembers field target (labelsOf values) ids
        else (Pass.labelledMembers field target (labelsOf values) ids).negate) =
      if ids.isEmpty then linked path k (.condition (named target (labelsOf values))) none
      else .nary k [linked path k (.condition (named target (labelsOf values))) none,
        .condition (membership path k (.ofList ids))] none := by
    intro ids
    have hform : Pass.labelledMembers field target (labelsOf values) ids =
        if ids.isEmpty then linked path .or (.condition (named target (labelsOf values))) none
        else .nary .or [linked path .or (.condition (named target (labelsOf values))) none,
          .condition (membership path .or (.ofList ids))] none := by
      rw [Pass.labelledMembers, hname]
      rfl
    rw [hform]
    cases k with
    | or => rfl
    | and =>
      cases ids.isEmpty with
      | true => exact negate_linked (k := .or) h.plain
      | false => exact negate_node h.plain (not_isDotted_membership h.plain) rfl
  rw [hrest, ValueSet.isEmpty_ofList]
  dsimp only [membership]
  rw [partition_eq_filter_filter]
  change (if (!k.member.isMembership || (labelsOf values).isEmpty) = true then _ else _ :
    Run _ _).result = _
  rw [if_neg (by simp [isMembership_member, hlabels]), Run.result_bind_eq_ok]
  exact ⟨target, (Run.result_liftM _).trans hcomodel, congrArg (fun d => Except.ok (some d)) (hmembers _)⟩

end Passes

end Optimizer

/-- The records that the relation leads to are told apart by their identifiers, as integers, and by
a text, which conditions can ask for if its field has no dot in its name. -/
structure Entity.IsNamed (target : Entity) (recField : Field) : Prop where
  found : target.field? target.recName = some recField
  stored : recField.stored = true
  own : recField.delegatedVia = none
  text : recField.type = .char
  id : target.field? Entity.idName = some Entity.idField

namespace Entity.IsNamed

open Optimizer

variable {catalog : Catalog} {target : Entity} {recField : Field}
  (h : target.IsNamed recField)

include h

theorem ownsId : target.HasOwn Entity.idName Entity.idField := ⟨by decide, h.id, rfl, rfl⟩

theorem hasOwn (hplain : '.' ∉ target.recName.toList) : target.HasOwn target.recName recField :=
  ⟨hplain, h.found, h.stored, h.own⟩

theorem settled_named (hplain : '.' ∉ target.recName.toList) {labels : List Value}
    (hlabels : labels ≠ []) :
    Settled catalog .search (.condition (named target labels)) target := by
  have hsome : (ValueSet.ofList labels).isEmpty = false := by
    rw [ValueSet.isEmpty_ofList, List.isEmpty_eq_false_iff]
    exact hlabels
  refine settled_membership (c := named target labels) (h.hasOwn hplain) (by rw [h.text]; decide)
    (by rw [h.text]; rfl) rfl rfl hsome (fun hrelational => ?_) fun hinteger => ?_
  · rw [Field.isRelational, h.text] at hrelational
    cases hrelational
  · rw [h.text] at hinteger
    cases hinteger

theorem settled_numbered {ids : List Value} (hids : ids ≠ []) (hnumbers : ∀ v ∈ ids, ∃ x, v = .int x) :
    Settled catalog .search (.condition (numbered ids)) target := by
  have hsome : (ValueSet.ofList ids).isEmpty = false := by
    rw [ValueSet.isEmpty_ofList, List.isEmpty_eq_false_iff]
    exact hids
  refine settled_membership (c := numbered ids) h.ownsId (by decide) rfl rfl rfl hsome nofun fun _ => ?_
  refine ⟨fun v hv => ?_, ValueSet.isDistinct_ofList ids⟩
  obtain ⟨x, rfl⟩ := hnumbers v ((ValueSet.fresh_sublist [] ids).mem hv)
  rfl

theorem recName_ne : target.recName ≠ Entity.idName := by
  intro hname
  have hfound := h.found
  rw [hname, h.id, Option.some.injEq] at hfound
  have htext := h.text
  rw [← hfound] at htext
  cases htext

end Entity.IsNamed

namespace Optimizer

variable {catalog : Catalog} {entity target : Entity} {path : String} {field recField : Field}
  {k : Connective} {values : ValueSet} {ctx : Context} {n : Nat}

section Makes

variable (h : catalog.LeadsTo entity path field target) (hvalues : values.isEmpty = false)

include h hvalues

theorem keeps_or_changes (hlevel : ctx.level = .search) (hentity : ctx.entity = entity)
    (hlabels : labelsOf values = []) :
    ∀ pass ∈ standard.candidates ctx (membership path k values),
      (pass.run (membership path k values) ctx).result = .ok none ∨
        (field.type.isX2Many = true ∧ pass.run = Pass.manyMembers) := by
  have hfield : ctx.field (membership path k values) = .ok field :=
    Context.field_eq_ok.2 (hentity ▸ h.head (c := membership path k values))
  have hnone : values.values.any Pass.isLabel = false := by
    simpa [labelsOf, any_eq_false] using hlabels
  have htreated := @keeps_or_treats field ctx (membership path k values) (hentity ▸ h.toHasOwn)
    h.mem_plainTypes (.inl isMembership_member) hlevel
  intro pass hpass
  obtain hkeep | ⟨-, hrun | hrun⟩ | ⟨htraversal, -⟩ | ⟨hmany, hrun⟩ | ⟨hinteger, -⟩ :=
    htreated pass hpass
  · exact .inl hkeep
  · rw [hrun]
    exact .inl (Pass.membershipOperand_eq_none.2 ⟨values, rfl, hvalues⟩)
  · rw [hrun]
    refine .inl (Pass.labels_eq_none.2 ⟨field, hfield, .inr (.inr ?_)⟩)
    unfold Pass.namesLabels
    simp [membership, hnone]
  · cases k <;> cases htraversal
  · exact .inr ⟨hmany, hrun⟩
  · exact absurd hinteger h.not_integer

theorem makes_unlabelled (hmany : field.type.isX2Many = true) (htarget : target.IsNamed recField)
    (hlabels : labelsOf values = []) (hids : ∀ v ∈ idsOf values, ∃ x, v = .int x) :
    Makes catalog 3 entity (.condition (membership path k values))
      (outcome path k (asked target values) values.containsNull) := by
  have hidsOf : idsOf values = values.values.filter fun v => !v.isNull := by
    rw [idsOf, withoutLabels, hlabels]
    rfl
  have hpass := @result_manyMembers path k values (standard.contextAt catalog 3 .search entity)
    h.plain hvalues
  rw [← hidsOf] at hpass
  have hstep : ∀ next, (Pass.manyMembers (membership path k values)
      (standard.contextAt catalog 3 .search entity)).result = .ok (some next) →
      (standard.step (standard.contextAt catalog 3 .search entity)
        (.condition (membership path k values))).result = .ok (.changed next) := by
    intro next hnext
    refine stepCondition_of_only (fun pass hpass => ?_) ⟨⟨"x2many_membership", Pass.manyMembers⟩,
      mem_candidates.2 ⟨_, PassEntry.IsStandard.manyMembers.mem, rfl, ?_, rfl⟩, hnext⟩
    · obtain hkeep | ⟨-, hrun⟩ := keeps_or_changes h hvalues rfl rfl hlabels pass hpass
      · exact .inl hkeep
      · rw [hrun]
        exact .inr hnext
    · have htype : entity.headType? path = some field.type :=
        h.headType? (c := membership path k values)
      change (entity.headType? path).any [FieldType.one2many, .many2many].contains = true
      rw [htype]
      cases hfield : field.type <;> rw [hfield] at hmany <;> first | rfl | cases hmany
  have hunlinked : Makes catalog 1 entity (unlinked path k none) (unlinked path k none) :=
    .of_settled (settled_unlinked h hmany) (Nat.le_refl 1)
  cases hempty : idsOf values with
  | nil =>
    have hasked : asked target values = none := by
      rw [asked, hlabels, hempty]
    rw [hempty] at hpass
    rw [hasked]
    exact .of_changed rfl (hstep _ hpass) (hunlinked.mono (Nat.le_succ 1))
  | cons v vs =>
    have hasked : asked target values = some (.condition (numbered (idsOf values))) := by
      rw [asked, hlabels, hempty]
    have hlinked : Makes catalog 1 entity (linked path k (.condition (numbered (idsOf values))) none)
        (linked path k (.condition (numbered (idsOf values))) none) :=
      .of_settled (settled_linked h (htarget.settled_numbered (by simp [hempty]) hids) rfl rfl)
        (Nat.le_refl 1)
    rw [if_neg (by simp [hempty])] at hpass
    rw [hasked]
    cases hnull : values.containsNull with
    | true =>
      rw [hnull] at hpass
      exact .of_changed rfl (hstep _ hpass) (.of_joined
        (joined_pair (.inl (.cons hlinked (.cons hunlinked .nil))) (by decide)) (by decide))
    | false =>
      rw [hnull] at hpass
      exact .of_changed rfl (hstep _ hpass) (hlinked.mono (Nat.le_succ 1))

omit hvalues in
theorem makes_named (htarget : target.IsNamed recField) (hplain : '.' ∉ target.recName.toList)
    (hlabels : labelsOf values ≠ []) :
    Makes catalog 1 entity (linked path k (.condition (named target (labelsOf values))) none)
      (linked path k (.condition (named target (labelsOf values))) none) :=
  .of_settled (settled_linked h (htarget.settled_named hplain hlabels) rfl rfl) (Nat.le_refl 1)

theorem step_labels (hlabels : labelsOf values ≠ []) :
    (standard.step (standard.contextAt catalog n .search entity)
      (.condition (membership path k values))).result = .ok (.changed
        (let byLabel := linked path k (.condition (named target (labelsOf values))) none
        if (withoutLabels values).isEmpty then byLabel
        else .nary k [byLabel, .condition (membership path k (withoutLabels values))] none)) := by
  have hsome : (labelsOf values).isEmpty = false := List.isEmpty_eq_false_iff.2 hlabels
  have hpass := @result_labels catalog target path field k values
    (standard.contextAt catalog n .search entity) h rfl hsome
  have hfield : (standard.contextAt catalog n .search entity).field (membership path k values) =
      .ok field := Context.field_eq_ok.2 (h.head (c := membership path k values))
  obtain ⟨rest, hsplit⟩ := @candidates_of_membership (standard.contextAt catalog n .search entity)
    (membership path k values) isMembership_member
  have hbefore : ∀ pass ∈ ([⟨"resolve_field", Pass.resolvePath⟩,
      ⟨"membership_value", Pass.membershipOperand⟩] : List NamedPass),
      (pass.run (membership path k values)
        (standard.contextAt catalog n .search entity)).result = .ok none := by
    intro pass hpass
    simp only [mem_cons, not_mem_nil, or_false] at hpass
    obtain rfl | rfl := hpass
    · exact Pass.resolvePath_eq_none.2
        ⟨field, hfield, .inl (h.rest? (c := membership path k values))⟩
    · exact Pass.membershipOperand_eq_none.2 ⟨values, rfl, hvalues⟩
  exact stepCondition_of_first hsplit hbefore hpass

theorem makes_many (hmany : field.type.isX2Many = true) (htarget : target.IsNamed recField)
    (hplain : labelsOf values ≠ [] → '.' ∉ target.recName.toList)
    (hids : ∀ v ∈ idsOf values, ∃ x, v = .int x) :
    Makes catalog 6 entity (.condition (membership path k values))
      (outcome path k (asked target values) values.containsNull) := by
  cases hlabels : labelsOf values with
  | nil => exact (makes_unlabelled h hvalues hmany htarget hlabels hids).mono (by decide)
  | cons l ls =>
    have hsome : labelsOf values ≠ [] := by
      rw [hlabels]
      nofun
    have hlinked := (makes_named (k := k) h htarget (hplain hsome) hsome).mono (show 1 ≤ 4 by decide)
    refine .of_changed rfl (step_labels h hvalues hsome) ?_
    cases hempty : (withoutLabels values).isEmpty with
    | true =>
      have hnil : (withoutLabels values).values = [] := List.isEmpty_iff.1 hempty
      have hidsOf : idsOf values = [] := by
        rw [idsOf, hnil]
        rfl
      have hnull : values.containsNull = false := by
        rw [← containsNull_withoutLabels, ValueSet.containsNull, hnil]
        rfl
      have hasked : asked target values = some (.condition (named target (labelsOf values))) := by
        rw [asked, hidsOf, hlabels]
      rw [hasked, hnull]
      exact hlinked.mono (by decide)
    | false =>
      have hrest := makes_unlabelled (k := k) h hempty hmany htarget labelsOf_withoutLabels
        (by rwa [idsOf_withoutLabels])
      rw [containsNull_withoutLabels] at hrest
      refine .of_joined ?_ (by decide)
      cases hidsOf : idsOf values with
      | nil =>
        have hasked : asked target values = some (.condition (named target (labelsOf values))) := by
          rw [asked, hidsOf, hlabels]
        have hasked' : asked target (withoutLabels values) = none := by
          rw [asked, idsOf_withoutLabels, hidsOf, labelsOf_withoutLabels]
        have hnull : values.containsNull = true := by
          rw [← containsNull_withoutLabels]
          rw [← idsOf_withoutLabels, idsOf, withoutLabels_withoutLabels] at hidsOf
          exact containsNull_of_filter hempty hidsOf
        rw [hasked'] at hrest
        rw [hasked, hnull]
        exact joined_pair (.inl (.cons hlinked (.cons (hrest.mono (by decide)) .nil))) (by decide)
      | cons v vs =>
        have hasked : asked target values =
            some (union (named target (labelsOf values)) (numbered (idsOf values))) := by
          rw [asked, hidsOf, hlabels]
        have hasked' : asked target (withoutLabels values) =
            some (.condition (numbered (idsOf values))) := by
          rw [asked, idsOf_withoutLabels, hidsOf, labelsOf_withoutLabels]
        have hnamed : Settled catalog .search (.condition (named target (labelsOf values))) target :=
          htarget.settled_named (hplain hsome) hsome
        have hnumbered : Settled catalog .search (.condition (numbered (idsOf values))) target :=
          htarget.settled_numbered (by rw [hidsOf]; nofun) hids
        rw [hasked'] at hrest
        rw [hasked]
        have hds := Forall₂.cons hlinked (.cons (hrest.mono (show 3 ≤ 4 by decide)) .nil)
        cases hnull : values.containsNull with
        | true =>
          rw [hnull] at hds
          exact joined_beside h hmany hnamed hnumbered htarget.recName_ne ⟨rfl, rfl⟩ hds
        | false =>
          rw [hnull] at hds
          exact joined_linked h hmany hnamed hnumbered htarget.recName_ne ⟨rfl, rfl⟩ hds

section ToOne

variable (hone : field.type.isX2Many = false)

include hone

theorem settled_toOne (hlabels : labelsOf values = []) :
    Settled catalog .search (.condition (membership path k values)) entity := by
  refine settled_membership (c := membership path k values) h.toHasOwn h.mem_plainTypes hone
    isMembership_member rfl hvalues (fun _ v hv => ?_) fun hinteger => absurd hinteger h.not_integer
  simpa using filter_eq_nil_iff.1 hlabels v hv

theorem makes_toOne (htarget : target.IsNamed recField) (hplain : '.' ∉ target.recName.toList)
    (hlabels : labelsOf values ≠ []) :
    Makes catalog 3 entity (.condition (membership path k values))
      (if (withoutLabels values).isEmpty then
        linked path k (.condition (named target (labelsOf values))) none
      else .nary k (sortChildren [linked path k (.condition (named target (labelsOf values))) none,
        .condition (membership path k (withoutLabels values))]) none) := by
  have hnamed := makes_named (k := k) h htarget hplain hlabels
  refine .of_changed rfl (step_labels h hvalues hlabels) ?_
  cases hempty : (withoutLabels values).isEmpty with
  | true => exact hnamed.mono (Nat.le_succ 1)
  | false =>
    have hrest : Makes catalog 1 entity (.condition (membership path k (withoutLabels values)))
        (.condition (membership path k (withoutLabels values))) :=
      .of_settled (settled_toOne h hempty hone labelsOf_withoutLabels) (Nat.zero_le 1)
    have hkeys : keyOf .traversal (linked path k (.condition (named target (labelsOf values))) none) ≠
        keyOf .traversal (.condition (membership path k (withoutLabels values))) := by
      cases k <;> nofun
    exact .of_joined (joined_two (apart_of_keyOf hkeys) (.cons hnamed (.cons hrest .nil)) (by decide))
      (by decide)

end ToOne

end Makes

end Optimizer

end QueryDomain
