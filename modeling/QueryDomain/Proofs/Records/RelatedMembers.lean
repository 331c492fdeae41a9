import QueryDomain.Proofs.Optimization.Members
import QueryDomain.Proofs.Records.Selection

/-! Membership on relations. A set of identifiers, labels and null selects the records that have a
related record with one of the identifiers or by one of the labels and, if null is in the set, those
that have no related record. -/
namespace QueryDomain

open List Domain

theorem Value.same_eq_true {v w : Value} (hw : w.isFloat = false) : v.same w = true ↔ v = w := by
  cases w with
  | float x => cases hw
  | _ => cases v <;> simp [same]

namespace ValueSet

variable {s : ValueSet} {values : List Value} {v : Value}

theorem mem_ofList (hv : v.isFloat = false) : v ∈ (ofList values).values ↔ v ∈ values := by
  have hrespects : ∀ w w' : Value, w.same w' = true → w.same v = w'.same v := by
    intro w w' hsame
    rw [Bool.eq_iff_iff, Value.same_iff, Value.same_iff, Value.same_iff.1 hsame]
  have hany : ∀ vs : List Value, v ∈ vs ↔ vs.any (·.same v) = true := by
    intro vs
    simp [any_eq_true, Value.same_eq_true hv]
  rw [hany, any_ofList hrespects, ← hany]

theorem holds_eq_true (hs : ∀ w ∈ s.values, w.isFloat = false) (hv : v.isFloat = false) :
    s.holds v = true ↔ v ∈ s.values := by
  rw [holds, any_eq_true]
  constructor
  · rintro ⟨w, hw, hequals⟩
    rw [Value.equals_eq_same hv (hs w hw), Value.same_eq_true hv] at hequals
    rwa [← hequals]
  · exact fun h => ⟨v, h, by rw [Value.equals_eq_same hv hv, Value.same_refl]⟩

end ValueSet

/-- Identifiers, labels and null, at least one of them. Labels are looked up by the name of a field,
which has no dot then. -/
structure ValueSet.OfKeys (values : ValueSet) (target : Entity) : Prop where
  some : values.isEmpty = false
  kinds : ∀ v ∈ values.values, v = .null ∨ (∃ x, v = .int x) ∨ ∃ s, v = .text s
  plain : ∀ s, .text s ∈ values.values → '.' ∉ target.recName.toList

namespace Optimizer

variable {values : ValueSet} {v : Value}

theorem text_mem_labelsOf {s : String} : .text s ∈ labelsOf values ↔ .text s ∈ values.values := by
  simp [labelsOf, Pass.isLabel]

theorem mem_withoutLabels (hfloat : v.isFloat = false) (hlabel : Pass.isLabel v = false) :
    v ∈ (withoutLabels values).values ↔ v ∈ values.values := by
  unfold withoutLabels
  split
  · rfl
  · simp [ValueSet.mem_ofList hfloat, hlabel]

theorem mem_of_withoutLabels (hv : v ∈ (withoutLabels values).values) :
    v ∈ values.values ∧ Pass.isLabel v = false := by
  have hnone : labelsOf (withoutLabels values) = [] := labelsOf_withoutLabels
  refine ⟨?_, by simpa using filter_eq_nil_iff.1 hnone v hv⟩
  unfold withoutLabels at hv
  split at hv
  · exact hv
  · exact (mem_filter.1 ((ValueSet.fresh_sublist [] _).mem hv)).1

theorem int_mem_idsOf {x : Int} : .int x ∈ idsOf values ↔ .int x ∈ values.values := by
  rw [idsOf, mem_filter, mem_withoutLabels rfl rfl]
  simp [Value.isNull]

theorem containsNull_iff : values.containsNull = true ↔ .null ∈ values.values := by
  rw [ValueSet.containsNull, any_eq_true]
  constructor
  · rintro ⟨v, hv, hnull⟩
    cases v <;> first
      | exact hv
      | cases hnull
  · exact fun h => ⟨_, h, rfl⟩

end Optimizer

namespace ValueSet.OfKeys

open Optimizer

variable {values : ValueSet} {target : Entity} (h : values.OfKeys target) {v : Value}

include h

theorem isFloat (hv : v ∈ values.values) : v.isFloat = false := by
  obtain rfl | ⟨x, rfl⟩ | ⟨s, rfl⟩ := h.kinds v hv <;> rfl

theorem labels (hv : v ∈ labelsOf values) : ∃ s, v = .text s := by
  obtain ⟨hmem, hlabel⟩ := mem_filter.1 hv
  obtain rfl | ⟨x, rfl⟩ | ⟨s, rfl⟩ := h.kinds v hmem
  · cases hlabel
  · cases hlabel
  · exact ⟨s, rfl⟩

theorem ids (hv : v ∈ idsOf values) : ∃ x, v = .int x := by
  obtain ⟨hmem, hnull⟩ := mem_filter.1 hv
  obtain ⟨hmem, hlabel⟩ := mem_of_withoutLabels hmem
  obtain rfl | ⟨x, rfl⟩ | ⟨s, rfl⟩ := h.kinds v hmem
  · cases hnull
  · exact ⟨x, rfl⟩
  · cases hlabel

theorem plain_of_labels (hlabels : labelsOf values ≠ []) : '.' ∉ target.recName.toList := by
  obtain ⟨v, hv⟩ := exists_mem_of_ne_nil _ hlabels
  obtain ⟨s, rfl⟩ := h.labels hv
  exact h.plain s (text_mem_labelsOf.1 hv)

end ValueSet.OfKeys

theorem Field.valueOf_char {field : Field} (htype : field.type = .char) {json : Option Json}
    {s : String} : field.valueOf json = .text s ↔ json = some (.string s) := by
  unfold valueOf
  rw [htype]
  rcases json with _ | json
  · simp
  · cases json <;> simp [Value.ofJson?]
    split <;> simp

namespace Catalog

def IsRelated (catalog : Catalog) (field : Field) (target : Entity) (r r' : Record) : Prop :=
  r' ∈ catalog.records target.name ∧
    match field.type with
    | .many2one => ∃ x, Record.id? r' = some x ∧ Record.get? r field.name = some (.integer x)
    | .one2many => ∃ x inverse, Record.id? r = some x ∧ field.inverseName = some inverse ∧
        Record.get? r' inverse = some (.integer x)
    | .many2many => ∃ x items, Record.id? r' = some x ∧
        Record.get? r field.name = some (.array items) ∧ .integer x ∈ items
    | _ => False

def IsAmongKeys (target : Entity) (values : ValueSet) (r : Record) : Prop :=
  (∃ x, Record.id? r = some x ∧ .int x ∈ values.values) ∨
    ∃ s, Record.get? r target.recName = some (.string s) ∧ .text s ∈ values.values

/-- Some related record is among the keys, or null is and there is no related record. -/
def HasMember (catalog : Catalog) (field : Field) (target : Entity) (values : ValueSet)
    (r : Record) : Prop :=
  (∃ r', catalog.IsRelated field target r r' ∧ IsAmongKeys target values r') ∨
    (.null ∈ values.values ∧ ∀ r', ¬catalog.IsRelated field target r r')

/-- A relation, to records that have identifiers, each its own. -/
structure HasRelation (catalog : Catalog) (entity : Entity) (path : String) (field : Field)
    (target : Entity) (recField : Field) : Prop extends catalog.LeadsTo entity path field target where
  named : target.IsNamed recField
  ids : ((catalog.records target.name).filterMap Record.id?).Nodup
  numbered : ∀ r ∈ catalog.records target.name, ∃ x, Record.id? r = some x
  links : field.type = .many2one → ∀ r ∈ catalog.records entity.name,
    Record.get? r path = none ∨ Record.get? r path = some .null ∨
      ∃ r' ∈ catalog.records target.name, ∃ x, Record.id? r' = some x ∧
        Record.get? r path = some (.integer x)

variable {catalog : Catalog} {entity target : Entity} {path : String} {field recField : Field}
  {values : ValueSet} {r r' : Record} {x : Int}

theorem mem_linked_iff (hrelational : field.isRelational = true)
    (hids : ((catalog.records target.name).filterMap Record.id?).Nodup) :
    r' ∈ catalog.linked field target r ↔ catalog.IsRelated field target r r' := by
  have hinteger : ∀ {json : Option Json} {x : Int}, Json.isInt64 x = true →
      (json.bind Json.asInt64? = some x ↔ json = some (.integer x)) := by
    intro json x hx
    simp [Option.bind_eq_some_iff, Json.asInt64?_eq_some, hx]
  unfold IsRelated
  cases htype : field.type with
  | many2one =>
    rw [linked_many2one htype, Option.mem_toList, Option.bind_eq_some_iff]
    simp only [record?_eq_some hids]
    constructor
    · rintro ⟨x, hx, hr', hid⟩
      exact ⟨hr', x, hid, (hinteger (Record.isInt64_of_id? hid)).1 hx⟩
    · rintro ⟨hr', x, hid, hx⟩
      exact ⟨x, (hinteger (Record.isInt64_of_id? hid)).2 hx, hr', hid⟩
  | one2many =>
    unfold linked related
    rw [htype]
    cases hid : Record.id? r with
    | none => simp
    | some x =>
      cases hinverse : field.inverseName with
      | none => simp
      | some inverse => simp [hinteger (Record.isInt64_of_id? hid)]
  | many2many =>
    unfold linked related
    rw [htype]
    simp only [mem_filterMap, record?_eq_some hids]
    constructor
    · rintro ⟨x, hx, hr', hid⟩
      split at hx
      · rename_i items hitems
        obtain ⟨json, hjson, hint⟩ := mem_filterMap.1 hx
        obtain ⟨rfl, -⟩ := Json.asInt64?_eq_some.1 hint
        exact ⟨hr', x, items, hid, hitems, hjson⟩
      · cases hx
    · rintro ⟨hr', x, items, hid, hitems, hjson⟩
      refine ⟨x, ?_, hr', hid⟩
      rw [hitems]
      exact mem_filterMap.2 ⟨_, hjson, Json.asInt64?_eq_some.2 ⟨rfl, Record.isInt64_of_id? hid⟩⟩
  | _ =>
    rw [Field.isRelational, htype] at hrelational
    cases hrelational

theorem tells_two {k : Connective} {a b : Condition} {m : Option Mark} {P Q : Prop}
    (ha : catalog.Tells (.condition a) entity r (P ↔ k = .or))
    (hb : catalog.Tells (.condition b) entity r (Q ↔ k = .or)) :
    catalog.Tells (.nary k (sortChildren [.condition a, .condition b]) m) entity r
      (P ∨ Q ↔ k = .or) := by
  have hmem : ∀ d, d ∈ sortChildren [.condition a, .condition b] ↔
      d = .condition a ∨ d = .condition b := by
    simp [(sortChildren_perm _).mem_iff]
  have hall : ∀ d ∈ sortChildren [.condition a, .condition b], catalog.Evaluates d entity r := by
    intro d hd
    obtain rfl | rfl := (hmem d).1 hd
    · exact ha.evaluates
    · exact hb.evaluates
  have hvalue : ∀ {c : Condition} {R : Prop}, c = a ∨ c = b →
      catalog.Tells (.condition c) entity r (R ↔ k = .or) →
      ((Domain.condition c).value (catalog.valuation entity r) = true ↔ (R ↔ k = .or)) := by
    intro c R hc htells
    have hsorted : Domain.condition c ∈ sortChildren [.condition a, .condition b] :=
      (hmem _).2 (by simpa using hc)
    exact (value_of_evaluates hall hsorted).trans htells.met_iff
  have hP := hvalue (.inl rfl) ha
  have hQ := hvalue (.inr rfl) hb
  refine ⟨_, (evaluates_nary hall).holds_eq, ?_⟩
  rw [truth_eq, value]
  cases k with
  | or =>
    rw [Connective.valueAll_or, any_eq_true]
    simp only [hmem, or_and_right, exists_or, exists_eq_left, hP, hQ, iff_true]
  | and =>
    rw [Connective.valueAll_and, all_eq_true]
    simp only [hmem, forall_eq_or_imp, forall_eq, hP, hQ, reduceCtorEq, iff_false, not_or]

theorem tells_union {a b : Condition} {P Q : Prop}
    (ha : catalog.Tells (.condition a) entity r P) (hb : catalog.Tells (.condition b) entity r Q) :
    catalog.Tells (Optimizer.union a b) entity r (P ∨ Q) := by
  have hor : ∀ {R : Prop}, R ↔ (R ↔ Connective.or = .or) := by simp
  exact (tells_two (ha.congr hor) (hb.congr hor)).congr hor.symm

theorem tells_linked (h : catalog.LeadsTo entity path field target) {k : Connective} {X : Domain}
    {m : Option Mark} {P : Record → Prop}
    (hX : ∀ r' ∈ catalog.linked field target r, catalog.Tells X target r' (P r')) :
    catalog.Tells (Optimizer.linked path k X m) entity r
      ((∃ r' ∈ catalog.linked field target r, P r') ↔ k = .or) := by
  let c : Condition := ⟨path, k.link, .domain X, m⟩
  have hop : c.operator.isTraversal = true := by
    cases k <;> rfl
  have hname : field.name ≠ Entity.idName := by
    rw [Entity.name_of_field? h.found]
    exact h.notId
  have hreached : catalog.reached c.path entity r = some (target, catalog.linked field target r) :=
    reached_of_comodel (h.head (c := c)) hname h.relational (comodel_eq_ok.2 h.comodel) r
  have hany : (catalog.linked field target r).any (catalog.truth X target) = true ↔
      ∃ r' ∈ catalog.linked field target r, P r' := by
    rw [any_eq_true]
    refine exists_congr fun r' => and_congr_right fun hr' => ?_
    rw [← (hX r' hr').met_iff, (hX r' hr').evaluates.holds_eq, Except.ok.injEq]
  refine ⟨_, (evaluates_traversal hop rfl hreached fun r' hr' => (hX r' hr').evaluates).holds_eq, ?_⟩
  rw [truth_traversal hop rfl hreached, ← hany]
  generalize (catalog.linked field target r).any (catalog.truth X target) = found
  cases k <;> cases found <;> simp [c, Connective.link]

theorem tells_unlinked (h : catalog.LeadsTo entity path field target) {k : Connective}
    {m : Option Mark} : catalog.Tells (Optimizer.unlinked path k m) entity r
      ((∀ r', r' ∉ catalog.linked field target r) ↔ k = .or) := by
  have htrue : ∀ r' ∈ catalog.linked field target r,
      catalog.Tells (.constant true) target r' True :=
    fun _ _ => (Tells.constant true).congr (by simp)
  refine (tells_linked h htrue).congr ?_
  cases k <;> simp [Connective.inverse]

section Keys

open Optimizer

theorem isAmongKeys_iff : IsAmongKeys target values r ↔
    (∃ x, Record.id? r = some x ∧ .int x ∈ idsOf values) ∨
      ∃ s, Record.get? r target.recName = some (.string s) ∧ .text s ∈ labelsOf values := by
  simp only [IsAmongKeys, int_mem_idsOf, text_mem_labelsOf]

variable (h : target.IsNamed recField)

include h

theorem tells_numbered {ids : List Value} (hids : ∀ v ∈ ids, ∃ y, v = .int y)
    (hid : Record.id? r = some x) :
    catalog.Tells (.condition (numbered ids)) target r (.int x ∈ ids) := by
  have hvalue : Entity.idField.valueOf (Record.get? r Entity.idField.name) = .int x :=
    Field.valueOf_id rfl hid
  have hmember : (ValueSet.ofList ids).holds (.int x) = true ↔ .int x ∈ ids := by
    rw [ValueSet.holds_eq_true (fun w hw => ?_) rfl, ValueSet.mem_ofList rfl]
    obtain ⟨y, rfl⟩ := hids w ((ValueSet.fresh_sublist [] ids).mem hw)
    rfl
  exact (tells_membership (c := numbered ids) h.ownsId.isDotted h.ownsId.head hvalue rfl rfl).congr
    (by simp [numbered, hmember])

theorem tells_named (hplain : '.' ∉ target.recName.toList) {labels : List Value}
    (hlabels : ∀ v ∈ labels, ∃ s, v = .text s) :
    catalog.Tells (.condition (named target labels)) target r
      (∃ s, Record.get? r target.recName = some (.string s) ∧ .text s ∈ labels) := by
  have hown : target.HasOwn (named target labels).path recField := h.hasOwn hplain
  have hname : recField.name = target.recName := Entity.name_of_field? h.found
  have hequals : ∀ (v : Value) (s : String), v.equals (.text s) = true ↔ v = .text s := by
    intro v s
    cases v <;> simp [Value.equals, Value.isNull, Value.compare?]
  have hmember : (ValueSet.ofList labels).holds
      (recField.valueOf (Record.get? r recField.name)) = true ↔
        ∃ s, Record.get? r target.recName = some (.string s) ∧ .text s ∈ labels := by
    rw [ValueSet.holds_ofList, any_eq_true, hname]
    constructor
    · rintro ⟨v, hv, hvalue⟩
      obtain ⟨s, rfl⟩ := hlabels v hv
      exact ⟨s, (Field.valueOf_char h.text).1 ((hequals _ s).1 hvalue), hv⟩
    · rintro ⟨s, hs, hlabel⟩
      exact ⟨_, hlabel, (hequals _ s).2 ((Field.valueOf_char h.text).2 hs)⟩
  exact (tells_membership hown.isDotted hown.head rfl rfl rfl).congr
    (by simp [named, hmember])

variable (hvalues : values.OfKeys target)

include hvalues

theorem tells_asked {X : Domain} (hasked : asked target values = some X)
    (hid : Record.id? r = some x) : catalog.Tells X target r (IsAmongKeys target values r) := by
  have hnamed : labelsOf values ≠ [] → catalog.Tells
      (.condition (named target (labelsOf values))) target r
      (∃ s, Record.get? r target.recName = some (.string s) ∧ .text s ∈ labelsOf values) :=
    fun hlabels => tells_named h (hvalues.plain_of_labels hlabels) fun v => hvalues.labels
  have hnumbered : catalog.Tells (.condition (numbered (idsOf values))) target r
      (∃ x, Record.id? r = some x ∧ .int x ∈ idsOf values) :=
    (tells_numbered h (fun v => hvalues.ids) hid).congr (by simp [hid])
  unfold asked at hasked
  split at hasked
  · cases hasked
  · rename_i hlabels _
    cases hasked
    exact hnumbered.congr (by rw [isAmongKeys_iff, hlabels]; simp)
  · rename_i hids hlabels
    cases hasked
    exact (hnamed hlabels).congr (by rw [isAmongKeys_iff, hids]; simp)
  · rename_i hlabels _ _
    cases hasked
    exact (tells_union (hnamed hlabels) hnumbered).congr (by rw [isAmongKeys_iff, or_comm])

end Keys

section Relations

open Optimizer

variable (h : catalog.HasRelation entity path field target recField) (hvalues : values.OfKeys target)
  {k : Connective}

include h

theorem hasMember_iff : catalog.HasMember field target values r ↔
    (∃ r' ∈ catalog.linked field target r, IsAmongKeys target values r') ∨
      (.null ∈ values.values ∧ ∀ r', r' ∉ catalog.linked field target r) := by
  simp only [HasMember, mem_linked_iff h.relational h.ids]

include hvalues

/-- What is made of a set on a relation to many records tells whether the record has a member. -/
theorem tells_outcome : catalog.Tells (Optimizer.outcome path k (asked target values) values.containsNull)
    entity r (catalog.HasMember field target values r ↔ k = .or) := by
  have hunlinked : catalog.Tells (unlinked path k none) entity r
      ((∀ r', r' ∉ catalog.linked field target r) ↔ k = .or) := tells_unlinked h.toLeadsTo
  cases hasked : asked target values with
  | none =>
    have hlabels : labelsOf values = [] ∧ idsOf values = [] := by
      unfold asked at hasked
      split at hasked <;> first
        | exact ⟨‹_›, ‹_›⟩
        | cases hasked
    have hnull : .null ∈ values.values := by
      have hids := hlabels.2
      rw [idsOf, withoutLabels, hlabels.1] at hids
      exact containsNull_iff.1 (containsNull_of_filter hvalues.some hids)
    have hnone : ∀ r', ¬IsAmongKeys target values r' := by
      simp [isAmongKeys_iff, hlabels]
    refine hunlinked.congr ?_
    simp [hasMember_iff h, hnone, hnull]
  | some X =>
    have hX : ∀ r' ∈ catalog.linked field target r,
        catalog.Tells X target r' (IsAmongKeys target values r') := by
      intro r' hr'
      obtain ⟨x, hid⟩ := h.numbered r' (mem_linked hr')
      exact tells_asked h.named hvalues hasked hid
    have hlinked := tells_linked (m := none) h.toLeadsTo (k := k) hX
    cases hnull : values.containsNull with
    | true =>
      rw [Optimizer.outcome, ← sortChildren_unlinked]
      refine (tells_two hlinked hunlinked).congr ?_
      simp [hasMember_iff h, containsNull_iff.1 hnull]
    | false =>
      have hnot : .null ∉ values.values := by
        rw [← containsNull_iff, hnull]
        exact Bool.false_ne_true
      exact hlinked.congr (by simp [hasMember_iff h, hnot])

omit hvalues

theorem link_value (htype : field.type = .many2one) (hr : r ∈ catalog.records entity.name) :
    (∃ r' x, catalog.IsRelated field target r r' ∧ Record.id? r' = some x ∧
        field.valueOf (Record.get? r field.name) = .int x ∧
        ∀ s, catalog.IsRelated field target r s → s = r') ∨
      (field.valueOf (Record.get? r field.name) = .null ∧
        ∀ s, ¬catalog.IsRelated field target r s) := by
  have hname : field.name = path := Entity.name_of_field? h.found
  have hrelated : ∀ s, catalog.IsRelated field target r s ↔ s ∈ catalog.records target.name ∧
      ∃ x, Record.id? s = some x ∧ Record.get? r path = some (.integer x) := by
    intro s
    rw [IsRelated, htype, hname]
  simp only [hrelated, hname]
  obtain hlink | hlink | ⟨r', hr', x, hid, hlink⟩ := h.links htype r hr
  · exact .inr ⟨by simp [Field.valueOf, htype, hlink], by simp [hlink]⟩
  · exact .inr ⟨by simp [Field.valueOf, htype, hlink, Value.ofJson?], by simp [hlink]⟩
  · refine .inl ⟨r', x, ⟨hr', x, hid, hlink⟩, hid, ?_, ?_⟩
    · simp [Field.valueOf, htype, hlink, Value.ofJson?, Record.isInt64_of_id? hid]
    · rintro s ⟨hs, y, hid', hlink'⟩
      obtain rfl : x = y := by simpa [hlink] using hlink'
      exact eq_of_id? h.ids hs hr' hid' hid

theorem tells_link (htype : field.type = .many2one) (hr : r ∈ catalog.records entity.name)
    (hfloats : ∀ v ∈ values.values, v.isFloat = false) (hlabels : labelsOf values = []) :
    catalog.Tells (.condition (membership path k values)) entity r
      (catalog.HasMember field target values r ↔ k = .or) := by
  have hop : (membership path k values).operator = .mem ↔ k = .or := by
    cases k <;> simp [membership, Connective.member]
  have hheld : ∀ {v : Value}, field.valueOf (Record.get? r field.name) = v → v.isFloat = false →
      catalog.Tells (.condition (membership path k values)) entity r
        (v ∈ values.values ↔ k = .or) := by
    intro v hv hfloat
    have hleaf : catalog.Tells (.condition (membership path k values)) entity r
        (values.holds v = true ↔ (membership path k values).operator = .mem) :=
      tells_membership (h.isDotted (c := membership path k values))
        (h.head (c := membership path k values)) hv isMembership_member rfl
    exact hleaf.congr (by rw [ValueSet.holds_eq_true hfloats hfloat, hop])
  have hkeys : ∀ r', IsAmongKeys target values r' ↔
      ∃ x, Record.id? r' = some x ∧ .int x ∈ values.values := by
    intro r'
    rw [IsAmongKeys, or_iff_left]
    rintro ⟨s, -, hs⟩
    simpa [hlabels] using text_mem_labelsOf.2 hs
  simp only [HasMember, hkeys]
  obtain ⟨r', x, hrelated, hid, hvalue, honly⟩ | ⟨hvalue, hnone⟩ := link_value h htype hr
  · refine (hheld hvalue rfl).congr (iff_congr ?_ Iff.rfl)
    constructor
    · exact fun hx => .inl ⟨r', hrelated, x, hid, hx⟩
    · rintro (⟨s, hs, y, hid', hy⟩ | ⟨-, hnone⟩)
      · obtain rfl := honly s hs
        obtain rfl := Option.some.inj (hid.symm.trans hid')
        exact hy
      · exact absurd hrelated (hnone r')
  · exact (hheld hvalue rfl).congr (by simp [hnone])

/-- A member goes by a label of the set, or is a member of what is left of the set. -/
theorem hasMember_split : catalog.HasMember field target values r ↔
    (∃ r' ∈ catalog.linked field target r,
      ∃ s, Record.get? r' target.recName = some (.string s) ∧ .text s ∈ labelsOf values) ∨
    catalog.HasMember field target (withoutLabels values) r := by
  have hint : ∀ x, .int x ∈ (withoutLabels values).values ↔ .int x ∈ values.values :=
    fun x => mem_withoutLabels rfl rfl
  have hnull : .null ∈ (withoutLabels values).values ↔ .null ∈ values.values :=
    mem_withoutLabels rfl rfl
  have htext : ∀ s, .text s ∉ (withoutLabels values).values :=
    fun s hs => nomatch (mem_of_withoutLabels hs).2
  simp only [HasMember, IsAmongKeys, mem_linked_iff h.relational h.ids, text_mem_labelsOf, hint,
    hnull, htext, and_false, exists_false, or_false, and_or_left, exists_or]
  rw [← or_assoc]
  exact or_congr_left or_comm

include hvalues

theorem exists_makes_toOne (htype : field.type = .many2one) :
    ∃ e, Makes catalog 6 entity (.condition (membership path k values)) e ∧
      ∀ r ∈ catalog.records entity.name,
        catalog.Tells e entity r (catalog.HasMember field target values r ↔ k = .or) := by
  have hone : field.type.isX2Many = false := by
    rw [htype]
    rfl
  by_cases hlabels : labelsOf values = []
  · have hsettled := settled_toOne (k := k) h.toLeadsTo hvalues.some hone hlabels
    exact ⟨_, .of_settled hsettled (Nat.zero_le 6),
      fun r hr => tells_link h htype hr (fun v => hvalues.isFloat) hlabels⟩
  · refine ⟨_, (makes_toOne h.toLeadsTo hvalues.some hone h.named
      (hvalues.plain_of_labels hlabels) hlabels).mono (by decide), fun r hr => ?_⟩
    have hlabelled : ∀ r' ∈ catalog.linked field target r, catalog.Tells
        (.condition (named target (labelsOf values))) target r'
        (∃ s, Record.get? r' target.recName = some (.string s) ∧ .text s ∈ labelsOf values) :=
      fun r' _ => tells_named h.named (hvalues.plain_of_labels hlabels) fun v => hvalues.labels
    have hnamed := tells_linked (k := k) (m := none) h.toLeadsTo hlabelled
    have hnone : labelsOf (withoutLabels values) = [] := labelsOf_withoutLabels
    have hrest := tells_link (k := k) h htype hr
      (fun v hv => hvalues.isFloat (mem_of_withoutLabels hv).1) hnone
    rw [hasMember_split h]
    split
    · rename_i hempty
      have hmember : ¬catalog.HasMember field target (withoutLabels values) r := by
        have hall : (withoutLabels values).values = [] := List.isEmpty_iff.1 hempty
        simp [HasMember, IsAmongKeys, hall]
      exact hnamed.congr (by rw [or_iff_left hmember])
    · exact tells_two hnamed hrest

theorem exists_makes : ∃ e, Makes catalog 6 entity (.condition (membership path k values)) e ∧
    ∀ r ∈ catalog.records entity.name,
      catalog.Tells e entity r (catalog.HasMember field target values r ↔ k = .or) := by
  cases hmany : field.type.isX2Many with
  | true =>
    exact ⟨_, makes_many h.toLeadsTo hvalues.some hmany h.named hvalues.plain_of_labels
      fun v => hvalues.ids, fun r _ => tells_outcome h hvalues⟩
  | false => exact exists_makes_toOne h hvalues (FieldType.eq_many2one h.relational hmany)

theorem search_membership {S : Record → Prop} [DecidablePred S]
    (hS : ∀ r, S r ↔ (catalog.HasMember field target values r ↔ k = .or)) :
    (catalog.search entity (.condition (membership path k values))).result =
      .ok (((catalog.records entity.name).filter fun r => S r).filterMap Record.id?) := by
  obtain ⟨e, hmakes, htells⟩ := exists_makes (k := k) h hvalues
  obtain ⟨found, hfound, hsame⟩ := hmakes.exists_node (by decide)
  refine searchWithin_eq_ok.2 ⟨found, node_of_le (by decide) hfound, matching_of_tells ?_⟩
  exact fun r hr _ _ => ((htells r hr).of_canonical hsame.symm).congr (hS r).symm

/-- A search for members of a set on a relation finds the records that have one, and the search for
the opposite finds the others. -/
theorem search_members [DecidablePred (catalog.HasMember field target values)] :
    (catalog.search entity (.leaf path .mem (.set values))).result =
        .ok (((catalog.records entity.name).filter fun r =>
          catalog.HasMember field target values r).filterMap Record.id?) ∧
      (catalog.search entity (.leaf path .notMem (.set values))).result =
        .ok (((catalog.records entity.name).filter fun r =>
          ¬catalog.HasMember field target values r).filterMap Record.id?) :=
  ⟨search_membership (k := .or) h hvalues fun r => by simp,
    search_membership (k := .and) h hvalues fun r => by simp⟩

end Relations

/-- A task with a reviewer who goes by one of the keys, and a task that has none. -/
theorem search_members_reviewers :
    let person : Entity := { name := "person", fields := [{ name := "name", type := .char }] }
    let task : Entity := { name := "task", fields := [.many2many "reviewers" "person"] }
    let bob : Record := [("id", .integer 2), ("name", .string "Bob")]
    let reviewed : Record := [("id", .integer 1), ("reviewers", .array [.integer 2])]
    let unreviewed : Record := [("id", .integer 2)]
    let catalog : Catalog :=
      { entities := [task, person], tables := [("person", [bob]), ("task", [reviewed, unreviewed])] }
    let values : ValueSet := ⟨[.int 1, .text "Bob"]⟩
    catalog.HasRelation task "reviewers" (.many2many "reviewers" "person") person
        { name := "name", type := .char } ∧
      values.OfKeys person ∧
      (catalog.search task (.leaf "reviewers" .mem (.set values))).result = .ok [1] ∧
      (catalog.search task (.leaf "reviewers" .notMem (.set values))).result = .ok [2] := by
  intro person task bob reviewed unreviewed catalog values
  have hrelation : catalog.HasRelation task "reviewers" (.many2many "reviewers" "person") person
      { name := "name", type := .char } :=
    ⟨⟨⟨by decide, by cbv, rfl, rfl⟩, rfl, by decide, rfl⟩, ⟨by cbv, rfl, rfl, rfl, by cbv⟩,
      by cbv; decide, forall_mem_singleton.2 ⟨2, by cbv⟩, nofun⟩
  have hvalues : values.OfKeys person :=
    ⟨rfl, forall_mem_cons.2 ⟨.inr (.inl ⟨1, rfl⟩), forall_mem_singleton.2 (.inr (.inr ⟨"Bob", rfl⟩))⟩,
      fun _ _ => by decide⟩
  have hreviewed : catalog.HasMember (.many2many "reviewers" "person") person values reviewed :=
    .inl ⟨bob, ⟨mem_cons_self .., 2, _, by cbv, rfl, mem_cons_self ..⟩,
      .inr ⟨"Bob", by cbv, by decide⟩⟩
  have hunreviewed : ¬catalog.HasMember (.many2many "reviewers" "person") person values unreviewed := by
    rintro (⟨r', ⟨-, x, items, -, hitems, -⟩, -⟩ | ⟨hnull, -⟩)
    · cases hitems
    · simp [values] at hnull
  classical
  obtain ⟨hmembers, hothers⟩ := search_members hrelation hvalues
  have hrecords : catalog.records task.name = [reviewed, unreviewed] := rfl
  have hids : Record.id? reviewed = some 1 ∧ Record.id? unreviewed = some 2 := ⟨by cbv, by cbv⟩
  refine ⟨hrelation, hvalues, hmembers.trans ?_, hothers.trans ?_⟩
  · simp [hrecords, hreviewed, hunreviewed, hids]
  · simp [hrecords, hreviewed, hunreviewed, hids]

/-- A relation with a dot in its name cannot be searched on, nor by names from a field with one. -/
theorem search_members_dotted :
    let person (name : String) : Entity :=
      { name := "person", recName := name, fields := [{ name, type := .char }] }
    let task (link : String) : Entity := { name := "task", fields := [.many2one link "person"] }
    let ann (name : String) : Record := [("id", .integer 1), (name, .string "Ann")]
    let record (link : String) : Record := [("id", .integer 1), (link, .integer 1)]
    let catalog (link name : String) : Catalog :=
      { entities := [task link, person name]
        tables := [("task", [record link]), ("person", [ann name])] }
    let values : ValueSet := ⟨[.text "Ann"]⟩
    let relates (link name : String) : Prop :=
      (∀ entity ∈ [task link, person name], entity.field? Entity.idName = some Entity.idField ∧
        (((catalog link name).records entity.name).filterMap Record.id?).Nodup) ∧
      (task link).field? link = some (.many2one link "person") ∧
      (catalog link name).entity? "person" = some (person name) ∧
      (person name).IsNamed { name, type := .char } ∧
      (catalog link name).HasMember (.many2one link "person") (person name) values (record link)
    (relates "to.owner" "name" ∧
      ((catalog "to.owner" "name").search (task "to.owner")
        (.leaf "to.owner" .mem (.set values))).result =
          .error (.unknownField "task" "to" "('to.owner', 'in', ['Ann'])")) ∧
    relates "owner" "full.name" ∧
      ((catalog "owner" "full.name").search (task "owner")
        (.leaf "owner" .mem (.set values))).result =
          .error (.unknownField "person" "full" "('full.name', 'in', ['Ann'])") := by
  intro person task ann record catalog values relates
  have hrelates : ∀ link name, (task link).field? Entity.idName = some Entity.idField →
      (person name).field? Entity.idName = some Entity.idField →
      (task link).field? link = some (.many2one link "person") →
      (person name).field? name = some { name, type := .char } →
      Record.get? (record link) link = some (.integer 1) →
      Record.get? (ann name) name = some (.string "Ann") → relates link name := by
    intro link name htask hperson hlink hname howner hann
    refine ⟨forall_mem_cons.2 ⟨⟨htask, by cbv; decide⟩, forall_mem_singleton.2
      ⟨hperson, by cbv; decide⟩⟩, hlink, rfl, ⟨hname, rfl, rfl, rfl, hperson⟩, .inl ?_⟩
    exact ⟨ann name, ⟨mem_cons_self .., 1, rfl, howner⟩, .inr ⟨"Ann", hann, mem_cons_self ..⟩⟩
  exact ⟨⟨hrelates _ _ (by cbv) (by cbv) (by cbv) (by cbv) (by cbv) (by cbv), by cbv⟩,
    hrelates _ _ (by cbv) (by cbv) (by cbv) (by cbv) (by cbv) (by cbv), by cbv⟩

end Catalog

end QueryDomain
