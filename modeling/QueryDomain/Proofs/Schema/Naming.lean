import Mathlib.Data.Set.Finite.Basic
import Mathlib.Order.RelClasses
import QueryDomain.Proofs.Schema.Demands

/-! Catalogs in which everything is found in the end. Where identifiers are no relations and names of
records are fields of their own, there are two ways in which demands could go on for ever: the label
of a record may be the label of another one, and an inherited field may be inherited again. Without
cycles among these, every chain of demands comes to an end. -/
namespace QueryDomain

namespace Catalog

/-- Labels on the path are labels of the records of the second entity. -/
def LabelledBy (catalog : Catalog) (a : Entity) (path : String) (b : Entity) : Prop :=
  ∃ field, a.field? path = some field ∧ field.isRelational = true ∧
    field.comodel.bind catalog.entity? = some b

def NamedBy (catalog : Catalog) (a b : Entity) : Prop :=
  catalog.entity? a.name = some a ∧ catalog.LabelledBy a a.recName b

def InheritsFrom (catalog : Catalog) (a b : Entity) : Prop :=
  catalog.entity? a.name = some a ∧ ∃ name field link, a.field? name = some field ∧
    field.delegatedVia = some link ∧ catalog.target? a link = some b

/-- Names of records and inherited fields lead somewhere else, and not in a circle. -/
structure IsFounded (catalog : Catalog) : Prop where
  idPlain : ∀ entity ∈ catalog.entities, ∀ field ∈ entity.fields,
    field.name = Entity.idName → field.isRelational = false
  namePlain : ∀ entity ∈ catalog.entities, '.' ∉ entity.recName.toList
  linkPlain : ∀ entity ∈ catalog.entities, ∀ field ∈ entity.fields, ∀ link,
    field.delegatedVia = some link → '.' ∉ link.toList ∧
      ∀ owned, entity.field? link = some owned → owned.delegatedVia = none
  alike : catalog.InheritsAlike
  noNameCycle : ∀ entity, ¬Relation.TransGen catalog.NamedBy entity entity
  noInheritanceCycle : ∀ entity, ¬Relation.TransGen catalog.InheritsFrom entity entity

theorem wellFounded_of_noCycle (catalog : Catalog) {R : Entity → Entity → Prop}
    (hmem : ∀ {a b}, R a b → b ∈ catalog.entities) (h : ∀ a, ¬Relation.TransGen R a a) :
    WellFounded fun b a => R a b := by
  let before : { e // e ∈ catalog.entities } → { e // e ∈ catalog.entities } → Prop :=
    fun b a => Relation.TransGen R a.1 b.1
  have htrans : IsTrans _ before := ⟨fun _ _ _ hab hbc => hbc.trans hab⟩
  have hirrefl : Std.Irrefl before := ⟨fun a => h a.1⟩
  have hfinite : Finite { e // e ∈ catalog.entities } := List.finite_toSet catalog.entities
  have hwf : WellFounded before := Finite.wellFounded_of_trans_of_irrefl before
  have hacc : ∀ a : { e // e ∈ catalog.entities }, Acc (fun b a => R a b) a.1 := by
    intro a
    induction a using hwf.induction with
    | _ a ih => exact .intro _ fun b hab => ih ⟨b, hmem hab⟩ (.single hab)
  exact ⟨fun a => .intro _ fun b hab => hacc ⟨b, hmem hab⟩⟩

theorem noCycle_of_rank {R : Entity → Entity → Prop} (rank : Entity → Nat)
    (h : ∀ {a b}, R a b → rank b < rank a) (a : Entity) : ¬Relation.TransGen R a a := by
  have hlt : ∀ {a b}, Relation.TransGen R a b → rank b < rank a := by
    intro a b hab
    induction hab with
    | single hab => exact h hab
    | tail _ hbc ih => exact Nat.lt_trans (h hbc) ih
  exact fun haa => Nat.lt_irrefl _ (hlt haa)

def NamesGoDown (catalog : Catalog) (rank : Entity → Nat) : Prop :=
  ∀ entity ∈ catalog.entities, ∀ field ∈ entity.field? entity.recName,
    field.isRelational = true → ∀ target ∈ field.comodel.bind catalog.entity?,
      rank target < rank entity

instance (catalog : Catalog) (rank : Entity → Nat) : Decidable (catalog.NamesGoDown rank) :=
  inferInstanceAs (Decidable (∀ entity ∈ catalog.entities, _))

theorem NamesGoDown.noNameCycle {catalog : Catalog} {rank : Entity → Nat}
    (h : catalog.NamesGoDown rank) (entity : Entity) :
    ¬Relation.TransGen catalog.NamedBy entity entity := by
  refine noCycle_of_rank rank ?_ entity
  rintro a b ⟨ha, field, hfield, hrelational, hb⟩
  exact h a (List.mem_of_find?_eq_some ha) field hfield hrelational b hb

/-- By the ranking, inherited fields come from entities below, where they are the same. -/
def InheritanceGoesDown (catalog : Catalog) (rank : Entity → Nat) : Prop :=
  ∀ entity ∈ catalog.entities, ∀ field ∈ entity.fields, ∀ link ∈ field.delegatedVia,
    '.' ∉ link.toList ∧ (∀ owned ∈ entity.field? link, owned.delegatedVia = none) ∧
    ∀ owner ∈ catalog.target? entity link, rank owner < rank entity ∧
      ∀ original ∈ owner.field? field.name, original.type = field.type ∧
        (catalog.target? owner field.name).map (·.name) =
          (catalog.target? entity field.name).map (·.name)

instance (catalog : Catalog) (rank : Entity → Nat) :
    Decidable (catalog.InheritanceGoesDown rank) :=
  inferInstanceAs (Decidable (∀ entity ∈ catalog.entities, _))

theorem InheritanceGoesDown.noInheritanceCycle {catalog : Catalog} {rank : Entity → Nat}
    (h : catalog.InheritanceGoesDown rank) (entity : Entity) :
    ¬Relation.TransGen catalog.InheritsFrom entity entity := by
  refine noCycle_of_rank rank ?_ entity
  rintro a b ⟨ha, name, field, link, hfield, hlink, hb⟩
  obtain hmem | rfl := Entity.mem_or_eq_of_field? hfield
  · exact ((h a (List.mem_of_find?_eq_some ha) field hmem link hlink).2.2 b hb).1
  · cases hlink

theorem eq_of_map_name (catalog : Catalog) {a b : Option Entity}
    (ha : ∀ e ∈ a, catalog.entity? e.name = some e) (hb : ∀ e ∈ b, catalog.entity? e.name = some e)
    (h : a.map (·.name) = b.map (·.name)) : a = b := by
  cases a with
  | none =>
    cases b with
    | none => rfl
    | some e => cases h
  | some e =>
    cases b with
    | none => cases h
    | some e' =>
      have hname : e.name = e'.name := Option.some.inj h
      rw [← hb e' rfl, ← hname, ha e rfl]

theorem InheritanceGoesDown.inheritsAlike {catalog : Catalog} {rank : Entity → Nat}
    (h : catalog.InheritanceGoesDown rank) : catalog.InheritsAlike := by
  intro entity field link owner original hentity hfield hlink howner horiginal
  obtain hmem | rfl := Entity.mem_or_eq_of_field? hfield
  · obtain ⟨hplain, -, hdown⟩ := h entity (List.mem_of_find?_eq_some hentity) field hmem link hlink
    obtain ⟨-, halike⟩ := hdown owner (howner.of_plain (Text.cut_snd_eq_none.2 hplain))
    obtain ⟨htype, hname⟩ := halike original horiginal
    refine ⟨htype, catalog.eq_of_map_name (fun e he => ?_) (fun e he => ?_) hname⟩
    · exact entity?_target? (howner.entity? hentity) he
    · exact entity?_target? hentity he
  · cases hlink

theorem isFounded_of_rank {catalog : Catalog} (rank : Entity → Nat)
    (hid : ∀ entity ∈ catalog.entities, ∀ field ∈ entity.fields,
      field.name = Entity.idName → field.isRelational = false)
    (hname : ∀ entity ∈ catalog.entities, '.' ∉ entity.recName.toList)
    (hnames : catalog.NamesGoDown rank) (hinherits : catalog.InheritanceGoesDown rank) :
    catalog.IsFounded where
  idPlain := hid
  namePlain := hname
  linkPlain entity hentity field hfield link hlink :=
    have hlinks := hinherits entity hentity field hfield link hlink
    ⟨hlinks.1, hlinks.2.1⟩
  alike := hinherits.inheritsAlike
  noNameCycle := hnames.noNameCycle
  noInheritanceCycle := hinherits.noInheritanceCycle

end Catalog

theorem Text.length_cut_snd {separator : Char} {s rest : String}
    (h : (cut separator s).2 = some rest) : rest.toList.length < s.toList.length := by
  unfold cut at h
  rw [List.span_eq_takeWhile_dropWhile] at h
  dsimp only at h
  split at h
  · cases h
  · rename_i c tail htail
    cases h
    have hle := (List.dropWhile_sublist (l := s.toList) (· != separator)).length_le
    rw [htail, List.length_cons] at hle
    rw [String.toList_ofList]
    omega

namespace Catalog.IsFounded

variable {catalog : Catalog} (h : catalog.IsFounded) {entity : Entity} {path : String}

include h

theorem wellFounded_namedBy : WellFounded fun b a => catalog.NamedBy a b := by
  refine catalog.wellFounded_of_noCycle ?_ h.noNameCycle
  rintro a b ⟨-, field, -, -, hb⟩
  obtain ⟨name, -, hname⟩ := Option.bind_eq_some_iff.1 hb
  exact List.mem_of_find?_eq_some hname

theorem wellFounded_inheritsFrom : WellFounded fun b a => catalog.InheritsFrom a b := by
  refine catalog.wellFounded_of_noCycle ?_ h.noInheritanceCycle
  rintro a b ⟨ha, name, field, link, -, -, hb⟩
  exact List.mem_of_find?_eq_some (entity?_target? ha hb)

theorem isRelational_id {field : Field} (hentity : catalog.entity? entity.name = some entity)
    (hfield : entity.field? Entity.idName = some field) : field.isRelational = false := by
  obtain hmem | rfl := Entity.mem_or_eq_of_field? hfield
  · exact h.idPlain entity (List.mem_of_find?_eq_some hentity) field hmem
      (Entity.name_of_field? hfield)
  · rfl

theorem target?_eq {field : Field} (hentity : catalog.entity? entity.name = some entity)
    (hfield : entity.field? (Text.cut '.' path).1 = some field)
    (hrelational : field.isRelational = true) :
    catalog.target? entity path = field.comodel.bind catalog.entity? := by
  unfold target?
  rw [hfield, Option.bind_some, if_pos hrelational, if_neg]
  intro hid
  rw [← Entity.name_of_field? hfield, hid] at hfield
  rw [h.isRelational_id hentity hfield] at hrelational
  cases hrelational

theorem link_plain {field : Field} {name link : String}
    (hentity : catalog.entity? entity.name = some entity)
    (hfield : entity.field? name = some field) (hlink : field.delegatedVia = some link) :
    (Text.cut '.' link).2 = none ∧
      ∀ owned, entity.field? link = some owned → owned.delegatedVia = none := by
  obtain hmem | rfl := Entity.mem_or_eq_of_field? hfield
  · obtain ⟨hplain, howned⟩ :=
      h.linkPlain entity (List.mem_of_find?_eq_some hentity) field hmem link hlink
    exact ⟨Text.cut_snd_eq_none.2 hplain, howned⟩
  · cases hlink

theorem acc_link {field : Field} {name link : String}
    (hentity : catalog.entity? entity.name = some entity)
    (hfield : entity.field? name = some field) (hlink : field.delegatedVia = some link) :
    Acc catalog.RaisedBy ⟨.follow, entity, link⟩ := by
  obtain ⟨hplain, howned⟩ := h.link_plain hentity hfield hlink
  have hhead : ∀ {owned}, entity.field? (Text.cut '.' link).1 = some owned →
      owned.delegatedVia = none := by
    intro owned hfield
    rw [Text.cut_fst_of_none hplain] at hfield
    exact howned owned hfield
  refine .intro _ ?_
  rintro b ⟨-, hraises⟩
  cases hraises with
  | head hrest _ _ => cases hplain.symm.trans hrest
  | rest hrest _ _ _ => cases hplain.symm.trans hrest
  | link hfield hlink => cases (hhead hfield).symm.trans hlink
  | owner hfield hlink _ => cases (hhead hfield).symm.trans hlink
  | unset _ hfield hmany2one =>
    refine .intro _ ?_
    rintro b ⟨-, hraises⟩
    cases hraises with
    | head hrest _ _ => cases hplain.symm.trans hrest
    | rest hrest _ _ _ => cases hplain.symm.trans hrest
    | link hfield hlink => cases (hhead hfield).symm.trans hlink
    | owner hfield hlink _ => cases (hhead hfield).symm.trans hlink
    | members _ hfield' htype =>
      rw [hfield, Option.some.injEq] at hfield'
      rw [← hfield', hmany2one] at htype
      cases htype
    | ids _ hfield' htype _ =>
      rw [hfield, Option.some.injEq] at hfield'
      rw [← hfield', hmany2one] at htype
      cases htype

theorem inheritsFrom_of_leads {field : Field} {name link : String} {owner : Entity}
    (hentity : catalog.entity? entity.name = some entity)
    (hfield : entity.field? name = some field) (hlink : field.delegatedVia = some link)
    (howner : catalog.Leads entity link owner) : catalog.InheritsFrom entity owner :=
  ⟨hentity, name, field, link, hfield, hlink,
    howner.of_plain (h.link_plain hentity hfield hlink).1⟩

theorem acc_compare_id (entity : Entity) :
    Acc catalog.RaisedBy ⟨.compare, entity, Entity.idName⟩ := by
  have hid : (Text.cut '.' Entity.idName).1 = Entity.idName := by decide
  induction entity using h.wellFounded_inheritsFrom.induction with
  | _ entity ih =>
    refine .intro _ ?_
    rintro b ⟨hentity, hraises⟩
    have hplain : ∀ {field}, entity.field? (Text.cut '.' Entity.idName).1 = some field →
        field.isRelational ≠ true := by
      intro field hfield
      rw [hid] at hfield
      rw [h.isRelational_id hentity hfield]
      nofun
    cases hraises with
    | head _ hfield hrelational => exact absurd hrelational (hplain hfield)
    | rest _ hfield hrelational _ => exact absurd hrelational (hplain hfield)
    | members _ hfield htype =>
      exact absurd (Field.isRelational_of_isX2Many htype) (hplain hfield)
    | ids _ hfield htype _ =>
      exact absurd (Field.isRelational_of_isX2Many htype) (hplain hfield)
    | link hfield hlink => exact h.acc_link hentity hfield hlink
    | owner hfield hlink howner =>
      exact ih _ (h.inheritsFrom_of_leads hentity hfield hlink howner)

/-- A relation to many records is compared by following it, and one to a single record is followed
by comparing it, but none is both. -/
theorem acc_plain (entity : Entity) (hplain : (Text.cut '.' path).2 = none) :
    Acc catalog.RaisedBy ⟨.compare, entity, path⟩ ∧
      Acc catalog.RaisedBy ⟨.follow, entity, path⟩ := by
  induction entity using h.wellFounded_inheritsFrom.induction with
  | _ entity ih =>
    by_cases hmany : ∃ field, entity.field? (Text.cut '.' path).1 = some field ∧
      field.type.isX2Many = true
    · obtain ⟨field, hfield, hmany⟩ := hmany
      have hfollow : Acc catalog.RaisedBy ⟨.follow, entity, path⟩ := by
        refine .intro _ ?_
        rintro b ⟨hentity, hraises⟩
        cases hraises with
        | head hrest _ _ => cases hplain.symm.trans hrest
        | rest hrest _ _ _ => cases hplain.symm.trans hrest
        | unset _ hfield' hmany2one =>
          rw [hfield, Option.some.injEq] at hfield'
          rw [hfield', hmany2one] at hmany
          cases hmany
        | link hfield hlink => exact h.acc_link hentity hfield hlink
        | owner hfield hlink howner =>
          exact (ih _ (h.inheritsFrom_of_leads hentity hfield hlink howner)).2
      refine ⟨.intro _ ?_, hfollow⟩
      rintro b ⟨hentity, hraises⟩
      cases hraises with
      | head hrest _ _ => cases hplain.symm.trans hrest
      | rest hrest _ _ _ => cases hplain.symm.trans hrest
      | members _ _ _ => exact hfollow
      | ids _ _ _ _ => exact h.acc_compare_id _
      | link hfield hlink => exact h.acc_link hentity hfield hlink
      | owner hfield hlink howner =>
        exact (ih _ (h.inheritsFrom_of_leads hentity hfield hlink howner)).1
    · have hcompare : Acc catalog.RaisedBy ⟨.compare, entity, path⟩ := by
        refine .intro _ ?_
        rintro b ⟨hentity, hraises⟩
        cases hraises with
        | head hrest _ _ => cases hplain.symm.trans hrest
        | rest hrest _ _ _ => cases hplain.symm.trans hrest
        | members _ hfield htype => exact absurd ⟨_, hfield, htype⟩ hmany
        | ids _ hfield htype _ => exact absurd ⟨_, hfield, htype⟩ hmany
        | link hfield hlink => exact h.acc_link hentity hfield hlink
        | owner hfield hlink howner =>
          exact (ih _ (h.inheritsFrom_of_leads hentity hfield hlink howner)).1
      refine ⟨hcompare, .intro _ ?_⟩
      rintro b ⟨hentity, hraises⟩
      cases hraises with
      | head hrest _ _ => cases hplain.symm.trans hrest
      | rest hrest _ _ _ => cases hplain.symm.trans hrest
      | unset _ _ _ => exact hcompare
      | link hfield hlink => exact h.acc_link hentity hfield hlink
      | owner hfield hlink howner =>
        exact (ih _ (h.inheritsFrom_of_leads hentity hfield hlink howner)).2

theorem acc_of_crossing {need : Need}
    (hother : ∀ entity path b, catalog.RaisedBy b ⟨need, entity, path⟩ →
      (∃ rest field, (Text.cut '.' path).2 = some rest ∧
        entity.field? (Text.cut '.' path).1 = some field ∧
        (b = ⟨.follow, entity, field.name⟩ ∨ ∃ target, b = ⟨need, target, rest⟩)) ∨
      (∃ owner, catalog.InheritsFrom entity owner ∧ b = ⟨need, owner, path⟩) ∨
      Acc catalog.RaisedBy b) (path : String) :
    ∀ entity, Acc catalog.RaisedBy ⟨need, entity, path⟩ := by
  generalize hlength : path.toList.length = length
  induction length using Nat.strong_induction_on generalizing path with
  | _ length ih =>
    intro entity
    induction entity using h.wellFounded_inheritsFrom.induction with
    | _ entity ih' =>
      refine .intro _ fun b hb => ?_
      obtain ⟨rest, field, hrest, hfield, rfl | ⟨target, rfl⟩⟩ | ⟨owner, howner, rfl⟩ | hacc :=
        hother entity path b hb
      · refine (h.acc_plain entity ?_).2
        rw [Entity.name_of_field? hfield]
        exact Text.cut_cut_fst
      · exact ih _ (hlength ▸ Text.length_cut_snd hrest) rest rfl target
      · exact ih' owner howner
      · exact hacc

theorem acc_follow (entity : Entity) (path : String) :
    Acc catalog.RaisedBy ⟨.follow, entity, path⟩ := by
  refine h.acc_of_crossing ?_ path entity
  rintro entity path b ⟨hentity, hraises⟩
  cases hraises with
  | head hrest hfield _ => exact .inl ⟨_, _, hrest, hfield, .inl rfl⟩
  | rest hrest hfield _ _ => exact .inl ⟨_, _, hrest, hfield, .inr ⟨_, rfl⟩⟩
  | owner hfield hlink howner =>
    exact .inr (.inl ⟨_, h.inheritsFrom_of_leads hentity hfield hlink howner, rfl⟩)
  | link hfield hlink => exact .inr (.inr (h.acc_link hentity hfield hlink))
  | unset hplain _ _ => exact .inr (.inr (h.acc_plain _ hplain).1)

theorem acc_compare (entity : Entity) (path : String) :
    Acc catalog.RaisedBy ⟨.compare, entity, path⟩ := by
  refine h.acc_of_crossing ?_ path entity
  rintro entity path b ⟨hentity, hraises⟩
  cases hraises with
  | head hrest hfield _ => exact .inl ⟨_, _, hrest, hfield, .inl rfl⟩
  | rest hrest hfield _ _ => exact .inl ⟨_, _, hrest, hfield, .inr ⟨_, rfl⟩⟩
  | owner hfield hlink howner =>
    exact .inr (.inl ⟨_, h.inheritsFrom_of_leads hentity hfield hlink howner, rfl⟩)
  | link hfield hlink => exact .inr (.inr (h.acc_link hentity hfield hlink))
  | members _ _ _ => exact .inr (.inr (h.acc_follow _ _))
  | ids _ _ _ _ => exact .inr (.inr (h.acc_compare_id _))

theorem labelledBy_of_owner {field : Field} {link : String} {owner target : Entity}
    (hentity : catalog.entity? entity.name = some entity)
    (hfield : entity.field? (Text.cut '.' path).1 = some field)
    (hlink : field.delegatedVia = some link) (howner : catalog.Leads entity link owner)
    (hplain : (Text.cut '.' path).2 = none) (htarget : catalog.LabelledBy owner path target) :
    catalog.LabelledBy entity path target := by
  obtain ⟨original, horiginal, hrelational, hcomodel⟩ := htarget
  have hhead := Text.cut_fst_of_none hplain
  rw [hhead] at hfield
  have hname := Entity.name_of_field? hfield
  obtain ⟨htype, hsame⟩ := h.alike entity field link owner original hentity
    (hname.symm ▸ hfield) hlink howner (hname.symm ▸ horiginal)
  have hrelational' : field.isRelational = true := by
    rwa [Field.isRelational, ← htype]
  refine ⟨field, hfield, hrelational', ?_⟩
  rw [hname, h.target?_eq (howner.entity? hentity) (by rwa [hhead]) hrelational,
    h.target?_eq hentity (by rwa [hhead]) hrelational'] at hsame
  rw [← hsame, hcomodel]

theorem acc_name_plain (hplain : (Text.cut '.' path).2 = none)
    (hlabels : ∀ target, catalog.LabelledBy entity path target →
      Acc catalog.RaisedBy ⟨.name, target, target.recName⟩) :
    Acc catalog.RaisedBy ⟨.name, entity, path⟩ := by
  induction entity using h.wellFounded_inheritsFrom.induction with
  | _ entity ih =>
    refine .intro _ ?_
    rintro b ⟨hentity, hraises⟩
    cases hraises with
    | head hrest _ _ => cases hplain.symm.trans hrest
    | rest hrest _ _ _ => cases hplain.symm.trans hrest
    | compared => exact h.acc_compare _ _
    | relation _ _ _ => exact h.acc_follow _ _
    | @label _ _ field comodel target _ hfield hrelational hcomodel htarget =>
      rw [h.target?_eq hentity hfield hrelational, hcomodel, Option.some.injEq] at htarget
      subst htarget
      rw [Text.cut_fst_of_none hplain] at hfield
      exact hlabels comodel ⟨field, hfield, hrelational, hcomodel⟩
    | link hfield hlink => exact h.acc_link hentity hfield hlink
    | owner hfield hlink howner =>
      refine ih _ (h.inheritsFrom_of_leads hentity hfield hlink howner) fun target htarget => ?_
      exact hlabels target (h.labelledBy_of_owner hentity hfield hlink howner hplain htarget)

/-- The label of a record leads to labels of other records, but not for ever. -/
theorem acc_label (hentity : catalog.entity? entity.name = some entity) :
    Acc catalog.RaisedBy ⟨.name, entity, entity.recName⟩ := by
  induction entity using h.wellFounded_namedBy.induction with
  | _ entity ih =>
    refine h.acc_name_plain ?_ fun target htarget => ih target ⟨hentity, htarget⟩ ?_
    · exact Text.cut_snd_eq_none.2 (h.namePlain entity (List.mem_of_find?_eq_some hentity))
    · obtain ⟨field, -, -, hcomodel⟩ := htarget
      obtain ⟨name, -, hname⟩ := Option.bind_eq_some_iff.1 hcomodel
      exact entity?_name hname

theorem acc_name (entity : Entity) (path : String) :
    Acc catalog.RaisedBy ⟨.name, entity, path⟩ := by
  refine h.acc_of_crossing ?_ path entity
  rintro entity path b ⟨hentity, hraises⟩
  cases hraises with
  | head hrest hfield _ => exact .inl ⟨_, _, hrest, hfield, .inl rfl⟩
  | rest hrest hfield _ _ => exact .inl ⟨_, _, hrest, hfield, .inr ⟨_, rfl⟩⟩
  | owner hfield hlink howner =>
    exact .inr (.inl ⟨_, h.inheritsFrom_of_leads hentity hfield hlink howner, rfl⟩)
  | link hfield hlink => exact .inr (.inr (h.acc_link hentity hfield hlink))
  | compared => exact .inr (.inr (h.acc_compare _ _))
  | relation _ _ _ => exact .inr (.inr (h.acc_follow _ _))
  | label _ hfield hrelational hcomodel htarget =>
    have htarget' := htarget
    rw [h.target?_eq hentity hfield hrelational, hcomodel, Option.some.injEq] at htarget'
    subst htarget'
    exact .inr (.inr (h.acc_label (entity?_target? hentity htarget)))

theorem acc_walk (entity : Entity) (path : String) :
    Acc catalog.RaisedBy ⟨.walk, entity, path⟩ := by
  refine h.acc_of_crossing ?_ path entity
  rintro entity path b ⟨hentity, hraises⟩
  cases hraises with
  | head hrest hfield _ => exact .inl ⟨_, _, hrest, hfield, .inl rfl⟩
  | rest hrest hfield _ _ => exact .inl ⟨_, _, hrest, hfield, .inr ⟨_, rfl⟩⟩
  | owner hfield hlink howner =>
    exact .inr (.inl ⟨_, h.inheritsFrom_of_leads hentity hfield hlink howner, rfl⟩)
  | link hfield hlink => exact .inr (.inr (h.acc_link hentity hfield hlink))
  | reached _ => exact .inr (.inr (h.acc_follow _ _))
  | seed _ => exact .inr (.inr (h.acc_name _ _))
  | parent _ _ => exact .inr (.inr (h.acc_compare _ _))
  | ownParent _ => exact .inr (.inr (h.acc_compare _ _))
  | found _ => exact .inr (.inr (h.acc_compare _ _))
  | below _ => exact .inr (.inr (h.acc_name _ _))

/-- Where names and inherited fields do not lead in a circle, every chain of demands comes to an
end. -/
theorem acyclic : catalog.Acyclic := by
  refine ⟨?_⟩
  rintro ⟨need, entity, path⟩
  cases need with
  | follow => exact h.acc_follow entity path
  | compare => exact h.acc_compare entity path
  | name => exact h.acc_name entity path
  | walk => exact h.acc_walk entity path

end Catalog.IsFounded

end QueryDomain
