import Mathlib.Data.List.TakeDrop
import Mathlib.Data.List.TakeWhile
import QueryDomain.Schema.Catalog

/-! Where paths lead: from an entity, by the relation that a path starts with, to another. -/
namespace QueryDomain

theorem Entity.name_of_field? {e : Entity} {name : String} {field : Field}
    (h : e.field? name = some field) : field.name = name := by
  unfold field? at h
  split at h
  · rename_i found hfound
    cases h
    simpa using List.find?_some hfound
  · split at h
    · rename_i hid
      cases h
      exact hid.symm
    · cases h

theorem Entity.field?_name {e : Entity} {name : String} {field : Field}
    (h : e.field? name = some field) : e.field? field.name = some field := by
  rw [name_of_field? h]
  exact h

theorem Entity.mem_or_eq_of_field? {e : Entity} {name : String} {field : Field}
    (h : e.field? name = some field) : field ∈ e.fields ∨ field = Entity.idField := by
  unfold field? at h
  split at h
  · rename_i found hfound
    cases h
    exact .inl (List.mem_of_find?_eq_some hfound)
  · split at h <;> cases h
    exact .inr rfl

theorem Field.isRelational_of_isX2Many {field : Field} (h : field.type.isX2Many = true) :
    field.isRelational = true := by
  unfold Field.isRelational
  cases htype : field.type <;> rw [htype] at h <;> first
    | rfl
    | cases h

namespace Text

variable {separator : Char} {s : String}

theorem cut_fst_of_none (h : (cut separator s).2 = none) : (cut separator s).1 = s := by
  unfold cut at h ⊢
  dsimp only at h ⊢
  split
  · rfl
  · rename_i heq
    rw [heq] at h
    cases h

theorem cut_snd_eq_none : (cut separator s).2 = none ↔ separator ∉ s.toList := by
  unfold cut
  rw [List.span_eq_takeWhile_dropWhile]
  dsimp only
  cases htail : s.toList.dropWhile (· != separator) with
  | nil =>
    simp only [true_iff]
    intro hmem
    simpa using List.dropWhile_eq_nil_iff.1 htail separator hmem
  | cons c rest =>
    simp only [reduceCtorEq, false_iff, not_not]
    have hne : s.toList.dropWhile (· != separator) ≠ [] := by simp [htail]
    have hhead := List.head_dropWhile_not (· != separator) hne
    have hc : c = separator := by simpa [htail] using hhead
    refine (List.dropWhile_sublist (· != separator)).mem ?_
    rw [htail, hc]
    exact List.mem_cons_self ..

theorem cut_cut_fst : (cut separator (cut separator s).1).2 = none := by
  rw [cut_snd_eq_none]
  by_cases h : (cut separator s).2 = none
  · rw [cut_fst_of_none h]
    exact cut_snd_eq_none.1 h
  · unfold cut at h ⊢
    rw [List.span_eq_takeWhile_dropWhile] at h ⊢
    dsimp only at h ⊢
    split
    · rename_i htail
      simp [htail] at h
    · rw [String.toList_ofList]
      intro hmem
      simpa using List.mem_takeWhile_imp hmem

end Text

theorem Condition.rest?_eq_none {c : Condition} : c.rest? = none ↔ c.isDotted = false := by
  unfold rest? isDotted
  rw [Text.cut_snd_eq_none]
  simp

theorem Entity.conditionField_eq_ok {e : Entity} {c : Condition} {field : Field} :
    e.conditionField c = .ok field ↔ e.field? c.head = some field := by
  unfold conditionField
  split <;> simp_all

namespace Catalog

variable {catalog : Catalog} {entity target : Entity}

def target? (catalog : Catalog) (entity : Entity) (path : String) : Option Entity :=
  (entity.field? (Text.cut '.' path).1).bind fun field =>
    if field.name = Entity.idName then some entity
    else if field.isRelational then field.comodel.bind catalog.entity? else none

theorem comodel_eq_ok {c : Condition} {field : Field} :
    catalog.comodel c field = .ok target ↔ field.comodel.bind catalog.entity? = some target := by
  unfold comodel entity
  cases field.comodel with
  | none => simp
  | some name =>
    dsimp only [Option.bind_some]
    split <;> simp_all

theorem entity?_name {name : String} (h : catalog.entity? name = some entity) :
    catalog.entity? entity.name = some entity := by
  have hname : entity.name = name := by simpa using List.find?_some h
  rw [hname]
  exact h

theorem entity?_of_comodel {c : Condition} {field : Field}
    (h : catalog.comodel c field = .ok target) : catalog.entity? target.name = some target := by
  obtain ⟨name, -, hname⟩ := Option.bind_eq_some_iff.1 (comodel_eq_ok.1 h)
  exact entity?_name hname

theorem target?_of_id {c : Condition} {field : Field} (hfield : entity.field? c.head = some field)
    (hid : field.name = Entity.idName) : catalog.target? entity c.path = some entity := by
  change entity.field? (Text.cut '.' c.path).1 = some field at hfield
  rw [target?, hfield, Option.bind_some, if_pos hid]

theorem target?_of_comodel {c : Condition} {field : Field}
    (hfield : entity.field? c.head = some field) (hid : field.name ≠ Entity.idName)
    (hrelational : field.isRelational = true) (h : catalog.comodel c field = .ok target) :
    catalog.target? entity c.path = some target := by
  change entity.field? (Text.cut '.' c.path).1 = some field at hfield
  rw [target?, hfield, Option.bind_some, if_neg hid, if_pos hrelational]
  exact comodel_eq_ok.1 h

theorem comodel_of_target? {c : Condition} {field : Field}
    (hfield : entity.field? c.head = some field) (hid : field.name ≠ Entity.idName)
    (h : catalog.target? entity c.path = some target) :
    field.isRelational = true ∧ catalog.comodel c field = .ok target := by
  change entity.field? (Text.cut '.' c.path).1 = some field at hfield
  rw [target?, hfield, Option.bind_some, if_neg hid] at h
  split at h
  · exact ⟨‹_›, comodel_eq_ok.2 h⟩
  · cases h

theorem entity?_target? (hentity : catalog.entity? entity.name = some entity) {path : String}
    (h : catalog.target? entity path = some target) :
    catalog.entity? target.name = some target := by
  unfold target? at h
  obtain ⟨field, -, h⟩ := Option.bind_eq_some_iff.1 h
  split at h
  · cases h
    exact hentity
  · split at h
    · obtain ⟨name, -, h⟩ := Option.bind_eq_some_iff.1 h
      exact entity?_name h
    · cases h

/-- A path from an entity ends at a field of an entity. A path into a document ends at the field
that holds the document. -/
inductive Reaches (catalog : Catalog) : Entity → String → Entity → Field → Prop
  | here {entity path field} : entity.field? (Text.cut '.' path).1 = some field →
      ((Text.cut '.' path).2 = none ∨ field.type = .json) → Reaches catalog entity path entity field
  | through {entity path rest relation next last field} : (Text.cut '.' path).2 = some rest →
      entity.field? (Text.cut '.' path).1 = some relation → relation.isRelational = true →
      catalog.target? entity path = some next → Reaches catalog next rest last field →
      Reaches catalog entity path last field

/-- A path from an entity leads to records of another. -/
def Leads (catalog : Catalog) (entity : Entity) (path : String) (target : Entity) : Prop :=
  ∃ last field, catalog.Reaches entity path last field ∧
    catalog.target? last field.name = some target

theorem target?_head (catalog : Catalog) (entity : Entity) (path : String) :
    catalog.target? entity (Text.cut '.' path).1 = catalog.target? entity path := by
  unfold target?
  rw [Text.cut_fst_of_none Text.cut_cut_fst]

theorem target?_name {field : Field} {path : String}
    (h : entity.field? (Text.cut '.' path).1 = some field) :
    catalog.target? entity field.name = catalog.target? entity path := by
  rw [Entity.name_of_field? h, target?_head]

theorem leads_of_target? {path : String} {field : Field} {target : Entity}
    (hfield : entity.field? (Text.cut '.' path).1 = some field)
    (hends : (Text.cut '.' path).2 = none ∨ field.type = .json)
    (h : catalog.target? entity path = some target) : catalog.Leads entity path target :=
  ⟨entity, field, .here hfield hends, by rwa [target?_name hfield]⟩

theorem Leads.through {path rest : String} {relation : Field} {next target : Entity}
    (hrest : (Text.cut '.' path).2 = some rest)
    (hfield : entity.field? (Text.cut '.' path).1 = some relation)
    (hrelational : relation.isRelational = true) (hnext : catalog.target? entity path = some next)
    (h : catalog.Leads next rest target) : catalog.Leads entity path target := by
  obtain ⟨last, field, hreaches, htarget⟩ := h
  exact ⟨last, field, .through hrest hfield hrelational hnext hreaches, htarget⟩

theorem Reaches.of_end {path : String} {last : Entity} {field reached : Field}
    (h : catalog.Reaches entity path last reached)
    (hfield : entity.field? (Text.cut '.' path).1 = some field)
    (hends : (Text.cut '.' path).2 = none ∨ field.type = .json) :
    last = entity ∧ reached = field := by
  cases h with
  | here hfield' _ => exact ⟨rfl, Option.some.inj (hfield'.symm.trans hfield)⟩
  | through hrest hrelation hrelational _ _ =>
    obtain rfl := Option.some.inj (hrelation.symm.trans hfield)
    obtain hname | hjson := hends
    · rw [hname] at hrest
      cases hrest
    · rw [Field.isRelational, hjson] at hrelational
      cases hrelational

theorem Leads.of_end {path : String} {field : Field} {target : Entity}
    (h : catalog.Leads entity path target)
    (hfield : entity.field? (Text.cut '.' path).1 = some field)
    (hends : (Text.cut '.' path).2 = none ∨ field.type = .json) :
    catalog.target? entity path = some target := by
  obtain ⟨last, reached, hreaches, htarget⟩ := h
  obtain ⟨rfl, rfl⟩ := hreaches.of_end hfield hends
  rwa [target?_name hfield] at htarget

/-- A path that crosses no relation of an entity ends at its field on another entity too, if the
field leads there only where it leads from the first. -/
theorem Reaches.of_inherited {path : String} {owner last : Entity} {field reached : Field}
    (h : catalog.Reaches owner path last reached)
    (hfield : entity.field? (Text.cut '.' path).1 = some field)
    (hends : (Text.cut '.' path).2 = none ∨ field.type = .json)
    (hleads : ∀ original, owner.field? (Text.cut '.' path).1 = some original →
      ∀ target, catalog.target? owner path = some target →
        catalog.target? entity path = some target) :
    last = owner ∧ owner.field? (Text.cut '.' path).1 = some reached := by
  cases h with
  | here hreached _ => exact ⟨rfl, hreached⟩
  | @through _ _ _ relation next _ _ hrest hrelation hrelational hnext _ =>
    exfalso
    obtain hname | hjson := hends
    · rw [hname] at hrest
      cases hrest
    · -- A document leads nowhere unless it is the identifier, and then both entities are the same.
      have htarget := hleads relation hrelation next hnext
      have hname := (Entity.name_of_field? hrelation).trans (Entity.name_of_field? hfield).symm
      unfold target? at htarget hnext
      rw [hfield, Option.bind_some, Field.isRelational, hjson] at htarget
      rw [hrelation, Option.bind_some, hname] at hnext
      split at htarget
      · rw [if_pos ‹_›] at hnext
        cases htarget
        cases hnext
        obtain rfl := Option.some.inj (hrelation.symm.trans hfield)
        rw [Field.isRelational, hjson] at hrelational
        cases hrelational
      · cases htarget

theorem Leads.of_plain {path : String} {target : Entity} (h : catalog.Leads entity path target)
    (hplain : (Text.cut '.' path).2 = none) : catalog.target? entity path = some target := by
  obtain ⟨last, field, hreaches, htarget⟩ := h
  cases hreaches with
  | here hfield _ => rwa [target?_name hfield] at htarget
  | through hrest _ _ _ _ =>
    rw [hplain] at hrest
    cases hrest

theorem Reaches.entity? {path : String} {last : Entity} {field : Field}
    (h : catalog.Reaches entity path last field)
    (hentity : catalog.entity? entity.name = some entity) :
    catalog.entity? last.name = some last := by
  induction h with
  | here _ _ => exact hentity
  | through _ _ _ hnext _ ih => exact ih (entity?_target? hentity hnext)

theorem Leads.entity? {path : String} {target : Entity} (h : catalog.Leads entity path target)
    (hentity : catalog.entity? entity.name = some entity) :
    catalog.entity? target.name = some target := by
  obtain ⟨last, field, hreaches, htarget⟩ := h
  exact entity?_target? (hreaches.entity? hentity) htarget

theorem mem_of_target? {path : String} (h : catalog.target? entity path = some target) :
    target ∈ entity :: catalog.entities := by
  unfold target? at h
  obtain ⟨field, -, h⟩ := Option.bind_eq_some_iff.1 h
  split at h
  · cases h
    exact List.mem_cons_self ..
  · split at h
    · obtain ⟨name, -, h⟩ := Option.bind_eq_some_iff.1 h
      exact List.mem_cons_of_mem _ (List.mem_of_find?_eq_some h)
    · cases h

theorem Reaches.mem {path : String} {last : Entity} {field : Field}
    (h : catalog.Reaches entity path last field) : last ∈ entity :: catalog.entities := by
  induction h with
  | here _ _ => exact List.mem_cons_self ..
  | through _ _ _ hnext _ ih =>
    obtain rfl | hmem := List.mem_cons.1 ih
    · exact mem_of_target? hnext
    · exact List.mem_cons_of_mem _ hmem

theorem Leads.mem {path : String} {target : Entity} (h : catalog.Leads entity path target) :
    target ∈ entity :: catalog.entities := by
  obtain ⟨last, field, hreaches, htarget⟩ := h
  obtain rfl | hmem := List.mem_cons.1 (mem_of_target? htarget)
  · exact hreaches.mem
  · exact List.mem_cons_of_mem _ hmem

theorem Leads.of_head {path : String} {field : Field} {target : Entity}
    (hfield : entity.field? (Text.cut '.' path).1 = some field)
    (h : catalog.Leads entity field.name target) : catalog.target? entity path = some target := by
  have hname := Entity.name_of_field? hfield
  have hhead : entity.field? (Text.cut '.' field.name).1 = some field := by
    rwa [hname, Text.cut_fst_of_none Text.cut_cut_fst]
  rw [← target?_name hfield]
  exact h.of_end hhead (.inl (hname ▸ Text.cut_cut_fst))

end Catalog

end QueryDomain
