import QueryDomain.Proofs.Optimization.FixedPoint
import QueryDomain.Proofs.Records.Truth

/-! Catalogs whose records hold what their fields promise, and in which a field means the same
wherever it is reached from. -/
namespace QueryDomain.Catalog

open List

/-- There are no search hooks, and the records hold what their fields promise. -/
structure Regular (catalog : Catalog) : Prop where
  hookless : catalog.Hookless
  ids : ∀ entity ∈ catalog.entities, ((catalog.records entity.name).filterMap Record.id?).Nodup
  /-- A many2one is unset or holds the identifier of a record. -/
  many2ones : ∀ entity ∈ catalog.entities, ∀ field ∈ entity.fields, field.type = .many2one →
    ∀ record ∈ catalog.records entity.name, ∀ json, Record.get? record field.name = some json →
    json = .null ∨ ∃ target id, field.comodel.bind catalog.entity? = some target ∧
      json = .integer id ∧ (catalog.record? target.name id).isSome = true
  /-- Records are not named by numbers. -/
  labels : ∀ entity ∈ catalog.entities, ∀ last field,
    catalog.Reaches entity entity.recName last field → field.type.isNumeric = false
  /-- Numbers are integers of 64 bits. -/
  integers : ∀ name, ∀ record ∈ catalog.records name, ∀ field json,
    Record.get? record field = some json → ∀ x, Value.ofJson? json ≠ some (.float x)

def isLink (catalog : Catalog) (field : Field) : Option Json → Bool
  | none | some .null => true
  | some (.integer id) =>
    ((field.comodel.bind catalog.entity?).bind fun target =>
      catalog.record? target.name id).isSome
  | some _ => false

/-- Looks through the fields and the tables. Labels are taken to be fields of the entity itself. -/
def isRegular (catalog : Catalog) : Bool :=
  (catalog.entities.all fun entity =>
    (Text.cut '.' entity.recName).2.isNone &&
    ((entity.field? (Text.cut '.' entity.recName).1).all fun field => !field.type.isNumeric) &&
    entity.fields.all fun field => field.searchHook.isNone && (field.type != .many2one ||
      (catalog.records entity.name).all fun record =>
        catalog.isLink field (Record.get? record field.name))) &&
  catalog.tables.all fun table =>
    decide (table.2.filterMap Record.id?).Nodup && table.2.all fun record =>
      record.all fun member => (Value.ofJson? member.2).all fun v => !v.isFloat

theorem records_eq (catalog : Catalog) (name : String) : catalog.records name = [] ∨
    ∃ table ∈ catalog.tables, catalog.records name = table.2 := by
  unfold records Json.member?
  cases hfind : catalog.tables.find? fun (key, _) => key == name with
  | none => exact .inl rfl
  | some table => exact .inr ⟨table, mem_of_find?_eq_some hfind, rfl⟩

theorem regular_of_isRegular {catalog : Catalog} (h : catalog.isRegular = true) :
    catalog.Regular := by
  simp only [isRegular, Bool.and_eq_true, all_eq_true, Option.isNone_iff_eq_none,
    decide_eq_true_eq] at h
  obtain ⟨hentities, htables⟩ := h
  refine ⟨fun entity hentity field hfield => ?_, fun entity _ => ?_,
    fun entity hentity field hfield htype record hrecord json hjson => ?_,
    fun entity hentity last field hreaches => ?_, fun name record hrecord field json hjson x hx => ?_⟩
  · exact ((hentities entity hentity).2 field hfield).1
  · obtain hnone | ⟨table, htable, hrecords⟩ := catalog.records_eq entity.name
    · rw [hnone]
      exact nodup_nil
    · rw [hrecords]
      exact (htables table htable).1
  · have hlink := ((hentities entity hentity).2 field hfield).2
    rw [htype] at hlink
    simp only [bne_self_eq_false, Bool.false_or, all_eq_true] at hlink
    have hlink := hlink record hrecord
    rw [hjson] at hlink
    unfold isLink at hlink
    cases json with
    | null => exact .inl rfl
    | integer id =>
      obtain ⟨r, hr⟩ := Option.isSome_iff_exists.1 hlink
      obtain ⟨target, htarget, hr⟩ := Option.bind_eq_some_iff.1 hr
      exact .inr ⟨target, id, htarget, rfl, by rw [hr]; rfl⟩
    | _ => cases hlink
  · obtain ⟨⟨hplain, hlabel⟩, -⟩ := hentities entity hentity
    cases hreaches with
    | here hfield _ =>
      rw [hfield] at hlabel
      simpa using hlabel
    | through hrest _ _ _ _ =>
      rw [hplain] at hrest
      cases hrest
  · obtain hnone | ⟨table, htable, hrecords⟩ := catalog.records_eq name
    · rw [hnone] at hrecord
      cases hrecord
    · rw [hrecords] at hrecord
      obtain ⟨member, hmember, rfl⟩ := Option.map_eq_some_iff.1 hjson
      have hfloat := (htables table htable).2 record hrecord member (mem_of_find?_eq_some hmember)
      rw [hx] at hfloat
      cases hfloat

/-- A field means the same wherever it is reached from. -/
structure Uniform (catalog : Catalog) : Prop where
  /-- An identifier that is declared is no relation. -/
  ids : ∀ entity ∈ catalog.entities, ∀ field ∈ entity.fields,
    field.name = Entity.idName → field.isRelational = false
  /-- What an inherited field is read from is a number only if the field is one, and leads to
  records only where the field does. -/
  inherited : ∀ entity ∈ catalog.entities, ∀ field ∈ entity.fields, ∀ link owner original,
    field.delegatedVia = some link → catalog.Leads entity link owner →
    owner.field? field.name = some original →
    (original.type.isNumeric = true → field.type.isNumeric = true) ∧
      ∀ target, catalog.target? owner field.name = some target →
        catalog.target? entity field.name = some target

end QueryDomain.Catalog
