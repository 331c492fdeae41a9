import QueryDomain.Proofs.Sql.Columns
import QueryDomain.Proofs.Sql.Comparison

/-! A database that holds the records of a catalog: a row for each record, and a row of a link table
for each identifier in a many2many. A sub-select over such tables is a search of the records. -/
namespace QueryDomain

open List

/-- What the column of a field holds. Here an unset boolean is unset, and not false. -/
def Field.columnValue (f : Field) : Option Json → Value
  | none | some .null => .null
  | some json => f.valueOf (some json)

theorem Field.columnValue_eq {f : Field} (htype : f.type ≠ .boolean) (json : Option Json) :
    f.columnValue json = f.valueOf json := by
  unfold columnValue
  split
  · unfold valueOf
    cases hf : f.type <;> first
      | rfl
      | exact absurd hf htype
  · unfold valueOf
    cases hf : f.type <;> first
      | rfl
      | exact absurd hf htype
  · rfl

def Record.ids (record : Record) (name : String) : List Int :=
  match Record.get? record name with
  | some (.array items) => items.filterMap Json.asInt64?
  | _ => []

/-- The row holds the record: its identifier, and the value of every stored field. -/
structure Entity.RowOf (entity : Entity) (record : Record) (row : Row) : Prop where
  id : ∃ id, Record.id? record = some id ∧ row Entity.idName = .int id
  column : ∀ field, entity.field? field.name = some field →
    (field.stored = true ∨ field.name = Entity.idName) → field.type.isX2Many = false →
    row field.columnName = field.columnValue (Record.get? record field.name)

namespace Catalog

def IsLinkTable (catalog : Catalog) (entity : Entity) (field : Field) (relation : Relation) : Prop :=
  catalog.entity? entity.name = some entity ∧ entity.field? field.name = some field ∧
    field.type = .many2many ∧ field.stored = true ∧
    ∃ c target, catalog.comodel c field = .ok target ∧
      Lowering.relationOf c field entity target = .ok relation

/-- The tables hold the records, and nothing else. -/
structure StoredIn (catalog : Catalog) (db : Database) : Prop where
  record : ∀ entity, catalog.entity? entity.name = some entity →
    ∀ record ∈ catalog.records entity.name, ∃ row ∈ db.rows entity.table, entity.RowOf record row
  row : ∀ entity, catalog.entity? entity.name = some entity →
    ∀ row ∈ db.rows entity.table, ∃ record ∈ catalog.records entity.name, entity.RowOf record row
  linked : ∀ entity field relation, catalog.IsLinkTable entity field relation →
    ∀ record ∈ catalog.records entity.name, ∀ id, Record.id? record = some id →
    ∀ other ∈ Record.ids record field.name, ∃ link ∈ db.rows relation.table,
      link relation.column1 = .int id ∧ link relation.column2 = .int other
  link : ∀ entity field relation, catalog.IsLinkTable entity field relation →
    ∀ link ∈ db.rows relation.table, ∃ record ∈ catalog.records entity.name,
      ∃ id, Record.id? record = some id ∧ ∃ other ∈ Record.ids record field.name,
        link relation.column1 = .int id ∧ link relation.column2 = .int other

def UniqueIds (catalog : Catalog) : Prop :=
  ∀ entity ∈ catalog.entities, ((catalog.records entity.name).filterMap Record.id?).Nodup

def LinksAreIds (catalog : Catalog) : Prop :=
  ∀ entity field, catalog.entity? entity.name = some entity →
    entity.field? field.name = some field → field.type = .many2one →
    ∀ record ∈ catalog.records entity.name, ∀ json, Record.get? record field.name = some json →
      json = .null ∨ ∃ id, json.asInt64? = some id

variable {catalog : Catalog} {db : Database} {entity target : Entity} {record : Record}
  {field : Field}

theorem any_linked_many2one (htype : field.type = .many2one) (p : Record → Bool) :
    (catalog.linked field target record).any p = (((Record.get? record field.name).bind
      Json.asInt64?).bind (catalog.record? target.name)).any p := by
  rw [linked_many2one htype]
  cases ((Record.get? record field.name).bind Json.asInt64?).bind (catalog.record? target.name)
  · rfl
  · exact Bool.or_false _

theorem linked_one2many (htype : field.type = .one2many) {id : Int} {inverse : String}
    (hid : Record.id? record = some id) (hinverse : field.inverseName = some inverse) :
    catalog.linked field target record = (catalog.records target.name).filter fun r =>
      (Record.get? r inverse).bind Json.asInt64? == some id := by
  unfold linked related
  rw [htype, hid, hinverse]

theorem linked_many2many (htype : field.type = .many2many) :
    catalog.linked field target record =
      (Record.ids record field.name).filterMap (catalog.record? target.name) := by
  unfold linked related
  rw [htype]
  rfl

theorem LinksAreIds.columnValue (h : catalog.LinksAreIds)
    (hentity : catalog.entity? entity.name = some entity)
    (hfield : entity.field? field.name = some field) (htype : field.type = .many2one)
    (hrecord : record ∈ catalog.records entity.name) :
    field.columnValue (Record.get? record field.name) =
      ((Record.get? record field.name).bind Json.asInt64?).elim .null .int := by
  cases hjson : Record.get? record field.name with
  | none => rfl
  | some json =>
    obtain rfl | ⟨id, hid⟩ := h entity field hentity hfield htype record hrecord json hjson
    · rfl
    · rw [Option.bind_some, hid]
      cases json with
      | integer n =>
        rw [Json.asInt64?] at hid
        split at hid
        · rename_i hn
          cases hid
          simp [Field.columnValue, Field.valueOf, htype, Value.ofJson?, hn]
        · cases hid
      | _ => cases hid

theorem any_id? (hids : ((catalog.records entity.name).filterMap Record.id?).Nodup)
    (p : Record → Bool) (id : Int) :
    ((catalog.records entity.name).any fun r => Record.id? r == some id && p r) =
      (catalog.record? entity.name id).any p := by
  cases hfound : catalog.record? entity.name id with
  | none =>
    rw [record?, find?_eq_none] at hfound
    rw [Option.any_none, any_eq_false]
    intro r hr
    simp [hfound r hr]
  | some found =>
    have hmem := mem_of_find?_eq_some hfound
    have hid : Record.id? found = some id := by simpa using find?_some hfound
    rw [Option.any_some, Bool.eq_iff_iff, any_eq_true]
    constructor
    · rintro ⟨r, hr, hp⟩
      rw [Bool.and_eq_true, beq_iff_eq] at hp
      rw [eq_of_id? hids hmem hr hid hp.1]
      exact hp.2
    · intro hp
      exact ⟨found, hmem, by simp [hid, hp]⟩

theorem StoredIn.any_rows (h : catalog.StoredIn db)
    (hentity : catalog.entity? entity.name = some entity) {P : Row → Bool} {p : Record → Bool}
    (hP : ∀ record ∈ catalog.records entity.name, ∀ row, entity.RowOf record row →
      P row = p record) :
    (db.rows entity.table).any P = (catalog.records entity.name).any p := by
  rw [Bool.eq_iff_iff, any_eq_true, any_eq_true]
  constructor
  · rintro ⟨row, hrow, hheld⟩
    obtain ⟨record, hrecord, hrowOf⟩ := h.row entity hentity row hrow
    exact ⟨record, hrecord, by rw [← hP record hrecord row hrowOf, hheld]⟩
  · rintro ⟨record, hrecord, hheld⟩
    obtain ⟨row, hrow, hrowOf⟩ := h.record entity hentity record hrecord
    exact ⟨row, hrow, by rw [hP record hrecord row hrowOf, hheld]⟩

end Catalog

theorem Comparison.equal_int (a b : Int) : equal.apply (.int a) (.int b) = some (a == b) := by
  have hcompare : (compare a b == .eq) = (a == b) := by
    rw [Bool.eq_iff_iff, beq_iff_eq, beq_iff_eq]
    exact Std.compare_eq_iff_eq
  simp [apply, accepts, Value.isNull, Value.compare?, hcompare]

namespace Predicate

variable {catalog : Catalog} {db : Database} {target : Entity} {scope : Scope} {column : ColumnRef}
  {name : String} {p : Predicate} {truth : Record → Bool}

/-- The filter of a sub-select over a table is a property of the records in it. -/
def Filters (catalog : Catalog) (db : Database) (target : Entity) (scope : Scope) (name : String)
    (p : Predicate) (truth : Record → Bool) : Prop :=
  ∀ record ∈ catalog.records target.name, ∀ row, target.RowOf record row →
    (p.eval db (scope.bind name row) == some true) = truth record

theorem eval_inQuery (hstored : catalog.StoredIn db) (hids : catalog.UniqueIds)
    (htarget : catalog.entity? target.name = some target)
    (hfilters : Filters catalog db target scope name p truth) {key : Int}
    (hcolumn : column.read scope = .int key) (negated : Bool) :
    (inQuery column negated (.select target.table name p)).eval db scope =
      some ((catalog.record? target.name key).any truth != negated) := by
  let rows := (db.rows target.table).filter fun row => p.eval db (scope.bind name row) == some true
  let isKey (row : Row) : Bool := Comparison.equal.apply (.int key) (row Entity.idName) == some true
  have hknown : (selected db scope (.select target.table name p)).map
      (Comparison.equal.apply (.int key)) = (rows.map isKey).map some := by
    rw [selected, map_map, map_map]
    refine map_congr_left fun row hrow => ?_
    obtain ⟨record, -, hrowOf⟩ := hstored.row target htarget row (mem_filter.1 hrow).1
    obtain ⟨other, -, hother⟩ := hrowOf.id
    simp [isKey, Comparison.equal_int, hother]
  have hfound : (rows.map isKey).any id = (catalog.record? target.name key).any truth := by
    rw [any_map, any_filter, ← Catalog.any_id? (hids target (mem_of_find?_eq_some htarget))]
    refine hstored.any_rows htarget fun record hrecord row hrowOf => ?_
    obtain ⟨other, hid, hother⟩ := hrowOf.id
    rw [hfilters record hrecord row hrowOf, hid, Bool.and_comm]
    simp [isKey, hother, Comparison.equal_int, Bool.beq_comm]
  rw [eval, hcolumn, hknown, Ternary.anyOf_some, Ternary.negatedIf_some, hfound]

theorem isTrue_inQuery_unset (hcolumn : column.read scope = .null) (query : Query) :
    ((inQuery column false query).eval db scope == some true) = false := by
  rw [eval, hcolumn]
  change (Ternary.anyOf _ == some true) = false
  rw [Ternary.isTrue_anyOf, any_map, any_eq_false]
  intro v _
  simp [Comparison.apply, Value.isNull]

theorem isTrue_many2one (hstored : catalog.StoredIn db) (hids : catalog.UniqueIds)
    (htarget : catalog.entity? target.name = some target)
    (hfilters : Filters catalog db target scope name p truth) {key : Option Int}
    (hcolumn : column.read scope = key.elim .null .int) (negated : Bool) :
    ((if negated then group .or [.null column false,
        .inQuery column negated (.select target.table name p)]
      else .inQuery column negated (.select target.table name p)).eval db scope == some true) =
      ((key.bind (catalog.record? target.name)).any truth != negated) := by
  cases key with
  | none =>
    cases negated with
    | true =>
      rw [if_pos rfl, isTrue_group, isTrue_null, hcolumn]
      rfl
    | false => exact isTrue_inQuery_unset hcolumn _
  | some id =>
    have heval := eval_inQuery hstored hids htarget hfilters hcolumn negated
    rw [Option.bind_some]
    cases negated with
    | true =>
      rw [if_pos rfl, isTrue_group, isTrue_null, hcolumn, heval]
      simp [Connective.join, Value.isNull]
    | false =>
      rw [if_neg Bool.false_ne_true, heval]
      simp

theorem eval_one2many (hstored : catalog.StoredIn db) (hlinks : catalog.LinksAreIds)
    (htarget : catalog.entity? target.name = some target)
    (hfilters : Filters catalog db target scope name p truth) {row : String} (hne : row ≠ name)
    {key : Int} (hkey : scope row Entity.idName = .int key) {inverse : Field}
    (hfield : target.field? inverse.name = some inverse) (htype : inverse.type = .many2one)
    (hcolumn : inverse.stored = true) (negated : Bool) :
    (linked negated target.table name (.qualified name inverse.columnName)
      (.qualified row Entity.idName) p).eval db scope =
      some (((catalog.records target.name).filter fun r =>
        (Record.get? r inverse.name).bind Json.asInt64? == some key).any truth != negated) := by
  rw [eval, any_filter]
  congr 2
  refine hstored.any_rows htarget fun record hrecord found hrowOf => ?_
  have hvalue := hrowOf.column inverse hfield (.inl hcolumn) (by rw [htype]; rfl)
  rw [Ternary.isTrue_and, hfilters record hrecord found hrowOf]
  simp only [ColumnRef.read_qualified, Scope.bind_self, Scope.bind_of_ne _ _ hne, hkey, hvalue,
    hlinks.columnValue htarget hfield htype hrecord]
  congr 1
  cases (Record.get? record inverse.name).bind Json.asInt64? with
  | none => rfl
  | some other =>
    rw [Option.elim_some, Comparison.equal_int]
    simp

theorem eval_many2many (hstored : catalog.StoredIn db) (hids : catalog.UniqueIds)
    (htarget : catalog.entity? target.name = some target) {sub : String}
    (hfilters : ∀ link, Filters catalog db target (scope.bind sub link) name p truth) {row : String}
    (hne : row ≠ sub) {entity : Entity} {field : Field} {relation : Relation}
    (htable : catalog.IsLinkTable entity field relation) {record : Record}
    (hrecord : record ∈ catalog.records entity.name) {key : Int}
    (hid : Record.id? record = some key) (hkey : scope row Entity.idName = .int key)
    (negated : Bool) :
    (linked negated relation.table sub (.qualified sub relation.column1)
      (.qualified row Entity.idName) (.inQuery (.qualified sub relation.column2) false
        (.select target.table name p))).eval db scope =
      some (((Record.ids record field.name).filterMap (catalog.record? target.name)).any truth !=
        negated) := by
  have hnodup := hids entity (mem_of_find?_eq_some htable.1)
  -- A link counts if it starts at the identifier and the record at its end has the property.
  have hlink : ∀ link : Row, ∀ start other : Int, link relation.column1 = .int start →
      link relation.column2 = .int other →
      (Ternary.and (Comparison.equal.apply
          ((ColumnRef.qualified sub relation.column1).read (scope.bind sub link))
          ((ColumnRef.qualified row Entity.idName).read (scope.bind sub link)))
        ((inQuery (.qualified sub relation.column2) false
          (.select target.table name p)).eval db (scope.bind sub link)) == some true) =
        (start == key && (catalog.record? target.name other).any truth) := by
    intro link start other hstart hother
    rw [Ternary.isTrue_and, eval_inQuery hstored hids htarget (hfilters link)
      (by rw [ColumnRef.read_qualified, Scope.bind_self, hother])]
    simp only [ColumnRef.read_qualified, Scope.bind_self, Scope.bind_of_ne _ _ hne, hkey, hstart,
      Comparison.equal_int]
    simp
  rw [eval]
  congr 2
  rw [Bool.eq_iff_iff, any_eq_true, any_eq_true]
  constructor
  · rintro ⟨link, hmem, hheld⟩
    obtain ⟨owner, howner, start, hstart, other, hother, hcolumn1, hcolumn2⟩ :=
      hstored.link entity field relation htable link hmem
    rw [hlink link start other hcolumn1 hcolumn2, Bool.and_eq_true, beq_iff_eq] at hheld
    obtain ⟨rfl, hheld⟩ := hheld
    obtain ⟨found, hfound, hheld⟩ := (Option.any_eq_true ..).1 hheld
    rw [Catalog.eq_of_id? hnodup howner hrecord hstart hid] at hother
    exact ⟨found, mem_filterMap.2 ⟨other, hother, hfound⟩, hheld⟩
  · rintro ⟨found, hmem, hheld⟩
    obtain ⟨other, hother, hfound⟩ := mem_filterMap.1 hmem
    obtain ⟨link, hmem, hcolumn1, hcolumn2⟩ :=
      hstored.linked entity field relation htable record hrecord key hid other hother
    refine ⟨link, hmem, ?_⟩
    rw [hlink link key other hcolumn1 hcolumn2, hfound]
    simp [hheld]

end Predicate

end QueryDomain
