import QueryDomain.Proofs.Domain.RoundTrip
import QueryDomain.Proofs.Sql.Lowering
import QueryDomain.Proofs.Sql.Tokens

/-! The text of a statement is one expression. Every quoted text in it is closed, its parentheses
are balanced, and outside of them nothing is joined, so it can be joined with other text as it is.
The names in it are read back from their quotes whatever characters they have. -/
namespace QueryDomain

open List Token

def Identifier.names (i : Identifier) : List String := i.qualifier.toList ++ [i.name]

def ColumnRef.names : ColumnRef → List String
  | column name | jsonPath name _ => name.names

namespace Predicate

mutual

/-- The names of tables, aliases and columns in the order in which they are written. -/
def names : Predicate → List String
  | constant _ | custom _ => []
  | notTrue inner => names inner
  | group _ parts => partNames parts
  | null column _ | compare column _ _ | inList column _ _ | like column _ _ _ _ => column.names
  | inQuery column _ query => column.names ++ queryNames query
  | linked _ table row link owner filter =>
    [table, row] ++ link.names ++ owner.names ++ names filter

def partNames : List Predicate → List String
  | [] => []
  | part :: parts => names part ++ partNames parts

def queryNames : Query → List String
  | .select table row filter => [row, Entity.idName, table, row] ++ names filter
  | .verbatim _ => []

end

mutual

/-- No part of the predicate has been written by hand. -/
def isComposed : Predicate → Bool
  | notTrue inner => isComposed inner
  | group _ parts => areComposed parts
  | inQuery _ _ query => selectsComposed query
  | linked _ _ _ _ _ filter => isComposed filter
  | custom _ => false
  | constant _ | null _ _ | compare _ _ _ | inList _ _ _ | like _ _ _ _ _ => true

def areComposed : List Predicate → Bool
  | [] => true
  | part :: parts => isComposed part && areComposed parts

def selectsComposed : Query → Bool
  | .select _ _ filter => isComposed filter
  | .verbatim _ => false

end

end Predicate

variable {dialect : Dialect} {closed : Bool} {inner : List Char} {names : List String}

theorem delimited_identifier (dialect : Dialect) (i : Identifier) :
    Delimited dialect true (i.sql dialect).toList i.names := by
  obtain ⟨qualifier, name⟩ := i
  cases qualifier with
  | none => exact .identifier dialect name
  | some row =>
    have hdot : isSeparator true ".".toList = true := by decide
    have hjoined := (Delimited.identifier dialect row).between hdot (.identifier dialect name)
    simpa [Identifier.sql, Identifier.names] using hjoined

theorem delimited_arrows {text : List Char} (h : Delimited dialect true text names)
    (keys : List String) :
    Delimited dialect true (text ++ (Dialect.arrows keys).toList) names := by
  fun_induction Dialect.arrows keys generalizing text with
  | case1 => simpa using h
  | case2 key =>
    have harrow : isSeparator true "->>".toList = true := by decide
    simpa using h.between harrow (.literal dialect key)
  | case3 key keys _ ih =>
    have harrow : isSeparator true "->".toList = true := by decide
    have hkey := h.between harrow (.literal dialect key)
    rw [append_nil] at hkey
    simpa using ih hkey

theorem delimited_column (dialect : Dialect) (column : ColumnRef) :
    Delimited dialect true (column.sql dialect).toList column.names := by
  cases column with
  | column name => exact delimited_identifier dialect name
  | jsonPath name keys =>
    have hname := delimited_identifier dialect name
    rw [ColumnRef.sql, ColumnRef.names]
    cases dialect with
    | postgres => simpa [Dialect.jsonText_postgres] using delimited_arrows hname keys
    | mysql =>
      have hcomma : isSeparator true ", ".toList = true := by decide
      have hextract : isSound true "JSON_EXTRACT".toList = true := by decide
      have hunquote : isSound true "JSON_UNQUOTE".toList = true := by decide
      have hpath := hname.between hcomma (.literal .mysql (Dialect.keyPath keys))
      simpa [Dialect.jsonText_mysql] using (hpath.call hextract).call hunquote

theorem delimited_source (dialect : Dialect) (table row : String) :
    Delimited dialect true (Predicate.source dialect table row).toList [table, row] := by
  have has : isSeparator true " AS ".toList = true := by decide
  have hsource := (Delimited.identifier dialect table).between has (.identifier dialect row)
  simpa [Predicate.source] using hsource

namespace Piece

def chars (dialect : Dialect) (index : Nat) (ps : List Piece) : List Char :=
  (String.join (texts dialect index ps)).toList

variable {index : Nat}

@[simp] theorem chars_nil : chars dialect index [] = [] := rfl

@[simp] theorem chars_text (sql : String) (ps : List Piece) :
    chars dialect index (text sql :: ps) = sql.toList ++ chars dialect index ps := by
  rw [chars, texts, String.join_cons, String.toList_append, chars]

@[simp] theorem chars_param (value : Value) (ps : List Piece) :
    chars dialect index (param value :: ps) =
      (dialect.placeholder index).toList ++ chars dialect (index + 1) ps := by
  rw [chars, texts, String.join_cons, String.toList_append, chars]

theorem chars_append (ps qs : List Piece) : chars dialect index (ps ++ qs) =
    chars dialect index ps ++ chars dialect (index + (params ps).length) qs := by
  induction ps generalizing index with
  | nil => rfl
  | cons p ps ih =>
    cases p with
    | text sql =>
      rw [cons_append, chars_text, chars_text, ih, append_assoc]
      rfl
    | param value =>
      have hcount : index + (params (param value :: ps)).length =
          index + 1 + (params ps).length := by
        rw [params, filterMap_cons, length_cons, ← params]
        omega
      rw [cons_append, chars_param, chars_param, ih, append_assoc, hcount]

theorem chars_append_text (ps : List Piece) (sql : String) :
    chars dialect index (ps ++ [text sql]) = chars dialect index ps ++ sql.toList := by
  rw [chars_append, chars_text, chars_nil, append_nil]

end Piece

namespace Predicate

variable {column : ColumnRef} {index : Nat}

theorem delimited_valueList (values : List Value) (index : Nat) :
    Delimited dialect true (Piece.chars dialect index (valueList values)) [] := by
  induction values generalizing index with
  | nil => exact .of_isSound rfl
  | cons value values ih =>
    cases values with
    | nil => simpa [valueList] using Delimited.placeholder dialect index
    | cons next values =>
      have hcomma : isSeparator true ", ".toList = true := by decide
      simpa [valueList] using (Delimited.placeholder dialect index).between hcomma (ih (index + 1))

theorem delimited_in (column : ColumnRef) (negated : Bool)
    (h : Delimited dialect closed inner names) :
    Delimited dialect true ((column.sql dialect).toList ++
      (" " ++ negation negated ++ "IN (").toList ++ (inner ++ [')'])) (column.names ++ names) := by
  have hin : isSeparator true (" " ++ negation negated ++ "IN ").toList = true := by
    cases negated <;> decide
  simpa using (delimited_column dialect column).between hin h.paren

theorem delimited_cast (dialect : Dialect) (column : ColumnRef) :
    Delimited dialect true (dialect.castToText (column.sql dialect)).toList column.names := by
  have hcolumn := delimited_column dialect column
  have hwords : isSound true "CAST".toList = true := by decide
  cases dialect with
  | postgres =>
    have htype : isSound true " AS VARCHAR".toList = true := by decide
    simpa [Dialect.castToText] using (hcolumn.before htype rfl).call hwords
  | mysql =>
    have htype : isSound true " AS CHAR".toList = true := by decide
    simpa [Dialect.castToText] using (hcolumn.before htype rfl).call hwords

theorem delimited_like (column : ColumnRef) (cast caseless negated : Bool) (pattern : String) :
    Delimited dialect true (Piece.chars dialect index
      (likePieces dialect (column.sql dialect) cast caseless negated pattern)) column.names := by
  generalize hexpr : (if cast then dialect.castToText (column.sql dialect)
    else column.sql dialect) = expr
  have hcolumn : Delimited dialect true expr.toList column.names := by
    subst hexpr
    cases cast with
    | false => exact delimited_column dialect column
    | true => exact delimited_cast dialect column
  have hpattern := Delimited.placeholder dialect index
  have hlike : isSeparator true (" " ++ negation negated ++ "LIKE ").toList = true := by
    cases negated <;> decide
  simp only [likePieces, hexpr]
  cases caseless with
  | false => simpa using hcolumn.between hlike hpattern
  | true =>
    cases dialect with
    | postgres =>
      have hilike : isSeparator true (" " ++ negation negated ++ "ILIKE ").toList = true := by
        cases negated <;> decide
      simpa [Dialect.ilikeAround, negation] using hcolumn.between hilike hpattern
    | mysql =>
      have hwords : isSound true "LOWER".toList = true := by decide
      have hlowered := (hcolumn.call hwords).between hlike (hpattern.call hwords)
      simpa [Dialect.ilikeAround, negation] using hlowered

theorem delimited_linked (negated : Bool) (table row : String) (link owner : ColumnRef)
    (h : Delimited dialect true inner names) :
    Delimited dialect true ((negation negated ++ "EXISTS (SELECT 1 FROM " ++
        source dialect table row ++ " WHERE " ++ link.sql dialect ++ " = " ++ owner.sql dialect ++
        " AND ").toList ++ (inner ++ [')']))
      ([table, row] ++ link.names ++ owner.names ++ names) := by
  have hexists : isSound true (negation negated ++ "EXISTS ").toList = true := by
    cases negated <;> decide
  have hselect : isSound false "SELECT 1 FROM ".toList = true := by decide
  have hwhere : isSeparator false " WHERE ".toList = true := by decide
  have hequal : isSeparator true " = ".toList = true := by decide
  have hand : isSeparator false " AND ".toList = true := by decide
  have hlink := (delimited_column dialect link).between hequal (delimited_column dialect owner)
  have hrows := (delimited_source dialect table row).of_closed.between hwhere
    (hlink.of_closed.between hand h.of_closed)
  simpa using (hrows.behind hselect rfl).call hexists

mutual

theorem delimited_pieces (p : Predicate) (h : p.isComposed = true) (index : Nat) :
    Delimited dialect true (Piece.chars dialect index (p.pieces dialect)) p.names := by
  cases p with
  | constant value =>
    have hvalue : isSound true (if value then "TRUE" else "FALSE").toList = true := by
      cases value <;> decide
    simpa [pieces, Predicate.names] using Delimited.of_isSound hvalue
  | notTrue inner =>
    have hinner := delimited_pieces inner h index
    have htrue : isSound true " IS NOT TRUE".toList = true := by decide
    simpa [pieces, Predicate.names, Piece.chars_append_text] using hinner.paren.before htrue rfl
  | group k parts =>
    have hparts := delimited_partPieces k parts h index
    simpa [pieces, Predicate.names, Piece.chars_append_text] using hparts.paren
  | null column negated =>
    have hnull : isSound true (" IS " ++ negation negated ++ "NULL").toList = true := by
      cases negated <;> decide
    have hstarts : startsApart (" IS " ++ negation negated ++ "NULL").toList = true := by
      cases negated <;> rfl
    simpa [pieces, Predicate.names] using (delimited_column dialect column).before hnull hstarts
  | compare column relation value =>
    have hrelation : isSeparator true (" " ++ relation.text ++ " ").toList = true := by
      cases relation <;> decide
    have hvalue := Delimited.placeholder dialect index
    have hcolumn := delimited_column dialect column
    simpa [pieces, Predicate.names] using hcolumn.between hrelation hvalue
  | inList column negated values =>
    have hvalues : Delimited dialect true _ _ := delimited_valueList values index
    have hin := delimited_in column negated hvalues
    simpa [pieces, Predicate.names, Piece.chars_append_text] using hin
  | like column cast caseless negated pattern =>
    exact delimited_like column cast caseless negated pattern
  | inQuery column negated query =>
    have hquery := delimited_queryPieces query h index
    have hin := delimited_in column negated hquery
    simpa [pieces, Predicate.names, Piece.chars_append_text] using hin
  | linked negated table row link owner filter =>
    have hfilter := delimited_pieces filter h index
    have hlinked := delimited_linked negated table row link owner hfilter
    simpa [pieces, Predicate.names, Piece.chars_append_text] using hlinked
  | custom pieces => cases h

theorem delimited_partPieces (k : Connective) (parts : List Predicate)
    (h : areComposed parts = true) (index : Nat) :
    Delimited dialect false (Piece.chars dialect index (partPieces dialect k parts))
      (partNames parts) := by
  match parts with
  | [] => exact .of_isSound rfl
  | [part] =>
    rw [areComposed, Bool.and_eq_true] at h
    simpa [partPieces, partNames] using (delimited_pieces part h.1 index).of_closed
  | part :: next :: parts =>
    rw [areComposed, Bool.and_eq_true] at h
    have hseparator : isSeparator false (separator k).toList = true := by cases k <;> decide
    have hpart := delimited_pieces part h.1 index
    have hparts := delimited_partPieces k (next :: parts) h.2
      (index + (Piece.params (part.pieces dialect)).length)
    have hjoined := hpart.of_closed.between hseparator hparts
    simpa [partPieces, partNames, Piece.chars_append] using hjoined

theorem delimited_queryPieces (query : Query) (h : selectsComposed query = true) (index : Nat) :
    Delimited dialect true (Piece.chars dialect index (queryPieces dialect query))
      (queryNames query) := by
  cases query with
  | verbatim query => cases h
  | select table row filter =>
    have hselect : isSound true "SELECT ".toList = true := by decide
    have hfrom : isSeparator true " FROM ".toList = true := by decide
    have hwhere : isSeparator true " WHERE ".toList = true := by decide
    have hfilter := delimited_pieces filter h index
    have hid : Delimited dialect true _ [row, Entity.idName] :=
      delimited_column dialect (.qualified row Entity.idName)
    have hrows := hid.between hfrom ((delimited_source dialect table row).between hwhere hfilter)
    simpa [queryPieces, queryNames, Entity.idName] using hrows.behind hselect rfl

end

end Predicate

namespace Lowering

variable {catalog : Catalog} {entity : Entity} {column : ColumnRef} {row : String} {n m : Nat}
  {p : Predicate}

theorem Tests.isComposed (h : Tests column p) : p.isComposed = true := by
  induction h with
  | constant | null | compare | inList | like => rfl
  | group _ _ ihp ihq => simp [Predicate.isComposed, Predicate.areComposed, ihp, ihq]

theorem isComposed_many2one {query : Query} (h : Predicate.selectsComposed query = true)
    (negated : Bool) :
    (if negated then .group .or [.null column false, .inQuery column negated query]
      else .inQuery column negated query : Predicate).isComposed = true := by
  split <;> simp [Predicate.isComposed, Predicate.areComposed, h]

theorem Lowers.isComposed {d : Domain} (h : Lowers catalog d entity row n m p)
    (hqueries : ∀ c ∈ d.conditions, ∀ query, c.operand ≠ .query query) : p.isComposed = true := by
  have hinner : ∀ {c : Condition} {inner : Domain}, c.operand = .domain inner →
      (∀ e ∈ (Domain.condition c).conditions, ∀ query, e.operand ≠ .query query) →
      ∀ e ∈ inner.conditions, ∀ query, e.operand ≠ .query query := fun hoperand hqueries e he =>
    hqueries e (Domain.mem_conditions_condition.2 (.inr ⟨_, hoperand, he⟩))
  induction h with
  | constant | empty => rfl
  | negation _ ih => exact ih hqueries
  | child _ _ ih ihs =>
    rw [Domain.conditions, Domain.allConditions, forall_mem_append] at hqueries
    rw [Predicate.isComposed, Predicate.areComposed, ih hqueries.1, Bool.true_and]
    exact ihs hqueries.2
  | test _ _ hp => exact (tests_comparison hp).isComposed
  | itself _ _ hoperand _ _ ih => exact ih (hinner hoperand hqueries)
  | many2one _ _ hoperand _ _ _ _ ih =>
    refine isComposed_many2one ?_ _
    exact ih (hinner hoperand hqueries)
  | one2many _ _ hoperand _ _ _ _ _ ih => exact ih (hinner hoperand hqueries)
  | many2many _ _ hoperand _ _ _ _ _ ih => exact ih (hinner hoperand hqueries)
  | @written c _ _ _ _ _ _ _ _ htraverses =>
    obtain ⟨query, hquery⟩ := htraverses.operand_eq_query
    exact absurd hquery (hqueries c (Domain.mem_conditions_condition.2 (.inl rfl)) query)

end Lowering

namespace Domain

variable {catalog : Catalog} {entity : Entity} {row : String} {d : Domain} {statement : Statement}

/-- Where nothing in it has been written by hand, the text of a statement is one expression: quoted
texts in it are closed, its parentheses are balanced and never closed before they are opened, and
neither AND nor OR stands outside of them. The quoted identifiers are read as the names that they
were made from. -/
theorem toStatement_delimited (hcatalog : catalog.SqlHookless)
    (hentity : ∀ field ∈ entity.fields, field.sqlHook = none)
    (hqueries : ∀ c ∈ d.conditions, ∀ query, c.operand ≠ .query query)
    (h : d.toStatement dialect catalog entity row = .ok statement) :
    ∃ p used ts, (Lowering.domain dialect catalog d entity row).run 0 = .ok (p, used) ∧
      tokens statement.sql.toList = some ts ∧ depth 0 ts = some 0 ∧
      (∀ t ∈ outer 0 ts, t.isJoint = false) ∧ identifiers dialect ts = p.names := by
  simp only [toStatement, Except.bind_eq_ok] at h
  obtain ⟨⟨p, used⟩, hp, h⟩ := h
  cases h
  have hlowers := Lowering.lowers_of_hookless hcatalog hentity hp
  obtain ⟨ts, htokens, hdepth, hjoints, hnames⟩ :=
    p.delimited_pieces (hlowers.isComposed hqueries) 0
  refine ⟨p, used, ts, hp, ?_, hdepth, hjoints rfl, hnames⟩
  rw [← htokens]
  simp [Statement.ofPieces, Statement.append, Statement.empty, Piece.chars]

/-- Quotes and parentheses in the names of a table and of the rows, and in the key of a path. -/
theorem toStatement_delimited_quotes :
    let entity : Entity := { name := "i", table? := some "i\")", fields :=
      [{ name := "l", type := .one2many, comodel := some "i", inverseName := some "p" },
        { name := "j", type := .json }] }
    let catalog : Catalog := { entities := [entity] }
    let d : Domain := .nary .or [.leaf "j.k') OR" .equal (.scalar (.text "x")),
      .leaf "l" .notAny (.domain (.leaf "id" .less (.scalar (.int 5))))] none
    (catalog.SqlHookless ∧ (∀ field ∈ entity.fields, field.sqlHook = none) ∧
      ∀ c ∈ d.conditions, ∀ query, c.operand ≠ .query query) ∧
    ∃ statement, d.toStatement .postgres catalog entity "a\" AND (" = .ok statement ∧
      ∃ p used ts, (Lowering.domain .postgres catalog d entity "a\" AND (").run 0 = .ok (p, used) ∧
        tokens statement.sql.toList = some ts ∧ depth 0 ts = some 0 ∧
        (∀ t ∈ outer 0 ts, t.isJoint = false) ∧ identifiers .postgres ts = p.names := by
  intro entity catalog d
  have hentity : ∀ field ∈ entity.fields, field.sqlHook = none := by simp [entity]
  have hcatalog : catalog.SqlHookless := by
    intro other hother
    obtain rfl := mem_singleton.1 hother
    exact hentity
  have hqueries : ∀ c ∈ d.conditions, ∀ query, c.operand ≠ .query query := by
    simp [d, conditions, allConditions, leaf]
  obtain ⟨statement, hstatement⟩ : ∃ statement,
      d.toStatement .postgres catalog entity "a\" AND (" = .ok statement := by
    simp only [entity, catalog, d]
    exact ⟨_, rfl⟩
  exact ⟨⟨hcatalog, hentity, hqueries⟩, statement, hstatement,
    toStatement_delimited hcatalog hentity hqueries hstatement⟩

end Domain

end QueryDomain
