import QueryDomain.Sql.Lowering

/-! Statements written step by step. Text is put down at the end, and a placeholder either goes
there at once or is handed out as a fragment, to be put down later as part of a longer text. What
comes of it is the statement made of the pieces of the predicate. -/
namespace QueryDomain

open List

namespace Piece

theorem texts_append (dialect : Dialect) (index : Nat) (ps qs : List Piece) :
    texts dialect index (ps ++ qs) =
      texts dialect index ps ++ texts dialect (index + (params ps).length) qs := by
  induction ps generalizing index with
  | nil => rfl
  | cons p ps ih =>
    cases p with
    | text sql =>
      rw [cons_append, texts, ih]
      rfl
    | param v =>
      rw [cons_append, texts, ih, Nat.add_right_comm]
      rfl

end Piece

namespace Statement

variable {dialect : Dialect} {write next : Statement → Statement} {ps qs : List Piece}

theorem append_append (s : Statement) (ps qs : List Piece) :
    (s.append dialect ps).append dialect qs = s.append dialect (ps ++ qs) := by
  simp only [append, Piece.texts_append, String.join_append, Piece.params, filterMap_append,
    length_append, String.append_assoc, append_assoc]

def push (text : String) (s : Statement) : Statement := ⟨s.sql ++ text, s.params⟩

def addParam (dialect : Dialect) (v : Value) (s : Statement) : Statement :=
  let (s, placeholder) := s.bindParam dialect v
  s.push placeholder

/-- What is written is taken off the text again and handed out. What is bound stays bound. -/
def fragment (write : Statement → Statement) (s : Statement) : Statement × String :=
  let (kept, taken) := (write s).sql.toList.splitAt s.sql.length
  (⟨.ofList kept, (write s).params⟩, .ofList taken)

def bindParams (dialect : Dialect) : List Value → Statement → Statement × List String
  | [], s => (s, [])
  | v :: vs, s =>
    let bound := s.bindParam dialect v
    let rest := bindParams dialect vs bound.1
    (rest.1, bound.2 :: rest.2)

/-- Whatever has been written before, the pieces come after it. -/
def Emits (dialect : Dialect) (write : Statement → Statement) (ps : List Piece) : Prop :=
  ∀ s, write s = s.append dialect ps

theorem emits_nil : Emits dialect id [] := by
  intro s
  simp [append, Piece.texts, Piece.params, String.join]

theorem Emits.comp (h : Emits dialect write ps) (h' : Emits dialect next qs) :
    Emits dialect (next ∘ write) (ps ++ qs) := by
  intro s
  rw [Function.comp, h', h, append_append]

theorem emits_push (text : String) : Emits dialect (push text) [.text text] := by
  intro s
  simp [push, append, Piece.texts, Piece.params, String.join]

theorem emits_addParam (v : Value) : Emits dialect (addParam dialect v) [.param v] := by
  intro s
  simp [addParam, bindParam, push, append, Piece.texts, Piece.params, String.join]

theorem Emits.fragment_eq (h : Emits dialect write ps) (s : Statement) :
    s.fragment write = (⟨s.sql, s.params ++ Piece.params ps⟩,
      String.join (Piece.texts dialect s.params.length ps)) := by
  have hlength : s.sql.length = s.sql.toList.length := String.length_toList.symm
  simp only [fragment, h s, append, String.toList_append, splitAt_eq, hlength, take_left,
    drop_left, String.ofList_toList]

theorem fragment_addParam (v : Value) (s : Statement) :
    s.fragment (addParam dialect v) = s.bindParam dialect v := by
  rw [(emits_addParam v).fragment_eq]
  simp [bindParam, Piece.params, Piece.texts, String.join]

/-- Text alone binds nothing: the name of a column is handed out at any time and put down as often as
it is needed. -/
theorem fragment_push (text : String) (s : Statement) : s.fragment (push text) = (s, text) := by
  rw [(@emits_push .postgres text).fragment_eq]
  simp [Piece.params, Piece.texts, String.join]

/-- A fragment may be put down inside a longer text, as long as nothing else is bound in between. -/
theorem Emits.around (h : Emits dialect write ps) (before after : String) :
    Emits dialect (fun s => (s.fragment write).1.push (before ++ (s.fragment write).2 ++ after))
      (.text before :: ps ++ [.text after]) := by
  intro s
  simp [h.fragment_eq, push, append, Piece.texts, Piece.texts_append, Piece.params,
    String.join_append, String.join_cons, String.append_assoc]

theorem Emits.behind (h : Emits dialect write ps) (before : String) :
    Emits dialect (fun s => (s.fragment write).1.push (before ++ (s.fragment write).2))
      (.text before :: ps) := by
  intro s
  simp [h.fragment_eq, push, append, Piece.texts, Piece.params, String.join_cons]

theorem emits_bound (v : Value) (before : String) :
    Emits dialect (fun s => (s.bindParam dialect v).1.push (before ++ (s.bindParam dialect v).2))
      [.text before, .param v] := by
  have hv := (@emits_addParam dialect v).behind before
  simpa only [fragment_addParam] using hv

theorem emits_boundWithin (v : Value) (before after : String) :
    Emits dialect
      (fun s => (s.bindParam dialect v).1.push (before ++ (s.bindParam dialect v).2 ++ after))
      [.text before, .param v, .text after] := by
  have hv := (@emits_addParam dialect v).around before after
  simpa only [fragment_addParam, cons_append, nil_append] using hv

theorem bindParams_fst (vs : List Value) (s : Statement) :
    (s.bindParams dialect vs).1 = ⟨s.sql, s.params ++ vs⟩ := by
  induction vs generalizing s with
  | nil => simp [bindParams]
  | cons v vs ih => simp [bindParams, ih, bindParam]

theorem join_bindParams (vs : List Value) (s : Statement) :
    Text.join ", " (s.bindParams dialect vs).2 =
      String.join (Piece.texts dialect s.params.length (Predicate.valueList vs)) := by
  induction vs generalizing s with
  | nil => rfl
  | cons v vs ih =>
    have hrest := ih (s.bindParam dialect v).1
    cases vs with
    | nil => simp [bindParams, bindParam, Text.join, Predicate.valueList, Piece.texts, String.join]
    | cons w vs =>
      rw [Text.join] at hrest ⊢
      have hne : (bindParams dialect (w :: vs) (s.bindParam dialect v).1).2 ≠ [] :=
        cons_ne_nil _ _
      have hlist : Predicate.valueList (v :: w :: vs) =
          .param v :: .text ", " :: Predicate.valueList (w :: vs) := rfl
      rw [hlist, bindParams, String.intercalate_cons_of_ne_nil hne, hrest]
      simp [Piece.texts, String.join_cons, bindParam, String.append_assoc]

theorem params_valueList (vs : List Value) : Piece.params (Predicate.valueList vs) = vs := by
  induction vs with
  | nil => rfl
  | cons v vs ih =>
    cases vs with
    | nil => rfl
    | cons w vs => exact congrArg (v :: ·) ih

theorem emits_list (vs : List Value) (before after : String) :
    Emits dialect (fun s => (s.bindParams dialect vs).1.push
      (before ++ Text.join ", " (s.bindParams dialect vs).2 ++ after))
      (.text before :: Predicate.valueList vs ++ [.text after]) := by
  intro s
  have hparams : Piece.params (.text before :: Predicate.valueList vs ++ [.text after]) = vs := by
    simpa [Piece.params] using params_valueList vs
  simp only [join_bindParams, bindParams_fst, push, append, hparams]
  simp [Piece.texts, Piece.texts_append, String.join_append, String.join_cons, String.append_assoc]

def writePiece (dialect : Dialect) (s : Statement) : Piece → Statement
  | .text sql => s.push sql
  | .param v => s.addParam dialect v

theorem emits_pieces (ps : List Piece) :
    Emits dialect (fun s => ps.foldl (writePiece dialect) s) ps := by
  induction ps with
  | nil => exact emits_nil
  | cons p ps ih =>
    have hp : Emits dialect (fun s => s.writePiece dialect p) [p] := by
      cases p with
      | text sql => exact emits_push sql
      | param v => exact emits_addParam v
    exact hp.comp ih

end Statement

namespace Predicate

open Statement

mutual

def write (dialect : Dialect) : Predicate → Statement → Statement
  | constant value, s => s.push (if value then "TRUE" else "FALSE")
  | notTrue inner, s => (write dialect inner (s.push "(")).push ") IS NOT TRUE"
  | group k parts, s => (writeParts dialect k parts (s.push "(")).push ")"
  | null column negated, s =>
    s.push (column.sql dialect ++ " IS " ++ negation negated ++ "NULL")
  | compare column relation value, s =>
    let (s, placeholder) := s.bindParam dialect value
    s.push (column.sql dialect ++ " " ++ relation.text ++ " " ++ placeholder)
  | inList column negated values, s =>
    let (s, placeholders) := s.bindParams dialect values
    s.push (column.sql dialect ++ " " ++ negation negated ++ "IN (" ++
      Text.join ", " placeholders ++ ")")
  | like column cast caseless negated pattern, s =>
    let expr := if cast then dialect.castToText (column.sql dialect) else column.sql dialect
    let (s, placeholder) := s.bindParam dialect (.text pattern)
    s.push (if caseless then dialect.ilike expr placeholder negated
      else expr ++ " " ++ negation negated ++ "LIKE " ++ placeholder)
  | inQuery column negated query, s =>
    (writeQuery dialect query
      (s.push (column.sql dialect ++ " " ++ negation negated ++ "IN ("))).push ")"
  | linked negated table row link owner filter, s =>
    (write dialect filter (s.push (negation negated ++ "EXISTS (SELECT 1 FROM " ++
      source dialect table row ++ " WHERE " ++ link.sql dialect ++ " = " ++ owner.sql dialect ++
      " AND "))).push ")"
  | custom pieces, s => pieces.foldl (writePiece dialect) s

def writeParts (dialect : Dialect) (k : Connective) : List Predicate → Statement → Statement
  | [], s => s
  | [part], s => write dialect part s
  | part :: parts, s => writeParts dialect k parts ((write dialect part s).push (separator k))

def writeQuery (dialect : Dialect) : Query → Statement → Statement
  | .select table row filter, s =>
    write dialect filter (s.push ("SELECT " ++ (ColumnRef.qualified row "id").sql dialect ++
      " FROM " ++ source dialect table row ++ " WHERE "))
  | .verbatim query, s => query.pieces.foldl (writePiece dialect) s

end

variable {dialect : Dialect}

theorem emits_like (column : ColumnRef) (cast caseless negated : Bool) (pattern : String) :
    Emits dialect ((like column cast caseless negated pattern).write dialect)
      (likePieces dialect (column.sql dialect) cast caseless negated pattern) := by
  intro s
  let expr := if cast then dialect.castToText (column.sql dialect) else column.sql dialect
  cases caseless with
  | true =>
    exact emits_boundWithin (.text pattern) (dialect.ilikeAround expr negated).1
      (dialect.ilikeAround expr negated).2 s
  | false =>
    have hbound := @emits_boundWithin dialect (.text pattern)
      (expr ++ " " ++ negation negated ++ "LIKE ") "" s
    simp only [String.append_empty] at hbound
    exact hbound

mutual

theorem emits_write (p : Predicate) : Emits dialect (p.write dialect) (p.pieces dialect) := by
  cases p with
  | constant value => exact emits_push _
  | notTrue inner => exact (((emits_push "(").comp (emits_write inner)).comp (emits_push _))
  | group k parts => exact (((emits_push "(").comp (emits_writeParts k parts)).comp (emits_push _))
  | null column negated => exact emits_push _
  | compare column relation value => exact emits_bound value _
  | inList column negated values => exact emits_list values _ _
  | like column cast caseless negated pattern =>
    exact emits_like column cast caseless negated pattern
  | inQuery column negated query =>
    exact ((emits_push _).comp (emits_writeQuery query)).comp (emits_push _)
  | linked negated table row link owner filter =>
    exact ((emits_push _).comp (emits_write filter)).comp (emits_push _)
  | custom pieces => exact emits_pieces pieces

theorem emits_writeParts (k : Connective) (parts : List Predicate) :
    Emits dialect (writeParts dialect k parts) (partPieces dialect k parts) := by
  match parts with
  | [] => exact emits_nil
  | [part] => exact emits_write part
  | part :: next :: parts =>
    have hrest := (emits_push (separator k)).comp (emits_writeParts k (next :: parts))
    exact (emits_write part).comp hrest

theorem emits_writeQuery (query : Query) :
    Emits dialect (writeQuery dialect query) (queryPieces dialect query) := by
  cases query with
  | select table row filter => exact (emits_push _).comp (emits_write filter)
  | verbatim query => exact emits_pieces query.pieces

end

/-- A test may also be written as a fragment first, and then put down together with what it is asked
about an unset column. -/
theorem write_group_null (k : Connective) (p : Predicate) (column : ColumnRef) (negated : Bool)
    (s : Statement) : (group k [p, .null column negated]).write dialect s =
      (s.fragment (p.write dialect)).1.push ("(" ++ (s.fragment (p.write dialect)).2 ++
        (separator k ++ column.sql dialect ++ " IS " ++ negation negated ++ "NULL" ++ ")")) := by
  have hfragment := (@emits_write dialect p).around "("
    (separator k ++ column.sql dialect ++ " IS " ++ negation negated ++ "NULL" ++ ")") s
  refine (emits_write _ s).trans (Eq.trans ?_ hfragment.symm)
  simp [append, pieces, partPieces, Piece.texts, Piece.texts_append, Piece.params,
    String.join_append, String.join_cons, String.append_assoc]

end Predicate

theorem Domain.toStatement_eq_write (dialect : Dialect) (catalog : Catalog) (entity : Entity)
    (row : String) (d : Domain) : d.toStatement dialect catalog entity row =
      ((Lowering.domain dialect catalog d entity row).run 0).map
        fun lowered => lowered.1.write dialect .empty := by
  have hwrite : ∀ p : Predicate, p.write dialect .empty = .ofPieces dialect (p.pieces dialect) :=
    fun p => Predicate.emits_write p .empty
  simp only [toStatement, hwrite]
  cases (Lowering.domain dialect catalog d entity row).run 0 with
  | error e => rfl
  | ok lowered => rfl

end QueryDomain
