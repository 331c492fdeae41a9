import QueryDomain.Sql.Piece

/-! The boolean expressions of SQL that domains are lowered to, and their text. -/
namespace QueryDomain

inductive Comparison where
  | equal
  | different
  | less
  | greater
  | lessOrEqual
  | greaterOrEqual
  deriving DecidableEq, Repr

def Comparison.text : Comparison → String
  | equal => "="
  | different => "<>"
  | less => "<"
  | greater => ">"
  | lessOrEqual => "<="
  | greaterOrEqual => ">="

mutual

inductive Predicate where
  | constant (value : Bool)
  | notTrue (inner : Predicate)
  | group (k : Connective) (parts : List Predicate)
  | null (column : ColumnRef) (negated : Bool)
  | compare (column : ColumnRef) (relation : Comparison) (value : Value)
  | inList (column : ColumnRef) (negated : Bool) (values : List Value)
  | like (column : ColumnRef) (cast caseless negated : Bool) (pattern : String)
  | inQuery (column : ColumnRef) (negated : Bool) (query : Query)
  /-- There is a row of `table`, called `row`, with `link = owner` and the filter. -/
  | linked (negated : Bool) (table row : String) (link owner : ColumnRef) (filter : Predicate)
  | custom (pieces : List Piece)

inductive Query where
  | select (table row : String) (filter : Predicate)
  | verbatim (query : SubQuery)

end

namespace ColumnRef

def qualified (row column : String) : ColumnRef := .column ⟨some row, column⟩

end ColumnRef

namespace Predicate

def separator : Connective → String
  | .and => " AND "
  | .or => " OR "

def negation (negated : Bool) : String := if negated then "NOT " else ""

def valueList : List Value → List Piece
  | [] => []
  | [value] => [.param value]
  | value :: values => .param value :: .text ", " :: valueList values

def source (dialect : Dialect) (table row : String) : String :=
  dialect.quoteIdentifier table ++ " AS " ++ dialect.quoteIdentifier row

def likePieces (dialect : Dialect) (column : String) (cast caseless negated : Bool)
    (pattern : String) : List Piece :=
  let expr := if cast then dialect.castToText column else column
  let (before, after) :=
    if caseless then dialect.ilikeAround expr negated
    else (expr ++ " " ++ negation negated ++ "LIKE ", "")
  [.text before, .param (.text pattern), .text after]

mutual

def pieces (dialect : Dialect) : Predicate → List Piece
  | constant value => [.text (if value then "TRUE" else "FALSE")]
  | notTrue inner => .text "(" :: pieces dialect inner ++ [.text ") IS NOT TRUE"]
  | group k parts => .text "(" :: partPieces dialect k parts ++ [.text ")"]
  | null column negated =>
    [.text (column.sql dialect ++ " IS " ++ negation negated ++ "NULL")]
  | compare column relation value =>
    [.text (column.sql dialect ++ " " ++ relation.text ++ " "), .param value]
  | inList column negated values =>
    .text (column.sql dialect ++ " " ++ negation negated ++ "IN (") ::
      valueList values ++ [.text ")"]
  | like column cast caseless negated pattern =>
    likePieces dialect (column.sql dialect) cast caseless negated pattern
  | inQuery column negated query =>
    .text (column.sql dialect ++ " " ++ negation negated ++ "IN (") ::
      queryPieces dialect query ++ [.text ")"]
  | linked negated table row link owner filter =>
    .text (negation negated ++ "EXISTS (SELECT 1 FROM " ++ source dialect table row ++
      " WHERE " ++ link.sql dialect ++ " = " ++ owner.sql dialect ++ " AND ") ::
      pieces dialect filter ++ [.text ")"]
  | custom pieces => pieces

def partPieces (dialect : Dialect) (k : Connective) : List Predicate → List Piece
  | [] => []
  | [part] => pieces dialect part
  | part :: parts => pieces dialect part ++ .text (separator k) :: partPieces dialect k parts

def queryPieces (dialect : Dialect) : Query → List Piece
  | .select table row filter =>
    .text ("SELECT " ++ (ColumnRef.qualified row "id").sql dialect ++ " FROM " ++
      source dialect table row ++ " WHERE ") :: pieces dialect filter
  | .verbatim query => query.pieces

end

end Predicate

end QueryDomain
