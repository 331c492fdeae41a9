import QueryDomain.Error
import QueryDomain.Sql.Dialect

/-! Text with parameters. A statement is a list of pieces; its text is made by writing a placeholder
for each parameter, and its parameters are collected in the same order. -/
namespace QueryDomain

inductive Piece where
  | text (sql : String)
  | param (value : Value)
  deriving DecidableEq, Repr

structure Identifier where
  qualifier : Option String
  name : String
  deriving DecidableEq, Repr

def Identifier.sql (dialect : Dialect) (i : Identifier) : String :=
  match i.qualifier with
  | some qualifier => dialect.quoteIdentifier qualifier ++ "." ++ dialect.quoteIdentifier i.name
  | none => dialect.quoteIdentifier i.name

inductive ColumnRef where
  | column (name : Identifier)
  | jsonPath (name : Identifier) (keys : List String)
  deriving DecidableEq, Repr

def ColumnRef.sql (dialect : Dialect) : ColumnRef → String
  | column name => name.sql dialect
  | jsonPath name keys => dialect.jsonText (name.sql dialect) keys

namespace Piece

/-- The parts of the text, where `index` parameters stand before. -/
def texts (dialect : Dialect) (index : Nat) : List Piece → List String
  | [] => []
  | text sql :: pieces => sql :: texts dialect index pieces
  | param _ :: pieces => dialect.placeholder index :: texts dialect (index + 1) pieces

def params (pieces : List Piece) : List Value :=
  pieces.filterMap fun
    | text _ => none
    | param value => some value

end Piece

namespace SubQuery

/-- The text around the markers: one part more than there are markers. -/
def splitMarkers : List Char → List (List Char)
  | [] => [[]]
  | '%' :: 's' :: rest => [] :: splitMarkers rest
  | c :: rest =>
    match splitMarkers rest with
    | [] => [[c]]
    | part :: parts => (c :: part) :: parts

def interleave : List String → List Value → List Piece
  | part :: parts, value :: values => .text part :: .param value :: interleave parts values
  | parts, _ => parts.map .text

def parts (q : SubQuery) : List String := (splitMarkers q.sql.toList).map String.ofList

def markers (q : SubQuery) : Nat := q.parts.length - 1

def check (q : SubQuery) : Except Error Unit :=
  if q.markers = q.params.length then .ok () else .error (.sqlFailed (.markerCount q.markers q))

def pieces (q : SubQuery) : List Piece := interleave q.parts q.params

end SubQuery

structure Statement where
  sql : String
  params : List Value
  deriving DecidableEq, Repr

namespace Statement

def empty : Statement := ⟨"", []⟩

def append (dialect : Dialect) (s : Statement) (pieces : List Piece) : Statement :=
  ⟨s.sql ++ String.join (Piece.texts dialect s.params.length pieces),
    s.params ++ Piece.params pieces⟩

def ofPieces (dialect : Dialect) (pieces : List Piece) : Statement := empty.append dialect pieces

/-- Takes up a parameter whose placeholder is to be written elsewhere. -/
def bindParam (dialect : Dialect) (s : Statement) (value : Value) : Statement × String :=
  (⟨s.sql, s.params ++ [value]⟩, dialect.placeholder s.params.length)

end Statement

end QueryDomain
