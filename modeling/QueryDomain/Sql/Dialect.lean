import QueryDomain.Text.Basic

/-! What differs between the databases that statements are written for. -/
namespace QueryDomain

inductive Dialect where
  | postgres
  | mysql
  deriving DecidableEq, Repr

namespace Dialect

def read? (given : String) : Option Dialect :=
  let name := (Text.trim given).toLower
  if name = "postgres" ∨ name = "postgresql" ∨ name = "pg" then some .postgres
  else if name = "mysql" ∨ name = "mariadb" then some .mysql
  else none

def name : Dialect → String
  | postgres => "PostgreSQL"
  | mysql => "MySQL"

def identifierQuote : Dialect → Char
  | postgres => '"'
  | mysql => Char.ofNat 96

def quoteIdentifier (dialect : Dialect) (identifier : String) : String :=
  Text.quoted dialect.identifierQuote identifier

def quoteLiteral (s : String) : String := Text.quoted (Char.ofNat 39) s

/-- What stands for the parameter at an index, which is counted from zero. -/
def placeholder (dialect : Dialect) (index : Nat) : String :=
  match dialect with
  | postgres => "$" ++ toString (index + 1)
  | mysql => "?"

/-- A pattern match that ignores case: the text before and after the pattern. -/
def ilikeAround (dialect : Dialect) (expr : String) (negated : Bool) : String × String :=
  let negation := if negated then "NOT " else ""
  match dialect with
  | postgres => (expr ++ " " ++ negation ++ "ILIKE ", "")
  | mysql => ("LOWER(" ++ expr ++ ") " ++ negation ++ "LIKE LOWER(", ")")

def ilike (dialect : Dialect) (expr pattern : String) (negated : Bool) : String :=
  let (before, after) := dialect.ilikeAround expr negated
  before ++ pattern ++ after

/-- One arrow per key, the last of which yields text. -/
def arrows : List String → String
  | [] => ""
  | [key] => "->>" ++ quoteLiteral key
  | key :: keys => "->" ++ quoteLiteral key ++ arrows keys

def jsonText (dialect : Dialect) (column : String) (keys : List String) : String :=
  match dialect with
  | postgres => column ++ arrows keys
  | mysql =>
    let path := Text.join "." (keys.map fun key => "\"" ++ Text.replace '"' "\\\"" key ++ "\"")
    "JSON_UNQUOTE(JSON_EXTRACT(" ++ column ++ ", " ++ quoteLiteral ("$." ++ path) ++ "))"

def castToText (dialect : Dialect) (expr : String) : String :=
  match dialect with
  | postgres => "CAST(" ++ expr ++ " AS VARCHAR)"
  | mysql => "CAST(" ++ expr ++ " AS CHAR)"

end Dialect

end QueryDomain
