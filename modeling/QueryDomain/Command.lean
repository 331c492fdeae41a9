import QueryDomain.Report
import QueryDomain.Schema.Reader

/-! The two commands: compile a domain against a catalog, or print a domain in its prefix form.
Files are given as a function from paths to contents. -/
namespace QueryDomain

structure CompileOptions where
  catalog : String
  entity : String
  domain : String
  dialect : String := "postgres"
  level : String := "sql"
  /-- What the rows of the entity are called, if not by its table. -/
  row : Option String := none
  json : Bool := false

inductive Command where
  | compile (options : CompileOptions)
  | parse (domain : String)

inductive CommandError where
  | missingFile (path : String)
  | badCatalog (path : String)
  | badDomain (cause : ReadError)
  | failed (cause : Error)
  | unknownDialect (name : String)
  | unknownLevel (cause : UnknownLevel)

def CommandError.message : CommandError → String
  | missingFile path => "Failed to read input file: " ++ path
  | badCatalog path => "Failed to parse the catalog file: " ++ path
  | badDomain cause => "Failed to parse the domain: " ++ cause.message
  | failed cause => "Failed to compile the domain: " ++ cause.message
  | unknownDialect name => "Unknown SQL dialect: " ++ name
  | unknownLevel cause => "Invalid optimization level: " ++ cause.message

namespace Command

/-- The file that a domain is to be read from: what follows an `@` in front. -/
def domainFile? (given : String) : Option String :=
  match given.toList with
  | '@' :: path => some (.ofList path)
  | _ => none

def files : Command → List String
  | compile options => options.catalog :: (domainFile? options.domain).toList
  | parse domain => (domainFile? domain).toList

def contents (file? : String → Option String) (path : String) : Except CommandError String :=
  match file? path with
  | some text => .ok text
  | none => .error (.missingFile path)

def loadCatalog (file? : String → Option String) (path : String) : Run CommandError Catalog := do
  let text ← contents file? path
  match Catalog.read? text with
  | some catalog =>
    Run.report (.loaded catalog.entities.length path)
    return catalog
  | none => throw (.badCatalog path)

def readDomain (file? : String → Option String) (given : String) : Run CommandError Domain := do
  let text ← match domainFile? given with
    | some path => contents file? path
    | none => pure given
  (Domain.read text).mapError .badDomain

def report (catalog : Catalog) (dialect : Dialect) (level : Level) (entity : String)
    (row : Option String) (d : Domain) : Run Error Report := do
  let entity ← catalog.entity entity
  let optimized ← Optimizer.standard.optimize catalog level entity d
  if level = .sql then return ⟨optimized, some (← optimized.toStatement catalog dialect row)⟩
  else return ⟨optimized, none⟩

def run (file? : String → Option String) : Command → Run CommandError String
  | compile options => do
    Run.report (.compiling options.entity options.catalog options.level)
    let catalog ← loadCatalog file? options.catalog
    let domain ← readDomain file? options.domain
    let level ← (Level.read options.level).mapError CommandError.unknownLevel
    let some dialect := Dialect.read? options.dialect
      | throw (.unknownDialect options.dialect)
    let report ←
      (report catalog dialect level options.entity options.row domain).mapError .failed
    return report.render options.json
  | parse given => do
    let domain ← readDomain file? given
    return domain.display ++ "\n"

end Command

end QueryDomain
