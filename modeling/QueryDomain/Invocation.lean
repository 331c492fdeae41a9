import QueryDomain.Command

/-! Command-line arguments. An option takes its value after an equals sign or as the next
argument. -/
namespace QueryDomain

structure Invocation where
  command : Command
  /-- Also show how the domain is optimized. -/
  verbose : Bool := false

inductive UsageError where
  | noCommand
  | unknownCommand (name : String)
  | unexpected (argument : String)
  | noValue (option : String)
  | repeated (option : String)
  | required (option : String)

def UsageError.message : UsageError → String
  | noCommand => "a command is required: compile or parse"
  | unknownCommand name => s!"unrecognized command '{name}'"
  | unexpected argument => s!"unexpected argument '{argument}'"
  | noValue option => s!"option '{option}' requires a value"
  | repeated option => s!"option '{option}' is given more than once"
  | required option => s!"option '{option}' is required"

namespace Invocation

structure Options where
  valued : List String
  flags : List String

def looksLikeOption (argument : String) : Bool :=
  argument != "-" && argument.toList.head? == some '-'

/-- The options that are given, in their order. `pending` is an option that waits for its value. -/
def scan (options : Options) (pending : Option String) :
    List String → Except UsageError (List (String × String))
  | [] =>
    match pending with
    | some option => .error (.noValue option)
    | none => .ok []
  | argument :: arguments =>
    match pending with
    | some option =>
      if looksLikeOption argument then .error (.noValue option)
      else return (option, argument) :: (← scan options none arguments)
    | none =>
      match Text.cut '=' argument with
      | (option, some value) =>
        if options.valued.contains option then
          return (option, value) :: (← scan options none arguments)
        else .error (.unexpected argument)
      | (option, none) =>
        if options.flags.contains option then
          return (option, "") :: (← scan options none arguments)
        else if options.valued.contains option then scan options (some option) arguments
        else .error (.unexpected argument)

def repeated? : List String → Option String
  | [] => none
  | option :: rest => if rest.contains option then some option else repeated? rest

def given (options : Options) (arguments : List String) :
    Except UsageError (List (String × String)) := do
  let found ← scan options none arguments
  match repeated? (found.map (·.1)) with
  | some option => .error (.repeated option)
  | none => .ok found

def required (found : List (String × String)) (option : String) : Except UsageError String :=
  match Json.member? option found with
  | some value => .ok value
  | none => .error (.required option)

def compileOptions : Options where
  valued := ["--catalog", "--entity", "--domain", "--dialect", "--level", "--alias"]
  flags := ["--json", "--verbose"]

def parseOptions : Options where
  valued := ["--domain"]
  flags := ["--verbose"]

def ofCommand : List String → Except UsageError Invocation
  | [] => .error .noCommand
  | command :: arguments => do
    if command = "compile" then
      let found ← given compileOptions arguments
      let options : CompileOptions := {
        catalog := ← required found "--catalog"
        entity := ← required found "--entity"
        domain := ← required found "--domain"
        row := Json.member? "--alias" found
        json := (Json.member? "--json" found).isSome
      }
      let options := { options with
        dialect := (Json.member? "--dialect" found).getD options.dialect
        level := (Json.member? "--level" found).getD options.level
      }
      return ⟨.compile options, (Json.member? "--verbose" found).isSome⟩
    else if command = "parse" then
      let found ← given parseOptions arguments
      return ⟨.parse (← required found "--domain"), (Json.member? "--verbose" found).isSome⟩
    else .error (.unknownCommand command)

def ofArguments : List String → Except UsageError Invocation
  | "--verbose" :: arguments => do return { ← ofCommand arguments with verbose := true }
  | arguments => ofCommand arguments

def shows (i : Invocation) (event : Event) : Bool := i.verbose || event.severity != .debug

end Invocation

end QueryDomain
