import QueryDomain.Invocation

/-! The program: reads the files, runs the command, prints. -/
namespace QueryDomain

def fileContents (path : String) : IO (Option String) := do
  try
    return some (← IO.FS.readFile path)
  catch _ =>
    return none

end QueryDomain

open QueryDomain

def main (arguments : List String) : IO UInt32 := do
  match Invocation.ofArguments arguments with
  | .error usage =>
    IO.eprintln ("error: " ++ usage.message)
    return 2
  | .ok invocation =>
    let files ← invocation.command.files.mapM fun path => do
      return (path, ← fileContents path)
    let run := invocation.command.run fun path => (Json.member? path files).join
    for event in run.events.filter invocation.shows do
      IO.eprintln (Text.padRight 5 event.severity.text ++ " " ++ event.message)
    match run.result with
    | .ok output =>
      IO.print output
      return 0
    | .error failure =>
      IO.eprintln ("Error: " ++ failure.message)
      return 1
