import TreeQuery.CommandLine.Run

/-! The command line program. -/

namespace TreeQuery.CommandLine

/-- The text of an input, if it can be read. -/
def readInput : Input → IO (Option String)
  | .standard => do
    let text ← (← IO.getStdin).readToEnd
    return some text
  | .file name => do
    try
      let text ← IO.FS.readFile name
      return some text
    catch _ => return none

def Usage.text : Usage → String
  | .version => "0.1.0"
  | .help | .helpWithoutCommand =>
    "select PATH [INPUT] [--paths] [--compact]\ntest EXPRESSION [INPUT]\n"
      ++ "derive --rules RULES [INPUT] [--facts FACTS] [--compact]"
  | .missingArgument => "a required argument is missing"
  | .unknownArgument => "unknown argument"
  | .unknownCommand => "unknown command"
  | .missingCommand => "a command is missing"
  | .invalidValue => "a value is missing or empty"
  | .unexpectedValue => "a flag takes no value"
  | .conflict => "a flag is given twice"

/-- The most detailed level that a verbosity lets through. -/
def Invocation.detail (i : Invocation) : Nat := min 5 (i.verbosity + 2)

def runMain (words : List String) : IO UInt32 := do
  match parse words with
  | .error u =>
    if u == .help || u == .version then
      IO.println u.text
      return 0
    else
      IO.eprintln u.text
      return 2
  | .ok invocation =>
    let outcome ← invocation.command.run readInput
    for r in outcome.records do
      if r.level.detail ≤ invocation.detail then
        IO.eprintln (r.level.name ++ " " ++ r.text)
    match outcome.result with
    | .ok report =>
      IO.print report.text
      return if report.holds then 0 else 1
    | .error e =>
      IO.eprintln ("Error: " ++ e.message)
      return 2

end TreeQuery.CommandLine

def main (words : List String) : IO UInt32 := TreeQuery.CommandLine.runMain words
