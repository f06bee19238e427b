/-! Command lines. The words of a command line are flags, values of flags and positional
arguments; a word that could be taken in two ways is a flag first, then the value that a flag is
waiting for, then positional. After `--` every word is positional. -/

namespace TreeQuery.CommandLine

/-- How a command line goes against the rules, or asks for something else than a command. -/
inductive Usage where
  | missingArgument
  | unknownArgument
  | unknownCommand
  | missingCommand
  /-- A flag lacks its value, or a file has an empty name. -/
  | invalidValue
  /-- A flag that takes no value is given one. -/
  | unexpectedValue
  /-- A flag is given twice. -/
  | conflict
  | help
  | helpWithoutCommand
  | version
  deriving DecidableEq, Repr

/-- What becomes of a flag. -/
inductive Effect where
  | count
  | switch
  | file
  | help
  | version
  deriving DecidableEq, Repr

structure Flag where
  name : String
  short : Option Char
  effect : Effect

/-- A positional argument: its name, and whether it names a file. -/
structure Positional where
  name : String
  isFile : Bool

/-- What a command takes. -/
structure Signature where
  flags : List Flag
  positionals : List Positional
  required : List String

/-- The words taken so far. -/
structure Taken where
  /-- How often the counted flag was given. -/
  count : Nat
  values : List (String × String)
  /-- The argument whose value is not yet settled, whether it names a file, and the value. -/
  pending : Option (String × Bool × Option String)
  /-- Whether all further words are positional. -/
  onlyPositional : Bool
  /-- The positional arguments still to come. -/
  expected : List Positional

namespace Taken

def start (s : Signature) : Taken := ⟨0, [], none, false, s.positionals⟩

/-- Records a value, unless there is one already or it is an empty file name. -/
def record (t : Taken) (name : String) (isFile : Bool) (value : String) : Except Usage Taken :=
  if t.values.any (·.1 == name) then .error .conflict
  else if isFile && value.isEmpty then .error .invalidValue
  else .ok { t with values := (name, value) :: t.values }

/-- Settles the pending argument, which must have its value by now. -/
def settle (t : Taken) : Except Usage Taken :=
  match t.pending with
  | none => .ok t
  | some (_, _, none) => .error .invalidValue
  | some (name, isFile, some value) => { t with pending := none }.record name isFile value

/-- Whether a flag waits for its value. -/
def isWaiting (t : Taken) : Bool :=
  match t.pending with
  | some (_, _, none) => true
  | _ => false

/-- Gives the value that a flag waits for. -/
def giveValue (t : Taken) (value : String) : Taken :=
  match t.pending with
  | some (name, isFile, none) => { t with pending := some (name, isFile, some value) }
  | _ => t

/-- Takes a flag, with the value attached to it if there is one. -/
def flag (t : Taken) (f : Flag) (attached : Option String) : Except Usage Taken := do
  let t ← t.settle
  match f.effect with
  | .count => return { t with count := t.count + 1 }
  | .switch => t.record f.name false ""
  | .help => throw .help
  | .version => throw .version
  | .file =>
    match attached with
    | some value => t.record f.name true value
    | none => return { t with pending := some (f.name, true, none) }

/-- Takes a flag by its full name. -/
def longFlag (s : Signature) (t : Taken) (name : String) (attached : Option String) :
    Except Usage Taken :=
  match s.flags.find? (·.name == name) with
  | none => .error .unknownArgument
  | some f =>
    if f.effect != .file && attached.isSome then .error .unexpectedValue
    else t.flag f attached

/-- Takes flags by their letters. What follows the letter of a flag with a value is the value. -/
def shortFlags (s : Signature) (t : Taken) : List Char → Except Usage Taken
  | [] => .ok t
  | c :: cs =>
    match s.flags.find? (·.short == some c) with
    | none => .error .unknownArgument
    | some f =>
      if f.effect == .file then
        match cs with
        | [] => t.flag f none
        | '=' :: value => t.flag f (some (String.ofList value))
        | value => t.flag f (some (String.ofList value))
      else do shortFlags s (← t.flag f none) cs

/-- Takes a word as the next positional argument. -/
def positional (t : Taken) (word : String) (tooMany : Usage) : Except Usage Taken :=
  match t.expected with
  | [] => .error tooMany
  | p :: rest => do
    let t ← t.settle
    return { t with pending := some (p.name, p.isFile, some word), expected := rest }

/-- Takes one word. -/
def word (s : Signature) (tooMany : Usage) (t : Taken) (w : String) : Except Usage Taken :=
  if t.onlyPositional then t.positional w tooMany
  else
    match w.toList with
    | ['-', '-'] => .ok { t with onlyPositional := true }
    | '-' :: '-' :: cs =>
      let name := String.ofList (cs.takeWhile (· != '='))
      match cs.dropWhile (· != '=') with
      | [] => t.longFlag s name none
      | _ :: value => t.longFlag s name (some (String.ofList value))
    | '-' :: c :: cs => t.shortFlags s (c :: cs)
    | _ => if t.isWaiting then .ok (t.giveValue w) else t.positional w tooMany

def has (t : Taken) (name : String) : Bool := t.values.any (·.1 == name)

def value? (t : Taken) (name : String) : Option String := t.values.lookup name

end Taken

/-- Takes all words of a command. -/
def Signature.take (s : Signature) (words : List String) : Except Usage Taken := do
  let t ← words.foldlM (Taken.word s .unknownArgument) (.start s)
  let t ← t.settle
  if s.required.all t.has then return t else throw .missingArgument

/-! ### Commands -/

inductive Command where
  | select (path : String) (input : Option String) (withPaths compact : Bool)
  | test (condition : String) (input : Option String)
  | derive (rules : String) (input facts : Option String) (compact : Bool)
  deriving DecidableEq, Repr

structure Invocation where
  verbosity : Nat
  command : Command
  deriving DecidableEq, Repr

def verbose : Flag := ⟨"verbose", some 'v', .count⟩
def helpFlag : Flag := ⟨"help", some 'h', .help⟩

def topSignature : Signature :=
  ⟨[verbose, helpFlag, ⟨"version", some 'V', .version⟩], [], []⟩

def selectSignature : Signature :=
  ⟨[⟨"paths", none, .switch⟩, ⟨"compact", none, .switch⟩, verbose, helpFlag],
    [⟨"path", false⟩, ⟨"input", true⟩], ["path"]⟩

def testSignature : Signature :=
  ⟨[verbose, helpFlag], [⟨"expression", false⟩, ⟨"input", true⟩], ["expression"]⟩

def deriveSignature : Signature :=
  ⟨[⟨"rules", some 'r', .file⟩, ⟨"facts", some 'f', .file⟩, ⟨"compact", none, .switch⟩,
      verbose, helpFlag],
    [⟨"input", true⟩], ["rules"]⟩

/-- The signature of a command, and the command from what was taken. -/
def command? (name : String) : Option (Signature × (Taken → Command)) :=
  match name with
  | "select" => some (selectSignature, fun t =>
      .select ((t.value? "path").getD "") (t.value? "input") (t.has "paths") (t.has "compact"))
  | "test" => some (testSignature, fun t =>
      .test ((t.value? "expression").getD "") (t.value? "input"))
  | "derive" => some (deriveSignature, fun t =>
      .derive ((t.value? "rules").getD "") (t.value? "input") (t.value? "facts") (t.has "compact"))
  | _ => none

/-- What a request for help about a command comes to. No command has commands of its own. -/
def helpAbout : List String → Usage
  | [] => .help
  | [name] => if name == "help" || (command? name).isSome then .help else .unknownCommand
  | _ => .unknownCommand

/-- Reads the words before the command, then the command. What counts is how often the verbosity
flag follows the command or, if it does not follow it, how often it precedes it. -/
def parseFrom (t : Taken) : List String → Except Usage Invocation
  | [] => .error (if t.count = 0 then .helpWithoutCommand else .missingCommand)
  | w :: rest =>
    if t.onlyPositional then
      .error (if w == "help" || (command? w).isSome then .unknownArgument else .unknownCommand)
    else if w == "help" then .error (helpAbout rest)
    else
      match command? w with
      | some (signature, make) => do
        let inner ← signature.take rest
        return ⟨if inner.count = 0 then t.count else inner.count, make inner⟩
      | none => do
        let t ← t.word topSignature .unknownCommand w
        parseFrom t rest

def parse (words : List String) : Except Usage Invocation := parseFrom (.start topSignature) words

/-- The name of the least important level that a verbosity lets through. -/
def Invocation.logLevel (i : Invocation) : String :=
  match i.verbosity with
  | 0 => "warn"
  | 1 => "info"
  | 2 => "debug"
  | _ => "trace"

end TreeQuery.CommandLine
