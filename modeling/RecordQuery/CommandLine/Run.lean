import RecordQuery.Check
import RecordQuery.CommandLine.Arguments
import RecordQuery.Limits.Text
import RecordQuery.Manual

/-!
Running a command. Files and the piped input are read through two functions of the caller, so that a
run is a plain function wherever those two are.
-/

namespace RecordQuery.CommandLine

inductive Error where
  | check (e : Check.Error)
  | unreadable
  | noSchema
  | unknownTopic (name : String)

def Error.message : Error → String
  | .check e => e.message
  | .unreadable => "IO error"
  | .noSchema => "No schema provided. Use --schema unless --syntax-only is given."
  | .unknownTopic name =>
    "Unknown category: '" ++ name ++ "'\nRun 'sq docs' to see available categories."

/-- What stands on the standard input; a terminal is not read. -/
inductive Piped where
  | terminal
  | unreadable
  | text (s : String)

/-- What a run leaves behind: the exit code and the two output texts. -/
structure Response where
  code : UInt32
  output : String
  complaint : String

def versionText : String := "sq 0.1.0\n"

def helpText : String := Manual.text [
  "sq - check JSON records against schema-guided queries",
  "",
  "Usage: sq [OPTIONS] <COMMAND>",
  "",
  "Commands:",
  "  check  Check whether a JSON record matches a query",
  "  eval   Print the raw value a query evaluates to",
  "  docs   List documentation categories",
  "  doc    Show documentation for a specific category",
  "  help   Print this message or the help of the given subcommand(s)",
  "",
  "Options:",
  "      --config <CONFIG>        TOML file with evaluator limits (max_depth, max_path_len)",
  "      --max-depth <MAX_DEPTH>  Override the maximum query nesting depth",
  "  -h, --help                   Print help",
  "  -V, --version                Print version"]

section

variable {m : Type → Type} [Monad m]
  (readFile : String → m (Option String)) (readPiped : m Piped)

/-- The limits of a run: those of the config file, with the given depth in place of its own. -/
def loadLimits (config : Option String) (maxDepth : Option Nat) : ExceptT Error m Limits := do
  let limits ← match config with
    | none => pure {}
    | some path => do
      match ← readFile path with
      | none => throw (.check (.limits .unreadable))
      | some text =>
        match Limits.ofText text with
        | .ok limits => pure limits
        | .error e => throw (.check (.limits e))
  return match maxDepth with
    | none => limits
    | some n => { limits with maxDepth := n }

def loadSchema (path : String) : ExceptT Error m String := do
  match ← readFile path with
  | none => throw .unreadable
  | some text => return text

def loadInput : Option String → ExceptT Error m (Option String)
  | some text => return some text
  | none => do
    match ← readPiped with
    | .terminal => return none
    | .unreadable => throw .unreadable
    | .text text => return some text

def answer (request : Check.Request) : ExceptT Error m Check.Answer :=
  match Check.run request with
  | .ok a => pure a
  | .error e => throw (.check e)

def answerText (pretty : Bool) : Check.Answer → String
  | .canonical query => "Syntax is valid: " ++ query.compact ++ "\n"
  | .decided matched => (if matched then "true" else "false") ++ "\n"
  | .evaluated value => (if pretty then value.pretty else value.compact) ++ "\n"

/-- The output of a command. Nothing but the query is read where only its syntax is asked for. -/
def execute (limits : Limits) : Command → ExceptT Error m String
  | .check query _ _ true => do
    return answerText false (← answer ⟨query, "", none, .syntaxOnly, limits⟩)
  | .check _ none _ false => throw .noSchema
  | .check query (some path) input false => do
    let schema ← loadSchema readFile path
    let input ← loadInput readPiped input
    return answerText false (← answer ⟨query, schema, input, .decision, limits⟩)
  | .eval query path input pretty => do
    let schema ← loadSchema readFile path
    let input ← loadInput readPiped input
    return answerText pretty (← answer ⟨query, schema, input, .evaluation, limits⟩)
  | .docs => return Manual.overview
  | .doc name =>
    match Manual.Topic.ofName? name with
    | some topic => return Manual.page topic
    | none => throw (.unknownTopic name)

/-- Runs the program on its arguments. -/
def run (args : List String) : m Response := do
  match Invocation.ofArgs args with
  | .error .help => return ⟨0, helpText, ""⟩
  | .error .version => return ⟨0, versionText, ""⟩
  | .error (.usage e) => return ⟨2, "", "error: " ++ e.message ++ "\n"⟩
  | .ok invocation =>
    let result ← (do
      let limits ← loadLimits readFile invocation.config invocation.maxDepth
      execute readFile readPiped limits invocation.command : ExceptT Error m String).run
    match result with
    | .ok output => return ⟨0, output, ""⟩
    | .error e => return ⟨1, "", e.message ++ "\n"⟩

end

end RecordQuery.CommandLine
