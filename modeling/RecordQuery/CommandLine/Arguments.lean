import RecordQuery.Numeral

/-!
The arguments of the command line. Options are read in the order in which they stand, and the first
fault, or the first request for help or the version, settles the rest.
-/

namespace RecordQuery.CommandLine

/-! ## Options -/

inductive Opt where
  | config
  | maxDepth
  | schema
  | input
  | syntaxOnly
  | pretty
  | help
  | version
  deriving DecidableEq

namespace Opt

def long : Opt → String
  | .config => "config"
  | .maxDepth => "max-depth"
  | .schema => "schema"
  | .input => "input"
  | .syntaxOnly => "syntax-only"
  | .pretty => "pretty"
  | .help => "help"
  | .version => "version"

def short? : Opt → Option Char
  | .schema => some 's'
  | .input => some 'i'
  | .pretty => some 'p'
  | .help => some 'h'
  | .version => some 'V'
  | _ => none

def takesValue : Opt → Bool
  | .config | .maxDepth | .schema | .input => true
  | _ => false

end Opt

inductive UsageError where
  | unknownOption (arg : String)
  | unexpected (arg : String)
  | unknownCommand (name : String)
  | noValue (opt : Opt)
  | needlessValue (opt : Opt)
  | badValue (opt : Opt) (value : String)
  | repeated (opt : Opt)
  | missingOption (opt : Opt)
  | missingOperand
  | missingCommand

def UsageError.message : UsageError → String
  | .unknownOption arg => "unexpected argument '" ++ arg ++ "' found"
  | .unexpected arg => "unexpected argument '" ++ arg ++ "' found"
  | .unknownCommand name => "unrecognized subcommand '" ++ name ++ "'"
  | .noValue opt => "a value is required for '--" ++ opt.long ++ "' but none was supplied"
  | .needlessValue opt => "unexpected value for '--" ++ opt.long ++ "' found; no more were expected"
  | .badValue opt value => "invalid value '" ++ value ++ "' for '--" ++ opt.long ++ "'"
  | .repeated opt => "the argument '--" ++ opt.long ++ "' cannot be used multiple times"
  | .missingOption opt => "the required argument '--" ++ opt.long ++ "' was not provided"
  | .missingOperand => "a required argument was not provided"
  | .missingCommand => "a subcommand is required but one was not provided"

/-- Why reading stops before the end. -/
inductive Stop where
  | help
  | version
  | usage (e : UsageError)

/-! ## Reading options -/

/-- The options that are open to a command, and how many operands it takes. -/
structure Grammar where
  options : List Opt
  operands : Nat

structure Reading where
  options : List (Opt × String) := []
  operands : List String := []

/-- A count of at most 64 bits, with or without a plus sign. -/
def count? (s : String) : Option Nat := do
  let ds := match s.toList with
    | '+' :: ds => ds
    | ds => ds
  if ds.isEmpty then none else (Numeral.ofDigits? 10 ds).filter (· < UInt64.size)

def isValid (value : String) : Opt → Bool
  | .maxDepth => (count? value).isSome
  | .config => value != ""
  | .schema => value != ""
  | _ => true

namespace Reading

def value? (r : Reading) (opt : Opt) : Option String := r.options.lookup opt

def has (r : Reading) (opt : Opt) : Bool := (r.value? opt).isSome

/-- Takes an option with its value; no option may be given again. -/
def give (r : Reading) (opt : Opt) (value : String) : Except Stop Reading :=
  if opt = .help then .error .help
  else if opt = .version then .error .version
  else if r.has opt then .error (.usage (.repeated opt))
  else if isValid value opt then .ok { r with options := (opt, value) :: r.options }
  else .error (.usage (.badValue opt value))

/-- Takes a group of one-letter options. The first that needs a value takes what is left of the
group; if nothing is left, it is returned and takes the next argument. -/
def giveShort (g : Grammar) (r : Reading) (arg : String) :
    List Char → Except Stop (Reading × Option Opt)
  | [] => .ok (r, none)
  | c :: cs =>
    match g.options.find? fun opt => opt.short? == some c with
    | none => .error (.usage (.unknownOption arg))
    | some opt =>
      if opt.takesValue then
        match cs with
        | [] => .ok (r, some opt)
        | '=' :: value => do return (← r.give opt (String.ofList value), none)
        | value => do return (← r.give opt (String.ofList value), none)
      else do giveShort g (← r.give opt "") arg cs

/-- Takes a long option, with a value after an equals sign or without one. -/
def giveLong (g : Grammar) (r : Reading) (arg : String) (body : List Char) :
    Except Stop (Reading × Option Opt) :=
  let name := String.ofList (body.takeWhile (· != '='))
  let attached := body.dropWhile (· != '=')
  match g.options.find? fun opt => opt.long == name with
  | none => .error (.usage (.unknownOption arg))
  | some opt =>
    match attached with
    | [] => if opt.takesValue then .ok (r, some opt) else do return (← r.give opt "", none)
    | _ :: value =>
      if opt.takesValue then do return (← r.give opt (String.ofList value), none)
      else .error (.usage (.needlessValue opt))

/-- Takes an argument that begins with a dash, as options. -/
def giveOptions (g : Grammar) (r : Reading) (arg : String) : Except Stop (Reading × Option Opt) :=
  match arg.toList with
  | '-' :: '-' :: body => giveLong g r arg body
  | '-' :: body => giveShort g r arg body
  | _ => .error (.usage (.unexpected arg))

def operand (g : Grammar) (r : Reading) (arg : String) : Except Stop Reading :=
  if r.operands.length < g.operands then .ok { r with operands := r.operands ++ [arg] }
  else .error (.usage (.unexpected arg))

end Reading

/-- A lone dash is an operand, and so is all that does not begin with a dash. -/
def isOption (arg : String) : Bool :=
  match arg.toList with
  | '-' :: _ :: _ => true
  | _ => false

/-- Reads the arguments of a command. Two dashes make operands of all that follows. -/
def readAll (g : Grammar) (r : Reading) : List String → Except Stop Reading
  | [] => .ok r
  | arg :: rest =>
    if arg = "--" then rest.foldlM (Reading.operand g) r
    else if isOption arg then do
      match ← r.giveOptions g arg, rest with
      | (r, none), rest => readAll g r rest
      | (_, some opt), [] => .error (.usage (.noValue opt))
      | (r, some opt), value :: rest =>
        if isOption value then .error (.usage (.noValue opt))
        else readAll g (← r.give opt value) rest
    else do readAll g (← r.operand g arg) rest

/-- Reads options up to the first operand. -/
def readOptions (g : Grammar) (r : Reading) : List String → Except Stop (Reading × List String)
  | [] => .ok (r, [])
  | arg :: rest =>
    if isOption arg then do
      match ← r.giveOptions g arg, rest with
      | (r, none), rest => readOptions g r rest
      | (_, some opt), [] => .error (.usage (.noValue opt))
      | (r, some opt), value :: rest =>
        if isOption value then .error (.usage (.noValue opt))
        else readOptions g (← r.give opt value) rest
    else .ok (r, arg :: rest)

/-! ## Commands -/

inductive Command where
  | check (query : String) (schema input : Option String) (syntaxOnly : Bool)
  | eval (query schema : String) (input : Option String) (pretty : Bool)
  | docs
  | doc (topic : String)

/-- A command with the options that every command has. -/
structure Invocation where
  config : Option String
  maxDepth : Option Nat
  command : Command

def sharedOptions : List Opt := [.config, .maxDepth, .help]

def checkGrammar : Grammar := ⟨sharedOptions ++ [.schema, .input, .syntaxOnly], 1⟩
def evalGrammar : Grammar := ⟨sharedOptions ++ [.schema, .input, .pretty], 1⟩
def docsGrammar : Grammar := ⟨sharedOptions, 0⟩
def docGrammar : Grammar := ⟨sharedOptions, 1⟩

def commandNames : List String := ["check", "eval", "docs", "doc", "help"]

def required (r : Reading) : Except Stop String :=
  match r.operands with
  | [] => .error (.usage .missingOperand)
  | arg :: _ => .ok arg

def readCommand (name : String) (args : List String) : Except Stop (Reading × Command) :=
  if name = "check" then do
    let r ← readAll checkGrammar {} args
    return (r, .check (← required r) (r.value? .schema) (r.value? .input) (r.has .syntaxOnly))
  else if name = "eval" then do
    let r ← readAll evalGrammar {} args
    let query ← required r
    match r.value? .schema with
    | none => .error (.usage (.missingOption .schema))
    | some schema => return (r, .eval query schema (r.value? .input) (r.has .pretty))
  else if name = "docs" then do return (← readAll docsGrammar {} args, .docs)
  else if name = "doc" then do
    let r ← readAll docGrammar {} args
    return (r, .doc (← required r))
  else if name = "help" then
    match args with
    | [] => .error .help
    | [command] =>
      .error (if commandNames.contains command then .help else .usage (.unknownCommand command))
    | command :: _ => .error (.usage (.unknownCommand command))
  else .error (.usage (.unknownCommand name))

/-- Reads a whole command line. A shared option may stand before the command and after it; the one
after it counts. -/
def Invocation.ofArgs (args : List String) : Except Stop Invocation := do
  match ← readOptions ⟨.version :: sharedOptions, 0⟩ {} args with
  | (_, []) => .error (.usage .missingCommand)
  | (before, name :: args) =>
    let (after, command) ← readCommand name args
    let shared := fun opt => (after.value? opt).or (before.value? opt)
    return ⟨shared .config, (shared .maxDepth).bind count?, command⟩

end RecordQuery.CommandLine
