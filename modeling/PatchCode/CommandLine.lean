import PatchCode.Session

/-! The command line: options, and what a run prints. Arguments are taken from left to right, and
the first that is wrong, or that asks for the version or for help, decides. -/

namespace PatchCode.CommandLine

structure Options where
  input : Option String := none
  output : Option String := none
  dialect : Option Dialect := none
  register : Option (Fin 16) := none
  noOptimize : Bool := false
  printTree : Bool := false
  deriving Repr, DecidableEq

/-- Why the arguments are refused. -/
inductive UsageError where
  | unknown (argument : String)
  | missingValue (option : String)
  | invalidValue (option value : String)
  | unexpectedValue (option : String)
  | repeated (option : String)
  deriving Repr, DecidableEq

def UsageError.message : UsageError → String
  | unknown argument => "unexpected argument '" ++ argument ++ "' found"
  | missingValue option => "a value is required for '" ++ option ++ "' but none was supplied"
  | invalidValue option value => "invalid value '" ++ value ++ "' for '" ++ option ++ "'"
  | unexpectedValue option => "unexpected value for '" ++ option ++ "' found; no more were expected"
  | repeated option => "the argument '" ++ option ++ "' cannot be used multiple times"

/-- What the arguments ask for. -/
inductive Invocation where
  | run (options : Options)
  | version
  | help
  deriving Repr, DecidableEq

/-- Options that take a value. -/
inductive Setting where
  | dialect | register | output
  deriving Repr, DecidableEq

/-- Options that take none. -/
inductive Switch where
  | noOptimize | printTree | version | help
  deriving Repr, DecidableEq

def Setting.name : Setting → String
  | dialect => "--dialect"
  | register => "--register"
  | output => "--output"

def Switch.name : Switch → String
  | noOptimize => "--no-optimize"
  | printTree => "--print-ir"
  | version => "--version"
  | help => "--help"

/-- An option of either kind. -/
inductive Flag where
  | setting (s : Setting)
  | switch (s : Switch)
  deriving Repr, DecidableEq

def Flag.ofLong? : String → Option Flag
  | "--dialect" => some (setting .dialect)
  | "--register" => some (setting .register)
  | "--output" => some (setting .output)
  | "--no-optimize" => some (switch .noOptimize)
  | "--print-ir" => some (switch .printTree)
  | "--version" => some (switch .version)
  | "--help" => some (switch .help)
  | _ => none

def Flag.ofShort? : Char → Option Flag
  | 'd' => some (setting .dialect)
  | 'o' => some (setting .output)
  | 'V' => some (switch .version)
  | 'h' => some (switch .help)
  | _ => none

/-- A register number from 0 to 15 in decimal, with an optional sign. -/
def register? (value : String) : Option (Fin 16) :=
  let (negative, digits) := Literal.splitSign value.toList
  match Text.ofDigits? 10 digits with
  | some n => if h : n < 16 then (if negative && n ≠ 0 then none else some ⟨n, h⟩) else none
  | none => none

/-- A path, which is any text but the empty one. -/
def path? (value : String) : Option String := if value.isEmpty then none else some value

/-- Reads a value that may be given once. -/
def once {α : Type} (name value : String) (read? : String → Option α) (current : Option α) :
    Except UsageError (Option α) :=
  match read? value, current with
  | none, _ => .error (.invalidValue name value)
  | _, some _ => .error (.repeated name)
  | some v, none => .ok (some v)

def Options.set (o : Options) (s : Setting) (value : String) : Except UsageError Options :=
  match s with
  | .dialect => do return { o with dialect := ← once s.name value Dialect.ofName? o.dialect }
  | .register => do return { o with register := ← once s.name value register? o.register }
  | .output => do return { o with output := ← once s.name value path? o.output }

/-- The file to read, which may be given once. -/
def Options.setInput (o : Options) (value : String) : Except UsageError Options :=
  match o.input, path? value with
  | some _, _ => .error (.unknown value)
  | none, none => .error (.invalidValue "[FILE]" value)
  | none, some p => .ok { o with input := some p }

/-- What a switch makes of the options so far: more options, or an answer of its own. -/
def Options.turnOn (o : Options) : Switch → Except UsageError (Options ⊕ Invocation)
  | .noOptimize => if o.noOptimize then .error (.repeated Switch.noOptimize.name)
    else .ok (.inl { o with noOptimize := true })
  | .printTree => if o.printTree then .error (.repeated Switch.printTree.name)
    else .ok (.inl { o with printTree := true })
  | .version => .ok (.inr .version)
  | .help => .ok (.inr .help)

/-- An argument by its shape. A lone dash is an ordinary word. -/
inductive Shape where
  | word
  /-- Two dashes, after which there are only words. -/
  | endOfOptions
  /-- An option with the value attached to it, if any. -/
  | flag (f : Flag) (value : Option String)
  | unknown
  deriving Repr, DecidableEq

def Shape.ofLong (cs : List Char) : Shape :=
  match Flag.ofLong? (.ofList (cs.takeWhile (· ≠ '='))), cs.dropWhile (· ≠ '=') with
  | some f, [] => flag f none
  | some f, _ :: value => flag f (some (.ofList value))
  | none, _ => unknown

/-- Behind the letter of a setting stands its value, with or without an equals sign before it. What
stands behind the letter of a switch is not reached, since these switches answer at once. -/
def Shape.ofShort (c : Char) (cs : List Char) : Shape :=
  match Flag.ofShort? c, cs with
  | some (.switch s), _ => flag (.switch s) none
  | some f, [] => flag f none
  | some f, '=' :: value => flag f (some (.ofList value))
  | some f, value => flag f (some (.ofList value))
  | none, _ => unknown

def Shape.of (argument : String) : Shape :=
  match argument.toList with
  | ['-', '-'] => endOfOptions
  | '-' :: '-' :: cs => ofLong ('-' :: '-' :: cs)
  | '-' :: c :: cs => ofShort c cs
  | _ => word

def parseWords : List String → Options → Except UsageError Invocation
  | [], o => .ok (.run o)
  | argument :: rest, o => do parseWords rest (← o.setInput argument)

def parseFrom : List String → Options → Except UsageError Invocation
  | [], o => .ok (.run o)
  | argument :: rest, o =>
    match Shape.of argument with
    | .word => do parseFrom rest (← o.setInput argument)
    | .endOfOptions => parseWords rest o
    | .unknown => .error (.unknown argument)
    | .flag (.switch _) (some _) => .error (.unexpectedValue argument)
    | .flag (.switch s) none => do
      match ← o.turnOn s with
      | .inl o => parseFrom rest o
      | .inr invocation => .ok invocation
    | .flag (.setting s) (some value) => do parseFrom rest (← o.set s value)
    | .flag (.setting s) none =>
      match rest with
      | [] => .error (.missingValue s.name)
      | value :: rest =>
        match Shape.of value with
        | .word => do parseFrom rest (← o.set s value)
        | _ => .error (.missingValue s.name)

def parse (arguments : List String) : Except UsageError Invocation := parseFrom arguments {}

/-- What a run leaves: its exit status, what it prints, and the text of its output file, if it
writes one. -/
structure Outcome where
  exit : UInt32 := 0
  stdout : String := ""
  stderr : String := ""
  output : Option String := none
  deriving Repr, DecidableEq

def versionText : String := "cheatasm 0.1.0\n"

def helpText : String :=
  String.join <| List.map (· ++ "\n")
    ["Assemble PowerPC source and patch directives into cheat codes",
      "",
      "Usage: cheatasm [OPTIONS] [FILE]",
      "",
      "Arguments:",
      "  [FILE]  Source file; reads stdin when omitted",
      "",
      "Options:",
      "  -d, --dialect <DIALECT>  [default: action-replay] [possible values: action-replay, gecko, bytes]",
      "      --register <N>       Gecko register used as scratch by arithmetic codes [default: 15]",
      "      --no-optimize        Skip the optimizer passes",
      "      --print-ir           Print the optimized IR tree to stderr before writing code",
      "  -o, --output <FILE>      ",
      "  -h, --help               Print help",
      "  -V, --version            Print version"]

def Options.session (o : Options) : Session :=
  { writer := Writer.ofDialect (o.register.getD ({} : Gecko.Style).register)
      (o.dialect.getD .actionReplay)
    passes := if o.noOptimize then ([] : List Pass) else Pass.standard }

def joinLines (lines : List String) : String := String.join (lines.map (· ++ "\n"))

/-- Compiles a source text. With `--print-ir` the program is built once more before that, for its
text. -/
def Options.run (o : Options) (source : String) : Outcome :=
  let lines := Source.splitLines source
  let (built, session) := if o.printTree then
      let (built, session) := o.session.build lines
      (built.result.map Patch.render, session)
    else (.ok "", o.session)
  match built, (session.compile lines).1.result with
  | .error fault, _ | _, .error fault => { exit := 1, stderr := "error: " ++ fault.message ++ "\n" }
  | .ok tree, .ok listing =>
    let text := joinLines listing.lines
    { exit := if listing.isComplete then 0 else 1
      stdout := if o.output.isNone then text else ""
      stderr := tree ++ joinLines (listing.warnings.map ("warning: " ++ ·.message)) ++
        joinLines (listing.errors.map ("error: " ++ ·.message))
      output := o.output.map fun _ => text }

namespace Invocation

/-- The options of a run; the other invocations read no source and write no file. -/
def options? : Invocation → Option Options
  | run o => some o
  | version | help => none

/-- The outcome of an invocation, given the text of its source. -/
def outcome (source : String) : Invocation → Outcome
  | run o => o.run source
  | version => { stdout := versionText }
  | help => { stdout := helpText }

/-- The path of the file that an invocation writes, if it writes one. -/
def output? (i : Invocation) : Option String := i.options?.bind (·.output)

end Invocation

def UsageError.outcome (e : UsageError) : Outcome :=
  { exit := 2, stderr := "error: " ++ e.message ++ "\n" }

end PatchCode.CommandLine
