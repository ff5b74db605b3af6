import ShaderBuild.Backend.Command
import ShaderBuild.Text.Decimal
/-!
# The command line

Arguments are read from left to right, and the first thing wrong ends the reading. The value of an
option is the next argument, or what follows the option in the same one.

The options are declared, and read as the library for command lines documents it. The name of an option
is that of its field, with dashes; a letter may be followed by its value, with an equals sign or without.
An option that is given twice is an error, unless it collects its values. A path is not empty, and a
number fits its width. What starts with a dash is no value, except where this is allowed. Asking for help
or the version ends the reading. After two dashes there are only plain arguments, of which there are none.
-/

namespace ShaderBuild

/-- What the command line asks for. -/
structure Options where
  manifest : Path
  /-- In place of the source directory of the settings. -/
  source : Option Path := none
  /-- In place of the output directory of the settings. -/
  output : Option Path := none
  /-- The settings document. -/
  config : Option Path := none
  compiler : Path := ⟨"fxc"⟩
  /-- The arguments of the compiler; the usual ones if there are none. -/
  compilerArgs : List String := []
  backendId : Nat := 1
  /-- Write a report for each stage. -/
  reflect : Bool := false
  keepComments : Bool := false
  deriving DecidableEq, Repr, Inhabited

namespace CommandLine

/-- An option with a value. -/
inductive Valued where
  | manifest
  | source
  | output
  | config
  | compiler
  | compilerArg
  | backendId
  deriving DecidableEq, Repr

/-- An option without a value. -/
inductive Flag where
  | reflect
  | keepComments
  | help
  | version
  deriving DecidableEq, Repr

/-- An option. -/
inductive Switch where
  | valued (option : Valued)
  | flag (flag : Flag)
  deriving DecidableEq, Repr

/-- The option of a long name. -/
def ofLong? (name : String) : Option Switch :=
  match name with
  | "manifest" => some (.valued .manifest)
  | "source" => some (.valued .source)
  | "output" => some (.valued .output)
  | "config" => some (.valued .config)
  | "compiler" => some (.valued .compiler)
  | "compiler-arg" => some (.valued .compilerArg)
  | "backend-id" => some (.valued .backendId)
  | "reflect" => some (.flag .reflect)
  | "keep-comments" => some (.flag .keepComments)
  | "help" => some (.flag .help)
  | "version" => some (.flag .version)
  | _ => none

/-- The option of a letter. -/
def ofShort? (c : Char) : Option Switch :=
  if c = 't' then some (.valued .manifest)
  else if c = 's' then some (.valued .source)
  else if c = 'o' then some (.valued .output)
  else if c = 'h' then some (.flag .help)
  else if c = 'V' then some (.flag .version)
  else none

/-- An argument by its form. -/
inductive Argument where
  /-- An option, perhaps with a value in the same argument. -/
  | switch (switch : Switch) (value : Option String)
  /-- Two dashes. -/
  | endOfOptions
  /-- Not an option that is known. -/
  | other
  deriving DecidableEq, Repr

/-- A text cut at its first equals sign. -/
def cutAtEquals (cs : List Char) : String × Option String :=
  match cs.dropWhile (· != '=') with
  | [] => (String.ofList cs, none)
  | _ :: value => (String.ofList (cs.takeWhile (· != '=')), some (String.ofList value))

/-- The value that follows the letter of an option in the same argument. -/
def attached : List Char → Option String
  | [] => none
  | '=' :: value => some (String.ofList value)
  | value => some (String.ofList value)

/-- The form of an argument. -/
def classify (arg : String) : Argument :=
  match arg.toList with
  | '-' :: '-' :: [] => .endOfOptions
  | '-' :: '-' :: rest =>
    let (name, value) := cutAtEquals rest
    match ofLong? name with
    | some switch => .switch switch value
    | none => .other
  | '-' :: c :: rest =>
    match ofShort? c with
    | some (.flag flag) => .switch (.flag flag) none
    | some (.valued option) => .switch (.valued option) (attached rest)
    | none => .other
  | _ => .other

/-- Can an argument of its own be the value of an option? -/
def canBeValue (option : Valued) (arg : String) : Bool :=
  option == .compilerArg || arg == "-" || arg.toList.head? != some '-'

/-- The largest number of a bytecode format. -/
def maxBackendId : Nat := 0xFFFFFFFF

/-- The number of a bytecode format, perhaps with a sign. -/
def number? (cs : List Char) : Option Nat :=
  match cs with
  | '+' :: digits => Text.decimalUpTo? maxBackendId digits
  | '-' :: digits => Text.decimalUpTo? 0 digits
  | digits => Text.decimalUpTo? maxBackendId digits

/-- What has been read of the command line. -/
structure Draft where
  manifest : Option Path := none
  source : Option Path := none
  output : Option Path := none
  config : Option Path := none
  compiler : Option Path := none
  compilerArgs : List String := []
  backendId : Option Nat := none
  reflect : Bool := false
  keepComments : Bool := false
  deriving DecidableEq, Repr

/-- Why no build is run. -/
inductive Stop where
  /-- The command line is wrong. -/
  | misuse
  | help
  | version
  deriving DecidableEq, Repr

/-- A path for an option that has none yet. -/
def newPath (old : Option Path) (value : String) : Except Stop (Option Path) :=
  if old.isSome ∨ value = "" then .error .misuse else .ok (some ⟨value⟩)

/-- Give an option a value. Only the arguments of the compiler may be given several times. -/
def Draft.give (d : Draft) (option : Valued) (value : String) : Except Stop Draft :=
  match option with
  | .manifest => (newPath d.manifest value).map fun p => { d with manifest := p }
  | .source => (newPath d.source value).map fun p => { d with source := p }
  | .output => (newPath d.output value).map fun p => { d with output := p }
  | .config => (newPath d.config value).map fun p => { d with config := p }
  | .compiler => (newPath d.compiler value).map fun p => { d with compiler := p }
  | .compilerArg => .ok { d with compilerArgs := d.compilerArgs ++ [value] }
  | .backendId =>
    match d.backendId, number? value.toList with
    | none, some n => .ok { d with backendId := some n }
    | _, _ => .error .misuse

/-- Set a flag that is not set yet. -/
def Draft.raise (d : Draft) : Flag → Except Stop Draft
  | .reflect => if d.reflect then .error .misuse else .ok { d with reflect := true }
  | .keepComments => if d.keepComments then .error .misuse else .ok { d with keepComments := true }
  | .help => .error .help
  | .version => .error .version

/-- Read arguments. -/
def Draft.read (d : Draft) : List String → Except Stop Draft
  | [] => .ok d
  | arg :: rest =>
    match classify arg, rest with
    | .other, _ => .error .misuse
    | .endOfOptions, [] => .ok d
    | .endOfOptions, _ :: _ => .error .misuse
    | .switch (.flag _) (some _), _ => .error .misuse
    | .switch (.flag flag) none, rest => do (← d.raise flag).read rest
    | .switch (.valued option) (some value), rest => do (← d.give option value).read rest
    | .switch (.valued _) none, [] => .error .misuse
    | .switch (.valued option) none, value :: rest =>
      if canBeValue option value then do (← d.give option value).read rest else .error .misuse

/-- The options of a draft. There must be a manifest. -/
def Draft.finish (d : Draft) : Except Stop Options :=
  match d.manifest with
  | none => .error .misuse
  | some manifest =>
    let usual : Options := { manifest }
    .ok { usual with
      source := d.source, output := d.output, config := d.config
      compiler := d.compiler.getD usual.compiler, compilerArgs := d.compilerArgs
      backendId := d.backendId.getD usual.backendId, reflect := d.reflect
      keepComments := d.keepComments }

/-- The options that a command line gives. -/
def parse (args : List String) : Except Stop Options := do
  (← ({} : Draft).read args).finish

/-- An option as the help shows it: its text stands below it. -/
def shownOption (option : String) (text : List String) : String :=
  "  " ++ option ++ "\n" ++ String.join (text.map fun line => "          " ++ line ++ "\n")

/-- How the command line is used. -/
def usage : String :=
  "Compile the shader units listed in a manifest\n\n" ++
  "Usage: ember-shaderc [OPTIONS] --manifest <MANIFEST>\n\n" ++
  "Options:\n" ++
  shownOption "-t, --manifest <MANIFEST>" ["Shader manifest (.shm)"] ++
  shownOption "-s, --source <SOURCE>" ["Source root; overrides the settings file"] ++
  shownOption "-o, --output <OUTPUT>"
    ["Output root for objects and cache; overrides the settings file"] ++
  shownOption "    --config <CONFIG>" ["Compiler settings (JSON)"] ++
  shownOption "    --compiler <COMPILER>" ["Backend compiler executable [default: fxc]"] ++
  shownOption "    --compiler-arg <COMPILER_ARGS>"
    ["Backend argument template, repeatable. Supports \x7binput\x7d, \x7boutput\x7d, " ++
      "\x7bentry\x7d and \x7bprofile\x7d.",
      "Defaults to an fxc command line"] ++
  shownOption "    --backend-id <BACKEND_ID>"
    ["Cache partition id of the backend's bytecode format [default: 1]"] ++
  shownOption "    --reflect"
    ["Write \x60<output>/<name>.<stage>.json\x60 reflection for each stage"] ++
  shownOption "    --keep-comments" ["Preserve comments in preprocessed source"] ++
  shownOption "-h, --help" ["Print help"] ++
  shownOption "-V, --version" ["Print version"]

/-- The version that the command line shows. -/
def version : String := "ember_shaderc 0.1.0\n"

end CommandLine

end ShaderBuild
