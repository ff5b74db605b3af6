import ShaderBuild.Backend
import ShaderBuild.Digest
import ShaderBuild.Text.Blank
/-!
# Compiling with a program

A command backend writes the source to a file, runs a program on it and reads the bytecode that the
program wrote. Both files are removed afterwards, whatever happened. How programs are run is a
parameter: a `Launcher` is any step on files with a status and some output.
-/

namespace ShaderBuild

/-- How a program ended. -/
structure Ended where
  success : Bool
  output : Bytes := []
  errors : Bytes := []
  deriving DecidableEq, Repr

/-- A way to run a program with some arguments. It may be impossible to start it. -/
abbrev Launcher := Path → List String → FileSystem → Except FileFault Ended × FileSystem

/-- A program that compiles shaders. -/
structure Command where
  /-- The format of the bytecode. -/
  id : Nat := 1
  program : Path
  /-- The arguments, with placeholders in them. -/
  template : List String
  /-- The directory of the files that are passed to the program. -/
  workDir : Path
  deriving DecidableEq, Repr

namespace Command

/-- The arguments of the usual compiler. -/
def usualTemplate : List String :=
  ["/nologo", "/T", "\x7bprofile\x7d", "/E", "\x7bentry\x7d", "/Fo", "\x7boutput\x7d",
    "\x7binput\x7d"]

/-- A text with `new` for every occurrence of `old`, from left to right. -/
def replaceAll (old new : List Char) (cs : List Char) : List Char :=
  match cs with
  | [] => []
  | c :: rest =>
    if old ≠ [] ∧ old.isPrefixOf (c :: rest) then
      new ++ replaceAll old new (rest.drop (old.length - 1))
    else c :: replaceAll old new rest
termination_by cs.length
decreasing_by
  · simp only [List.length_drop, List.length_cons]
    omega
  · exact Nat.lt_succ_self _

/-- An argument with a value for one placeholder. -/
def fill (name value argument : String) : String :=
  String.ofList (replaceAll ("\x7b" ++ name ++ "\x7d").toList value.toList argument.toList)

/-- The arguments of one invocation. -/
def arguments (c : Command) (input output : Path) (entryPoint : String) (stage : Stage) :
    List String :=
  c.template.map fun argument =>
    fill "profile" stage.profile
      (fill "entry" entryPoint (fill "output" output.text (fill "input" input.text argument)))

/-- The common part of the names of the files for a request. -/
def stem (r : Request) : String :=
  let bytes := Bytes.ofText r.stage.profile ++ Bytes.ofText r.entryPoint ++ Bytes.ofText r.source
  String.ofList ((Digest.ofBytes bytes).hex.toList.take 16)

/-- The file that holds the source of a request. -/
def inputPath (c : Command) (r : Request) : Path := c.workDir.join ⟨stem r ++ ".hlsl"⟩

/-- The file that the bytecode for a request is written to. -/
def outputPath (c : Command) (r : Request) : Path := c.workDir.join ⟨stem r ++ ".bin"⟩

/-- What the backend says when it could not do something with a file. -/
def refusal (action : String) (p : Path) (fault : FileFault) : String :=
  "cannot " ++ action ++ " " ++ p.text ++ ": " ++ fault.message

/-- The text for a program that failed: what it wrote as errors, or else its output. -/
def complaint (e : Ended) : String :=
  let errors := Bytes.lossyText e.errors
  if errors.toList.all Text.isBlank then Bytes.lossyText e.output else errors

/-- Run the program for a request. The files of the request are left behind. -/
def run (launch : Launcher) (c : Command) (r : Request) (fs : FileSystem) :
    Except String Bytes × FileSystem :=
  match fs.createDirectories c.workDir with
  | (.error fault, fs) => (.error (refusal "create" c.workDir fault), fs)
  | (.ok _, fs) =>
    match fs.write (c.inputPath r) (Bytes.ofText r.source) with
    | .error fault => (.error (refusal "write" (c.inputPath r) fault), fs)
    | .ok fs =>
      let arguments := c.arguments (c.inputPath r) (c.outputPath r) r.entryPoint r.stage
      match launch c.program arguments fs with
      | (.error fault, fs) => (.error (refusal "run" c.program fault), fs)
      | (.ok ended, fs) =>
        if ended.success then ((fs.read (c.outputPath r)).mapError (refusal "read" (c.outputPath r)), fs)
        else (.error (complaint ended), fs)

/-- Remove a file that may be missing. -/
def cleanUp {σ : Type} (p : Path) (s : Session σ) : Session σ :=
  match s.files.removeFile p with
  | .ok files => { s with files }
  | .error .notFound => s
  | .error fault => s.warn [.notRemoved p fault]

/-- The backend that runs a program. -/
def backend {σ : Type} (launch : Launcher) (c : Command) : Backend σ where
  id := c.id
  compile r s :=
    let (result, files) := run launch c r s.files
    (result, cleanUp (c.outputPath r) (cleanUp (c.inputPath r) { s with files }))

end Command

end ShaderBuild
