import ShaderBuild.CommandLine
import ShaderBuild.Engine
import ShaderBuild.Manifest
/-!
# Running a build

The shaders of a manifest are compiled in order. A stage that fails is reported and counted; what
ends the run is only a settings document, a manifest or an object file that cannot be used.

The log goes where the errors go. What a record looks like there, and whether it is shown at all, is up
to the logger, which is a parameter: it is told how to do this when the program is started.
-/

namespace ShaderBuild.CommandLine

/-- What is shown of a record in the log. The number says how many records there were before. -/
abbrev Logger := Nat → Record → String

/-- The logger that is used if nothing else is asked for: a line for each error. What it has in front of the message,
such as the time, is left out. -/
def Logger.usual : Logger := fun _ r => if r.isError then r.message ++ "\n" else ""

/-- Something that goes where the errors go. -/
inductive Notice where
  /-- A line that the run prints. -/
  | line (text : String)
  | record (record : Record)
  deriving DecidableEq, Repr

/-- Notices as a text, after some records. -/
def Logger.text (logger : Logger) (before : Nat) : List Notice → String
  | [] => ""
  | .line text :: rest => text ++ "\n" ++ logger.text before rest
  | .record r :: rest => logger before r ++ logger.text (before + 1) rest

/-- What a run works on: the files, what it has printed, and how often something failed. -/
structure Console where
  files : FileSystem
  output : String := ""
  errors : List Notice := []
  failures : Nat := 0

/-- A session in which nothing was logged yet. -/
def session (fs : FileSystem) : Session Unit := ⟨fs, (), []⟩

@[simp] theorem files_session (fs : FileSystem) : (session fs).files = fs := rfl

@[simp] theorem log_session (fs : FileSystem) : (session fs).log = [] := rfl

/-- A computation of a run. The text of its error ends the run. -/
abbrev Job := ExceptT String (StateM Console)

namespace Job

/-- Print a line. -/
def say (line : String) : Job Unit :=
  modify fun c => { c with output := c.output ++ line ++ "\n" }

/-- Print a line about a failure, and count it. -/
def complain (line : String) : Job Unit :=
  modify fun c => { c with errors := c.errors ++ [.line line], failures := c.failures + 1 }

/-- Do a part of the build. What it logs is shown. -/
def perform {α : Type} (b : Build Unit α) : Job (Except Error α) := fun c =>
  let (result, s) := b (session c.files)
  (.ok result, { c with files := s.files, errors := c.errors ++ s.log.map .record })

/-- The value of a result; an error ends the run, after a text that says what was being done. -/
def orStop {α : Type} (doing : String) : Except Error α → Job α
  | .ok a => pure a
  | .error e => throw (doing ++ ": " ++ e.fullMessage)

end Job

open Job

/-- The settings of a run. -/
def loadSettings (o : Options) (fs : FileSystem) : Except Error Settings := do
  let s ← o.config.elim (.ok {}) (Settings.load fs)
  let s := { s with sourceDir := o.source.getD s.sourceDir, outputDir := o.output.getD s.outputDir }
  return if o.keepComments then { s with stripComments := false } else s

/-- The compiler of a run. -/
def command (o : Options) (s : Settings) : Command where
  id := o.backendId
  program := o.compiler
  template := if o.compilerArgs = [] then Command.usualTemplate else o.compilerArgs
  workDir := s.outputDir.join ⟨"tmp"⟩

/-- The name of a stage of a shader. -/
def stageName (shader : String) (stage : Stage) : String := shader ++ "." ++ stage.name

/-- The report file of a stage. -/
def reportPath (s : Settings) (shader : String) (stage : Stage) : Path :=
  s.outputDir.join ⟨stageName shader stage ++ ".json"⟩

/-- Write the report of a stage. An error comes as the text to show. -/
def reflect (e : Engine Unit) (shader : String) (stage : Stage) (source : StageSource) :
    Job (Except String Unit) := do
  match ← perform (e.preprocessStage source) with
  | .error error => return .error error.fullMessage
  | .ok flattened =>
    match ← perform (Build.report (Interface.parse flattened.text)) with
    | .error error => return .error ("parsing " ++ source.file.text ++ ": " ++ error.fullMessage)
    | .ok i =>
      let path := reportPath e.settings shader stage
      let written ← perform (Build.change fun fs => Engine.writeReport fs path (.ofInterface i))
      return written.mapError Error.fullMessage

/-- Print what became of a stage. -/
def showStage (o : Options) (e : Engine Unit) (entry : ManifestEntry) (stage : Stage)
    (outcome : StageOutcome) : Job Unit := do
  let name := stageName entry.name stage
  match outcome with
  | .skipped => return
  | .failed error => complain (name ++ ": " ++ error.message)
  | .compiled compiled =>
    let state := if compiled.cacheHit then "cached" else "compiled"
    say (name ++ ": " ++ state ++ " " ++ compiled.digest.hex)
    if o.reflect then
      match ← reflect e entry.name stage (entry.unit.get stage) with
      | .ok _ => return
      | .error text => complain (name ++ ": reflection failed: " ++ text)

/-- Compile a shader, and print what became of it. -/
def buildShader (o : Options) (e : Engine Unit) (entry : ManifestEntry) : Job Unit := do
  let result ← perform (e.compileShader entry.name entry.unit)
  let report ← orStop ("compiling shader " ++ quote entry.name) result
  report.outcomes.toList.forM fun (stage, outcome) => showStage o e entry stage outcome
  say (entry.name ++ " -> " ++ report.objectPath.text)

/-- Compile all shaders of the manifest. -/
def build (launch : Launcher) (o : Options) : Job Unit := do
  let files := (← get).files
  let doing := "loading settings from " ++ (o.config.elim "" Path.text)
  let settings ← orStop doing (loadSettings o files)
  let manifest ← orStop ("loading manifest " ++ o.manifest.text) (Manifest.load files o.manifest)
  let engine : Engine Unit := ⟨settings, Command.backend launch (command o settings)⟩
  manifest.entries.forM (buildShader o engine)

/-- What a run came to. -/
structure Ran where
  status : Nat
  output : String
  errors : String
  files : FileSystem

/-- Run a build. -/
def run (launch : Launcher) (logger : Logger) (o : Options) (fs : FileSystem) : Ran :=
  let (result, c) := (build launch o).run { files := fs }
  let ended (status : Nat) (last : List String) : Ran :=
    ⟨status, c.output, logger.text 0 (c.errors ++ last.map .line), c.files⟩
  match result with
  | .error text => ended 1 ["error: " ++ text]
  | .ok _ =>
    if c.failures = 0 then ended 0 []
    else ended 1 [c.failures.repr ++ " stage(s) failed"]

/-- Run a command line. -/
def runArgs (launch : Launcher) (logger : Logger) (args : List String) (fs : FileSystem) : Ran :=
  match parse args with
  | .ok o => run launch logger o fs
  | .error .misuse => ⟨2, "", usage, fs⟩
  | .error .help => ⟨0, usage, "", fs⟩
  | .error .version => ⟨0, version, "", fs⟩

end ShaderBuild.CommandLine
