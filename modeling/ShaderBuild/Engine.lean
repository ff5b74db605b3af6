import ShaderBuild.Backend
import ShaderBuild.Cache
import ShaderBuild.Header
import ShaderBuild.Interface.Parse
import ShaderBuild.Preprocess
import ShaderBuild.Report.Document
import ShaderBuild.Settings
/-!
# Building shaders

An engine compiles the stages of a shader one after the other. A stage is flattened and its digest
looked up in the cache; only if there is no bytecode yet, the backend runs. A stage that fails does
not keep the others from being compiled, and the object file is written in any case.
-/

namespace ShaderBuild

/-- A stage that has bytecode. -/
structure CompiledStage where
  digest : Digest
  /-- The bytecode was there already. -/
  cacheHit : Bool
  cachePath : Path
  /-- The files that were read. -/
  dependencies : List Location
  deriving DecidableEq

/-- What became of a stage. -/
inductive StageOutcome where
  /-- The shader has no such stage. -/
  | skipped
  | compiled (stage : CompiledStage)
  | failed (error : Error)
  deriving DecidableEq

namespace StageOutcome

instance : Inhabited StageOutcome := ⟨skipped⟩

/-- Did the stage fail? -/
def isFailed : StageOutcome → Bool
  | failed _ => true
  | _ => false

/-- The error of a stage that failed. -/
def error? : StageOutcome → Option Error
  | failed error => some error
  | _ => none

end StageOutcome

/-- What the stages of a shader have come to so far. -/
structure Tally where
  /-- The digests of the stages that were compiled. -/
  header : Header := {}
  /-- The stages that failed. -/
  failed : StageFlags := .empty
  outcomes : PerStage StageOutcome := .replicate .skipped

/-- Fill in what became of a stage. -/
def Tally.add (t : Tally) (stage : Stage) (outcome : StageOutcome) : Tally :=
  let outcomes := t.outcomes.set stage outcome
  match outcome with
  | .skipped => { t with outcomes }
  | .compiled compiled => { t with header := t.header.set stage compiled.digest, outcomes }
  | .failed _ => { t with failed := t.failed ||| stage.flag, outcomes }

/-- What became of a shader. -/
structure CompileReport extends Tally where
  name : String
  objectPath : Path

namespace CompileReport

/-- The stages that failed, in pipeline order, and their errors. -/
def failures (r : CompileReport) : List (Stage × Error) :=
  r.outcomes.toList.filterMap fun (stage, outcome) => outcome.error?.map fun error => (stage, error)

/-- Did no stage fail? -/
def isSuccess (r : CompileReport) : Bool := r.failed.isEmpty

end CompileReport

namespace Build

variable {σ α : Type}

/-- Change files. -/
def change (f : FileSystem → Except Error α × FileSystem) : Build σ α := fun s =>
  let (result, files) := f s.files
  (result, { s with files })

/-- The result of a computation that reports something. -/
def report (l : Logged α) : Build σ α := fun s =>
  (l.result, s.warn l.warnings)

/-- Try a computation. -/
def attempt (b : Build σ α) : StateM (Session σ) (Except Error α) := b

end Build

/-- A way to build shaders. -/
structure Engine (σ : Type) where
  settings : Settings
  backend : Backend σ

namespace Engine

variable {σ : Type}

/-- The cache of the backend. -/
def cache (e : Engine σ) : Cache := ⟨e.settings.cacheDir e.backend.id⟩

/-- How sources are flattened. -/
def preprocessor (e : Engine σ) : Preprocessor :=
  ⟨[e.settings.sourceDir], e.settings.stripComments⟩

/-- Flatten the source of a stage. -/
def flatten (e : Engine σ) (fs : FileSystem) (source : StageSource) : Logged Flattened :=
  let path := e.settings.sourceDir.join source.file
  if fs.isFile path then e.preprocessor.processFile fs path source.macros
  else ⟨.error (.fileNotFound path), []⟩

/-- Flatten the source of a stage, within a build. -/
def preprocessStage (e : Engine σ) (source : StageSource) : Build σ Flattened := do
  Build.report (e.flatten (← get).files source)

/-- The bytecode of a request from the backend. -/
def runBackend (e : Engine σ) (r : Request) : Build σ Bytes := fun s =>
  let (result, s) := e.backend.compile r s
  (result.mapError (.backend r.stage r.entryPoint), s)

/-- Compile a stage, unless its bytecode is in the cache. -/
def compileStage (e : Engine σ) (stage : Stage) (source : StageSource) :
    Build σ CompiledStage := do
  let flattened ← e.preprocessStage source
  let digest := Digest.ofSource source.entryPoint flattened.text
  if e.cache.contains (← get).files digest then
    return ⟨digest, true, e.cache.path digest, flattened.dependencies⟩
  else
    let bytecode ← e.runBackend ⟨flattened.text, source.entryPoint, stage⟩
    let path ← Build.change fun fs => e.cache.store fs digest bytecode
    return ⟨digest, false, path, flattened.dependencies⟩

/-- What becomes of a stage of a shader. If it fails, that is logged. -/
def stageOutcome (e : Engine σ) (name : String) (unit : ShaderUnit) (stage : Stage) :
    StateM (Session σ) StageOutcome := do
  let source := unit.get stage
  if source.isAbsent then return .skipped
  else
    match ← Build.attempt (e.compileStage stage source) with
    | .ok compiled => return .compiled compiled
    | .error error =>
      modify (·.note [.stageFailed name stage error])
      return .failed error

/-- Try a stage of a shader, and fill in what became of it. -/
def tryStage (e : Engine σ) (name : String) (unit : ShaderUnit) (tally : Tally) (stage : Stage) :
    StateM (Session σ) Tally := do
  return tally.add stage (← e.stageOutcome name unit stage)

/-- Try all stages of a shader, one after the other. -/
def tryStages (e : Engine σ) (name : String) (unit : ShaderUnit) : StateM (Session σ) Tally :=
  Stage.all.foldlM (e.tryStage name unit) {}

/-- Compile a shader and write its object file. It fails only if that file cannot be written. -/
def compileShader (e : Engine σ) (name : String) (unit : ShaderUnit) : Build σ CompileReport := do
  let tally ← (e.tryStages name unit : StateM (Session σ) _)
  let path := e.settings.objectPath name
  Build.change fun fs => tally.header.write fs path
  return { tally with name, objectPath := path }

/-- Write a report. -/
def writeReport (fs : FileSystem) (p : Path) (r : Report) : Except Error Unit × FileSystem :=
  match fs.write p (Bytes.ofText r.print) with
  | .ok fs => (.ok (), fs)
  | .error fault => (.error (.cacheWrite p fault), fs)

end Engine

end ShaderBuild
