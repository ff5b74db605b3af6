import ShaderBuild.Macro
import ShaderBuild.Path
/-!
# Stages and shader units

A shader unit has up to one source for each of the five pipeline stages. A stage without a source
file is absent.
-/

namespace ShaderBuild

/-- The role of an entry point in the pipeline. -/
inductive Stage where
  | vertex
  /-- Tessellation control. -/
  | hull
  /-- Tessellation evaluation. -/
  | domain
  | geometry
  | pixel
  deriving DecidableEq, Repr, Inhabited

namespace Stage

/-- The stages in pipeline order. -/
def all : List Stage := [vertex, hull, domain, geometry, pixel]

/-- The position of a stage in the pipeline. -/
def index : Stage → Nat
  | vertex => 0
  | hull => 1
  | domain => 2
  | geometry => 3
  | pixel => 4

/-- The name of a stage. -/
def name : Stage → String
  | vertex => "vertex"
  | hull => "hull"
  | domain => "domain"
  | geometry => "geometry"
  | pixel => "pixel"

/-- The stage of a name; the tessellation stages have a second name each. -/
def ofName? (name : String) : Option Stage :=
  if name = "vertex" then some vertex
  else if name = "hull" ∨ name = "tess_control" then some hull
  else if name = "domain" ∨ name = "tess_eval" then some domain
  else if name = "geometry" then some geometry
  else if name = "pixel" then some pixel
  else none

/-- The target profile of shader model 5. -/
def profile : Stage → String
  | vertex => "vs_5_0"
  | hull => "hs_5_0"
  | domain => "ds_5_0"
  | geometry => "gs_5_0"
  | pixel => "ps_5_0"

theorem mem_all (s : Stage) : s ∈ all := by cases s <;> decide

end Stage

/-- A set of stages, with a bit for each. -/
structure StageFlags where
  bits : UInt8
  deriving DecidableEq, Repr

/-- The set of one stage. -/
def Stage.flag (s : Stage) : StageFlags := ⟨1 <<< UInt8.ofNat s.index⟩

namespace StageFlags

def empty : StageFlags := ⟨0⟩

instance : OrOp StageFlags := ⟨fun f g => ⟨f.bits ||| g.bits⟩⟩

/-- Is a stage in the set? -/
def contains (f : StageFlags) (s : Stage) : Bool := f.bits &&& s.flag.bits == s.flag.bits

/-- Is there nothing in the set? -/
def isEmpty (f : StageFlags) : Bool := f.bits == 0

end StageFlags

/-- A value for every stage. -/
structure PerStage (α : Type) where
  vertex : α
  hull : α
  domain : α
  geometry : α
  pixel : α
  deriving DecidableEq, Repr, Inhabited

namespace PerStage

variable {α : Type}

/-- The same value for every stage. -/
def replicate (a : α) : PerStage α := ⟨a, a, a, a, a⟩

/-- The value that a function gives to each stage. -/
def ofFn (f : Stage → α) : PerStage α := ⟨f .vertex, f .hull, f .domain, f .geometry, f .pixel⟩

/-- The value of a stage. -/
def get (p : PerStage α) : Stage → α
  | .vertex => p.vertex
  | .hull => p.hull
  | .domain => p.domain
  | .geometry => p.geometry
  | .pixel => p.pixel

/-- Change the value of one stage. -/
def set (p : PerStage α) (s : Stage) (a : α) : PerStage α :=
  match s with
  | .vertex => { p with vertex := a }
  | .hull => { p with hull := a }
  | .domain => { p with domain := a }
  | .geometry => { p with geometry := a }
  | .pixel => { p with pixel := a }

/-- The values in pipeline order, each with its stage. -/
def toList (p : PerStage α) : List (Stage × α) := Stage.all.map fun s => (s, p.get s)

@[simp] theorem get_replicate (a : α) (s : Stage) : (replicate a).get s = a := by cases s <;> rfl

@[simp] theorem get_ofFn (f : Stage → α) (s : Stage) : (ofFn f).get s = f s := by cases s <;> rfl

theorem fst_toList (p : PerStage α) : p.toList.map Prod.fst = Stage.all := rfl

theorem get_set (p : PerStage α) (s t : Stage) (a : α) :
    (p.set s a).get t = if t = s then a else p.get t := by
  cases s <;> cases t <;> rfl

end PerStage

/-- The source of one stage. -/
structure StageSource where
  /-- The source file, seen from the source directory. -/
  file : Path := ⟨""⟩
  entryPoint : String := ""
  macros : List Macro := []
  deriving DecidableEq, Repr, Inhabited

/-- Is the stage absent? -/
def StageSource.isAbsent (s : StageSource) : Bool := s.file.text == ""

/-- The sources of the stages of a shader. -/
abbrev ShaderUnit := PerStage StageSource

/-- A unit without stages. -/
def ShaderUnit.empty : ShaderUnit := PerStage.replicate {}

/-- The stages that a unit has, in pipeline order. -/
def ShaderUnit.present (u : ShaderUnit) : List (Stage × StageSource) :=
  u.toList.filter (!·.2.isAbsent)

end ShaderBuild
