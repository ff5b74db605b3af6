import ShaderBuild.Error
import ShaderBuild.SortedList
import ShaderBuild.TypeTable
/-!
# The interface of a shader

What a source text declares to the outside: structs, constant buffers, resources and functions.
The declarations of a kind are sorted by name, and of several with the same name the first counts.
-/

namespace ShaderBuild

/-- The register that a buffer or resource is bound to. -/
structure Register where
  /-- The letter of the register bank. -/
  bank : Char
  slot : Nat
  deriving DecidableEq, Repr, Inhabited

/-- A register as it is written. -/
def Register.text (r : Register) : String := String.singleton r.bank ++ r.slot.repr

/-- The types whose variables are resources. -/
inductive ResourceKind where
  | texture1D
  | texture2D
  | texture3D
  | textureCube
  | texture1DArray
  | texture2DArray
  | textureCubeArray
  | texture2DMS
  | buffer
  | structuredBuffer
  | rwTexture2D
  | rwBuffer
  | rwStructuredBuffer
  | samplerState
  | samplerComparisonState
  deriving DecidableEq, Repr, Inhabited

namespace ResourceKind

/-- Every kind of resource. -/
def all : List ResourceKind :=
  [texture1D, texture2D, texture3D, textureCube, texture1DArray, texture2DArray, textureCubeArray,
    texture2DMS, buffer, structuredBuffer, rwTexture2D, rwBuffer, rwStructuredBuffer,
    samplerState, samplerComparisonState]

/-- The keyword of a kind. -/
def keyword : ResourceKind → String
  | texture1D => "Texture1D"
  | texture2D => "Texture2D"
  | texture3D => "Texture3D"
  | textureCube => "TextureCube"
  | texture1DArray => "Texture1DArray"
  | texture2DArray => "Texture2DArray"
  | textureCubeArray => "TextureCubeArray"
  | texture2DMS => "Texture2DMS"
  | buffer => "Buffer"
  | structuredBuffer => "StructuredBuffer"
  | rwTexture2D => "RWTexture2D"
  | rwBuffer => "RWBuffer"
  | rwStructuredBuffer => "RWStructuredBuffer"
  | samplerState => "SamplerState"
  | samplerComparisonState => "SamplerComparisonState"

/-- The kind that a word is the keyword of. -/
def ofKeyword? (word : String) : Option ResourceKind := all.find? (·.keyword == word)

/-- Is this a sampler? -/
def isSampler (k : ResourceKind) : Bool := k == samplerState || k == samplerComparisonState

/-- Can a shader write to it? -/
def isReadWrite (k : ResourceKind) : Bool := k == rwTexture2D || k == rwBuffer || k == rwStructuredBuffer

theorem ofKeyword?_keyword (k : ResourceKind) : ofKeyword? k.keyword = some k := by
  cases k <;> decide

end ResourceKind

/-- A constant buffer. -/
structure ConstantBuffer where
  name : String
  register : Option Register := none
  members : List Member
  /-- The size of the members together, in bytes. -/
  size : UInt64
  line : UInt32
  deriving DecidableEq, Repr, Inhabited

/-- A texture, buffer or sampler. -/
structure Resource where
  name : String
  kind : ResourceKind
  /-- The template argument, without spaces. -/
  elementType : Option String := none
  arraySize : UInt32 := 1
  register : Option Register := none
  line : UInt32
  deriving DecidableEq, Repr, Inhabited

/-- A function, which may be the entry point of a stage. -/
structure Function where
  name : String
  /-- Nothing for `void`. -/
  returnType : Option TypeId := none
  returnSemantic : Option String := none
  parameters : List Member
  line : UInt32
  deriving DecidableEq, Repr, Inhabited

/-- What a source text declares. -/
structure Interface where
  types : TypeTable := .primitive
  constantBuffers : List ConstantBuffer := []
  resources : List Resource := []
  functions : List Function := []
  deriving DecidableEq, Repr, Inhabited

namespace Interface

/-- The interface of a text that declares nothing. -/
def empty : Interface := {}

/-- The constant buffer of some name. -/
def constantBuffer? (i : Interface) (name : String) : Option ConstantBuffer :=
  i.constantBuffers.find? (·.name == name)

/-- The resource of some name. -/
def resource? (i : Interface) (name : String) : Option Resource :=
  i.resources.find? (·.name == name)

/-- The function of some name. -/
def function? (i : Interface) (name : String) : Option Function :=
  i.functions.find? (·.name == name)

/-- Add a constant buffer, unless there is one of that name. -/
def addConstantBuffer (i : Interface) (b : ConstantBuffer) : Interface × List Warning :=
  if (i.constantBuffer? b.name).isSome then (i, [.duplicate .constantBuffer b.name])
  else ({ i with constantBuffers :=
    SortedList.insert (fun a b => decide (a.name < b.name)) b i.constantBuffers }, [])

/-- Add a resource, unless there is one of that name. -/
def addResource (i : Interface) (r : Resource) : Interface × List Warning :=
  if (i.resource? r.name).isSome then (i, [.duplicate .resource r.name])
  else ({ i with resources :=
    SortedList.insert (fun a b => decide (a.name < b.name)) r i.resources }, [])

/-- Add a function, unless there is one of that name. -/
def addFunction (i : Interface) (f : Function) : Interface × List Warning :=
  if (i.function? f.name).isSome then (i, [.duplicate .function f.name])
  else ({ i with functions :=
    SortedList.insert (fun a b => decide (a.name < b.name)) f i.functions }, [])

end Interface

end ShaderBuild
