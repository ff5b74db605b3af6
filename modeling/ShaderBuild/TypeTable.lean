/-!
# The types of a shader

A type table lists the types that a source text can refer to: the primitive ones, then its structs in the order of
their definitions. A type is known by its position, its `TypeId`. An index has the position of each type under its
name, so that the table is not searched for a name. Members refer to types that are already in the table, so no struct
contains itself.

Positions and numbers of elements have 32 bits and sizes have 64. Positions are cut to their lowest bits, and sizes
wrap around as they do in a program that is built without checks for overflow.
-/

namespace ShaderBuild

/-- The position of a type in its table. -/
abbrev TypeId := UInt32

/-- A member of a struct or constant buffer, or a parameter. -/
structure Member where
  type : TypeId
  name : String
  semantic : Option String := none
  /-- The number of elements, 1 if the member is not an array. -/
  arraySize : UInt32 := 1
  deriving DecidableEq, Repr, Inhabited

/-- A member as it is written, with the name of its type. -/
structure MemberSpec where
  typeName : String
  name : String
  semantic : Option String := none
  arraySize : UInt32 := 1
  deriving DecidableEq, Repr, Inhabited

/-- A struct as it is written, with the names of the types of its members. -/
structure StructSpec where
  name : String
  members : List MemberSpec
  deriving DecidableEq, Repr, Inhabited

/-- A type. Sizes are in bytes. -/
inductive ShaderType where
  | basic (name : String) (size : UInt64)
  /-- A struct; its size is that of its members together. -/
  | composite (name : String) (members : List Member) (size : UInt64)
  deriving DecidableEq, Repr, Inhabited

namespace ShaderType

/-- The name of a type. -/
def name : ShaderType → String
  | basic name _ => name
  | composite name _ _ => name

/-- The size of a type. -/
def size : ShaderType → UInt64
  | basic _ size => size
  | composite _ _ size => size

/-- The members of a type; a basic type has none. -/
def members : ShaderType → List Member
  | basic _ _ => []
  | composite _ members _ => members

/-- Is this a struct? -/
def isComposite : ShaderType → Bool
  | basic _ _ => false
  | composite _ _ _ => true

end ShaderType

/-- The types that can be referred to, with an index of their names. -/
structure TypeTable where
  types : List ShaderType := []
  /-- The names with the positions of their types, the last one entered first. -/
  index : List (String × TypeId) := []
  deriving DecidableEq, Repr, Inhabited

namespace TypeTable

/-- The number of types. -/
def size (t : TypeTable) : Nat := t.types.length

/-- Is there no type at all? -/
def isEmpty (t : TypeTable) : Bool := t.types.isEmpty

/-- The type at a position. -/
def get? (t : TypeTable) (id : TypeId) : Option ShaderType := t.types[id.toNat]?

/-- The position that is entered under a name. -/
def idOf? (t : TypeTable) (name : String) : Option TypeId := t.index.lookup name

/-- Is a name entered? -/
def contains (t : TypeTable) (name : String) : Bool := (t.idOf? name).isSome

/-- The type of some name. -/
def lookup? (t : TypeTable) (name : String) : Option ShaderType := (t.idOf? name).bind t.get?

/-- The name of the type at a position. -/
def nameOf (t : TypeTable) (id : TypeId) : String := ((t.get? id).map ShaderType.name).getD ""

/-- The size of the type at a position. -/
def sizeOf (t : TypeTable) (id : TypeId) : UInt64 := ((t.get? id).map ShaderType.size).getD 0

/-- The structs, each with its position, in the order of their definitions. -/
def composites (t : TypeTable) : List (TypeId × ShaderType) :=
  (t.types.zipIdx.filter (·.1.isComposite)).map fun (type, i) => (.ofNat i, type)

/-- A member with the type that its type name stands for. -/
def resolve? (t : TypeTable) (spec : MemberSpec) : Option Member :=
  (t.idOf? spec.typeName).map fun id => ⟨id, spec.name, spec.semantic, spec.arraySize⟩

/-- Members with the types that their type names stand for. -/
def resolveAll? (t : TypeTable) (specs : List MemberSpec) : Option (List Member) :=
  specs.mapM t.resolve?

/-- The first member whose type is not in the table. -/
def unresolved? (t : TypeTable) (specs : List MemberSpec) : Option MemberSpec :=
  specs.find? fun spec => !t.contains spec.typeName

/-- The size of a member, all elements together. -/
def memberSize (t : TypeTable) (m : Member) : UInt64 := t.sizeOf m.type * m.arraySize.toUInt64

/-- The size of some members together. -/
def membersSize (t : TypeTable) (members : List Member) : UInt64 :=
  members.foldr (fun m size => t.memberSize m + size) 0

/-- Add a type at the end of the table, and enter its name. -/
def insert (t : TypeTable) (type : ShaderType) : TypeId × TypeTable :=
  let id := .ofNat t.size
  (id, ⟨t.types ++ [type], (type.name, id) :: t.index⟩)

/-- Define a struct. It gets a position if its name is new and the types of its members are known. -/
def define (t : TypeTable) (d : StructSpec) : Option TypeId × TypeTable :=
  if t.contains d.name then (none, t)
  else
    match t.resolveAll? d.members with
    | none => (none, t)
    | some members =>
      let (id, t) := t.insert (.composite d.name members (t.membersSize members))
      (some id, t)

/-! ## The primitive types -/

/-- The types that need no definition, with their sizes. -/
def primitives : List (String × UInt64) :=
  [("int", 4), ("int2", 8), ("int3", 12), ("int4", 16),
    ("uint", 4), ("uint2", 8), ("uint3", 12), ("uint4", 16),
    ("float", 4), ("scalar", 4), ("bool", 4), ("double", 8),
    ("float2", 8), ("float3", 12), ("float4", 16), ("vector", 16),
    ("double2", 16), ("double3", 24), ("double4", 32),
    ("float2x2", 16), ("float3x3", 32), ("float4x4", 64), ("matrix", 64)]

/-- A table with some primitive types more, which are given with their sizes. -/
def withPrimitives (t : TypeTable) (primitives : List (String × UInt64)) : TypeTable :=
  primitives.foldl (fun t (name, size) => (t.insert (.basic name size)).2) t

/-- The table of the primitive types. -/
def primitive : TypeTable := withPrimitives {} primitives

end TypeTable

end ShaderBuild
