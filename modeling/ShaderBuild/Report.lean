import ShaderBuild.Interface
/-!
# Reports

A report is an interface on its own: types are given by their names, and sizes are worked out.
-/

namespace ShaderBuild

/-- A member of a struct or constant buffer, or a parameter. -/
structure MemberReport where
  name : String
  typeName : String
  semantic : Option String
  arraySize : Nat
  /-- The size of all elements together. -/
  size : Nat
  deriving DecidableEq, Repr

/-- A struct. -/
structure StructReport where
  name : String
  size : Nat
  members : List MemberReport
  deriving DecidableEq, Repr

/-- A constant buffer. -/
structure ConstantBufferReport where
  name : String
  register : Option String
  size : Nat
  members : List MemberReport
  deriving DecidableEq, Repr

/-- A resource. -/
structure ResourceReport where
  name : String
  kind : String
  elementType : Option String
  arraySize : Nat
  register : Option String
  deriving DecidableEq, Repr

/-- A function. -/
structure FunctionReport where
  name : String
  returnType : Option String
  returnSemantic : Option String
  parameters : List MemberReport
  deriving DecidableEq, Repr

/-- What a source text declares, by names. -/
structure Report where
  structs : List StructReport
  constantBuffers : List ConstantBufferReport
  resources : List ResourceReport
  functions : List FunctionReport
  deriving DecidableEq, Repr

/-- The report of a member. -/
def MemberReport.ofMember (types : TypeTable) (m : Member) : MemberReport :=
  ⟨m.name, types.nameOf m.type, m.semantic, m.arraySize.toNat, (types.memberSize m).toNat⟩

/-- The report of a struct. -/
def StructReport.ofType (types : TypeTable) (type : ShaderType) : StructReport :=
  ⟨type.name, type.size.toNat, type.members.map (.ofMember types)⟩

/-- The report of a constant buffer. -/
def ConstantBufferReport.ofBuffer (types : TypeTable) (b : ConstantBuffer) : ConstantBufferReport :=
  ⟨b.name, b.register.map Register.text, b.size.toNat, b.members.map (.ofMember types)⟩

/-- The report of a resource. -/
def ResourceReport.ofResource (r : Resource) : ResourceReport :=
  ⟨r.name, r.kind.keyword, r.elementType, r.arraySize.toNat, r.register.map Register.text⟩

/-- The report of a function. -/
def FunctionReport.ofFunction (types : TypeTable) (f : Function) : FunctionReport :=
  ⟨f.name, f.returnType.map types.nameOf, f.returnSemantic, f.parameters.map (.ofMember types)⟩

namespace Report

/-- The report of an interface. -/
def ofInterface (i : Interface) : Report where
  structs := i.types.composites.map fun (_, type) => .ofType i.types type
  constantBuffers := i.constantBuffers.map (.ofBuffer i.types)
  resources := i.resources.map .ofResource
  functions := i.functions.map (.ofFunction i.types)

/-- The function of some name. -/
def function? (r : Report) (name : String) : Option FunctionReport :=
  r.functions.find? (·.name == name)

end Report

end ShaderBuild
