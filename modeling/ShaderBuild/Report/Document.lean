import ShaderBuild.Error
import ShaderBuild.Json.Read
import ShaderBuild.Report
/-!
# Reports as documents

A report is stored as JSON. A field without a value is left out, except that a function without a
return type has a null there; reading understands both. That is what the JSON library documents for
optional fields: one that may be skipped is skipped if it has no value, any other one is written as
null, and for all of them a missing field and a null are read as no value. The fields come in the order
in which the records have them.
-/

namespace ShaderBuild

/-- The fields of a record that have a value. -/
def presentFields (fields : List (String × Option Json)) : Json :=
  .object (fields.filterMap fun (name, value) => value.map fun v => (Json.escape name.toList, v))

/-- The largest size that a document may give. -/
def maxSize : Nat := 0xFFFFFFFFFFFFFFFF

/-- The largest array size that a document may give. -/
def maxElements : Nat := 0xFFFFFFFF

namespace MemberReport

/-- The names of the fields of a member. -/
def fieldNames : List String := ["name", "type", "semantic", "array_size", "size"]

/-- A member as JSON. -/
def toJson (m : MemberReport) : Json :=
  presentFields [("name", some (.ofText m.name)), ("type", some (.ofText m.typeName)),
    ("semantic", m.semantic.map .ofText), ("array_size", some (.ofNat m.arraySize)),
    ("size", some (.ofNat m.size))]

/-- The member that a JSON value holds. -/
def ofJson? (v : Json) : Option MemberReport := do
  match ← v.record? fieldNames with
  | [name, type, semantic, arraySize, size] =>
    return {
      name := ← (← name).text?
      typeName := ← (← type).text?
      semantic := ← Json.optional? Json.text? semantic
      arraySize := ← (← arraySize).natural? maxElements
      size := ← (← size).natural? maxSize }
  | _ => none

end MemberReport

namespace StructReport

/-- The names of the fields of a struct. -/
def fieldNames : List String := ["name", "size", "members"]

/-- A struct as JSON. -/
def toJson (s : StructReport) : Json :=
  presentFields [("name", some (.ofText s.name)), ("size", some (.ofNat s.size)),
    ("members", some (.array (s.members.map MemberReport.toJson)))]

/-- The struct that a JSON value holds. -/
def ofJson? (v : Json) : Option StructReport := do
  match ← v.record? fieldNames with
  | [name, size, members] =>
    return {
      name := ← (← name).text?
      size := ← (← size).natural? maxSize
      members := ← (← members).listOf? MemberReport.ofJson? }
  | _ => none

end StructReport

namespace ConstantBufferReport

/-- The names of the fields of a constant buffer. -/
def fieldNames : List String := ["name", "register", "size", "members"]

/-- A constant buffer as JSON. -/
def toJson (b : ConstantBufferReport) : Json :=
  presentFields [("name", some (.ofText b.name)), ("register", b.register.map .ofText),
    ("size", some (.ofNat b.size)), ("members", some (.array (b.members.map MemberReport.toJson)))]

/-- The constant buffer that a JSON value holds. -/
def ofJson? (v : Json) : Option ConstantBufferReport := do
  match ← v.record? fieldNames with
  | [name, register, size, members] =>
    return {
      name := ← (← name).text?
      register := ← Json.optional? Json.text? register
      size := ← (← size).natural? maxSize
      members := ← (← members).listOf? MemberReport.ofJson? }
  | _ => none

end ConstantBufferReport

namespace ResourceReport

/-- The names of the fields of a resource. -/
def fieldNames : List String := ["name", "kind", "element_type", "array_size", "register"]

/-- A resource as JSON. -/
def toJson (r : ResourceReport) : Json :=
  presentFields [("name", some (.ofText r.name)), ("kind", some (.ofText r.kind)),
    ("element_type", r.elementType.map .ofText), ("array_size", some (.ofNat r.arraySize)),
    ("register", r.register.map .ofText)]

/-- The resource that a JSON value holds. -/
def ofJson? (v : Json) : Option ResourceReport := do
  match ← v.record? fieldNames with
  | [name, kind, elementType, arraySize, register] =>
    return {
      name := ← (← name).text?
      kind := ← (← kind).text?
      elementType := ← Json.optional? Json.text? elementType
      arraySize := ← (← arraySize).natural? maxElements
      register := ← Json.optional? Json.text? register }
  | _ => none

end ResourceReport

namespace FunctionReport

/-- The names of the fields of a function. -/
def fieldNames : List String := ["name", "return_type", "return_semantic", "parameters"]

/-- A function as JSON. -/
def toJson (f : FunctionReport) : Json :=
  presentFields [("name", some (.ofText f.name)),
    ("return_type", some ((f.returnType.map .ofText).getD .null)),
    ("return_semantic", f.returnSemantic.map .ofText),
    ("parameters", some (.array (f.parameters.map MemberReport.toJson)))]

/-- The function that a JSON value holds. -/
def ofJson? (v : Json) : Option FunctionReport := do
  match ← v.record? fieldNames with
  | [name, returnType, returnSemantic, parameters] =>
    return {
      name := ← (← name).text?
      returnType := ← Json.optional? Json.text? returnType
      returnSemantic := ← Json.optional? Json.text? returnSemantic
      parameters := ← (← parameters).listOf? MemberReport.ofJson? }
  | _ => none

end FunctionReport

namespace Report

/-- The names of the fields of a report. -/
def fieldNames : List String := ["structs", "constant_buffers", "resources", "functions"]

/-- A report as JSON. -/
def toJson (r : Report) : Json :=
  presentFields [("structs", some (.array (r.structs.map StructReport.toJson))),
    ("constant_buffers", some (.array (r.constantBuffers.map ConstantBufferReport.toJson))),
    ("resources", some (.array (r.resources.map ResourceReport.toJson))),
    ("functions", some (.array (r.functions.map FunctionReport.toJson)))]

/-- The report that a JSON value holds. -/
def ofJson? (v : Json) : Option Report := do
  match ← v.record? fieldNames with
  | [structs, constantBuffers, resources, functions] =>
    return {
      structs := ← (← structs).listOf? StructReport.ofJson?
      constantBuffers := ← (← constantBuffers).listOf? ConstantBufferReport.ofJson?
      resources := ← (← resources).listOf? ResourceReport.ofJson?
      functions := ← (← functions).listOf? FunctionReport.ofJson? }
  | _ => none

/-- A report as a document, laid out to be read. -/
def print (r : Report) : String := String.ofList (r.toJson.pretty 0)

/-- The report that a document holds. -/
def read (document : String) : Except Error Report :=
  match (Json.read? document.toList).bind ofJson? with
  | some r => .ok r
  | none => .error .document

end Report

end ShaderBuild
