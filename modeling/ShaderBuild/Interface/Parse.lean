import ShaderBuild.Interface.Declaration
/-!
# Reading an interface

The declarations of a source text are read one after the other and added to an interface. The first
error ends the reading.
-/

namespace ShaderBuild.Interface

open Token

/-- The error for the first member whose type is unknown. -/
def unresolvedError (types : TypeTable) (line : UInt32) (specs : List MemberSpec) : Error :=
  match types.unresolved? specs with
  | some spec => .declaration line (.unknownMemberType spec.typeName spec.name)
  | none => .declaration line .invalidStruct

/-- Add a declaration. A struct must have a new name, and the types of members must be known. -/
def add (i : Interface) : Declaration → Except Error (Interface × List Warning)
  | .struct line name specs =>
    if i.types.contains name then .error (.declaration line (.redefinition name))
    else
      match i.types.define ⟨name, specs⟩ with
      | (some _, types) => .ok ({ i with types }, [])
      | (none, _) => .error (unresolvedError i.types line specs)
  | .constants line name register specs =>
    match i.types.resolveAll? specs with
    | some members =>
      .ok (i.addConstantBuffer ⟨name, register, members, i.types.membersSize members, line⟩)
    | none => .error (unresolvedError i.types line specs)
  | .resource r => .ok (i.addResource r)
  | .function f => .ok (i.addFunction f)
  | .other => .ok (i, [])

/-- Add all declarations of a token stream. -/
def extend (i : Interface) (s : Stream) : Logged Interface :=
  match _hs : s.tokens with
  | [] => ⟨.ok i, []⟩
  | first :: rest =>
    match _hd : Declaration.startingWith i.types first { s with tokens := rest } with
    | .error e => ⟨.error e, []⟩
    | .ok (declaration, s') =>
      match i.add declaration with
      | .error e => ⟨.error e, []⟩
      | .ok (i', warnings) =>
        let remaining := extend i' s'
        ⟨remaining.result, warnings ++ remaining.warnings⟩
termination_by s.size
decreasing_by
  have h := Declaration.forward_startingWith _ _ _ _ _ _hd
  simp only [Stream.size, _hs, List.length_cons] at h ⊢
  omega

/-- The interface that a source text declares. -/
def parse (source : String) : Logged Interface := empty.extend (Stream.ofSource source)

end ShaderBuild.Interface
