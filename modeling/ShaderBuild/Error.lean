import ShaderBuild.FileSystem.Fault
import ShaderBuild.Stage
import ShaderBuild.Token
/-!
# Errors, warnings and the log

An error says what was wrong as a value; `Error.message` and `Warning.message` are the only places
that put it into words. The log has a record for each warning and for each stage that failed. Records
that only trace what is going on are left out.
-/

namespace ShaderBuild

/-- A text in double quotes. -/
def quote (text : String) : String := "\"" ++ text ++ "\""

/-- What is wrong with a directive line. -/
inductive DirectiveFault where
  | malformedInclude (line : String)
  /-- A directive of that name lacks the name of a macro. -/
  | missingName (directive : String)
  /-- A directive of that name is outside all conditionals. -/
  | unmatched (directive : String)
  deriving DecidableEq, Repr

/-- What is wrong with a directive line, in words. -/
def DirectiveFault.message : DirectiveFault → String
  | malformedInclude line => "malformed include statement " ++ quote line
  | missingName directive => "#" ++ directive ++ " expects a macro name"
  | unmatched directive => "#" ++ directive ++ " without matching #ifdef"

/-- What is wrong with a declaration. -/
inductive DeclarationFault where
  | unexpected (found : Token) (expected : Token.Kind)
  | redefinition (name : String)
  | unknownMemberType (type member : String)
  | unknownType (type : String)
  | invalidStruct
  | invalidArraySize (text : String)
  | unterminatedTemplate
  /-- The register is of none of the banks that are allowed. -/
  | invalidRegister (text banks : String)
  | invalidSlot (text : String)
  | unclosedBody (function : String)
  | unterminatedDeclaration
  deriving DecidableEq, Repr

/-- What is wrong with a declaration, in words. -/
def DeclarationFault.message : DeclarationFault → String
  | unexpected found expected =>
    "unexpected token " ++ found.describe ++ ", expected " ++ quote expected.describe
  | redefinition name => "redefinition of type " ++ quote name
  | unknownMemberType type member => "unknown type " ++ quote type ++ " for " ++ quote member
  | unknownType type => "unknown type " ++ quote type
  | invalidStruct => "invalid struct definition"
  | invalidArraySize text => "invalid array size " ++ quote text
  | unterminatedTemplate => "unterminated template argument"
  | invalidRegister text banks =>
    "invalid register " ++ quote text ++ ", expected one of " ++ quote banks
  | invalidSlot text => "invalid register slot in " ++ quote text
  | unclosedBody function => "unexpected end of input in body of " ++ quote function
  | unterminatedDeclaration => "unterminated global declaration"

/-- What is wrong with a manifest. -/
inductive ManifestFault where
  | unexpected (found : Token) (expected : Token.Kind)
  /-- A word stands where another is required. -/
  | expectedWord (word found : String)
  | expectedValue (found : Token)
  | unknownStage (name : String)
  | duplicateStage (stage : Stage) (shader : String)
  | stageWithoutFile (stage : Stage) (shader : String)
  | unknownStatement (word : String)
  | duplicateShader (name : String)
  deriving DecidableEq, Repr

/-- What is wrong with a manifest, in words. -/
def ManifestFault.message : ManifestFault → String
  | unexpected found expected =>
    "expected " ++ quote expected.describe ++ ", found " ++ found.describe
  | expectedWord word found => "expected " ++ quote word ++ ", found " ++ quote found
  | expectedValue found => "expected a value, found " ++ found.describe
  | unknownStage name => "unknown stage " ++ quote name
  | duplicateStage stage shader =>
    stage.name ++ " stage of " ++ quote shader ++ " is defined twice"
  | stageWithoutFile stage shader => stage.name ++ " stage of " ++ quote shader ++ " has no file"
  | unknownStatement word => "unknown statement " ++ quote word
  | duplicateShader name => "shader " ++ quote name ++ " is defined twice"

/-- What is wrong with an object file. -/
inductive ObjectFault where
  | wrongSize (expected found : Nat)
  | badTag (tag : List Nat)
  deriving DecidableEq, Repr

/-- Numbers in brackets, with commas between them. -/
def bracketed (numbers : List Nat) : String :=
  "[" ++ ", ".intercalate (numbers.map Nat.repr) ++ "]"

/-- What is wrong with an object file, in words. -/
def ObjectFault.message : ObjectFault → String
  | wrongSize expected found => "expected " ++ expected.repr ++ " bytes, found " ++ found.repr
  | badTag tag => "bad tag " ++ bracketed tag

/-- Everything that can go wrong in a build. -/
inductive Error where
  /-- A source file, an included file or a manifest is missing. -/
  | fileNotFound (path : Path)
  | directive (file : Path) (line : Nat) (fault : DirectiveFault)
  /-- The file at `place` is included from the file at `includer`, which it includes. -/
  | circularInclude (place includer : Location)
  | declaration (line : UInt32) (fault : DeclarationFault)
  /-- The backend rejected a stage, with that text. -/
  | backend (stage : Stage) (entryPoint text : String)
  /-- A cache entry, an object file or a report could not be written. -/
  | cacheWrite (path : Path) (fault : FileFault)
  | invalidObject (fault : ObjectFault)
  | manifest (line : UInt32) (fault : ManifestFault)
  /-- A settings or report document does not have the form that it should have. -/
  | document
  /-- A file could not be read. -/
  | unreadable (fault : FileFault)
  deriving DecidableEq, Repr

/-- An error in words. -/
def Error.message : Error → String
  | fileNotFound path => "File not found: " ++ path.text
  | directive file line fault =>
    "Syntax error in " ++ file.text ++ ":" ++ line.repr ++ ": " ++ fault.message
  | circularInclude place includer =>
    "Circular include of " ++ place.path.text ++ " (included from " ++ includer.path.text ++ ")"
  | declaration line fault => "Parse error at line " ++ line.toNat.repr ++ ": " ++ fault.message
  | backend stage entryPoint text =>
    "Backend failed to compile " ++ stage.name ++ " stage " ++ quote entryPoint ++ ":\n" ++ text
  | cacheWrite path fault => "Failed to write " ++ path.text ++ ": " ++ fault.message
  | invalidObject fault => "Invalid shader object: " ++ fault.message
  | manifest line fault => "Manifest error at line " ++ line.toNat.repr ++ ": " ++ fault.message
  | document => "Configuration error: malformed document"
  | unreadable fault => "IO error: " ++ fault.message

/-- The failure of the file system behind an error, if there is one. -/
def Error.cause? : Error → Option FileFault
  | cacheWrite _ fault => some fault
  | unreadable fault => some fault
  | _ => none

/-- An error in words, followed by its cause. -/
def Error.fullMessage (e : Error) : String :=
  match e.cause? with
  | none => e.message
  | some fault => e.message ++ ": " ++ fault.message

/-- The declarations of which only the first of a name counts. -/
inductive DeclarationKind where
  | constantBuffer
  | resource
  | function
  deriving DecidableEq, Repr

/-- The kind of a declaration, in words. -/
def DeclarationKind.describe : DeclarationKind → String
  | constantBuffer => "constant buffer"
  | resource => "resource"
  | function => "function"

/-- What a build reports without failing. -/
inductive Warning where
  | unknownDirective (file : Path) (line : Nat) (text : String)
  | unclosedConditionals (file : Path) (count : Nat)
  | duplicate (kind : DeclarationKind) (name : String)
  | notRemoved (path : Path) (fault : FileFault)
  deriving DecidableEq, Repr

/-- A warning in words. -/
def Warning.message : Warning → String
  | unknownDirective file line text =>
    file.text ++ ":" ++ line.repr ++ ": unknown preprocessor directive " ++ quote text
  | unclosedConditionals file count =>
    file.text ++ ": " ++ count.repr ++ " conditional block(s) not closed at end of file"
  | duplicate kind name => "Duplicate " ++ kind.describe ++ " " ++ quote name ++ " ignored"
  | notRemoved path fault => "Failed to remove " ++ path.text ++ ": " ++ fault.message

/-- A record in the log. -/
inductive Record where
  | warning (warning : Warning)
  /-- A stage of a shader could not be compiled. -/
  | stageFailed (shader : String) (stage : Stage) (error : Error)
  deriving DecidableEq, Repr

namespace Record

/-- Is the record about an error? -/
def isError : Record → Bool
  | warning _ => false
  | stageFailed .. => true

/-- A record in words. -/
def message : Record → String
  | warning w => w.message
  | stageFailed shader stage error =>
    "Shader " ++ quote shader ++ ": " ++ stage.name ++ " stage failed: " ++ error.message

end Record

/-- What a computation came to, and what it reported on the way. -/
structure Logged (α : Type) where
  result : Except Error α
  warnings : List Warning := []

end ShaderBuild
