import ShaderBuild.Error
import ShaderBuild.FileSystem
import ShaderBuild.Json.Read
/-!
# Settings

Where sources and outputs are, and whether comments are stripped. A settings document may leave out
what it does not change: as the JSON library documents for a record with defaults, a missing field has
the value that it has in the usual settings. A null is no value of any of these fields.
-/

namespace ShaderBuild

/-- The settings of a build. -/
structure Settings where
  /-- The directory that stage files are seen from, and the only one that system includes are
  searched in. -/
  sourceDir : Path := ⟨"shaders/src"⟩
  /-- The directory of objects, reports and the cache. -/
  outputDir : Path := ⟨"shaders/bin"⟩
  stripComments : Bool := true
  deriving DecidableEq, Repr, Inhabited

namespace Settings

/-- The extension of object files. -/
def objectExtension : String := "tsh"

/-- The name of the cache directory. -/
def cacheName : String := "cache"

/-- A number in lowercase hexadecimal digits. -/
def hex (n : Nat) : String := String.ofList (Nat.toDigits 16 n)

/-- Do two settings ask for the same? Paths count by their parts. -/
def same (s t : Settings) : Bool :=
  s.sourceDir.same t.sourceDir && s.outputDir.same t.outputDir && s.stripComments == t.stripComments

/-- The cache directory of a backend. -/
def cacheDir (s : Settings) (backend : Nat) : Path := (s.outputDir.join ⟨cacheName⟩).join ⟨hex backend⟩

/-- The object file of a shader. -/
def objectPath (s : Settings) (name : String) : Path :=
  s.outputDir.join ⟨name ++ "." ++ objectExtension⟩

/-- The names of the fields of a settings document. -/
def fieldNames : List String := ["source_dir", "output_dir", "strip_comments"]

/-- The settings as JSON. -/
def toJson (s : Settings) : Json :=
  .object [("source_dir".toList, .ofText s.sourceDir.text),
    ("output_dir".toList, .ofText s.outputDir.text),
    ("strip_comments".toList, .bool s.stripComments)]

/-- The value of a field that may be missing. -/
def fieldOr {α : Type} (default : α) (read : Json → Option α) : Option Json → Option α
  | none => some default
  | some v => read v

/-- The settings that a JSON value holds. -/
def ofJson? (v : Json) : Option Settings := do
  match ← v.record? fieldNames with
  | [source, output, strip] =>
    let initial : Settings := {}
    return {
      sourceDir := ⟨← fieldOr initial.sourceDir.text Json.text? source⟩
      outputDir := ⟨← fieldOr initial.outputDir.text Json.text? output⟩
      stripComments := ← fieldOr initial.stripComments Json.bool? strip }
  | _ => none

/-- The settings as a document. -/
def print (s : Settings) : String := String.ofList s.toJson.compact

/-- The settings that a document holds. -/
def read (document : String) : Except Error Settings :=
  match (Json.read? document.toList).bind ofJson? with
  | some s => .ok s
  | none => .error .document

/-- The settings in a file. -/
def load (fs : FileSystem) (p : Path) : Except Error Settings :=
  match fs.readText p with
  | .ok document => read document
  | .error fault => .error (.unreadable fault)

end Settings

end ShaderBuild
