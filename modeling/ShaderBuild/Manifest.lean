import ShaderBuild.Comment
import ShaderBuild.FileSystem
import ShaderBuild.Token.Reader
/-!
# Manifests

A manifest lists the shaders of a build with the sources of their stages:

    shader Name {
      stage vertex { file = "name.hlsl"; entrypoint = "VS"; define LIGHTS = 8; }
    }

Names are not repeated, neither those of shaders nor those of the stages of one shader, and every
stage has a file.
-/

namespace ShaderBuild

/-- A shader of a manifest. -/
structure ManifestEntry where
  name : String
  unit : ShaderUnit
  line : UInt32
  deriving DecidableEq, Repr, Inhabited

/-- The shaders of a build, in order. -/
structure Manifest where
  entries : List ManifestEntry := []
  deriving DecidableEq, Repr, Inhabited

namespace Manifest

open Token Reader

/-- The number of shaders. -/
def size (m : Manifest) : Nat := m.entries.length

/-- Is there no shader? -/
def isEmpty (m : Manifest) : Bool := m.entries.isEmpty

/-- The shader of some name. -/
def find? (m : Manifest) (name : String) : Option ManifestEntry :=
  m.entries.find? (·.name == name)

/-! ## Values -/

/-- Put a quote for every quote that is written with a backslash before it. -/
def unescapeQuotes : List Char → List Char
  | [] => []
  | '\\' :: '"' :: rest => '"' :: unescapeQuotes rest
  | c :: rest => c :: unescapeQuotes rest

/-- A text without one quote at its front, if it has one there. -/
def dropQuote : List Char → List Char
  | '"' :: rest => rest
  | cs => cs

/-- The text that a string literal stands for. -/
def unquote (literal : List Char) : List Char :=
  unescapeQuotes (dropQuote (dropQuote literal).reverse).reverse

/-- A token of some kind. -/
def expect (kind : Kind) : Reader Token :=
  require kind fun found => .manifest found.line (.unexpected found kind)

/-- The value that a token stands for. -/
def valueOf (t : Token) : Except Error String :=
  match t.kind with
  | .string => .ok (String.ofList (unquote t.text.toList))
  | .identifier | .integer | .float => .ok t.text
  | _ => .error (.manifest t.line (.expectedValue t))

/-- A value after an equals sign. -/
def assigned : Reader String := do
  let _ ← expect .equals
  let t ← next
  liftM (valueOf t)

/-- A word that must stand here. -/
def keyword (word : String) : Reader Token := do
  let t ← expect .identifier
  if t.text = word then pure t else throw (.manifest t.line (.expectedWord word t.text))

/-! ## Stages -/

/-- The definition of a macro, after its keyword. -/
def definition : Reader Macro := do
  let name ← Token.text <$> expect .identifier
  let value ← after .equals do
    let t ← next
    liftM (valueOf t)
  pure ⟨name, value.getD ""⟩

/-- The effect of a statement on a stage, after the word that starts it. -/
def effect (source : StageSource) (key : Token) : Reader StageSource :=
  if key.text = "file" then do
    let file ← assigned
    pure { source with file := ⟨file⟩ }
  else if key.text = "entrypoint" then do
    let entryPoint ← assigned
    pure { source with entryPoint }
  else if key.text = "define" then do
    let m ← definition
    pure { source with macros := source.macros ++ [m] }
  else throw (.manifest key.line (.unknownStatement key.text))

/-- One statement about a stage. -/
def statement (source : StageSource) : Reader StageSource := do
  let key ← expect .identifier
  let source ← effect source key
  let _ ← expect .semicolon
  pure source

/-! ### Progress -/

theorem consumes_expect {kind : Kind} (hk : kind ≠ .endOfInput) : Consumes (expect kind) :=
  consumes_require _ hk

theorem consumes_keyword (word : String) : Consumes (keyword word) := by
  refine (consumes_expect (by decide)).bind fun t => ?_
  split
  · exact forward_pure _
  · exact forward_throw _

theorem forward_assigned : Forward assigned :=
  (consumes_expect (by decide)).forward.bind fun _ => forward_next.bind fun _ => forward_liftM _

theorem forward_definition : Forward definition :=
  ((consumes_expect (by decide)).map _).forward.bind fun _ =>
    ((forward_next.bind fun _ => forward_liftM _).after _).bind fun _ => forward_pure _

theorem forward_effect (source : StageSource) (key : Token) : Forward (effect source key) := by
  unfold effect
  split
  · exact forward_assigned.bind fun _ => forward_pure _
  · split
    · exact forward_assigned.bind fun _ => forward_pure _
    · split
      · exact forward_definition.bind fun _ => forward_pure _
      · exact forward_throw _

theorem consumes_statement (source : StageSource) : Consumes (statement source) :=
  (consumes_expect (by decide)).bind fun _ => (forward_effect _ _).bind fun _ =>
    (consumes_expect (by decide)).forward.bind fun _ => forward_pure _

/-! ## Shaders -/

/-- The statements about a stage, in braces. -/
def stageBody : Reader StageSource := do
  let _ ← expect .blockOpen
  foldUntil .blockClose statement consumes_statement {}

/-- One stage of a shader. -/
def stage (shader : String) (unit : ShaderUnit) : Reader ShaderUnit := do
  let _ ← keyword "stage"
  let t ← expect .identifier
  match Stage.ofName? t.text with
  | none => throw (.manifest t.line (.unknownStage t.text))
  | some s =>
    if (unit.get s).isAbsent then do
      let source ← stageBody
      if source.isAbsent then throw (.manifest t.line (.stageWithoutFile s shader))
      else pure (unit.set s source)
    else throw (.manifest t.line (.duplicateStage s shader))

theorem forward_stageBody : Forward stageBody :=
  (consumes_expect (by decide)).forward.bind fun _ => forward_foldUntil _ _ _

theorem consumes_stage (shader : String) (unit : ShaderUnit) : Consumes (stage shader unit) := by
  refine (consumes_keyword _).bind fun _ => (consumes_expect (by decide)).forward.bind fun t => ?_
  split
  · exact forward_throw _
  · split
    · refine forward_stageBody.bind fun source => ?_
      split
      · exact forward_throw _
      · exact forward_pure _
    · exact forward_throw _

/-- One shader. -/
def entry : Reader ManifestEntry := do
  let start ← keyword "shader"
  let name ← Token.text <$> expect .identifier
  let _ ← expect .blockOpen
  let unit ← foldUntil .blockClose (stage name) (consumes_stage name) ShaderUnit.empty
  let _ ← accept .semicolon
  pure ⟨name, unit, start.line⟩

theorem consumes_entry : Consumes entry :=
  (consumes_keyword _).bind fun _ => ((consumes_expect (by decide)).map _).forward.bind fun _ =>
    (consumes_expect (by decide)).forward.bind fun _ => (forward_foldUntil _ _ _).bind fun _ =>
    (forward_accept _).bind fun _ => forward_pure _

/-! ## Manifests -/

/-- Add the shaders of a token stream. -/
def extend (m : Manifest) (s : Stream) : Except Error Manifest :=
  if s.head.isEnd then .ok m
  else
    match _he : entry s with
    | .error e => .error e
    | .ok (e, s') =>
      if (m.find? e.name).isSome then .error (.manifest e.line (.duplicateShader e.name))
      else extend ⟨m.entries ++ [e]⟩ s'
termination_by s.size
decreasing_by exact consumes_entry _ _ _ _he

/-- The manifest that a text holds. Comments do not matter. -/
def parse (text : String) : Except Error Manifest :=
  extend {} (Stream.ofSource (String.ofList (Comment.strip text.toList)))

/-- The manifest in a file. -/
def load (fs : FileSystem) (p : Path) : Except Error Manifest :=
  if fs.isFile p then
    match fs.readText p with
    | .ok text => parse text
    | .error fault => .error (.unreadable fault)
  else .error (.fileNotFound p)

end Manifest

end ShaderBuild
