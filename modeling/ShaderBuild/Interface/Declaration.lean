import ShaderBuild.Interface
import ShaderBuild.Text.Decimal
import ShaderBuild.Token.Reader
/-!
# Reading declarations

The grammar of one declaration, as readers of a token stream. Only what belongs to the interface is
kept: modifiers, function bodies and global variables are passed over. A reader that starts a
declaration is given its first token, so that every declaration makes progress.
-/

namespace ShaderBuild

/-- A declaration, with its types as far as they had to be known to read it. -/
inductive Declaration where
  | struct (line : UInt32) (name : String) (members : List MemberSpec)
  | constants (line : UInt32) (name : String) (register : Option Register)
      (members : List MemberSpec)
  | resource (resource : Resource)
  | function (function : Function)
  /-- Something that is no part of the interface. -/
  | other
  deriving DecidableEq, Repr

namespace Declaration

open Token Reader

/-! ## Parts of tokens lists -/

/-- The tokens of a template argument after its opening bracket, and what follows its closing one.
There are `depth` more brackets open inside. -/
def templateTokens : Nat → List Token → Option (List Token × List Token)
  | _, [] => none
  | depth, t :: ts =>
    if t.text = ">" then
      match depth with
      | 0 => some ([], ts)
      | inner + 1 => (templateTokens inner ts).map fun (arg, rest) => (t :: arg, rest)
    else
      (templateTokens (if t.text = "<" then depth + 1 else depth) ts).map
        fun (arg, rest) => (t :: arg, rest)

/-- What follows the closing brace of a body whose opening brace came before. There are `depth`
more braces open inside. -/
def afterBody : Nat → List Token → Option (List Token)
  | _, [] => none
  | depth, t :: ts =>
    match t.kind with
    | .blockOpen => afterBody (depth + 1) ts
    | .blockClose =>
      match depth with
      | 0 => some ts
      | inner + 1 => afterBody inner ts
    | _ => afterBody depth ts

/-- What follows the next semicolon. -/
def afterStatement : List Token → Option (List Token)
  | [] => none
  | t :: ts => if t.kind = .semicolon then some ts else afterStatement ts

theorem length_templateTokens_le {depth : Nat} {ts arg rest : List Token}
    (h : templateTokens depth ts = some (arg, rest)) : rest.length ≤ ts.length := by
  induction ts generalizing depth arg rest with
  | nil => simp [templateTokens] at h
  | cons t ts ih =>
    unfold templateTokens at h
    dsimp only at h
    have step : ∀ {d : Nat},
        (templateTokens d ts).map (fun (arg, rest) => (t :: arg, rest)) = some (arg, rest) →
        rest.length ≤ (t :: ts).length := by
      intro d hd
      obtain ⟨⟨arg', rest'⟩, h1, h2⟩ := Option.map_eq_some_iff.mp hd
      simp only [Prod.mk.injEq] at h2
      rw [← h2.2]
      exact Nat.le_succ_of_le (ih h1)
    split at h
    · split at h
      · simp only [Option.some.injEq, Prod.mk.injEq] at h
        rw [← h.2]
        exact Nat.le_succ _
      · exact step h
    · exact step h

theorem length_afterBody_le {depth : Nat} {ts rest : List Token}
    (h : afterBody depth ts = some rest) : rest.length ≤ ts.length := by
  induction ts generalizing depth with
  | nil => simp [afterBody] at h
  | cons t ts ih =>
    unfold afterBody at h
    split at h
    · exact Nat.le_succ_of_le (ih h)
    · split at h
      · rw [← Option.some.inj h]
        exact Nat.le_succ _
      · exact Nat.le_succ_of_le (ih h)
    · exact Nat.le_succ_of_le (ih h)

theorem length_afterStatement_le {ts rest : List Token}
    (h : afterStatement ts = some rest) : rest.length ≤ ts.length := by
  induction ts with
  | nil => simp [afterStatement] at h
  | cons t ts ih =>
    rw [afterStatement] at h
    split at h
    · rw [← Option.some.inj h]
      exact Nat.le_succ _
    · exact Nat.le_succ_of_le (ih h)

/-! ## Parts of declarations -/

/-- Words before a type that do not matter to the interface. -/
def typeModifiers : List String :=
  ["in", "out", "inout", "uniform", "const", "linear", "centroid", "nointerpolation",
    "noperspective", "row_major", "column_major", "precise"]

/-- Words before a parameter that tell the input primitive of a geometry stage. -/
def primitiveModifiers : List String := ["point", "line", "triangle", "lineadj", "triangleadj"]

/-- The types of stream and patch parameters. -/
def stageTypes : List String :=
  ["PointStream", "LineStream", "TriangleStream", "InputPatch", "OutputPatch"]

/-- The register banks of constant buffers. -/
def bufferBanks : String := "bt"

/-- The register banks of resources. -/
def resourceBanks : String := "tsu"

/-- The largest size of an array. -/
def maxArraySize : Nat := 0xFFFFFFFF

/-- The largest register slot. -/
def maxSlot : Nat := 0xFFFF

/-- Is this token one of some words? -/
def isWordOf (words : List String) (t : Token) : Bool :=
  t.kind == .identifier && words.contains t.text

/-- A token of some kind. -/
def expect (kind : Kind) : Reader Token :=
  require kind fun found => .declaration found.line (.unexpected found kind)

/-- An identifier. -/
def word : Reader String := Token.text <$> expect .identifier

/-- A semantic after a colon. -/
def semantic : Reader (Option String) := after .colon word

/-- The number of elements in the brackets after a name. -/
def arraySize : Reader (Option UInt32) :=
  after .squareOpen do
    let t ← expect .integer
    match Text.decimalUpTo? maxArraySize t.text.toList with
    | none => throw (.declaration t.line (.invalidArraySize t.text))
    | some size => do
      let _ ← expect .squareClose
      pure (.ofNat size)

/-- The template argument in angle brackets, without spaces. -/
def templateArgument : Reader (Option String) := do
  if (← peek).text = "<" then
    let _ ← next
    let arg ← cut (templateTokens 0) fun line => .declaration line .unterminatedTemplate
    pure (some (String.join (arg.map Token.text)))
  else pure none

/-- The register that a word names. -/
def registerOf (banks : String) (t : Token) : Except Error Register :=
  match t.text.toList with
  | [] => .error (.declaration t.line (.invalidRegister t.text banks))
  | bank :: slot =>
    if banks.toList.contains bank then
      match Text.decimalUpTo? maxSlot slot with
      | none => .error (.declaration t.line (.invalidSlot t.text))
      | some slot => .ok ⟨bank, slot⟩
    else .error (.declaration t.line (.invalidRegister t.text banks))

/-- A register of some banks after a colon. -/
def register (banks : String) : Reader (Option Register) :=
  after .colon do
    let _ ← expect .register
    let _ ← expect .bracketOpen
    let t ← expect .identifier
    let r ← liftM (registerOf banks t)
    let _ ← expect .bracketClose
    pure r

/-- A member or parameter. -/
def member : Reader MemberSpec := do
  skipWhile (isWordOf typeModifiers)
  let typeName ← word
  let name ← word
  let size ← arraySize
  let semantic ← semantic
  pure ⟨typeName, name, semantic, size.getD 1⟩

/-- A member with the semicolon that ends it. -/
def memberStatement : Reader MemberSpec := do
  let m ← member
  let _ ← expect .semicolon
  pure m

/-- A parameter of a type that is not reflected. -/
def opaqueParameter : Reader Unit := do
  let _ ← next
  let _ ← templateArgument
  let _ ← word
  let _ ← arraySize
  let _ ← semantic
  pure ()

/-- A parameter. Resources, streams and patches are passed over. -/
def parameter (types : TypeTable) : Reader (Option Member) := do
  skipWhile (isWordOf typeModifiers)
  skipWhile (isWordOf primitiveModifiers)
  let t ← peek
  if (ResourceKind.ofKeyword? t.text).isSome || stageTypes.contains t.text then do
    opaqueParameter
    pure none
  else do
    let spec ← member
    match types.resolve? spec with
    | none => throw (.declaration t.line (.unknownMemberType spec.typeName spec.name))
    | some m => pure (some m)

/-! ### Progress -/

theorem consumes_expect {kind : Kind} (hk : kind ≠ .endOfInput) : Consumes (expect kind) :=
  consumes_require _ hk

theorem consumes_word : Consumes word := (consumes_expect (by decide)).map _

theorem forward_semantic : Forward semantic := consumes_word.forward.after _

theorem forward_arraySize : Forward arraySize := by
  refine Forward.after _ ((consumes_expect (by decide)).forward.bind fun t => ?_)
  split
  · exact forward_throw _
  · exact (consumes_expect (by decide)).forward.bind fun _ => forward_pure _

theorem forward_templateArgument : Forward templateArgument := by
  refine forward_peek.bind fun t => ?_
  split
  · exact forward_next.bind fun _ =>
      (forward_cut _ fun _ _ _ => length_templateTokens_le).bind fun _ => forward_pure _
  · exact forward_pure _

theorem forward_register (banks : String) : Forward (register banks) :=
  Forward.after _ <| (consumes_expect (by decide)).forward.bind fun _ =>
    (consumes_expect (by decide)).forward.bind fun _ =>
    (consumes_expect (by decide)).forward.bind fun _ => (forward_liftM _).bind fun _ =>
    (consumes_expect (by decide)).forward.bind fun _ => forward_pure _

theorem consumes_member : Consumes member :=
  (forward_skipWhile _).bind_consumes fun _ => consumes_word.bind fun _ =>
    consumes_word.forward.bind fun _ => forward_arraySize.bind fun _ =>
    forward_semantic.bind fun _ => forward_pure _

theorem consumes_memberStatement : Consumes memberStatement :=
  consumes_member.bind fun _ => (consumes_expect (by decide)).forward.bind fun _ => forward_pure _

theorem consumes_opaqueParameter : Consumes opaqueParameter :=
  forward_next.bind_consumes fun _ => forward_templateArgument.bind_consumes fun _ =>
    consumes_word.bind fun _ => forward_arraySize.bind fun _ =>
    forward_semantic.bind fun _ => forward_pure _

theorem consumes_parameter (types : TypeTable) : Consumes (parameter types) := by
  refine (forward_skipWhile _).bind_consumes fun _ => (forward_skipWhile _).bind_consumes fun _ =>
    forward_peek.bind_consumes fun t => ?_
  split
  · exact consumes_opaqueParameter.bind fun _ => forward_pure _
  · refine consumes_member.bind fun spec => ?_
    split
    · exact forward_throw _
    · exact forward_pure _

/-! ## Declarations -/

/-- Members in braces. -/
def members : Reader (List MemberSpec) := do
  let _ ← expect .blockOpen
  untilClosed .blockClose memberStatement consumes_memberStatement

/-- The parameters of a function, in brackets. -/
def parameters (types : TypeTable) : Reader (List Member) := do
  let _ ← expect .bracketOpen
  if ← accept .bracketClose then pure []
  else if (← peek).text = "void" then do
    let _ ← next
    let _ ← expect .bracketClose
    pure []
  else do
    let found ← separated .comma (parameter types) (consumes_parameter types)
    let _ ← expect .bracketClose
    pure (found.filterMap id)

/-- Pass over the rest of a statement that started on some line. -/
def skipStatement (line : UInt32) : Reader Unit :=
  cut (fun ts => (afterStatement ts).map fun rest => ((), rest)) fun _ =>
    .declaration line .unterminatedDeclaration

/-- The body of a function that starts on some line, or the semicolon in its place. -/
def body (name : String) (line : UInt32) : Reader Unit := do
  if ← accept .semicolon then pure ()
  else do
    let _ ← expect .blockOpen
    cut (fun ts => (afterBody 0 ts).map fun rest => ((), rest)) fun _ =>
      .declaration line (.unclosedBody name)

/-- A struct after its keyword. -/
def structAfter (line : UInt32) : Reader Declaration := do
  let name ← word
  let members ← members
  let _ ← expect .semicolon
  pure (.struct line name members)

/-- A constant buffer after its keyword. -/
def constantsAfter (line : UInt32) : Reader Declaration := do
  let name ← word
  let register ← register bufferBanks
  let members ← members
  let _ ← accept .semicolon
  pure (.constants line name register members)

/-- A resource after its keyword. -/
def resourceAfter (kind : ResourceKind) (line : UInt32) : Reader Declaration := do
  let element ← templateArgument
  let name ← word
  let size ← arraySize
  let register ← register resourceBanks
  let _ ← expect .semicolon
  pure (.resource ⟨name, kind, element, size.getD 1, register, line⟩)

/-- The return type that a token names. -/
def returnType (types : TypeTable) (t : Token) : Except Error (Option TypeId) :=
  if t.text = "void" then .ok none
  else
    match types.idOf? t.text with
    | none => .error (.declaration t.line (.unknownType t.text))
    | some id => .ok (some id)

/-- A function or a global variable after its type. -/
def functionAfter (types : TypeTable) (type : Token) : Reader Declaration := do
  let returned ← liftM (returnType types type)
  let name ← word
  if ← isNext .bracketOpen then do
    let parameters ← parameters types
    let semantic ← semantic
    body name type.line
    pure (.function ⟨name, returned, semantic, parameters, type.line⟩)
  else do
    skipStatement type.line
    pure .other

/-- What follows a word that starts no declaration. A template argument after it tells that the
word is a type, and then the whole statement is passed over. -/
def unknownAfter (line : UInt32) : Reader Declaration := do
  match ← templateArgument with
  | none => pure .other
  | some _ => do
    skipStatement line
    pure .other

/-- The declaration that starts with a token. -/
def startingWith (types : TypeTable) (first : Token) : Reader Declaration :=
  match first.kind with
  | .struct => structAfter first.line
  | .cbuffer => constantsAfter first.line
  | .identifier =>
    match ResourceKind.ofKeyword? first.text with
    | some kind => resourceAfter kind first.line
    | none =>
      if first.text = "void" ∨ types.contains first.text then functionAfter types first
      else unknownAfter first.line
  | _ => pure .other

/-! ### Progress -/

theorem forward_members : Forward members :=
  (consumes_expect (by decide)).forward.bind fun _ => forward_untilClosed _ _

theorem forward_parameters (types : TypeTable) : Forward (parameters types) := by
  refine (consumes_expect (by decide)).forward.bind fun _ => (forward_accept _).bind fun _ => ?_
  split
  · exact forward_pure _
  · refine forward_peek.bind fun _ => ?_
    split
    · exact forward_next.bind fun _ => (consumes_expect (by decide)).forward.bind fun _ =>
        forward_pure _
    · exact (forward_separated _ _).bind fun _ => (consumes_expect (by decide)).forward.bind fun _ =>
        forward_pure _

theorem forward_skipStatement (line : UInt32) : Forward (skipStatement line) := by
  refine forward_cut _ fun ts a rest h => ?_
  obtain ⟨rest', h1, h2⟩ := Option.map_eq_some_iff.mp h
  simp only [Prod.mk.injEq] at h2
  exact h2.2 ▸ length_afterStatement_le h1

theorem forward_body (name : String) (line : UInt32) : Forward (body name line) := by
  refine (forward_accept _).bind fun _ => ?_
  split
  · exact forward_pure _
  · refine (consumes_expect (by decide)).forward.bind fun _ => forward_cut _ fun ts a rest h => ?_
    obtain ⟨rest', h1, h2⟩ := Option.map_eq_some_iff.mp h
    simp only [Prod.mk.injEq] at h2
    exact h2.2 ▸ length_afterBody_le h1

theorem forward_functionAfter (types : TypeTable) (type : Token) :
    Forward (functionAfter types type) := by
  refine (forward_liftM _).bind fun _ => consumes_word.forward.bind fun _ =>
    (forward_isNext _).bind fun _ => ?_
  split
  · exact (forward_parameters types).bind fun _ => forward_semantic.bind fun _ =>
      (forward_body _ _).bind fun _ => forward_pure _
  · exact (forward_skipStatement _).bind fun _ => forward_pure _

theorem forward_unknownAfter (line : UInt32) : Forward (unknownAfter line) := by
  refine forward_templateArgument.bind fun arg => ?_
  cases arg with
  | none => exact forward_pure _
  | some _ => exact (forward_skipStatement _).bind fun _ => forward_pure _

/-- The declaration that starts with a token takes no token before it. -/
theorem forward_startingWith (types : TypeTable) (first : Token) :
    Forward (startingWith types first) := by
  unfold startingWith
  split
  · exact consumes_word.forward.bind fun _ => forward_members.bind fun _ =>
      (consumes_expect (by decide)).forward.bind fun _ => forward_pure _
  · exact consumes_word.forward.bind fun _ => (forward_register _).bind fun _ =>
      forward_members.bind fun _ => (forward_accept _).bind fun _ => forward_pure _
  · split
    · exact forward_templateArgument.bind fun _ => consumes_word.forward.bind fun _ =>
        forward_arraySize.bind fun _ => (forward_register _).bind fun _ =>
        (consumes_expect (by decide)).forward.bind fun _ => forward_pure _
    · split
      · exact forward_functionAfter types first
      · exact forward_unknownAfter _
  · exact forward_pure _

end Declaration

end ShaderBuild
