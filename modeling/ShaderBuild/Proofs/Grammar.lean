import ShaderBuild.Interface.Parse
import ShaderBuild.Proofs.Spelling
/-!
# Declarations as they are written

The source form of the declarations that an interface is read from: what is written, down to the
modifiers, the digits and the words of a body, and the words that it consists of. What can be said of a
part alone is carried by its structure: names are no keywords, numbers are small enough, brackets match.
What depends on the types that are known where a declaration stands is `Declaration.Fits`.

`Reflects` says which interface has what some declarations declare, and `repeated` what is declared in vain.
-/

namespace ShaderBuild.Written

open Token Text

/-! ## Names, numbers and punctuation -/

/-- Is this text an identifier, or a keyword? -/
def isIdentifier (text : String) : Bool :=
  match text.toList with
  | [] => false
  | c :: cs => isWordStart c && cs.all isWordChar

theorem spells_of_isIdentifier {text : String} (h : isIdentifier text = true) :
    Spells (.ofWord text) text.toList := by
  rw [isIdentifier] at h
  split at h
  · cases h
  · next c cs ht =>
    rw [Bool.and_eq_true] at h
    have hs : Spells (.ofWord (String.ofList (c :: cs))) (c :: cs) := .word h.1 h.2
    rwa [← ht, String.ofList_toList] at hs

theorem isWordChar_of_isIdentifier {text : String} (h : isIdentifier text = true) {c : Char} (hc : c ∈ text.toList) :
    isWordChar c = true := by
  rw [isIdentifier] at h
  split at h
  · cases h
  · next first rest ht =>
    rw [ht] at hc
    obtain ⟨hstart, hall⟩ := Bool.and_eq_true_iff.1 h
    rcases List.mem_cons.1 hc with rfl | hc
    · exact isWordChar_of_isWordStart hstart
    · exact List.all_eq_true.1 hall _ hc

/-- A name: an identifier that is no keyword. -/
structure Name where
  text : String
  identifier : isIdentifier text = true
  free : Kind.ofWord text = .identifier

def Name.word (n : Name) : Word := ⟨.identifier, n.text, n.free ▸ spells_of_isIdentifier n.identifier⟩

/-- A keyword. -/
def keyword (text : String) (h : isIdentifier text = true) : Word := ⟨.ofWord text, text, spells_of_isIdentifier h⟩

/-- A single character. -/
def sign (c : Char) (h : isSingle c = true) : Word :=
  ⟨.ofChar c, String.singleton c, by rw [String.toList_singleton]; exact .single h⟩

def semicolon : Word := sign ';' (by decide)

def colon : Word := sign ':' (by decide)

def comma : Word := sign ',' (by decide)

def blockOpen : Word := sign '{' (by decide)

def blockClose : Word := sign '}' (by decide)

def bracketOpen : Word := sign '(' (by decide)

def bracketClose : Word := sign ')' (by decide)

def squareOpen : Word := sign '[' (by decide)

def squareClose : Word := sign ']' (by decide)

def angleOpen : Word := sign '<' (by decide)

def angleClose : Word := sign '>' (by decide)

/-- A number in decimal digits, perhaps with zeros before it. -/
structure Numeral where
  zeros : Nat
  value : Nat

namespace Numeral

def digits (n : Numeral) : List Char := List.replicate n.zeros '0' ++ Nat.toDigits 10 n.value

theorem digits_ne_nil (n : Numeral) : n.digits ≠ [] := by
  rw [digits]
  exact List.append_ne_nil_of_right_ne_nil _ Nat.toDigits_ne_nil

theorem all_digits (n : Numeral) : n.digits.all Char.isDigit = true := by
  rw [List.all_eq_true]
  intro c hc
  rcases List.mem_append.1 hc with hc | hc
  · rw [List.eq_of_mem_replicate hc]
    decide
  · exact Nat.isDigit_of_mem_toDigits (by decide) (by decide) hc

theorem digitsValue_eq (before : Nat) (cs : List Char) :
    digitsValue before cs = Nat.ofDigitChars 10 cs before := by
  rw [digitsValue, Nat.ofDigitChars_eq_foldl]
  simp only [Nat.mul_comm]

theorem decimalUpTo?_digits (n : Numeral) {limit : Nat} (h : n.value ≤ limit) :
    decimalUpTo? limit n.digits = some n.value := by
  have hv : digitsValue 0 n.digits = n.value := by
    rw [digitsValue_eq, digits, Nat.ofDigitChars_append, Nat.ofDigitChars_replicate_zero, Nat.mul_zero,
      Nat.ofDigitChars_ten_toDigits]
  rw [decimalUpTo?, decimal?, if_pos ⟨n.digits_ne_nil, n.all_digits⟩, hv, Option.filter_some,
    if_pos (decide_eq_true h)]

theorem decimalUpTo?_toDigits {n limit : Nat} (h : n ≤ limit) : decimalUpTo? limit (Nat.toDigits 10 n) = some n :=
  decimalUpTo?_digits ⟨0, n⟩ h

/-- Only zero has a zero at the front, if there are no zeros before it. -/
theorem toDigits_of_head? {n : Nat} (h : (Nat.toDigits 10 n).head? = some '0') : Nat.toDigits 10 n = ['0'] := by
  have hpos : ∀ n, n ≠ 0 → (Nat.toDigits 10 n).head? ≠ some '0' := by
    intro n
    induction n using Nat.strongRecOn with
    | _ n ih =>
      intro hn
      rcases Nat.lt_or_ge n 10 with hlt | hge
      · rw [Nat.toDigits_of_lt_base hlt]
        exact fun h => (by decide : ∀ d < 10, d ≠ 0 → Nat.digitChar d ≠ '0') n hlt hn (Option.some.inj h)
      · have hrest := ih (n / 10) (by omega) (by omega)
        obtain ⟨c, cs, hc⟩ := List.exists_cons_of_ne_nil (Nat.toDigits_ne_nil : Nat.toDigits 10 (n / 10) ≠ [])
        rw [hc] at hrest
        rw [Nat.toDigits_of_base_le (by decide) hge, hc]
        exact hrest
  obtain rfl : n = 0 := Classical.byContradiction fun hn => hpos n hn h
  rfl

def word (n : Numeral) : Word :=
  ⟨.integer, String.ofList n.digits, by rw [String.toList_ofList]; exact .integer n.digits_ne_nil n.all_digits⟩

end Numeral

/-- A number of elements, in brackets. -/
structure ArraySize where
  numeral : Numeral
  small : numeral.value ≤ Declaration.maxArraySize

def ArraySize.words (s : ArraySize) : List Word := [squareOpen, s.numeral.word, squareClose]

/-- The number of elements. -/
def sizeOf (s : Option ArraySize) : UInt32 := (s.map fun s => .ofNat s.numeral.value).getD 1

/-- A semantic, after a colon. -/
def semanticWords (n : Name) : List Word := [colon, n.word]

/-- The words of an optional part. -/
def optional {α : Type} (words : α → List Word) (a : Option α) : List Word := a.elim [] words

/-! ## Registers -/

/-- A register of some banks. -/
structure Binding (banks : String) where
  bank : Char
  bank_mem : bank ∈ banks.toList
  start : isWordStart bank = true
  slot : Numeral
  small : slot.value ≤ Declaration.maxSlot

namespace Binding
variable {banks : String}

/-- The register that is meant. -/
def register (b : Binding banks) : Register := ⟨b.bank, b.slot.value⟩

def text (b : Binding banks) : String := String.ofList (b.bank :: b.slot.digits)

/-- A word whose second character is a digit is no keyword. -/
theorem ofWord_of_isDigit {c d : Char} {ds : List Char} (hd : d.isDigit = true) :
    Kind.ofWord (String.ofList (c :: d :: ds)) = .identifier := by
  have hne : ∀ word : String, word.toList[1]?.any Char.isDigit = false →
      String.ofList (c :: d :: ds) ≠ word := by
    rintro word hw rfl
    rw [String.toList_ofList, List.getElem?_cons_succ, List.getElem?_cons_zero, Option.any_some, hd] at hw
    cases hw
  rw [Kind.ofWord, if_neg (hne "struct" (by decide)), if_neg, if_neg (hne "register" (by decide))]
  rintro (h | h)
  · exact hne "cbuffer" (by decide) h
  · exact hne "tbuffer" (by decide) h

theorem ofWord_text (b : Binding banks) : Kind.ofWord b.text = .identifier := by
  obtain ⟨d, ds, hd⟩ := List.exists_cons_of_ne_nil b.slot.digits_ne_nil
  have h := b.slot.all_digits
  rw [hd, List.all_cons, Bool.and_eq_true] at h
  rw [text, hd]
  exact ofWord_of_isDigit h.1

theorem isIdentifier_text (b : Binding banks) : isIdentifier b.text = true := by
  have hdigits : b.slot.digits.all isWordChar = true := by
    refine List.all_eq_true.2 fun c hc => ?_
    have hd := List.all_eq_true.1 b.slot.all_digits c hc
    simp only [isWordChar, Char.isAlphanum, hd, Bool.or_true, Bool.true_or]
  simp only [isIdentifier, text, String.toList_ofList, b.start, hdigits, Bool.and_self]

def name (b : Binding banks) : Name := ⟨b.text, b.isIdentifier_text, b.ofWord_text⟩

/-- The words of a register, from the colon on. -/
def words (b : Binding banks) : List Word :=
  [colon, keyword "register" (by decide), bracketOpen, b.name.word, bracketClose]

end Binding

/-! ## Words with matching brackets -/

/-- How many brackets are open after a word, unless it closes one that is not. -/
def nest (opens closes : Word → Bool) (depth : Nat) (w : Word) : Option Nat :=
  if opens w then some (depth + 1)
  else if closes w then (if depth = 0 then none else some (depth - 1))
  else some depth

/-- Every bracket has its counterpart. -/
def Balanced (opens closes : Word → Bool) (ws : List Word) : Prop := ws.foldlM (nest opens closes) 0 = some 0

instance {opens closes : Word → Bool} {ws : List Word} : Decidable (Balanced opens closes ws) :=
  inferInstanceAs (Decidable (_ = _))

/-- A template argument. -/
structure Template where
  inner : List Word
  balanced : Balanced (fun w => w.text == "<") (fun w => w.text == ">") inner

def Template.words (t : Template) : List Word := angleOpen :: (t.inner ++ [angleClose])

/-- The argument as it is reflected, without spaces. -/
def Template.text (t : Template) : String := String.join (t.inner.map Word.text)

/-- The body of a function. -/
structure Body where
  inner : List Word
  balanced : Balanced (fun w => w.kind == .blockOpen) (fun w => w.kind == .blockClose) inner

def Body.words (b : Body) : List Word := blockOpen :: (b.inner ++ [blockClose])

/-! ## Members and parameters -/

/-- A member of a struct or constant buffer, or a parameter of a type that is reflected. -/
structure Member where
  modifiers : List Name
  modifiers_mem : ∀ m ∈ modifiers, m.text ∈ Declaration.typeModifiers
  type : Name
  name : Name
  size : Option ArraySize
  semantic : Option Name

namespace Member

/-- The words of a member after its modifiers. -/
def bare (m : Member) : List Word :=
  m.type.word :: m.name.word :: (optional ArraySize.words m.size ++ optional semanticWords m.semantic)

def words (m : Member) : List Word := m.modifiers.map Name.word ++ m.bare

/-- What is reflected of a member. -/
def spec (m : Member) : MemberSpec := ⟨m.type.text, m.name.text, m.semantic.map Name.text, sizeOf m.size⟩

/-- A member with its type. -/
def resolved (types : TypeTable) (m : Member) : ShaderBuild.Member :=
  ⟨.ofNat (types.types.findIdx (·.name == m.type.text)), m.name.text, m.semantic.map Name.text, sizeOf m.size⟩

/-- Members in braces. -/
def list (ms : List Member) : List Word :=
  blockOpen :: (ms.flatMap (fun m => m.words ++ [semicolon]) ++ [blockClose])

end Member

/-- A parameter of a resource, stream or patch type, which is not reflected. -/
structure Unreflected where
  type : Name
  unreflected : (ResourceKind.ofKeyword? type.text).isSome ∨ type.text ∈ Declaration.stageTypes
  argument : Option Template
  name : Name
  size : Option ArraySize
  semantic : Option Name

def Unreflected.words (u : Unreflected) : List Word :=
  u.type.word :: (optional Template.words u.argument ++
    u.name.word :: (optional ArraySize.words u.size ++ optional semanticWords u.semantic))

/-- A parameter. -/
structure Parameter where
  modifiers : List Name
  modifiers_mem : ∀ m ∈ modifiers, m.text ∈ Declaration.typeModifiers
  primitives : List Name
  primitives_mem : ∀ m ∈ primitives, m.text ∈ Declaration.primitiveModifiers
  subject : Member ⊕ Unreflected

namespace Parameter

def words (p : Parameter) : List Word :=
  p.modifiers.map Name.word ++ (p.primitives.map Name.word ++ p.subject.elim Member.words Unreflected.words)

/-- The type of a parameter that is reflected. -/
def type? (p : Parameter) : Option Name := p.subject.elim (fun m => some m.type) fun _ => none

/-- The member that a parameter is reflected as. -/
def resolved (types : TypeTable) (p : Parameter) : Option ShaderBuild.Member :=
  p.subject.elim (fun m => some (m.resolved types)) fun _ => none

end Parameter

/-- The parameters of a function. -/
inductive Parameters where
  | none
  | void
  | some (first : Parameter) (others : List Parameter)

namespace Parameters

def list : Parameters → List Parameter
  | none => []
  | void => []
  | some first others => first :: others

def inner : Parameters → List Word
  | none => []
  | void => [keyword "void" (by decide)]
  | some first others => first.words ++ others.flatMap fun p => comma :: p.words

def words (ps : Parameters) : List Word := bracketOpen :: (ps.inner ++ [bracketClose])

end Parameters

/-! ## Names of types -/

/-- A word that starts no other declaration and no other parameter, so that it can be a type. -/
structure Ordinary (word : String) : Prop where
  modifier : word ∉ Declaration.typeModifiers
  primitive : word ∉ Declaration.primitiveModifiers
  stage : word ∉ Declaration.stageTypes
  resource : ResourceKind.ofKeyword? word = none
  void : word ≠ "void"

/-- The name of a struct is new, and means nothing else. -/
structure Fresh (types : TypeTable) (name : Name) : Prop where
  unknown : types.contains name.text = false
  ordinary : Ordinary name.text

theorem ordinary_iff {word : String} :
    Ordinary word ↔ word ∉ Declaration.typeModifiers ∧ word ∉ Declaration.primitiveModifiers ∧
      word ∉ Declaration.stageTypes ∧ ResourceKind.ofKeyword? word = none ∧ word ≠ "void" :=
  ⟨fun h => ⟨h.modifier, h.primitive, h.stage, h.resource, h.void⟩,
    fun ⟨modifier, primitive, stage, resource, void⟩ => ⟨modifier, primitive, stage, resource, void⟩⟩

instance {word : String} : Decidable (Ordinary word) := decidable_of_iff _ ordinary_iff.symm

instance {types : TypeTable} {name : Name} : Decidable (Fresh types name) :=
  decidable_of_iff (types.contains name.text = false ∧ Ordinary name.text)
    ⟨fun h => ⟨h.1, h.2⟩, fun h => ⟨h.1, h.2⟩⟩

/-! ## Declarations -/

/-- The two keywords of constant buffers. -/
inductive BufferKeyword where
  | cbuffer
  | tbuffer

def BufferKeyword.word : BufferKeyword → Word
  | cbuffer => keyword "cbuffer" (by decide)
  | tbuffer => keyword "tbuffer" (by decide)

/-- A function, with a body or without. -/
structure Function where
  /-- Nothing for `void`. -/
  returns : Option Name
  name : Name
  parameters : Parameters
  semantic : Option Name
  body : Option Body

/-- A global variable, which is not reflected. -/
structure Global where
  type : Name
  name : Name
  rest : List Word
  rest_kind : ∀ w ∈ rest, w.kind ≠ .semicolon
  rest_head : ∀ w ∈ rest.head?, w.kind ≠ .bracketOpen

/-- A declaration as it is written. -/
inductive Declaration where
  | struct (name : Name) (members : List Member)
  | constants (keyword : BufferKeyword) (name : Name)
      (register : Option (Binding ShaderBuild.Declaration.bufferBanks)) (members : List Member) (closed : Bool)
  | resource (kind : ResourceKind) (argument : Option Template) (name : Name) (size : Option ArraySize)
      (register : Option (Binding ShaderBuild.Declaration.resourceBanks))
  | function (f : Function)
  | global (g : Global)

/-- The type that something returns. -/
def returnWord (n : Option Name) : Word := n.elim (keyword "void" (by decide)) Name.word

theorem isIdentifier_keyword (k : ResourceKind) : isIdentifier k.keyword = true := by cases k <;> decide

def Function.words (f : Function) : List Word :=
  returnWord f.returns :: f.name.word ::
    (f.parameters.words ++ (optional semanticWords f.semantic ++ f.body.elim [semicolon] Body.words))

/-- What is reflected of a function. -/
def Function.resolved (types : TypeTable) (line : UInt32) (f : Function) : ShaderBuild.Function :=
  ⟨f.name.text, f.returns.map fun n => .ofNat (types.types.findIdx (·.name == n.text)), f.semantic.map Name.text,
    f.parameters.list.filterMap (Parameter.resolved types), line⟩

namespace Declaration

/-- The words of a declaration. -/
def words : Declaration → List Word
  | struct name members => keyword "struct" (by decide) :: name.word :: (Member.list members ++ [semicolon])
  | constants buffer name register members closed =>
    buffer.word :: name.word ::
      (optional Binding.words register ++ (Member.list members ++ if closed then [semicolon] else []))
  | resource kind argument name size register =>
    keyword kind.keyword (isIdentifier_keyword kind) :: (optional Template.words argument ++
      name.word :: (optional ArraySize.words size ++ (optional Binding.words register ++ [semicolon])))
  | function f => f.words
  | global g => g.type.word :: g.name.word :: (g.rest ++ [semicolon])

/-! ## What is declared -/

/-- The types that are known after a declaration. -/
def after (types : TypeTable) : Declaration → TypeTable
  | struct name members =>
    let resolved := members.map (Member.resolved types)
    (types.insert (.composite name.text resolved (types.membersSize resolved))).2
  | _ => types

/-- A declaration fits where these types are known: the name of a struct is fresh, and the types of
members, parameters, functions and variables are known. -/
def Fits (types : TypeTable) : Declaration → Prop
  | struct name members => Fresh types name ∧ ∀ m ∈ members, types.contains m.type.text = true
  | constants _ _ _ members _ => ∀ m ∈ members, types.contains m.type.text = true
  | resource _ _ _ _ _ => True
  | function f =>
    (∀ n ∈ f.returns, types.contains n.text = true) ∧
      ∀ p ∈ f.parameters.list, ∀ n ∈ p.type?, types.contains n.text = true
  | global g => types.contains g.type.text = true

instance {types : TypeTable} : (d : Declaration) → Decidable (d.Fits types)
  | struct _ _ => inferInstanceAs (Decidable (_ ∧ _))
  | constants _ _ _ members _ => inferInstanceAs (Decidable (∀ m ∈ members, _))
  | resource _ _ _ _ _ => inferInstanceAs (Decidable True)
  | function _ => inferInstanceAs (Decidable (_ ∧ _))
  | global _ => inferInstanceAs (Decidable (_ = _))

/-- What is read of a declaration that starts on some line. -/
def read (types : TypeTable) (line : UInt32) : Declaration → ShaderBuild.Declaration
  | struct name members => .struct line name.text (members.map Member.spec)
  | constants _ name register members _ =>
    .constants line name.text (register.map Binding.register) (members.map Member.spec)
  | resource kind argument name size register =>
    .resource ⟨name.text, kind, argument.map Template.text, sizeOf size, register.map Binding.register, line⟩
  | function f => .function (f.resolved types line)
  | global _ => .other

/-- Each declaration fits after those before it. -/
def FitAll : TypeTable → List Declaration → Prop
  | _, [] => True
  | types, d :: ds => d.Fits types ∧ FitAll (d.after types) ds

instance decidableFitAll : (types : TypeTable) → (ds : List Declaration) → Decidable (FitAll types ds)
  | _, [] => inferInstanceAs (Decidable True)
  | types, d :: ds =>
    have := decidableFitAll (d.after types) ds
    inferInstanceAs (Decidable (_ ∧ _))

end Declaration

/-- A declaration where it stands: the line that it starts on, and the types that are known before it. -/
structure Standing where
  line : UInt32
  types : TypeTable
  declaration : Declaration

namespace Standing

/-- The constant buffer that is declared. -/
def constantBuffer? (s : Standing) : Option ConstantBuffer :=
  match s.declaration with
  | .constants _ name register members _ =>
    let resolved := members.map (Member.resolved s.types)
    some ⟨name.text, register.map Binding.register, resolved, s.types.membersSize resolved, s.line⟩
  | _ => none

/-- The resource that is declared. -/
def resource? (s : Standing) : Option Resource :=
  match s.declaration with
  | .resource kind argument name size register =>
    some ⟨name.text, kind, argument.map Template.text, sizeOf size, register.map Binding.register, s.line⟩
  | _ => none

/-- The function that is declared. -/
def function? (s : Standing) : Option ShaderBuild.Function :=
  match s.declaration with
  | .function f => some (f.resolved s.types s.line)
  | _ => none

/-- The kind and name of what is declared, of which only the first counts. -/
def key? (s : Standing) : Option (DeclarationKind × String) :=
  match s.declaration with
  | .constants _ name _ _ _ => some (.constantBuffer, name.text)
  | .resource _ _ name _ _ => some (.resource, name.text)
  | .function f => some (.function, f.name.text)
  | _ => none

end Standing

/-- A declaration as it is placed in a text. -/
structure Placed where
  declaration : Declaration
  laid : List Laid
  laid_words : laid.map Laid.word = declaration.words

namespace Placed

/-- The words of some declarations, with their gaps. -/
def all (ps : List Placed) : List Laid := ps.flatMap Placed.laid

/-- A text of some declarations. -/
def source (ps : List Placed) (trailing : List Char) : String := String.ofList (Laid.chars (all ps) ++ trailing)

/-- The line that a declaration starts on, if the gap before it starts on `line`. -/
def start (line : UInt32) (p : Placed) : UInt32 := line + lineFeeds ((p.laid.head?.map Laid.gap).getD [])

/-- The types that are known after some declarations. -/
def types (before : TypeTable) (ps : List Placed) : TypeTable :=
  ps.foldl (fun types p => p.declaration.after types) before

/-- Where some declarations stand, if the gap before the first one starts on `line`. -/
def standing : UInt32 → TypeTable → List Placed → List Standing
  | _, _, [] => []
  | line, types, p :: ps =>
    ⟨p.start line, types, p.declaration⟩ ::
      standing (line + lineFeeds (Laid.chars p.laid)) (p.declaration.after types) ps

end Placed

/-! ## The interface of some declarations -/

/-- The names that were there before, in the order of a list. -/
def repeated {α : Type} [DecidableEq α] : List α → List α → List α
  | _, [] => []
  | before, a :: as => (if a ∈ before then [a] else []) ++ repeated (before ++ [a]) as

/-- The warnings about some declarations after others. -/
def warnings (before ss : List Standing) : List Warning :=
  (repeated (before.filterMap Standing.key?) (ss.filterMap Standing.key?)).map fun (kind, name) =>
    .duplicate kind name

/-- What is kept of some declarations: the first one of each name, in the order of the names. -/
structure Firsts {α : Type} (name : α → String) (declared kept : List α) : Prop where
  first : ∀ n, kept.find? (name · == n) = declared.find? (name · == n)
  sorted : kept.Pairwise fun a b => name a < name b

/-- An interface has what some declarations declare besides types. -/
structure Reflects (i : Interface) (ss : List Standing) : Prop where
  constantBuffers : Firsts ConstantBuffer.name (ss.filterMap Standing.constantBuffer?) i.constantBuffers
  resources : Firsts Resource.name (ss.filterMap Standing.resource?) i.resources
  functions : Firsts ShaderBuild.Function.name (ss.filterMap Standing.function?) i.functions

end ShaderBuild.Written
