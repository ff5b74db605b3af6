/-!
# Tokens

A token is a word, a number, a string literal or a single other character, with its kind and the
line that it starts on. Lines are counted from 1 by a counter of 32 bits, which wraps around.
-/

namespace ShaderBuild

/-- The kinds of token. -/
inductive Token.Kind where
  /-- There is no token left. -/
  | endOfInput
  | identifier
  /-- Digits only. -/
  | integer
  /-- Digits, a point, more digits and perhaps an `f`. -/
  | float
  /-- A literal in double quotes, quotes included. -/
  | string
  | struct
  /-- A constant buffer keyword, `cbuffer` or `tbuffer`. -/
  | cbuffer
  | register
  | semicolon
  | colon
  | dot
  | equals
  | comma
  | hash
  | blockOpen
  | blockClose
  | bracketOpen
  | bracketClose
  | squareOpen
  | squareClose
  /-- Any other single character. -/
  | symbol
  deriving DecidableEq, Repr, Inhabited

namespace Token.Kind

/-- The kind of a word: one of the reserved words, or an identifier. -/
def ofWord (word : String) : Kind :=
  if word = "struct" then .struct
  else if word = "cbuffer" ∨ word = "tbuffer" then .cbuffer
  else if word = "register" then .register
  else .identifier

/-- The kind of a character that stands alone. -/
def ofChar (c : Char) : Kind :=
  if c = ';' then .semicolon
  else if c = ':' then .colon
  else if c = '.' then .dot
  else if c = '=' then .equals
  else if c = ',' then .comma
  else if c = '#' then .hash
  else if c = '{' then .blockOpen
  else if c = '}' then .blockClose
  else if c = '(' then .bracketOpen
  else if c = ')' then .bracketClose
  else if c = '[' then .squareOpen
  else if c = ']' then .squareClose
  else .symbol

/-- The name of a kind in diagnostics: the character itself for punctuation. -/
def describe : Kind → String
  | endOfInput => "end of input"
  | identifier => "identifier"
  | integer => "integer"
  | float => "float"
  | string => "string"
  | struct => "struct"
  | cbuffer => "cbuffer"
  | register => "register"
  | semicolon => ";"
  | colon => ":"
  | dot => "."
  | equals => "="
  | comma => ","
  | hash => "#"
  | blockOpen => "\x7b"
  | blockClose => "\x7d"
  | bracketOpen => "("
  | bracketClose => ")"
  | squareOpen => "["
  | squareClose => "]"
  | symbol => "symbol"

end Token.Kind

/-- A token of a source text. -/
structure Token where
  kind : Token.Kind
  text : String
  line : UInt32
  deriving DecidableEq, Repr, Inhabited

namespace Token

/-- The token that stands for the end of a text, on that line. -/
def atEnd (line : UInt32) : Token := ⟨.endOfInput, "", line⟩

/-- There is no token here. -/
def isEnd (t : Token) : Bool := t.kind == .endOfInput

/-- A token as diagnostics name it: quoted, or the end of input. -/
def describe (t : Token) : String :=
  if t.isEnd then "end of input" else "\"" ++ t.text ++ "\""

end Token

end ShaderBuild
