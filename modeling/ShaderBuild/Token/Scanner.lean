import ShaderBuild.Token.Scan
/-!
# A cursor over the tokens of a text

A `Scanner` holds a text, the part of it that is still unread, the line of that part and the token
read last. Looking ahead leaves the cursor where it is.
-/

namespace ShaderBuild

/-- A cursor over the tokens of `source`. -/
structure Scanner where
  source : List Char
  /-- What has not been read. -/
  rest : List Char
  /-- The line that `rest` starts on. -/
  line : UInt32
  /-- The token read last. -/
  current : Token
  deriving DecidableEq, Repr

namespace Scanner

/-- A cursor before the first token. -/
def start (source : List Char) : Scanner := ⟨source, source, 1, Token.atEnd 1⟩

/-- A cursor before the first token of a source text. -/
def ofSource (source : String) : Scanner := start source.toList

/-- Back to the first token. -/
def reset (s : Scanner) : Scanner := start s.source

/-- Read a token. -/
def next (s : Scanner) : Token × Scanner :=
  let found := Token.scan s.line s.rest
  (found.token, { s with rest := found.rest, line := found.line, current := found.token })

/-- The token that `next` would read. -/
def peek (s : Scanner) : Token := s.next.1

/-- Is there a token left? -/
def hasNext (s : Scanner) : Bool := !s.peek.isEnd

/-- Is the next token of this kind? -/
def isNext (s : Scanner) (kind : Token.Kind) : Bool := s.peek.kind == kind

/-- Read the next token if it is of this kind. -/
def nextIf (s : Scanner) (kind : Token.Kind) : Bool × Scanner :=
  if s.isNext kind then (true, s.next.2) else (false, s)

/-- Read a token, and say whether it is of this kind. It is read either way. -/
def tryNext (s : Scanner) (kind : Token.Kind) : Except Token Token × Scanner :=
  let (token, s) := s.next
  (if token.kind = kind then .ok token else .error token, s)

end Scanner

end ShaderBuild
