/-!
# Comments

A line comment runs from `//` to the end of its line, which it does not include. A block comment
runs from `/*` to the next `*/`, or to the end of the text. Quotes have no meaning here.
-/

namespace ShaderBuild.Comment

/-- Where a reader of the text is. -/
inductive Place where
  | code
  | line
  | block
  deriving DecidableEq, Repr

/-- What is left of a text without its comments, from a place in it. -/
def stripFrom : Place → List Char → List Char
  | _, [] => []
  | .code, '/' :: '*' :: rest => stripFrom .block rest
  | .code, '/' :: '/' :: rest => stripFrom .line rest
  | .code, c :: rest => c :: stripFrom .code rest
  | .block, '*' :: '/' :: rest => stripFrom .code rest
  | .block, _ :: rest => stripFrom .block rest
  | .line, '\n' :: rest => '\n' :: stripFrom .code rest
  | .line, _ :: rest => stripFrom .line rest

/-- A text without its comments. -/
def strip (cs : List Char) : List Char := stripFrom .code cs

end ShaderBuild.Comment
