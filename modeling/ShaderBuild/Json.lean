/-!
# JSON values

A value is kept as it is written: numbers and strings are their literals, and the fields of an
object are in order, also if a key comes twice. So a value that nobody looks into may hold a number
of any size and a string with any escapes.

Documents are printed as the JSON library documents it. In the compact form there is no space at all.
In the other one each item and field stands on a line of its own, two spaces further in than the
container that it is in; a colon is followed by a space, and a container with nothing in it is closed
at once.
-/

namespace ShaderBuild

/-- A JSON value. -/
inductive Json where
  | null
  | bool (value : Bool)
  | number (literal : List Char)
  /-- A string, as it stands between its quotes. -/
  | string (literal : List Char)
  | array (items : List Json)
  | object (fields : List (List Char × Json))
  deriving Repr, Inhabited

namespace Json

/-- A string literal in quotes. -/
def quoted (literal : List Char) : List Char := '"' :: (literal ++ ['"'])

/-- A truth value as it is written. -/
def boolText (value : Bool) : List Char := if value then "true".toList else "false".toList

mutual

/-- A value on one line, without spaces. -/
def compact : Json → List Char
  | null => "null".toList
  | bool value => boolText value
  | number literal => literal
  | string literal => quoted literal
  | array items => '[' :: (compactItems items ++ [']'])
  | object fields => '{' :: (compactFields fields ++ ['}'])

/-- Items with commas between them. -/
def compactItems : List Json → List Char
  | [] => []
  | [v] => compact v
  | v :: vs => compact v ++ ',' :: compactItems vs

/-- Fields with commas between them. -/
def compactFields : List (List Char × Json) → List Char
  | [] => []
  | [(key, v)] => quoted key ++ ':' :: compact v
  | (key, v) :: fields => quoted key ++ ':' :: (compact v ++ ',' :: compactFields fields)

end

/-- A new line with two spaces for every container that is open. -/
def newLine (depth : Nat) : List Char := '\n' :: List.replicate (2 * depth) ' '

mutual

/-- A value with every item and field on a line of its own, inside `depth` containers. -/
def pretty (depth : Nat) : Json → List Char
  | null => "null".toList
  | bool value => boolText value
  | number literal => literal
  | string literal => quoted literal
  | array [] => ['[', ']']
  | array items => '[' :: (prettyItems (depth + 1) items ++ newLine depth ++ [']'])
  | object [] => ['{', '}']
  | object fields => '{' :: (prettyFields (depth + 1) fields ++ newLine depth ++ ['}'])

/-- Items, each on a new line, with commas between them. -/
def prettyItems (depth : Nat) : List Json → List Char
  | [] => []
  | [v] => newLine depth ++ pretty depth v
  | v :: vs => newLine depth ++ pretty depth v ++ ',' :: prettyItems depth vs

/-- Fields, each on a new line, with commas between them. -/
def prettyFields (depth : Nat) : List (List Char × Json) → List Char
  | [] => []
  | [(key, v)] => newLine depth ++ quoted key ++ ':' :: ' ' :: pretty depth v
  | (key, v) :: fields =>
    newLine depth ++ quoted key ++ ':' :: ' ' :: (pretty depth v ++ ',' :: prettyFields depth fields)

end

end Json

end ShaderBuild
