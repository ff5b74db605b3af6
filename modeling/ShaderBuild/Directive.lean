import ShaderBuild.Error
import ShaderBuild.Text.Blank
/-!
# Lines and directives

A source is processed line by line. A line whose first character that is not blank is `#` is a
directive, any other is text.
-/

namespace ShaderBuild

open Text

/-- A line: what it says, and the characters that end it. -/
structure Line where
  body : List Char
  ending : List Char
  deriving DecidableEq, Repr

namespace Line

/-- A line that ends in a line feed. A carriage return before it belongs to the ending. -/
def terminated (cs : List Char) : Line :=
  if cs.getLast? = some '\r' then ⟨cs.dropLast, ['\r', '\n']⟩ else ⟨cs, ['\n']⟩

/-- The lines of a text. The last one may lack an ending. -/
def list (cs : List Char) : List Line :=
  match _h : cs.dropWhile (· != '\n') with
  | [] => if cs = [] then [] else [⟨cs, []⟩]
  | _ :: rest => terminated (cs.takeWhile (· != '\n')) :: list rest
termination_by cs.length
decreasing_by
  have := length_dropWhile_le (· != '\n') cs
  rw [_h] at this
  exact this

/-- All characters of a line. -/
def text (l : Line) : List Char := l.body ++ l.ending

end Line

/-- What an include directive refers to. -/
inductive Reference where
  /-- A file seen from the directory of the including file. -/
  | relative (path : Path)
  /-- A file in one of the include directories. -/
  | search (path : Path)
  deriving DecidableEq, Repr

/-- A directive. -/
inductive Directive where
  | includeFile (reference : Reference)
  | define (name value : String)
  | undefine (name : String)
  /-- Open a conditional, on the macro being defined or on its being undefined. -/
  | openIf (defined : Bool) (name : String)
  | otherwise
  | close
  /-- A directive that lacks something. In hidden text it matters only if it would open a
  conditional. -/
  | invalid (fault : DirectiveFault) (opensConditional : Bool)
  | unknown (line : String)
  deriving DecidableEq, Repr

namespace Reference

/-- What stands between the first `left` and the last `right`, if `right` comes after `left`. -/
def between? (left right : Char) (cs : List Char) : Option (List Char) :=
  match cs.dropWhile (· != left) with
  | [] => none
  | _ :: rest =>
    match rest.reverse.dropWhile (· != right) with
    | [] => none
    | _ :: inner => some inner.reverse

/-- The reference in the arguments of an include directive. -/
def ofArguments? (cs : List Char) : Option Reference :=
  match between? '"' '"' cs with
  | some path => some (.relative ⟨String.ofList path⟩)
  | none => (between? '<' '>' cs).map fun path => .search ⟨String.ofList path⟩

end Reference

namespace Directive

/-- The directive of some command, with its arguments. `line` is the line without the blanks around
it. -/
def ofCommand (line : String) (command : String) (arguments : List Char) : Directive :=
  let name := String.ofList (splitWord arguments).1
  let missingName (opensConditional : Bool) : Directive :=
    .invalid (.missingName command) opensConditional
  if command = "include" then
    match Reference.ofArguments? arguments with
    | some reference => .includeFile reference
    | none => .invalid (.malformedInclude line) false
  else if command = "define" then
    if name = "" then missingName false
    else .define name (String.ofList (trim (splitWord arguments).2))
  else if command = "undef" then
    if name = "" then missingName false else .undefine name
  else if command = "ifdef" then
    if name = "" then missingName true else .openIf true name
  else if command = "ifndef" then
    if name = "" then missingName true else .openIf false name
  else if command = "else" then .otherwise
  else if command = "endif" then .close
  else .unknown line

/-- The directive that a line holds, unless it is text. -/
def ofLine? (body : List Char) : Option Directive :=
  match trim body with
  | '#' :: rest =>
    let (command, arguments) := splitWord rest
    some (ofCommand (String.ofList ('#' :: rest)) (String.ofList command) arguments)
  | _ => none

end Directive

end ShaderBuild
