import ShaderBuild.Json.Lex
/-!
# Reading JSON

A value is read off the front of a list of words. The first argument bounds the number of nested
calls; two for each word are always enough.

A document is a single value with nothing but space around it, by the grammar of JSON: no comma stands
before the end of an array or an object, and a number starts with no zero but zero itself. What nobody
looks into may be nested to any depth, as in the JSON library.
-/

namespace ShaderBuild.Json

mutual

/-- The value at the front, and the words after it. -/
def value : Nat → List Lexeme → Option (Json × List Lexeme)
  | 0, _ => none
  | _ + 1, .null :: ws => some (.null, ws)
  | _ + 1, .bool value :: ws => some (.bool value, ws)
  | _ + 1, .number literal :: ws => some (.number literal, ws)
  | _ + 1, .string literal :: ws => some (.string literal, ws)
  | _ + 1, .openArray :: .closeArray :: ws => some (.array [], ws)
  | fuel + 1, .openArray :: ws => (items fuel ws).map fun (items, ws) => (.array items, ws)
  | _ + 1, .openObject :: .closeObject :: ws => some (.object [], ws)
  | fuel + 1, .openObject :: ws => (fields fuel ws).map fun (fields, ws) => (.object fields, ws)
  | _ + 1, _ => none

/-- The items up to the end of an array, and the words after it. -/
def items : Nat → List Lexeme → Option (List Json × List Lexeme)
  | 0, _ => none
  | fuel + 1, ws =>
    match value fuel ws with
    | some (v, .comma :: ws) => (items fuel ws).map fun (vs, ws) => (v :: vs, ws)
    | some (v, .closeArray :: ws) => some ([v], ws)
    | _ => none

/-- The fields up to the end of an object, and the words after it. -/
def fields : Nat → List Lexeme → Option (List (List Char × Json) × List Lexeme)
  | 0, _ => none
  | fuel + 1, .string key :: .colon :: ws =>
    match value fuel ws with
    | some (v, .comma :: ws) => (fields fuel ws).map fun (vs, ws) => ((key, v) :: vs, ws)
    | some (v, .closeObject :: ws) => some ([(key, v)], ws)
    | _ => none
  | _ + 1, _ => none

end

/-- The value that a text holds, with nothing but space around it. -/
def read? (cs : List Char) : Option Json :=
  match lexemes cs with
  | none => none
  | some ws =>
    match value (2 * ws.length + 1) ws with
    | some (v, []) => some v
    | _ => none

end ShaderBuild.Json
