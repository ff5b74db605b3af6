import ShaderBuild.Json
import ShaderBuild.Text.Decimal
/-!
# JSON literals

Strings and numbers as they are written in JSON. Writing escapes what has to be escaped; reading
understands every escape, and refuses half of a surrogate pair.

What is escaped is what the JSON library documents: quotes, backslashes and the characters below
the space, the last ones by a letter where there is one and else by four lowercase digits. Slashes and
characters beyond ASCII stay as they are. Records are read as its derived readers do it: from an object
with its keys in any order, of which those that are not known are passed over and no other may come
twice, or from an array with the values in the order of the fields. A natural number is read if it has
no sign, point and exponent and fits the width of its field.
-/

namespace ShaderBuild.Json

/-- A character as it is written in a string. -/
def escapeChar (c : Char) : List Char :=
  if c = '"' then ['\\', '"']
  else if c = '\\' then ['\\', '\\']
  else if c = '\x08' then ['\\', 'b']
  else if c = '\x0c' then ['\\', 'f']
  else if c = '\n' then ['\\', 'n']
  else if c = '\r' then ['\\', 'r']
  else if c = '\t' then ['\\', 't']
  else if c.toNat < 0x20 then
    ['\\', 'u', '0', '0', Nat.digitChar (c.toNat / 16), Nat.digitChar (c.toNat % 16)]
  else [c]

/-- A text as it is written in a string. -/
def escape (cs : List Char) : List Char := cs.flatMap escapeChar

/-- The value of a hexadecimal digit. -/
def hexDigit? (c : Char) : Option Nat :=
  if '0' ≤ c ∧ c ≤ '9' then some (c.toNat - '0'.toNat)
  else if 'a' ≤ c ∧ c ≤ 'f' then some (c.toNat - 'a'.toNat + 10)
  else if 'A' ≤ c ∧ c ≤ 'F' then some (c.toNat - 'A'.toNat + 10)
  else none

/-- The value of four hexadecimal digits. -/
def hexFour? (a b c d : Char) : Option Nat := do
  let a ← hexDigit? a
  let b ← hexDigit? b
  let c ← hexDigit? c
  let d ← hexDigit? d
  pure (a * 4096 + b * 256 + c * 16 + d)

/-- The character of an escape of a single letter. -/
def shortEscape? (c : Char) : Option Char :=
  if c = '"' ∨ c = '\\' ∨ c = '/' then some c
  else if c = 'b' then some '\x08'
  else if c = 'f' then some '\x0c'
  else if c = 'n' then some '\n'
  else if c = 'r' then some '\r'
  else if c = 't' then some '\t'
  else none

/-- Is this the first half of a surrogate pair? -/
def isLead (n : Nat) : Bool := 0xD800 ≤ n && n ≤ 0xDBFF

/-- Is this the second half of a surrogate pair? -/
def isTrail (n : Nat) : Bool := 0xDC00 ≤ n && n ≤ 0xDFFF

/-- The character of a surrogate pair. -/
def pairChar (lead trail : Nat) : Char :=
  Char.ofNat (0x10000 + (lead - 0xD800) * 0x400 + (trail - 0xDC00))

/-- The text that a string literal stands for. -/
def unescape : List Char → Option (List Char)
  | [] => some []
  | '\\' :: 'u' :: a :: b :: c :: d :: rest =>
    match hexFour? a b c d with
    | none => none
    | some n =>
      if isTrail n then none
      else if isLead n then
        match rest with
        | '\\' :: 'u' :: e :: f :: g :: h :: rest =>
          match hexFour? e f g h with
          | none => none
          | some m => if isTrail m then (unescape rest).map (pairChar n m :: ·) else none
        | _ => none
      else (unescape rest).map (Char.ofNat n :: ·)
  | '\\' :: c :: rest =>
    match shortEscape? c with
    | none => none
    | some c => (unescape rest).map (c :: ·)
  | c :: rest => if c = '\\' then none else (unescape rest).map (c :: ·)

/-- The string that holds a text. -/
def ofText (text : String) : Json := .string (escape text.toList)

/-- The number that a natural number is written as. -/
def ofNat (n : Nat) : Json := .number n.repr.toList

/-- The text that a string holds. -/
def text? : Json → Option String
  | .string literal => (unescape literal).map String.ofList
  | _ => none

/-- A number without sign, fraction and exponent that is at most `limit`. -/
def natural? (limit : Nat) : Json → Option Nat
  | .number literal => Text.decimalUpTo? limit literal
  | _ => none

/-- A truth value. -/
def bool? : Json → Option Bool
  | .bool value => some value
  | _ => none

/-- The items of an array, each read by `item`. -/
def listOf? {α : Type} (item : Json → Option α) : Json → Option (List α)
  | .array items => items.mapM item
  | _ => none

/-! ## Records -/

/-- The values of the fields of a record: those of an object with these keys, or the items of an
array in this order. Other keys do not matter, but none of these may come twice. -/
def record? (names : List String) : Json → Option (List (Option Json))
  | .array items =>
    if items.length ≤ names.length then some (names.zipIdx.map fun (_, i) => items[i]?) else none
  | .object fields => do
    let named ← fields.mapM fun (key, v) => (unescape key).map fun key => (String.ofList key, v)
    if names.all fun name => (named.filter (·.1 == name)).length ≤ 1 then
      some (names.map fun name => List.lookup name named)
    else none
  | _ => none

/-- The value of a field that may be missing, or null instead. -/
def optional? {α : Type} (read : Json → Option α) : Option Json → Option (Option α)
  | none => some none
  | some .null => some none
  | some v => (read v).map some

end ShaderBuild.Json
