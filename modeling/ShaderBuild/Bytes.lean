/-!
# Bytes and text

The contents of files and the output of programs are lists of bytes. Text is stored as UTF-8;
`Bytes.text?` reads it back and refuses anything else, `Bytes.lossyText` reads what it can.
-/

namespace ShaderBuild

/-- The contents of a file, or the output of a program. -/
abbrev Bytes := List UInt8

namespace Bytes

/-- A text as it is stored. -/
def ofText (text : String) : Bytes := text.toUTF8.data.toList

/-- The text that is stored here, if it is valid UTF-8. -/
def text? (bytes : Bytes) : Option String := String.fromUTF8? ⟨bytes.toArray⟩

@[simp] theorem text?_ofText (text : String) : text? (ofText text) = some text := by
  have h : (⟨(ofText text).toArray⟩ : ByteArray) = text.toUTF8 := by simp [ofText]
  rw [text?, h, String.fromUTF8?]
  exact dif_pos text.isValidUTF8

/-- The bytes that may follow a first byte from 0x80 on: how many there are, and the range of the
first of them. -/
def follow? (lead : UInt8) : Option (Nat × UInt8 × UInt8) :=
  if 0xC2 ≤ lead ∧ lead ≤ 0xDF then some (1, 0x80, 0xBF)
  else if lead = 0xE0 then some (2, 0xA0, 0xBF)
  else if lead = 0xED then some (2, 0x80, 0x9F)
  else if 0xE1 ≤ lead ∧ lead ≤ 0xEF then some (2, 0x80, 0xBF)
  else if lead = 0xF0 then some (3, 0x90, 0xBF)
  else if 0xF1 ≤ lead ∧ lead ≤ 0xF3 then some (3, 0x80, 0xBF)
  else if lead = 0xF4 then some (3, 0x80, 0x8F)
  else none

/-- As many of the next `count` continuation bytes as there are, of which the first lies between
`low` and `high`, and what follows them. -/
def continuation : Nat → UInt8 → UInt8 → Bytes → Bytes × Bytes
  | 0, _, _, bytes => ([], bytes)
  | _ + 1, _, _, [] => ([], [])
  | count + 1, low, high, b :: bytes =>
    if low ≤ b ∧ b ≤ high then
      let (tail, after) := continuation count 0x80 0xBF bytes
      (b :: tail, after)
    else ([], b :: bytes)

theorem length_continuation_le (count : Nat) (low high : UInt8) (bytes : Bytes) :
    (continuation count low high bytes).2.length ≤ bytes.length := by
  fun_induction continuation count low high bytes <;> simp_all
  omega

/-- The character of a first byte and the continuation bytes after it. -/
def decodeChar (lead : UInt8) (tail : Bytes) : Char :=
  let first := lead.toNat % (64 >>> tail.length)
  Char.ofNat (tail.foldl (fun value b => value * 64 + b.toNat % 64) first)

/-- The characters stored here. The longest prefix of a character that cannot be completed, or a
single byte that starts none, reads as the replacement character. -/
def lossyChars : Bytes → List Char
  | [] => []
  | b :: bytes =>
    if b < 0x80 then Char.ofNat b.toNat :: lossyChars bytes
    else
      match follow? b with
      | none => '\uFFFD' :: lossyChars bytes
      | some (count, low, high) =>
        let tail := (continuation count low high bytes).1
        let char := if tail.length = count then decodeChar b tail else '\uFFFD'
        char :: lossyChars (continuation count low high bytes).2
termination_by bytes => bytes.length
decreasing_by
  · simp
  · simp
  · exact Nat.lt_succ_of_le (length_continuation_le ..)

/-- The text stored here, as far as it can be read. -/
def lossyText (bytes : Bytes) : String := String.ofList (lossyChars bytes)

/-- A byte as two lowercase hexadecimal digits. -/
def hexByte (b : UInt8) : List Char := [Nat.digitChar (b.toNat / 16), Nat.digitChar (b.toNat % 16)]

/-- Bytes as lowercase hexadecimal digits. -/
def hex (bytes : Bytes) : String := String.ofList (bytes.flatMap hexByte)

end Bytes

end ShaderBuild
