import ShaderBuild.Bytes
import ShaderBuild.Macro.Expand
/-!
# Expanding a text octet by octet

The expansion of a text as it is stored. A piece goes from one offset to another, and its end is found by looking at
single octets, so an offset on the way can be inside a character. What is copied or looked up is cut out of the text
between two offsets, and neither of these may be inside a character (`slice?`).
-/

namespace ShaderBuild

namespace Octet

/-- The octets of ASCII digits. -/
def isDigit (b : UInt8) : Bool := '0'.toUInt8 ≤ b && b ≤ '9'.toUInt8

/-- The octets of ASCII letters. -/
def isLetter (b : UInt8) : Bool :=
  ('A'.toUInt8 ≤ b && b ≤ 'Z'.toUInt8) || ('a'.toUInt8 ≤ b && b ≤ 'z'.toUInt8)

/-- The octets that a word starts with. -/
def isWordStart (b : UInt8) : Bool := isLetter b || b == '_'.toUInt8

/-- The octets that a word goes on with. -/
def isWordPart (b : UInt8) : Bool := isLetter b || isDigit b || b == '_'.toUInt8

theorem isWordPart_of_isWordStart {b : UInt8} (h : isWordStart b = true) : isWordPart b = true := by
  simp only [isWordStart, isWordPart, Bool.or_eq_true] at h ⊢
  exact h.imp_left .inl

theorem isWordPart_of_isDigit {b : UInt8} (h : isDigit b = true) : isWordPart b = true := by
  simp only [isWordPart, Bool.or_eq_true]
  exact .inl (.inr h)

/-- The octets that start a literal, a word or a number. -/
def isDelimiter (b : UInt8) : Bool := b == '"'.toUInt8 || isWordPart b

end Octet

namespace Bytes

/-- The offset behind a run of octets that satisfy `p`. -/
def runEnd (p : UInt8 → Bool) (bytes : Bytes) (i : Nat) : Nat :=
  match _h : bytes[i]? with
  | none => i
  | some b => if p b then runEnd p bytes (i + 1) else i
termination_by bytes.length - i
decreasing_by
  have := (List.getElem?_eq_some_iff.mp _h).1
  omega

/-- The offset behind a literal, from one behind its opening quote on. A backslash takes the octet after it along. -/
def literalEnd (bytes : Bytes) (i : Nat) : Nat :=
  match _h : bytes[i]? with
  | none => i
  | some b =>
    if b = '\\'.toUInt8 ∧ i + 1 < bytes.length then literalEnd bytes (i + 2)
    else if b = '"'.toUInt8 then i + 1
    else literalEnd bytes (i + 1)
termination_by bytes.length - i
decreasing_by
  all_goals
    have := (List.getElem?_eq_some_iff.mp _h).1
    omega

/-- The offset behind the piece that starts at an offset with an octet. -/
def pieceEnd (bytes : Bytes) (start : Nat) (first : UInt8) : Nat :=
  if first = '"'.toUInt8 then min (literalEnd bytes (start + 1)) bytes.length
  else if Octet.isWordStart first then runEnd Octet.isWordPart bytes start
  else if Octet.isDigit first then runEnd Octet.isWordPart bytes start
  else runEnd (!Octet.isDelimiter ·) bytes (start + 1)

theorem le_runEnd (p : UInt8 → Bool) (bytes : Bytes) (i : Nat) : i ≤ runEnd p bytes i := by
  fun_induction runEnd p bytes i <;> omega

theorem runEnd_of_pos {p : UInt8 → Bool} {bytes : Bytes} {i : Nat} {b : UInt8} (hb : bytes[i]? = some b)
    (hp : p b = true) : runEnd p bytes i = runEnd p bytes (i + 1) := by
  rw [runEnd]
  split
  · next h => rw [h] at hb; cases hb
  · next b' h =>
    rw [h] at hb
    rw [Option.some.inj hb, if_pos hp]

theorem le_literalEnd (bytes : Bytes) (i : Nat) : i ≤ literalEnd bytes i := by
  fun_induction literalEnd bytes i <;> omega

/-- A piece has at least one octet. -/
theorem lt_pieceEnd {bytes : Bytes} {start : Nat} {first : UInt8} (h : bytes[start]? = some first) :
    start < pieceEnd bytes start first := by
  have hlength := (List.getElem?_eq_some_iff.mp h).1
  have hword : Octet.isWordPart first = true → start < runEnd Octet.isWordPart bytes start := fun hp => by
    rw [runEnd_of_pos h hp]
    exact le_runEnd _ bytes (start + 1)
  unfold pieceEnd
  split
  · have := le_literalEnd bytes (start + 1)
    omega
  · split
    · next hs => exact hword (Octet.isWordPart_of_isWordStart hs)
    · split
      · next hd => exact hword (Octet.isWordPart_of_isDigit hd)
      · exact le_runEnd _ bytes (start + 1)

end Bytes

/-- The part of a text between two offsets. There is none if the second offset is before the first one or behind the
text, or if one of them is inside a character. -/
def slice? (text : String) (start stop : Nat) : Option String :=
  if h : start ≤ stop ∧ String.Pos.Raw.IsValid text ⟨start⟩ ∧ String.Pos.Raw.IsValid text ⟨stop⟩ then
    some (text.extract ⟨⟨start⟩, h.2.1⟩ ⟨⟨stop⟩, h.2.2⟩)
  else none

namespace MacroTable

/-- The expansion of a text from an offset on, inside the expansions of the macros in `active`. There is none if a
piece cannot be cut out of a text. -/
def expandFrom? (t : MacroTable) (active : List String) (text : String) (start : Nat) : Option String :=
  match _hs : (Bytes.ofText text)[start]? with
  | none => some ""
  | some first =>
    let stop := Bytes.pieceEnd (Bytes.ofText text) start first
    (slice? text start stop).bind fun part =>
      let expanded? :=
        if Octet.isWordStart first then
          match _hv : t.get? part with
          | none => some part
          | some value => if _ha : part ∈ active then some part else t.expandFrom? (part :: active) value 0
        else some part
      expanded?.bind fun expanded => (t.expandFrom? active text stop).map (expanded ++ ·)
termination_by ((t.idle active).length, (Bytes.ofText text).length - start)
decreasing_by
  · exact Prod.Lex.left _ _ (length_idle_lt (mem_names_of_get? _hv) _ha)
  · have hstop := Bytes.lt_pieceEnd _hs
    have hlength := (List.getElem?_eq_some_iff.mp _hs).1
    exact Prod.Lex.right _ (by omega)

/-- The expansion of a text octet by octet. Without macros it is the text itself. -/
def expandText? (t : MacroTable) (text : String) : Option String :=
  if t.isEmpty then some text else t.expandFrom? [] text 0

end MacroTable

end ShaderBuild
