import ShaderBuild.Macro
import ShaderBuild.Text.Blank
/-!
# Macro expansion

A text is cut into words and other pieces; string literals and numbers are pieces of their own, so
that no macro reaches into them. A word that names a macro is replaced by the expansion of its
value, in which that macro is no longer replaced. Every replacement uses up a name of the table, so
expansion ends for every table.
-/

namespace ShaderBuild.MacroTable

open Text

/-- A piece of a text: a word that may name a macro, or text that is copied. -/
inductive Piece where
  | word (text : List Char)
  | verbatim (text : List Char)
  deriving DecidableEq, Repr

/-- The characters of a piece. -/
def Piece.text : Piece → List Char
  | .word text => text
  | .verbatim text => text

/-- The rest of a quoted literal after its opening quote, and what follows it. A backslash takes
the character after it along. -/
def quoted : List Char → List Char × List Char
  | [] => ([], [])
  | '"' :: rest => (['"'], rest)
  | '\\' :: c :: rest =>
    let (body, after) := quoted rest
    ('\\' :: c :: body, after)
  | c :: rest =>
    let (body, after) := quoted rest
    (c :: body, after)

/-- A run of characters that start no word, number or literal. -/
def isFiller (c : Char) : Bool := !(c == '"' || isWordChar c)

/-- The piece that starts with `c`, and what follows it. -/
def piece (c : Char) (cs : List Char) : Piece × List Char :=
  if c = '"' then
    let (body, after) := quoted cs
    (.verbatim ('"' :: body), after)
  else if isWordStart c then
    (.word (c :: cs.takeWhile isWordChar), cs.dropWhile isWordChar)
  else if c.isDigit then
    (.verbatim (c :: cs.takeWhile isWordChar), cs.dropWhile isWordChar)
  else
    (.verbatim (c :: cs.takeWhile isFiller), cs.dropWhile isFiller)

theorem quoted_append (cs : List Char) : (quoted cs).1 ++ (quoted cs).2 = cs := by
  fun_induction quoted cs <;> simp_all

/-- A piece and what follows it make up the text. -/
theorem piece_append (c : Char) (cs : List Char) :
    (piece c cs).1.text ++ (piece c cs).2 = c :: cs := by
  unfold piece
  split
  · next h => simp [Piece.text, quoted_append, h]
  · split
    · simp [Piece.text, List.takeWhile_append_dropWhile]
    · split <;> simp [Piece.text, List.takeWhile_append_dropWhile]

theorem length_piece_lt (c : Char) (cs : List Char) :
    (piece c cs).2.length < (c :: cs).length := by
  unfold piece
  split
  · have h := congrArg List.length (quoted_append cs)
    simp only [List.length_append] at h
    simp only [List.length_cons]
    omega
  · have h1 := length_dropWhile_le isWordChar cs
    have h2 := length_dropWhile_le isFiller cs
    split
    · simp only [List.length_cons]; omega
    · split <;> simp only [List.length_cons] <;> omega

/-- The pieces of a text, in order. -/
def pieces : List Char → List Piece
  | [] => []
  | c :: cs => (piece c cs).1 :: pieces (piece c cs).2
termination_by cs => cs.length
decreasing_by exact length_piece_lt c cs

/-- The macros that can still be replaced while those in `active` are being expanded. -/
def idle (t : MacroTable) (active : List String) : List String :=
  t.names.filter (!active.contains ·)

theorem length_idle_lt {t : MacroTable} {active : List String} {name : String}
    (hn : name ∈ t.names) (ha : name ∉ active) :
    (t.idle (name :: active)).length < (t.idle active).length := by
  have hsub : (t.idle (name :: active)) = (t.idle active).filter (· != name) := by
    simp only [idle, List.filter_filter]
    congr 1
    funext x
    by_cases hx : x = name <;> simp [hx]
  rw [hsub]
  exact List.length_filter_lt_length_iff_exists.mpr
    ⟨name, by simp [idle, hn, ha], by simp⟩

/-- The expansion of a text inside the expansions of the macros in `active`. -/
def expandWithin (t : MacroTable) (active : List String) (cs : List Char) : List Char :=
  (pieces cs).flatMap fun
    | .verbatim text => text
    | .word text =>
      match _h : t.get? (String.ofList text) with
      | none => text
      | some value =>
        if _ha : String.ofList text ∈ active then text
        else expandWithin t (String.ofList text :: active) value.toList
termination_by (t.idle active).length
decreasing_by exact length_idle_lt (mem_names_of_get? _h) _ha

/-- The expansion of a text. Without macros it is the text itself. -/
def expand (t : MacroTable) (cs : List Char) : List Char :=
  if t.isEmpty then cs else expandWithin t [] cs

end ShaderBuild.MacroTable
