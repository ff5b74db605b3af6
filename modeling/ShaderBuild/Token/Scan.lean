import ShaderBuild.Text.Blank
import ShaderBuild.Token
/-!
# Splitting a text into tokens

`lexeme` cuts the longest token off the front of a text that starts with no gap, and `scan` skips
the gap before it and counts lines. Nothing is lost (`lexeme_append`), a token is never empty
(`lexeme_ne_nil`), and so `Token.list` ends on the length of the text.
-/

namespace ShaderBuild.Token

open Text

/-- The rest of a string literal after its opening quote, and what follows it. The literal ends
with the first quote that no backslash stands directly before, or with the text. -/
def literalBody : List Char → List Char × List Char
  | [] => ([], [])
  | '"' :: rest => (['"'], rest)
  | '\\' :: '"' :: rest =>
    let (body, after) := literalBody rest
    ('\\' :: '"' :: body, after)
  | c :: rest =>
    let (body, after) := literalBody rest
    (c :: body, after)

/-- A token cut off the front of a text: its kind, its characters and what follows it. -/
structure Lexeme where
  kind : Kind
  text : List Char
  rest : List Char
  deriving DecidableEq, Repr

/-- The number at the front of a text. A point directly after the digits makes it a float,
whatever follows the point. -/
def number (cs : List Char) : Lexeme :=
  let whole := cs.takeWhile Char.isDigit
  match cs.dropWhile Char.isDigit with
  | '.' :: rest =>
    let fraction := rest.takeWhile Char.isDigit
    match rest.dropWhile Char.isDigit with
    | 'f' :: after => ⟨.float, whole ++ '.' :: (fraction ++ ['f']), after⟩
    | after => ⟨.float, whole ++ '.' :: fraction, after⟩
  | rest => ⟨.integer, whole, rest⟩

/-- The token that starts with `c`. -/
def lexeme (c : Char) (cs : List Char) : Lexeme :=
  if c.isDigit then number (c :: cs)
  else if isWordStart c then
    let word := (c :: cs).takeWhile isWordChar
    ⟨Kind.ofWord (String.ofList word), word, (c :: cs).dropWhile isWordChar⟩
  else if c = '"' then ⟨.string, '"' :: (literalBody cs).1, (literalBody cs).2⟩
  else ⟨Kind.ofChar c, [c], cs⟩

theorem literalBody_append (cs : List Char) :
    (literalBody cs).1 ++ (literalBody cs).2 = cs := by
  fun_induction literalBody cs <;> simp_all

theorem number_append (cs : List Char) : (number cs).text ++ (number cs).rest = cs := by
  have h := List.takeWhile_append_dropWhile (p := Char.isDigit) (l := cs)
  unfold number
  split
  · next rest hr =>
    have h' := List.takeWhile_append_dropWhile (p := Char.isDigit) (l := rest)
    rw [hr] at h
    split
    · next after ha => rw [ha] at h'; simp [h', h]
    · simp [h', h]
  · exact h

/-- A token and what follows it make up the text. -/
theorem lexeme_append (c : Char) (cs : List Char) :
    (lexeme c cs).text ++ (lexeme c cs).rest = c :: cs := by
  unfold lexeme
  split
  · exact number_append _
  · split
    · exact List.takeWhile_append_dropWhile
    · split
      · next h => simp [literalBody_append, h]
      · simp

theorem isWordChar_of_isWordStart {c : Char} (h : isWordStart c = true) : isWordChar c = true := by
  simp only [isWordStart, isWordChar, Char.isAlphanum, Bool.or_eq_true] at h ⊢
  exact h.imp_left .inl

/-- A token has at least one character. -/
theorem lexeme_ne_nil (c : Char) (cs : List Char) : (lexeme c cs).text ≠ [] := by
  unfold lexeme
  split
  · next h =>
    unfold number
    simp only [List.takeWhile_cons, h, if_true]
    repeat' split
    all_goals simp
  · split
    · next h => simp [isWordChar_of_isWordStart h]
    · split <;> simp

theorem length_lexeme_lt (c : Char) (cs : List Char) :
    (lexeme c cs).rest.length < (c :: cs).length := by
  have h := congrArg List.length (lexeme_append c cs)
  have h' := List.length_pos_iff.mpr (lexeme_ne_nil c cs)
  simp only [List.length_append] at h
  omega

/-- The next token of a text, the line after it, and what follows it. -/
structure Reading where
  token : Token
  line : UInt32
  rest : List Char
  deriving DecidableEq, Repr

/-- Read the next token of a text whose first character is on line `line`. -/
def scan (line : UInt32) (cs : List Char) : Reading :=
  let start := line + lineFeeds (cs.takeWhile isGap)
  match cs.dropWhile isGap with
  | [] => ⟨atEnd start, start, []⟩
  | c :: rest =>
    let found := lexeme c rest
    ⟨⟨found.kind, String.ofList found.text, start⟩, start + lineFeeds found.text, found.rest⟩

theorem length_scan_lt (line : UInt32) (cs : List Char) (h : (scan line cs).token.isEnd = false) :
    (scan line cs).rest.length < cs.length := by
  have hd := length_dropWhile_le isGap cs
  unfold scan at h ⊢
  dsimp only at h ⊢
  split at h
  · simp [atEnd, isEnd] at h
  · next c rest hr =>
    rw [hr] at hd
    simp only
    exact Nat.lt_of_lt_of_le (length_lexeme_lt c rest) hd

/-- All tokens of a text whose first character is on line `line`. -/
def list (line : UInt32) (cs : List Char) : List Token :=
  if _h : (scan line cs).token.isEnd then []
  else (scan line cs).token :: list (scan line cs).line (scan line cs).rest
termination_by cs.length
decreasing_by exact length_scan_lt line cs (by simpa using _h)

/-- A text as its tokens, and the line that it ends on. -/
structure Stream where
  tokens : List Token
  endLine : UInt32
  deriving DecidableEq, Repr

/-- The tokens of a source text. -/
def Stream.ofSource (source : String) : Stream :=
  ⟨list 1 source.toList, 1 + lineFeeds source.toList⟩

end ShaderBuild.Token
