/-!
# White space and words

Two notions of white space are in use. Directive lines are trimmed and split at `blank`
characters, the Unicode property `White_Space`. Tokens are separated by `gap` characters, the five
ASCII ones that source text is laid out with.
-/

namespace ShaderBuild.Text

/-- The characters with the Unicode property `White_Space`. -/
def isBlank (c : Char) : Bool :=
  let n := c.toNat
  (0x09 ≤ n && n ≤ 0x0D) || n == 0x20 || n == 0x85 || n == 0xA0 || n == 0x1680 ||
    (0x2000 ≤ n && n ≤ 0x200A) || n == 0x2028 || n == 0x2029 || n == 0x202F || n == 0x205F ||
    n == 0x3000

/-- Space, tab, line feed, form feed and carriage return. -/
def isGap (c : Char) : Bool :=
  c == ' ' || c == '\t' || c == '\n' || c == '\x0c' || c == '\r'

/-- An identifier starts with an ASCII letter or an underscore. -/
def isWordStart (c : Char) : Bool := c.isAlpha || c == '_'

/-- An identifier goes on with ASCII letters, digits and underscores. -/
def isWordChar (c : Char) : Bool := c.isAlphanum || c == '_'

/-- The number of line feeds in a text. -/
def newlines (cs : List Char) : Nat := cs.count '\n'

@[simp] theorem newlines_nil : newlines [] = 0 := rfl

@[simp] theorem newlines_append (u v : List Char) : newlines (u ++ v) = newlines u + newlines v := by
  simp [newlines]

/-- The number of line feeds in a text as a counter of 32 bits shows it, which wraps around. -/
def lineFeeds (cs : List Char) : UInt32 := .ofNat (newlines cs)

@[simp] theorem lineFeeds_nil : lineFeeds [] = 0 := rfl

@[simp] theorem lineFeeds_append (u v : List Char) : lineFeeds (u ++ v) = lineFeeds u + lineFeeds v := by
  rw [lineFeeds, newlines_append, UInt32.ofNat_add, ← lineFeeds, ← lineFeeds]

/-- A line counter that has not come around shows the number of the line. -/
theorem toNat_one_add_lineFeeds {cs : List Char} (h : newlines cs + 1 < UInt32.size) :
    (1 + lineFeeds cs).toNat = newlines cs + 1 := by
  rw [lineFeeds, UInt32.toNat_add, UInt32.toNat_ofNat']
  simp only [UInt32.toNat_one, UInt32.size] at h ⊢
  omega

/-- Drop the leading blanks. -/
def trimStart (cs : List Char) : List Char := cs.dropWhile isBlank

/-- Drop the trailing blanks. -/
def trimEnd (cs : List Char) : List Char := (cs.reverse.dropWhile isBlank).reverse

/-- Drop the blanks at both ends. -/
def trim (cs : List Char) : List Char := trimEnd (trimStart cs)

/-- The leading word of a line and what follows the blanks after it. -/
def splitWord (cs : List Char) : List Char × List Char :=
  let text := trimStart cs
  (text.takeWhile (!isBlank ·), trimStart (text.dropWhile (!isBlank ·)))

theorem length_dropWhile_le {α : Type} (p : α → Bool) (l : List α) :
    (l.dropWhile p).length ≤ l.length :=
  (List.dropWhile_suffix p).length_le

end ShaderBuild.Text
