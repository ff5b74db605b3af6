import ShaderBuild.Json.Literal
import ShaderBuild.Text.Blank
/-!
# JSON lexemes

The words that a JSON text is made of. Between them there may be spaces, tabs and line ends.
-/

namespace ShaderBuild.Json

/-- A word of a JSON text. -/
inductive Lexeme where
  | openArray
  | closeArray
  | openObject
  | closeObject
  | colon
  | comma
  | null
  | bool (value : Bool)
  | number (literal : List Char)
  | string (literal : List Char)
  deriving DecidableEq, Repr

/-- What may stand between words. -/
def isSpace (c : Char) : Bool := c == ' ' || c == '\t' || c == '\n' || c == '\r'

/-- The rest of a string literal after its opening quote, without its closing one, and what follows
it. Every escape must have the right form, whether it stands for a character or not. -/
def stringRest : List Char → Option (List Char × List Char)
  | [] => none
  | '"' :: rest => some ([], rest)
  | '\\' :: c :: rest =>
    if (c = 'u' ∧ (rest.take 4).length = 4 ∧ (rest.take 4).all (hexDigit? · |>.isSome)) ∨
        (shortEscape? c).isSome then
      (stringRest rest).map fun (literal, after) => ('\\' :: c :: literal, after)
    else none
  | c :: rest =>
    if c.toNat < 0x20 then none
    else (stringRest rest).map fun (literal, after) => (c :: literal, after)

/-- One or more digits, and what follows them. -/
def someDigits (cs : List Char) : Option (List Char × List Char) :=
  let digits := cs.takeWhile Char.isDigit
  if digits = [] then none else some (digits, cs.dropWhile Char.isDigit)

/-- The digits before the point. There is no zero before another digit. -/
def wholePart : List Char → Option (List Char × List Char)
  | '0' :: rest => some (['0'], rest)
  | cs => someDigits cs

/-- The point and the digits after it, if there is one. -/
def fractionPart : List Char → Option (List Char × List Char)
  | '.' :: rest => (someDigits rest).map fun (digits, after) => ('.' :: digits, after)
  | cs => some ([], cs)

/-- The sign in front of an exponent. -/
def exponentSign : List Char → List Char × List Char
  | '+' :: rest => (['+'], rest)
  | '-' :: rest => (['-'], rest)
  | cs => ([], cs)

/-- The exponent, if there is one. -/
def exponentPart : List Char → Option (List Char × List Char)
  | [] => some ([], [])
  | c :: rest =>
    if c = 'e' ∨ c = 'E' then
      let (sign, rest) := exponentSign rest
      (someDigits rest).map fun (digits, after) => (c :: (sign ++ digits), after)
    else some ([], c :: rest)

/-- A number without a sign, and what follows it. -/
def magnitude (cs : List Char) : Option (List Char × List Char) := do
  let (whole, cs) ← wholePart cs
  let (fraction, cs) ← fractionPart cs
  let (exponent, cs) ← exponentPart cs
  some (whole ++ (fraction ++ exponent), cs)

/-- A number, and what follows it. -/
def numberPart : List Char → Option (List Char × List Char)
  | '-' :: rest => (magnitude rest).map fun (literal, after) => ('-' :: literal, after)
  | cs => magnitude cs

/-- What is left of a text after some word at its front. -/
def afterWord (word cs : List Char) : Option (List Char) :=
  if word.isPrefixOf cs then some (cs.drop word.length) else none

/-- The word that starts with `c`, and what follows it. -/
def lexeme (c : Char) (cs : List Char) : Option (Lexeme × List Char) :=
  if c = '[' then some (.openArray, cs)
  else if c = ']' then some (.closeArray, cs)
  else if c = '{' then some (.openObject, cs)
  else if c = '}' then some (.closeObject, cs)
  else if c = ':' then some (.colon, cs)
  else if c = ',' then some (.comma, cs)
  else if c = 'n' then (afterWord "ull".toList cs).map fun rest => (.null, rest)
  else if c = 't' then (afterWord "rue".toList cs).map fun rest => (.bool true, rest)
  else if c = 'f' then (afterWord "alse".toList cs).map fun rest => (.bool false, rest)
  else if c = '"' then (stringRest cs).map fun (literal, rest) => (.string literal, rest)
  else (numberPart (c :: cs)).map fun (literal, rest) => (.number literal, rest)

/-! ## Progress -/

theorem length_stringRest {cs literal rest : List Char} (h : stringRest cs = some (literal, rest)) :
    rest.length < cs.length := by
  fun_induction stringRest cs generalizing literal with
  | case1 => simp at h
  | case2 r =>
    simp only [Option.some.injEq, Prod.mk.injEq] at h
    simp [h.2]
  | case3 c r _ ih =>
    obtain ⟨⟨l, a⟩, h1, h2⟩ := Option.map_eq_some_iff.mp h
    simp only [Prod.mk.injEq] at h2
    have := ih (h2.2 ▸ h1)
    simp only [List.length_cons]
    omega
  | case4 => simp at h
  | case5 => simp at h
  | case6 c r _ _ _ ih =>
    obtain ⟨⟨l, a⟩, h1, h2⟩ := Option.map_eq_some_iff.mp h
    simp only [Prod.mk.injEq] at h2
    have := ih (h2.2 ▸ h1)
    simp only [List.length_cons]
    omega

theorem someDigits_append {cs digits rest : List Char} (h : someDigits cs = some (digits, rest)) :
    digits ++ rest = cs ∧ digits ≠ [] := by
  unfold someDigits at h
  dsimp only at h
  split at h
  · simp at h
  · next hd =>
    simp only [Option.some.injEq, Prod.mk.injEq] at h
    exact ⟨by rw [← h.1, ← h.2, List.takeWhile_append_dropWhile], h.1 ▸ hd⟩

theorem wholePart_append {cs digits rest : List Char} (h : wholePart cs = some (digits, rest)) :
    digits ++ rest = cs ∧ digits ≠ [] := by
  unfold wholePart at h
  split at h
  · simp only [Option.some.injEq, Prod.mk.injEq] at h
    simp [← h.1, ← h.2]
  · exact someDigits_append h

theorem fractionPart_append {cs literal rest : List Char}
    (h : fractionPart cs = some (literal, rest)) : literal ++ rest = cs := by
  unfold fractionPart at h
  split at h
  · obtain ⟨⟨d, a⟩, h1, h2⟩ := Option.map_eq_some_iff.mp h
    simp only [Prod.mk.injEq] at h2
    rw [← h2.1, ← h2.2, List.cons_append, (someDigits_append h1).1]
  · simp only [Option.some.injEq, Prod.mk.injEq] at h
    rw [← h.1, ← h.2, List.nil_append]

theorem exponentSign_append (cs : List Char) : (exponentSign cs).1 ++ (exponentSign cs).2 = cs := by
  unfold exponentSign
  split <;> rfl

theorem exponentPart_append {cs literal rest : List Char}
    (h : exponentPart cs = some (literal, rest)) : literal ++ rest = cs := by
  unfold exponentPart at h
  split at h
  · simp only [Option.some.injEq, Prod.mk.injEq] at h
    rw [← h.1, ← h.2, List.nil_append]
  · next c r =>
    split at h
    · have hs := exponentSign_append r
      generalize exponentSign r = signed at h hs
      obtain ⟨⟨d, a⟩, h1, h2⟩ := Option.map_eq_some_iff.mp h
      simp only [Prod.mk.injEq] at h2
      rw [← h2.1, ← h2.2, List.cons_append, List.append_assoc, (someDigits_append h1).1, hs]
    · simp only [Option.some.injEq, Prod.mk.injEq] at h
      rw [← h.1, ← h.2, List.nil_append]

theorem magnitude_append {cs literal rest : List Char} (h : magnitude cs = some (literal, rest)) :
    literal ++ rest = cs ∧ literal ≠ [] := by
  simp only [magnitude, Option.bind_eq_bind, Option.bind_eq_some_iff, Option.some.injEq,
    Prod.mk.injEq, Prod.exists] at h
  obtain ⟨w, r1, hw, f, r2, hf, e, r3, he, rfl, rfl⟩ := h
  have h1 := wholePart_append hw
  refine ⟨?_, by simp [h1.2]⟩
  rw [List.append_assoc, List.append_assoc, exponentPart_append he, fractionPart_append hf, h1.1]

theorem length_numberPart {cs literal rest : List Char} (h : numberPart cs = some (literal, rest)) :
    rest.length < cs.length := by
  have step : ∀ {cs literal : List Char}, magnitude cs = some (literal, rest) →
      rest.length < cs.length := by
    intro cs literal h
    have ⟨h1, h2⟩ := magnitude_append h
    have := congrArg List.length h1
    have := List.length_pos_iff.mpr h2
    simp only [List.length_append] at *
    omega
  unfold numberPart at h
  split at h
  · obtain ⟨⟨d, a⟩, h1, h2⟩ := Option.map_eq_some_iff.mp h
    simp only [Prod.mk.injEq] at h2
    exact Nat.lt_succ_of_lt (step (h2.2 ▸ h1))
  · exact step h

theorem length_afterWord {word cs rest : List Char} (h : afterWord word cs = some rest) :
    rest.length ≤ cs.length := by
  unfold afterWord at h
  split at h
  · rw [← Option.some.inj h, List.length_drop]
    omega
  · simp at h

theorem length_lexeme {c : Char} {cs rest : List Char} {w : Lexeme}
    (h : lexeme c cs = some (w, rest)) : rest.length < (c :: cs).length := by
  have here : ∀ {w' : Lexeme}, some (w', cs) = some (w, rest) → rest.length < (c :: cs).length := by
    intro w' hw
    simp only [Option.some.injEq, Prod.mk.injEq] at hw
    simp [hw.2]
  have word : ∀ {w' : Lexeme} {r : Option (List Char)},
      (∀ rest, r = some rest → rest.length ≤ cs.length) →
      r.map (fun rest => (w', rest)) = some (w, rest) → rest.length < (c :: cs).length := by
    intro w' r hr hw
    obtain ⟨a, h1, h2⟩ := Option.map_eq_some_iff.mp hw
    simp only [Prod.mk.injEq] at h2
    exact Nat.lt_succ_of_le (hr _ (h2.2 ▸ h1))
  unfold lexeme at h
  repeat' split at h
  all_goals first
    | exact here h
    | exact word (fun _ => length_afterWord) h
    | skip
  · obtain ⟨⟨l, a⟩, h1, h2⟩ := Option.map_eq_some_iff.mp h
    simp only [Prod.mk.injEq] at h2
    exact Nat.lt_succ_of_lt (length_stringRest (h2.2 ▸ h1))
  · obtain ⟨⟨l, a⟩, h1, h2⟩ := Option.map_eq_some_iff.mp h
    simp only [Prod.mk.injEq] at h2
    exact length_numberPart (h2.2 ▸ h1)

/-- The words of a text. -/
def lexemes (cs : List Char) : Option (List Lexeme) :=
  match _hs : cs.dropWhile isSpace with
  | [] => some []
  | c :: rest =>
    match _hl : lexeme c rest with
    | none => none
    | some (w, after) => (lexemes after).map (w :: ·)
termination_by cs.length
decreasing_by
  have h1 := length_lexeme _hl
  have h2 := Text.length_dropWhile_le isSpace cs
  rw [_hs] at h2
  exact Nat.lt_of_lt_of_le h1 h2

end ShaderBuild.Json
