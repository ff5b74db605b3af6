import ShaderBuild.Manifest
import ShaderBuild.Proofs.Reading
import ShaderBuild.Proofs.Scanning
/-!
# Values as they are written

A value stands in a manifest as a string literal, or as a word that is its text. In a literal every quote has a
backslash before it (`escapeQuotes`), and nothing else is changed, so not every text can be written: a
backslash at the end would keep the literal from ending, and comments are taken away before anything is read.
`Plain` texts are the others. They are what a value can be, however it is written (`Value.plain`), and each of
them is read back from its literal (`valueOf_of_shape`).
-/

namespace ShaderBuild.Manifest

open Token

/-! ## Quotes in literals -/

/-- Put a backslash before every quote. -/
def escapeQuotes : List Char → List Char
  | [] => []
  | c :: cs => if c = '"' then '\\' :: '"' :: escapeQuotes cs else c :: escapeQuotes cs

variable {c : Char} {cs : List Char}

theorem escapeQuotes_quote (cs : List Char) : escapeQuotes ('"' :: cs) = '\\' :: '"' :: escapeQuotes cs := if_pos rfl

theorem escapeQuotes_of_ne (hc : c ≠ '"') : escapeQuotes (c :: cs) = c :: escapeQuotes cs := if_neg hc

/-- What is escaped does not start with a quote. -/
theorem ne_of_head?_escapeQuotes (h : (escapeQuotes cs).head? = some c) : c ≠ '"' := by
  cases cs with
  | nil => cases h
  | cons d cs =>
    by_cases hd : d = '"'
    · subst hd
      rw [escapeQuotes_quote] at h
      obtain rfl : '\\' = c := Option.some.inj h
      decide
    · rw [escapeQuotes_of_ne hd] at h
      obtain rfl : d = c := Option.some.inj h
      exact hd

theorem getLast?_escapeQuotes (cs : List Char) : (escapeQuotes cs).getLast? = cs.getLast? := by
  induction cs with
  | nil => rfl
  | cons c cs ih =>
    by_cases hc : c = '"'
    · subst hc
      rw [escapeQuotes_quote, List.getLast?_cons, List.getLast?_cons, ih, List.getLast?_cons]
      rfl
    · rw [escapeQuotes_of_ne hc, List.getLast?_cons, ih, List.getLast?_cons]

theorem unescapeQuotes_of_ne (h : c = '\\' → cs.head? ≠ some '"') :
    unescapeQuotes (c :: cs) = c :: unescapeQuotes cs := by
  rw [unescapeQuotes]
  rintro rest rfl rfl
  exact h rfl rfl

theorem unescape_escapeQuotes (cs : List Char) : unescapeQuotes (escapeQuotes cs) = cs := by
  induction cs with
  | nil => rfl
  | cons c cs ih =>
    by_cases hc : c = '"'
    · subst hc
      rw [escapeQuotes_quote, unescapeQuotes, ih]
    · rw [escapeQuotes_of_ne hc, unescapeQuotes_of_ne fun _ h => ne_of_head?_escapeQuotes h rfl, ih]

/-- In a literal every quote has a backslash before it, which is put back. -/
theorem escape_unescapeQuotes (h : isQuoted cs = true) : escapeQuotes (unescapeQuotes cs) = cs := by
  fun_induction isQuoted cs with
  | case1 => rfl
  | case2 => cases h
  | case3 => cases h
  | case4 rest ih => rw [unescapeQuotes, escapeQuotes_quote, ih h]
  | case5 c rest hquote hend hpair ih =>
    have hne : c ≠ '"' := fun he => hquote he
    have hnext : c = '\\' → rest.head? ≠ some '"' := by
      intro hc hr
      obtain ⟨more, rfl⟩ := List.head?_eq_some_iff.1 hr
      exact hpair more hc rfl
    rw [unescapeQuotes_of_ne hnext, escapeQuotes_of_ne hne, ih h]

theorem getLast?_of_isQuoted (h : isQuoted cs = true) : cs.getLast? ≠ some '\\' := by
  fun_induction isQuoted cs with
  | case1 => simp
  | case2 => cases h
  | case3 => cases h
  | case4 rest ih =>
    intro hl
    rw [List.getLast?_cons_cons, List.getLast?_cons] at hl
    cases hr : rest.getLast? with
    | none => rw [hr] at hl; cases hl
    | some last => rw [hr] at hl; exact ih h (hr.trans hl)
  | case5 c rest hquote hend hpair ih =>
    intro hl
    rw [List.getLast?_cons] at hl
    cases hr : rest.getLast? with
    | none =>
      rw [hr] at hl
      exact hend (Option.some.inj hl) (List.getLast?_eq_none_iff.1 hr)
    | some last => rw [hr] at hl; exact ih h (hr.trans hl)

theorem isQuoted_of_ne (hc : c ≠ '"') (h : c = '\\' → ∃ d, cs.head? = some d ∧ d ≠ '"') :
    isQuoted (c :: cs) = isQuoted cs := by
  rw [isQuoted]
  · exact hc
  · rintro rfl rfl
    obtain ⟨d, hd, -⟩ := h rfl
    cases hd
  · rintro rest rfl rfl
    obtain ⟨d, hd, hn⟩ := h rfl
    exact hn (Option.some.inj hd).symm

/-- A text that does not end in a backslash becomes the inside of a literal. -/
theorem isQuoted_escapeQuotes (h : cs.getLast? ≠ some '\\') : isQuoted (escapeQuotes cs) = true := by
  induction cs with
  | nil => rfl
  | cons c cs ih =>
    have htail : cs.getLast? ≠ some '\\' := by
      intro hl
      rw [List.getLast?_cons, hl] at h
      exact h rfl
    by_cases hc : c = '"'
    · subst hc
      rw [escapeQuotes_quote, isQuoted]
      exact ih htail
    · rw [escapeQuotes_of_ne hc, isQuoted_of_ne hc, ih htail]
      rintro rfl
      -- The backslash is not the last character, so another one comes after it.
      cases cs with
      | nil => exact absurd rfl h
      | cons d cs =>
        obtain ⟨e, he⟩ : ∃ e, (escapeQuotes (d :: cs)).head? = some e := by
          by_cases hd : d = '"'
          · exact ⟨'\\', by rw [hd, escapeQuotes_quote]; rfl⟩
          · exact ⟨d, by rw [escapeQuotes_of_ne hd]; rfl⟩
        exact ⟨e, he, ne_of_head?_escapeQuotes he⟩

/-- Escaping quotes neither makes comments nor breaks them up. -/
theorem free_escapeQuotes : Comment.Free (escapeQuotes cs) ↔ Comment.Free cs := by
  induction cs with
  | nil => rfl
  | cons c cs ih =>
    by_cases hc : c = '"'
    · subst hc
      rw [escapeQuotes_quote, Comment.free_cons_of_ne (by decide), Comment.free_cons_of_ne (by decide),
        Comment.free_cons_of_ne (by decide), ih]
    · have hhead : (∀ d ∈ (escapeQuotes cs).head?, d ≠ '/' ∧ d ≠ '*') ↔ ∀ d ∈ cs.head?, d ≠ '/' ∧ d ≠ '*' := by
        cases cs with
        | nil => rfl
        | cons d cs =>
          by_cases hd : d = '"'
          · subst hd
            rw [escapeQuotes_quote]
            simp
          · rw [escapeQuotes_of_ne hd]
            rfl
      rw [escapeQuotes_of_ne hc, Comment.free_cons, Comment.free_cons, ih, hhead]

/-- What stands between the quotes of a literal. -/
theorem unquote_literal (body : List Char) : unquote ('"' :: (body ++ ['"'])) = unescapeQuotes body := by
  rw [unquote, dropQuote, List.reverse_append, List.reverse_singleton, List.singleton_append, dropQuote,
    List.reverse_reverse]

end Manifest

/-! ## Values -/

namespace Written

open Token Manifest Text

/-- A text that can be a value: no comment begins in it, and it does not end in a backslash. -/
structure Plain (text : String) : Prop where
  free : Comment.Free text.toList
  ending : text.toList.getLast? ≠ some '\\'

/-- A value as it is written. -/
inductive Value where
  | literal (text : String) (plain : Plain text)
  /-- An identifier or a number. -/
  | bare (w : Word) (kind : w.kind = .identifier ∨ w.kind = .integer ∨ w.kind = .float)

/-- A string literal. -/
def literalWord (text : String) (plain : Plain text) : Word where
  kind := .string
  text := String.ofList ('"' :: (escapeQuotes text.toList ++ ['"']))
  spells := by
    rw [String.toList_ofList]
    exact .string (isQuoted_escapeQuotes plain.ending)

/-- Neither slashes nor backslashes are in identifiers and numbers. -/
theorem not_mem_of_spells {kind : Kind} {cs : List Char} (h : Spells kind cs)
    (hk : kind = .identifier ∨ kind = .integer ∨ kind = .float) : '/' ∉ cs ∧ '\\' ∉ cs := by
  have other : ∀ {p : Char → Bool} {ds : List Char}, ds.all p = true → p '/' = false → p '\\' = false →
      '/' ∉ ds ∧ '\\' ∉ ds := by
    intro p ds hall h1 h2
    refine ⟨fun hm => ?_, fun hm => ?_⟩
    · exact absurd (h1.symm.trans (List.all_eq_true.1 hall _ hm)) Bool.false_ne_true
    · exact absurd (h2.symm.trans (List.all_eq_true.1 hall _ hm)) Bool.false_ne_true
  cases h with
  | @word c cs start chars =>
    have hall : (c :: cs).all isWordChar = true := by
      rw [List.all_cons, isWordChar_of_isWordStart start, Bool.true_and, chars]
    exact other hall (by decide) (by decide)
  | integer some all => exact other all (by decide) (by decide)
  | @float whole fraction some all fraction_all suffix =>
    obtain ⟨h1, h2⟩ := other all (by decide) (by decide)
    obtain ⟨h3, h4⟩ := other fraction_all (by decide) (by decide)
    cases suffix <;> simp [h1, h2, h3, h4]
  | string quoted => simp at hk
  | @single c h =>
    rcases hk with hk | hk | hk <;> exact absurd hk (ofChar_ne (by decide) c)

namespace Value

/-- The text that a value stands for. -/
def text : Value → String
  | literal text _ => text
  | bare w _ => w.text

def word : Value → Word
  | literal text plain => literalWord text plain
  | bare w _ => w

/-- The value is written as a string literal. -/
def IsLiteral : Value → Prop
  | literal _ _ => True
  | bare _ _ => False

/-- Values are read back. -/
theorem valueOf_of_shape (v : Value) {t : Token} (h : t.shape = v.word.shape) : valueOf t = .ok v.text := by
  cases v with
  | literal text plain =>
    have hk : t.kind = .string := kind_of_shape h
    have ht : t.text.toList = '"' :: (escapeQuotes text.toList ++ ['"']) := by
      rw [text_of_shape h]
      exact String.toList_ofList
    rw [valueOf, hk]
    dsimp only
    rw [ht, unquote_literal, unescape_escapeQuotes, String.ofList_toList]
    rfl
  | bare w kind =>
    have ht : t.text = w.text := text_of_shape h
    have hk : t.kind = w.kind := kind_of_shape h
    rcases kind with hw | hw | hw
    all_goals
      simp only [valueOf, hk.trans hw, ht]
      rfl

/-- However a value is written, it is plain. -/
theorem plain (v : Value) : Plain v.text := by
  cases v with
  | literal text plain => exact plain
  | bare w kind =>
    obtain ⟨hslash, hback⟩ := not_mem_of_spells w.spells kind
    exact ⟨Comment.free_of_not_mem hslash, fun hl => hback (List.mem_of_getLast? hl)⟩

end Value

/-- What has a value is a value that was written. -/
theorem exists_value {t : Token} (ht : Proper t) {text : String} (h : valueOf t = .ok text) :
    ∃ v : Value, t.shape = v.word.shape ∧ v.text = text := by
  have bare : ∀ kind, t.kind = kind → (kind = .identifier ∨ kind = .integer ∨ kind = .float) →
      valueOf t = .ok t.text → ∃ v : Value, t.shape = v.word.shape ∧ v.text = text := by
    rintro kind rfl hk hv
    exact ⟨.bare ⟨t.kind, t.text, ht.spells⟩ hk, rfl, Except.ok.inj (hv.symm.trans h)⟩
  cases hk : t.kind with
  | identifier => exact bare _ hk (by decide) (by rw [valueOf, hk])
  | integer => exact bare _ hk (by decide) (by rw [valueOf, hk])
  | float => exact bare _ hk (by decide) (by rw [valueOf, hk])
  | string =>
    obtain ⟨body, hbody, hq⟩ := ht.spells.string_eq hk
    have hinner : escapeQuotes (unescapeQuotes body) = body := escape_unescapeQuotes hq
    have hplain : Plain (String.ofList (unescapeQuotes body)) := by
      have hfree : Comment.Free body := ht.free.infix ⟨['"'], ['"'], by rw [hbody]; rfl⟩
      constructor
      · rwa [String.toList_ofList, ← free_escapeQuotes, hinner]
      · rw [String.toList_ofList, ← getLast?_escapeQuotes, hinner]
        exact getLast?_of_isQuoted hq
    refine ⟨.literal _ hplain, Prod.ext hk ?_, ?_⟩
    · show t.text = String.ofList ('"' :: (escapeQuotes (String.ofList (unescapeQuotes body)).toList ++ ['"']))
      rw [String.toList_ofList, hinner, ← hbody, String.ofList_toList]
    · rw [valueOf, hk] at h
      dsimp only at h
      rw [hbody, unquote_literal] at h
      exact Except.ok.inj h
  | _ =>
    rw [valueOf, hk] at h
    cases h

end Written

end ShaderBuild
