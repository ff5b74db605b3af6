import ShaderBuild.Proofs.Comments
import ShaderBuild.Proofs.Spelling
/-!
# Tokens of any text

What a text is cut into is spelled as its kind says (`spells_lexeme`), apart from a string literal that lacks
its closing quote. Such a literal takes all that is left of the text, so it can only be the last token
(`scanned_list`).
-/

namespace ShaderBuild.Token

open Text

/-! ## One token -/

/-- A literal is closed, or it takes the rest of the text. -/
theorem literalBody_cases (cs : List Char) :
    (∃ body, (literalBody cs).1 = body ++ ['"'] ∧ isQuoted body = true) ∨ (literalBody cs).2 = [] := by
  fun_induction literalBody cs with
  | case1 => exact .inr rfl
  | case2 rest => exact .inl ⟨[], rfl, rfl⟩
  | case3 rest body after hbody ih =>
    rw [hbody] at ih
    rcases ih with ⟨inner, rfl, hq⟩ | rfl
    · exact .inl ⟨'\\' :: '"' :: inner, rfl, by rw [isQuoted]; exact hq⟩
    · exact .inr rfl
  | case4 c rest hquote hpair body after hbody ih =>
    have happend := literalBody_append rest
    rw [hbody] at ih happend
    rcases ih with ⟨inner, rfl, hq⟩ | rfl
    · -- After a backslash comes no quote, neither one inside nor the closing one.
      refine .inl ⟨c :: inner, rfl, ?_⟩
      cases inner with
      | nil =>
        rw [isQuoted]
        · rfl
        · exact fun hc => hquote hc
        · rintro rfl -
          exact hpair after rfl happend.symm
        · intro more _ h
          cases h
      | cons d inner =>
        rw [isQuoted]
        · exact hq
        · exact fun hc => hquote hc
        · intro _ h
          cases h
        · rintro more rfl h
          obtain ⟨rfl, rfl⟩ := List.cons.inj h
          exact hpair _ rfl happend.symm
    · exact .inr rfl

theorem spells_number {c : Char} {cs : List Char} (h : c.isDigit = true) :
    Spells (number (c :: cs)).kind (number (c :: cs)).text := by
  have hwhole : (c :: cs).takeWhile Char.isDigit ≠ [] := by
    rw [List.takeWhile_cons_of_pos h]
    exact List.cons_ne_nil _ _
  have hall : ((c :: cs).takeWhile Char.isDigit).all Char.isDigit = true := List.all_takeWhile
  unfold number
  dsimp only
  split
  · next rest hr =>
    have hfraction : (rest.takeWhile Char.isDigit).all Char.isDigit = true := List.all_takeWhile
    split
    · exact .float hwhole hall hfraction true
    · have hf := Spells.float hwhole hall hfraction false
      rwa [if_neg Bool.false_ne_true, List.append_nil] at hf
  · exact .integer hwhole hall

/-- A token is spelled as its kind says, or it is a literal that takes the rest of the text. -/
theorem spells_lexeme {c : Char} (hc : isGap c = false) (cs : List Char) :
    Spells (lexeme c cs).kind (lexeme c cs).text ∨ (lexeme c cs).kind = .string ∧ (lexeme c cs).rest = [] := by
  unfold lexeme
  by_cases hd : c.isDigit = true
  · rw [if_pos hd]
    exact .inl (spells_number hd)
  · rw [if_neg hd]
    by_cases hs : isWordStart c = true
    · rw [if_pos hs]
      dsimp only
      rw [List.takeWhile_cons_of_pos (isWordChar_of_isWordStart hs)]
      exact .inl (.word hs List.all_takeWhile)
    · rw [if_neg hs]
      by_cases hq : c = '"'
      · rw [if_pos hq]
        dsimp only
        rcases literalBody_cases cs with ⟨body, hbody, hquoted⟩ | hrest
        · rw [hbody]
          exact .inl (.string hquoted)
        · exact .inr ⟨rfl, hrest⟩
      · rw [if_neg hq]
        refine .inl (.single ?_)
        simp [isSingle, hc, hd, hs, hq]

/-! ## What the kind of a token says of its text -/

theorem ofWord_ne_ofChar (word : String) (c : Char) : Kind.ofWord word ≠ Kind.ofChar c := by
  have h := ofWord_mem word
  simp only [List.mem_cons, List.not_mem_nil, or_false] at h
  rcases h with h | h | h | h <;>
  · rw [h]
    exact (ofChar_ne (by decide) c).symm

/-- One more character that has a kind of its own. -/
theorem describe_ite {c d : Char} {kind other : Kind} (hk : kind.describe = String.singleton d)
    (ho : other = .symbol ∨ other.describe = String.singleton c) :
    (if c = d then kind else other) = .symbol ∨ (if c = d then kind else other).describe = String.singleton c := by
  split
  · next hc => exact .inr (hc ▸ hk)
  · exact ho

/-- Punctuation is described by the character itself. -/
theorem describe_ofChar {c : Char} (h : Kind.ofChar c ≠ .symbol) : (Kind.ofChar c).describe = String.singleton c := by
  refine Or.resolve_left ?_ h
  unfold Kind.ofChar
  repeat refine describe_ite rfl ?_
  exact .inl rfl

/-- Different characters that are not just symbols have different kinds. -/
theorem ofChar_inj {c d : Char} (h : Kind.ofChar c = Kind.ofChar d) (hd : Kind.ofChar d ≠ .symbol) : c = d := by
  have hs : String.singleton c = String.singleton d := by
    rw [← describe_ofChar (h ▸ hd), ← describe_ofChar hd, h]
  exact String.singleton_inj.1 hs

namespace Spells
variable {kind : Kind} {cs : List Char}

theorem string_eq (h : Spells kind cs) (hk : kind = .string) :
    ∃ body, cs = '"' :: (body ++ ['"']) ∧ isQuoted body = true := by
  cases h with
  | word => exact absurd hk (ofWord_ne (by decide) _)
  | integer => cases hk
  | float => cases hk
  | @string body quoted => exact ⟨body, rfl, quoted⟩
  | single => exact absurd hk (ofChar_ne (by decide) _)

theorem identifier_eq (h : Spells kind cs) (hk : kind = .identifier) :
    ∃ c word, cs = c :: word ∧ isWordStart c = true ∧ word.all isWordChar = true ∧
      Kind.ofWord (String.ofList cs) = .identifier := by
  cases h with
  | word start chars => exact ⟨_, _, rfl, start, chars, hk⟩
  | integer => cases hk
  | float => cases hk
  | string => cases hk
  | single => exact absurd hk (ofChar_ne (by decide) _)

theorem single_eq {c : Char} (h : Spells kind cs) (hk : kind = Kind.ofChar c) (hc : Kind.ofChar c ≠ .symbol) :
    cs = [c] := by
  cases h with
  | word => exact absurd hk (ofWord_ne_ofChar _ c)
  | integer => exact absurd hk.symm (ofChar_ne (by decide) c)
  | float => exact absurd hk.symm (ofChar_ne (by decide) c)
  | string => exact absurd hk.symm (ofChar_ne (by decide) c)
  | single => rw [ofChar_inj hk hc]

end Spells

/-! ## All tokens -/

/-- A token that is spelled as its kind says, and in which no comment begins. -/
structure Proper (t : Token) : Prop where
  spells : Spells t.kind t.text.toList
  free : Comment.Free t.text.toList

/-- The tokens of a text without comments. The last one may be a literal without an end. -/
inductive Scanned : List Token → Prop
  | nil : Scanned []
  | cons {t ts} : (Proper t ∨ t.kind = .string ∧ ts = []) → Scanned ts → Scanned (t :: ts)

theorem Scanned.head {t : Token} {ts : List Token} (h : Scanned (t :: ts)) : Proper t ∨ t.kind = .string ∧ ts = [] := by
  cases h with
  | cons ht _ => exact ht

theorem Scanned.tail {t : Token} {ts : List Token} (h : Scanned (t :: ts)) : Scanned ts := by
  cases h with
  | cons _ hts => exact hts

theorem Scanned.of_append {ts rest : List Token} (h : Scanned (ts ++ rest)) : Scanned rest := by
  induction ts with
  | nil => exact h
  | cons t ts ih => exact ih h.tail

theorem Scanned.proper {t : Token} {ts : List Token} (h : Scanned (t :: ts)) (hk : t.kind ≠ .string) : Proper t :=
  h.head.resolve_right fun hs => hk hs.1

/-- Only the last token may lack its end. -/
theorem Scanned.proper_of_ne {t : Token} {ts : List Token} (h : Scanned (t :: ts)) (hn : ts ≠ []) : Proper t :=
  h.head.resolve_right fun hs => hn hs.2

theorem Scanned.kind_ne {t : Token} {ts : List Token} (h : Scanned (t :: ts)) : t.kind ≠ .endOfInput := by
  rcases h.head with ht | ⟨hk, -⟩
  · exact ht.spells.kind_ne
  · rw [hk]
    decide

theorem list_nil (line : UInt32) : list line [] = [] := by
  rw [list, dif_pos]
  rfl

/-- What is scanned in a text with a token: the token is cut off after the gap. -/
theorem scan_eq {cs : List Char} {line : UInt32} (h : (scan line cs).token.isEnd = false) :
    ∃ c rest, cs.dropWhile isGap = c :: rest ∧ isGap c = false ∧
      (scan line cs).token.kind = (lexeme c rest).kind ∧
      (scan line cs).token.text = String.ofList (lexeme c rest).text ∧
      (scan line cs).rest = (lexeme c rest).rest := by
  unfold scan at h ⊢
  dsimp only at h ⊢
  cases hd : cs.dropWhile isGap with
  | nil =>
    rw [hd] at h
    cases h
  | cons c rest =>
    have hgap : isGap c = false := by
      have hn := List.head?_dropWhile_not isGap cs
      rw [hd] at hn
      simpa using hn
    exact ⟨c, rest, rfl, hgap, rfl, rfl, rfl⟩

theorem scanned_list {cs : List Char} (h : Comment.Free cs) (line : UInt32) : Scanned (list line cs) := by
  fun_induction list line cs with
  | case1 => exact .nil
  | case2 line cs hend ih =>
    obtain ⟨c, rest, hd, hgap, hkind, htext, hrest⟩ := scan_eq (Bool.not_eq_true _ ▸ hend)
    have happend := lexeme_append c rest
    have hsuffix : (c :: rest) <:+ cs := hd ▸ List.dropWhile_suffix isGap
    have hfree : Comment.Free (c :: rest) := h.infix hsuffix.isInfix
    have hafter : Comment.Free (scan line cs).rest := by
      rw [hrest]
      exact hfree.infix (happend ▸ (List.suffix_append _ _).isInfix)
    refine .cons ?_ (ih hafter)
    rcases spells_lexeme hgap rest with hs | ⟨hs, hnil⟩
    · left
      constructor
      · rw [hkind, htext, String.toList_ofList]
        exact hs
      · rw [htext, String.toList_ofList]
        exact hfree.infix (happend ▸ (List.prefix_append _ _).isInfix)
    · right
      rw [hkind, hrest, hnil, list_nil]
      exact ⟨hs, rfl⟩

end ShaderBuild.Token
