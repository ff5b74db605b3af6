import ShaderBuild.Token.Scan
/-!
# Tokens as they are written

`Spells` says which texts are tokens of which kind, without saying how they are found. A text that is
spelled, and that a gap or nothing follows, is cut off as one token (`lexeme_of_spells`), so words with
gaps between them are read back one by one (`list_chars`), each with the line that it starts on.
-/

namespace ShaderBuild.Token

open Text

/-- The inside of a string literal: every quote comes directly after a backslash, and a backslash is not
the last character. -/
def isQuoted : List Char → Bool
  | [] => true
  | '"' :: _ => false
  | ['\\'] => false
  | '\\' :: '"' :: rest => isQuoted rest
  | _ :: rest => isQuoted rest

/-- A character that is a token of its own. -/
def isSingle (c : Char) : Bool := !isGap c && !c.isDigit && !isWordStart c && c != '"'

/-- How tokens are written. -/
inductive Spells : Kind → List Char → Prop
  | word {c cs} (start : isWordStart c = true) (chars : cs.all isWordChar = true) :
      Spells (.ofWord (String.ofList (c :: cs))) (c :: cs)
  | integer {digits} (some : digits ≠ []) (all : digits.all Char.isDigit = true) : Spells .integer digits
  | float {whole fraction} (some : whole ≠ []) (all : whole.all Char.isDigit = true)
      (fraction_all : fraction.all Char.isDigit = true) (suffix : Bool) :
      Spells .float (whole ++ '.' :: (fraction ++ if suffix then ['f'] else []))
  | string {body} (quoted : isQuoted body = true) : Spells .string ('"' :: (body ++ ['"']))
  | single {c} (h : isSingle c = true) : Spells (.ofChar c) [c]

/-- Nothing follows, or a gap. -/
def Ends (rest : List Char) : Prop := ∀ c ∈ rest.head?, isGap c = true

theorem ends_nil : Ends [] := by simp [Ends]

theorem ends_append {gap : List Char} (h : gap.all isGap = true) (hn : gap ≠ []) (rest : List Char) :
    Ends (gap ++ rest) := by
  obtain ⟨c, cs, rfl⟩ := List.exists_cons_of_ne_nil hn
  rw [List.all_cons, Bool.and_eq_true] at h
  simpa [Ends] using h.1

theorem ends_of_all {gap : List Char} (h : gap.all isGap = true) : Ends gap := by
  cases gap with
  | nil => exact ends_nil
  | cons c cs =>
    have := ends_append h (List.cons_ne_nil _ _) []
    rwa [List.append_nil] at this

/-- What a gap is not. -/
theorem of_isGap {c : Char} (h : isGap c = true) :
    isWordChar c = false ∧ c.isDigit = false ∧ c ≠ '.' ∧ c ≠ 'f' := by
  simp only [isGap, Bool.or_eq_true, beq_iff_eq] at h
  rcases h with (((rfl | rfl) | rfl) | rfl) | rfl <;> decide

/-! ## Cutting off one token -/

theorem takeWhile_append_of_head {p : Char → Bool} {text rest : List Char} (ht : text.all p = true)
    (hr : ∀ c ∈ rest.head?, p c = false) :
    (text ++ rest).takeWhile p = text ∧ (text ++ rest).dropWhile p = rest := by
  have hall : ∀ c ∈ text, p c = true := List.all_eq_true.1 ht
  rw [List.takeWhile_append_of_pos hall, List.dropWhile_append_of_pos hall]
  cases rest with
  | nil => simp
  | cons c cs => simp [hr c rfl]

theorem literalBody_of_isQuoted {body : List Char} (h : isQuoted body = true) (rest : List Char) :
    literalBody (body ++ '"' :: rest) = (body ++ ['"'], rest) := by
  fun_induction isQuoted body with
  | case1 => rfl
  | case2 => cases h
  | case3 => cases h
  | case4 cs ih =>
    rw [List.cons_append, List.cons_append, literalBody, ih h]
    rfl
  | case5 c cs h1 h2 h3 ih =>
    rw [List.cons_append, literalBody, ih h]
    · rfl
    · rintro rfl
      exact h1 rfl
    · rintro cs' rfl he
      cases cs with
      | nil => exact h2 rfl rfl
      | cons c' cs'' =>
        obtain ⟨rfl, -⟩ := List.cons.inj he
        exact h3 _ rfl rfl

theorem Ends.digits {rest : List Char} (hr : Ends rest) : ∀ c ∈ rest.head?, c.isDigit = false :=
  fun c hc => (of_isGap (hr c hc)).2.1

theorem number_integer {digits rest : List Char} (h : digits.all Char.isDigit = true) (hr : Ends rest) :
    number (digits ++ rest) = ⟨.integer, digits, rest⟩ := by
  obtain ⟨h1, h2⟩ := takeWhile_append_of_head h hr.digits
  rw [number, h1, h2]
  split
  · next after => exact absurd rfl (of_isGap (hr '.' rfl)).2.2.1
  · rfl

theorem number_float {whole fraction rest : List Char} (hw : whole.all Char.isDigit = true)
    (hf : fraction.all Char.isDigit = true) (suffix : Bool) (hr : Ends rest) :
    number (whole ++ '.' :: (fraction ++ ((if suffix then ['f'] else []) ++ rest))) =
      ⟨.float, whole ++ '.' :: (fraction ++ if suffix then ['f'] else []), rest⟩ := by
  have hpoint : ∀ after : List Char, ∀ c ∈ ('.' :: after).head?, c.isDigit = false := by simp
  obtain ⟨h1, h2⟩ := takeWhile_append_of_head hw (hpoint (fraction ++ ((if suffix then ['f'] else []) ++ rest)))
  have htail : ∀ c ∈ ((if suffix then ['f'] else []) ++ rest).head?, c.isDigit = false := by
    cases suffix with
    | true => simp
    | false => exact hr.digits
  obtain ⟨h3, h4⟩ := takeWhile_append_of_head hf htail
  rw [number, h1, h2]
  split
  · -- after the point and the fraction, an `f` may stand
    next after ha =>
    obtain rfl := (List.cons.inj ha).2
    rw [h3, h4]
    cases suffix with
    | true => rfl
    | false =>
      rw [if_neg Bool.false_ne_true, List.nil_append, List.append_nil]
      split
      · next after => exact absurd rfl (of_isGap (hr 'f' rfl)).2.2.2
      · rfl
  · next hne => exact absurd rfl (hne _)

theorem isDigit_of_all {c : Char} {cs : List Char} (h : (c :: cs).all Char.isDigit = true) : c.isDigit = true := by
  rw [List.all_cons, Bool.and_eq_true] at h
  exact h.1

theorem isGap_eq_false_of_isWordChar {c : Char} (h : isWordChar c = true) : isGap c = false := by
  rw [← Bool.not_eq_true]
  intro hg
  rw [(of_isGap hg).1] at h
  cases h

theorem isGap_eq_false_of_isDigit {c : Char} (h : c.isDigit = true) : isGap c = false := by
  rw [← Bool.not_eq_true]
  intro hg
  rw [(of_isGap hg).2.1] at h
  cases h

/-- Letters come after the digits, and so does the underscore. -/
theorem isDigit_eq_false_of_isWordStart {c : Char} (h : isWordStart c = true) : c.isDigit = false := by
  have hafter : '9'.val < c.val := by
    rw [isWordStart, Bool.or_eq_true, beq_iff_eq] at h
    rcases h with h | rfl
    · rcases (Bool.or_eq_true ..).mp h with h | h
      · have hc : c.val ≥ 'A'.val ∧ c.val ≤ 'Z'.val := of_decide_eq_true h
        exact UInt32.lt_of_lt_of_le (by decide) hc.1
      · have hc : (decide (c.val ≥ 'a'.val) && decide (c.val ≤ 'z'.val)) = true := h
        rw [Bool.and_eq_true, decide_eq_true_eq] at hc
        exact UInt32.lt_of_lt_of_le (by decide) hc.1
    · decide
  rw [Bool.eq_false_iff]
  intro hd
  have hc : (decide (c.val ≥ '0'.val) && decide (c.val ≤ '9'.val)) = true := hd
  rw [Bool.and_eq_true, decide_eq_true_eq, decide_eq_true_eq] at hc
  exact UInt32.not_le.2 hafter hc.2

/-- A token that a gap or nothing follows is cut off as it was written. -/
theorem lexeme_of_spells {kind : Kind} {text : List Char} (h : Spells kind text) :
    ∃ c cs, text = c :: cs ∧ isGap c = false ∧
      ∀ rest, Ends rest → lexeme c (cs ++ rest) = ⟨kind, text, rest⟩ := by
  cases h with
  | @word c cs start chars =>
    have hchars : (c :: cs).all isWordChar = true := by
      rw [List.all_cons, isWordChar_of_isWordStart start, Bool.true_and, chars]
    refine ⟨c, cs, rfl, isGap_eq_false_of_isWordChar (isWordChar_of_isWordStart start), fun rest hr => ?_⟩
    have hword : ∀ c ∈ rest.head?, isWordChar c = false := fun c hc => (of_isGap (hr c hc)).1
    obtain ⟨h1, h2⟩ := takeWhile_append_of_head hchars hword
    rw [List.cons_append] at h1 h2
    rw [lexeme, isDigit_eq_false_of_isWordStart start, if_neg Bool.false_ne_true, if_pos start, h1, h2]
  | integer some all =>
    obtain ⟨c, cs, rfl⟩ := List.exists_cons_of_ne_nil some
    have hd := isDigit_of_all all
    refine ⟨c, cs, rfl, isGap_eq_false_of_isDigit hd, fun rest hr => ?_⟩
    rw [lexeme, if_pos hd, ← List.cons_append, number_integer all hr]
  | float some all fraction_all suffix =>
    obtain ⟨c, cs, rfl⟩ := List.exists_cons_of_ne_nil some
    have hd := isDigit_of_all all
    refine ⟨c, _, List.cons_append, isGap_eq_false_of_isDigit hd, fun rest hr => ?_⟩
    have hn := number_float all fraction_all suffix hr
    rw [lexeme, if_pos hd, ← hn]
    simp only [List.cons_append, List.append_assoc]
  | @string body quoted =>
    refine ⟨'"', _, rfl, by decide, fun rest _ => ?_⟩
    have hd : '"'.isDigit = false := by decide
    have hs : isWordStart '"' = false := by decide
    rw [lexeme, hd, hs, if_neg Bool.false_ne_true, if_neg Bool.false_ne_true, if_pos rfl, List.append_assoc,
      List.singleton_append, literalBody_of_isQuoted quoted]
  | @single c h =>
    simp only [isSingle, Bool.and_eq_true, Bool.not_eq_true', bne_iff_ne, ne_eq] at h
    obtain ⟨⟨⟨h1, h2⟩, h3⟩, h4⟩ := h
    refine ⟨c, [], rfl, h1, fun rest _ => ?_⟩
    rw [lexeme, h2, h3, if_neg Bool.false_ne_true, if_neg Bool.false_ne_true, if_neg h4]
    rfl

/-! ## Kinds of tokens -/

theorem ite_mem {α : Type} {p : Prop} [Decidable p] {a b : α} {l : List α} (ha : a ∈ l) (hb : b ∈ l) :
    (if p then a else b) ∈ l := by
  split
  · exact ha
  · exact hb

theorem ofWord_mem (word : String) : Kind.ofWord word ∈ [.struct, .cbuffer, .register, .identifier] := by
  unfold Kind.ofWord
  repeat' apply ite_mem
  all_goals decide

theorem ofChar_mem (c : Char) : Kind.ofChar c ∈ [.semicolon, .colon, .dot, .equals, .comma, .hash, .blockOpen,
    .blockClose, .bracketOpen, .bracketClose, .squareOpen, .squareClose, .symbol] := by
  unfold Kind.ofChar
  repeat' apply ite_mem
  all_goals decide

theorem ofWord_ne {kind : Kind} (h : kind ∉ [.struct, .cbuffer, .register, .identifier]) (word : String) :
    Kind.ofWord word ≠ kind :=
  fun he => h (he ▸ ofWord_mem word)

theorem ofChar_ne {kind : Kind} (h : kind ∉ [.semicolon, .colon, .dot, .equals, .comma, .hash, .blockOpen,
    .blockClose, .bracketOpen, .bracketClose, .squareOpen, .squareClose, .symbol]) (c : Char) : Kind.ofChar c ≠ kind :=
  fun he => h (he ▸ ofChar_mem c)

theorem Spells.kind_ne {kind : Kind} {text : List Char} (h : Spells kind text) : kind ≠ .endOfInput := by
  cases h with
  | word => exact ofWord_ne (by decide) _
  | single => exact ofChar_ne (by decide) _
  | _ => decide

/-! ## Words with gaps between them -/

/-- A token as it is written. -/
structure Word where
  kind : Kind
  text : String
  spells : Spells kind text.toList

/-- The token that a word is on some line. -/
def Word.token (w : Word) (line : UInt32) : Token := ⟨w.kind, w.text, line⟩

/-- A word and the gap before it. -/
structure Laid where
  gap : List Char
  gap_all : gap.all isGap = true
  word : Word

namespace Laid

/-- The characters of some words with their gaps. -/
def chars (ls : List Laid) : List Char := ls.flatMap fun l => l.gap ++ l.word.text.toList

/-- The tokens of some words whose first gap starts on a line. -/
def tokens : UInt32 → List Laid → List Token
  | _, [] => []
  | line, l :: ls =>
    l.word.token (line + lineFeeds l.gap) :: tokens (line + lineFeeds l.gap + lineFeeds l.word.text.toList) ls

/-- There is a gap before each word but the first. -/
def Spaced (ls : List Laid) : Prop := ∀ l ∈ ls.tail, l.gap ≠ []

theorem chars_cons (l : Laid) (ls : List Laid) : chars (l :: ls) = l.gap ++ (l.word.text.toList ++ chars ls) := by
  rw [chars, List.flatMap_cons, List.append_assoc]
  rfl

theorem tokens_append (line : UInt32) (ls ls' : List Laid) :
    tokens line (ls ++ ls') = tokens line ls ++ tokens (line + lineFeeds (chars ls)) ls' := by
  induction ls generalizing line with
  | nil => rw [List.nil_append, chars, List.flatMap_nil, lineFeeds_nil, UInt32.add_zero, tokens, List.nil_append]
  | cons l ls ih =>
    rw [List.cons_append, tokens, tokens, ih, chars_cons, lineFeeds_append, lineFeeds_append]
    simp only [List.cons_append, UInt32.add_assoc]

end Laid

/-- The gap of the next word ends a word, or else the text does. -/
theorem Laid.ends_chars {ls : List Laid} (hs : ∀ l ∈ ls, l.gap ≠ []) {trailing : List Char}
    (ht : trailing.all isGap = true) : Ends (Laid.chars ls ++ trailing) := by
  cases ls with
  | nil => exact ends_of_all ht
  | cons l ls =>
    rw [Laid.chars_cons, List.append_assoc]
    exact ends_append l.gap_all (hs l List.mem_cons_self) _

theorem scan_all_gap {gap : List Char} (h : gap.all isGap = true) (line : UInt32) :
    scan line gap = ⟨atEnd (line + lineFeeds gap), line + lineFeeds gap, []⟩ := by
  have hnil : ∀ c ∈ ([] : List Char).head?, isGap c = false := by simp
  obtain ⟨h1, h2⟩ := takeWhile_append_of_head h hnil
  rw [List.append_nil] at h1 h2
  rw [scan, h1, h2]

theorem scan_gap {gap : List Char} (h : gap.all isGap = true) (line : UInt32) :
    (scan line gap).token.isEnd = true := by
  rw [scan_all_gap h]
  rfl

theorem scan_laid (l : Laid) {rest : List Char} (hr : Ends rest) (line : UInt32) :
    scan line (l.gap ++ (l.word.text.toList ++ rest)) =
      ⟨l.word.token (line + lineFeeds l.gap), line + lineFeeds l.gap + lineFeeds l.word.text.toList, rest⟩ := by
  obtain ⟨c, cs, ht, hg, hl⟩ := lexeme_of_spells l.word.spells
  have hhead : ∀ c' ∈ (l.word.text.toList ++ rest).head?, isGap c' = false := by
    rw [ht]
    intro c' hc'
    obtain rfl : c = c' := Option.some.inj hc'
    exact hg
  obtain ⟨h1, h2⟩ := takeWhile_append_of_head l.gap_all hhead
  rw [scan, h1, h2, ht, List.cons_append]
  dsimp only
  rw [hl rest hr, Word.token, ← ht, String.ofList_toList]

/-- Words with gaps between them are read back one by one, with the lines that they start on. -/
theorem list_chars {ls : List Laid} (hs : Laid.Spaced ls) {trailing : List Char} (ht : trailing.all isGap = true)
    (line : UInt32) : list line (Laid.chars ls ++ trailing) = Laid.tokens line ls := by
  induction ls generalizing line with
  | nil =>
    rw [Laid.chars, List.flatMap_nil, List.nil_append, list, dif_pos (scan_gap ht line)]
    rfl
  | cons l ls ih =>
    have hr : Ends (Laid.chars ls ++ trailing) := Laid.ends_chars hs ht
    have hscan := scan_laid l hr line
    have hend : (scan line (l.gap ++ (l.word.text.toList ++ (Laid.chars ls ++ trailing)))).token.isEnd = false := by
      rw [hscan]
      exact beq_eq_false_iff_ne.2 l.word.spells.kind_ne
    rw [Laid.chars_cons, List.append_assoc, List.append_assoc, list, dif_neg (by rw [hend]; exact Bool.false_ne_true),
      hscan, Laid.tokens]
    dsimp only
    rw [ih fun l' hl' => hs l' (List.mem_of_mem_tail hl')]

end ShaderBuild.Token
