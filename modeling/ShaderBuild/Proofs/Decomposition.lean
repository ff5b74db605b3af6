import ShaderBuild.Proofs.Joining
import ShaderBuild.Token.Scanner
/-!
# Tokens and gaps make up a text

What a cursor reads from a text, said without saying how it is found: tokens with gaps of white space between them
(`Split`), each in the form of its kind and none that could be longer (`Stands`). A text can be split in this way
in exactly one way, which is the one that the cursor reads, with the line of every token
(`scanner_reads_split`).
-/

namespace ShaderBuild.Token

open Text

/-! ## The forms of tokens -/

/-- One or more digits. -/
def IsInteger (text : List Char) : Prop := text ≠ [] ∧ text.all Char.isDigit = true

/-- Digits, a point, perhaps more digits, and perhaps an `f`. -/
def IsFloat (text : List Char) : Prop :=
  ∃ whole fraction, IsInteger whole ∧ fraction.all Char.isDigit = true ∧
    (text = whole ++ '.' :: fraction ∨ text = whole ++ '.' :: (fraction ++ ['f']))

/-- A letter or underscore, and perhaps more of these and of digits. -/
def IsWord (text : List Char) : Prop :=
  ∃ c cs, text = c :: cs ∧ isWordStart c = true ∧ cs.all isWordChar = true

theorem IsWord.ne_nil {text : List Char} (h : IsWord text) : text ≠ [] := by
  obtain ⟨c, cs, rfl, -⟩ := h
  exact List.cons_ne_nil c cs

theorem isWordStart_of_isWordChar {c : Char} (h : isWordChar c = true) (hd : ¬ c.isDigit = true) :
    isWordStart c = true := by
  simp only [isWordChar, Char.isAlphanum, isWordStart, Bool.or_eq_true] at h ⊢
  exact h.imp_left fun h => h.resolve_right hd

/-- Every quote stands directly after a backslash. -/
def QuotesEscaped (body : List Char) : Prop := ∀ u v, body = u ++ '"' :: v → u.getLast? = some '\\'

/-- The text of a token of some kind, with the rest of the text after it. Numbers and words do not go on in the
rest, and only a literal without an end takes all of it. -/
inductive Stands : Kind → List Char → List Char → Prop
  | integer {text rest} (form : IsInteger text)
      (longest : ∀ c ∈ rest.head?, ¬ IsInteger (text ++ [c]) ∧ ¬ IsFloat (text ++ [c])) :
      Stands .integer text rest
  | float {text rest} (form : IsFloat text)
      (longest : ∀ c ∈ rest.head?, ¬ IsInteger (text ++ [c]) ∧ ¬ IsFloat (text ++ [c])) :
      Stands .float text rest
  | word {text rest} (form : IsWord text) (longest : ∀ c ∈ rest.head?, ¬ IsWord (text ++ [c])) :
      Stands (.ofWord (String.ofList text)) text rest
  | literal {body rest} (escaped : QuotesEscaped body) (closed : body.getLast? ≠ some '\\') :
      Stands .string ('"' :: (body ++ ['"'])) rest
  | openLiteral {body} (escaped : QuotesEscaped body) : Stands .string ('"' :: body) []
  | single {c rest} (form : isSingle c = true) : Stands (.ofChar c) [c] rest

/-! ## Numbers that cannot be longer -/

theorem isInteger_concat {text : List Char} (h : text.all Char.isDigit = true) (c : Char) :
    IsInteger (text ++ [c]) ↔ c.isDigit = true := by
  simp [IsInteger, h]

/-- There is one point in a number, and an `f` only at its end. -/
theorem IsFloat.marks {text : List Char} (h : IsFloat text) :
    text.count '.' = 1 ∧ (∀ c ∈ text.getLast?, c.isDigit = true ∨ c = '.' ∨ c = 'f') ∧
      text.dropLast.count 'f' = 0 := by
  obtain ⟨whole, fraction, ⟨-, hw⟩, hf, ht⟩ := h
  have hnot : ∀ {digits : List Char} {c : Char}, digits.all Char.isDigit = true → c.isDigit = false →
      digits.count c = 0 := by
    intro digits c hd hc
    refine List.count_eq_zero.2 fun hm => ?_
    rw [List.all_eq_true.1 hd c hm] at hc
    cases hc
  have hpoint : '.'.isDigit = false := by decide
  have hmark : 'f'.isDigit = false := by decide
  rcases ht with rfl | rfl
  · refine ⟨by simp [hnot hw hpoint, hnot hf hpoint], fun c hc => ?_, ?_⟩
    · rw [List.getLast?_append, List.getLast?_cons] at hc
      cases hl : fraction.getLast? with
      | none =>
        rw [hl] at hc
        exact .inr (.inl (Option.some.inj hc).symm)
      | some d =>
        rw [hl] at hc
        obtain rfl : d = c := Option.some.inj hc
        exact .inl (List.all_eq_true.1 hf d (List.mem_of_getLast? hl))
    · refine List.count_eq_zero.2 fun hm => ?_
      have hm := List.mem_of_mem_dropLast hm
      have hz : (whole ++ '.' :: fraction).count 'f' = 0 := by simp [hnot hw hmark, hnot hf hmark]
      exact List.count_eq_zero.1 hz hm
  · rw [← List.cons_append, ← List.append_assoc]
    refine ⟨by simp [hnot hw hpoint, hnot hf hpoint], fun c hc => ?_, ?_⟩
    · rw [List.getLast?_concat] at hc
      exact .inr (.inr (Option.some.inj hc).symm)
    · rw [List.dropLast_concat]
      simp [hnot hw hmark, hnot hf hmark]

theorem not_isFloat_digits {text : List Char} (h : text.all Char.isDigit = true) {c : Char} (hc : c ≠ '.') :
    ¬ IsFloat (text ++ [c]) := by
  intro hf
  have hm := hf.marks.1
  have hnone : text.count '.' = 0 := List.count_eq_zero.2 fun hm =>
    absurd (List.all_eq_true.1 h '.' hm) (by decide)
  simp [hnone, hc] at hm

/-- Nothing but a digit or an `f` makes a number with a point longer, and after the `f` nothing does. -/
theorem not_isFloat_concat {text : List Char} (h : IsFloat text) {c : Char} (hd : c.isDigit = false)
    (hf : c = 'f' → text.getLast? = some 'f') : ¬ IsFloat (text ++ [c]) := by
  intro hl
  obtain ⟨hpoint, hlast, hmark⟩ := hl.marks
  have hone := h.marks.1
  rw [List.dropLast_concat] at hmark
  rcases hlast c List.getLast?_concat with hc | rfl | rfl
  · rw [hd] at hc
    cases hc
  · simp [hone] at hpoint
  · exact List.count_eq_zero.1 hmark (List.mem_of_getLast? (hf rfl))

theorem not_isInteger_of_point {text : List Char} (h : '.' ∈ text) : ¬ IsInteger text :=
  fun hi => absurd (List.all_eq_true.1 hi.2 '.' h) (by decide)

/-- The number that is cut off cannot be longer. -/
theorem stands_number {c : Char} {cs : List Char} (h : c.isDigit = true) :
    Stands (number (c :: cs)).kind (number (c :: cs)).text (number (c :: cs)).rest := by
  generalize hcs : c :: cs = text
  have hwhole : IsInteger (text.takeWhile Char.isDigit) := by
    refine ⟨?_, List.all_takeWhile⟩
    rw [← hcs, List.takeWhile_cons_of_pos h]
    exact List.cons_ne_nil _ _
  have hstop : ∀ (cs : List Char), ∀ d ∈ (cs.dropWhile Char.isDigit).head?, d.isDigit = false := by
    intro cs d hd
    have hn := List.head?_dropWhile_not Char.isDigit cs
    rw [hd] at hn
    simpa using hn
  by_cases hp : ∃ rest, text.dropWhile Char.isDigit = '.' :: rest
  · obtain ⟨rest, hr⟩ := hp
    have hfraction : (rest.takeWhile Char.isDigit).all Char.isDigit = true := List.all_takeWhile
    by_cases hs : ∃ after, rest.dropWhile Char.isDigit = 'f' :: after
    · obtain ⟨after, ha⟩ := hs
      rw [number_of_suffix hr ha]
      have hform : IsFloat (text.takeWhile Char.isDigit ++ '.' :: (rest.takeWhile Char.isDigit ++ ['f'])) :=
        ⟨_, _, hwhole, hfraction, .inr rfl⟩
      refine .float hform fun d hd => ⟨not_isInteger_of_point (by simp), fun hl => ?_⟩
      -- after the `f` comes neither a digit nor another `f`
      have hmark := hl.marks.2.2
      rw [List.dropLast_concat] at hmark
      exact List.count_eq_zero.1 hmark (by simp)
    · have hf : ∀ after, rest.dropWhile Char.isDigit ≠ 'f' :: after := not_exists.1 hs
      rw [number_of_fraction hr hf]
      have hform : IsFloat (text.takeWhile Char.isDigit ++ '.' :: rest.takeWhile Char.isDigit) :=
        ⟨_, _, hwhole, hfraction, .inl rfl⟩
      refine .float hform fun d hd => ⟨not_isInteger_of_point (by simp), ?_⟩
      refine not_isFloat_concat hform (hstop rest d hd) fun hdf => ?_
      obtain ⟨after, ha⟩ := List.head?_eq_some_iff.1 hd
      exact absurd (hdf ▸ ha) (hf after)
  · have hi : ∀ rest, text.dropWhile Char.isDigit ≠ '.' :: rest := not_exists.1 hp
    rw [number_of_whole hi]
    refine .integer hwhole fun d hd => ⟨fun hl => ?_, not_isFloat_digits hwhole.2 fun hdp => ?_⟩
    · rw [isInteger_concat hwhole.2, hstop text d hd] at hl
      cases hl
    · obtain ⟨after, ha⟩ := List.head?_eq_some_iff.1 hd
      exact hi after (hdp ▸ ha)

/-! ## Literals -/

theorem quotesEscaped_nil : QuotesEscaped [] := by
  intro u v h
  cases u <;> cases h

theorem isOpen_cons {c : Char} {cs : List Char} (hc : c ≠ '"') (hp : c = '\\' → ∀ rest, cs ≠ '"' :: rest) :
    isOpen (c :: cs) = isOpen cs := by
  rw [isOpen]
  · exact hc
  · exact fun rest hb he => hp hb rest he

/-- A literal has no end if every quote in it stands directly after a backslash. -/
theorem isOpen_iff (cs : List Char) : isOpen cs = true ↔ QuotesEscaped cs := by
  fun_induction isOpen cs with
  | case1 => simp [quotesEscaped_nil]
  | case2 rest =>
    constructor
    · intro h
      cases h
    · intro h
      cases h [] rest rfl
  | case3 rest ih =>
    rw [ih]
    refine ⟨fun h u v he => ?_, fun h u v he => ?_⟩
    · cases u with
      | nil => exact absurd (List.cons.inj he).1 (by decide)
      | cons c u =>
        obtain ⟨rfl, ht⟩ := List.cons.inj he
        cases u with
        | nil => rfl
        | cons d u =>
          have hu := h u v (List.cons.inj ht).2
          rw [List.getLast?_cons_cons, List.getLast?_cons, hu]
          rfl
    · have hu := h ('\\' :: '"' :: u) v (by rw [he]; rfl)
      cases u with
      | nil => cases hu
      | cons d u => rwa [List.getLast?_cons_cons, List.getLast?_cons_cons] at hu
  | case4 c rest hquote hpair ih =>
    rw [ih]
    refine ⟨fun h u v he => ?_, fun h u v he => ?_⟩
    · cases u with
      | nil => exact absurd (List.cons.inj he).1 hquote
      | cons d u =>
        obtain ⟨rfl, ht⟩ := List.cons.inj he
        have hu := h u v ht
        cases u with
        | nil => cases hu
        | cons e u => rwa [List.getLast?_cons_cons]
    · have hu := h (c :: u) v (by rw [he]; rfl)
      cases u with
      | nil =>
        obtain rfl : c = '\\' := Option.some.inj hu
        exact absurd he (hpair v rfl)
      | cons d u => rwa [List.getLast?_cons_cons] at hu

/-- The inside of a literal with an end does not end in a backslash, and apart from that is like one without. -/
theorem isQuoted_iff (cs : List Char) : isQuoted cs = true ↔ QuotesEscaped cs ∧ cs.getLast? ≠ some '\\' := by
  rw [← isOpen_iff]
  fun_induction isQuoted cs with
  | case1 => simp [isOpen]
  | case2 => simp [isOpen]
  | case3 => simp
  | case4 rest ih =>
    rw [ih, isOpen]
    cases rest <;> simp
  | case5 c rest h1 h2 h3 ih =>
    rw [ih, isOpen_cons (fun hc => h1 hc) fun hc r hr => h3 r hc hr]
    cases rest with
    | nil => simpa [isOpen] using fun hc => h2 hc rfl
    | cons d rest => rw [List.getLast?_cons_cons]

theorem exists_closed {cs : List Char} (h : isOpen cs = false) :
    ∃ body, (literalBody cs).1 = body ++ ['"'] ∧ isQuoted body = true := by
  rcases literalBody_cases cs with hb | hrest
  · exact hb
  · -- It takes all of the text, which has an end.
    have happend := literalBody_append cs
    have hclosed := literalBody_append_of_closed h ['"']
    rcases literalBody_cases (cs ++ ['"']) with ⟨body, hb, hq⟩ | hr
    · rw [hclosed] at hb
      exact ⟨body, hb, hq⟩
    · rw [hclosed] at hr
      simp at hr

/-! ## One token -/

/-- What is cut off is a token that stands there. -/
theorem stands_lexeme {c : Char} (hc : isGap c = false) (cs : List Char) :
    Stands (lexeme c cs).kind (lexeme c cs).text (lexeme c cs).rest := by
  by_cases hd : c.isDigit = true
  · rw [lexeme, if_pos hd]
    exact stands_number hd
  · by_cases hs : isWordStart c = true
    · rw [lexeme, if_neg hd, if_pos hs]
      dsimp only
      have hform : IsWord ((c :: cs).takeWhile isWordChar) := by
        rw [List.takeWhile_cons_of_pos (isWordChar_of_isWordStart hs)]
        exact ⟨c, _, rfl, hs, List.all_takeWhile⟩
      refine .word hform fun d hm => ?_
      rintro ⟨e, es, he, -, hes⟩
      have hn := List.head?_dropWhile_not isWordChar (c :: cs)
      rw [hm] at hn
      dsimp only at hn
      rw [List.takeWhile_cons_of_pos (isWordChar_of_isWordStart hs), List.cons_append] at he
      have hall := List.all_eq_true.1 hes d (by rw [← (List.cons.inj he).2]; simp)
      rw [hall] at hn
      cases hn
    · by_cases hq : c = '"'
      · subst hq
        cases ho : isOpen cs with
        | true =>
          rw [lexeme_quote_of_open ho]
          exact .openLiteral ((isOpen_iff cs).1 ho)
        | false =>
          obtain ⟨body, hbody, hquoted⟩ := exists_closed ho
          obtain ⟨hescaped, hclosed⟩ := (isQuoted_iff body).1 hquoted
          rw [lexeme_quote, hbody]
          exact .literal hescaped hclosed
      · rw [lexeme, if_neg hd, if_neg hs, if_neg hq]
        exact .single (by simp [isSingle, hc, hd, hs, hq])

theorem number_of_isInteger {text rest : List Char} (h : IsInteger text)
    (longest : ∀ c ∈ rest.head?, ¬ IsInteger (text ++ [c]) ∧ ¬ IsFloat (text ++ [c])) :
    number (text ++ rest) = ⟨.integer, text, rest⟩ := by
  have hstop : ∀ c ∈ rest.head?, c.isDigit = false := fun c hc =>
    Bool.eq_false_iff.2 fun hd => (longest c hc).1 ((isInteger_concat h.2 c).2 hd)
  obtain ⟨h1, h2⟩ := takeWhile_append_of_head h.2 hstop
  rw [number_of_whole, h1, h2]
  intro after he
  rw [h2] at he
  exact (longest '.' (by rw [he]; rfl)).2 ⟨text, [], h, rfl, .inl rfl⟩

theorem number_of_isFloat {text rest : List Char} (h : IsFloat text)
    (longest : ∀ c ∈ rest.head?, ¬ IsInteger (text ++ [c]) ∧ ¬ IsFloat (text ++ [c])) :
    number (text ++ rest) = ⟨.float, text, rest⟩ := by
  obtain ⟨whole, fraction, hw, hf, ht⟩ := h
  have hpoint : ∀ after : List Char, ∀ c ∈ ('.' :: after).head?, c.isDigit = false := by
    intro after c hc
    obtain rfl := Option.some.inj hc
    decide
  rcases ht with rfl | rfl
  · have hstop : ∀ c ∈ rest.head?, c.isDigit = false := by
      refine fun c hc => Bool.eq_false_iff.2 fun hd => (longest c hc).2 ⟨whole, fraction ++ [c], hw, ?_, .inl ?_⟩
      · simp [hf, hd]
      · simp
    obtain ⟨h1, h2⟩ := takeWhile_append_of_head hw.2 (hpoint (fraction ++ rest))
    obtain ⟨h3, h4⟩ := takeWhile_append_of_head hf hstop
    rw [List.append_assoc, List.cons_append, number_of_fraction h2, h1, h3, h4]
    intro after he
    rw [h4] at he
    exact (longest 'f' (by rw [he]; rfl)).2 ⟨whole, fraction, hw, hf, .inr (by simp)⟩
  · have hmark : ∀ c ∈ ('f' :: rest).head?, c.isDigit = false := by
      intro c hc
      obtain rfl := Option.some.inj hc
      decide
    obtain ⟨h1, h2⟩ := takeWhile_append_of_head hw.2 (hpoint (fraction ++ 'f' :: rest))
    obtain ⟨h3, h4⟩ := takeWhile_append_of_head hf hmark
    rw [List.append_assoc, List.cons_append, List.append_assoc, List.singleton_append, number_of_suffix h2 h4, h1, h3]

theorem lexeme_of_isDigit {c : Char} (h : c.isDigit = true) (cs : List Char) : lexeme c cs = number (c :: cs) := by
  rw [lexeme, if_pos h]

/-- A token that stands at the front of a text is what is cut off there. -/
theorem lexeme_of_stands {kind : Kind} {text rest : List Char} (h : Stands kind text rest) :
    ∃ c cs, text = c :: cs ∧ isGap c = false ∧ lexeme c (cs ++ rest) = ⟨kind, text, rest⟩ := by
  cases h with
  | integer form longest =>
    obtain ⟨c, cs, rfl⟩ := List.exists_cons_of_ne_nil form.1
    have hd := isDigit_of_all form.2
    exact ⟨c, cs, rfl, isGap_eq_false_of_isDigit hd, by
      rw [lexeme_of_isDigit hd, ← List.cons_append, number_of_isInteger form longest]⟩
  | float form longest =>
    have hnumber := number_of_isFloat form longest
    obtain ⟨whole, fraction, ⟨hn, hw⟩, -, ht⟩ := form
    obtain ⟨c, cs, rfl⟩ := List.exists_cons_of_ne_nil hn
    have hd := isDigit_of_all hw
    obtain ⟨more, rfl⟩ : ∃ more, text = c :: more := by
      rcases ht with rfl | rfl <;> exact ⟨_, List.cons_append⟩
    exact ⟨c, more, rfl, isGap_eq_false_of_isDigit hd, by
      rw [lexeme_of_isDigit hd, ← List.cons_append, hnumber]⟩
  | word form longest =>
    obtain ⟨c, cs, rfl, start, chars⟩ := form
    have hchars : (c :: cs).all isWordChar = true := by
      rw [List.all_cons, isWordChar_of_isWordStart start, Bool.true_and, chars]
    have hstop : ∀ d ∈ rest.head?, isWordChar d = false := by
      refine fun d hd => Bool.eq_false_iff.2 fun hw => longest d hd ⟨c, cs ++ [d], rfl, start, ?_⟩
      rw [List.all_append, chars, List.all_cons, hw]
      rfl
    obtain ⟨h1, h2⟩ := takeWhile_append_of_head hchars hstop
    rw [List.cons_append] at h1 h2
    refine ⟨c, cs, rfl, isGap_eq_false_of_isWordChar (isWordChar_of_isWordStart start), ?_⟩
    rw [lexeme, isDigit_eq_false_of_isWordStart start, if_neg Bool.false_ne_true, if_pos start, h1, h2]
  | @literal body rest escaped closed =>
    have hquoted := (isQuoted_iff body).2 ⟨escaped, closed⟩
    refine ⟨'"', body ++ ['"'], rfl, by decide, ?_⟩
    rw [List.append_assoc, List.singleton_append, lexeme_quote, literalBody_of_isQuoted hquoted]
  | @openLiteral body escaped =>
    exact ⟨'"', body, rfl, by decide, by rw [List.append_nil, lexeme_quote_of_open ((isOpen_iff body).2 escaped)]⟩
  | @single c rest form =>
    obtain ⟨c', cs, hc, hgap, hl⟩ := lexeme_of_spells (.single form)
    obtain ⟨rfl, rfl⟩ := List.cons.inj hc
    refine ⟨c, [], rfl, hgap, ?_⟩
    simp only [isSingle, Bool.and_eq_true, Bool.not_eq_true', bne_iff_ne, ne_eq] at form
    obtain ⟨⟨⟨-, h2⟩, h3⟩, h4⟩ := form
    rw [List.nil_append, lexeme, h2, h3, if_neg Bool.false_ne_true, if_neg Bool.false_ne_true, if_neg h4]

/-! ## A text as its tokens -/

/-- A token, with the gap before it. -/
structure Piece where
  gap : List Char
  kind : Kind
  text : List Char
  deriving DecidableEq, Repr

/-- The part of a text that a token and the gap before it take. -/
def Piece.chars (p : Piece) : List Char := p.gap ++ p.text

/-- Tokens with gaps before them, and a gap after the last one. -/
structure Split where
  pieces : List Piece
  trailing : List Char
  deriving DecidableEq, Repr

namespace Split

/-- The text that is split. -/
def chars (s : Split) : List Char := s.pieces.flatMap Piece.chars ++ s.trailing

/-- There is nothing but white space in the gaps. -/
structure Gapped (s : Split) : Prop where
  before : ∀ p ∈ s.pieces, p.gap.all isGap = true
  trailing : s.trailing.all isGap = true

/-- Besides, every token has the form of its kind, and none could be longer. -/
structure Lawful (s : Split) : Prop extends Gapped s where
  stands : ∀ before p after, s.pieces = before ++ p :: after →
    Stands p.kind p.text (⟨after, s.trailing⟩ : Split).chars

variable {s s' : Split} {p : Piece} {ps : List Piece} {trailing : List Char}

theorem chars_nil : (⟨[], trailing⟩ : Split).chars = trailing := rfl

theorem chars_cons : (⟨p :: ps, trailing⟩ : Split).chars = p.gap ++ (p.text ++ (⟨ps, trailing⟩ : Split).chars) := by
  simp [chars, Piece.chars]

theorem lawful_nil (h : trailing.all isGap = true) : (⟨[], trailing⟩ : Split).Lawful :=
  ⟨⟨by simp, h⟩, by simp⟩

theorem lawful_cons : (⟨p :: ps, trailing⟩ : Split).Lawful ↔
    p.gap.all isGap = true ∧ Stands p.kind p.text (⟨ps, trailing⟩ : Split).chars ∧
      (⟨ps, trailing⟩ : Split).Lawful := by
  refine ⟨fun h => ⟨h.before p List.mem_cons_self, h.stands [] p ps rfl, ?_⟩, fun ⟨hg, hs, h⟩ => ?_⟩
  · exact ⟨⟨fun q hq => h.before q (List.mem_cons_of_mem _ hq), h.trailing⟩,
      fun before q after he => h.stands (p :: before) q after (by rw [List.cons_append, ← he])⟩
  · refine ⟨⟨List.forall_mem_cons.2 ⟨hg, h.before⟩, h.trailing⟩, fun before q after he => ?_⟩
    cases before with
    | nil =>
      obtain ⟨rfl, rfl⟩ := List.cons.inj he
      exact hs
    | cons b before => exact h.stands before q after (List.cons.inj he).2

/-- The first token of a split is what is cut off after the first gap. -/
theorem Lawful.first (h : (⟨p :: ps, trailing⟩ : Split).Lawful) :
    ∃ c cs, p.text = c :: cs ∧ isGap c = false ∧
      (⟨p :: ps, trailing⟩ : Split).chars = p.gap ++ c :: (cs ++ (⟨ps, trailing⟩ : Split).chars) ∧
      lexeme c (cs ++ (⟨ps, trailing⟩ : Split).chars) = ⟨p.kind, p.text, (⟨ps, trailing⟩ : Split).chars⟩ := by
  obtain ⟨-, hs, -⟩ := lawful_cons.1 h
  obtain ⟨c, cs, ht, hc, hl⟩ := lexeme_of_stands hs
  refine ⟨c, cs, ht, hc, ?_, hl⟩
  rw [chars_cons, ht, List.cons_append]

/-- Every text can be split. -/
theorem exists_lawful (cs : List Char) : ∃ s : Split, s.chars = cs ∧ s.Lawful := by
  refine @by_tokens (fun cs => ∃ s : Split, s.chars = cs ∧ s.Lawful) (fun cs hcs => ?_)
    (fun gap c rest hgap hc ih => ?_) cs
  · exact ⟨⟨[], cs⟩, chars_nil, lawful_nil hcs⟩
  · obtain ⟨⟨ps, trailing⟩, hchars, hlawful⟩ := ih
    have hstands := stands_lexeme hc rest
    rw [← hchars] at hstands
    refine ⟨⟨⟨gap, (lexeme c rest).kind, (lexeme c rest).text⟩ :: ps, trailing⟩, ?_,
      lawful_cons.2 ⟨hgap, hstands, hlawful⟩⟩
    rw [chars_cons, hchars, lexeme_append]

/-- A text that is white space alone has no tokens. -/
theorem Lawful.pieces_eq_nil (h : s.Lawful) (hall : s.chars.all isGap = true) : s.pieces = [] := by
  obtain ⟨pieces, trailing⟩ := s
  cases pieces with
  | nil => rfl
  | cons p ps =>
    obtain ⟨c, cs, -, hc, hchars, -⟩ := h.first
    have hgap := List.all_eq_true.1 hall c (by rw [hchars]; simp)
    rw [hc] at hgap
    cases hgap

/-- After a gap comes a character that belongs to no gap. -/
theorem gap_eq {gap gap' : List Char} {c c' : Char} {rest rest' : List Char} (h : gap.all isGap = true)
    (h' : gap'.all isGap = true) (hc : isGap c = false) (hc' : isGap c' = false)
    (he : gap ++ c :: rest = gap' ++ c' :: rest') : gap = gap' ∧ c :: rest = c' :: rest' := by
  have hhead : ∀ (ds : List Char) {d : Char}, isGap d = false → ∀ e ∈ (d :: ds).head?, isGap e = false := by
    intro ds d hd e he
    obtain rfl := Option.some.inj he
    exact hd
  obtain ⟨h1, h2⟩ := takeWhile_append_of_head h (hhead rest hc)
  obtain ⟨h3, h4⟩ := takeWhile_append_of_head h' (hhead rest' hc')
  rw [he] at h1 h2
  exact ⟨h1.symm.trans h3, h2.symm.trans h4⟩

/-- A text can be split in one way only. -/
theorem Lawful.unique (h : s.Lawful) (h' : s'.Lawful) (he : s'.chars = s.chars) : s' = s := by
  obtain ⟨pieces, trailing⟩ := s
  obtain ⟨pieces', trailing'⟩ := s'
  induction pieces generalizing pieces' with
  | nil =>
    have hall := h.trailing
    have hnil : pieces' = [] := h'.pieces_eq_nil (by rw [he, chars_nil]; exact hall)
    subst hnil
    rw [chars_nil, chars_nil] at he
    rw [he]
  | cons p ps ih =>
    obtain ⟨c, cs, -, hc, hchars, hl⟩ := h.first
    obtain ⟨hgap, -, htail⟩ := lawful_cons.1 h
    cases pieces' with
    | nil =>
      have hnil := h.pieces_eq_nil (by rw [← he, chars_nil]; exact h'.trailing)
      cases hnil
    | cons p' ps' =>
      obtain ⟨c', cs', -, hc', hchars', hl'⟩ := h'.first
      obtain ⟨hgap', -, htail'⟩ := lawful_cons.1 h'
      rw [hchars, hchars'] at he
      obtain ⟨hg, hrest⟩ := gap_eq hgap' hgap hc' hc he
      obtain ⟨rfl, hbody⟩ := List.cons.inj hrest
      rw [hbody, hl] at hl'
      obtain ⟨hkind, htext, hafter⟩ := Lexeme.mk.inj hl'
      obtain ⟨rfl, rfl⟩ := Split.mk.inj (ih htail ps' htail' hafter.symm)
      obtain ⟨gap, kind, text⟩ := p
      obtain ⟨gap', kind', text'⟩ := p'
      dsimp only at hg hkind htext
      rw [hg, hkind, htext]

/-- The gaps between the tokens follow from the tokens. -/
theorem Lawful.gaps_unique (h : s.Lawful) (h' : s'.Gapped) (he : s'.chars = s.chars)
    (ht : s'.pieces.map Piece.text = s.pieces.map Piece.text) :
    s'.pieces.map Piece.gap = s.pieces.map Piece.gap ∧ s'.trailing = s.trailing := by
  obtain ⟨pieces, trailing⟩ := s
  obtain ⟨pieces', trailing'⟩ := s'
  dsimp only at ht ⊢
  induction pieces generalizing pieces' with
  | nil =>
    obtain rfl : pieces' = [] := List.map_eq_nil_iff.1 ht
    exact ⟨rfl, he⟩
  | cons p ps ih =>
    obtain ⟨c, cs, htext, hc, hchars, -⟩ := h.first
    obtain ⟨hgap, -, htail⟩ := lawful_cons.1 h
    cases pieces' with
    | nil => cases ht
    | cons p' ps' =>
      obtain ⟨htext', ht⟩ := List.cons.inj ht
      rw [hchars, chars_cons, htext', htext, List.cons_append] at he
      obtain ⟨hg, hrest⟩ := gap_eq (h'.before p' List.mem_cons_self) hgap hc hc he
      have hafter := List.append_cancel_left (List.cons.inj hrest).2
      obtain ⟨hgaps, htrailing⟩ :=
        ih htail ps' ⟨fun q hq => h'.before q (List.mem_cons_of_mem _ hq), h'.trailing⟩ hafter ht
      exact ⟨by rw [List.map_cons, List.map_cons, hg, hgaps], htrailing⟩

end Split

end ShaderBuild.Token

namespace ShaderBuild.Scanner

open Text Token

/-! ## What a cursor reads -/

/-- The cursor after some tokens were read. -/
def after (s : Scanner) : Nat → Scanner
  | 0 => s
  | n + 1 => s.next.2.after n

theorem after_add (s : Scanner) (m n : Nat) : s.after (m + n) = (s.after m).after n := by
  induction m generalizing s with
  | zero => rw [Nat.zero_add, after]
  | succ m ih => rw [Nat.add_right_comm, after, after, ih]

variable {s : Scanner}

/-- Reading a token of a split text leaves the others, split as before. -/
theorem next_of_lawful {p : Piece} {ps : List Piece} {trailing : List Char}
    (h : (⟨p :: ps, trailing⟩ : Split).Lawful) (hr : s.rest = (⟨p :: ps, trailing⟩ : Split).chars) :
    s.next.1 = ⟨p.kind, String.ofList p.text, s.line + lineFeeds p.gap⟩ ∧
      s.next.2.rest = (⟨ps, trailing⟩ : Split).chars ∧ s.next.2.line = s.line + lineFeeds p.chars := by
  obtain ⟨c, cs, -, hc, hchars, hl⟩ := h.first
  have hscan := scan_token (Split.lawful_cons.1 h).1 hc (cs ++ (⟨ps, trailing⟩ : Split).chars) s.line
  rw [← hchars, hl, ← hr] at hscan
  have hline : s.line + lineFeeds p.chars = s.line + lineFeeds p.gap + lineFeeds p.text := by
    rw [Piece.chars, lineFeeds_append, UInt32.add_assoc]
  rw [hline, next, hscan]
  exact ⟨rfl, rfl, rfl⟩

/-- After some tokens of a split text the others are left. -/
theorem after_pieces {before later : List Piece} {trailing : List Char}
    (h : (⟨before ++ later, trailing⟩ : Split).Lawful) (hr : s.rest = (⟨before ++ later, trailing⟩ : Split).chars) :
    (s.after before.length).rest = (⟨later, trailing⟩ : Split).chars ∧
      (s.after before.length).line = s.line + lineFeeds (before.flatMap Piece.chars) ∧
      (⟨later, trailing⟩ : Split).Lawful := by
  induction before generalizing s with
  | nil => exact ⟨hr, (UInt32.add_zero _).symm, h⟩
  | cons p before ih =>
    obtain ⟨-, hrest, hline⟩ := next_of_lawful h hr
    obtain ⟨-, -, htail⟩ := Split.lawful_cons.1 h
    obtain ⟨h1, h2, h3⟩ := ih htail hrest
    refine ⟨h1, ?_, h3⟩
    rw [List.length_cons, after, h2, hline, List.flatMap_cons, lineFeeds_append, UInt32.add_assoc]

/-- In a gap at the end of a text there is no token left, however often one is asked for. -/
theorem next_at_end (h : s.rest.all isGap = true) (n : Nat) :
    (s.after n).next.1 = atEnd (s.line + lineFeeds s.rest) := by
  have hscan := scan_all_gap h s.line
  induction n generalizing s with
  | zero => rw [after, next, hscan]
  | succ n ih =>
    have hrest : s.next.2.rest = [] := by rw [next, hscan]
    have hline : s.next.2.line = s.line + lineFeeds s.rest := by rw [next, hscan]
    rw [after, ih (by rw [hrest]; rfl), hrest, hline, lineFeeds_nil, UInt32.add_zero]
    rw [hrest]
    rfl

/-- A cursor reads a text as the tokens that it is made of, with nothing but white space between them. Every
text can be split into such tokens and gaps, in one way only: each token has the form of its kind, and numbers,
words and literals are as long as they can be. The cursor reads these tokens one after the other, each with the
line that it starts on, and when it is at the end it stays there. The counter of lines has 32 bits, so it shows the
line itself as long as that is below their limit. Given the tokens there is also only one way to place the gaps. -/
theorem scanner_reads_split (source : String) :
    ∃ split : Split, split.chars = source.toList ∧ split.Lawful ∧
      (∀ before p later, split.pieces = before ++ p :: later →
        let front := before.flatMap Piece.chars ++ p.gap
        let t := ((ofSource source).after before.length).next.1
        t = ⟨p.kind, String.ofList p.text, 1 + lineFeeds front⟩ ∧
          (newlines front + 1 < UInt32.size → t.line.toNat = newlines front + 1)) ∧
      (∀ n, split.pieces.length ≤ n → ((ofSource source).after n).next.1 = atEnd (1 + lineFeeds source.toList)) ∧
      (∀ other : Split, other.chars = source.toList → other.Lawful → other = split) ∧
      ∀ other : Split, other.chars = source.toList → other.Gapped →
        other.pieces.map Piece.text = split.pieces.map Piece.text →
        other.pieces.map Piece.gap = split.pieces.map Piece.gap ∧ other.trailing = split.trailing := by
  obtain ⟨⟨pieces, trailing⟩, hchars, hlawful⟩ := Split.exists_lawful source.toList
  refine ⟨⟨pieces, trailing⟩, hchars, hlawful, fun before p later hp => ?_, fun n hn => ?_,
    fun other ho hl => hlawful.unique hl (ho.trans hchars.symm),
    fun other ho hg ht => hlawful.gaps_unique hg (ho.trans hchars.symm) ht⟩
  · dsimp only at hp
    subst hp
    obtain ⟨hrest, hline, htail⟩ := after_pieces (s := ofSource source) hlawful hchars.symm
    have hnext := (next_of_lawful htail hrest).1
    have hfront : ((ofSource source).after before.length).line + lineFeeds p.gap =
        1 + lineFeeds (before.flatMap Piece.chars ++ p.gap) := by
      rw [hline, lineFeeds_append, ← UInt32.add_assoc]
      rfl
    rw [hfront] at hnext
    exact ⟨hnext, fun hlt => hnext ▸ toNat_one_add_lineFeeds hlt⟩
  · obtain ⟨k, rfl⟩ := Nat.exists_eq_add_of_le hn
    have hall : (⟨pieces ++ [], trailing⟩ : Split) = ⟨pieces, trailing⟩ := by rw [List.append_nil]
    obtain ⟨hrest, hline, -⟩ := after_pieces (s := ofSource source) (hall ▸ hlawful) (by rw [hall]; exact hchars.symm)
    have hgap : ((ofSource source).after pieces.length).rest.all isGap = true := by
      rw [hrest]
      exact hlawful.trailing
    rw [after_add, next_at_end hgap, hrest, hline, ← hchars, UInt32.add_assoc, Split.chars_nil, ← lineFeeds_append]
    rfl

end ShaderBuild.Scanner
