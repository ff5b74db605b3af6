import Mathlib.Data.List.Induction
import ShaderBuild.Proofs.Expansion
/-!
# Literals in texts that are expanded

Tokens are scanned by one reader and macros expanded by another one, which do not always agree on literals. To the
first one a backslash in a literal takes only a quote after it along, to the second one any character, so that they
differ on a quote after two backslashes (`Unambiguous` literals have none). And a number with its `f` right after the
point has a word in it for the second one, which is expanded if it names a macro. Apart from this, literals and
numbers with a point are left alone (`literal_copied_iff`).
-/

namespace ShaderBuild.Token

open Text

/-! ## Quotes after backslashes -/

/-- The number of backslashes that a text ends with. -/
def slashes (cs : List Char) : Nat := (cs.reverse.takeWhile (· == '\\')).length

theorem slashes_concat (cs : List Char) (c : Char) :
    slashes (cs ++ [c]) = if c = '\\' then slashes cs + 1 else 0 := by
  rw [slashes, List.reverse_concat, List.takeWhile_cons]
  by_cases hc : c = '\\'
  · rw [if_pos (beq_iff_eq.2 hc), if_pos hc, List.length_cons, slashes]
  · rw [if_neg fun h => hc (beq_iff_eq.1 h), if_neg hc, List.length_nil]

theorem slashes_cons {c : Char} (hc : c ≠ '\\') (cs : List Char) : slashes (c :: cs) = slashes cs := by
  induction cs using List.reverseRecOn with
  | nil => rw [← List.nil_append [c], slashes_concat, if_neg hc]; rfl
  | append_singleton cs d ih => rw [← List.cons_append, slashes_concat, slashes_concat, ih]

/-- No quote stands after an even number of backslashes other than none, which a reader that pairs backslashes takes
for the end of a literal, and one that looks at the last of them does not. -/
def Unambiguous (text : List Char) : Prop := ∀ u v, text = u ++ '"' :: v → slashes u = 0 ∨ slashes u % 2 = 1

instance (text : List Char) : Decidable (Unambiguous text) :=
  decidable_of_iff (∀ k < text.length, text[k]? = some '"' →
      slashes (text.take k) = 0 ∨ slashes (text.take k) % 2 = 1) <| by
    constructor
    · rintro h u v rfl
      have hu := h u.length (by simp) (by simp)
      rwa [List.take_left' rfl] at hu
    · intro h k hk hquote
      refine h (text.take k) (text.drop (k + 1)) ?_
      obtain ⟨_, hget⟩ := List.getElem?_eq_some_iff.1 hquote
      rw [← hget, ← List.drop_eq_getElem_cons, List.take_append_drop]

theorem Unambiguous.of_append {u v : List Char} (h : Unambiguous (u ++ v)) : Unambiguous u := by
  rintro a b rfl
  exact h a (b ++ v) (by rw [List.append_assoc, List.cons_append])

/-! ## Tokens that stand somewhere -/

section Stands
variable {kind : Kind} {text rest : List Char}

theorem Stands.string_cases (h : Stands kind text rest) (hk : kind = .string) :
    ∃ body, QuotesEscaped body ∧
      (text = '"' :: (body ++ ['"']) ∧ body.getLast? ≠ some '\\' ∨ text = '"' :: body ∧ rest = []) := by
  cases h with
  | integer | float => cases hk
  | word => exact absurd hk (ofWord_ne (by decide) _)
  | literal escaped closed => exact ⟨_, escaped, .inl ⟨rfl, closed⟩⟩
  | openLiteral escaped => exact ⟨_, escaped, .inr ⟨rfl, rfl⟩⟩
  | single => exact absurd hk (ofChar_ne (by decide) _)

theorem IsFloat.head_isDigit {text : List Char} (h : IsFloat text) : ∃ d, text.head? = some d ∧ d.isDigit = true := by
  obtain ⟨whole, fraction, ⟨hn, hw⟩, -, ht⟩ := h
  obtain ⟨d, ds, rfl⟩ := List.exists_cons_of_ne_nil hn
  exact ⟨d, by rcases ht with rfl | rfl <;> rfl, isDigit_of_all hw⟩

theorem Stands.isFloat (h : Stands kind text rest) (hk : kind = .float) : IsFloat text := by
  cases h with
  | float form => exact form
  | word => exact absurd hk (ofWord_ne (by decide) _)
  | single => exact absurd hk (ofChar_ne (by decide) _)
  | _ => cases hk

/-- Only a number with an `f` at its end has a digit right after it and ends in a character of words and numbers. -/
theorem Stands.before_digit (h : Stands kind text rest) {d : Char} (hr : rest.head? = some d) (hd : d.isDigit = true) :
    (∀ c ∈ text.getLast?, isWordChar c = false) ∨
      ∃ whole fraction, text = whole ++ '.' :: (fraction ++ ['f']) ∧ whole.all Char.isDigit = true ∧
        fraction.all Char.isDigit = true := by
  cases h with
  | integer form longest => exact absurd ((isInteger_concat form.2 d).2 hd) (longest d hr).1
  | float form longest =>
    obtain ⟨whole, fraction, hw, hf, rfl | rfl⟩ := form
    · refine absurd ⟨whole, fraction ++ [d], hw, ?_, .inl (by simp)⟩ (longest d hr).2
      rw [List.all_append, hf, List.all_cons, hd]
      rfl
    · exact .inr ⟨whole, fraction, rfl, hw.2, hf⟩
  | word form longest =>
    obtain ⟨c, cs, rfl, start, chars⟩ := form
    refine absurd ⟨c, cs ++ [d], rfl, start, ?_⟩ (longest d hr)
    rw [List.all_append, chars, List.all_cons, isWordChar, Char.isAlphanum, hd, Bool.or_true]
    rfl
  | literal =>
    refine .inl fun c hc => ?_
    rw [← List.cons_append, List.getLast?_concat] at hc
    obtain rfl := Option.some.inj hc
    decide
  | openLiteral => cases hr
  | @single c _ form =>
    refine .inl fun c' hc => ?_
    obtain rfl : c = c' := Option.some.inj hc
    simp only [isSingle, Bool.and_eq_true, Bool.not_eq_true'] at form
    obtain ⟨⟨⟨-, hdigit⟩, hstart⟩, -⟩ := form
    refine Bool.eq_false_iff.2 fun hword => ?_
    rw [isWordStart_of_isWordChar hword (by rw [hdigit]; exact Bool.false_ne_true)] at hstart
    cases hstart

end Stands

/-- What is right before a number is a number with an `f` at its end, or else it does not end in a character of words
and numbers. -/
theorem Split.Lawful.before_digit {before later : List Piece} {p : Piece} {trailing : List Char}
    (h : (⟨before ++ p :: later, trailing⟩ : Split).Lawful) {d : Char} (hp : p.text.head? = some d)
    (hd : d.isDigit = true) : (∀ c ∈ (before.flatMap Piece.chars ++ p.gap).getLast?, isWordChar c = false) ∨
      ∃ u fraction, before.flatMap Piece.chars ++ p.gap = u ++ '.' :: (fraction ++ ['f']) ∧
        fraction.all Char.isDigit = true := by
  have hgap : p.gap.all isGap = true := h.before p (by simp)
  rcases List.eq_nil_or_concat' p.gap with hnil | ⟨gap, c, hconcat⟩
  · rw [hnil, List.append_nil]
    rcases List.eq_nil_or_concat' before with rfl | ⟨before, q, rfl⟩
    · exact .inl (by simp)
    · have hstands := h.stands before q (p :: later) (by simp)
      have hhead : (⟨p :: later, trailing⟩ : Split).chars.head? = some d := by
        rw [Split.chars_cons, hnil, List.nil_append, List.head?_append, hp]
        rfl
      obtain ⟨e, es, ht, -⟩ := lexeme_of_stands hstands
      have hchars : (before ++ [q]).flatMap Piece.chars = before.flatMap Piece.chars ++ q.gap ++ q.text := by
        simp [Piece.chars]
      rw [hchars]
      rcases hstands.before_digit hhead hd with hlast | ⟨whole, fraction, hq, -, hf⟩
      · rw [List.getLast?_append_of_ne_nil _ (by rw [ht]; exact List.cons_ne_nil e es)]
        exact .inl hlast
      · exact .inr ⟨before.flatMap Piece.chars ++ q.gap ++ whole, fraction, by rw [hq]; simp, hf⟩
  · refine .inl fun e he => ?_
    rw [hconcat, ← List.append_assoc, List.getLast?_concat] at he
    obtain rfl := Option.some.inj he
    exact (of_isGap (List.all_eq_true.1 hgap c (by rw [hconcat]; simp))).1

theorem QuotesEscaped.of_append {u v : List Char} (h : QuotesEscaped (u ++ v)) : QuotesEscaped u := by
  rintro a b rfl
  exact h a (b ++ v) (by rw [List.append_assoc, List.cons_append])

end ShaderBuild.Token

namespace ShaderBuild.MacroTable

open Text Token

/-- In a literal without an end for the one reader, the other one does not find an end either. -/
theorem inside_after {body : List Char} (hq : QuotesEscaped body) (hu : Unambiguous ('"' :: body)) :
    slashes body % 2 = 1 ∧ Quoting.inside.after body = .escaped ∨
      slashes body % 2 = 0 ∧ Quoting.inside.after body = .inside := by
  induction body using List.reverseRecOn with
  | nil => exact .inr ⟨rfl, rfl⟩
  | append_singleton body c ih =>
    have hstep : Quoting.inside.after (body ++ [c]) = (Quoting.inside.after body).next c := by
      rw [Quoting.after_append]
      rfl
    rw [← List.cons_append] at hu
    rcases ih hq.of_append hu.of_append with ⟨hodd, hstate⟩ | ⟨heven, hstate⟩
    · rw [hstep, hstate, slashes_concat]
      exact .inr ⟨by split <;> omega, rfl⟩
    · rw [hstep, hstate, slashes_concat]
      by_cases hc : c = '\\'
      · subst hc
        exact .inl ⟨by rw [if_pos rfl]; omega, rfl⟩
      · have hquote : c ≠ '"' := by
          -- a quote would stand after a backslash, and so after an odd number of them
          rintro rfl
          obtain ⟨front, rfl⟩ := List.getLast?_eq_some_iff.1 (hq body [] rfl)
          have hcount := hu ('"' :: (front ++ ['\\'])) [] rfl
          rw [slashes_cons (by decide), slashes_concat, if_pos rfl] at hcount
          rw [slashes_concat, if_pos rfl] at heven
          omega
        exact .inr ⟨by rw [if_neg hc], by rw [Quoting.next, if_neg hquote, if_neg hc]⟩

theorem inside_after_ne {body : List Char} (hq : QuotesEscaped body) (hu : Unambiguous ('"' :: body)) :
    Quoting.inside.after body ≠ .outside := by
  rcases inside_after hq hu with ⟨-, h⟩ | ⟨-, h⟩ <;>
  · rw [h]
    decide

/-- What has an end for the one reader has it there for the other one. -/
theorem closed_literal {body : List Char} (hq : QuotesEscaped body) (hlast : body.getLast? ≠ some '\\')
    (hu : Unambiguous ('"' :: body)) : LiteralsClosed ('"' :: (body ++ ['"'])) := by
  have hnone : slashes body = 0 := by
    cases body using List.reverseRecOn with
    | nil => rfl
    | append_singleton body c =>
      rw [slashes_concat, if_neg]
      rintro rfl
      exact hlast List.getLast?_concat
  have hinside : Quoting.inside.after body = .inside := by
    rcases inside_after hq hu with ⟨hodd, -⟩ | ⟨-, h⟩
    · rw [hnone] at hodd
      cases hodd
    · exact h
  have hopen : LiteralsClosed ('"' :: (body ++ ['"'])) ↔ Quoting.inside.after (body ++ ['"']) = .outside := Iff.rfl
  rw [hopen, Quoting.after_append, hinside]
  rfl

/-- A literal with no end before the last of its characters is one piece. -/
theorem quoted_eq_self {cs : List Char} (h : ∀ u v, cs = u ++ v → v ≠ [] → Quoting.inside.after u ≠ .outside) :
    quoted cs = (cs, []) := by
  have happend := quoted_append cs
  have hrest : (quoted cs).2 = [] := by
    rcases quoted_cases cs with ⟨-, -, hout⟩ | hrest
    · by_contra hne
      exact h _ _ happend.symm hne hout
    · exact hrest
  rw [hrest, List.append_nil] at happend
  exact Prod.ext happend hrest

section Copied
variable {f : List Char → List Char}

theorem substitute_literal {cs : List Char} (h : quoted cs = (cs, [])) : substitute f ('"' :: cs) = '"' :: cs := by
  rw [substitute_cons, piece_quote, h, substitute_nil, List.append_nil]
  rfl

/-- A literal is left alone by both readers. -/
theorem substitute_string {text rest : List Char} (h : Stands .string text rest) (hu : Unambiguous text) :
    substitute f text = text := by
  obtain ⟨body, hq, ⟨rfl, -⟩ | ⟨rfl, -⟩⟩ := h.string_cases rfl
  · rw [← List.cons_append] at hu
    refine substitute_literal (quoted_eq_self fun u v hbody hv => ?_)
    obtain ⟨v', c, rfl⟩ := (List.eq_nil_or_concat' v).resolve_left hv
    rw [← List.append_assoc] at hbody
    obtain ⟨rfl, -⟩ := List.append_inj' hbody rfl
    exact inside_after_ne hq.of_append hu.of_append.of_append
  · refine substitute_literal (quoted_eq_self fun u v hbody _ => ?_)
    subst hbody
    exact inside_after_ne hq.of_append (hu.of_append (u := '"' :: u))

/-- Word characters are left alone if they start with a digit. -/
theorem substitute_number {run v : List Char} (hw : run.all isWordChar = true) (hd : ∀ c ∈ run.head?, c.isDigit = true)
    (ha : Apart run v) : substitute f (run ++ v) = run ++ substitute f v := by
  cases run with
  | nil => rfl
  | cons c cs =>
    rw [substitute, pieces_run (List.cons_ne_nil c cs) hw ha, List.flatMap_cons, Piece.ofRun, List.head?_cons,
      Option.any_some, if_pos (hd c rfl)]
    rfl

theorem isWordChar_of_digits {cs : List Char} (h : cs.all Char.isDigit = true) : cs.all isWordChar = true :=
  List.all_eq_true.2 fun c hc => by
    rw [isWordChar, Char.isAlphanum, List.all_eq_true.1 h c hc, Bool.or_true, Bool.true_or]

theorem head_isDigit_of_digits {cs : List Char} (h : cs.all Char.isDigit = true) : ∀ c ∈ cs.head?, c.isDigit = true :=
  fun c hc => List.all_eq_true.1 h c (List.mem_of_mem_head? hc)

/-- After the point of a number, what comes is looked at by itself. -/
theorem substitute_point {whole : List Char} (hw : whole.all Char.isDigit = true) (cs : List Char) :
    substitute f (whole ++ '.' :: cs) = whole ++ '.' :: substitute f cs := by
  have ha : Apart whole ('.' :: cs) := by
    intro _ _ d hd _
    obtain rfl : '.' = d := Option.some.inj hd
    decide
  rw [substitute_number (isWordChar_of_digits hw) (head_isDigit_of_digits hw) ha, substitute_filler (by decide)]

theorem substitute_number_end {run : List Char} (hw : run.all isWordChar = true)
    (hd : ∀ c ∈ run.head?, c.isDigit = true) : substitute f run = run := by
  have h := substitute_number (f := f) (v := []) hw hd (by simp [Apart])
  rwa [substitute_nil, List.append_nil] at h

theorem substitute_suffix : substitute f ['f'] = f ['f'] := by
  have hword : IsWord ['f'] := ⟨'f', [], rfl, by decide, rfl⟩
  have h := substitute_word (f := f) (v := []) hword (by simp [Apart])
  rwa [substitute_nil, List.append_nil, List.append_nil] at h

/-- A number with a point is left alone, unless its `f` stands right after the point and is not. -/
theorem substitute_float {text : List Char} (h : IsFloat text) :
    substitute f text = text ↔ (['.', 'f'] <:+ text → f ['f'] = ['f']) := by
  obtain ⟨whole, fraction, hw, hf, rfl | rfl⟩ := h
  · have hsame := substitute_number_end (f := f) (isWordChar_of_digits hf) (head_isDigit_of_digits hf)
    rw [substitute_point hw.2, hsame]
    refine iff_of_true rfl fun hbare => ?_
    have hno : ∀ {digits : List Char}, digits.all Char.isDigit = true → 'f' ∉ digits := fun hall hmem =>
      absurd (List.all_eq_true.1 hall 'f' hmem) (by decide)
    have hmem : 'f' ∈ whole ++ '.' :: fraction := hbare.subset (by decide)
    simp [hno hw.2, hno hf] at hmem
  · rw [substitute_point hw.2]
    cases fraction using List.reverseRecOn with
    | nil =>
      have hbare : ['.', 'f'] <:+ whole ++ '.' :: ([] ++ ['f']) := List.suffix_append whole _
      rw [List.nil_append, substitute_suffix, List.append_cancel_left_eq, List.cons.injEq]
      exact ⟨fun h _ => h.2, fun h => ⟨rfl, h hbare⟩⟩
    | append_singleton fraction d =>
      have hall : (fraction ++ [d] ++ ['f']).all isWordChar = true := by
        rw [List.all_append, isWordChar_of_digits hf]
        decide
      have hd : d.isDigit = true := List.all_eq_true.1 hf d (by simp)
      rw [substitute_number_end hall]
      · refine iff_of_true rfl fun hbare => ?_
        obtain ⟨front, hfront⟩ := hbare
        have hends : front ++ ['.'] ++ ['f'] = whole ++ '.' :: fraction ++ [d] ++ ['f'] := by simpa using hfront
        obtain ⟨hpoint, -⟩ := List.append_inj' hends rfl
        obtain rfl : '.' = d := List.singleton_inj.1 (List.append_inj' hpoint rfl).2
        exact absurd hd (by decide)
      · rw [List.head?_append_of_ne_nil _ (by simp)]
        exact head_isDigit_of_digits hf

end Copied

/-! ## Where literals begin and end -/

theorem closed_float {text : List Char} (h : IsFloat text) : LiteralsClosed text := by
  have hpoint : ∀ cs : List Char, LiteralsClosed ('.' :: cs) ↔ LiteralsClosed cs := fun _ => Iff.rfl
  obtain ⟨whole, fraction, hw, hf, rfl | rfl⟩ := h
  · rw [(closed_run (isWordChar_of_digits hw.2)).append_iff, hpoint]
    exact closed_run (isWordChar_of_digits hf)
  · rw [(closed_run (isWordChar_of_digits hw.2)).append_iff, hpoint,
      (closed_run (isWordChar_of_digits hf)).append_iff]
    decide

/-- A token ends outside literals, if anything follows it. -/
theorem closed_of_stands {kind : Token.Kind} {text rest : List Char} (h : Stands kind text rest) (hr : rest ≠ [])
    (hu : kind = .string → Unambiguous text) : LiteralsClosed text := by
  cases h with
  | integer form => exact closed_run (isWordChar_of_digits form.2)
  | float form => exact closed_float form
  | word form => exact closed_run (isWord_run form).1
  | @literal body _ escaped closed =>
    have hu := hu rfl
    rw [← List.cons_append] at hu
    exact closed_literal escaped closed hu.of_append
  | openLiteral => exact absurd rfl hr
  | single form =>
    simp only [isSingle, Bool.and_eq_true, bne_iff_ne] at form
    exact closed_of_forall (List.forall_mem_singleton.2 form.2)

theorem closed_gap {gap : List Char} (h : gap.all isGap = true) : LiteralsClosed gap := by
  refine closed_of_forall fun c hc => ?_
  rintro rfl
  exact absurd (List.all_eq_true.1 h _ hc) (by decide)

/-- Between tokens a text is outside literals. -/
theorem closed_before {before later : List Token.Piece} {trailing : List Char}
    (h : (⟨before ++ later, trailing⟩ : Split).Lawful) (hl : (⟨later, trailing⟩ : Split).chars ≠ [])
    (hu : ∀ q ∈ before, q.kind = .string → Unambiguous q.text) : LiteralsClosed (before.flatMap Token.Piece.chars) := by
  induction before with
  | nil => exact closed_nil
  | cons q before ih =>
    obtain ⟨hgap, hstands, htail⟩ := Split.lawful_cons.1 h
    obtain ⟨huq, hu⟩ := List.forall_mem_cons.1 hu
    have hrest : (⟨before ++ later, trailing⟩ : Split).chars ≠ [] := by
      rw [Split.chars, List.flatMap_append, List.append_assoc]
      exact List.append_ne_nil_of_right_ne_nil _ hl
    rw [List.flatMap_cons, Token.Piece.chars, List.append_assoc, (closed_gap hgap).append_iff,
      (closed_of_stands hstands hrest huq).append_iff]
    exact ih htail hu

/-- A literal does not end in word characters. -/
theorem LiteralsClosed.of_append_run {u run : List Char} (h : LiteralsClosed (u ++ run))
    (hw : run.all isWordChar = true) : LiteralsClosed u := by
  rw [LiteralsClosed, Quoting.after_append] at h
  exact (Quoting.after_eq_outside_iff (ne_quote_of_run hw) _).1 h

section Copied
variable {f : List Char → List Char}

/-- A number is left alone if it goes on where another one begins. -/
theorem substitute_append_number {u run whole : List Char} (hc : LiteralsClosed u) (ha : Apart u run)
    (hr : run.all isWordChar = true) (hd : ∀ c ∈ run.head?, c.isDigit = true) (hn : run ≠ [])
    (hw : whole.all Char.isDigit = true) (cs : List Char) :
    substitute f (u ++ run ++ (whole ++ '.' :: cs)) =
      substitute f (u ++ run) ++ substitute f (whole ++ '.' :: cs) := by
  have hpoint : ∀ {cs' : List Char}, Apart cs' ('.' :: cs) := by
    intro cs' _ _ d hd _
    obtain rfl : '.' = d := Option.some.inj hd
    decide
  have hall : (run ++ whole).all isWordChar = true := by
    rw [List.all_append, hr, isWordChar_of_digits hw]
    rfl
  have hhead : ∀ c ∈ (run ++ whole).head?, c.isDigit = true := by
    rw [List.head?_append_of_ne_nil run hn]
    exact hd
  have hwhole : Apart u (run ++ whole ++ '.' :: cs) := by
    rw [List.append_assoc]
    exact (apart_append_right hn).2 ha
  rw [List.append_assoc, ← List.append_assoc run, substitute_append hc hwhole, substitute_number hall hhead hpoint,
    substitute_append hc ha, substitute_number_end hr hd,
    substitute_number (isWordChar_of_digits hw) (head_isDigit_of_digits hw) hpoint]
  simp only [List.append_assoc]

/-- A number with a point is cut off from what is before it, unless that ends in a point and an `f`. -/
theorem substitute_before_float {pre tok : List Char} (hc : LiteralsClosed pre) (ht : IsFloat tok)
    (hends : (∀ c ∈ pre.getLast?, isWordChar c = false) ∨
      ∃ u fraction, pre = u ++ '.' :: (fraction ++ ['f']) ∧ fraction.all Char.isDigit = true)
    (hf : ¬ ['.', 'f'] <:+ pre) (post : List Char) :
    substitute f (pre ++ (tok ++ post)) = substitute f pre ++ substitute f (tok ++ post) := by
  rcases hends with hlast | ⟨u, fraction, rfl, hd⟩
  · refine substitute_append hc fun c hm _ _ hword => ?_
    rw [hlast c hm] at hword
    cases hword
  · obtain ⟨whole, cs, hw, htok⟩ : ∃ whole cs, IsInteger whole ∧ tok ++ post = whole ++ '.' :: cs := by
      obtain ⟨whole, fraction, hw, -, rfl | rfl⟩ := ht <;> exact ⟨whole, _, hw, by rw [List.append_assoc]; rfl⟩
    have hn : fraction ≠ [] := by
      rintro rfl
      exact hf (List.suffix_append u _)
    have hrun : (fraction ++ ['f']).all isWordChar = true := by
      rw [List.all_append, isWordChar_of_digits hd]
      decide
    have hhead : ∀ c ∈ (fraction ++ ['f']).head?, c.isDigit = true := by
      rw [List.head?_append_of_ne_nil fraction hn]
      exact head_isDigit_of_digits hd
    have ha : Apart (u ++ ['.']) (fraction ++ ['f']) := by
      intro c hm _ _ hword
      rw [List.getLast?_concat] at hm
      obtain rfl := Option.some.inj hm
      exact absurd hword (by decide)
    have hsplit : u ++ '.' :: (fraction ++ ['f']) = u ++ ['.'] ++ (fraction ++ ['f']) := by simp
    rw [hsplit] at hc ⊢
    rw [htok]
    exact substitute_append_number (hc.of_append_run hrun) ha hrun hhead (by simp) hw.2 cs

section Token
variable {kind : Token.Kind} {pre tok post : List Char}

/-- What is before a literal or a number with a point and what is after it are looked at by themselves. -/
theorem substitute_around (hs : Stands kind tok post) (hk : kind = .float ∨ kind = .string) (hc : LiteralsClosed pre)
    (hends : ∀ d ∈ tok.head?, d.isDigit = true → (∀ c ∈ pre.getLast?, isWordChar c = false) ∨
      ∃ u fraction, pre = u ++ '.' :: (fraction ++ ['f']) ∧ fraction.all Char.isDigit = true)
    (hf : kind = .float → ¬ ['.', 'f'] <:+ pre) (htok : post = [] ∨ LiteralsClosed tok)
    (hpost : ∀ c ∈ post.head?, isWordChar c = false) :
    substitute f (pre ++ (tok ++ post)) = substitute f pre ++ (substitute f tok ++ substitute f post) := by
  have hafter : substitute f (tok ++ post) = substitute f tok ++ substitute f post := by
    rcases htok with rfl | htok
    · rw [substitute_nil, List.append_nil, List.append_nil]
    · exact substitute_append htok fun _ _ d hd _ => hpost d hd
  rw [← hafter]
  rcases hk with hk | hk
  · have hform := hs.isFloat hk
    obtain ⟨d, hd, hdigit⟩ := hform.head_isDigit
    exact substitute_before_float hc hform (hends d hd hdigit) (hf hk) post
  · refine substitute_append hc fun _ _ d hd _ => ?_
    obtain ⟨cs, rfl⟩ : ∃ cs, tok = '"' :: cs := by
      obtain ⟨body, -, ⟨rfl, -⟩ | ⟨rfl, -⟩⟩ := hs.string_cases hk <;> exact ⟨_, rfl⟩
    obtain rfl : '"' = d := Option.some.inj hd
    decide

/-- A literal or a number with a point is left alone, unless it is a number with its `f` right after the point and
that is not. -/
theorem substitute_token (hs : Stands kind tok post) (hk : kind = .float ∨ kind = .string)
    (hu : kind = .string → Unambiguous tok) :
    substitute f tok = tok ↔ (kind = .float → ['.', 'f'] <:+ tok → f ['f'] = ['f']) := by
  rcases hk with rfl | rfl
  · rw [substitute_float (hs.isFloat rfl)]
    exact ⟨fun h _ => h, fun h => h rfl⟩
  · exact iff_of_true (substitute_string hs (hu rfl)) fun h => by cases h

end Token

end Copied

end ShaderBuild.MacroTable

namespace ShaderBuild.Scanner

open Text Token MacroTable

/-- A cursor reads a token of some kind after a number of others, with this before it in the text and that after. -/
structure Reads (source : String) (n : Nat) (kind : Token.Kind) (pre tok post : List Char) : Prop where
  text : source.toList = pre ++ (tok ++ post)
  kind : ((ofSource source).after n).next.1.kind = kind
  token : ((ofSource source).after n).next.1.text = String.ofList tok
  rest : ((ofSource source).after n).next.2.rest = post

section Reads
variable {source : String} {n : Nat} {kind : Token.Kind} {pre tok post : List Char}

/-- After all tokens of a split text the end is read. -/
theorem next_after_pieces {split : Split} (h : split.Lawful) (hs : split.chars = source.toList)
    (hn : split.pieces.length ≤ n) : ((ofSource source).after n).next.1.kind = .endOfInput := by
  obtain ⟨pieces, trailing⟩ := split
  obtain ⟨k, rfl⟩ := Nat.exists_eq_add_of_le hn
  have hall : (⟨pieces ++ [], trailing⟩ : Split) = ⟨pieces, trailing⟩ := by rw [List.append_nil]
  obtain ⟨hrest, -, -⟩ := after_pieces (s := ofSource source) (hall ▸ h) (by rw [hall]; exact hs.symm)
  have hgap : ((ofSource source).after pieces.length).rest.all isGap = true := by
    rw [hrest]
    exact h.trailing
  rw [after_add, next_at_end hgap]
  rfl

/-- After the tokens of some pieces the token of the next one is read. -/
theorem next_after_piece {before later : List Token.Piece} {p : Token.Piece} {trailing : List Char}
    (h : (⟨before ++ p :: later, trailing⟩ : Split).Lawful)
    (hs : (⟨before ++ p :: later, trailing⟩ : Split).chars = source.toList) :
    ((ofSource source).after before.length).next.1.kind = p.kind ∧
      ((ofSource source).after before.length).next.1.text = String.ofList p.text ∧
      ((ofSource source).after before.length).next.2.rest = (⟨later, trailing⟩ : Split).chars := by
  obtain ⟨hrest, -, htail⟩ := after_pieces (s := ofSource source) h hs.symm
  obtain ⟨htoken, hafter, -⟩ := next_of_lawful htail hrest
  exact ⟨congrArg Token.kind htoken, congrArg Token.text htoken, hafter⟩

/-- What is read is a piece of the text as it is split. -/
theorem Reads.exists_split (h : Reads source n kind pre tok post) (hk : kind ≠ .endOfInput) :
    ∃ before p later trailing, (⟨before ++ p :: later, trailing⟩ : Split).Lawful ∧
      (⟨before ++ p :: later, trailing⟩ : Split).chars = source.toList ∧ before.length = n ∧ p.kind = kind ∧
      p.text = tok ∧ pre = before.flatMap Token.Piece.chars ++ p.gap ∧ post = (⟨later, trailing⟩ : Split).chars := by
  obtain ⟨⟨pieces, trailing⟩, hchars, hlawful⟩ := Split.exists_lawful source.toList
  have hlt : n < pieces.length := by
    by_contra hge
    exact hk (h.kind.symm.trans (next_after_pieces hlawful hchars (Nat.le_of_not_lt hge)))
  obtain ⟨before, p, later, rfl, rfl⟩ : ∃ before p later, pieces = before ++ p :: later ∧ before.length = n :=
    ⟨pieces.take n, pieces[n], pieces.drop (n + 1), by simp, by simp [Nat.le_of_lt hlt]⟩
  obtain ⟨hkind, htext, hrest⟩ := next_after_piece hlawful hchars
  have htok : p.text = tok := String.ofList_injective (htext.symm.trans h.token)
  have hpost : post = (⟨later, trailing⟩ : Split).chars := h.rest.symm.trans hrest
  refine ⟨before, p, later, trailing, hlawful, hchars, rfl, hkind.symm.trans h.kind, htok, ?_, hpost⟩
  have happend := hchars.trans h.text
  rw [Split.chars, List.flatMap_append, List.flatMap_cons, Token.Piece.chars, htok, hpost, Split.chars] at happend
  simp only [← List.append_assoc, List.append_left_inj] at happend
  exact happend.symm

/-- What holds of all string tokens that are read up to a piece holds of the pieces. -/
theorem forall_strings {P : List Char → Prop} {before later : List Token.Piece} {p : Token.Piece}
    {trailing : List Char} (h : (⟨before ++ p :: later, trailing⟩ : Split).Lawful)
    (hs : (⟨before ++ p :: later, trailing⟩ : Split).chars = source.toList)
    (hP : ∀ m ≤ before.length, ((ofSource source).after m).next.1.kind = .string →
      P ((ofSource source).after m).next.1.text.toList) :
    ∀ q ∈ before ++ [p], q.kind = .string → P q.text := by
  intro q hq hk
  obtain ⟨front, back, hb⟩ := List.append_of_mem hq
  have hsplit : before ++ p :: later = front ++ q :: (back ++ later) := by
    rw [List.append_cons, hb, List.append_assoc, List.cons_append]
  have hle : front.length ≤ before.length := by
    have hlength := congrArg List.length hb
    simp only [List.length_append, List.length_cons, List.length_nil] at hlength
    omega
  rw [hsplit] at h hs
  obtain ⟨hkind, htext, -⟩ := next_after_piece h hs
  have hP := hP front.length hle (hkind.trans hk)
  rwa [htext, String.toList_ofList] at hP

/-- Literals and numbers with a point are left alone if they are unambiguous. The other reader is outside literals
where such a token begins and where it ends, and what is before and after it is expanded by itself. A number is left
alone exactly if its `f` does not stand right after the point or is not changed there. -/
theorem literal_copied_iff (t : MacroTable) (h : Reads source n kind pre tok post)
    (hkind : kind = .float ∨ kind = .string) (hpost : ∀ c ∈ post.head?, isWordChar c = false)
    (hu : ∀ m ≤ n, ((ofSource source).after m).next.1.kind = .string →
      Unambiguous ((ofSource source).after m).next.1.text.toList)
    (hleft : kind = .float → ¬ ['.', 'f'] <:+ pre) :
    LiteralsClosed pre ∧ (post = [] ∨ LiteralsClosed (pre ++ tok)) ∧
      (t.expand source.toList = t.expand pre ++ (tok ++ t.expand post) ↔
        (kind = .float → ['.', 'f'] <:+ tok → t.expand ['f'] = ['f'])) := by
  have hne : kind ≠ .endOfInput := by rcases hkind with rfl | rfl <;> decide
  obtain ⟨before, p, later, trailing, hlawful, hchars, rfl, rfl, rfl, rfl, rfl⟩ := h.exists_split hne
  obtain ⟨hu, hup⟩ := List.forall_mem_append.1 (forall_strings hlawful hchars hu)
  have hup := List.forall_mem_singleton.1 hup
  have hstands := hlawful.stands before p later rfl
  have hgap : p.gap.all isGap = true := hlawful.before p (by simp)
  have hrest : (⟨p :: later, trailing⟩ : Split).chars ≠ [] := by
    obtain ⟨c, cs, ht, -⟩ := lexeme_of_stands hstands
    rw [Split.chars_cons, ht]
    simp
  have hclosed : LiteralsClosed (before.flatMap Token.Piece.chars ++ p.gap) :=
    ((closed_before hlawful hrest hu).append_iff _).2 (closed_gap hgap)
  have htok : (⟨later, trailing⟩ : Split).chars = [] ∨ LiteralsClosed p.text := by
    by_cases hn : (⟨later, trailing⟩ : Split).chars = []
    · exact .inl hn
    · exact .inr (closed_of_stands hstands hn hup)
  refine ⟨hclosed, htok.imp_right (hclosed.append_iff _).2, ?_⟩
  have hf : t.expand ['f'] = t.expandWord [] ['f'] := by rw [expand_eq, expandWithin_eq, substitute_suffix]
  rw [hf, ← substitute_token hstands hkind hup, h.text]
  simp only [expand_eq, expandWithin_eq]
  rw [substitute_around hstands hkind hclosed (fun d hd => hlawful.before_digit hd) hleft htok hpost,
    List.append_cancel_left_eq, List.append_left_inj]

end Reads

/-- A number that is between another one and a word, after a literal with a quote after three backslashes. -/
theorem literal_copied_iff_touching :
    let t : MacroTable := .ofList [⟨"f", "BAD"⟩, ⟨"NAME", "x"⟩]
    let source := "NAME \"\\\\\\\" f\" 1.0f5.5f;f"
    let pre := "NAME \"\\\\\\\" f\" 1.0f".toList
    (Reads source 3 .float pre "5.5f".toList ";f".toList ∧
      (∀ m ≤ 3, ((ofSource source).after m).next.1.kind = .string →
        Unambiguous ((ofSource source).after m).next.1.text.toList) ∧ ¬ ['.', 'f'] <:+ pre) ∧
    LiteralsClosed pre ∧ t.expand source.toList = t.expand pre ++ ("5.5f".toList ++ t.expand ";f".toList) := by
  intro t source pre
  have hreads : Reads source 3 .float pre "5.5f".toList ";f".toList :=
    ⟨by decide +kernel, by decide +kernel, by decide +kernel, by decide +kernel⟩
  have hu : ∀ m ≤ 3, ((ofSource source).after m).next.1.kind = .string →
      Unambiguous ((ofSource source).after m).next.1.text.toList := by decide +kernel
  have hleft : ¬ ['.', 'f'] <:+ pre := by decide +kernel
  have hbare : ¬ ['.', 'f'] <:+ "5.5f".toList := by decide +kernel
  have hpost : ∀ c ∈ ";f".toList.head?, isWordChar c = false := by
    intro c hc
    obtain rfl : ';' = c := by simpa using hc
    decide
  obtain ⟨hclosed, -, hiff⟩ := literal_copied_iff t hreads (.inl rfl) hpost hu fun _ => hleft
  exact ⟨⟨hreads, hu, hleft⟩, hclosed, hiff.2 fun _ h => absurd h hbare⟩

/-- Whatever token is read as a literal or a number with a point is left alone, if no word or number goes on after
it. -/
def CopiesLiterals (t : MacroTable) (source : String) : Prop :=
  ∀ n kind pre tok post, Reads source n kind pre tok post → kind = .float ∨ kind = .string →
    (∀ c ∈ post.head?, isWordChar c = false) → t.expand source.toList = t.expand pre ++ (tok ++ t.expand post)

/-- A macro is expanded in a number and in the number before one, if its name begins with the `f` after a point, and in
a literal after a quote that stands after two backslashes. -/
theorem literals_not_copied :
    ¬ CopiesLiterals (.ofList [⟨"f", "BAD"⟩]) "1.f" ∧ ¬ CopiesLiterals (.ofList [⟨"f5", "BAD"⟩]) "1.f5.0" ∧
      ¬ CopiesLiterals (.ofList [⟨"N", "1"⟩]) "\"\\\\\" N \"" := by
  refine ⟨fun h => ?_, fun h => ?_, fun h => ?_⟩
  · have hreads : Reads "1.f" 0 .float [] "1.f".toList [] :=
      ⟨by decide +kernel, by decide +kernel, by decide +kernel, by decide +kernel⟩
    exact absurd (h _ _ _ _ _ hreads (.inl rfl) (by simp)) (by decide +kernel)
  · have hreads : Reads "1.f5.0" 1 .float "1.f".toList "5.0".toList [] :=
      ⟨by decide +kernel, by decide +kernel, by decide +kernel, by decide +kernel⟩
    exact absurd (h _ _ _ _ _ hreads (.inl rfl) (by simp)) (by decide +kernel)
  · have hreads : Reads "\"\\\\\" N \"" 0 .string [] "\"\\\\\" N \"".toList [] :=
      ⟨by decide +kernel, by decide +kernel, by decide +kernel, by decide +kernel⟩
    exact absurd (h _ _ _ _ _ hreads (.inr rfl) (by simp)) (by decide +kernel)

end ShaderBuild.Scanner
