import ShaderBuild.Proofs.Scanning
/-!
# Tokens of joined texts

Where two texts are joined at a gap, or elsewhere but in a word or number (`Stops`), the tokens of the whole are
those of the one and then those of the other, which are only further down (`list_append`). The exception is a
text that ends in a string literal: the literal goes on in what follows, and is the same token with more in it
(`list_append_open`).
-/

namespace ShaderBuild.Token

open Text

/-! ## Literals -/

/-- A literal with this after its opening quote has no end. -/
def isOpen : List Char → Bool
  | [] => true
  | '"' :: _ => false
  | '\\' :: '"' :: rest => isOpen rest
  | _ :: rest => isOpen rest

/-- The last of the tokens is a literal that has no end. -/
def OpenEnd (ts : List Token) : Prop := ∃ t ∈ ts.getLast?, t.kind = .string ∧ isOpen t.text.toList.tail = true

instance (ts : List Token) : Decidable (OpenEnd ts) :=
  decidable_of_iff (ts.getLast?.any (fun t => t.kind == .string && isOpen t.text.toList.tail) = true)
    (by simp [OpenEnd, Option.any_eq_true])

theorem literalBody_of_open {cs : List Char} (h : isOpen cs = true) : literalBody cs = (cs, []) := by
  fun_induction isOpen cs with
  | case1 => rfl
  | case2 => cases h
  | case3 rest ih => rw [literalBody, ih h]
  | case4 c rest hquote hpair ih => rw [literalBody, ih h] <;> assumption

/-- A literal that has an end is the same whatever follows the text. -/
theorem literalBody_append_of_closed {cs : List Char} (h : isOpen cs = false) (ds : List Char) :
    literalBody (cs ++ ds) = ((literalBody cs).1, (literalBody cs).2 ++ ds) := by
  fun_induction isOpen cs with
  | case1 => cases h
  | case2 => rfl
  | case3 rest ih => simp only [List.cons_append, literalBody, ih h]
  | case4 c rest hquote hpair ih =>
    have hpair' : ∀ rest', c = '\\' → rest ++ ds = '"' :: rest' → False := by
      intro rest' hc hr
      cases rest with
      | nil => cases h
      | cons d rest => exact hpair rest hc (by rw [(List.cons.inj hr).1])
    rw [List.cons_append, literalBody, ih h, literalBody]
    all_goals assumption

/-! ## One token -/

/-- Words and numbers are made of these. -/
def isPart (c : Char) : Bool := isWordChar c || c == '.'

/-- No word or number goes on from the first text into the second. -/
def Stops (cs ds : List Char) : Prop := ∀ c ∈ cs.getLast?, ∀ d ∈ ds.head?, isPart c = true → isPart d = false

instance (cs ds : List Char) : Decidable (Stops cs ds) :=
  decidable_of_iff ((cs.getLast?.all fun c => ds.head?.all fun d => !isPart c || !isPart d) = true)
    (by simp [Stops, Option.all_eq_true, Bool.or_eq_true, imp_iff_not_or])

theorem isPart_of_isDigit {c : Char} (h : c.isDigit = true) : isPart c = true := by
  simp [isPart, isWordChar, Char.isAlphanum, h]

theorem of_not_isPart {c : Char} (h : isPart c = false) :
    isWordChar c = false ∧ c.isDigit = false ∧ c ≠ '.' ∧ c ≠ 'f' := by
  simp only [isPart, Bool.or_eq_false_iff, beq_eq_false_iff_ne] at h
  refine ⟨h.1, ?_, h.2, ?_⟩
  · simp only [isWordChar, Char.isAlphanum, Bool.or_eq_false_iff] at h
    exact h.1.1.2
  · rintro rfl
    exact absurd h.1 (by decide)

theorem isPart_of_isGap {c : Char} (h : isGap c = true) : isPart c = false := by
  obtain ⟨hword, -, hpoint, -⟩ := of_isGap h
  simp [isPart, hword, hpoint]

section Append
variable {ds : List Char}

theorem Ends.stops (h : Ends ds) (cs : List Char) : Stops cs ds := fun _ _ d hd _ => isPart_of_isGap (h d hd)

theorem Stops.of_suffix {cs cs' : List Char} (h : Stops cs ds) (hs : cs' <:+ cs) : Stops cs' ds := by
  intro c hc
  obtain ⟨front, rfl⟩ := hs
  refine h c ?_
  rw [List.getLast?_append, hc]
  rfl

/-- A run of characters does not go on in what follows, if it can end here. -/
theorem takeWhile_append_of_stop {p : Char → Bool} {cs : List Char}
    (h : cs.dropWhile p = [] → ∀ d ∈ ds.head?, p d = false) :
    (cs ++ ds).takeWhile p = cs.takeWhile p ∧ (cs ++ ds).dropWhile p = cs.dropWhile p ++ ds := by
  induction cs with
  | nil =>
    cases ds with
    | nil => exact ⟨rfl, rfl⟩
    | cons d ds => simp [h rfl d rfl]
  | cons c cs ih =>
    rw [List.cons_append]
    by_cases hc : p c = true
    · rw [List.dropWhile_cons_of_pos hc] at h
      rw [List.takeWhile_cons_of_pos hc, List.takeWhile_cons_of_pos hc, List.dropWhile_cons_of_pos hc,
        List.dropWhile_cons_of_pos hc, (ih h).1, (ih h).2]
      exact ⟨rfl, rfl⟩
    · rw [List.takeWhile_cons_of_neg hc, List.takeWhile_cons_of_neg hc, List.dropWhile_cons_of_neg hc,
        List.dropWhile_cons_of_neg hc]
      exact ⟨rfl, rfl⟩

theorem all_of_dropWhile {p : Char → Bool} {cs : List Char} (h : cs.dropWhile p = []) : ∀ c ∈ cs, p c = true := by
  have happend := List.takeWhile_append_dropWhile (p := p) (l := cs)
  rw [h, List.append_nil] at happend
  exact List.all_eq_true.1 (happend ▸ List.all_takeWhile)

/-- What ends in a word or number is stopped by what follows. -/
theorem Stops.of_all {cs : List Char} (h : Stops cs ds) (hn : cs ≠ []) (hall : ∀ c ∈ cs, isPart c = true) :
    ∀ d ∈ ds.head?, isPart d = false :=
  fun d hd => h _ (List.getLast?_eq_getLast_of_ne_nil hn) d hd (hall _ (List.getLast_mem hn))

theorem number_of_whole {cs : List Char} (h : ∀ rest, cs.dropWhile Char.isDigit ≠ '.' :: rest) :
    number cs = ⟨.integer, cs.takeWhile Char.isDigit, cs.dropWhile Char.isDigit⟩ := by
  rw [number]
  split
  · next rest hr => exact absurd hr (h rest)
  · rfl

theorem number_of_fraction {cs rest : List Char} (h : cs.dropWhile Char.isDigit = '.' :: rest)
    (hf : ∀ after, rest.dropWhile Char.isDigit ≠ 'f' :: after) :
    number cs = ⟨.float, cs.takeWhile Char.isDigit ++ '.' :: rest.takeWhile Char.isDigit,
      rest.dropWhile Char.isDigit⟩ := by
  rw [number, h]
  split
  · next rest' hr =>
    obtain rfl := (List.cons.inj hr).2
    split
    · next after ha => exact absurd ha (hf after)
    · rfl
  · next hne => exact absurd rfl (hne _)

theorem number_of_suffix {cs rest after : List Char} (h : cs.dropWhile Char.isDigit = '.' :: rest)
    (hf : rest.dropWhile Char.isDigit = 'f' :: after) :
    number cs = ⟨.float, cs.takeWhile Char.isDigit ++ '.' :: (rest.takeWhile Char.isDigit ++ ['f']), after⟩ := by
  rw [number, h]
  split
  · next rest' hr =>
    obtain rfl := (List.cons.inj hr).2
    rw [hf]
    rfl
  · next hne => exact absurd rfl (hne _)

/-- A text does not start with a character if neither of its parts does. -/
theorem append_ne_cons {u : List Char} {c : Char} (hu : ∀ rest, u ≠ c :: rest)
    (hd : u = [] → ∀ d ∈ ds.head?, d ≠ c) : ∀ rest, u ++ ds ≠ c :: rest := by
  intro rest he
  cases u with
  | nil =>
    rw [List.nil_append] at he
    exact hd rfl c (by rw [he]; rfl) rfl
  | cons d u => exact hu u (by rw [(List.cons.inj he).1])

theorem number_append_right {cs : List Char} (h : Stops cs ds) (hn : cs ≠ []) :
    number (cs ++ ds) = { number cs with rest := (number cs).rest ++ ds } := by
  have hwhole : cs.dropWhile Char.isDigit = [] → ∀ d ∈ ds.head?, isPart d = false := fun hd =>
    h.of_all hn fun c hc => isPart_of_isDigit (all_of_dropWhile hd c hc)
  obtain ⟨h1, h2⟩ := takeWhile_append_of_stop fun hd d hm => (of_not_isPart (hwhole hd d hm)).2.1
  by_cases hp : ∃ rest, cs.dropWhile Char.isDigit = '.' :: rest
  · obtain ⟨rest, hr⟩ := hp
    have hpoint : ('.' :: rest) <:+ cs := hr ▸ List.dropWhile_suffix _
    have hfraction : rest.dropWhile Char.isDigit = [] → ∀ d ∈ ds.head?, isPart d = false := fun hd =>
      (h.of_suffix hpoint).of_all (List.cons_ne_nil _ _) (List.forall_mem_cons.2
        ⟨by decide, fun c hc => isPart_of_isDigit (all_of_dropWhile hd c hc)⟩)
    obtain ⟨h3, h4⟩ := takeWhile_append_of_stop fun hd d hm => (of_not_isPart (hfraction hd d hm)).2.1
    rw [hr, List.cons_append] at h2
    by_cases hs : ∃ after, rest.dropWhile Char.isDigit = 'f' :: after
    · obtain ⟨after, ha⟩ := hs
      rw [ha, List.cons_append] at h4
      rw [number_of_suffix h2 h4, number_of_suffix hr ha, h1, h3]
    · have hf : ∀ after, rest.dropWhile Char.isDigit ≠ 'f' :: after := not_exists.1 hs
      have hf' := append_ne_cons hf fun hd d hm => (of_not_isPart (hfraction hd d hm)).2.2.2
      rw [← h4] at hf'
      rw [number_of_fraction h2 hf', number_of_fraction hr hf, h1, h3, h4]
  · have hi : ∀ rest, cs.dropWhile Char.isDigit ≠ '.' :: rest := not_exists.1 hp
    have hi' := append_ne_cons hi fun hd d hm => (of_not_isPart (hwhole hd d hm)).2.2.1
    rw [← h2] at hi'
    rw [number_of_whole hi', number_of_whole hi, h1, h2]

/-- A token is the same whatever follows, unless it goes on there or is a literal without an end. -/
theorem lexeme_append_right {c : Char} {cs : List Char} (h : Stops (c :: cs) ds) (hc : c = '"' → isOpen cs = false) :
    lexeme c (cs ++ ds) = { lexeme c cs with rest := (lexeme c cs).rest ++ ds } := by
  unfold lexeme
  by_cases hd : c.isDigit = true
  · rw [if_pos hd, if_pos hd, ← List.cons_append, number_append_right h (List.cons_ne_nil c cs)]
  · rw [if_neg hd, if_neg hd]
    by_cases hs : isWordStart c = true
    · have hword : (c :: cs).dropWhile isWordChar = [] → ∀ d ∈ ds.head?, isWordChar d = false := by
        intro hd d hm
        have hall : ∀ c' ∈ c :: cs, isPart c' = true := fun c' hc' => by
          simp [isPart, all_of_dropWhile hd c' hc']
        exact (of_not_isPart (h.of_all (List.cons_ne_nil c cs) hall d hm)).1
      obtain ⟨h1, h2⟩ := takeWhile_append_of_stop hword
      rw [if_pos hs, if_pos hs, ← List.cons_append]
      dsimp only
      rw [h1, h2]
    · rw [if_neg hs, if_neg hs]
      by_cases hq : c = '"'
      · rw [if_pos hq, if_pos hq, literalBody_append_of_closed (hc hq)]
      · rw [if_neg hq, if_neg hq]

/-- What is left after a token is the end of the text. -/
theorem rest_suffix (gap : List Char) (c : Char) (rest : List Char) :
    (lexeme c rest).rest <:+ gap ++ c :: rest ∧ (c :: rest) <:+ gap ++ c :: rest :=
  ⟨(List.suffix_append (lexeme c rest).text _).trans (lexeme_append c rest ▸ List.suffix_append gap _),
    List.suffix_append gap _⟩

/-! ## All tokens -/

theorem list_of_isEnd {line : UInt32} {cs : List Char} (h : (scan line cs).token.isEnd = true) : list line cs = [] := by
  rw [list, dif_pos h]

theorem list_of_not_isEnd {line : UInt32} {cs : List Char} (h : ¬ (scan line cs).token.isEnd = true) :
    list line cs = (scan line cs).token :: list (scan line cs).line (scan line cs).rest := by
  rw [list, dif_neg h]

theorem isEnd_lexeme {c : Char} (hc : isGap c = false) (cs : List Char) (text : String) (line : UInt32) :
    Token.isEnd ⟨(lexeme c cs).kind, text, line⟩ = false := by
  have hk : (lexeme c cs).kind ≠ .endOfInput := by
    rcases spells_lexeme hc cs with h | ⟨h, -⟩
    · exact h.kind_ne
    · rw [h]
      decide
  exact beq_eq_false_iff_ne.2 hk

/-- A gap and what follows it: either there is nothing, or a token is cut off. -/
theorem gap_cases (cs : List Char) : cs.all isGap = true ∨
    ∃ gap c rest, cs = gap ++ c :: rest ∧ gap.all isGap = true ∧ isGap c = false := by
  have happend := List.takeWhile_append_dropWhile (p := isGap) (l := cs)
  cases hd : cs.dropWhile isGap with
  | nil =>
    rw [hd, List.append_nil] at happend
    exact .inl (happend ▸ List.all_takeWhile)
  | cons c rest =>
    have hn := List.head?_dropWhile_not isGap cs
    rw [hd] at hn happend
    exact .inr ⟨_, c, rest, happend.symm, List.all_takeWhile, by simpa using hn⟩

theorem scan_token {gap : List Char} (hg : gap.all isGap = true) {c : Char} (hc : isGap c = false) (rest : List Char)
    (line : UInt32) : scan line (gap ++ c :: rest) =
      ⟨⟨(lexeme c rest).kind, String.ofList (lexeme c rest).text, line + lineFeeds gap⟩,
        line + lineFeeds gap + lineFeeds (lexeme c rest).text, (lexeme c rest).rest⟩ := by
  have hhead : ∀ d ∈ (c :: rest).head?, isGap d = false := by simp [hc]
  obtain ⟨h1, h2⟩ := takeWhile_append_of_head hg hhead
  rw [scan, h1, h2]

/-- The first token of a text, and the others. -/
theorem list_token {gap : List Char} (hg : gap.all isGap = true) {c : Char} (hc : isGap c = false) (rest : List Char)
    (line : UInt32) : list line (gap ++ c :: rest) =
      ⟨(lexeme c rest).kind, String.ofList (lexeme c rest).text, line + lineFeeds gap⟩ ::
        list (line + lineFeeds gap + lineFeeds (lexeme c rest).text) (lexeme c rest).rest := by
  have hscan := scan_token hg hc rest line
  have hend : ¬ (scan line (gap ++ c :: rest)).token.isEnd = true := by
    rw [hscan, isEnd_lexeme hc]
    exact Bool.false_ne_true
  rw [list_of_not_isEnd hend, hscan]

theorem list_all_gap {cs : List Char} (h : cs.all isGap = true) (line : UInt32) : list line cs = [] :=
  list_of_isEnd (scan_gap h line)

/-- A gap is skipped. -/
theorem list_gap_append {gap : List Char} (h : gap.all isGap = true) (cs : List Char) (line : UInt32) :
    list line (gap ++ cs) = list (line + lineFeeds gap) cs := by
  rcases gap_cases cs with hcs | ⟨gap', c, rest, rfl, hg, hc⟩
  · have hall : (gap ++ cs).all isGap = true := by rw [List.all_append, h, hcs]; rfl
    rw [list_all_gap hall, list_all_gap hcs]
  · have hall : (gap ++ gap').all isGap = true := by rw [List.all_append, h, hg]; rfl
    have hline : line + lineFeeds (gap ++ gap') = line + lineFeeds gap + lineFeeds gap' := by
      rw [lineFeeds_append, UInt32.add_assoc]
    rw [← List.append_assoc, list_token hall hc, list_token hg hc, hline]

/-- What holds of a text of gaps, and of every other one if it holds after the first token, holds of all texts. -/
theorem by_tokens {P : List Char → Prop} (gaps : ∀ cs, cs.all isGap = true → P cs)
    (token : ∀ gap c rest, gap.all isGap = true → isGap c = false → P (lexeme c rest).rest → P (gap ++ c :: rest))
    (cs : List Char) : P cs := by
  rcases gap_cases cs with h | ⟨gap, c, rest, hcs, hg, hc⟩
  · exact gaps cs h
  · have hlt : (lexeme c rest).rest.length < cs.length := by
      rw [hcs, List.length_append]
      exact Nat.lt_of_lt_of_le (length_lexeme_lt c rest) (Nat.le_add_left ..)
    rw [hcs]
    exact token gap c rest hg hc (by_tokens gaps token _)
termination_by cs.length

theorem openEnd_cons {t : Token} {ts : List Token} (h : OpenEnd ts) : OpenEnd (t :: ts) := by
  obtain ⟨last, hl, ho⟩ := h
  refine ⟨last, ?_, ho⟩
  rw [List.getLast?_cons, hl]
  rfl

theorem lexeme_quote (cs : List Char) :
    lexeme '"' cs = ⟨.string, '"' :: (literalBody cs).1, (literalBody cs).2⟩ := by
  have hd : '"'.isDigit = false := by decide
  have hs : isWordStart '"' = false := by decide
  rw [lexeme, hd, hs, if_neg Bool.false_ne_true, if_neg Bool.false_ne_true, if_pos rfl]

/-- A literal without an end is the last token. -/
theorem lexeme_quote_of_open {cs : List Char} (h : isOpen cs = true) : lexeme '"' cs = ⟨.string, '"' :: cs, []⟩ := by
  rw [lexeme_quote, literalBody_of_open h]

theorem openEnd_literal {cs : List Char} (h : isOpen cs = true) (line : UInt32) :
    OpenEnd [⟨.string, String.ofList ('"' :: cs), line⟩] := by
  refine ⟨⟨.string, String.ofList ('"' :: cs), line⟩, rfl, rfl, ?_⟩
  rw [String.toList_ofList]
  exact h

/-- A literal that has an end ends with its own characters. -/
theorem isOpen_literalBody {cs : List Char} (h : isOpen cs = false) : isOpen (literalBody cs).1 = false := by
  fun_induction isOpen cs with
  | case1 => cases h
  | case2 => rfl
  | case3 rest ih => simp only [literalBody, isOpen, ih h]
  | case4 c rest hquote hpair ih =>
    have hbody : literalBody (c :: rest) = (c :: (literalBody rest).1, (literalBody rest).2) := by
      rw [literalBody] <;> assumption
    have hpair' : ∀ more, c = '\\' → (literalBody rest).1 = '"' :: more → False := by
      intro more hc hr
      have happend := literalBody_append rest
      rw [hr, List.cons_append] at happend
      exact hpair _ hc happend.symm
    rw [hbody, isOpen]
    · exact ih h
    · exact hquote
    · exact hpair'

theorem eq_quote_of_kind {c : Char} {cs : List Char} (h : (lexeme c cs).kind = .string) : c = '"' := by
  unfold lexeme at h
  split at h
  · exfalso
    unfold number at h
    dsimp only at h
    split at h
    · split at h <;> cases h
    · cases h
  split at h
  · exact absurd h (ofWord_ne (by decide) _)
  split at h
  · assumption
  · exact absurd h (ofChar_ne (by decide) _)

/-- A token that is not a literal without an end is not what makes a text end in one. -/
theorem OpenEnd.tail {c : Char} {cs : List Char} {line : UInt32} {ts : List Token} (hc : c = '"' → isOpen cs = false)
    (h : OpenEnd (⟨(lexeme c cs).kind, String.ofList (lexeme c cs).text, line⟩ :: ts)) : OpenEnd ts := by
  obtain ⟨t, ht, hk, ho⟩ := h
  cases ts with
  | nil =>
    obtain rfl := Option.some.inj ht
    have hk : (lexeme c cs).kind = .string := hk
    have ho : isOpen (String.ofList (lexeme c cs).text).toList.tail = true := ho
    obtain rfl := eq_quote_of_kind hk
    rw [lexeme_quote, String.toList_ofList, List.tail_cons, isOpen_literalBody (hc rfl)] at ho
    cases ho
  | cons t' ts => exact ⟨t, ht, hk, ho⟩

/-- The tokens of a text are the same whatever follows, unless the last one goes on there. -/
theorem list_append {cs : List Char} (h : Stops cs ds) (line : UInt32) (ho : ¬ OpenEnd (list line cs)) :
    list line (cs ++ ds) = list line cs ++ list (line + lineFeeds cs) ds := by
  induction cs using by_tokens generalizing line with
  | gaps cs hg => rw [list_gap_append hg, list_all_gap hg, List.nil_append]
  | token gap c rest hg hc ih =>
    rw [list_token hg hc] at ho
    have hclosed : c = '"' → isOpen rest = false := by
      rintro rfl
      refine Bool.eq_false_iff.2 fun hopen => ho ?_
      rw [lexeme_quote_of_open hopen, list_nil]
      exact openEnd_literal hopen _
    have happend := congrArg lineFeeds (lexeme_append c rest)
    have hsuffix := rest_suffix gap c rest
    have hlex := lexeme_append_right (h.of_suffix hsuffix.2) hclosed
    rw [lineFeeds_append] at happend
    rw [List.append_assoc, List.cons_append, list_token hg hc, list_token hg hc, hlex]
    dsimp only
    rw [ih (h.of_suffix hsuffix.1) _ fun hr => ho (openEnd_cons hr), List.cons_append, lineFeeds_append, ← happend]
    simp only [UInt32.add_assoc]

/-- A literal without an end takes in what follows it, in part or as a whole. -/
theorem list_append_open (h : Ends ds) (cs : List Char) (line : UInt32) (ho : OpenEnd (list line cs)) :
    ∃ ts t t' more, list line cs = ts ++ [t] ∧ list line (cs ++ ds) = ts ++ t' :: more ∧
      t.kind = .string ∧ t'.kind = .string ∧ t'.text.toList.head? = some '"' := by
  induction cs using by_tokens generalizing line with
  | gaps cs hg =>
    rw [list_all_gap hg] at ho
    obtain ⟨t, ht, -⟩ := ho
    cases ht
  | token gap c rest hg hc ih =>
    rw [list_token hg hc] at ho ⊢
    rw [List.append_assoc, List.cons_append, list_token hg hc]
    by_cases hopen : c = '"' ∧ isOpen rest = true
    · obtain ⟨rfl, hr⟩ := hopen
      rw [lexeme_quote_of_open hr, list_nil, lexeme_quote]
      exact ⟨[], _, _, _, rfl, rfl, rfl, rfl, by rw [String.toList_ofList]; rfl⟩
    · have hclosed : c = '"' → isOpen rest = false := fun hq => Bool.eq_false_iff.2 fun hr => hopen ⟨hq, hr⟩
      obtain ⟨ts, t, t', more, ht, ht', hs⟩ := ih _ (ho.tail hclosed)
      rw [lexeme_append_right (h.stops _) hclosed, ht]
      dsimp only
      rw [ht']
      exact ⟨_ :: ts, t, t', more, rfl, rfl, hs⟩

end Append

/-! ## Lines -/

/-- A token that stands some lines further down. -/
def shift (k : UInt32) (t : Token) : Token := { t with line := t.line + k }

/-- Tokens that stand some lines further down. -/
def Stream.shift (k : UInt32) (s : Stream) : Stream := ⟨s.tokens.map (Token.shift k), s.endLine + k⟩

/-- The same text gives the same tokens wherever it starts. -/
theorem list_shift (k : UInt32) (cs : List Char) (line : UInt32) : list (line + k) cs = (list line cs).map (shift k) := by
  induction cs using by_tokens generalizing line with
  | gaps cs hg => rw [list_all_gap hg, list_all_gap hg, List.map_nil]
  | token gap c rest hg hc ih =>
    have hstart : line + k + lineFeeds gap = line + lineFeeds gap + k := by ac_rfl
    have hrest : line + lineFeeds gap + k + lineFeeds (lexeme c rest).text =
        line + lineFeeds gap + lineFeeds (lexeme c rest).text + k := by ac_rfl
    rw [list_token hg hc, list_token hg hc, List.map_cons, hstart, hrest, ih]
    rfl

/-- A token of a text stands after some of its line feeds. -/
theorem exists_line {cs : List Char} {line : UInt32} {t : Token} (h : t ∈ list line cs) :
    ∃ n ≤ newlines cs, t.line = line + .ofNat n := by
  induction cs using by_tokens generalizing line with
  | gaps cs hg =>
    rw [list_all_gap hg] at h
    cases h
  | token gap c rest hg hc ih =>
    have hcount : newlines (gap ++ c :: rest) =
        newlines gap + newlines (lexeme c rest).text + newlines (lexeme c rest).rest := by
      rw [newlines_append, ← lexeme_append c rest, newlines_append, Nat.add_assoc]
    rw [list_token hg hc] at h
    rcases List.mem_cons.1 h with rfl | h
    · exact ⟨newlines gap, by omega, rfl⟩
    · obtain ⟨n, hn, hline⟩ := ih h
      refine ⟨newlines gap + newlines (lexeme c rest).text + n, by omega, ?_⟩
      rw [hline, UInt32.ofNat_add, UInt32.ofNat_add, lineFeeds, lineFeeds]
      simp only [UInt32.add_assoc]

/-- Counters of lines that do not come around show how far down tokens were moved. -/
theorem toNat_line_shift {t : Token} {k n m : Nat} (hline : t.line = 1 + .ofNat n) (hn : n ≤ m)
    (hlt : k + m + 2 < UInt32.size) : (t.shift (.ofNat k + 1)).line.toNat = t.line.toNat + (k + 1) := by
  have hshift : (t.shift (.ofNat k + 1)).line = .ofNat (1 + n + (k + 1)) := by
    rw [shift, hline, UInt32.ofNat_add, UInt32.ofNat_add, UInt32.ofNat_add]
    rfl
  have hold : t.line = .ofNat (1 + n) := by rw [hline, UInt32.ofNat_add]; rfl
  rw [hshift, hold, UInt32.toNat_ofNat_of_lt' (by omega), UInt32.toNat_ofNat_of_lt' (by omega)]

/-- A text after a line feed gives its own tokens, further down. -/
theorem ofSource_append (u v : String) (ho : ¬ OpenEnd (Stream.ofSource u).tokens) :
    Stream.ofSource (u ++ "\n" ++ v) =
      let lower := (Stream.ofSource v).shift (lineFeeds u.toList + 1)
      ⟨(Stream.ofSource u).tokens ++ lower.tokens, lower.endLine⟩ := by
  have hu : (u ++ "\n" ++ v).toList = u.toList ++ (['\n'] ++ v.toList) := by simp
  have hends : Ends (['\n'] ++ v.toList) := ends_append (by decide) (by decide) _
  have hline : 1 + lineFeeds u.toList + lineFeeds ['\n'] = 1 + (lineFeeds u.toList + 1) := UInt32.add_assoc ..
  have htokens : list 1 (u ++ "\n" ++ v).toList =
      list 1 u.toList ++ (list 1 v.toList).map (shift (lineFeeds u.toList + 1)) := by
    rw [hu, list_append (hends.stops _) 1 ho, list_gap_append (by decide), hline, list_shift]
  have hend : lineFeeds (u ++ "\n" ++ v).toList = lineFeeds v.toList + (lineFeeds u.toList + 1) := by
    rw [hu, lineFeeds_append, lineFeeds_append, show lineFeeds ['\n'] = 1 from rfl]
    ac_rfl
  simp only [Stream.ofSource, Stream.shift, htokens, hend, UInt32.add_assoc]

end ShaderBuild.Token
