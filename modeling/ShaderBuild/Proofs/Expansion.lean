import ShaderBuild.Macro.Expand
import ShaderBuild.Proofs.Decomposition
/-!
# Expansion of joined texts

A reader of a text knows from its quotes and backslashes alone whether it is in a literal (`Quoting`). Where it is
not, and where no word or number goes on (`Apart`), a text can be cut in two, and its pieces are those of the two
parts; only text that is copied anyway may have been one piece (`pieces_append`). So the two parts are expanded
independently of each other, and so is every word that names a macro (`expansion_distributes`), whatever macros
there are. The words that may name one are those that stand outside literals and numbers (`mem_words_iff`).
-/

namespace ShaderBuild.MacroTable

open Text

/-! ## Literals -/

/-- Where a reader of a text is: outside literals, in one, or in one right after a backslash. -/
inductive Quoting where
  | outside
  | inside
  | escaped
  deriving DecidableEq, Repr

/-- A literal goes from one quote to the next, and in it a backslash takes the character after it along. -/
def Quoting.next : Quoting → Char → Quoting
  | .outside, c => if c = '"' then .inside else .outside
  | .inside, c => if c = '"' then .outside else if c = '\\' then .escaped else .inside
  | .escaped, _ => .inside

/-- Where a reader is after a text. -/
def Quoting.after (q : Quoting) (cs : List Char) : Quoting := cs.foldl next q

/-- A text does not end in a literal. -/
def LiteralsClosed (cs : List Char) : Prop := Quoting.outside.after cs = .outside

instance (cs : List Char) : Decidable (LiteralsClosed cs) := inferInstanceAs (Decidable (_ = _))

theorem Quoting.after_append (q : Quoting) (u v : List Char) : q.after (u ++ v) = (q.after u).after v :=
  List.foldl_append

theorem closed_nil : LiteralsClosed [] := rfl

theorem LiteralsClosed.append_iff {u : List Char} (hu : LiteralsClosed u) (v : List Char) :
    LiteralsClosed (u ++ v) ↔ LiteralsClosed v := by
  rw [LiteralsClosed, Quoting.after_append, hu, LiteralsClosed]

/-- Without a quote, a literal neither begins nor ends. -/
theorem Quoting.after_eq_outside_iff {cs : List Char} (h : ∀ c ∈ cs, c ≠ '"') (q : Quoting) :
    q.after cs = .outside ↔ q = .outside := by
  induction cs generalizing q with
  | nil => exact Iff.rfl
  | cons c cs ih =>
    obtain ⟨hc, hcs⟩ := List.forall_mem_cons.1 h
    have hnext : q.next c = .outside ↔ q = .outside := by
      cases q with
      | outside => exact iff_of_true (if_neg hc) rfl
      | inside =>
        rw [next, if_neg hc]
        split <;> decide
      | escaped => exact iff_of_false Quoting.noConfusion Quoting.noConfusion
    exact (ih hcs (q.next c)).trans hnext

theorem closed_of_forall {cs : List Char} (h : ∀ c ∈ cs, c ≠ '"') : LiteralsClosed cs :=
  (Quoting.after_eq_outside_iff h .outside).2 rfl

/-- In a literal, only a quote and a backslash with something after it are special. -/
theorem Quoting.next_inside {c : Char} {rest : List Char} (hquote : c ≠ '"')
    (hpair : ∀ d more, c = '\\' → rest = d :: more → False) :
    c = '\\' ∧ rest = [] ∨ c ≠ '\\' ∧ next .inside c = .inside := by
  by_cases hc : c = '\\'
  · cases rest with
    | nil => exact .inl ⟨hc, rfl⟩
    | cons d more => exact (hpair d more hc rfl).elim
  · exact .inr ⟨hc, by rw [next, if_neg hquote, if_neg hc]⟩

/-- What is cut off as a literal ends with the first quote that closes it, or else nothing follows it. -/
theorem quoted_cases (cs : List Char) :
    (∃ body, (quoted cs).1 = body ++ ['"'] ∧ Quoting.inside.after (quoted cs).1 = .outside) ∨ (quoted cs).2 = [] := by
  fun_induction quoted cs with
  | case1 => exact .inr rfl
  | case2 rest => exact .inl ⟨[], rfl, rfl⟩
  | case3 c rest body after hbody ih =>
    rw [hbody] at ih
    rcases ih with ⟨inner, rfl, ho⟩ | h
    · exact .inl ⟨'\\' :: c :: inner, rfl, ho⟩
    · exact .inr h
  | case4 c rest hquote hpair body after hbody ih =>
    rw [hbody] at ih
    rcases ih with ⟨inner, rfl, ho⟩ | h
    · rcases Quoting.next_inside hquote hpair with ⟨rfl, rfl⟩ | ⟨-, hnext⟩
      · exact absurd (Prod.mk.inj hbody).1 (by simp)
      · refine .inl ⟨c :: inner, rfl, ?_⟩
        rw [Quoting.after, List.foldl_cons, hnext]
        exact ho
    · exact .inr h

/-- A literal that has its end is the same whatever follows. -/
theorem quoted_append_right {cs : List Char} (h : Quoting.inside.after cs = .outside) (ds : List Char) :
    quoted (cs ++ ds) = ((quoted cs).1, (quoted cs).2 ++ ds) := by
  fun_induction quoted cs with
  | case1 => cases h
  | case2 rest => rfl
  | case3 c rest body after hbody ih => rw [List.cons_append, List.cons_append, quoted, ih h, hbody]
  | case4 c rest hquote hpair body after hbody ih =>
    rcases Quoting.next_inside hquote hpair with ⟨rfl, rfl⟩ | ⟨hc, hnext⟩
    · cases h
    · rw [Quoting.after, List.foldl_cons, hnext] at h
      rw [List.cons_append, quoted, ih h, hbody]
      · exact hquote
      · exact fun _ _ he => absurd he hc

/-! ## Pieces -/

/-- Not both the last character of the first text and the first one of the second belong to words and numbers. -/
def Apart (u v : List Char) : Prop := ∀ c ∈ u.getLast?, ∀ d ∈ v.head?, isWordChar c = true → isWordChar d = false

instance (u v : List Char) : Decidable (Apart u v) :=
  decidable_of_iff ((u.getLast?.all fun c => v.head?.all fun d => !isWordChar c || !isWordChar d) = true)
    (by simp [Apart, Option.all_eq_true, imp_iff_not_or])

theorem Apart.of_suffix {u u' v : List Char} (h : Apart u v) (hs : u' <:+ u) : Apart u' v := by
  intro c hc
  obtain ⟨front, rfl⟩ := hs
  refine h c ?_
  rw [List.getLast?_append, hc]
  rfl

/-- What word characters are as a piece: a number if they start with a digit, or else a word. -/
def Piece.ofRun (run : List Char) : Piece := if run.head?.any Char.isDigit then .verbatim run else .word run

@[simp] theorem Piece.text_ofRun (run : List Char) : (ofRun run).text = run := by
  unfold ofRun
  split <;> rfl

theorem char_cases (c : Char) : c = '"' ∨ isWordChar c = true ∨ isFiller c = true := by
  by_cases hq : c = '"'
  · exact .inl hq
  · cases hw : isWordChar c with
    | true => exact .inr (.inl rfl)
    | false => exact .inr (.inr (by simp [isFiller, hq, hw]))

theorem isFiller_iff {c : Char} : isFiller c = true ↔ c ≠ '"' ∧ isWordChar c = false := by
  simp [isFiller]

theorem piece_quote (cs : List Char) : piece '"' cs = (.verbatim ('"' :: (quoted cs).1), (quoted cs).2) := by
  rw [piece, if_pos rfl]

theorem piece_run {c : Char} (h : isWordChar c = true) (cs : List Char) :
    piece c cs = (.ofRun ((c :: cs).takeWhile isWordChar), (c :: cs).dropWhile isWordChar) := by
  have hq : c ≠ '"' := by
    rintro rfl
    exact absurd h (by decide)
  rw [List.takeWhile_cons_of_pos h, List.dropWhile_cons_of_pos h, piece, if_neg hq, Piece.ofRun, List.head?_cons,
    Option.any_some]
  by_cases hs : isWordStart c = true
  · rw [if_pos hs, Token.isDigit_eq_false_of_isWordStart hs, if_neg Bool.false_ne_true]
  · have hd : c.isDigit = true := by
      by_contra hd
      exact hs (Token.isWordStart_of_isWordChar h hd)
    rw [if_neg hs, hd, if_pos rfl, if_pos rfl]

theorem piece_filler {c : Char} (h : isFiller c = true) (cs : List Char) :
    piece c cs = (.verbatim ((c :: cs).takeWhile isFiller), (c :: cs).dropWhile isFiller) := by
  obtain ⟨hq, hw⟩ := isFiller_iff.1 h
  have hs : ¬ isWordStart c = true := fun hs => by simp [Token.isWordChar_of_isWordStart hs] at hw
  have hd : ¬ c.isDigit = true := fun hd => by simp [isWordChar, Char.isAlphanum, hd] at hw
  rw [piece, if_neg hq, if_neg hs, if_neg hd, List.takeWhile_cons_of_pos h, List.dropWhile_cons_of_pos h]

/-- A piece ends outside literals and does not go on in what follows, if anything follows. -/
theorem piece_ends (c : Char) (cs : List Char) :
    (piece c cs).2 = [] ∨ LiteralsClosed (piece c cs).1.text ∧ Apart (piece c cs).1.text (piece c cs).2 := by
  have hstop : ∀ p : Char → Bool, ∀ d ∈ ((c :: cs).dropWhile p).head?, p d = false := by
    intro p d hd
    have hn := List.head?_dropWhile_not p (c :: cs)
    rw [hd] at hn
    simpa using hn
  have hrun : ∀ p : Char → Bool, p '"' = false → LiteralsClosed ((c :: cs).takeWhile p) := by
    refine fun p hp => closed_of_forall fun d hd => ?_
    rintro rfl
    rw [List.all_eq_true.1 List.all_takeWhile _ hd] at hp
    cases hp
  rcases char_cases c with rfl | h | h
  · rw [piece_quote]
    rcases quoted_cases cs with ⟨body, hb, ho⟩ | hrest
    · refine .inr ⟨ho, fun d hd => ?_⟩
      rw [Piece.text, hb, ← List.cons_append, List.getLast?_concat] at hd
      obtain rfl := Option.some.inj hd
      exact fun _ _ hq => absurd hq (by decide)
    · exact .inl hrest
  · rw [piece_run h, Piece.text_ofRun]
    exact .inr ⟨hrun _ (by decide), fun _ _ d hd _ => hstop _ d hd⟩
  · rw [piece_filler h]
    refine .inr ⟨hrun _ (by decide), fun d hd => ?_⟩
    have hd := (isFiller_iff.1 (List.all_eq_true.1 List.all_takeWhile d (List.mem_of_getLast? hd))).2
    exact fun _ _ hw => absurd hw (by rw [hd]; exact Bool.false_ne_true)

theorem rest_suffix (c : Char) (cs : List Char) : (piece c cs).2 <:+ c :: cs :=
  piece_append c cs ▸ List.suffix_append _ _

/-- Neither the first piece nor what is left after it ends in a literal if the text does not. -/
theorem LiteralsClosed.parts {c : Char} {cs : List Char} (h : LiteralsClosed (c :: cs)) :
    LiteralsClosed (piece c cs).1.text ∧ LiteralsClosed (piece c cs).2 := by
  rw [← piece_append] at h
  rcases piece_ends c cs with hrest | ⟨hclosed, -⟩
  · rw [hrest, List.append_nil] at h
    exact ⟨h, hrest ▸ closed_nil⟩
  · exact ⟨hclosed, (hclosed.append_iff _).1 h⟩

section Append
variable {u v : List Char}

/-- A piece is the same whatever follows the text, unless it is text to be copied and goes on there. -/
theorem piece_append_right {c : Char} {cs : List Char} (hc : LiteralsClosed (c :: cs)) (ha : Apart (c :: cs) v)
    (hf : isFiller c = true → (c :: cs).dropWhile isFiller = [] → ∀ d ∈ v.head?, isFiller d = false) :
    piece c (cs ++ v) = ((piece c cs).1, (piece c cs).2 ++ v) := by
  rcases char_cases c with rfl | h | h
  · have hinside : Quoting.inside.after cs = .outside := hc
    rw [piece_quote, piece_quote, quoted_append_right hinside]
  · have hlast : ∀ (hd : (c :: cs).dropWhile isWordChar = []), ∀ d ∈ v.head?, isWordChar d = false := fun hd d hm =>
      ha _ (List.getLast?_eq_getLast_of_ne_nil (List.cons_ne_nil c cs)) d hm
        (Token.all_of_dropWhile hd _ (List.getLast_mem _))
    obtain ⟨h1, h2⟩ := Token.takeWhile_append_of_stop hlast
    rw [List.cons_append] at h1 h2
    rw [piece_run h, piece_run h, h1, h2]
  · obtain ⟨h1, h2⟩ := Token.takeWhile_append_of_stop (hf h)
    rw [List.cons_append] at h1 h2
    rw [piece_filler h, piece_filler h, h1, h2]

theorem pieces_nil : pieces [] = [] := by rw [pieces]

theorem pieces_cons (c : Char) (cs : List Char) : pieces (c :: cs) = (piece c cs).1 :: pieces (piece c cs).2 := by
  rw [pieces]

/-- The pieces of joined texts are those of the one and those of the other. Only where text to be copied meets more
of it, the two are one piece. -/
theorem pieces_append (hc : LiteralsClosed u) (ha : Apart u v) :
    pieces (u ++ v) = pieces u ++ pieces v ∨
      ∃ front a b back, pieces u = front ++ [.verbatim a] ∧ pieces v = .verbatim b :: back ∧
        pieces (u ++ v) = front ++ .verbatim (a ++ b) :: back := by
  induction u using pieces.induct with
  | case1 => exact .inl (by rw [pieces_nil]; rfl)
  | case2 c cs ih =>
    by_cases hf : isFiller c = true ∧ (c :: cs).dropWhile isFiller = [] ∧ ∃ d ∈ v.head?, isFiller d = true
    · obtain ⟨h, hall, d, hd, hfill⟩ := hf
      obtain ⟨more, rfl⟩ := List.head?_eq_some_iff.1 hd
      have hfillers := Token.all_of_dropWhile hall
      have hwhole : (c :: cs).takeWhile isFiller = c :: cs := by
        rw [← List.append_nil (List.takeWhile _ _), ← hall, List.takeWhile_append_dropWhile]
      refine .inr ⟨[], c :: cs, (d :: more).takeWhile isFiller, pieces ((d :: more).dropWhile isFiller), ?_, ?_, ?_⟩
      · rw [pieces_cons, piece_filler h, hall, hwhole, pieces_nil]
        rfl
      · rw [pieces_cons, piece_filler hfill]
      · rw [List.cons_append, pieces_cons, piece_filler h, ← List.cons_append,
          List.takeWhile_append_of_pos hfillers, List.dropWhile_append_of_pos hfillers]
        rfl
    · have hpiece : piece c (cs ++ v) = ((piece c cs).1, (piece c cs).2 ++ v) := by
        refine piece_append_right hc ha fun h hall d hd => Bool.eq_false_iff.2 fun hfill => hf ⟨h, hall, d, hd, hfill⟩
      rw [List.cons_append, pieces_cons, hpiece, pieces_cons]
      dsimp only
      rcases ih hc.parts.2 (ha.of_suffix (rest_suffix c cs)) with h | ⟨front, a, b, back, h1, h2, h3⟩
      · exact .inl (by rw [h, List.cons_append])
      · exact .inr ⟨(piece c cs).1 :: front, a, b, back, by rw [h1, List.cons_append], h2, by rw [h3, List.cons_append]⟩

/-- What is made of copied text bit by bit is made of joined texts part by part. -/
theorem flatMap_pieces_append {α : Type} {g : Piece → List α}
    (hg : ∀ a b, g (.verbatim (a ++ b)) = g (.verbatim a) ++ g (.verbatim b)) (hc : LiteralsClosed u) (ha : Apart u v) :
    (pieces (u ++ v)).flatMap g = (pieces u).flatMap g ++ (pieces v).flatMap g := by
  rcases pieces_append hc ha with h | ⟨front, a, b, back, h1, h2, h3⟩
  · rw [h, List.flatMap_append]
  · rw [h1, h2, h3]
    simp only [List.flatMap_append, List.flatMap_cons, List.flatMap_nil, List.append_nil, List.append_assoc, hg]

end Append

/-- The pieces of a text make it up. -/
theorem flatMap_pieces (cs : List Char) : (pieces cs).flatMap Piece.text = cs := by
  fun_induction pieces cs with
  | case1 => rfl
  | case2 c cs ih => rw [List.flatMap_cons, ih, piece_append]

/-! ## Words -/

/-- The words of a piece: a text to be copied has none. -/
def Piece.words : Piece → List (List Char)
  | .word text => [text]
  | .verbatim _ => []

/-- The words of a text that may name macros. -/
def words (cs : List Char) : List (List Char) := (pieces cs).flatMap Piece.words

/-- A word is in a text, outside literals and not as a part of a number or of a longer word. -/
def Occurs (w cs : List Char) : Prop :=
  ∃ u v, cs = u ++ (w ++ v) ∧ LiteralsClosed u ∧ Token.IsWord w ∧ Apart u w ∧ Apart w v

section Words
variable {u v w : List Char}

theorem words_append (hc : LiteralsClosed u) (ha : Apart u v) : words (u ++ v) = words u ++ words v :=
  flatMap_pieces_append (g := Piece.words) (fun _ _ => rfl) hc ha

theorem words_nil : words [] = [] := by rw [words, pieces_nil, List.flatMap_nil]

theorem words_cons (c : Char) (cs : List Char) : words (c :: cs) = (piece c cs).1.words ++ words (piece c cs).2 := by
  rw [words, pieces_cons, List.flatMap_cons, words]

theorem apart_append_right (h : w ≠ []) : Apart u (w ++ v) ↔ Apart u w := by
  rw [Apart, List.head?_append_of_ne_nil w h, Apart]

theorem Apart.append_left {a : List Char} (ha : Apart a (u ++ w)) (hu : Apart u w) : Apart (a ++ u) w := by
  cases u with
  | nil => rwa [List.append_nil]
  | cons c cs => rwa [Apart, List.getLast?_append_of_ne_nil a (List.cons_ne_nil c cs)]

/-- Words and numbers that do not go on are followed by something else. -/
theorem Apart.head {run : List Char} (h : Apart run v) (hn : run ≠ []) (hw : run.all isWordChar = true) :
    ∀ d ∈ v.head?, isWordChar d = false :=
  fun d hd => h _ (List.getLast?_eq_getLast_of_ne_nil hn) d hd (List.all_eq_true.1 hw _ (List.getLast_mem hn))

theorem ne_quote_of_run {run : List Char} (hw : run.all isWordChar = true) : ∀ c ∈ run, c ≠ '"' := by
  rintro c hc rfl
  exact absurd (List.all_eq_true.1 hw _ hc) (by decide)

theorem closed_run {run : List Char} (hw : run.all isWordChar = true) : LiteralsClosed run :=
  closed_of_forall (ne_quote_of_run hw)

/-- Word characters that no more of them follow are one piece. -/
theorem pieces_run {run : List Char} (hn : run ≠ []) (hw : run.all isWordChar = true) (ha : Apart run v) :
    pieces (run ++ v) = .ofRun run :: pieces v := by
  obtain ⟨h1, h2⟩ := Token.takeWhile_append_of_head hw (ha.head hn hw)
  obtain ⟨c, cs, rfl⟩ := List.exists_cons_of_ne_nil hn
  rw [List.cons_append] at h1 h2
  rw [List.cons_append, pieces_cons, piece_run (List.all_eq_true.1 hw c List.mem_cons_self), h1, h2]

theorem isWord_run (h : Token.IsWord w) : w.all isWordChar = true ∧ Piece.ofRun w = .word w := by
  obtain ⟨c, cs, rfl, hs, hcs⟩ := h
  refine ⟨?_, ?_⟩
  · rw [List.all_cons, Token.isWordChar_of_isWordStart hs, hcs]
    rfl
  · rw [Piece.ofRun, List.head?_cons, Option.any_some, Token.isDigit_eq_false_of_isWordStart hs,
      if_neg Bool.false_ne_true]

theorem pieces_word (h : Token.IsWord w) (ha : Apart w v) : pieces (w ++ v) = .word w :: pieces v := by
  obtain ⟨hall, hrun⟩ := isWord_run h
  rw [pieces_run h.ne_nil hall ha, hrun]

/-- A piece is a word only if it has the form of one. -/
theorem isWord_of_mem {c : Char} {cs : List Char} (h : w ∈ (piece c cs).1.words) :
    (piece c cs).1 = .word w ∧ Token.IsWord w := by
  rcases char_cases c with rfl | hc | hc
  · rw [piece_quote] at h
    cases h
  · rw [piece_run hc] at h ⊢
    rw [Piece.ofRun, List.takeWhile_cons_of_pos hc, List.head?_cons, Option.any_some] at h ⊢
    by_cases hd : c.isDigit = true
    · rw [if_pos hd] at h
      cases h
    · rw [if_neg hd] at h ⊢
      obtain rfl := List.mem_singleton.1 h
      exact ⟨rfl, c, _, rfl, Token.isWordStart_of_isWordChar hc hd, List.all_takeWhile⟩
  · rw [piece_filler hc] at h
    cases h

/-- The words of a text are those that stand in it by themselves. -/
theorem mem_words_iff {cs : List Char} : w ∈ words cs ↔ Occurs w cs := by
  constructor
  · intro h
    induction cs using pieces.induct with
    | case1 =>
      rw [words_nil] at h
      cases h
    | case2 c cs ih =>
      have happend := piece_append c cs
      rw [words_cons, List.mem_append] at h
      rcases h with h | h
      · obtain ⟨hpiece, hword⟩ := isWord_of_mem h
        refine ⟨[], (piece c cs).2, ?_, closed_nil, hword, by simp [Apart], ?_⟩
        · rw [List.nil_append, ← happend, hpiece]
          rfl
        · rcases piece_ends c cs with hrest | ⟨-, hapart⟩
          · rw [hrest]
            simp [Apart]
          · rwa [hpiece] at hapart
      · obtain ⟨u, v, hrest, hu, hword, huw, hwv⟩ := ih h
        rcases piece_ends c cs with hnil | ⟨hclosed, hapart⟩
        · rw [hnil, words_nil] at h
          cases h
        · refine ⟨(piece c cs).1.text ++ u, v, ?_, (hclosed.append_iff u).2 hu, hword, ?_, hwv⟩
          · rw [List.append_assoc, ← hrest, happend]
          · rw [hrest, ← List.append_assoc] at hapart
            exact ((apart_append_right (List.append_ne_nil_of_right_ne_nil u hword.ne_nil)).1 hapart).append_left huw
  · rintro ⟨u, v, rfl, hu, hword, huw, hwv⟩
    rw [words_append hu ((apart_append_right hword.ne_nil).2 huw), words, words, pieces_word hword hwv]
    exact List.mem_append_right _ List.mem_cons_self

theorem isWord_of_mem_words {cs : List Char} (h : w ∈ words cs) : Token.IsWord w := by
  obtain ⟨-, -, -, -, hword, -⟩ := mem_words_iff.1 h
  exact hword

theorem words_word (h : Token.IsWord w) : words w = [w] := by
  have hpieces := pieces_word (v := []) h (by simp [Apart])
  rw [List.append_nil] at hpieces
  rw [words, hpieces, pieces_nil]
  rfl

end Words

/-! ## Expansion -/

/-- A piece with something in place of a word. -/
def Piece.substitute (f : List Char → List Char) : Piece → List Char
  | .word text => f text
  | .verbatim text => text

/-- A text with something in place of its words. -/
def substitute (f : List Char → List Char) (cs : List Char) : List Char := (pieces cs).flatMap (Piece.substitute f)

section Substitute
variable {f : List Char → List Char}

theorem substitute_nil : substitute f [] = [] := by rw [substitute, pieces_nil, List.flatMap_nil]

theorem substitute_cons (c : Char) (cs : List Char) :
    substitute f (c :: cs) = (piece c cs).1.substitute f ++ substitute f (piece c cs).2 := by
  rw [substitute, pieces_cons, List.flatMap_cons, substitute]

theorem substitute_append {u v : List Char} (hc : LiteralsClosed u) (ha : Apart u v) :
    substitute f (u ++ v) = substitute f u ++ substitute f v :=
  flatMap_pieces_append (g := Piece.substitute f) (fun _ _ => rfl) hc ha

theorem substitute_word {w v : List Char} (h : Token.IsWord w) (ha : Apart w v) :
    substitute f (w ++ v) = f w ++ substitute f v := by
  rw [substitute, pieces_word h ha, List.flatMap_cons]
  rfl

theorem substitute_filler {c : Char} (h : isFiller c = true) (cs : List Char) :
    substitute f (c :: cs) = c :: substitute f cs := by
  obtain ⟨hquote, hword⟩ := isFiller_iff.1 h
  have hclosed : LiteralsClosed [c] := closed_of_forall (List.forall_mem_singleton.2 hquote)
  have happart : Apart [c] cs := by
    intro d hd _ _ hd'
    obtain rfl : c = d := Option.some.inj hd
    rw [hword] at hd'
    cases hd'
  have hsingle : substitute f [c] = [c] := by
    rw [substitute_cons, piece_filler h, List.takeWhile_cons_of_pos h, List.dropWhile_cons_of_pos h]
    exact congrArg ([c] ++ ·) substitute_nil
  have hcut := substitute_append (f := f) hclosed happart
  rwa [hsingle] at hcut

/-- A text is the same with its words in their places. -/
theorem substitute_eq_self {cs : List Char} (h : ∀ w ∈ words cs, f w = w) : substitute f cs = cs := by
  refine Eq.trans (List.flatMap_congr fun p hp => ?_) (flatMap_pieces cs)
  cases p with
  | verbatim text => rfl
  | word text => exact h text (List.mem_flatMap.2 ⟨_, hp, List.mem_singleton_self text⟩)

end Substitute

/-- The expansion of a word inside the expansions of the macros in `active`. -/
def expandWord (t : MacroTable) (active : List String) (text : List Char) : List Char :=
  match t.get? (String.ofList text) with
  | none => text
  | some value =>
    if String.ofList text ∈ active then text else t.expandWithin (String.ofList text :: active) value.toList

/-- A text is expanded word by word. -/
theorem expandWithin_eq (t : MacroTable) (active : List String) (cs : List Char) :
    t.expandWithin active cs = substitute (t.expandWord active) cs := by
  rw [expandWithin, substitute]
  refine List.flatMap_congr fun p _ => ?_
  cases p with
  | verbatim text => rfl
  | word text =>
    dsimp only [expandWord, Piece.substitute]
    split
    · next hv => rw [hv]
    · next value hv =>
      rw [hv]
      simp only [dite_eq_ite]

/-- Without macros, a text is its own expansion. -/
theorem expandWithin_of_isEmpty {t : MacroTable} (h : t.isEmpty = true) (active : List String) (cs : List Char) :
    t.expandWithin active cs = cs := by
  have hnone : ∀ name, t.get? name = none := by
    obtain ⟨entries⟩ := t
    obtain rfl : entries = [] := List.isEmpty_iff.1 h
    exact fun name => rfl
  rw [expandWithin_eq]
  exact substitute_eq_self fun w _ => by simp only [expandWord, hnone]

/-- Copying a text that there are no macros for is expanding it. -/
theorem expand_eq (t : MacroTable) (cs : List Char) : t.expand cs = t.expandWithin [] cs := by
  unfold expand
  split
  · next h => exact (expandWithin_of_isEmpty h [] cs).symm
  · rfl

theorem expand_append (t : MacroTable) {u v : List Char} (hc : LiteralsClosed u) (ha : Apart u v) :
    t.expand (u ++ v) = t.expand u ++ t.expand v := by
  simp only [expand_eq, expandWithin_eq, substitute_append hc ha]

/-- Whatever macros there are, two texts are expanded independently of each other, unless the first one ends in a
literal or a word or number goes on from it into the second one. So what is put in place of a word does not depend
on what is before and after it, be it the same word or another macro. -/
theorem expansion_distributes (t : MacroTable) :
    (∀ {u v : List Char}, LiteralsClosed u → Apart u v → t.expand (u ++ v) = t.expand u ++ t.expand v) ∧
    ∀ {u w v : List Char}, LiteralsClosed u → Token.IsWord w → Apart u w → Apart w v →
      t.expand (u ++ (w ++ v)) = t.expand u ++ (t.expandWord [] w ++ t.expand v) := by
  refine ⟨t.expand_append, fun {u w v} hu hw huw hwv => ?_⟩
  have hword : t.expand (w ++ v) = t.expandWord [] w ++ t.expand v := by
    simp only [expand_eq, expandWithin_eq, substitute_word hw hwv]
  rw [t.expand_append hu ((apart_append_right hw.ne_nil).2 huw), hword]

/-- Two macros that stand for each other, around a literal with a quote in it and a number with letters. -/
theorem expansion_distributes_cyclic :
    let t : MacroTable := .ofList [⟨"A", "B \"A\" + A"⟩, ⟨"B", "A"⟩]
    let u := "\"A\\\" B\" 1A é".toList
    (LiteralsClosed u ∧ Apart u "A.B".toList ∧ t.expand (u ++ "A.B".toList) = t.expand u ++ t.expand "A.B".toList) ∧
      (Token.IsWord "B".toList ∧ Apart u "B".toList ∧ Apart "B".toList "\"A\"".toList ∧
        t.expand (u ++ ("B".toList ++ "\"A\"".toList)) =
          t.expand u ++ (t.expandWord [] "B".toList ++ t.expand "\"A\"".toList)) := by
  intro t u
  have hu : LiteralsClosed u := by decide +kernel
  have hA : Apart u "A.B".toList := by decide +kernel
  have hB : Apart u "B".toList := by decide +kernel
  have hword : Token.IsWord "B".toList := ⟨'B', [], by decide +kernel, by decide, rfl⟩
  have hquote : Apart "B".toList "\"A\"".toList := by decide +kernel
  exact ⟨⟨hu, hA, (expansion_distributes t).1 hu hA⟩, hword, hB, hquote, (expansion_distributes t).2 hu hword hB hquote⟩

example : expand (.ofList [⟨"A", "B \"A\" + A"⟩, ⟨"B", "A"⟩]) "1A.B \"B\"".toList = "1A.B \"A\" + A \"B\"".toList := by
  decide +kernel

end ShaderBuild.MacroTable
