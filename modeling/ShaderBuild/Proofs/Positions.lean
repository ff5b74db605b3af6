import ShaderBuild.Proofs.Comments
import ShaderBuild.Proofs.Joining
import ShaderBuild.Proofs.Lines
/-!
# Where tokens and lines stand in a text with comments

Without its comments, a text has the lines of what is left: a line comment leaves the end of its line behind, a
block comment leaves nothing (`newlines_strip`). `kept` tells for every character that is left where it stands
in the text. So a token, or a directive, has a line in the text as it was written. This is its line in what is
left, and as many lines more as there are line feeds in the block comments before it (`Token.exists_precedes`,
`Directive.exists_follows`).
-/

namespace ShaderBuild

open Text

namespace Comment

/-- What is in the block comments of a text, from a place in it. -/
def blocksFrom : Place → List Char → List Char
  | _, [] => []
  | .code, '/' :: '*' :: rest => blocksFrom .block rest
  | .code, '/' :: '/' :: rest => blocksFrom .line rest
  | .code, _ :: rest => blocksFrom .code rest
  | .block, '*' :: '/' :: rest => blocksFrom .code rest
  | .block, c :: rest => c :: blocksFrom .block rest
  | .line, '\n' :: rest => blocksFrom .code rest
  | .line, _ :: rest => blocksFrom .line rest

/-- What is in the block comments of a text. -/
def blocks (cs : List Char) : List Char := blocksFrom .code cs

/-- The characters that are left of a text, from a place in it, each with what stands before it in the text. -/
def keptFrom : Place → List Char → List Char → List (List Char × Char)
  | _, _, [] => []
  | .code, before, '/' :: '*' :: rest => keptFrom .block (before ++ ['/', '*']) rest
  | .code, before, '/' :: '/' :: rest => keptFrom .line (before ++ ['/', '/']) rest
  | .code, before, c :: rest => (before, c) :: keptFrom .code (before ++ [c]) rest
  | .block, before, '*' :: '/' :: rest => keptFrom .code (before ++ ['*', '/']) rest
  | .block, before, c :: rest => keptFrom .block (before ++ [c]) rest
  | .line, before, '\n' :: rest => (before, '\n') :: keptFrom .code (before ++ ['\n']) rest
  | .line, before, c :: rest => keptFrom .line (before ++ [c]) rest

/-- The characters that are left of a text, each with what stands before it in the text. -/
def kept (cs : List Char) : List (List Char × Char) := keptFrom .code [] cs

theorem newlines_cons_of_ne {c : Char} (h : c ≠ '\n') (cs : List Char) : newlines (c :: cs) = newlines cs :=
  List.count_cons_of_ne h

theorem newlines_cons (c : Char) (cs : List Char) : newlines (c :: cs) = newlines [c] + newlines cs :=
  newlines_append [c] cs

theorem newlines_stripFrom (place : Place) (cs : List Char) :
    newlines (stripFrom place cs) + newlines (blocksFrom place cs) = newlines cs := by
  have slash : '/' ≠ '\n' := by decide
  have star : '*' ≠ '\n' := by decide
  fun_induction stripFrom place cs with
  | case1 => rfl
  | case2 rest ih =>
    rw [blocksFrom, newlines_cons_of_ne slash, newlines_cons_of_ne star]
    exact ih
  | case3 rest ih =>
    rw [blocksFrom, newlines_cons_of_ne slash, newlines_cons_of_ne slash]
    exact ih
  | case4 c rest hstar hslash ih =>
    rw [blocksFrom, newlines_cons c, newlines_cons c rest]
    · omega
    · exact hstar
    · exact hslash
  | case5 rest ih =>
    rw [blocksFrom, newlines_cons_of_ne star, newlines_cons_of_ne slash]
    exact ih
  | case6 c rest hend ih =>
    rw [blocksFrom, newlines_cons c, newlines_cons c rest]
    · omega
    · exact hend
  | case7 rest ih =>
    rw [blocksFrom, newlines_cons '\n', newlines_cons '\n' rest]
    omega
  | case8 c rest hend ih =>
    rw [blocksFrom, newlines_cons_of_ne fun h => hend h]
    · exact ih
    · exact hend

/-- The line feeds of a text are those that are left of it, and those in its block comments. -/
theorem newlines_strip (cs : List Char) : newlines (strip cs) + newlines (blocks cs) = newlines cs :=
  newlines_stripFrom .code cs

/-- What is left of the front of a text is the front of what is left of it. -/
theorem exists_keptFrom (place : Place) (before cs : List Char) {i : Nat} {c : Char}
    (h : (stripFrom place cs)[i]? = some c) :
    ∃ u v, cs = u ++ c :: v ∧ (keptFrom place before cs)[i]? = some (before ++ u, c) ∧
      stripFrom place u = (stripFrom place cs).take i := by
  fun_induction keptFrom place before cs generalizing i with
  | case1 => cases h
  | case2 before rest ih =>
    rw [stripFrom] at h
    obtain ⟨u, v, rfl, hk, hs⟩ := ih h
    exact ⟨'/' :: '*' :: u, v, rfl, by simpa using hk, by simpa [stripFrom] using hs⟩
  | case3 before rest ih =>
    rw [stripFrom] at h
    obtain ⟨u, v, rfl, hk, hs⟩ := ih h
    exact ⟨'/' :: '/' :: u, v, rfl, by simpa using hk, by simpa [stripFrom] using hs⟩
  | case4 before d rest hstar hslash ih =>
    have hstrip : stripFrom .code (d :: rest) = d :: stripFrom .code rest := by
      rw [stripFrom]
      · exact hstar
      · exact hslash
    rw [hstrip] at h ⊢
    cases i with
    | zero =>
      obtain rfl : d = c := Option.some.inj h
      exact ⟨[], rest, rfl, by simp, rfl⟩
    | succ i =>
      obtain ⟨u, v, rfl, hk, hs⟩ := ih h
      refine ⟨d :: u, v, rfl, by simpa using hk, ?_⟩
      -- a comment that begins here in the front of the text would begin here in all of it
      rw [stripFrom, hs, List.take_succ_cons]
      · rintro more hd rfl
        exact hstar (more ++ c :: v) hd rfl
      · rintro more hd rfl
        exact hslash (more ++ c :: v) hd rfl
  | case5 before rest ih =>
    rw [stripFrom] at h
    obtain ⟨u, v, rfl, hk, hs⟩ := ih h
    exact ⟨'*' :: '/' :: u, v, rfl, by simpa using hk, by simpa [stripFrom] using hs⟩
  | case6 before d rest hend ih =>
    have hstrip : stripFrom .block (d :: rest) = stripFrom .block rest := by
      rw [stripFrom]
      exact hend
    rw [hstrip] at h ⊢
    obtain ⟨u, v, rfl, hk, hs⟩ := ih h
    refine ⟨d :: u, v, rfl, by simpa using hk, ?_⟩
    -- and so would its end
    rw [stripFrom, hs]
    rintro more hd rfl
    exact hend (more ++ c :: v) hd rfl
  | case7 before rest ih =>
    rw [stripFrom] at h
    cases i with
    | zero =>
      obtain rfl : '\n' = c := Option.some.inj h
      exact ⟨[], rest, rfl, by simp, rfl⟩
    | succ i =>
      obtain ⟨u, v, rfl, hk, hs⟩ := ih h
      exact ⟨'\n' :: u, v, rfl, by simpa using hk, by simpa [stripFrom] using hs⟩
  | case8 before d rest hend ih =>
    have hstrip : stripFrom .line (d :: rest) = stripFrom .line rest := by
      rw [stripFrom]
      exact hend
    rw [hstrip] at h ⊢
    obtain ⟨u, v, rfl, hk, hs⟩ := ih h
    refine ⟨d :: u, v, rfl, by simpa using hk, ?_⟩
    rw [stripFrom, hs]
    exact hend

/-- Every character that is left of a text stands somewhere in it, and what is left of the text before it is what
is left before it. -/
theorem exists_kept {cs front rest : List Char} {c : Char} (h : strip cs = front ++ c :: rest) :
    ∃ before, (before, c) ∈ kept cs ∧ strip before = front := by
  have hc : (strip cs)[front.length]? = some c := by
    rw [h, List.getElem?_append_right (Nat.le_refl _), Nat.sub_self, List.getElem?_cons_zero]
  obtain ⟨u, v, -, hk, hs⟩ := exists_keptFrom .code [] cs hc
  refine ⟨u, List.mem_of_getElem? hk, ?_⟩
  rw [strip, hs, ← strip, h, List.take_left]

/-- A character that is left stands where it is said to stand. -/
theorem prefix_of_mem_keptFrom {place : Place} {before cs front : List Char} {c : Char}
    (h : (front, c) ∈ keptFrom place before cs) : front ++ [c] <+: before ++ cs := by
  fun_induction keptFrom place before cs with
  | case1 => cases h
  | case4 before d rest _ _ ih =>
    rcases List.mem_cons.1 h with h | h
    · obtain ⟨rfl, rfl⟩ := Prod.mk.inj h
      exact ⟨rest, by simp⟩
    · simpa using ih h
  | case7 before rest ih =>
    rcases List.mem_cons.1 h with h | h
    · obtain ⟨rfl, rfl⟩ := Prod.mk.inj h
      exact ⟨rest, by simp⟩
    · simpa using ih h
  | case2 before rest ih => simpa using ih h
  | case3 before rest ih => simpa using ih h
  | case5 before rest ih => simpa using ih h
  | case6 before d rest _ ih => simpa using ih h
  | case8 before d rest _ ih => simpa using ih h

theorem prefix_of_mem_kept {cs front : List Char} {c : Char} (h : (front, c) ∈ kept cs) : front <+: cs :=
  (List.prefix_append front [c]).trans (prefix_of_mem_keptFrom h)

end Comment

/-! ## Tokens -/

namespace Token

section Cut
variable {more : List Char}

theorem takeWhile_cut {p : Char → Bool} {cs : List Char} (h : more <+: cs.dropWhile p) :
    (cs.takeWhile p ++ more).takeWhile p = cs.takeWhile p ∧ (cs.takeWhile p ++ more).dropWhile p = more := by
  refine takeWhile_append_of_head List.all_takeWhile fun d hd => ?_
  have hn := List.head?_dropWhile_not p cs
  obtain ⟨rest, hr⟩ := h
  cases more with
  | nil => cases hd
  | cons e more =>
    obtain rfl : e = d := Option.some.inj hd
    rw [← hr] at hn
    simpa using hn

theorem literalBody_cut {cs : List Char} (h : more <+: (literalBody cs).2) :
    literalBody ((literalBody cs).1 ++ more) = ((literalBody cs).1, more) := by
  fun_induction literalBody cs with
  | case1 =>
    obtain rfl := List.prefix_nil.1 h
    rfl
  | case2 => rfl
  | case3 rest body after hbody ih =>
    rw [hbody] at ih
    rw [List.cons_append, List.cons_append, literalBody, ih h]
  | case4 c rest hquote hpair body after hbody ih =>
    have happend := literalBody_append rest
    rw [hbody] at ih happend
    obtain ⟨others, hr⟩ := h
    rw [List.cons_append, literalBody, ih ⟨others, hr⟩]
    · exact hquote
    · intro next hc hm
      refine hpair (next ++ others) hc ?_
      rw [← happend, ← hr, ← List.append_assoc, hm, List.cons_append]

theorem ne_cons_of_prefix {cs : List Char} {c : Char} (h : more <+: cs) (hne : ∀ rest, cs ≠ c :: rest) :
    ∀ rest, more ≠ c :: rest := by
  rintro rest rfl
  obtain ⟨others, rfl⟩ := h
  exact hne (rest ++ others) rfl

theorem number_cut {cs : List Char} (h : more <+: (number cs).rest) :
    number ((number cs).text ++ more) = { number cs with rest := more } := by
  have digits_append : ∀ (whole : List Char) {c : Char} (rest : List Char), c.isDigit = false →
      (whole.takeWhile Char.isDigit ++ c :: rest).takeWhile Char.isDigit = whole.takeWhile Char.isDigit ∧
        (whole.takeWhile Char.isDigit ++ c :: rest).dropWhile Char.isDigit = c :: rest := by
    intro whole c rest hc
    exact takeWhile_append_of_head List.all_takeWhile fun d hd => Option.some.inj hd ▸ hc
  by_cases hp : ∃ rest, cs.dropWhile Char.isDigit = '.' :: rest
  · obtain ⟨rest, hr⟩ := hp
    by_cases hs : ∃ after, rest.dropWhile Char.isDigit = 'f' :: after
    · -- the number ends in an `f`, whatever comes next
      obtain ⟨after, ha⟩ := hs
      have htext : (cs.takeWhile Char.isDigit ++ '.' :: (rest.takeWhile Char.isDigit ++ ['f'])) ++ more =
          cs.takeWhile Char.isDigit ++ '.' :: (rest.takeWhile Char.isDigit ++ 'f' :: more) := by simp
      obtain ⟨h1, h2⟩ := digits_append cs (rest.takeWhile Char.isDigit ++ 'f' :: more) (c := '.') (by decide)
      obtain ⟨h3, h4⟩ := digits_append rest more (c := 'f') (by decide)
      rw [number_of_suffix hr ha, htext, number_of_suffix h2 h4, h1, h3]
    · have hf : ∀ after, rest.dropWhile Char.isDigit ≠ 'f' :: after := not_exists.1 hs
      rw [number_of_fraction hr hf] at h ⊢
      have htext : (cs.takeWhile Char.isDigit ++ '.' :: rest.takeWhile Char.isDigit) ++ more =
          cs.takeWhile Char.isDigit ++ '.' :: (rest.takeWhile Char.isDigit ++ more) := by simp
      obtain ⟨h1, h2⟩ := digits_append cs (rest.takeWhile Char.isDigit ++ more) (c := '.') (by decide)
      obtain ⟨h3, h4⟩ := takeWhile_cut h
      rw [htext, number_of_fraction h2 (h4.symm ▸ ne_cons_of_prefix h hf), h1, h3, h4]
  · have hi : ∀ rest, cs.dropWhile Char.isDigit ≠ '.' :: rest := not_exists.1 hp
    rw [number_of_whole hi] at h ⊢
    obtain ⟨h1, h2⟩ := takeWhile_cut h
    rw [number_of_whole (h2.symm ▸ ne_cons_of_prefix h hi), h1, h2]

/-- A token is the same if the text ends somewhere after it. -/
theorem lexeme_cut {c : Char} {cs tail : List Char} (ht : (lexeme c cs).text = c :: tail)
    (h : more <+: (lexeme c cs).rest) : lexeme c (tail ++ more) = { lexeme c cs with rest := more } := by
  unfold lexeme at ht h ⊢
  by_cases hd : c.isDigit = true
  · rw [if_pos hd] at ht h
    rw [if_pos hd, if_pos hd, ← List.cons_append, ← ht, number_cut h]
  · rw [if_neg hd] at ht h
    rw [if_neg hd, if_neg hd]
    by_cases hs : isWordStart c = true
    · rw [if_pos hs] at ht h
      dsimp only at ht h
      obtain ⟨h1, h2⟩ := takeWhile_cut h
      rw [if_pos hs, if_pos hs]
      dsimp only
      rw [← List.cons_append, ← ht, h1, h2]
    · rw [if_neg hs] at ht h
      rw [if_neg hs, if_neg hs]
      by_cases hq : c = '"'
      · rw [if_pos hq] at ht h
        obtain rfl : (literalBody cs).1 = tail := (List.cons.inj ht).2
        rw [if_pos hq, if_pos hq, literalBody_cut h]
      · rw [if_neg hq] at ht
        obtain rfl : [] = tail := (List.cons.inj ht).2
        rw [if_neg hq, if_neg hq, List.nil_append]

end Cut

/-- A token of a text has a first character there, and what comes before it has the tokens before it. -/
theorem exists_start {cs : List Char} {line : UInt32} {k : Nat} {t : Token} (h : (list line cs)[k]? = some t) :
    ∃ front c rest, cs = front ++ c :: rest ∧ t.text.toList.head? = some c ∧ t.line = line + lineFeeds front ∧
      list line front = (list line cs).take k := by
  induction cs using by_tokens generalizing line k with
  | gaps cs hg =>
    rw [list_all_gap hg] at h
    cases h
  | token gap c rest hg hc ih =>
    obtain ⟨tail, ht⟩ : ∃ tail, (lexeme c rest).text = c :: tail := by
      have happend := lexeme_append c rest
      cases hl : (lexeme c rest).text with
      | nil => exact absurd hl (lexeme_ne_nil c rest)
      | cons d tail =>
        rw [hl] at happend
        exact ⟨tail, by rw [(List.cons.inj happend).1]⟩
    rw [list_token hg hc] at h ⊢
    cases k with
    | zero =>
      obtain rfl := Option.some.inj h
      refine ⟨gap, c, rest, rfl, ?_, rfl, list_all_gap hg line⟩
      rw [String.toList_ofList, ht, List.head?_cons]
    | succ k =>
      -- The token that is read first is the same if the text ends where the later one starts.
      obtain ⟨front, d, after, hrest, hd, hline, htokens⟩ := ih h
      have hcut : lexeme c (tail ++ front) = { lexeme c rest with rest := front } :=
        lexeme_cut ht ⟨d :: after, hrest.symm⟩
      refine ⟨gap ++ (c :: tail ++ front), d, after, ?_, hd, ?_, ?_⟩
      · rw [← lexeme_append c rest, ht, hrest]
        simp
      · rw [hline, ht, lineFeeds_append, lineFeeds_append]
        simp only [UInt32.add_assoc]
      · rw [List.cons_append, list_token hg hc, hcut, List.take_succ_cons, ← htokens]

/-- The line of a token that is that far on in a stream, or that the text ends on if there is none. -/
def Stream.lineAt (s : Stream) (k : Nat) : UInt32 := (s.tokens[k]?.map Token.line).getD s.endLine

/-- The first text is the second one up to its `k`-th token, with all comments before it. If there is no such
token, it is all of it. -/
structure Precedes (before text : List Char) (k : Nat) : Prop where
  front : before <+: text
  tokens : list 1 (Comment.strip before) = (list 1 (Comment.strip text)).take k
  first : ∀ t, (list 1 (Comment.strip text))[k]? = some t →
    ∃ c, (before, c) ∈ Comment.kept text ∧ t.text.toList.head? = some c
  last : (list 1 (Comment.strip text))[k]? = none → before = text

/-- A line is behind the end of some text by the line feeds in its block comments, as far as a counter of 32 bits can
show it. -/
structure Lacks (line : UInt32) (before : List Char) : Prop where
  wrapped : line + lineFeeds (Comment.blocks before) = 1 + lineFeeds before
  exact : newlines before + 1 < UInt32.size → line.toNat + newlines (Comment.blocks before) = 1 + newlines before

theorem lacks_strip (before : List Char) : Lacks (1 + lineFeeds (Comment.strip before)) before := by
  have hlines := Comment.newlines_strip before
  constructor
  · rw [UInt32.add_assoc, lineFeeds, lineFeeds, ← UInt32.ofNat_add, hlines, ← lineFeeds]
  · intro hlt
    rw [toNat_one_add_lineFeeds (by omega)]
    omega

/-- The line of a token among those that are left without the comments is behind by the line feeds in the block
comments before it. -/
theorem exists_precedes (text : String) (k : Nat) :
    ∃ before, Precedes before text.toList k ∧
      Lacks ((Stream.ofSource (String.ofList (Comment.strip text.toList))).lineAt k) before := by
  rw [Stream.lineAt, Stream.ofSource, String.toList_ofList]
  dsimp only
  cases ht : (list 1 (Comment.strip text.toList))[k]? with
  | none =>
    refine ⟨text.toList, ⟨List.prefix_rfl, ?_, ?_, fun _ => rfl⟩, ?_⟩
    · rw [List.take_of_length_le (List.getElem?_eq_none_iff.1 ht)]
    · intro t h
      cases ht.symm.trans h
    · rw [Option.map_none, Option.getD_none]
      exact lacks_strip text.toList
  | some t =>
    obtain ⟨front, c, rest, hstrip, hc, hline, htokens⟩ := exists_start ht
    obtain ⟨before, hk, rfl⟩ := Comment.exists_kept hstrip
    refine ⟨before, ⟨Comment.prefix_of_mem_kept hk, htokens, ?_, ?_⟩, ?_⟩
    · intro t' ht'
      obtain rfl := Option.some.inj (ht.symm.trans ht')
      exact ⟨c, hk, hc⟩
    · intro h
      cases ht.symm.trans h
    · rw [Option.map_some, Option.getD_some, hline]
      exact lacks_strip before

end Token

/-! ## Lines -/

/-- A line has as many line feeds before it as lines. -/
theorem Line.newlines_take {cs : List Char} {k : Nat} {l : Line} (h : (list cs)[k]? = some l) :
    newlines (((list cs).take k).flatMap text) = k ∧ '\n' ∉ l.body := by
  induction cs using by_lines generalizing k with
  | last cs hcs =>
    by_cases hc : cs = []
    · rw [hc, list_nil] at h
      cases h
    · rw [list_of_not_mem hcs hc] at h ⊢
      cases k with
      | zero =>
        obtain rfl := Option.some.inj h
        exact ⟨rfl, hcs⟩
      | succ => cases h
  | first body rest hb ih =>
    rw [list_cons hb] at h ⊢
    cases k with
    | zero =>
      obtain rfl := Option.some.inj h
      refine ⟨rfl, fun hm => ?_⟩
      unfold terminated at hm
      split at hm
      · exact hb (List.dropLast_subset body hm)
      · exact hb hm
    | succ k =>
      obtain ⟨hk, hl⟩ := ih h
      have hfirst : newlines (body ++ ['\n']) = 1 := by
        rw [newlines_append, newlines, List.count_eq_zero_of_not_mem hb]
        rfl
      rw [List.take_succ_cons, List.flatMap_cons, newlines_append, text_terminated, hfirst, hk]
      exact ⟨Nat.add_comm 1 k, hl⟩

/-- A text around one of its lines. -/
theorem Line.exists_after {cs : List Char} {k : Nat} {l : Line} (h : (list cs)[k]? = some l) :
    ∃ after, cs = ((list cs).take k).flatMap text ++ (l.text ++ after) := by
  obtain ⟨hk, rfl⟩ := List.getElem?_eq_some_iff.1 h
  refine ⟨((list cs).drop (k + 1)).flatMap text, ?_⟩
  rw [← List.flatMap_cons, ← List.flatMap_append, ← List.drop_eq_getElem_cons hk, List.take_append_drop, text_list]

/-- A directive starts with a number sign, and only blanks are before it on its line. -/
theorem Directive.exists_blank {body : List Char} {d : Directive} (h : ofLine? body = some d) :
    ∃ blank rest, body = blank ++ '#' :: rest ∧ blank.all isBlank = true := by
  have hstart := List.takeWhile_append_dropWhile (p := isBlank) (l := body)
  have hprefix : trim body <+: body.dropWhile isBlank := by
    rw [trim, trimEnd, trimStart, ← List.reverse_suffix, List.reverse_reverse]
    exact List.dropWhile_suffix _
  unfold ofLine? at h
  split at h
  · next rest hr =>
    obtain ⟨others, ho⟩ := hprefix
    rw [hr, List.cons_append] at ho
    refine ⟨body.takeWhile isBlank, rest ++ others, ?_, List.all_takeWhile⟩
    rw [ho, hstart]
  · cases h

/-- A directive is on this line of what is left of the text without its comments, counted from 0, and the first
text is all that stands before it, with all comments. -/
structure Directive.Follows (before text : List Char) (k : Nat) (l : Line) : Prop where
  front : before <+: text
  line : (Line.list (Comment.strip text))[k]? = some l
  sign : (before, '#') ∈ Comment.kept text
  blank : ∃ blank, blank.all isBlank = true ∧
    Comment.strip before = ((Line.list (Comment.strip text)).take k).flatMap Line.text ++ blank

/-- The number of a line among those that are left without the comments is behind by the line feeds in the block
comments before the directive on it. -/
theorem Directive.exists_follows {text : List Char} {k : Nat} {l : Line} {d : Directive}
    (hl : (Line.list (Comment.strip text))[k]? = some l) (hd : ofLine? l.body = some d) :
    ∃ before, Follows before text k l ∧ k + 1 + newlines (Comment.blocks before) = 1 + newlines before := by
  obtain ⟨hfront, hbody⟩ := Line.newlines_take hl
  obtain ⟨after, hafter⟩ := Line.exists_after hl
  obtain ⟨blank, rest, hb, hblank⟩ := exists_blank hd
  have hsplit : Comment.strip text = ((Line.list (Comment.strip text)).take k).flatMap Line.text ++ blank ++
      '#' :: (rest ++ (l.ending ++ after)) := by
    rw [Line.text, hb] at hafter
    simpa using hafter
  obtain ⟨before, hk, hstrip⟩ := Comment.exists_kept hsplit
  refine ⟨before, ⟨Comment.prefix_of_mem_kept hk, hl, hk, blank, hblank, hstrip⟩, ?_⟩
  have hlines := Comment.newlines_strip before
  have hnone : newlines blank = 0 := List.count_eq_zero_of_not_mem fun hm => hbody (hb ▸ List.mem_append_left _ hm)
  rw [hstrip, newlines_append, hfront, hnone] at hlines
  omega

end ShaderBuild
