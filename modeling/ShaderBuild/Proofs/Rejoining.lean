import ShaderBuild.Proofs.Decomposition
/-!
# Tokens written out again

What a token is does not depend on where it was found: the tokens of a text, written one after the other with
some white space between any two, are scanned as the same tokens again (`rejoined_tokens_rescan`). The white
space may be any, and it need not be the same everywhere. A literal without an end is no exception, as it is the
last token and nothing is written after it.
-/

namespace ShaderBuild.Token

open Text

/-- White space that keeps two tokens apart. -/
structure Gap where
  chars : List Char
  all : chars.all isGap = true
  ne_nil : chars ≠ []

/-- Tokens one after the other, with gaps between them. -/
def rejoin (gap : Nat → Gap) : List Token → List Char
  | [] => []
  | [t] => t.text.toList
  | t :: ts => t.text.toList ++ ((gap 0).chars ++ rejoin (fun n => gap (n + 1)) ts)

/-- A token wherever it is. -/
def content (t : Token) : Kind × String := (t.kind, t.text)

variable {gap : Nat → Gap}

/-- After a token there is nothing or a gap, which leaves the other tokens as they are. -/
theorem exists_rejoin_cons (gap : Nat → Gap) (t : Token) (ts : List Token) :
    ∃ after, rejoin gap (t :: ts) = t.text.toList ++ after ∧ Ends after ∧ (ts = [] → after = []) ∧
      ∀ line, ∃ line', list line after = list line' (rejoin (fun n => gap (n + 1)) ts) := by
  cases ts with
  | nil => exact ⟨[], (List.append_nil _).symm, ends_nil, fun _ => rfl, fun line => ⟨line, rfl⟩⟩
  | cons t' ts =>
    exact ⟨_, rfl, ends_append (gap 0).all (gap 0).ne_nil _, fun h => (List.cons_ne_nil _ _ h).elim,
      fun line => ⟨_, list_gap_append (gap 0).all _ line⟩⟩

/-- A token that was cut off is cut off again where a gap follows, or nothing if nothing followed. -/
theorem lexeme_again {c : Char} (hc : isGap c = false) {cs after : List Char} (he : Ends after)
    (hn : (lexeme c cs).rest = [] → after = []) :
    ∃ d ds, (lexeme c cs).text = d :: ds ∧ isGap d = false ∧
      lexeme d (ds ++ after) = { lexeme c cs with rest := after } := by
  rcases spells_lexeme hc cs with hs | ⟨-, hrest⟩
  · obtain ⟨d, ds, ht, hd, hl⟩ := lexeme_of_spells hs
    exact ⟨d, ds, ht, hd, hl after he⟩
  · have happend := lexeme_append c cs
    rw [hrest, List.append_nil] at happend
    refine ⟨c, cs, happend, hc, ?_⟩
    rw [hn hrest, List.append_nil, ← hrest]

/-- Scanning what was scanned gives the same tokens. -/
theorem contents_rejoin (gap : Nat → Gap) (cs : List Char) (line line' : UInt32) :
    (list line' (rejoin gap (list line cs))).map content = (list line cs).map content := by
  induction cs using by_tokens generalizing gap line line' with
  | gaps cs hg => rw [list_all_gap hg, rejoin, list_nil]
  | token front c rest hg hc ih =>
    rw [list_token hg hc]
    obtain ⟨after, hjoin, hends, hlast, hlist⟩ := exists_rejoin_cons gap
      ⟨(lexeme c rest).kind, String.ofList (lexeme c rest).text, line + lineFeeds front⟩
      (list (line + lineFeeds front + lineFeeds (lexeme c rest).text) (lexeme c rest).rest)
    obtain ⟨d, ds, htext, hd, hlex⟩ := lexeme_again hc hends fun hr => hlast (by rw [hr, list_nil])
    have hagain := list_token (List.all_nil (f := isGap)) hd (ds ++ after) line'
    rw [hlex, List.nil_append, ← List.cons_append, ← htext] at hagain
    obtain ⟨line'', hl⟩ := hlist (line' + lineFeeds [] + lineFeeds (lexeme c rest).text)
    rw [hjoin, String.toList_ofList, hagain, hl, List.map_cons, List.map_cons, ih]
    rfl

end ShaderBuild.Token

namespace ShaderBuild.Scanner

open Text Token

/-- A cursor reads the tokens of what it has not read, and then only the end. -/
theorem content_next_after (s : Scanner) (n : Nat) :
    (s.after n).next.1.content = ((list s.line s.rest).map content)[n]?.getD (.endOfInput, "") := by
  induction n generalizing s with
  | zero =>
    rcases gap_cases s.rest with hall | ⟨front, c, rest, hrest, hg, hc⟩
    · rw [next_at_end hall, list_all_gap hall]
      rfl
    · rw [after, next, hrest, scan_token hg hc, list_token hg hc]
      rfl
  | succ n ih =>
    rcases gap_cases s.rest with hall | ⟨front, c, rest, hrest, hg, hc⟩
    · rw [next_at_end hall, list_all_gap hall]
      rfl
    · rw [after, ih, next, hrest, scan_token hg hc, list_token hg hc]
      rfl

/-- The tokens of a text, written out again with any white space between them, are read again as the same tokens in
the same order: each with its text and its kind, and none more. -/
theorem rejoined_tokens_rescan (source : String) (gap : Nat → Gap) :
    let tokens := (Stream.ofSource source).tokens
    let again := String.ofList (rejoin gap tokens)
    (Stream.ofSource again).tokens.map content = tokens.map content ∧
      ∀ n, ((ofSource again).after n).next.1.content = ((ofSource source).after n).next.1.content := by
  intro tokens again
  have hcontents : (list 1 again.toList).map content = (list 1 source.toList).map content := by
    rw [String.toList_ofList]
    exact contents_rejoin gap source.toList 1 1
  refine ⟨hcontents, fun n => ?_⟩
  rw [content_next_after, content_next_after]
  exact congrArg (fun contents => contents[n]?.getD (.endOfInput, "")) hcontents

end ShaderBuild.Scanner
