import ShaderBuild.Proofs.Decomposition
import ShaderBuild.Proofs.Diagnostics
import ShaderBuild.Proofs.Outcomes
import ShaderBuild.Proofs.Stripping
/-!
# The parsers end

Each loop of the parsers takes a token in every turn but the last one (`loops_advance`), so it ends after one turn more
than there are tokens at most (`Token.Stream.Genuine.loopsEnd`). A text has no more tokens than characters
(`Token.list_bounded`), so both parsers end on every text, and on what is left of it if it is cut anywhere.
-/

namespace ShaderBuild

open Token Reader Text

/-! ## The loops -/

/-- Every loop of the parsers takes a token in each turn but the last one. -/
structure LoopsAdvance : Prop where
  declarations : Loop.declarations.Advances
  members : Loop.members.Advances
  modifiers : ∀ words, (Loop.modifiers words).Advances
  parameters : ∀ types, (Loop.parameters types).Advances
  template : Loop.template.Advances
  body : ∀ function line, (Loop.body function line).Advances
  statement : ∀ line, (Loop.statement line).Advances
  shaders : Loop.shaders.Advances
  stages : ∀ shader, (Loop.stages shader).Advances
  statements : Loop.statements.Advances

/-- Every loop of the parsers, begun where a stream starts, ends in so many turns with what its reader gives. -/
structure LoopsEnd (s : Stream) (bound : Nat) : Prop where
  declarations : ∀ i : Interface, Loop.declarations.EndsWithin (i, [], s) bound (i.extend s)
  members : Loop.members.EndsWithin ([], s) bound
    (untilClosed .blockClose Declaration.memberStatement Declaration.consumes_memberStatement s)
  modifiers : ∀ words, (Loop.modifiers words).EndsWithin s bound (skipWhile (Declaration.isWordOf words) s)
  parameters : ∀ types, (Loop.parameters types).EndsWithin ([], s) bound
    (separated .comma (Declaration.parameter types) (Declaration.consumes_parameter types) s)
  template : s.head.text = "<" → ∃ outcome, Loop.template.EndsWithin ⟨1, "", s.tail⟩ bound outcome ∧
    Declaration.templateArgument s = outcome.map fun p => (some p.1, p.2)
  body : ∀ function line, s.head.kind = .blockOpen →
    (Loop.body function line).EndsWithin (1, s.tail) bound (Declaration.body function line s)
  statement : ∀ line, (Loop.statement line).EndsWithin s bound (Declaration.skipStatement line s)
  shaders : ∀ m : Manifest, Loop.shaders.EndsWithin (m, s) bound (m.extend s)
  stages : ∀ shader unit, (Loop.stages shader).EndsWithin (unit, s) bound
    (foldUntil .blockClose (Manifest.stage shader) (Manifest.consumes_stage shader) unit s)
  statements : ∀ source, Loop.statements.EndsWithin (source, s) bound
    (foldUntil .blockClose Manifest.statement Manifest.consumes_statement source s)

theorem loops_advance : LoopsAdvance where
  declarations := Loop.advances_declarations
  members := Loop.advances_items _ Declaration.consumes_memberStatement Declaration.alike_memberStatement.recedes
  modifiers := Loop.advances_modifiers
  parameters types :=
    Loop.advances_listed _ (Declaration.consumes_parameter types) (Declaration.alike_parameter types).recedes
  template := Loop.advances_template
  body := Loop.advances_body
  statement := Loop.advances_statement
  shaders := Loop.advances_shaders
  stages shader := Loop.advances_changes _ (Manifest.consumes_stage shader) fun unit =>
    Manifest.Traces.recedes fun _ => Manifest.traces_stage shader unit
  statements := Loop.advances_changes _ Manifest.consumes_statement fun source =>
    Manifest.Traces.recedes fun _ => Manifest.traces_statement source

theorem map_nil_append {α : Type} (x : Except Error (List α × Stream)) : x.map (fun p => ([] ++ p.1, p.2)) = x := by
  cases x <;> rfl

/-- With all tokens genuine, every loop ends after one turn more than there are tokens at most. -/
theorem Token.Stream.Genuine.loopsEnd {s : Stream} (hs : s.Genuine) {bound : Nat} (hb : s.size < bound) :
    LoopsEnd s bound where
  declarations i := by
    have h := Loop.advances_declarations.endsWithin Loop.gives_declarations (x := (i, [], s)) hs
    exact h.mono hb
  members := by
    have h := loops_advance.members.endsWithin (Loop.gives_items Declaration.consumes_memberStatement)
      (x := ([], s)) trivial
    rw [map_nil_append] at h
    exact h.mono hb
  modifiers words := ((Loop.advances_modifiers words).endsWithin (Loop.gives_modifiers words) trivial).mono hb
  parameters types := by
    have h := (loops_advance.parameters types).endsWithin (Loop.gives_listed (Declaration.consumes_parameter types))
      (x := ([], s)) trivial
    rw [map_nil_append] at h
    exact h.mono hb
  template hopen := by
    have htail := s.tail_within
    have h := Loop.advances_template.endsWithin Loop.gives_template (x := ⟨1, "", s.tail⟩)
      ⟨Int.le_refl 1, htail.genuine hs⟩
    rw [Declaration.templateFrom_one] at h
    exact ⟨_, h.mono (Nat.lt_of_le_of_lt htail.size_le hb), Declaration.templateArgument_of_open hopen⟩
  body function line hopen := by
    have htail := s.tail_within
    have h := (Loop.advances_body function line).endsWithin (Loop.gives_body function line) (x := (1, s.tail))
      ⟨Int.one_nonneg, htail.genuine hs⟩
    rw [Declaration.body_of_open function line hopen]
    exact h.mono (Nat.lt_of_le_of_lt htail.size_le hb)
  statement line := ((Loop.advances_statement line).endsWithin (Loop.gives_statement line) hs).mono hb
  shaders m := by
    have h := Loop.advances_shaders.endsWithin Loop.gives_shaders (x := (m, s)) trivial
    exact h.mono hb
  stages shader unit := by
    have h := (loops_advance.stages shader).endsWithin (Loop.gives_changes (Manifest.consumes_stage shader))
      (x := (unit, s)) trivial
    exact h.mono hb
  statements source := by
    have h := loops_advance.statements.endsWithin (Loop.gives_changes Manifest.consumes_statement)
      (x := (source, s)) trivial
    exact h.mono hb

/-! ## Texts -/

namespace Token

/-- A text has no more tokens than characters, and none of them stands for its end. -/
theorem list_bounded (line : UInt32) (cs : List Char) :
    (list line cs).length ≤ cs.length ∧ ∀ t ∈ list line cs, t.isEnd = false := by
  fun_induction list line cs with
  | case1 => exact ⟨Nat.zero_le _, List.forall_mem_nil _⟩
  | case2 line cs hend ih =>
    have htoken := Bool.eq_false_iff.2 hend
    have hlt := length_scan_lt line cs htoken
    refine ⟨?_, List.forall_mem_cons.2 ⟨htoken, ih.2⟩⟩
    rw [List.length_cons]
    exact Nat.lt_of_le_of_lt ih.1 hlt

theorem Stream.bounded (source : String) :
    (Stream.ofSource source).size ≤ source.toList.length ∧ (Stream.ofSource source).Genuine :=
  list_bounded 1 source.toList

end Token

namespace Scanner

/-- The tokens that are left. -/
def stream (s : Scanner) : Stream := ⟨list s.line s.rest, s.line + lineFeeds s.rest⟩

/-- Reading a token makes what is left shorter, or there is only white space left, which is skipped. The readers see
the tokens that are read in this way. -/
structure Progresses (s : Scanner) : Prop where
  suffix : s.next.2.rest <:+ s.rest
  shorter : s.next.1.isEnd = false → s.next.2.rest.length < s.rest.length
  exhausted : s.next.1.isEnd = true → s.rest.all isGap = true ∧ s.next.2.rest = []
  head : s.stream.head = s.next.1
  tail : s.stream.tail = s.next.2.stream

theorem progresses (s : Scanner) : s.Progresses := by
  obtain ⟨source, chars, line, current⟩ := s
  rcases gap_cases chars with h | ⟨gap, c, rest, rfl, hg, hc⟩
  · have hscan := scan_all_gap h line
    have hlist := list_all_gap h line
    constructor
    case suffix =>
      simp only [next, hscan]
      exact List.nil_suffix
    case shorter =>
      intro hend
      simp only [next, hscan] at hend
      cases hend
    case exhausted => exact fun _ => ⟨h, by rw [next, hscan]⟩
    case head =>
      simp only [stream, hlist, next, hscan]
      rfl
    case tail =>
      simp only [stream, hlist, next, hscan, list_nil, lineFeeds_nil, UInt32.add_zero]
      rfl
  · have hscan := scan_token hg hc rest line
    have hlist := list_token hg hc rest line
    have hend : Token.isEnd ⟨(lexeme c rest).kind, String.ofList (lexeme c rest).text, line + lineFeeds gap⟩ = false :=
      isEnd_lexeme hc _ _ _
    constructor
    case suffix =>
      simp only [next, hscan]
      exact (rest_suffix gap c rest).1
    case shorter =>
      intro _
      simp only [next, hscan, List.length_append]
      exact Nat.lt_of_lt_of_le (length_lexeme_lt c rest) (Nat.le_add_left ..)
    case exhausted =>
      intro h
      simp only [next, hscan] at h
      exact absurd (h.symm.trans hend) (by decide)
    case head =>
      simp only [stream, hlist, next, hscan]
      rfl
    case tail =>
      -- the line behind the token and the line feeds that are left come to the line that the text ends on
      have hchars := congrArg lineFeeds (lexeme_append c rest)
      rw [lineFeeds_append] at hchars
      simp only [stream, hlist, next, hscan, Stream.tail, List.tail_cons, lineFeeds_append, ← hchars, UInt32.add_assoc]

end Scanner

/-- Both parsers end on a text, and so does every loop, wherever it begins. -/
structure ParsersEnd (source : String) (bound : Nat) : Prop where
  interface : Loop.declarations.EndsWithin (Interface.empty, [], Stream.ofSource source) bound (Interface.parse source)
  manifest : Loop.shaders.EndsWithin ({}, Manifest.codeOf source) bound (Manifest.parse source)
  genuine : (Stream.ofSource source).Genuine ∧ (Manifest.codeOf source).Genuine
  loops : ∀ s : Stream, s.Within (Stream.ofSource source) ∨ s.Within (Manifest.codeOf source) → LoopsEnd s bound

theorem ParsersEnd.of_length {source : String} {bound : Nat} (h : source.toList.length < bound) :
    ParsersEnd source bound := by
  have hcode : (Comment.strip source.toList).length ≤ source.toList.length :=
    (Comment.sublist_stripFrom .code source.toList).length_le
  obtain ⟨hsource, hgenuine⟩ := Stream.bounded source
  obtain ⟨hmanifest, hgenuine'⟩ := Stream.bounded (String.ofList (Comment.strip source.toList))
  rw [String.toList_ofList] at hmanifest
  have hsize : (Stream.ofSource source).size < bound := Nat.lt_of_le_of_lt hsource h
  have hsize' : (Manifest.codeOf source).size < bound :=
    Nat.lt_of_le_of_lt (Nat.le_trans hmanifest hcode) h
  refine ⟨?_, ?_, ⟨hgenuine, hgenuine'⟩, ?_⟩
  · exact (hgenuine.loopsEnd hsize).declarations .empty
  · exact (hgenuine'.loopsEnd hsize').shaders {}
  · rintro s (hs | hs)
    · exact (hs.genuine hgenuine).loopsEnd (Nat.lt_of_le_of_lt hs.size_le hsize)
    · exact (hs.genuine hgenuine').loopsEnd (Nat.lt_of_le_of_lt hs.size_le hsize')

/-- Both parsers end on every text. Reading a token makes what is left of the text shorter. Each turn of a loop takes
a token or is the last one, so there are no more turns than characters and one, wherever the text ends. -/
theorem parsers_end :
    (∀ s : Scanner, s.Progresses) ∧ LoopsAdvance ∧ (∀ source, ParsersEnd source (source.length + 1)) ∧
      ∀ (source : String) (kept : Nat), ParsersEnd (String.ofList (source.toList.take kept)) (kept + 1) := by
  refine ⟨Scanner.progresses, loops_advance, fun source => .of_length ?_, fun source kept => .of_length ?_⟩
  · exact Nat.lt_succ_of_le (Nat.le_of_eq String.length_toList)
  · rw [String.toList_ofList]
    exact Nat.lt_succ_of_le (List.length_take_le ..)

/-- A text that is cut in a template argument. The loop over its tokens ends, and so does the parser. -/
theorem parsers_end_unterminated :
    let s : Stream := ⟨[⟨.symbol, "<", 1⟩, ⟨.identifier, "float", 1⟩], 1⟩
    s.Within (Stream.ofSource "Texture2D<float") ∧ s.head.text = "<" ∧
      Loop.template.EndsWithin ⟨1, "", s.tail⟩ 16 (.error (.declaration 1 .unterminatedTemplate)) ∧
      Loop.declarations.EndsWithin (Interface.empty, [], Stream.ofSource "Texture2D<float") 16
        (Interface.parse "Texture2D<float") := by
  intro s
  have hs : (Stream.ofSource "Texture2D<float").tail = s := by decide +kernel
  have hwithin : s.Within (Stream.ofSource "Texture2D<float") := hs ▸ Stream.tail_within _
  have hends : ParsersEnd "Texture2D<float" 16 := parsers_end.2.2.1 "Texture2D<float"
  have hfails : Declaration.templateArgument s = .error (.declaration 1 .unterminatedTemplate) := rfl
  obtain ⟨outcome, hloop, houtcome⟩ := (hends.loops s (.inl hwithin)).template rfl
  refine ⟨hwithin, rfl, ?_, hends.interface⟩
  rw [hfails] at houtcome
  cases outcome with
  | error e =>
    obtain rfl := Except.error.inj houtcome
    exact hloop
  | ok p => cases houtcome

end ShaderBuild
