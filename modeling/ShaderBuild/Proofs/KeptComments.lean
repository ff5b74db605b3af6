import ShaderBuild.Proofs.Appending
import ShaderBuild.Proofs.PlainText
import ShaderBuild.Proofs.Stripping
/-!
# Comments that are kept

If comments are not stripped, their text is read like any other. `Ignored` tells where this does not matter to the
interface: between declarations, where the text of the comment declares nothing, in the body of a function, if its
braces are balanced, and in the statement of a global variable, if it has no semicolon. If all comments of a text
are such (`Harmless`), then it declares the same with and without them (`sameOutcome_strip`). Elsewhere, or with
another text, a comment can declare something, or make the text unreadable.
-/

namespace ShaderBuild

open Token Reader Text

namespace Comment

/-- A comment ends where it ends. -/
theorem Spans.stops {com after : List Char} (h : Spans com after) : Stops com after := by
  intro c hc d hd hp
  cases h with
  | line hb ha =>
    obtain rfl := ha d hd
    decide
  | @block body =>
    have hlast : ('/' :: '*' :: (body ++ ['*', '/'])).getLast? = some '/' := by
      simp [List.getLast?_cons, List.getLast?_append]
    obtain rfl : '/' = c := Option.some.inj (hlast.symm.trans hc)
    exact absurd hp (by decide)
  | unclosed => cases hd

end Comment

/-! ## Tokens -/

namespace Token

theorem mem_of_string {cs : List Char} {line : UInt32} {t : Token} (ht : t ∈ list line cs) (hk : t.kind = .string) :
    '"' ∈ cs := by
  induction cs using by_tokens generalizing line with
  | gaps cs hg =>
    rw [list_all_gap hg] at ht
    cases ht
  | token gap c rest hg hc ih =>
    rw [list_token hg hc] at ht
    rcases List.mem_cons.1 ht with rfl | ht
    · obtain rfl := eq_quote_of_kind hk
      simp
    · exact (rest_suffix gap c rest).1.subset (ih ht)

/-- A text without quotes does not end in a literal. -/
theorem not_openEnd {cs : List Char} (h : '"' ∉ cs) (line : UInt32) : ¬ OpenEnd (list line cs) := by
  rintro ⟨t, ht, hk, -⟩
  exact h (mem_of_string (List.mem_of_getLast? ht) hk)

/-- No word is an angle bracket. -/
theorem text_ne_of_identifier {cs : List Char} {line : UInt32} {t : Token} (ht : t ∈ list line cs)
    (hk : t.kind = .identifier) : t.text ≠ "<" := by
  induction cs using by_tokens generalizing line with
  | gaps cs hg =>
    rw [list_all_gap hg] at ht
    cases ht
  | token gap c rest hg hc ih =>
    rw [list_token hg hc] at ht
    rcases List.mem_cons.1 ht with rfl | ht
    · intro htext
      have hchars : (lexeme c rest).text = ['<'] := by
        have h := congrArg String.toList htext
        rwa [String.toList_ofList] at h
      have happend := lexeme_append c rest
      rw [hchars] at happend
      obtain rfl : '<' = c := (List.cons.inj happend).1
      have hkind : (lexeme '<' rest).kind = .symbol := rfl
      cases hkind.symm.trans hk
    · exact ih ht

theorem list_slash (cs : List Char) (line : UInt32) : list line ('/' :: cs) = ⟨.symbol, "/", line⟩ :: list line cs := by
  have hlexeme : lexeme '/' cs = ⟨.symbol, ['/'], cs⟩ := rfl
  have htoken := @list_token [] rfl '/' (by decide) cs line
  have hnone : lineFeeds ['/'] = 0 := rfl
  rwa [hlexeme, lineFeeds_nil, hnone, UInt32.add_zero, UInt32.add_zero] at htoken

theorem shapes_append (ts ts' : List Token) : shapes (ts ++ ts') = shapes ts ++ shapes ts' := List.map_append

/-- The shapes of the tokens do not depend on where the text starts. -/
theorem shapes_list (cs : List Char) (line : UInt32) : shapes (list line cs) = shapes (list 1 cs) := by
  have hshift : ∀ line, shapes (list line cs) = shapes (list 0 cs) := by
    intro line
    rw [← UInt32.zero_add line, list_shift, shapes, shapes, List.map_map]
    rfl
  rw [hshift, hshift 1]

end Token

namespace Interface

open Declaration

theorem sameReading_of_shapes (i : Interface) {s s' : Stream} (h : shapes s'.tokens = shapes s.tokens) :
    SameReading (i.extend s) (i.extend s') := by
  let blank : Stream := ⟨(i.outline s).map fun p => ⟨p.1, p.2, 0⟩, 0⟩
  have hblank : shapes blank.tokens = i.outline s := by
    simp only [blank, shapes, List.map_map]
    exact List.map_id _
  exact (same_extend i s i blank rfl hblank).join
    (same_extend i s' i blank rfl (hblank.trans (outline_of_shapes i s i s' rfl h).symm))

/-- Both texts can be read, and declare the same but for lines, or neither can, for the same reason. -/
def SameOutcome (l l' : Logged Interface) : Prop := SameResult (fun i i' => i.unlined = i'.unlined) l.result l'.result

theorem SameOutcome.of_eq {l l' l'' : Logged Interface} (h : l.result = l'.result) (h' : SameOutcome l' l'') :
    SameOutcome l l'' := by
  unfold SameOutcome
  rwa [h]

theorem SameOutcome.trans {l l' l'' : Logged Interface} (h : SameOutcome l l') (h' : SameOutcome l' l'') :
    SameOutcome l l'' := by
  unfold SameOutcome at *
  generalize l.result = r at h ⊢
  generalize l'.result = r' at h h'
  generalize l''.result = r'' at h' ⊢
  cases h with
  | ok h =>
    cases h' with
    | ok h' => exact .ok (h.trans h')
  | error h =>
    cases h' with
    | error h' => exact .error (h.trans h')

end Interface

/-! ## What a declaration passes over -/

namespace Declaration

variable {ts : List Token}

theorem foldlM_braces_add {depth depth' : Nat} (h : ts.foldlM braces depth = some depth') (d : Nat) :
    ts.foldlM braces (depth + d) = some (depth' + d) := by
  induction ts generalizing depth with
  | nil => exact congrArg some (congrArg (· + d) (Option.some.inj h))
  | cons t ts ih =>
    rw [List.foldlM_cons] at h ⊢
    obtain ⟨depth₁, hb, h⟩ := Option.bind_eq_some_iff.1 h
    have hb' : braces (depth + d) t = some (depth₁ + d) := by
      unfold braces at hb ⊢
      split at hb
      · rw [← Option.some.inj hb, Nat.add_right_comm]
      · split at hb
        · cases hb
        · next hne =>
          rw [if_neg (by omega), ← Option.some.inj hb]
          exact congrArg some (by omega)
      · rw [Option.some.inj hb]
    rw [hb']
    exact ih h

theorem afterBody_append {depth depth' : Nat} (h : ts.foldlM braces depth = some depth') (rest : List Token) :
    afterBody depth (ts ++ rest) = afterBody depth' rest := by
  induction ts generalizing depth with
  | nil =>
    obtain rfl : depth = depth' := Option.some.inj h
    rfl
  | cons t ts ih =>
    rw [List.foldlM_cons] at h
    obtain ⟨depth₁, hb, h⟩ := Option.bind_eq_some_iff.1 h
    rw [List.cons_append, afterBody_cons, hb]
    exact ih h

theorem afterStatement_append (h : ∀ t ∈ ts, t.kind ≠ .semicolon) (rest : List Token) :
    afterStatement (ts ++ rest) = afterStatement rest := by
  induction ts with
  | nil => rfl
  | cons t ts ih =>
    obtain ⟨ht, hts⟩ := List.forall_mem_cons.1 h
    rw [List.cons_append, afterStatement, if_neg ht, ih hts]

theorem alike_signatureAfter_self (types : TypeTable) (type : Token) :
    Alike Eq (signatureAfter types type) (signatureAfter types type) := by
  refine (Alike.liftM (sameResult_returnType types rfl)).bind ?_
  rintro returned _ rfl
  refine alike_word.bind ?_
  rintro name _ rfl
  refine (alike_isNext .bracketOpen).bind ?_
  rintro found _ rfl
  split
  · refine (alike_parameters types).bind ?_
    rintro parameters _ rfl
    refine alike_semantic.bind ?_
    rintro semantic _ rfl
    exact Alike.pure rfl
  · exact (alike_skipStatement _ _).bind fun _ _ _ => Alike.pure rfl

/-- A declaration that has come so far passes over these tokens, whatever follows them. -/
def PassesOver (types : TypeTable) (first : Token) (read ts : List Token) : Prop :=
  ∀ rest line, startingWith types first ⟨read ++ (ts ++ rest), line⟩ = startingWith types first ⟨read ++ rest, line⟩

theorem bind_congr_of_eq {α β : Type} {r : Reader α} {s s' : Stream} (h : r s = r s') (f : α → Reader β) :
    (r >>= f) s = (r >>= f) s' := by
  simp only [Bind.bind, StateT.bind, h]

theorem cut_congr {α : Type} {f : List Token → Option (α × List Token)} (error : UInt32 → Error) {ts ts' : List Token}
    (h : f ts = f ts') (line : UInt32) : cut f error ⟨ts, line⟩ = cut f error ⟨ts', line⟩ := by
  simp only [cut, h]

/-- A body is read up to where it ends. -/
theorem body_congr (name : String) (line : UInt32) {opening : Token} (ho : opening.kind = .blockOpen)
    {ts ts' : List Token} (h : afterBody 0 ts = afterBody 0 ts') (endLine : UInt32) :
    body name line ⟨opening :: ts, endLine⟩ = body name line ⟨opening :: ts', endLine⟩ := by
  have hne : ¬opening.kind = .semicolon := by
    rw [ho]
    decide
  have haccept : ∀ us, accept .semicolon ⟨opening :: us, endLine⟩ = .ok (false, ⟨opening :: us, endLine⟩) :=
    fun us => if_neg hne
  have hexpect : ∀ us, expect .blockOpen ⟨opening :: us, endLine⟩ = .ok (opening, ⟨us, endLine⟩) := fun us => if_pos ho
  unfold body
  rw [bind_of_ok (haccept ts), bind_of_ok (haccept ts'), if_neg Bool.false_ne_true, bind_of_ok (hexpect ts),
    bind_of_ok (hexpect ts')]
  exact cut_congr _ (congrArg (Option.map _) h) endLine

/-- In the body of a function, everything with balanced braces is passed over. -/
theorem passesOver_body {types : TypeTable} {first opening : Token} {sig inner : List Token} {line : UInt32} {depth : Nat}
    {f : Function} (hfun : StartsFunction types first)
    (hsig : signatureAfter types first ⟨sig ++ opening :: inner, line⟩ = .ok (some f, ⟨opening :: inner, line⟩))
    (ho : opening.kind = .blockOpen) (hi : inner.foldlM braces 0 = some depth) (hts : Balanced ts) :
    PassesOver types first (sig ++ opening :: inner) ts := by
  intro rest line'
  -- The signature is read to the same whatever the body is.
  obtain ⟨taken, hs, hok⟩ := (alike_signatureAfter_self types first).steadyAt _ _ _ hsig
  obtain rfl : sig = taken := List.append_cancel_right (Stream.mk.inj hs).1
  have hover : afterBody 0 (inner ++ (ts ++ rest)) = afterBody 0 (inner ++ rest) := by
    have hts' : ts.foldlM braces depth = some depth := by simpa using foldlM_braces_add hts depth
    rw [afterBody_append hi, afterBody_append hi, afterBody_append hts']
  have hread : ∀ us, startingWith types first ⟨sig ++ opening :: us, line'⟩ =
      (body f.name first.line >>= fun _ => pure (.function f)) ⟨opening :: us, line'⟩ := by
    intro us
    rw [hfun.eq, functionAfter_eq, bind_of_ok (hok (opening :: us) line' rfl)]
    rfl
  rw [List.append_assoc, List.append_assoc, List.cons_append, List.cons_append, hread, hread]
  exact bind_congr_of_eq (body_congr f.name first.line ho hover line') _

/-- In the statement of a global variable, everything without semicolons is passed over. -/
theorem passesOver_statement {types : TypeTable} {first name next : Token} {inner : List Token}
    (hfun : StartsFunction types first) (hname : name.kind = .identifier) (hnext : next.kind ≠ .bracketOpen)
    (hi : ∀ t ∈ next :: inner, t.kind ≠ .semicolon) (hts : ∀ t ∈ ts, t.kind ≠ .semicolon) :
    PassesOver types first (name :: next :: inner) ts := by
  intro rest line
  have hover : afterStatement (next :: inner ++ (ts ++ rest)) = afterStatement (next :: inner ++ rest) := by
    rw [afterStatement_append hi, afterStatement_append hi, afterStatement_append hts]
  have hword : ∀ us, word ⟨name :: us, line⟩ = .ok (name.text, ⟨us, line⟩) := by
    intro us
    have hexpect : expect .identifier ⟨name :: us, line⟩ = .ok (name, ⟨us, line⟩) := if_pos hname
    rw [word, map_eq_pure_bind, bind_of_ok hexpect]
    rfl
  have hisNext : ∀ us, isNext .bracketOpen ⟨next :: us, line⟩ = .ok (false, ⟨next :: us, line⟩) := by
    intro us
    have hk : (next.kind == Kind.bracketOpen) = false := beq_eq_false_iff_ne.2 hnext
    rw [isNext, Stream.head, List.headD_cons, hk]
  rw [hfun.eq, functionAfter]
  cases returnType types first with
  | error e => rfl
  | ok returned =>
    have hlift : ∀ s, (liftM (Except.ok returned : Except Error (Option TypeId)) : Reader _) s = .ok (returned, s) :=
      fun _ => rfl
    simp only [List.cons_append] at hover ⊢
    rw [bind_of_ok (hlift _), bind_of_ok (hlift _), bind_of_ok (hword _), bind_of_ok (hword _),
      bind_of_ok (hisNext _), bind_of_ok (hisNext _), if_neg Bool.false_ne_true]
    exact bind_congr_of_eq (cut_congr _ (congrArg (Option.map _) hover) line) _

/-- Words that start no declaration, numbers and the like declare nothing. -/
theorem startingWith_plain {types : TypeTable} {t : Token} (hk : t.kind ≠ .struct ∧ t.kind ≠ .cbuffer)
    (hword : ResourceKind.ofKeyword? t.text = none ∧ t.text ≠ "void" ∧ types.contains t.text = false)
    {rest : List Token} (hr : ¬ StartsTemplate rest) (line : UInt32) :
    startingWith types t ⟨rest, line⟩ = .ok (.other, ⟨rest, line⟩) := by
  have hfun : ¬ (t.text = "void" ∨ types.contains t.text = true) := by simp [hword.2.1, hword.2.2]
  simp only [startingWith, hword.1, if_neg hfun]
  generalize t.kind = kind at hk ⊢
  cases kind with
  | struct => exact absurd rfl hk.1
  | cbuffer => exact absurd rfl hk.2
  | identifier => exact unknownAfter_of_ne _ (text_head_ne hr line)
  | _ => rfl

end Declaration

namespace Interface

open Declaration

/-- The declaration is read to the same with these tokens and without them. -/
theorem extend_passesOver (i : Interface) {first : Token} {read ts : List Token}
    (h : PassesOver i.types first read ts) (rest : List Token) (line : UInt32) :
    i.extend ⟨first :: (read ++ (ts ++ rest)), line⟩ = i.extend ⟨first :: (read ++ rest), line⟩ := by
  rw [extend_first, extend_first, declare, declare, h rest line]

/-- A text of plain words declares nothing. -/
theorem extend_plain (i : Interface) {ts : List Token} (line : UInt32)
    (h : ∀ t ∈ ts, (t.kind ≠ .struct ∧ t.kind ≠ .cbuffer) ∧
      (ResourceKind.ofKeyword? t.text = none ∧ t.text ≠ "void" ∧ i.types.contains t.text = false) ∧ t.text ≠ "<") :
    i.extend ⟨ts, line⟩ = ⟨.ok i, []⟩ := by
  induction ts with
  | nil => exact Written.extend_nil i line
  | cons t ts ih =>
    obtain ⟨ht, hts⟩ := List.forall_mem_cons.1 h
    have hr : ¬ StartsTemplate ts := by
      rintro ⟨t', ht', htext⟩
      exact (hts t' (List.mem_of_head? ht')).2.2 htext
    rw [Written.extend_cons (startingWith_plain ht.1 ht.2.1 hr line) rfl, ih hts]
    rfl

/-! ## Ignored comments -/

/-- Between these texts, the comment does not matter to what is declared. It stands
- between declarations, where its text declares nothing,
- in the body of a function, with its braces balanced, or
- in the statement of a global variable, with no semicolon. -/
inductive Ignored (u com v : List Char) : Prop
  | between {i : Interface} {line : UInt32} (read : (empty.extend ⟨list 1 u, line⟩).result = .ok i)
    (nothing : (i.extend ⟨list 1 com, line⟩).result = .ok i) (next : ¬ StartsTemplate (list 1 v))
  | body {i : Interface} {line : UInt32} {before sig inner : List Token} {first opening : Token} {f : Function}
    {depth : Nat}
    (split : list 1 u = before ++ first :: (sig ++ opening :: inner))
    (read : (empty.extend ⟨before, line⟩).result = .ok i) (starts : StartsFunction i.types first)
    (signature : signatureAfter i.types first ⟨sig ++ opening :: inner, line⟩ = .ok (some f, ⟨opening :: inner, line⟩))
    (opens : opening.kind = .blockOpen) (inside : inner.foldlM braces 0 = some depth) (balanced : Balanced (list 1 com))
  | statement {i : Interface} {line : UInt32} {before inner : List Token} {first name next : Token}
    (split : list 1 u = before ++ first :: name :: next :: inner)
    (read : (empty.extend ⟨before, line⟩).result = .ok i) (starts : StartsFunction i.types first)
    (named : name.kind = .identifier) (unbracketed : next.kind ≠ .bracketOpen)
    (inside : ∀ t ∈ next :: inner, t.kind ≠ .semicolon) (unended : ∀ t ∈ list 1 com, t.kind ≠ .semicolon)

/-- Every comment of the text is ignored where it stands, once those before it are taken away. -/
inductive Harmless : List Char → Prop
  | free {cs : List Char} (h : Comment.Free cs) : Harmless cs
  | comment {u com v : List Char} (first : Comment.Free (u ++ ['/'])) (spans : Comment.Spans com v) (joins : Stops u v)
    (ignored : Ignored u com v) (rest : Harmless (u ++ v)) : Harmless (u ++ (com ++ v))

theorem result_of_passesOver {i : Interface} {first : Token} {before read com : List Token} {line : UInt32}
    (h : (empty.extend ⟨before, line⟩).result = .ok i) (hf : first.text ≠ "<")
    (hp : PassesOver i.types first read com) (rest : List Token) :
    (empty.extend ⟨before ++ first :: read ++ (com ++ rest), line⟩).result =
      (empty.extend ⟨before ++ first :: read ++ rest, line⟩).result := by
  have hnot : ∀ more, ¬ StartsTemplate (first :: more) := by
    rintro more ⟨t, ht, htext⟩
    exact hf (Option.some.inj ht ▸ htext)
  rw [List.append_assoc, List.append_assoc, List.cons_append, List.cons_append,
    extend_append (hnot _) empty ⟨before, line⟩ h, extend_append (hnot _) empty ⟨before, line⟩ h,
    extend_passesOver i hp]

/-- With the tokens of an ignored comment and without them, the same is declared. -/
theorem Ignored.result_eq {u com v : List Char} (h : Ignored u com v) (hs : Comment.Spans com v) :
    ∃ line, (empty.extend ⟨list 1 u ++ (list 1 com ++ list 1 v), line⟩).result =
      (empty.extend ⟨list 1 u ++ list 1 v, line⟩).result := by
  have hword : ∀ {before after : List Token} {first : Token} {types : TypeTable}, list 1 u = before ++ first :: after →
      StartsFunction types first → first.text ≠ "<" := by
    intro before after first types hsplit hstarts
    have hmem : first ∈ list 1 u := by simp [hsplit]
    exact text_ne_of_identifier hmem hstarts.1
  cases h with
  | @between i line read nothing next =>
    refine ⟨line, ?_⟩
    -- A comment starts with a slash, so it is no template argument of what stands before it.
    have hcom : ¬ StartsTemplate (list 1 com ++ list 1 v) := by
      obtain ⟨rest, rfl⟩ := hs.exists_cons
      rintro ⟨t, ht, htext⟩
      rw [list_slash] at ht
      obtain rfl := Option.some.inj ht
      exact absurd htext (by decide)
    rw [extend_append hcom empty ⟨list 1 u, line⟩ read, extend_append next i ⟨list 1 com, line⟩ nothing,
      extend_append next empty ⟨list 1 u, line⟩ read]
  | @body i line _ _ _ _ _ _ _ split read starts signature opens inside balanced =>
    refine ⟨line, ?_⟩
    rw [split]
    exact result_of_passesOver read (hword split starts) (passesOver_body starts signature opens inside balanced) _
  | @statement i line _ _ _ _ _ split read starts named unbracketed inside unended =>
    refine ⟨line, ?_⟩
    rw [split]
    exact result_of_passesOver read (hword split starts)
      (passesOver_statement starts named unbracketed inside unended) _

/-- Without a comment that is ignored, a text declares the same. -/
theorem sameOutcome_of_ignored {u com v : List Char} (hq : '"' ∉ u ++ (com ++ v)) (hs : Comment.Spans com v)
    (hj : Stops u v) (h : Ignored u com v) :
    SameOutcome (parse (String.ofList (u ++ (com ++ v)))) (parse (String.ofList (u ++ v))) := by
  have hu : '"' ∉ u := fun hm => hq (List.mem_append_left _ hm)
  have hc : '"' ∉ com := fun hm => hq (List.mem_append_right _ (List.mem_append_left _ hm))
  have hstops : Stops u (com ++ v) := by
    obtain ⟨rest, rfl⟩ := hs.exists_cons
    intro c _ d hd _
    obtain rfl := Option.some.inj hd
    decide
  obtain ⟨line, hresult⟩ := h.result_eq hs
  -- The text is read as its three parts, and without the comment as two of them, but for lines.
  have hkept : shapes (list 1 u ++ (list 1 com ++ list 1 v)) =
      shapes (Stream.ofSource (String.ofList (u ++ (com ++ v)))).tokens := by
    rw [Stream.ofSource, String.toList_ofList, list_append hstops 1 (not_openEnd hu 1),
      list_append hs.stops _ (not_openEnd hc _)]
    simp only [shapes_append]
    rw [shapes_list com (1 + lineFeeds u), shapes_list v (1 + lineFeeds u + lineFeeds com)]
  have hstripped : shapes (list 1 u ++ list 1 v) = shapes (Stream.ofSource (String.ofList (u ++ v))).tokens := by
    rw [Stream.ofSource, String.toList_ofList, list_append hj 1 (not_openEnd hu 1)]
    rw [shapes_append, shapes_append, shapes_list v (1 + lineFeeds u)]
  let kept : Stream := ⟨list 1 u ++ (list 1 com ++ list 1 v), line⟩
  let stripped : Stream := ⟨list 1 u ++ list 1 v, line⟩
  have h1 : SameOutcome (parse (String.ofList (u ++ (com ++ v)))) (empty.extend kept) :=
    (sameReading_of_shapes empty hkept).2
  have h2 : SameOutcome (empty.extend stripped) (parse (String.ofList (u ++ v))) :=
    (sameReading_of_shapes empty hstripped.symm).2
  exact h1.trans (.of_eq hresult h2)

/-- If every comment is ignored where it stands, the text declares the same with and without its comments. -/
theorem sameOutcome_strip {cs : List Char} (h : Harmless cs) (hq : '"' ∉ cs) :
    SameOutcome (parse (String.ofList cs)) (parse (String.ofList (Comment.strip cs))) := by
  induction h with
  | free h =>
    rw [Comment.strip_of_free h]
    exact (sameReading_of_shapes empty rfl).2
  | @comment u com v first spans joins ignored _ ih =>
    have hq' : '"' ∉ u ++ v := by simp_all
    have hstrip : Comment.strip (u ++ (com ++ v)) = Comment.strip (u ++ v) := by
      rw [Comment.strip_append_of_free first, Comment.strip_append_of_free first, spans.strip_append]
    rw [hstrip]
    exact (sameOutcome_of_ignored hq spans joins ignored).trans (ih hq')

end Interface

/-! ## Flattening texts without directives -/

namespace Preprocessor

/-- A text without directives is flattened with its comments and without them. -/
theorem processText_kept_stripped (dirs : List Path) (fs : FileSystem) (origin : Path) {text : String}
    (hkept : NoDirectives text.toList) (hstripped : NoDirectives (Comment.strip text.toList)) :
    (processText ⟨dirs, false⟩ fs text origin []).result = .ok ⟨String.ofList text.toList, []⟩ ∧
      (processText ⟨dirs, true⟩ fs text origin []).result = .ok ⟨String.ofList (Comment.strip text.toList), []⟩ :=
  ⟨congrArg Logged.result (processText_text ⟨dirs, false⟩ fs hkept origin (List.forall_mem_nil _)),
    congrArg Logged.result (processText_text ⟨dirs, true⟩ fs hstripped origin (List.forall_mem_nil _))⟩

end Preprocessor

namespace Interface

open Declaration

/-- Comments that are ignored where they stand can be kept or not: a text without directives, quotes and macros
declares the same but for lines, or cannot be read for the same reason. -/
theorem harmless_comments_are_ignored (dirs : List Path) (fs : FileSystem) (origin : Path) {text : String}
    (hkept : NoDirectives text.toList) (hstripped : NoDirectives (Comment.strip text.toList)) (hq : '"' ∉ text.toList)
    (h : Harmless text.toList) :
    ∃ kept stripped : Flattened,
      (Preprocessor.processText ⟨dirs, false⟩ fs text origin []).result = .ok kept ∧
      (Preprocessor.processText ⟨dirs, true⟩ fs text origin []).result = .ok stripped ∧
      SameOutcome (parse kept.text) (parse stripped.text) := by
  obtain ⟨h1, h2⟩ := Preprocessor.processText_kept_stripped dirs fs origin hkept hstripped
  exact ⟨_, _, h1, h2, sameOutcome_strip h hq⟩

/-- A comment before all declarations, one in the statement of a variable, and one in a body. -/
def remarked : String := "// Lit\nfloat4 k = /* one */ 1;\nvoid f() \x7b k /* \x7b\x7d */ \x7d\n"

theorem ignored_lit :
    Ignored [] "// Lit".toList "\nfloat4 k = /* one */ 1;\nvoid f() \x7b k /* \x7b\x7d */ \x7d\n".toList := by
  have read : (empty.extend ⟨list 1 [], 0⟩).result = .ok empty := by decide +kernel
  have nothing : empty.extend ⟨list 1 "// Lit".toList, 0⟩ = ⟨.ok empty, []⟩ := extend_plain empty 0 (by decide +kernel)
  exact .between read (congrArg Logged.result nothing) (by decide +kernel)

theorem ignored_one :
    Ignored "\nfloat4 k = ".toList "/* one */".toList " 1;\nvoid f() \x7b k /* \x7b\x7d */ \x7d\n".toList := by
  have split : list 1 "\nfloat4 k = ".toList =
      [] ++ ⟨.identifier, "float4", 2⟩ :: ⟨.identifier, "k", 2⟩ :: ⟨.equals, "=", 2⟩ :: [] := by decide +kernel
  have read : (empty.extend ⟨[], 0⟩).result = .ok empty := by decide +kernel
  exact .statement split read (by decide) rfl (by decide) (by decide) (by decide +kernel)

theorem ignored_braces :
    Ignored "\nfloat4 k =  1;\nvoid f() \x7b k ".toList "/* \x7b\x7d */".toList " \x7d\n".toList := by
  let before := list 1 "\nfloat4 k =  1;".toList
  let sig : List Token := [⟨.identifier, "f", 3⟩, ⟨.bracketOpen, "(", 3⟩, ⟨.bracketClose, ")", 3⟩]
  let opening : Token := ⟨.blockOpen, "\x7b", 3⟩
  let inner : List Token := [⟨.identifier, "k", 3⟩]
  have split : list 1 "\nfloat4 k =  1;\nvoid f() \x7b k ".toList =
      before ++ ⟨.identifier, "void", 3⟩ :: (sig ++ opening :: inner) := by decide +kernel
  have read : (empty.extend ⟨before, 0⟩).result = .ok empty := by decide +kernel
  have signature : signatureAfter empty.types ⟨.identifier, "void", 3⟩ ⟨sig ++ opening :: inner, 0⟩ =
      .ok (some ⟨"f", none, none, [], 3⟩, ⟨opening :: inner, 0⟩) := by decide +kernel
  exact .body split read (by decide) signature rfl rfl (by decide +kernel)

theorem harmless_remarked : Harmless remarked.toList := by
  have h1 : remarked.toList = [] ++ ("// Lit".toList ++
      "\nfloat4 k = /* one */ 1;\nvoid f() \x7b k /* \x7b\x7d */ \x7d\n".toList) := by decide +kernel
  have h2 : [] ++ "\nfloat4 k = /* one */ 1;\nvoid f() \x7b k /* \x7b\x7d */ \x7d\n".toList =
      "\nfloat4 k = ".toList ++ ("/* one */".toList ++ " 1;\nvoid f() \x7b k /* \x7b\x7d */ \x7d\n".toList) := by
    decide +kernel
  have h3 : "\nfloat4 k = ".toList ++ " 1;\nvoid f() \x7b k /* \x7b\x7d */ \x7d\n".toList =
      "\nfloat4 k =  1;\nvoid f() \x7b k ".toList ++ ("/* \x7b\x7d */".toList ++ " \x7d\n".toList) := by
    decide +kernel
  have hhead : "\nfloat4 k = /* one */ 1;\nvoid f() \x7b k /* \x7b\x7d */ \x7d\n".toList.head? = some '\n' := by
    decide +kernel
  have hlit : Comment.Spans "// Lit".toList "\nfloat4 k = /* one */ 1;\nvoid f() \x7b k /* \x7b\x7d */ \x7d\n".toList :=
    .line (by decide) fun c hc => (Option.some.inj (hhead.symm.trans hc)).symm
  have hone : Comment.Spans "/* one */".toList " 1;\nvoid f() \x7b k /* \x7b\x7d */ \x7d\n".toList :=
    @Comment.Spans.block " one ".toList (by decide) _
  have hbraces : Comment.Spans "/* \x7b\x7d */".toList " \x7d\n".toList :=
    @Comment.Spans.block " \x7b\x7d ".toList (by decide) _
  rw [h1]
  refine .comment ⟨by decide, by decide⟩ hlit (by decide +kernel) ignored_lit ?_
  rw [h2]
  refine .comment ⟨by decide, by decide⟩ hone (by decide +kernel) ignored_one ?_
  rw [h3]
  refine .comment ⟨by decide, by decide⟩ hbraces (by decide +kernel) ignored_braces ?_
  exact .free ⟨by decide, by decide⟩

theorem harmless_comments_are_ignored_remarked :
    (NoDirectives remarked.toList ∧ NoDirectives (Comment.strip remarked.toList) ∧ '"' ∉ remarked.toList ∧
      Harmless remarked.toList) ∧
    ∃ kept stripped : Flattened,
      (Preprocessor.processText ⟨[], false⟩ {} remarked ⟨"main.hlsl"⟩ []).result = .ok kept ∧
      (Preprocessor.processText ⟨[], true⟩ {} remarked ⟨"main.hlsl"⟩ []).result = .ok stripped ∧
      SameOutcome (parse kept.text) (parse stripped.text) := by
  have hkept : NoDirectives remarked.toList := by decide +kernel
  have hstripped : NoDirectives (Comment.strip remarked.toList) := by decide +kernel
  have hq : '"' ∉ remarked.toList := by decide +kernel
  exact ⟨⟨hkept, hstripped, hq, harmless_remarked⟩,
    harmless_comments_are_ignored [] {} ⟨"main.hlsl"⟩ hkept hstripped hq harmless_remarked⟩

/-- A text without directives, quotes and macros declares something else with its comments than without them, lines
apart, or can be read in one of these ways only. -/
def ReadsComments (text : String) : Prop :=
  (NoDirectives text.toList ∧ NoDirectives (Comment.strip text.toList) ∧ '"' ∉ text.toList) ∧
    ∃ kept stripped : Flattened,
      (Preprocessor.processText ⟨[], false⟩ {} text ⟨"main.hlsl"⟩ []).result = .ok kept ∧
      (Preprocessor.processText ⟨[], true⟩ {} text ⟨"main.hlsl"⟩ []).result = .ok stripped ∧
      (parse kept.text).result.toOption.map unlined ≠ (parse stripped.text).result.toOption.map unlined

theorem readsComments_of_ne {text : String}
    (h : NoDirectives text.toList ∧ NoDirectives (Comment.strip text.toList) ∧ '"' ∉ text.toList)
    (hne : (parse (String.ofList text.toList)).result.toOption.map unlined ≠
      (parse (String.ofList (Comment.strip text.toList))).result.toOption.map unlined) : ReadsComments text := by
  obtain ⟨h1, h2⟩ := Preprocessor.processText_kept_stripped [] {} ⟨"main.hlsl"⟩ h.1 h.2.1
  exact ⟨h, _, _, h1, h2, hne⟩

/-- A comment that is kept can declare a function, and it can make a text unreadable that can be read without it. -/
theorem kept_comments_are_read :
    ReadsComments "/* float4 f(); */\n" ∧ ReadsComments "// struct\nfloat4 f;\n" :=
  ⟨readsComments_of_ne (by decide +kernel) (by decide +kernel),
    readsComments_of_ne (by decide +kernel) (by decide +kernel)⟩

end Interface

end ShaderBuild
