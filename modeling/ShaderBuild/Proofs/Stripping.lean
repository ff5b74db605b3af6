import ShaderBuild.Proofs.Comments
/-!
# Taking comments away

Every text is free of comments or has a first one (`exists_first`), which runs to the end of its line, to the first
`*/` in it, or to the end of the text (`Spans`). What comes before it is kept, the comment is taken away, and what
follows is treated in the same way. This is all that happens to a text (`comments_are_taken_away`): nothing else is
taken away, and no new comment comes up where one was.
-/

namespace ShaderBuild.Comment

/-! ## Comments in a text -/

/-- The first text is a comment, if the second one follows it. -/
inductive Spans : List Char → List Char → Prop
  | line {body after : List Char} (hb : '\n' ∉ body) (ha : ∀ c ∈ after.head?, c = '\n') :
    Spans ('/' :: '/' :: body) after
  | block {body : List Char} (hb : ¬ ['*', '/'] <:+: body) (after : List Char) :
    Spans ('/' :: '*' :: (body ++ ['*', '/'])) after
  | unclosed {body : List Char} (hb : ¬ ['*', '/'] <:+: body) : Spans ('/' :: '*' :: body) []

theorem stripFrom_line {body after : List Char} (hb : '\n' ∉ body) (ha : ∀ c ∈ after.head?, c = '\n') :
    stripFrom .line (body ++ after) = strip after := by
  induction body with
  | nil =>
    cases after with
    | nil => rfl
    | cons c after =>
      obtain rfl : c = '\n' := ha c rfl
      rw [List.nil_append, stripFrom, strip, stripFrom_code_cons (by decide)]
  | cons c body ih =>
    rw [List.mem_cons, not_or] at hb
    rw [List.cons_append, stripFrom]
    · exact ih hb.2
    · exact fun h => hb.1 h.symm

theorem stripFrom_block {body : List Char} (hb : ¬ ['*', '/'] <:+: body) (after : List Char) :
    stripFrom .block (body ++ '*' :: '/' :: after) = strip after ∧ stripFrom .block body = [] := by
  induction body with
  | nil => exact ⟨rfl, rfl⟩
  | cons c body ih =>
    obtain ⟨h1, h2⟩ := ih fun h => hb (h.trans (List.suffix_cons c body).isInfix)
    have hne : ∀ rest, c = '*' → body ≠ '/' :: rest := by
      rintro rest rfl rfl
      exact hb ⟨[], rest, rfl⟩
    constructor
    · rw [List.cons_append, stripFrom]
      · exact h1
      · intro rest hc hr
        cases body with
        | nil => cases hr
        | cons d body => exact hne body hc (by rw [(List.cons.inj hr).1])
    · rw [stripFrom]
      · exact h2
      · exact hne

theorem Spans.strip_append {com after : List Char} (h : Spans com after) : strip (com ++ after) = strip after := by
  cases h with
  | line hb ha => exact stripFrom_line hb ha
  | @block body hb =>
    rw [List.cons_append, List.cons_append, List.append_assoc]
    exact (stripFrom_block hb after).1
  | @unclosed body hb =>
    rw [List.append_nil]
    exact (stripFrom_block hb []).2

/-- What comes before the first comment is kept. -/
theorem strip_append_of_free {u : List Char} (h : Free (u ++ ['/'])) (rest : List Char) :
    strip (u ++ rest) = u ++ strip rest := by
  induction u with
  | nil => rfl
  | cons c u ih =>
    obtain ⟨htail, hhead⟩ := free_cons.1 h
    have hne : ∀ d more, c = '/' → u ++ rest = d :: more → d ≠ '/' ∧ d ≠ '*' := by
      intro d more hc hr
      cases u with
      | nil => exact absurd rfl (hhead hc '/' rfl).1
      | cons e u =>
        obtain rfl : e = d := (List.cons.inj hr).1
        exact hhead hc e rfl
    rw [List.cons_append, List.cons_append, strip, stripFrom, ← strip, ih htail]
    · rintro more hc hr
      exact (hne '*' more hc hr).2 rfl
    · rintro more hc hr
      exact (hne '/' more hc hr).1 rfl

/-- A comment begins with two slashes, or a slash and a star. -/
theorem Spans.exists_marks {com after : List Char} (h : Spans com after) :
    ∃ d rest, com = '/' :: d :: rest ∧ (d = '/' ∨ d = '*') := by
  cases h with
  | line => exact ⟨'/', _, rfl, .inl rfl⟩
  | block => exact ⟨'*', _, rfl, .inr rfl⟩
  | unclosed => exact ⟨'*', _, rfl, .inr rfl⟩

theorem Spans.exists_cons {com after : List Char} (h : Spans com after) : ∃ rest, com = '/' :: rest := by
  obtain ⟨d, rest, rfl, -⟩ := h.exists_marks
  exact ⟨d :: rest, rfl⟩

/-! ## The first comment -/

section First
variable {cs : List Char}

/-- A slash after a free text begins a comment only after another slash. -/
theorem free_concat_slash : Free (cs ++ ['/']) ↔ Free cs ∧ cs.getLast? ≠ some '/' := by
  induction cs with
  | nil => simp [free_cons, free_nil]
  | cons c cs ih =>
    rw [List.cons_append, free_cons, ih, free_cons (c := c)]
    cases cs with
    | nil => simp [free_nil]
    | cons d cs => simp [and_right_comm]

/-- A block comment ends with the first `*/` after its beginning, or not at all. -/
theorem exists_end (cs : List Char) :
    ¬ ['*', '/'] <:+: cs ∨ ∃ body after, cs = body ++ '*' :: '/' :: after ∧ ¬ ['*', '/'] <:+: body := by
  induction cs with
  | nil => exact .inl (by simp)
  | cons c cs ih =>
    by_cases hend : ['*', '/'] <+: c :: cs
    · obtain ⟨after, hafter⟩ := hend
      exact .inr ⟨[], after, hafter.symm, by simp⟩
    · rcases ih with h | ⟨body, after, rfl, h⟩
      · exact .inl fun hi => (List.infix_cons_iff.1 hi).elim hend h
      · refine .inr ⟨c :: body, after, rfl, fun hi => ?_⟩
        rcases List.infix_cons_iff.1 hi with hp | hi
        · exact hend (hp.trans (List.prefix_append (c :: body) _))
        · exact h hi

/-- Where two slashes, or a slash and a star, come next, a comment begins. -/
theorem exists_spans {d : Char} (hd : d = '/' ∨ d = '*') (cs : List Char) :
    ∃ com after, '/' :: d :: cs = com ++ after ∧ Spans com after := by
  rcases hd with rfl | rfl
  · refine ⟨'/' :: '/' :: cs.takeWhile (· != '\n'), cs.dropWhile (· != '\n'), ?_, .line (fun hm => ?_) fun c hc => ?_⟩
    · rw [List.cons_append, List.cons_append, List.takeWhile_append_dropWhile]
    · exact absurd (List.all_eq_true.1 List.all_takeWhile _ hm) (by decide)
    · have hstop := List.head?_dropWhile_not (· != '\n') cs
      rw [hc] at hstop
      simpa using hstop
  · rcases exists_end cs with h | ⟨body, after, rfl, h⟩
    · exact ⟨'/' :: '*' :: cs, [], (List.append_nil _).symm, .unclosed h⟩
    · exact ⟨'/' :: '*' :: (body ++ ['*', '/']), after, by simp, .block h after⟩

/-- A text that is not free of comments has a first one. -/
theorem exists_first (cs : List Char) :
    Free cs ∨ ∃ u com v, cs = u ++ (com ++ v) ∧ Free (u ++ ['/']) ∧ Spans com v := by
  induction cs with
  | nil => exact .inl free_nil
  | cons c cs ih =>
    by_cases hbegin : c = '/' ∧ ∃ d ∈ cs.head?, d = '/' ∨ d = '*'
    · obtain ⟨rfl, d, hd, hdc⟩ := hbegin
      obtain ⟨rest, rfl⟩ := List.head?_eq_some_iff.1 hd
      obtain ⟨com, after, hsplit, hspans⟩ := exists_spans hdc rest
      exact .inr ⟨[], com, after, hsplit, free_concat_slash.2 ⟨free_nil, by simp⟩, hspans⟩
    · have hgoes : c = '/' → ∀ d ∈ cs.head?, d ≠ '/' ∧ d ≠ '*' := by
        intro hc d hd
        exact not_or.1 fun h => hbegin ⟨hc, d, hd, h⟩
      rcases ih with h | ⟨u, com, v, rfl, hfree, hspans⟩
      · exact .inl (free_cons.2 ⟨h, hgoes⟩)
      · refine .inr ⟨c :: u, com, v, rfl, free_cons.2 ⟨hfree, fun hc d hd => hgoes hc d ?_⟩, hspans⟩
        -- if nothing is before the comment, what comes next is its slash
        cases u with
        | nil =>
          obtain ⟨rest, rfl⟩ := hspans.exists_cons
          exact hd
        | cons e u => exact hd

end First

/-! ## What is left -/

/-- Nothing is put in and nothing changes its place. -/
theorem sublist_stripFrom (place : Place) (cs : List Char) : (stripFrom place cs).Sublist cs := by
  fun_induction stripFrom place cs with
  | case1 => exact .slnil
  | case2 rest ih => exact (ih.cons _).cons _
  | case3 rest ih => exact (ih.cons _).cons _
  | case4 c rest _ _ ih => exact ih.cons_cons c
  | case5 rest ih => exact (ih.cons _).cons _
  | case6 c rest _ ih => exact ih.cons c
  | case7 rest ih => exact ih.cons_cons _
  | case8 c rest _ ih => exact ih.cons c

theorem strip_eq_self_iff {cs : List Char} : strip cs = cs ↔ Free cs :=
  ⟨fun h => h ▸ free_strip cs, strip_of_free⟩

/-- What stripping does. What is left of a text has no comments, so that stripping it again changes nothing, and it is
the text exactly if that has none. It is in the text, in this order. The first comment is taken away from between what
comes before it and what is left of what follows it, and every text that is not free has a first comment. -/
theorem comments_are_taken_away :
    (∀ cs, Free (strip cs)) ∧ (∀ cs, strip (strip cs) = strip cs) ∧ (∀ cs, strip cs = cs ↔ Free cs) ∧
      (∀ cs, (strip cs).Sublist cs) ∧
      (∀ {u com v}, Free u → u.getLast? ≠ some '/' → Spans com v → strip (u ++ (com ++ v)) = u ++ strip v) ∧
      ∀ cs, Free cs ∨ ∃ u com v, cs = u ++ (com ++ v) ∧ (Free u ∧ u.getLast? ≠ some '/') ∧ Spans com v := by
  refine ⟨free_strip, fun cs => strip_of_free (free_strip cs), fun _ => strip_eq_self_iff,
    fun cs => sublist_stripFrom .code cs, fun hu hlast hcom => ?_, fun cs => ?_⟩
  · rw [strip_append_of_free (free_concat_slash.2 ⟨hu, hlast⟩), hcom.strip_append]
  · refine (exists_first cs).imp_right fun ⟨u, com, v, hcs, hu, hcom⟩ => ?_
    exact ⟨u, com, v, hcs, free_concat_slash.1 hu, hcom⟩

/-- A comment with marks of other comments in it, between a text with a mark of its end and one that goes on with a
slash and has a comment of its own. -/
theorem comments_are_taken_away_marked :
    let u := "*/ a".toList
    let com := '/' :: '*' :: ("/ // *".toList ++ ['*', '/'])
    let v := "/\n/b//c".toList
    (Free u ∧ u.getLast? ≠ some '/' ∧ Spans com v) ∧ strip (u ++ (com ++ v)) = u ++ strip v := by
  intro u com v
  have hu : Free u := by decide +kernel
  have hlast : u.getLast? ≠ some '/' := by decide +kernel
  have hcom : Spans com v := .block (by decide +kernel) v
  obtain ⟨-, -, -, -, htaken, -⟩ := comments_are_taken_away
  exact ⟨⟨hu, hlast, hcom⟩, htaken hu hlast hcom⟩

example : strip "*/ a/*/ // **//\n/b//c".toList = "*/ a/\n/b".toList := by decide +kernel

end ShaderBuild.Comment
