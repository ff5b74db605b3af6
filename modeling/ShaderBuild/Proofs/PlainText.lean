import ShaderBuild.Proofs.Acyclic
import ShaderBuild.Proofs.Inlining
import ShaderBuild.Proofs.Mentions
import ShaderBuild.Proofs.Positions
/-!
# Texts without directives

A text without directives that mentions no macro is flattened to itself, or to what is left of it without comments
(`plain_text_passes_through`). Each line is put out as it is, since none of its words names a macro
(`expand_of_unmentioned`), and the lines with their endings are all of the text.
-/

namespace ShaderBuild

open Text

/-- No line of the text is a directive. -/
def NoDirectives (cs : List Char) : Prop := ∀ l ∈ Line.list cs, Directive.ofLine? l.body = none

instance (cs : List Char) : Decidable (NoDirectives cs) :=
  inferInstanceAs (Decidable (∀ l ∈ Line.list cs, Directive.ofLine? l.body = none))

/-- Somewhere in the text a line begins, and the first character from there that is not blank is a number sign. -/
def HasDirective (cs : List Char) : Prop := ∃ u v, cs = u ++ v ∧ Closed u ∧ (trimStart v).head? = some '#'

instance (cs : List Char) : Decidable (HasDirective cs) :=
  decidable_of_iff (∃ k < cs.length + 1, Closed (cs.take k) ∧ (trimStart (cs.drop k)).head? = some '#') <| by
    constructor
    · rintro ⟨k, -, hclosed, hsign⟩
      exact ⟨cs.take k, cs.drop k, (List.take_append_drop k cs).symm, hclosed, hsign⟩
    · rintro ⟨u, v, rfl, hclosed, hsign⟩
      have hlt : u.length < (u ++ v).length + 1 := by
        rw [List.length_append]
        omega
      exact ⟨u.length, hlt, by rwa [List.take_left], by rwa [List.drop_left]⟩

section Directives
variable {cs : List Char}

theorem HasDirective.of_body {body : List Char} {d : Directive} (h : Directive.ofLine? body = some d)
    (after : List Char) : HasDirective (body ++ after) := by
  obtain ⟨blank, rest, rfl, hblank⟩ := Directive.exists_blank h
  refine ⟨[], blank ++ '#' :: rest ++ after, rfl, closed_nil, ?_⟩
  have hsign : isBlank '#' = false := by decide
  rw [trimStart, List.append_assoc, List.dropWhile_append_of_pos (List.all_eq_true.1 hblank), List.cons_append,
    List.dropWhile_cons_of_neg (by simp [hsign]), List.head?_cons]

/-- Lines that are directives begin with a number sign. -/
theorem noDirectives_of_not_hasDirective (h : ¬ HasDirective cs) : NoDirectives cs := by
  induction cs using Line.by_lines with
  | last cs hline =>
    intro l hl
    refine Option.eq_none_iff_forall_ne_some.2 fun d hd => h ?_
    by_cases hcs : cs = []
    · rw [hcs, Line.list_nil] at hl
      cases hl
    · rw [Line.list_of_not_mem hline hcs, List.mem_singleton] at hl
      subst hl
      simpa using HasDirective.of_body hd []
  | first body rest hline ih =>
    rw [NoDirectives, Line.list_cons hline, List.forall_mem_cons, Directive.ofLine?_terminated]
    refine ⟨Option.eq_none_iff_forall_ne_some.2 fun d hd => h (.of_body hd _), ih ?_⟩
    rintro ⟨u, v, rfl, hclosed, hsign⟩
    have hfirst : Closed (body ++ ['\n']) := closed_iff.2 (.inr ⟨body, rfl⟩)
    exact h ⟨body ++ ['\n'] ++ u, v, by simp, hfirst.append hclosed, hsign⟩

end Directives

/-! ## Texts without macros -/

namespace MacroTable

theorem get?_of_foldl {macros : List Macro} {t : MacroTable} {name value : String}
    (h : (macros.foldl (fun t m => t.insert m.name m.value) t).get? name = some value) :
    t.get? name = some value ∨ ∃ m ∈ macros, m.name = name ∧ m.value = value := by
  induction macros generalizing t with
  | nil => exact .inl h
  | cons m macros ih =>
    rcases ih h with h | ⟨m', hm', h'⟩
    · rw [get?_insert] at h
      split at h
      · next hname => exact .inr ⟨m, List.mem_cons_self, hname.symm, Option.some.inj h⟩
      · exact .inl h
    · exact .inr ⟨m', List.mem_cons_of_mem _ hm', h'⟩

/-- Every value in a table is that of a definition. -/
theorem exists_mem_of_get? {macros : List Macro} {name value : String} (h : (ofList macros).get? name = some value) :
    ∃ m ∈ macros, m.name = name ∧ m.value = value := by
  refine (get?_of_foldl h).resolve_left ?_
  rw [get?_empty]
  exact Option.some_ne_none value ∘ Eq.symm

/-- A text that mentions no macro is its own expansion. -/
theorem expand_of_unmentioned {t : MacroTable} {cs : List Char}
    (h : ∀ name value, t.get? name = some value → ¬ Mentions name cs) : t.expand cs = cs := by
  refine expand_eq_self fun w hw => Bool.eq_false_iff.2 fun hcontains => ?_
  obtain ⟨u, v, rfl, -⟩ := mem_words_iff.1 hw
  obtain ⟨value, hvalue⟩ := Option.isSome_iff_exists.1 hcontains
  exact ne_of_infix (h _ value hvalue) ⟨u, v, List.append_assoc u w v⟩ rfl

end MacroTable

/-! ## Flattening -/

namespace Preprocessor

/-- Lines that are no directives and mention no macro are copied. -/
theorem run_text (c : Preprocessor) (fs : FileSystem) (file : Path) (stack : List Location) (number : Nat)
    {lines : List Line} (h : ∀ l ∈ lines, Directive.ofLine? l.body = none) {s : State}
    (hm : ∀ l ∈ lines, s.macros.expand l.body = l.body) :
    c.run fs file stack number .root lines s =
      .ok { s with output := s.output ++ String.ofList (lines.flatMap Line.text) } := by
  induction lines generalizing number s with
  | nil =>
    have hclose : s.closeFile file .root = s := if_neg (by decide)
    have hnil : s.output ++ String.ofList [] = s.output := String.append_empty
    rw [run, hclose, List.flatMap_nil, hnil]
  | cons line lines ih =>
    obtain ⟨hline, hlines⟩ := List.forall_mem_cons.1 h
    obtain ⟨hcopy, hcopies⟩ := List.forall_mem_cons.1 hm
    have hact : act file number .root s line = .proceed .root (s.write line) := by
      unfold act
      rw [hline]
      rfl
    have hwrite : s.write line = { s with output := s.output ++ String.ofList line.text } := by
      rw [State.write, hcopy]
      rfl
    have hcopies' : ∀ l ∈ lines, (s.write line).macros.expand l.body = l.body := hcopies
    rw [run_proceed c fs file stack hact, ih _ hlines hcopies', hwrite, List.flatMap_cons, String.ofList_append,
      ← String.append_assoc]

/-- A text without directives that mentions no macro is flattened to itself, or to what is left of it without
comments. -/
theorem processText_text (c : Preprocessor) (fs : FileSystem) {text : String} (h : NoDirectives (c.codeOf text))
    (origin : Path) {macros : List Macro} (hm : ∀ m ∈ macros, ¬ Mentions m.name (c.codeOf text)) :
    c.processText fs text origin macros = ⟨.ok ⟨String.ofList (c.codeOf text), []⟩, []⟩ := by
  let start : State := { macros := .ofList macros }
  have hlines : (c.linesOf text).flatMap Line.text = c.codeOf text := Line.text_list _
  have hcopies : ∀ l ∈ c.linesOf text, start.macros.expand l.body = l.body := by
    intro l hl
    refine MacroTable.expand_of_unmentioned fun name value hvalue hmention => ?_
    obtain ⟨m, hmem, rfl, -⟩ := MacroTable.exists_mem_of_get? hvalue
    exact hm m hmem (hmention.of_infix (Line.infix_of_mem hl))
  have hrun : c.run fs origin (anchor? fs origin).toList 1 .root (c.linesOf text) start =
      .ok { start with output := start.output ++ String.ofList ((c.linesOf text).flatMap Line.text) } :=
    c.run_text fs origin (anchor? fs origin).toList 1 h hcopies
  have hempty : start.output ++ String.ofList (c.codeOf text) = String.ofList (c.codeOf text) := String.empty_append
  unfold processText
  dsimp only
  rw [hrun, hlines, hempty]
  rfl

/-- If no line of a text begins with a number sign, and no name of a macro is in it, not even as a part of a word, then
the text passes through as it is, without its comments or with them. No file is read, and nothing is reported. -/
theorem plain_text_passes_through (dirs : List Path) (fs : FileSystem) (origin : Path) {text : String}
    {macros : List Macro} :
    (¬ HasDirective (Comment.strip text.toList) → (∀ m ∈ macros, ¬ Mentions m.name (Comment.strip text.toList)) →
      processText ⟨dirs, true⟩ fs text origin macros = ⟨.ok ⟨String.ofList (Comment.strip text.toList), []⟩, []⟩) ∧
    (¬ HasDirective text.toList → (∀ m ∈ macros, ¬ Mentions m.name text.toList) →
      processText ⟨dirs, false⟩ fs text origin macros = ⟨.ok ⟨text, []⟩, []⟩) := by
  constructor
  · intro h hm
    exact processText_text ⟨dirs, true⟩ fs (noDirectives_of_not_hasDirective h) origin hm
  · intro h hm
    have hkept := processText_text ⟨dirs, false⟩ fs (noDirectives_of_not_hasDirective h) origin hm
    rwa [codeOf, if_neg Bool.false_ne_true, String.ofList_toList] at hkept

/-- Lines with all endings, with number signs in them that begin no line, and macros that are named in comments only
or not at all. -/
theorem plain_text_passes_through_mixed :
    let text := "a\r\n x # 1 \rb /* #\n A */ é\n// B #\n\u2003c"
    let kept := "a // #\n\r\n\r é /* \n */ #"
    let macros : List Macro := [⟨"A", "B"⟩, ⟨"B", "A"⟩]
    (¬ HasDirective (Comment.strip text.toList) ∧ (∀ m ∈ macros, ¬ Mentions m.name (Comment.strip text.toList)) ∧
      processText ⟨[], true⟩ {} text ⟨"main.hlsl"⟩ macros =
        ⟨.ok ⟨String.ofList (Comment.strip text.toList), []⟩, []⟩) ∧
    (¬ HasDirective kept.toList ∧ (∀ m ∈ macros, ¬ Mentions m.name kept.toList) ∧
      processText ⟨[], false⟩ {} kept ⟨"main.hlsl"⟩ macros = ⟨.ok ⟨kept, []⟩, []⟩) := by
  intro text kept macros
  have htext : ¬ HasDirective (Comment.strip text.toList) := by decide +kernel
  have hmacros : ∀ m ∈ macros, ¬ Mentions m.name (Comment.strip text.toList) := by decide +kernel
  have hkept : ¬ HasDirective kept.toList := by decide +kernel
  have hmacros' : ∀ m ∈ macros, ¬ Mentions m.name kept.toList := by decide +kernel
  exact ⟨⟨htext, hmacros, (plain_text_passes_through [] {} ⟨"main.hlsl"⟩).1 htext hmacros⟩,
    ⟨hkept, hmacros', (plain_text_passes_through [] {} ⟨"main.hlsl"⟩).2 hkept hmacros'⟩⟩

end Preprocessor

end ShaderBuild
