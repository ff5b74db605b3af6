import ShaderBuild.Proofs.Blocks
import ShaderBuild.Proofs.Branches
/-!
# An include is a paste

A file is run in its own name, on conditionals of its own. If it closes the conditionals that it opens, and
includes nothing, its lines do the same where they are pasted in the place of the include (`run_pasted`): the
effect of a line, on macros and output, depends on nothing else (`same_act`). What follows an include starts
on a new line anyway, so what is pasted must end its last line.
-/

namespace ShaderBuild

/-- An error without the file and the number of the line that it is about. -/
def Error.unplaced : Error → Error
  | .directive _ _ fault => .directive ⟨""⟩ 0 fault
  | e => e

namespace Preprocessor

open ConditionStack (above)

/-! ## Effects -/

/-- What later lines depend on, and the output. -/
def State.effect (s : State) : MacroTable × String := (s.macros, s.output)

/-- Two actions with the same effect. -/
inductive Action.Same : Action → Action → Prop
  | proceed (conditions : ConditionStack) {s s' : State} (h : s.effect = s'.effect) :
    Same (.proceed conditions s) (.proceed conditions s')
  | enter (reference : Reference) : Same (.enter reference) (.enter reference)
  | fail (fault : DirectiveFault) : Same (.fail fault) (.fail fault)

/-- How a run ends: in an effect, or in an error. -/
def outcome : Except Failure State → Except Error (MacroTable × String)
  | .ok s => .ok s.effect
  | .error f => .error f.error.unplaced

section Effects
variable {s s' : State}

theorem effect_depend (s : State) (place : Location) : (s.depend place).effect = s.effect := by
  unfold State.depend
  split <;> rfl

theorem effect_closeFile (s : State) (file : Path) (conditions : ConditionStack) :
    (s.closeFile file conditions).effect = s.effect := by
  unfold State.closeFile
  split <;> rfl

theorem effect_endLine (h : s.effect = s'.effect) : s.endLine.effect = s'.endLine.effect := by
  obtain ⟨hm, ho⟩ := Prod.mk.inj h
  have hl : s.isInLine = s'.isInLine := by rw [State.isInLine, State.isInLine, ho]
  unfold State.endLine
  rw [hl]
  split
  · rw [State.effect, State.effect, hm, ho]
  · exact h

theorem endLine_of_closed (h : Closed s.output.toList) : s.endLine = s :=
  if_neg fun hs => isInLine_iff.1 hs h

/-- A line has the same effect in all files, whatever has been read or reported. -/
theorem same_act (h : s.effect = s'.effect) (file file' : Path) (number number' : Nat) (conditions : ConditionStack)
    (line : Line) : (act file number conditions s line).Same (act file' number' conditions s' line) := by
  obtain ⟨hm, ho⟩ := Prod.mk.inj h
  unfold act
  cases Directive.ofLine? line.body with
  | none =>
    refine .proceed _ ?_
    split
    · simp only [State.effect, State.write, hm, ho]
    · exact h
  | some d =>
    cases d with
    | includeFile reference =>
      simp only [follow]
      split
      · exact .enter reference
      · exact .proceed _ h
    | define name value =>
      refine .proceed _ ?_
      split
      · simp only [State.effect, hm, ho]
      · exact h
    | undefine name =>
      refine .proceed _ ?_
      split
      · simp only [State.effect, hm, ho]
      · exact h
    | openIf defined name =>
      simp only [follow, hm]
      exact .proceed _ h
    | otherwise =>
      simp only [follow]
      split
      · exact .proceed _ h
      · exact .fail _
    | close =>
      simp only [follow]
      split
      · exact .proceed _ h
      · exact .fail _
    | invalid fault opensConditional =>
      simp only [follow]
      split
      · exact .fail fault
      · exact .proceed _ h
    | unknown text =>
      refine .proceed _ ?_
      split <;> exact h

end Effects

section Runs
variable {c : Preprocessor} {fs : FileSystem}

theorem Action.Same.related {a a' : Action} (h : a.Same a') : a.Related (fun s s' => s.effect = s'.effect) a' := by
  cases h with
  | proceed conditions h => exact .proceed conditions h
  | enter reference => exact .enter reference
  | fail fault => exact .fail fault

/-- All lines keep states alike that have the same effect. -/
theorem matched_effect :
    Matched (fun _ => True) (fun _ _ => True) (fun f f' => f.error.unplaced = f'.error.unplaced)
      fun s s' => s.effect = s'.effect where
  first := trivial
  next _ := trivial
  act h file n n' _ conditions line _ := (same_act h file file n n' conditions line).related
  depend h place := by rw [effect_depend, effect_depend, h]
  endLine h := effect_endLine h
  closeFile h file conditions := by rw [effect_closeFile, effect_closeFile, h]
  fault _ _ _ _ _ _ := rfl
  error _ _ := rfl

/-- Lines have the same effect wherever they stand in a file, whatever has been read or reported. -/
theorem outcome_run (file : Path) (stack : List Location) (number : Nat) (conditions : ConditionStack)
    (lines : List Line) (s : State) : ∀ (number' : Nat) (s' : State), s.effect = s'.effect →
      outcome (c.run fs file stack number conditions lines s) =
        outcome (c.run fs file stack number' conditions lines s') := by
  intro number' s' h
  have hrun : EndAlike (fun f f' => f.error.unplaced = f'.error.unplaced) (fun s s' => s.effect = s'.effect)
      (c.run fs file stack number conditions lines s) (c.run fs file stack number' conditions lines s') :=
    matched_effect.run (fun _ _ _ _ _ => trivial) file stack number conditions lines s number' s' trivial h
      fun _ _ => trivial
  generalize c.run fs file stack number conditions lines s = r at hrun ⊢
  generalize c.run fs file stack number' conditions lines s' = r' at hrun ⊢
  cases hrun with
  | ok ht => exact congrArg Except.ok ht
  | error hf => exact congrArg Except.error hf

variable (c fs) in
/-- Lines that have endings either fail, whatever follows them, or come to what follows on a closed output. -/
theorem run_append (file : Path) (stack : List Location) {lines : List Line} (hl : ∀ l ∈ lines, l.Ends)
    (number : Nat) (conditions : ConditionStack) {s : State} (hs : Closed s.output.toList) :
    (∃ f, ∀ rest, c.run fs file stack number conditions (lines ++ rest) s = .error f) ∨
      ∃ number' conditions' t, Closed t.output.toList ∧ ∀ rest,
        c.run fs file stack number conditions (lines ++ rest) s = c.run fs file stack number' conditions' rest t := by
  induction lines generalizing number conditions s with
  | nil => exact .inr ⟨number, conditions, s, hs, fun _ => rfl⟩
  | cons line lines ih =>
    obtain ⟨hline, hlines⟩ := List.forall_mem_cons.1 hl
    simp only [List.cons_append, run_cons]
    cases ha : act file number conditions s line with
    | fail fault => exact .inl ⟨_, fun _ => rfl⟩
    | proceed conditions' t =>
      have ht : Closed t.output.toList := by
        rw [output_of_act ha]
        exact hs.append (closed_lineBlock _ _ hline)
      exact ih hlines (number + 1) conditions' ht
    | enter reference =>
      dsimp only
      cases c.enter fs file stack reference with
      | error e => exact .inl ⟨_, fun _ => rfl⟩
      | ok found =>
        obtain ⟨place, text⟩ := found
        dsimp only
        cases c.run fs place.path (place :: stack) 1 .root (c.linesOf text) (s.depend place) with
        | error f => exact .inl ⟨f, fun _ => rfl⟩
        | ok t => exact ih hlines (number + 1) conditions (closed_endLine t)

/-! ## Pasting -/

/-- The lines have endings, and none of them is an include. -/
def Pasteable (lines : List Line) : Prop :=
  ∀ l ∈ lines, l.Ends ∧ ∀ reference, Directive.ofLine? l.body ≠ some (.includeFile reference)

/-- Nested lines do the same in a file of their own, the conditionals of which are above nothing, and pasted
into another one, above visible conditionals. -/
theorem run_pasted (file pasted : Path) (stack others : List Location) {base : ConditionStack}
    (hb : base.isVisible = true) {lines : List Line} (hp : Pasteable lines) {scopes : List Bool}
    (hn : lines.foldlM Line.nest scopes.length = some 0) (number number' : Nat) {s s' : State}
    (hs : s.effect = s'.effect) (hc : Closed s.output.toList) (rest : List Line) :
    (∃ f f', c.run fs pasted others number (above scopes .root) lines s = .error f ∧
      c.run fs file stack number' (above scopes base) (lines ++ rest) s' = .error f' ∧
      f.error.unplaced = f'.error.unplaced) ∨
    ∃ number'' t t', c.run fs pasted others number (above scopes .root) lines s = .ok t ∧
      c.run fs file stack number' (above scopes base) (lines ++ rest) s' =
        c.run fs file stack number'' base rest t' ∧
      t.effect = t'.effect ∧ Closed t.output.toList := by
  induction lines generalizing scopes number number' s s' with
  | nil =>
    obtain rfl : scopes = [] := List.length_eq_zero_iff.1 (Option.some.inj hn)
    have hclose := effect_closeFile s pasted (above [] .root)
    refine .inr ⟨number', s.closeFile pasted (above [] .root), s', by rw [run], rfl, hclose.trans hs, ?_⟩
    rwa [output_closeFile]
  | cons line lines ih =>
    obtain ⟨⟨hends, hplain⟩, hp'⟩ := List.forall_mem_cons.1 hp
    obtain ⟨d, h1, h2⟩ := nest_cons hn
    have hsame := same_act hs pasted file number number' (above scopes base) line
    rw [List.cons_append, run_cons, run_cons]
    rcases act_above pasted h1 number s with ⟨scopes', t, hl, ha⟩ | ⟨reference, -, ha⟩ | ⟨fault, ha⟩
    · have hroot := ha .root rfl
      rw [ha base hb] at hsame
      generalize act file number' (above scopes base) s' line = a at hsame ⊢
      cases hsame with
      | @proceed _ _ t' ht =>
        rw [hroot]
        refine ih hp' (hl ▸ h2) _ _ ht ?_
        rw [output_of_act hroot]
        exact hc.append (closed_lineBlock _ _ hends)
    · exact absurd (act_eq_enter.1 (ha base hb)).2 (hplain reference)
    · rw [ha base hb] at hsame
      generalize act file number' (above scopes base) s' line = a at hsame ⊢
      cases hsame with
      | fail =>
        rw [ha .root rfl]
        exact .inl ⟨_, _, rfl, rfl, rfl⟩

/-- An include does what the lines of the file do in its place, in visible text and in hidden text. -/
theorem outcome_run_include (file : Path) (stack : List Location) {line : Line} {reference : Reference}
    {place : Location} {text : String} (hd : Directive.ofLine? line.body = some (.includeFile reference))
    (he : c.enter fs file stack reference = .ok (place, text)) (hp : Pasteable (c.linesOf text))
    (hn : Line.Nested (c.linesOf text)) (number : Nat) (conditions : ConditionStack) {s : State}
    (hs : Closed s.output.toList) (rest : List Line) :
    outcome (c.run fs file stack number conditions (line :: rest) s) =
      outcome (c.run fs file stack number conditions (c.linesOf text ++ rest) s) := by
  by_cases hv : conditions.isVisible = true
  · rw [run_cons, act_eq_enter.2 ⟨hv, hd⟩]
    dsimp only
    rw [he]
    dsimp only
    have hclosed : Closed (s.depend place).output.toList := by rwa [output_depend]
    have hn0 : (c.linesOf text).foldlM Line.nest ([] : List Bool).length = some 0 := hn
    rcases run_pasted file place.path stack (place :: stack) hv hp hn0 1 number (effect_depend s place) hclosed rest
      with ⟨f, f', hf, hf', hff⟩ | ⟨number', t, t', ht, ht', htt, htc⟩
    · -- the file fails
      have hf0 : c.run fs place.path (place :: stack) 1 .root (c.linesOf text) (s.depend place) = .error f := hf
      have hf1 : c.run fs file stack number conditions (c.linesOf text ++ rest) s = .error f' := hf'
      rw [hf0, hf1]
      exact congrArg Except.error hff
    · -- it comes to its end, and no line has to be ended
      have ht0 : c.run fs place.path (place :: stack) 1 .root (c.linesOf text) (s.depend place) = .ok t := ht
      have ht1 : c.run fs file stack number conditions (c.linesOf text ++ rest) s =
        c.run fs file stack number' conditions rest t' := ht'
      rw [ht0, ht1]
      dsimp only
      rw [endLine_of_closed htc]
      exact outcome_run file stack _ _ _ _ _ _ htt
  · have hh : conditions.isVisible = false := by simpa using hv
    have hnest : line.nest 0 = some 0 := by simp only [Line.nest, hd]
    have hgo : act file number conditions s line = .proceed conditions s := act_hidden hh hnest number s
    rw [run_proceed c fs file stack hgo, run_nested_hidden hh hn]
    exact outcome_run file stack _ _ _ _ _ _ rfl

end Runs

end Preprocessor

/-! ## Texts -/

section Texts
open Text

theorem Text.trim_concat {c : Char} (h : isBlank c = true) (cs : List Char) : trim (cs ++ [c]) = trim cs := by
  have hend : ∀ u, trimEnd (u ++ [c]) = trimEnd u := by
    intro u
    simp [trimEnd, h]
  unfold trim trimStart
  rw [List.dropWhile_append]
  split
  · next hn =>
    rw [List.isEmpty_iff.1 hn]
    simp [h]
  · exact hend _

/-- A carriage return at its end is no part of what a line says. -/
theorem Directive.ofLine?_terminated (cs : List Char) : ofLine? (Line.terminated cs).body = ofLine? cs := by
  unfold Line.terminated
  split
  · next h =>
    obtain ⟨front, rfl⟩ := List.getLast?_eq_some_iff.1 h
    have hr : isBlank '\r' = true := by decide
    rw [List.dropLast_concat, ofLine?, ofLine?, trim_concat hr]
  · rfl

/-- The path in quotes may be any text. -/
theorem Directive.ofLine?_include (f : String) :
    ofLine? ("#include \"" ++ f ++ "\"").toList = some (.includeFile (.relative ⟨f⟩)) := by
  have hl : ("#include \"" ++ f ++ "\"").toList =
      '#' :: ("include".toList ++ ' ' :: '"' :: (f.toList ++ ['"'])) := by simp
  have ht : trim ('#' :: ("include".toList ++ ' ' :: '"' :: (f.toList ++ ['"']))) =
      '#' :: ("include".toList ++ ' ' :: '"' :: (f.toList ++ ['"'])) := by
    simp [trim, trimStart, trimEnd, isBlank]
  have hw : splitWord ("include".toList ++ ' ' :: '"' :: (f.toList ++ ['"'])) =
      ("include".toList, '"' :: (f.toList ++ ['"'])) := by
    simp [splitWord, trimStart, isBlank]
  have hb : Reference.between? '"' '"' ('"' :: (f.toList ++ ['"'])) = some f.toList := by
    simp [Reference.between?]
  rw [hl, ofLine?, ht]
  simp only [hw]
  simp [ofCommand, Reference.ofArguments?, hb]

end Texts

namespace Preprocessor

/-- The text that flattening gives, or the error without its place. -/
def textOrFault (l : Logged Flattened) : Except Error String := (l.result.map Flattened.text).mapError Error.unplaced

theorem textOrFault_finish (result : Except Failure State) :
    textOrFault (finish result) = (outcome result).map Prod.snd := by
  cases result <;> rfl

/-- Including a file is pasting it. The file is empty or ends in a line feed, closes the conditionals that it
opens, and includes nothing. Then an include of it, on a line of its own, can be replaced by what it holds:
either the output is the same, or the error is, but for its place. -/
theorem include_is_paste {c : Preprocessor} {fs : FileSystem} (hk : c.stripComments = false)
    {origin path : Path} {reference : Reference} {place : Location} {text : String}
    (hf : c.find fs origin reference = .ok path) (ht : fs.trace path = .ok place) (ho : anchor? fs origin ≠ some place)
    (hr : fs.readTextAt place = .ok text) (hc : Closed text.toList) (hn : Line.Nested (Line.list text.toList))
    (hi : ∀ l ∈ Line.list text.toList, ∀ reference, Directive.ofLine? l.body ≠ some (.includeFile reference))
    {P directive : String} (hP : Closed P.toList) (hl : '\n' ∉ directive.toList)
    (hd : Directive.ofLine? directive.toList = some (.includeFile reference)) (S : String) (macros : List Macro) :
    textOrFault (c.processText fs (P ++ directive ++ "\n" ++ S) origin macros) =
      textOrFault (c.processText fs (P ++ text ++ S) origin macros) := by
  have hlines : ∀ t, c.linesOf t = Line.list t.toList := fun t => by rw [linesOf, hk]; rfl
  have henter : c.enter fs origin (anchor? fs origin).toList reference = .ok (place, text) := by
    have hs : place ∉ (anchor? fs origin).toList := by simpa using fun h => ho h
    simp only [enter, hf, bind, Except.bind, openFile, ht, if_neg hs, hr]
  have hp : Pasteable (c.linesOf text) := by
    rw [hlines]
    exact fun l hl => ⟨Line.ends_of_closed hc l hl, hi l hl⟩
  have hn' : Line.Nested (c.linesOf text) := by rwa [hlines]
  have hd' : Directive.ofLine? (Line.terminated directive.toList).body = some (.includeFile reference) := by
    rwa [Directive.ofLine?_terminated]
  have h1 : c.linesOf (P ++ directive ++ "\n" ++ S) =
      Line.list P.toList ++ Line.terminated directive.toList :: Line.list S.toList := by
    have he : (P ++ directive ++ "\n" ++ S).toList = P.toList ++ (directive.toList ++ '\n' :: S.toList) := by simp
    rw [hlines, he, Line.list_append hP, Line.list_cons hl]
  have h2 : c.linesOf (P ++ text ++ S) = Line.list P.toList ++ (c.linesOf text ++ Line.list S.toList) := by
    rw [hlines, hlines, String.toList_append, String.toList_append, List.append_assoc, Line.list_append hP,
      Line.list_append hc]
  simp only [processText, textOrFault_finish, h1, h2]
  -- what comes before the include is the same, and leaves the output closed
  let start : State := { macros := .ofList macros }
  have hstart : Closed start.output.toList := closed_nil
  rcases run_append c fs origin (anchor? fs origin).toList (Line.ends_of_closed hP) 1 .root hstart with
    ⟨f, hfail⟩ | ⟨number, conditions, s, hs, hgo⟩
  · rw [hfail, hfail]
  · rw [hgo, hgo, outcome_run_include origin _ hd' henter hp hn' number conditions hs]

/-- A file that defines one macro and removes another. -/
def defining : FileSystem where
  nodes := [(⟨["d"]⟩, .directory), (⟨["d", "f"]⟩, .file (Bytes.ofText "#define A 1\r\n#ifdef A\n#undef B\n#endif\n"))]

/-- It does so where it is included, and where it is pasted. -/
theorem include_is_paste_defining :
    let c : Preprocessor := { stripComments := false }
    let directive := "#include \"" ++ "f" ++ "\""
    let text := "#define A 1\r\n#ifdef A\n#undef B\n#endif\n"
    (c.find defining ⟨"/d/g"⟩ (.relative ⟨"f"⟩) = .ok ⟨"/d/f"⟩ ∧ defining.trace ⟨"/d/f"⟩ = .ok ⟨["d", "f"]⟩ ∧
      anchor? defining ⟨"/d/g"⟩ ≠ some ⟨["d", "f"]⟩ ∧ defining.readTextAt ⟨["d", "f"]⟩ = .ok text ∧
      Closed text.toList ∧ Line.Nested (Line.list text.toList)) ∧
    textOrFault (c.processText defining ("B\n" ++ directive ++ "\n" ++ "A B") ⟨"/d/g"⟩ [⟨"B", "2"⟩]) =
      textOrFault (c.processText defining ("B\n" ++ text ++ "A B") ⟨"/d/g"⟩ [⟨"B", "2"⟩]) := by
  intro c directive text
  have hf : c.find defining ⟨"/d/g"⟩ (.relative ⟨"f"⟩) = .ok ⟨"/d/f"⟩ := by decide
  have ht : defining.trace ⟨"/d/f"⟩ = .ok ⟨["d", "f"]⟩ := by decide
  have ho : anchor? defining ⟨"/d/g"⟩ ≠ some ⟨["d", "f"]⟩ := by decide
  have hr : defining.readTextAt ⟨["d", "f"]⟩ = .ok text := by decide
  have hc : Closed text.toList := by decide +kernel
  have hn : Line.Nested (Line.list text.toList) := by decide +kernel
  have hi : ∀ l ∈ Line.list text.toList, ∀ reference, Directive.ofLine? l.body ≠ some (.includeFile reference) := by
    have hall : (Line.list text.toList).map (Directive.ofLine? ∘ Line.body) =
        [some (.define "A" "1"), some (.openIf true "A"), some (.undefine "B"), some .close] := by decide +kernel
    intro l hl reference h
    have hmem := List.mem_map_of_mem (f := Directive.ofLine? ∘ Line.body) hl
    rw [hall, Function.comp_apply, h] at hmem
    simp at hmem
  exact ⟨⟨hf, ht, ho, hr, hc, hn⟩, include_is_paste rfl hf ht ho hr hc hn hi (by decide) (by decide)
    (Directive.ofLine?_include "f") "A B" [⟨"B", "2"⟩]⟩

end Preprocessor

end ShaderBuild
