import Mathlib.Data.List.Basic
import ShaderBuild.Proofs.Builds
import ShaderBuild.Proofs.Expansion
import ShaderBuild.Proofs.Lines
import ShaderBuild.Proofs.LockStep
/-!
# Macros that nothing mentions

A macro changes nothing if no text has its name in it: neither the texts that are read nor the values of other
macros. Tables that differ in such a name only (`MacroTable.SameBut`) give the same expansions, the same
directives are followed under them, and they stay such tables from line to line. That a table is empty, and
lines are copied without being looked at, is no exception: expanding under an empty table is copying
(`expand_eq`).
-/

namespace ShaderBuild

open Text

/-- Is the name in the text, if only as a part of a longer word? -/
def Mentions (name : String) (cs : List Char) : Prop := name.toList <:+: cs

instance (name : String) (cs : List Char) : Decidable (Mentions name cs) :=
  inferInstanceAs (Decidable (name.toList <:+: cs))

section Parts
variable {name : String} {cs part : List Char}

theorem Mentions.of_infix (h : Mentions name part) (hp : part <:+: cs) : Mentions name cs := List.IsInfix.trans h hp

/-- No part of a text that does not mention a name is that name. -/
theorem ne_of_infix (h : ¬ Mentions name cs) (hp : part <:+: cs) : String.ofList part ≠ name := by
  rintro rfl
  refine h ?_
  rwa [Mentions, String.toList_ofList]

theorem Text.infix_trim (cs : List Char) : trim cs <:+: cs := by
  have hend : trimEnd (trimStart cs) <+: trimStart cs := by
    rw [trimEnd, ← List.reverse_suffix, List.reverse_reverse]
    exact List.dropWhile_suffix _
  exact hend.isInfix.trans (List.dropWhile_suffix _).isInfix

theorem Text.infix_splitWord (cs : List Char) : (splitWord cs).1 <:+: cs ∧ (splitWord cs).2 <:+: cs :=
  ⟨(List.takeWhile_prefix _).isInfix.trans (List.dropWhile_suffix _).isInfix,
    ((List.dropWhile_suffix _).trans ((List.dropWhile_suffix _).trans (List.dropWhile_suffix _))).isInfix⟩

theorem Line.infix_of_mem {l : Line} (h : l ∈ Line.list cs) : l.body <:+: cs := by
  obtain ⟨before, after, hl⟩ := List.append_of_mem h
  have ht := Line.text_list cs
  rw [hl, List.flatMap_append, List.flatMap_cons, Line.text, List.append_assoc] at ht
  exact ⟨before.flatMap Line.text, l.ending ++ after.flatMap Line.text, by rw [List.append_assoc]; exact ht⟩

end Parts

/-! ## Expansion -/

namespace MacroTable

theorem infix_of_mem_pieces {p : Piece} {cs : List Char} (h : p ∈ pieces cs) : p.text <:+: cs := by
  obtain ⟨before, after, hp⟩ := List.append_of_mem h
  have ht := flatMap_pieces cs
  rw [hp, List.flatMap_append, List.flatMap_cons] at ht
  exact ⟨before.flatMap Piece.text, after.flatMap Piece.text, by rw [List.append_assoc]; exact ht⟩

/-- Two tables that differ in one name at most, which no value of another name mentions. -/
structure SameBut (name : String) (t t' : MacroTable) : Prop where
  get?_eq {other : String} (h : other ≠ name) : t.get? other = t'.get? other
  unmentioned {other value : String} (h : other ≠ name) (hv : t.get? other = some value) :
    ¬ Mentions name value.toList

section SameBut
variable {name : String} {t t' : MacroTable}

theorem SameBut.contains_eq (h : SameBut name t t') {other : String} (ho : other ≠ name) :
    t.contains other = t'.contains other := by rw [contains, contains, h.get?_eq ho]

theorem SameBut.insert (h : SameBut name t t') (other : String) {value : String}
    (hv : ¬ Mentions name value.toList) : SameBut name (t.insert other value) (t'.insert other value) where
  get?_eq hn := by rw [get?_insert, get?_insert, h.get?_eq hn]
  unmentioned hn hg := by
    rw [get?_insert] at hg
    split at hg
    · exact Option.some.inj hg ▸ hv
    · exact h.unmentioned hn hg

theorem SameBut.insert_left (h : SameBut name t t') (value : String) : SameBut name (t.insert name value) t' where
  get?_eq hn := by rw [get?_insert, if_neg hn, h.get?_eq hn]
  unmentioned hn hg := by
    rw [get?_insert, if_neg hn] at hg
    exact h.unmentioned hn hg

theorem SameBut.erase (h : SameBut name t t') (other : String) : SameBut name (t.erase other) (t'.erase other) where
  get?_eq hn := by rw [get?_erase, get?_erase, h.get?_eq hn]
  unmentioned hn hg := by
    rw [get?_erase] at hg
    split at hg
    · cases hg
    · exact h.unmentioned hn hg

theorem SameBut.foldl (h : SameBut name t t') {macros : List Macro}
    (hm : ∀ m ∈ macros, ¬ Mentions name m.value.toList) :
    SameBut name (macros.foldl (fun t m => t.insert m.name m.value) t)
      (macros.foldl (fun t m => t.insert m.name m.value) t') := by
  induction macros generalizing t t' with
  | nil => exact h
  | cons m macros ih =>
    obtain ⟨hv, hrest⟩ := List.forall_mem_cons.1 hm
    exact ih (h.insert m.name hv) hrest

/-- A definition anywhere in a list makes a difference in its name only. -/
theorem sameBut_ofList {before after : List Macro} (hb : ∀ m ∈ before, ¬ Mentions name m.value.toList)
    (ha : ∀ m ∈ after, ¬ Mentions name m.value.toList) (value : String) :
    SameBut name (ofList (before ++ ⟨name, value⟩ :: after)) (ofList (before ++ after)) := by
  have hempty : SameBut name empty empty := ⟨fun _ => rfl, fun _ hv => by simp at hv⟩
  rw [ofList, ofList, List.foldl_append, List.foldl_append, List.foldl_cons]
  exact ((hempty.foldl hb).insert_left value).foldl ha

/-- A text that does not mention the name has the same expansion under both tables. -/
theorem SameBut.expandWithin_eq (h : SameBut name t t') (active : List String) {cs : List Char}
    (hcs : ¬ Mentions name cs) : t.expandWithin active cs = t'.expandWithin active cs := by
  rw [MacroTable.expandWithin_eq, MacroTable.expandWithin_eq]
  refine List.flatMap_congr fun p hp => ?_
  cases p with
  | verbatim text => rfl
  | word text =>
    have hne : String.ofList text ≠ name := ne_of_infix hcs (infix_of_mem_pieces hp)
    dsimp only [Piece.substitute, expandWord]
    rw [← h.get?_eq hne]
    cases hv : t.get? (String.ofList text) with
    | none => rfl
    | some value =>
      dsimp only
      split
      · rfl
      · exact h.expandWithin_eq _ (h.unmentioned hne hv)
termination_by (t.idle active).length
decreasing_by exact length_idle_lt (mem_names_of_get? hv) ‹_›

theorem SameBut.expand_eq (h : SameBut name t t') {cs : List Char} (hcs : ¬ Mentions name cs) :
    t.expand cs = t'.expand cs := by
  rw [MacroTable.expand_eq, MacroTable.expand_eq, h.expandWithin_eq [] hcs]

end SameBut

end MacroTable

/-! ## Directives -/

/-- No name that a directive tests, and no value that it defines, has to do with the name. -/
def Directive.Avoids (name : String) : Directive → Prop
  | .define _ value => ¬ Mentions name value.toList
  | .openIf _ other => other ≠ name
  | _ => True

theorem Directive.avoids_ofCommand {name : String} {arguments : List Char} (h : ¬ Mentions name arguments)
    (line command : String) : (ofCommand line command arguments).Avoids name := by
  have hword : String.ofList (splitWord arguments).1 ≠ name := ne_of_infix h (infix_splitWord arguments).1
  have hvalue : ¬ Mentions name (String.ofList (trim (splitWord arguments).2)).toList := by
    rw [String.toList_ofList]
    exact fun hm => h (hm.of_infix ((infix_trim _).trans (infix_splitWord arguments).2))
  unfold ofCommand
  dsimp only
  split
  · split <;> trivial
  split
  · split
    · trivial
    · exact hvalue
  split
  · split <;> trivial
  split
  · split
    · trivial
    · exact hword
  split
  · split
    · trivial
    · exact hword
  split
  · trivial
  split <;> trivial

theorem Directive.avoids_of_ofLine? {name : String} {body : List Char} (h : ¬ Mentions name body) {d : Directive}
    (hd : ofLine? body = some d) : d.Avoids name := by
  unfold ofLine? at hd
  split at hd
  · next rest ht =>
    have hrest : rest <:+: body := (List.suffix_cons _ _).isInfix.trans (ht ▸ infix_trim body)
    have hargs : ¬ Mentions name (splitWord rest).2 := fun hm =>
      h (hm.of_infix ((infix_splitWord rest).2.trans hrest))
    obtain rfl := Option.some.inj hd
    exact avoids_ofCommand hargs _ _
  · cases hd

/-! ## Runs -/

namespace Preprocessor

/-- Two states that differ in their macros only, and there in one name at most. -/
structure State.SameBut (name : String) (s s' : State) : Prop where
  macros : s.macros.SameBut name s'.macros
  output : s.output = s'.output
  dependencies : s.dependencies = s'.dependencies
  warnings : s.warnings = s'.warnings

section SameBut
variable {name : String} {s s' : State} (h : s.SameBut name s')
include h

theorem State.SameBut.write {line : Line} (hl : ¬ Mentions name line.body) :
    (s.write line).SameBut name (s'.write line) :=
  { h with output := by simp only [State.write, h.output, h.macros.expand_eq hl] }

theorem State.SameBut.warn (w : Warning) : (s.warn w).SameBut name (s'.warn w) :=
  { h with warnings := by simp only [State.warn, h.warnings] }

theorem State.SameBut.depend (place : Location) : (s.depend place).SameBut name (s'.depend place) := by
  unfold State.depend
  rw [h.dependencies]
  split
  · exact h
  · exact { h with dependencies := rfl }

theorem State.SameBut.endLine : s.endLine.SameBut name s'.endLine := by
  have hl : s.isInLine = s'.isInLine := by rw [State.isInLine, State.isInLine, h.output]
  unfold State.endLine
  rw [hl]
  split
  · exact { h with output := congrArg (· ++ "\n") h.output }
  · exact h

theorem State.SameBut.closeFile (file : Path) (conditions : ConditionStack) :
    (s.closeFile file conditions).SameBut name (s'.closeFile file conditions) := by
  unfold State.closeFile
  split
  · exact h.warn _
  · exact h

theorem State.SameBut.follow (file : Path) (number : Nat) (conditions : ConditionStack) {d : Directive}
    (hd : d.Avoids name) : (Preprocessor.follow file number conditions s d).Related (State.SameBut name)
      (Preprocessor.follow file number conditions s' d) := by
  cases d with
  | includeFile reference =>
    simp only [Preprocessor.follow]
    split
    · exact .enter reference
    · exact .proceed _ h
  | define other value =>
    refine .proceed _ ?_
    split
    · exact { h with macros := h.macros.insert other hd }
    · exact h
  | undefine other =>
    refine .proceed _ ?_
    split
    · exact { h with macros := h.macros.erase other }
    · exact h
  | openIf defined other =>
    simp only [Preprocessor.follow, h.macros.contains_eq hd]
    exact .proceed _ h
  | otherwise =>
    simp only [Preprocessor.follow]
    split
    · exact .proceed _ h
    · exact .fail _
  | close =>
    simp only [Preprocessor.follow]
    split
    · exact .proceed _ h
    · exact .fail _
  | invalid fault opensConditional =>
    simp only [Preprocessor.follow]
    split
    · exact .fail fault
    · exact .proceed _ h
  | unknown line =>
    refine .proceed _ ?_
    split
    · exact h.warn _
    · exact h

theorem State.SameBut.act (file : Path) (number : Nat) (conditions : ConditionStack) {line : Line}
    (hl : ¬ Mentions name line.body) : (Preprocessor.act file number conditions s line).Related (State.SameBut name)
      (Preprocessor.act file number conditions s' line) := by
  unfold Preprocessor.act
  cases hd : Directive.ofLine? line.body with
  | some d => exact h.follow file number conditions (Directive.avoids_of_ofLine? hl hd)
  | none =>
    refine .proceed _ ?_
    split
    · exact h.write hl
    · exact h

end SameBut

/-- Lines that do not mention the name do the same under macros that differ in this name only. -/
theorem matched_sameBut (name : String) :
    Matched (fun line => ¬ Mentions name line.body) Eq Eq (State.SameBut name) where
  first := rfl
  next hn := congrArg (· + 1) hn
  act h file _ _ hn conditions _ hl := hn ▸ h.act file _ conditions hl
  depend h := h.depend
  endLine h := h.endLine
  closeFile h := h.closeFile
  fault h file _ _ hn fault := by rw [hn, h.warnings]
  error h e := by rw [h.warnings]

/-- The text that the lines of a source are taken from. -/
def codeOf (c : Preprocessor) (text : String) : List Char :=
  if c.stripComments then Comment.strip text.toList else text.toList

/-- No file that can be read mentions the name. -/
def NowhereIn (c : Preprocessor) (fs : FileSystem) (name : String) : Prop :=
  ∀ place text, fs.readTextAt place = .ok text → ¬ Mentions name (c.codeOf text)

section Adding
variable {c : Preprocessor} {fs : FileSystem} {name : String}

theorem not_mentions_linesOf {text : String} (h : ¬ Mentions name (c.codeOf text)) :
    ∀ line ∈ c.linesOf text, ¬ Mentions name line.body :=
  fun _ hl hm => h (hm.of_infix (Line.infix_of_mem hl))

theorem finish_eq_of_sameBut {r r' : Except Failure State} (h : EndAlike Eq (State.SameBut name) r r') :
    finish r = finish r' := by
  cases h with
  | ok h => rw [finish, finish, h.output, h.dependencies, h.warnings]
  | error h => rw [h]

/-- A source is flattened to the same under macros that differ only in a name that nothing mentions. -/
theorem finish_run_eq (hfs : c.NowhereIn fs name) (file : Path) (stack : List Location) {text : String}
    (ht : ¬ Mentions name (c.codeOf text)) {s s' : State} (hs : s.SameBut name s') :
    finish (c.run fs file stack 1 .root (c.linesOf text) s) =
      finish (c.run fs file stack 1 .root (c.linesOf text) s') :=
  finish_eq_of_sameBut ((matched_sameBut name).run (fun place text hr => not_mentions_linesOf (hfs place text hr))
    file stack 1 .root _ s 1 s' rfl hs (not_mentions_linesOf ht))

variable {before after : List Macro} (hb : ∀ m ∈ before, ¬ Mentions name m.value.toList)
  (ha : ∀ m ∈ after, ¬ Mentions name m.value.toList)
include hb ha

theorem sameBut_start (value : String) :
    State.SameBut name { macros := .ofList (before ++ ⟨name, value⟩ :: after) }
      { macros := .ofList (before ++ after) } :=
  ⟨MacroTable.sameBut_ofList hb ha value, rfl, rfl, rfl⟩

theorem processFile_unmentioned (hfs : c.NowhereIn fs name) (value : String) (p : Path) :
    c.processFile fs p (before ++ ⟨name, value⟩ :: after) = c.processFile fs p (before ++ after) := by
  unfold processFile
  split
  · rfl
  · next place text ho =>
    exact finish_run_eq hfs _ _ (hfs place text (openFile_eq_ok ho).2) ((sameBut_start hb ha value).depend place)

theorem processText_unmentioned (hfs : c.NowhereIn fs name) (value : String) {text : String}
    (ht : ¬ Mentions name (c.codeOf text)) (origin : Path) :
    c.processText fs text origin (before ++ ⟨name, value⟩ :: after) =
      c.processText fs text origin (before ++ after) :=
  finish_run_eq hfs _ _ ht (sameBut_start hb ha value)

end Adding

end Preprocessor

/-! ## Builds -/

section Builds
variable {σ : Type} {name : String} {before after : List Macro}
  (hb : ∀ m ∈ before, ¬ Mentions name m.value.toList) (ha : ∀ m ∈ after, ¬ Mentions name m.value.toList)
include hb ha

theorem Engine.flatten_unmentioned (e : Engine σ) {fs : FileSystem} (hfs : e.preprocessor.NowhereIn fs name)
    (value : String) (source : StageSource) :
    e.flatten fs { source with macros := before ++ ⟨name, value⟩ :: after } =
      e.flatten fs { source with macros := before ++ after } := by
  unfold Engine.flatten
  dsimp only
  split
  · exact Preprocessor.processFile_unmentioned hb ha hfs value _
  · rfl

/-- A stage has the same digest, and leaves the same bytecode in the cache. -/
theorem Engine.compileStage_unmentioned (e : Engine σ) {s : Session σ}
    (hfs : e.preprocessor.NowhereIn s.files name) (value : String) (stage : Stage) (source : StageSource) :
    e.compileStage stage { source with macros := before ++ ⟨name, value⟩ :: after } s =
      e.compileStage stage { source with macros := before ++ after } s := by
  rw [Engine.compileStage_run, Engine.compileStage_run, e.flatten_unmentioned hb ha hfs]

/-- A macro that nothing mentions changes nothing. Wherever it stands in a list of definitions, sources are
flattened to the same, with the same errors, dependencies and warnings, and stages are compiled to the same.
It does not matter either whether a text is expanded or, for want of macros, copied. -/
theorem unmentioned_macro_changes_nothing (value : String) :
    (∀ (c : Preprocessor) (fs : FileSystem), c.NowhereIn fs name →
      (∀ p, c.processFile fs p (before ++ ⟨name, value⟩ :: after) = c.processFile fs p (before ++ after)) ∧
      ∀ text, ¬ Mentions name (c.codeOf text) → ∀ origin,
        c.processText fs text origin (before ++ ⟨name, value⟩ :: after) =
          c.processText fs text origin (before ++ after)) ∧
    (∀ (e : Engine σ) (s : Session σ), e.preprocessor.NowhereIn s.files name →
      ∀ (stage : Stage) (source : StageSource),
      e.compileStage stage { source with macros := before ++ ⟨name, value⟩ :: after } s =
        e.compileStage stage { source with macros := before ++ after } s) ∧
    ∀ (t : MacroTable) (cs : List Char), t.expand cs = t.expandWithin [] cs :=
  ⟨fun _ _ hfs => ⟨Preprocessor.processFile_unmentioned hb ha hfs value,
      fun _ ht => Preprocessor.processText_unmentioned hb ha hfs value ht⟩,
    fun e _ hfs => e.compileStage_unmentioned hb ha hfs value, MacroTable.expand_eq⟩

end Builds

/-- A source that mentions `NOTE` in a comment only. -/
def noted : FileSystem where
  nodes := [(⟨["src"]⟩, .directory), (⟨["src", "a.hlsl"]⟩, .file (Bytes.ofText "#ifdef A // NOTE\nB;\n#endif\n"))]

theorem noted_nowhere : Preprocessor.NowhereIn ⟨[⟨"src"⟩], true⟩ noted "NOTE" := by
  intro place text hr
  have hmem : place ∈ [(⟨["src", "a.hlsl"]⟩ : Location)] := Preprocessor.mem_filePlaces hr
  obtain rfl := List.mem_singleton.1 hmem
  have ht : noted.readTextAt ⟨["src", "a.hlsl"]⟩ = .ok "#ifdef A // NOTE\nB;\n#endif\n" := by decide
  obtain rfl := Except.ok.inj (hr.symm.trans ht)
  decide +kernel

/-- Between two macros that are used, its definition is not noticed. -/
theorem unmentioned_macro_changes_nothing_noted :
    let c : Preprocessor := ⟨[⟨"src"⟩], true⟩
    let e : Engine Unit := ⟨{ sourceDir := ⟨"src"⟩ }, ⟨95, fun r s => (.ok (Bytes.ofText r.source), s)⟩⟩
    c.NowhereIn noted "NOTE" ∧ Mentions "NOTE" "#ifdef A // NOTE\nB;\n#endif\n".toList ∧
    c.processFile noted ⟨"src/a.hlsl"⟩ ([⟨"A", ""⟩] ++ ⟨"NOTE", "1"⟩ :: [⟨"B", "float4 x"⟩]) =
      c.processFile noted ⟨"src/a.hlsl"⟩ ([⟨"A", ""⟩] ++ [⟨"B", "float4 x"⟩]) ∧
    c.processText noted "#include <a.hlsl> // NOTE" ⟨"b"⟩ ([⟨"A", ""⟩] ++ ⟨"NOTE", "1"⟩ :: [⟨"B", "float4 x"⟩]) =
      c.processText noted "#include <a.hlsl> // NOTE" ⟨"b"⟩ ([⟨"A", ""⟩] ++ [⟨"B", "float4 x"⟩]) ∧
    e.compileStage .vertex ⟨⟨"a.hlsl"⟩, "main", [⟨"A", ""⟩] ++ ⟨"NOTE", "1"⟩ :: [⟨"B", "float4 x"⟩]⟩ ⟨noted, (), []⟩ =
      e.compileStage .vertex ⟨⟨"a.hlsl"⟩, "main", [⟨"A", ""⟩] ++ [⟨"B", "float4 x"⟩]⟩ ⟨noted, (), []⟩ := by
  intro c e
  have hb : ∀ m ∈ [(⟨"A", ""⟩ : Macro)], ¬ Mentions "NOTE" m.value.toList := by decide +kernel
  have ha : ∀ m ∈ [(⟨"B", "float4 x"⟩ : Macro)], ¬ Mentions "NOTE" m.value.toList := by decide +kernel
  obtain ⟨hflat, hcompile, -⟩ := @unmentioned_macro_changes_nothing Unit _ _ _ hb ha "1"
  exact ⟨noted_nowhere, by decide +kernel, (hflat c noted noted_nowhere).1 _,
    (hflat c noted noted_nowhere).2 _ (by decide +kernel) _,
    hcompile e ⟨noted, (), []⟩ noted_nowhere .vertex ⟨⟨"a.hlsl"⟩, "main", []⟩⟩

end ShaderBuild
