import ShaderBuild.Proofs.Blame
import ShaderBuild.Proofs.Includes
import ShaderBuild.Proofs.Numbering
/-!
# Lines in diagnostics

A file that is open is read line by line, so the number of its next line is that of a line of what is left of its
text without comments (`Opened.Reads`). If flattening fails because of a directive, then it has come to that
directive, in the file that is named (`exists_stops`).

Both here and in manifests, the lines that are counted are those that are left without the comments. So a line in
a diagnostic is behind by as many lines as there are line feeds in the block comments before it, and right if no
block comment before it goes over the end of a line (`lines_without_block_comments`).
-/

namespace ShaderBuild

open Token Text

namespace Preprocessor

/-! ## The line that a run has come to -/

/-- The file that diagnostics name like this has this text. -/
def Root.Holds (fs : FileSystem) (root : Root) (file : Path) (source : String) : Prop :=
  root = .text source file ∨ ∃ place : Location, file = place.path ∧ fs.readTextAt place = .ok source

/-- An open file is read from a text, and the number of the next line is that of the first one that is left. -/
def Opened.Reads (c : Preprocessor) (fs : FileSystem) (root : Root) (f : Opened) : Prop :=
  ∃ source k, root.Holds fs f.file source ∧ f.number = k + 1 ∧ f.lines = (c.linesOf source).drop k

section Steps
variable {c : Preprocessor} {fs : FileSystem} {root : Root}

theorem Opened.Reads.next {f : Opened} (h : f.Reads c fs root) {line : Line} {rest : List Line}
    (hl : f.lines = line :: rest) (conditions : ConditionStack) :
    Opened.Reads c fs root { f with number := f.number + 1, conditions := conditions, lines := rest } := by
  obtain ⟨source, k, hsource, hnumber, hlines⟩ := h
  refine ⟨source, k + 1, hsource, congrArg (· + 1) hnumber, ?_⟩
  rw [← List.tail_drop, ← hlines, hl, List.tail_cons]

theorem reads_opened {place : Location} {text : String} (h : fs.readTextAt place = .ok text) :
    (c.opened place text).Reads c fs root :=
  ⟨text, 0, .inr ⟨place, rfl, h⟩, rfl, rfl⟩

theorem reads_resume {includers : List Opened} (h : ∀ f ∈ includers, f.Reads c fs root) (s : State) :
    ∀ f ∈ (Moment.resume includers s).files, f.Reads c fs root := by
  cases includers with
  | nil => exact List.forall_mem_nil _
  | cons => exact h

theorem reads_advance {m : Moment} (h : ∀ f ∈ m.files, f.Reads c fs root) :
    ∀ f ∈ (c.advance fs m).files, f.Reads c fs root := by
  cases m with
  | ended result => exact h
  | working here includers s =>
    obtain ⟨hhere, hincluders⟩ := List.forall_mem_cons.1 h
    simp only [advance]
    cases hl : here.lines with
    | nil => exact reads_resume hincluders _
    | cons line rest =>
      dsimp only
      cases act here.file here.number here.conditions s line with
      | fail fault => exact List.forall_mem_nil _
      | proceed conditions t => exact List.forall_mem_cons.2 ⟨hhere.next hl conditions, hincluders⟩
      | enter reference =>
        dsimp only
        cases he : c.enter fs here.file (Moment.stack (.working here includers s)) reference with
        | error e => exact List.forall_mem_nil _
        | ok found =>
          obtain ⟨place, text⟩ := found
          exact List.forall_mem_cons.2 ⟨reads_opened (enter_eq_ok he).2,
            List.forall_mem_cons.2 ⟨hhere.next hl here.conditions, hincluders⟩⟩

/-- At every moment all open files are read from their texts. -/
theorem reads_moment (macros : List Macro) (steps : Nat) :
    ∀ f ∈ (c.moment fs macros root steps).files, f.Reads c fs root := by
  induction steps with
  | zero =>
    cases root with
    | text text origin => exact List.forall_mem_singleton.2 ⟨text, 0, .inl rfl, rfl, rfl⟩
    | file p =>
      simp only [moment, later, Function.iterate_zero, id, start]
      cases ho : openFile fs [] p with
      | error e => exact List.forall_mem_nil _
      | ok found =>
        obtain ⟨place, text⟩ := found
        exact List.forall_mem_singleton.2 (reads_opened (openFile_eq_ok ho).2)
  | succ steps ih =>
    rw [moment, later_succ]
    exact reads_advance ih

/-! ## The directive that a run fails at -/

theorem openFile_ne_directive {stack : List Location} {p file : Path} {number : Nat} {fault : DirectiveFault} :
    openFile fs stack p ≠ .error (.directive file number fault) := by
  unfold openFile
  split
  · simp
  split
  · simp
  split <;> simp

theorem enter_ne_directive {here file : Path} {stack : List Location} {reference : Reference} {number : Nat}
    {fault : DirectiveFault} : c.enter fs here stack reference ≠ .error (.directive file number fault) := by
  intro h
  simp only [enter, bind, Except.bind] at h
  cases hf : c.find fs here reference with
  | error e =>
    rw [hf] at h
    obtain ⟨p, rfl⟩ := find_eq_error hf
    cases h
  | ok path =>
    rw [hf] at h
    exact openFile_ne_directive h

/-- While something is flattened, this line of a file comes up, with that number, and is a directive with that
fault. -/
def Stops (c : Preprocessor) (fs : FileSystem) (macros : List Macro) (root : Root) (file : Path) (number : Nat)
    (fault : DirectiveFault) (line : Line) : Prop :=
  ∃ steps here includers s, c.moment fs macros root steps = .working here includers s ∧ here.file = file ∧
    here.number = number ∧ here.lines.head? = some line ∧
    act here.file here.number here.conditions s line = .fail fault

theorem exists_directive_of_act {file : Path} {number : Nat} {conditions : ConditionStack} {s : State} {line : Line}
    {fault : DirectiveFault} (h : act file number conditions s line = .fail fault) :
    ∃ d, Directive.ofLine? line.body = some d := by
  unfold act at h
  split at h
  · next d hd => exact ⟨d, hd⟩
  · cases h

/-- The last step of a run that fails because of a directive. -/
theorem fail_of_advance {here : Opened} {includers : List Opened} {s : State} {file : Path} {number : Nat}
    {fault : DirectiveFault} {warnings : List Warning}
    (h : c.advance fs (.working here includers s) = .ended (.error ⟨.directive file number fault, warnings⟩)) :
    here.file = file ∧ here.number = number ∧
      ∃ line, here.lines.head? = some line ∧ act here.file here.number here.conditions s line = .fail fault := by
  simp only [advance] at h
  cases hl : here.lines with
  | nil =>
    rw [hl] at h
    cases includers <;> cases h
  | cons line rest =>
    rw [hl] at h
    dsimp only at h
    cases ha : act here.file here.number here.conditions s line with
    | fail fault' =>
      rw [ha] at h
      obtain ⟨he, -⟩ := Failure.mk.inj (Except.error.inj (Moment.ended.inj h))
      obtain ⟨hfile, hnumber, rfl⟩ := Error.directive.inj he
      exact ⟨hfile, hnumber, line, rfl, ha⟩
    | proceed conditions t =>
      rw [ha] at h
      cases h
    | enter reference =>
      rw [ha] at h
      dsimp only at h
      cases he : c.enter fs here.file (Moment.stack (.working here includers s)) reference with
      | ok found =>
        rw [he] at h
        cases h
      | error e =>
        rw [he] at h
        obtain ⟨rfl, -⟩ := Failure.mk.inj (Except.error.inj (Moment.ended.inj h))
        exact absurd he enter_ne_directive

theorem start_ne_directive (macros : List Macro) {file : Path} {number : Nat} {fault : DirectiveFault}
    {warnings : List Warning} :
    c.start fs macros root ≠ .ended (.error ⟨.directive file number fault, warnings⟩) := by
  intro h
  cases root with
  | text text origin => cases h
  | file p =>
    simp only [start] at h
    cases ho : openFile fs [] p with
    | ok found =>
      rw [ho] at h
      cases h
    | error e =>
      rw [ho] at h
      obtain ⟨rfl, -⟩ := Failure.mk.inj (Except.error.inj (Moment.ended.inj h))
      exact openFile_ne_directive ho

/-- Flattening fails because of a directive only if it has come to it. The number in the error is that of a line
of the file that is named. -/
theorem exists_stops {macros : List Macro} {file : Path} {number : Nat} {fault : DirectiveFault}
    (h : (c.process fs macros root).result = .error (.directive file number fault)) :
    ∃ source k line d, root.Holds fs file source ∧ number = k + 1 ∧ (c.linesOf source)[k]? = some line ∧
      Directive.ofLine? line.body = some d ∧ c.Stops fs macros root file number fault line := by
  obtain ⟨steps, result, hend, hprocess⟩ := c.exists_moment_ended fs macros root
  obtain ⟨warnings, rfl⟩ := finish_eq_error (hprocess ▸ h)
  -- The last step was this directive, and not the opening of the first file.
  rcases c.exists_last fs hend with hstart | ⟨before, here, includers, s, hm, hlast⟩
  · exact absurd hstart (start_ne_directive macros)
  · obtain ⟨rfl, rfl, line, hline, hact⟩ := fail_of_advance hlast
    obtain ⟨d, hd⟩ := exists_directive_of_act hact
    have hhere : here ∈ (c.moment fs macros root before).files := by
      rw [moment, hm]
      exact List.mem_cons_self
    obtain ⟨source, k, hsource, hnumber, hlines⟩ := reads_moment macros before here hhere
    -- what is left of the file starts with this line
    refine ⟨source, k, line, d, hsource, hnumber, ?_, hd, before, here, includers, s, hm, rfl, rfl, hline, hact⟩
    rw [← hline, hlines, List.head?_drop]

end Steps

end Preprocessor

/-! ## Lines -/

namespace Manifest

/-- What is left of a manifest without its comments, as tokens. -/
def codeOf (text : String) : Stream := Stream.ofSource (String.ofList (Comment.strip text.toList))

theorem exists_line_of_error {text : String} {error : Error} (h : parse text = .error error) :
    ∃ line fault k before, error = .manifest line fault ∧ Blames (codeOf text).tokens k ∧
      fault.About ((codeOf text).onward k) ∧ Precedes before text.toList k ∧ Lacks line before := by
  obtain ⟨k, fault, herror, hblames, habout⟩ := exists_blames h
  obtain ⟨before, hbefore, hline⟩ := exists_precedes text k
  exact ⟨_, fault, k, before, herror, hblames, habout, hbefore, hline⟩

theorem exists_line_of_mem {text : String} {m : Manifest} (h : parse text = .ok m) {e : ManifestEntry}
    (he : e ∈ m.entries) :
    ∃ k before, BeginsAt e ((codeOf text).onward k) ∧ Precedes before text.toList k ∧ Lacks e.line before := by
  obtain ⟨k, hline, hbegins⟩ := exists_beginsAt h e he
  obtain ⟨before, hbefore, hlines⟩ := exists_precedes text k
  exact ⟨k, before, hbegins, hbefore, hline ▸ hlines⟩

end Manifest

namespace Preprocessor

theorem exists_line_of_directive {c : Preprocessor} {fs : FileSystem} {macros : List Macro} {root : Root} {file : Path}
    {number : Nat} {fault : DirectiveFault} (hc : c.stripComments = true)
    (h : (c.process fs macros root).result = .error (.directive file number fault)) :
    ∃ source k line before, root.Holds fs file source ∧ c.Stops fs macros root file number fault line ∧
      number = k + 1 ∧ Directive.Follows before source.toList k line ∧
      number + newlines (Comment.blocks before) = 1 + newlines before := by
  obtain ⟨source, k, line, d, hsource, rfl, hl, hd, hstops⟩ := exists_stops h
  rw [linesOf, if_pos hc] at hl
  obtain ⟨before, hbefore, hlines⟩ := Directive.exists_follows hl hd
  exact ⟨source, k, line, before, hsource, hstops, rfl, hbefore, hlines⟩

end Preprocessor

/-- A line in a diagnostic, and that of a shader in a manifest, is that of its token or directive in the text as it
was given, but for the line feeds in the block comments before it. So it is right if none of these goes over the
end of a line, and if the text has no more lines than their counter can show. -/
theorem lines_lack_block_comments (text : String) {c : Preprocessor} (hc : c.stripComments = true) (fs : FileSystem)
    (macros : List Macro) (root : Preprocessor.Root) :
    (∀ error, Manifest.parse text = .error error → ∃ line fault k before, error = .manifest line fault ∧
      Manifest.Blames (Manifest.codeOf text).tokens k ∧ fault.About ((Manifest.codeOf text).onward k) ∧
      Precedes before text.toList k ∧ Lacks line before) ∧
    (∀ m, Manifest.parse text = .ok m → ∀ e ∈ m.entries, ∃ k before,
      Manifest.BeginsAt e ((Manifest.codeOf text).onward k) ∧ Precedes before text.toList k ∧ Lacks e.line before) ∧
    ∀ (file : Path) (number : Nat) (fault : DirectiveFault),
      (c.process fs macros root).result = .error (.directive file number fault) →
      ∃ source k line before, root.Holds fs file source ∧ c.Stops fs macros root file number fault line ∧
        number = k + 1 ∧ Directive.Follows before source.toList k line ∧
        number + newlines (Comment.blocks before) = 1 + newlines before :=
  ⟨fun _ => Manifest.exists_line_of_error, fun _ h _ => Manifest.exists_line_of_mem h,
    fun _ _ _ => Preprocessor.exists_line_of_directive hc⟩

/-- A manifest with a fault on its third line, behind a comment. -/
def faulty : String := "/* a\n*/\nshader A \x7b bogus \x7d"

/-- A manifest with a shader on its second line, behind a comment. -/
def commented : String := "/*\n*/ shader A \x7b stage vertex \x7b file = \"a\"; \x7d \x7d"

/-- A source with a directive on its third line that belongs to no conditional, behind a comment. -/
def unmatched : String := "/*\n*/\n#else\n"

theorem parse_faulty : Manifest.parse faulty = .error (.manifest 2 (.expectedWord "stage" "bogus")) := by
  decide +kernel

theorem parse_commented :
    Manifest.parse commented = .ok ⟨[⟨"A", ShaderUnit.empty.set .vertex { file := ⟨"a"⟩ }, 1⟩]⟩ := by
  decide +kernel

theorem process_unmatched :
    (Preprocessor.process {} {} [] (.text unmatched ⟨"main.hlsl"⟩)).result =
      .error (.directive ⟨"main.hlsl"⟩ 2 (.unmatched "else")) := by
  have hlines : Preprocessor.linesOf {} unmatched = [⟨[], ['\n']⟩, ⟨"#else".toList, ['\n']⟩] := by decide +kernel
  let s : Preprocessor.State := { macros := .ofList [] }
  have hfirst : Preprocessor.act ⟨"main.hlsl"⟩ 1 .root s ⟨[], ['\n']⟩ = .proceed .root (s.write ⟨[], ['\n']⟩) := rfl
  rw [Preprocessor.process, Preprocessor.processText, hlines, Preprocessor.run_proceed {} {} _ _ hfirst,
    Preprocessor.run_cons]
  rfl

theorem lines_lack_block_comments_faulty :
    (Manifest.parse faulty = .error (.manifest 2 (.expectedWord "stage" "bogus")) ∧
      ∃ k before, Manifest.Blames (Manifest.codeOf faulty).tokens k ∧ Precedes before faulty.toList k ∧
        Lacks 2 before) ∧
    (∃ m, Manifest.parse commented = .ok m ∧ ∀ e ∈ m.entries, ∃ k before,
      Manifest.BeginsAt e ((Manifest.codeOf commented).onward k) ∧ Precedes before commented.toList k ∧
      Lacks e.line before) ∧
    (({} : Preprocessor).stripComments = true ∧
      (Preprocessor.process {} {} [] (.text unmatched ⟨"main.hlsl"⟩)).result =
        .error (.directive ⟨"main.hlsl"⟩ 2 (.unmatched "else"))) ∧
      ∃ source k line before, (Preprocessor.Root.text unmatched ⟨"main.hlsl"⟩).Holds {} ⟨"main.hlsl"⟩ source ∧
        Directive.Follows before source.toList k line ∧
        2 + newlines (Comment.blocks before) = 1 + newlines before := by
  have hc : ({} : Preprocessor).stripComments = true := rfl
  let root : Preprocessor.Root := .text unmatched ⟨"main.hlsl"⟩
  obtain ⟨herror, -, hdirective⟩ := lines_lack_block_comments faulty hc {} [] root
  obtain ⟨-, hentries, -⟩ := lines_lack_block_comments commented hc {} [] root
  refine ⟨⟨parse_faulty, ?_⟩, ⟨_, parse_commented, hentries _ parse_commented⟩, ⟨hc, process_unmatched⟩, ?_⟩
  · obtain ⟨line, fault, k, before, he, hblames, -, hbefore, hline⟩ := herror _ parse_faulty
    obtain ⟨rfl, -⟩ := Error.manifest.inj he
    exact ⟨k, before, hblames, hbefore, hline⟩
  · obtain ⟨source, k, line, before, hsource, -, -, hbefore, hline⟩ := hdirective _ _ _ process_unmatched
    exact ⟨source, k, line, before, hsource, hbefore, hline⟩

/-- If all block comments come first in a text, all that is left comes after all of their line feeds. -/
theorem Token.Precedes.newlines_blocks {before text : List Char} {k n : Nat} (h : Precedes before text k)
    (hkept : ∀ p ∈ Comment.kept text, newlines (Comment.blocks p.1) = n) (htext : newlines (Comment.blocks text) = n) :
    newlines (Comment.blocks before) = n := by
  cases ht : (list 1 (Comment.strip text))[k]? with
  | none => rwa [h.last ht]
  | some t =>
    obtain ⟨c, hc, -⟩ := h.first t ht
    exact hkept _ hc

theorem Token.Precedes.newlines_le {before text : List Char} {k : Nat} (h : Precedes before text k) :
    newlines before ≤ newlines text :=
  h.front.sublist.count_le '\n'

/-- After a block comment over two lines, lines are one behind. -/
theorem lines_behind_block_comments :
    (∃ line fault k before, Manifest.parse faulty = .error (.manifest line fault) ∧
      Manifest.Blames (Manifest.codeOf faulty).tokens k ∧ Precedes before faulty.toList k ∧
      line.toNat ≠ 1 + newlines before) ∧
    (∃ m, Manifest.parse commented = .ok m ∧ ∃ e ∈ m.entries, ∃ k before,
      Manifest.BeginsAt e ((Manifest.codeOf commented).onward k) ∧ Precedes before commented.toList k ∧
      e.line.toNat ≠ 1 + newlines before) ∧
    ∃ number fault source k line before,
      (Preprocessor.process {} {} [] (.text unmatched ⟨"main.hlsl"⟩)).result =
        .error (.directive ⟨"main.hlsl"⟩ number fault) ∧
      (Preprocessor.Root.text unmatched ⟨"main.hlsl"⟩).Holds {} ⟨"main.hlsl"⟩ source ∧ number = k + 1 ∧
      Directive.Follows before source.toList k line ∧ number ≠ 1 + newlines before := by
  refine ⟨?_, ?_, ?_⟩
  · obtain ⟨line, fault, k, before, he, hblames, -, hbefore, hline⟩ := Manifest.exists_line_of_error parse_faulty
    have hblocks : newlines (Comment.blocks before) = 1 :=
      hbefore.newlines_blocks (by decide +kernel) (by decide +kernel)
    have hlines : newlines before ≤ 2 := hbefore.newlines_le
    have hexact := hline.exact (Nat.lt_of_le_of_lt (Nat.succ_le_succ hlines) (by decide))
    refine ⟨line, fault, k, before, parse_faulty.trans (congrArg Except.error he), hblames, hbefore, ?_⟩
    omega
  · obtain ⟨k, before, hbegins, hbefore, hline⟩ := Manifest.exists_line_of_mem parse_commented List.mem_cons_self
    have hblocks : newlines (Comment.blocks before) = 1 :=
      hbefore.newlines_blocks (by decide +kernel) (by decide +kernel)
    have hlines : newlines before ≤ 1 := hbefore.newlines_le
    have hexact := hline.exact (Nat.lt_of_le_of_lt (Nat.succ_le_succ hlines) (by decide))
    refine ⟨_, parse_commented, _, List.mem_cons_self, k, before, hbegins, hbefore, ?_⟩
    omega
  · have hfollows : Directive.Follows "/*\n*/\n".toList unmatched.toList 1 ⟨"#else".toList, ['\n']⟩ :=
      ⟨by decide +kernel, by decide +kernel, by decide +kernel, [], rfl, by decide +kernel⟩
    exact ⟨2, _, unmatched, 1, _, _, process_unmatched, .inl rfl, rfl, hfollows, by decide⟩

end ShaderBuild
