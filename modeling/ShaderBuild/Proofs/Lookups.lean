import Mathlib.Data.List.Find
import ShaderBuild.Proofs.Dependencies
import ShaderBuild.Proofs.Grounded
/-!
# What flattening looks up

Whether a file is flattened to the same after something was added depends only on the paths at which files
are looked up: that of the file, and those that the lines of the files found there refer to (`MayLookUp`). If
nothing was added at their places (`Undisturbed`), a run goes the same way, also where it fails (`run_eq`).
-/

namespace ShaderBuild.Preprocessor

/-- The paths at which the file that a directive in `file` refers to is looked up. -/
def candidates (c : Preprocessor) (file : Path) : Reference → List Path
  | .relative p => [(file.parent?.getD ⟨""⟩).join p]
  | .search p => c.includeDirs.map (·.join p)

/-- The paths that may be looked up when a file is flattened: its own, and those to which the lines of the files
that are found refer, be they visible or not. -/
inductive MayLookUp (c : Preprocessor) (fs : FileSystem) (root : Path) : Path → Prop
  | root : MayLookUp c fs root root
  | reference {p q : Path} {place : Location} {text : String} {line : Line} {reference : Reference}
      (found : MayLookUp c fs root p) (leads : fs.trace p = .ok place) (holds : fs.readTextAt place = .ok text)
      (mem : line ∈ c.linesOf text) (asks : Directive.ofLine? line.body = some (.includeFile reference))
      (candidate : q ∈ c.candidates place.path reference) : MayLookUp c fs root q

/-- Something was added to the files, but nothing where files may be looked up. -/
structure Undisturbed (c : Preprocessor) (fs : FileSystem) (root : Path) (fs' : FileSystem) : Prop where
  grows : fs.Grows fs'
  tree : fs.IsTree
  grounded : ∀ p, c.MayLookUp fs root p → fs.Grounded p
  content : ∀ p, c.MayLookUp fs root p → fs'.content? (fs.place p) = fs.content? (fs.place p)

/-- All that some lines of a file refer to may be looked up. -/
def Covers (c : Preprocessor) (fs : FileSystem) (root file : Path) (lines : List Line) : Prop :=
  ∀ line ∈ lines, ∀ reference, Directive.ofLine? line.body = some (.includeFile reference) →
    ∀ p ∈ c.candidates file reference, c.MayLookUp fs root p

theorem Covers.tail {c : Preprocessor} {fs : FileSystem} {root file : Path} {line : Line} {rest : List Line}
    (h : c.Covers fs root file (line :: rest)) : c.Covers fs root file rest :=
  fun line hl => h line (List.mem_cons_of_mem _ hl)

section Found
variable {c : Preprocessor} {fs fs' : FileSystem} {file p : Path} {reference : Reference}

/-- What is found is a file that was looked up. -/
theorem mem_candidates_of_find (h : c.find fs file reference = .ok p) :
    p ∈ c.candidates file reference ∧ fs.isFile p = true := by
  cases reference with
  | relative q =>
    simp only [find] at h
    split at h
    · next hf =>
      obtain rfl := Except.ok.inj h
      exact ⟨List.mem_singleton_self _, hf⟩
    · cases h
  | search q =>
    simp only [find] at h
    split at h
    · next hf =>
      obtain rfl := Except.ok.inj h
      exact ⟨List.mem_of_find?_eq_some hf, List.find?_some hf⟩
    · cases h

theorem find_congr (h : ∀ p ∈ c.candidates file reference, fs'.isFile p = fs.isFile p) :
    c.find fs' file reference = c.find fs file reference := by
  cases reference with
  | relative q => simp only [find, h _ (List.mem_singleton_self _)]
  | search q =>
    have hs : (c.includeDirs.map (·.join q)).find? fs'.isFile = (c.includeDirs.map (·.join q)).find? fs.isFile :=
      List.find?_congr h
    simp only [find, hs]

theorem readTextAt_congr {place : Location} {content : Bytes} (h : fs.content? place = some content)
    (h' : fs'.content? place = some content) : fs'.readTextAt place = fs.readTextAt place := by
  simp only [FileSystem.readTextAt, FileSystem.readAt, FileSystem.node?_of_content? h,
    FileSystem.node?_of_content? h']

/-- The lines of a file that was opened refer to what may be looked up. -/
theorem covers_of_openFile {root : Path} (hp : c.MayLookUp fs root p) {stack : List Location} {place : Location}
    {text : String} (ho : openFile fs stack p = .ok (place, text)) : c.Covers fs root place.path (c.linesOf text) :=
  fun _ hl _ hr _ hq => .reference hp (trace_of_openFile ho) (openFile_eq_ok ho).2 hl hr hq

theorem covers_of_enter {root : Path} (hc : ∀ p ∈ c.candidates file reference, c.MayLookUp fs root p)
    {stack : List Location} {place : Location} {text : String}
    (he : c.enter fs file stack reference = .ok (place, text)) : c.Covers fs root place.path (c.linesOf text) := by
  simp only [enter, bind, Except.bind] at he
  cases hf : c.find fs file reference with
  | error e =>
    rw [hf] at he
    cases he
  | ok p =>
    rw [hf] at he
    exact covers_of_openFile (hc p (mem_candidates_of_find hf).1) he

/-- If the file refers to nothing, only its own path is looked up. -/
theorem eq_of_mayLookUp {root : Path} (h : ∀ place text, fs.trace root = .ok place → fs.readTextAt place = .ok text →
      ∀ line ∈ c.linesOf text, ∀ reference, Directive.ofLine? line.body ≠ some (.includeFile reference))
    (hp : c.MayLookUp fs root p) : p = root := by
  induction hp with
  | root => rfl
  | reference _ leads holds mem asks _ ih =>
    rw [ih] at leads
    exact absurd asks (h _ _ leads holds _ mem _)

end Found

namespace Undisturbed
variable {c : Preprocessor} {fs fs' : FileSystem} {root : Path} (h : c.Undisturbed fs root fs')
include h

theorem isFile {p : Path} (hp : c.MayLookUp fs root p) : fs'.isFile p = fs.isFile p :=
  h.grows.isFile h.tree (h.grounded p hp) (h.content p hp)

/-- A file that may be looked up is opened, or not, as before. -/
theorem openFile {p : Path} (hp : c.MayLookUp fs root p) (hf : fs.isFile p = true) (stack : List Location) :
    openFile fs' stack p = openFile fs stack p := by
  obtain ⟨hr, hs⟩ := FileSystem.isFile_iff.1 hf
  obtain ⟨content, hcontent⟩ := Option.isSome_iff_exists.1 hs
  have hr' := h.grows.toExtends.resolve hr
  simp only [Preprocessor.openFile, FileSystem.trace_of_resolve hr, FileSystem.trace_of_resolve hr',
    readTextAt_congr hcontent ((h.content p hp).trans hcontent)]

theorem enter {file : Path} {reference : Reference} (hc : ∀ p ∈ c.candidates file reference, c.MayLookUp fs root p)
    (stack : List Location) : c.enter fs' file stack reference = c.enter fs file stack reference := by
  simp only [Preprocessor.enter, find_congr fun p hp => h.isFile (hc p hp), bind, Except.bind]
  cases hf : c.find fs file reference with
  | error e => rfl
  | ok p =>
    obtain ⟨hp, hfile⟩ := mem_candidates_of_find hf
    exact h.openFile (hc p hp) hfile stack

/-- A run goes the same way. -/
theorem run (file : Path) (stack : List Location) (number : Nat) (conditions : ConditionStack) (lines : List Line)
    (s : State) (hc : c.Covers fs root file lines) :
    c.run fs' file stack number conditions lines s = c.run fs file stack number conditions lines s := by
  fun_induction c.run fs file stack number conditions lines s with
  | case1 file stack number conditions s => rw [Preprocessor.run]
  | case2 file stack number conditions s line rest fault ha => rw [run_cons, ha]
  | case3 file stack number conditions s line rest conditions' t ha ih =>
    rw [run_proceed c fs' file stack ha]
    exact ih hc.tail
  | case4 file stack number conditions s line rest reference ha e he =>
    have hp := hc line List.mem_cons_self reference (act_eq_enter.1 ha).2
    simp only [run_cons, ha, h.enter hp, he]
  | case5 file stack number conditions s line rest reference ha place text he f hf ih =>
    have hp := hc line List.mem_cons_self reference (act_eq_enter.1 ha).2
    simp only [run_cons, ha, h.enter hp, he, ih (covers_of_enter hp he), hf]
  | case6 file stack number conditions s line rest reference ha place text he t ht ih ihr =>
    have hp := hc line List.mem_cons_self reference (act_eq_enter.1 ha).2
    simp only [run_cons, ha, h.enter hp, he, ih (covers_of_enter hp he), ht]
    exact ihr hc.tail

/-- A file that is found is flattened to the same, or fails in the same way. -/
theorem processFile (hf : fs.isFile root = true) (macros : List Macro) :
    c.processFile fs' root macros = c.processFile fs root macros := by
  simp only [Preprocessor.processFile, h.openFile .root hf]
  cases ho : Preprocessor.openFile fs [] root with
  | error e => rfl
  | ok found =>
    obtain ⟨place, text⟩ := found
    simp only [h.run _ _ _ _ _ _ (covers_of_openFile .root ho)]

end Undisturbed

end ShaderBuild.Preprocessor
