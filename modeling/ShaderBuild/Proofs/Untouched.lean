import ShaderBuild.Backend.Command
import ShaderBuild.Proofs.Independence
/-!
# What a build leaves alone

A build writes files: those that it passes to a compiler, the entries of its cache, objects and reports. Every
other place keeps its content (`SameOn`), as long as the compiler leaves it alone. So a source that is flattened
twice in the course of a build is flattened to the same both times, whatever was written meanwhile
(`flatten_again`).

Unlike in `Independence`, nothing is said of sources that cannot be flattened: those may be found once a
directory was created.
-/

namespace ShaderBuild

/-! ## Writing files elsewhere -/

namespace FileSystem

/-- The files changed, but not at these places. -/
structure SameOn (P : Location → Prop) (fs fs' : FileSystem) : Prop where
  workDir : fs'.workDir = fs.workDir
  content : ∀ l, P l → fs'.content? l = fs.content? l

theorem place_of_workDir {fs fs' : FileSystem} (h : fs'.workDir = fs.workDir) (p : Path) :
    fs'.place p = fs.place p := by
  simp only [place, origin, h]

/-- A path that is followed, however long it is, leads to its place. -/
theorem trace_eq {fs : FileSystem} {p : Path} {l : Location} (h : fs.trace p = .ok l) : l = fs.place p := by
  simp only [trace] at h
  split at h
  · cases h
  · split at h
    · cases h
    · exact walk_eq h

/-- What is read is the content of the place. -/
theorem content?_of_read {fs : FileSystem} {p : Path} {content : Bytes} (h : fs.read p = .ok content) :
    fs.content? (fs.place p) = some content := by
  simp only [read, bind, Except.bind] at h
  split at h
  · cases h
  · next l hl =>
    rw [← resolve_eq hl, ← Cache.toOption_readAt, h]
    rfl

namespace SameOn
variable {P : Location → Prop} {fs fs' fs'' : FileSystem} {p : Path} {content : Bytes}

theorem refl (P : Location → Prop) (fs : FileSystem) : fs.SameOn P fs := ⟨rfl, fun _ _ => rfl⟩

theorem trans (h : fs.SameOn P fs') (h' : fs'.SameOn P fs'') : fs.SameOn P fs'' :=
  ⟨h'.workDir.trans h.workDir, fun l hl => (h'.content l hl).trans (h.content l hl)⟩

theorem place (h : fs.SameOn P fs') (p : Path) : fs'.place p = fs.place p := place_of_workDir h.workDir p

theorem createDirectories (P : Location → Prop) (fs : FileSystem) (p : Path) :
    fs.SameOn P (fs.createDirectories p).2 := by
  obtain ⟨hext, hcontent⟩ := createDirectories_spec fs p
  exact ⟨hext.workDir, fun l _ => hcontent l⟩

/-- The content of one place changed, and it is not one of these. -/
theorem of_changed {content? : Option Bytes} {place : Location} (hw : fs'.workDir = fs.workDir)
    (hc : ∀ l, fs'.content? l = if l = place then content? else fs.content? l) (hp : ¬ P place) : fs.SameOn P fs' where
  workDir := hw
  content l hl := by
    refine (hc l).trans (if_neg ?_)
    rintro rfl
    exact hp hl

theorem write (h : fs.write p content = .ok fs') (hp : ¬ P (fs.place p)) : fs.SameOn P fs' := by
  obtain ⟨hext, -, -, hcontent⟩ := write_spec h
  exact .of_changed hext.workDir hcontent hp

theorem writeCreating (fs : FileSystem) (content : Bytes) (hp : ¬ P (fs.place p)) :
    fs.SameOn P (fs.writeCreating p content).2 := by
  obtain ⟨hext, hcontent | ⟨-, hcontent⟩⟩ := writeCreating_spec fs p content
  · exact ⟨hext.workDir, fun l _ => hcontent l⟩
  · exact .of_changed hext.workDir hcontent hp

theorem removeFile (h : fs.removeFile p = .ok fs') (hp : ¬ P (fs.place p)) : fs.SameOn P fs' := by
  obtain ⟨hworkDir, hcontent, -⟩ := removeFile_spec h
  exact .of_changed hworkDir hcontent hp

end SameOn

end FileSystem

open FileSystem (SameOn)

/-- The program of a command leaves some places alone when it is run in a directory, whatever it is to compile. -/
def Command.LeavesAlone (launch : Launcher) (c : Command) (workDir : Location) (P : Location → Prop) : Prop :=
  ∀ (r : Request) (fs : FileSystem), fs.workDir = workDir →
    fs.SameOn P (launch c.program (c.arguments (c.inputPath r) (c.outputPath r) r.entryPoint r.stage) fs).2

namespace Command
variable {σ : Type} {launch : Launcher} {c : Command} {P : Location → Prop}

theorem stem_noSlash (r : Request) : '/' ∉ (stem r).toList := by
  intro h
  rw [stem, String.toList_ofList] at h
  exact (Digest.not_mem_hex _).2 (List.mem_of_mem_take h)

theorem sameOn_cleanUp {s : Session σ} {p : Path} (hp : ¬ P (s.files.place p)) :
    s.files.SameOn P (cleanUp p s).files := by
  simp only [cleanUp]
  split
  · next hr => exact .removeFile hr hp
  · exact .refl P _
  · exact .refl P _

/-- Running the program changes what the program changes, and the file that is passed to it. -/
theorem sameOn_run {fs : FileSystem} (hl : c.LeavesAlone launch fs.workDir P) (r : Request)
    (hi : ¬ P (fs.place (c.inputPath r))) : fs.SameOn P (run launch c r fs).2 := by
  have hdir := SameOn.createDirectories P fs c.workDir
  simp only [run]
  split
  · next hc =>
    rw [hc] at hdir
    exact hdir
  · next fs₁ hc =>
    rw [hc] at hdir
    dsimp only at hdir
    split
    · exact hdir
    · next fs₂ hw =>
      have hwritten : fs.SameOn P fs₂ := hdir.trans (.write hw (by rwa [hdir.place]))
      have hran := hwritten.trans (hl r fs₂ hwritten.workDir)
      split
      · next he =>
        rw [he] at hran
        exact hran
      · next he =>
        rw [he] at hran
        split <;> exact hran

/-- A compiler leaves alone what its program leaves alone, apart from the two files of the request. -/
theorem sameOn_compile {s : Session σ} (hl : c.LeavesAlone launch s.files.workDir P) (r : Request)
    (hi : ¬ P (s.files.place (c.inputPath r))) (ho : ¬ P (s.files.place (c.outputPath r))) :
    s.files.SameOn P ((backend launch c).compile r s).2.files := by
  have hran := sameOn_run hl r hi
  simp only [backend]
  generalize run launch c r s.files = ran at hran ⊢
  obtain ⟨result, files⟩ := ran
  dsimp only at hran ⊢
  have hinput : ¬ P (files.place (c.inputPath r)) := fun h => hi (hran.place (c.inputPath r) ▸ h)
  have hfirst : s.files.SameOn P (cleanUp (c.inputPath r) { s with files }).files :=
    hran.trans (sameOn_cleanUp (s := { s with files }) hinput)
  exact hfirst.trans (sameOn_cleanUp fun h => ho (hfirst.place (c.outputPath r) ▸ h))

end Command

/-! ## Compiling shaders -/

namespace Engine
variable {σ : Type}

/-- Compiling stages changes nothing at some places: the backend does not, and no entry of the cache is there. -/
structure Spares (e : Engine σ) (fs : FileSystem) (P : Location → Prop) : Prop where
  backend : ∀ (r : Request) (s : Session σ), s.files.workDir = fs.workDir →
    s.files.SameOn P (e.backend.compile r s).2.files
  entry : ∀ d, ¬ P (e.cache.place fs d)

variable {e : Engine σ} {fs : FileSystem} {P : Location → Prop} (h : e.Spares fs P)
include h

theorem Spares.mono {Q : Location → Prop} (hq : ∀ l, Q l → P l) : e.Spares fs Q where
  backend r s hw := ⟨(h.backend r s hw).workDir, fun l hl => (h.backend r s hw).content l (hq l hl)⟩
  entry d hd := h.entry d (hq _ hd)

theorem Spares.sameOn_store {fs' : FileSystem} (hw : fs'.workDir = fs.workDir) (d : Digest) (bytecode : Bytes) :
    fs'.SameOn P (e.cache.store fs' d bytecode).2 := by
  have hdir := SameOn.createDirectories P fs' e.cache.dir
  simp only [Cache.store]
  split
  · next hc =>
    rw [hc] at hdir
    exact hdir
  · next hc =>
    rw [hc] at hdir
    dsimp only at hdir
    split
    · next hs =>
      refine hdir.trans (.write hs ?_)
      rw [hdir.place, FileSystem.place_of_workDir hw]
      exact h.entry d
    · exact hdir

theorem Spares.sameOn_compileStage (stage : Stage) (source : StageSource) {s : Session σ}
    (hw : s.files.workDir = fs.workDir) : s.files.SameOn P (e.compileStage stage source s).2.files := by
  rw [compileStage_run]
  dsimp only
  cases (e.flatten s.files source).result with
  | error error => exact .refl P _
  | ok f =>
    dsimp only
    split
    · exact .refl P _
    · have hb := h.backend ⟨f.text, source.entryPoint, stage⟩
        (s.warn (e.flatten s.files source).warnings) hw
      generalize e.backend.compile _ _ = ran at hb ⊢
      obtain ⟨result, t⟩ := ran
      dsimp only at hb
      cases result with
      | error text => exact hb
      | ok bytecode =>
        have hs := h.sameOn_store (hb.workDir.trans hw) (Digest.ofSource source.entryPoint f.text) bytecode
        dsimp only
        generalize e.cache.store _ _ _ = stored at hs ⊢
        obtain ⟨result, files⟩ := stored
        cases result <;> exact hb.trans hs

theorem Spares.sameOn_stageOutcome (name : String) (unit : ShaderUnit) (stage : Stage) {s : Session σ}
    (hw : s.files.workDir = fs.workDir) : s.files.SameOn P (e.stageOutcome name unit stage s).2.files := by
  rw [files_stageOutcome]
  split
  · exact .refl P _
  · exact h.sameOn_compileStage stage _ hw

/-- Whatever becomes of some stages, the places keep their contents. -/
theorem Spares.sameOn_after (name : String) (unit : ShaderUnit) (stages : List Stage) {s : Session σ}
    (hw : s.files.workDir = fs.workDir) : s.files.SameOn P (e.after name unit stages s).files := by
  induction stages generalizing s with
  | nil => exact .refl P _
  | cons stage stages ih =>
    have hstage := h.sameOn_stageOutcome name unit stage hw
    exact hstage.trans (ih (hstage.workDir.trans hw))

omit h in
/-- The digest and the dependencies of a stage that was compiled are those of its flattened source. -/
theorem exists_flattened_of_compileStage {stage : Stage} {source : StageSource} {s : Session σ} {c : CompiledStage}
    (hc : (e.compileStage stage source s).1 = .ok c) :
    ∃ f, (e.flatten s.files source).result = .ok f ∧ c.digest = Digest.ofSource source.entryPoint f.text ∧
      c.dependencies = f.dependencies := by
  rw [compileStage_run] at hc
  dsimp only at hc
  cases hf : (e.flatten s.files source).result with
  | error error =>
    rw [hf] at hc
    cases hc
  | ok f =>
    rw [hf] at hc
    dsimp only at hc
    split at hc
    · obtain rfl := Except.ok.inj hc
      exact ⟨f, rfl, rfl, rfl⟩
    · split at hc
      · cases hc
      · split at hc
        · cases hc
        · obtain rfl := Except.ok.inj hc
          exact ⟨f, rfl, rfl, rfl⟩

end Engine

/-! ## Flattening again -/

namespace Preprocessor
variable {c : Preprocessor} {fs fs' : FileSystem}

section OneDirectory
variable {dir : Path} (hd : c.includeDirs = [dir]) (hw : fs'.workDir = fs.workDir)
include hd

/-- With one directory to search, at most one file is meant. -/
theorem find_unique {file p p' : Path} {reference : Reference} (hp : c.find fs file reference = .ok p)
    (hp' : c.find fs' file reference = .ok p') : p' = p := by
  have hm := (mem_candidates_of_find hp).1
  have hm' := (mem_candidates_of_find hp').1
  cases reference with
  | relative q => rw [List.mem_singleton.1 hm, List.mem_singleton.1 hm']
  | search q =>
    rw [candidates, hd] at hm hm'
    rw [List.mem_singleton.1 hm, List.mem_singleton.1 hm']

omit hd in
include hw in
/-- The same file is opened, with the same text if it was not changed. -/
theorem openFile_again {stack : List Location} {p : Path} {place place' : Location} {text text' : String}
    (ho : openFile fs stack p = .ok (place, text)) (ho' : openFile fs' stack p = .ok (place', text'))
    (hc : fs'.content? place = fs.content? place) : place' = place ∧ text' = text := by
  have hplace : place' = place := by
    rw [FileSystem.trace_eq (trace_of_openFile ho), FileSystem.trace_eq (trace_of_openFile ho'),
      FileSystem.place_of_workDir hw]
  obtain ⟨content, hcontent, htext⟩ := readTextAt_eq_ok.1 (openFile_eq_ok ho).2
  obtain ⟨content', hcontent', htext'⟩ := readTextAt_eq_ok.1 (openFile_eq_ok ho').2
  rw [hplace, hc, hcontent] at hcontent'
  obtain rfl := Option.some.inj hcontent'
  exact ⟨hplace, Except.ok.inj (htext'.symm.trans htext)⟩

include hw

theorem enter_again {file : Path} {stack : List Location} {reference : Reference} {place place' : Location}
    {text text' : String} (he : c.enter fs file stack reference = .ok (place, text))
    (he' : c.enter fs' file stack reference = .ok (place', text')) (hc : fs'.content? place = fs.content? place) :
    place' = place ∧ text' = text := by
  simp only [enter, bind, Except.bind] at he he'
  split at he
  · cases he
  · next p hp =>
    split at he'
    · cases he'
    · next p' hp' =>
      obtain rfl := find_unique hd hp hp'
      exact openFile_again hw he he' hc

/-- A run that succeeds twice comes to the same, if what it notes was not changed. -/
theorem run_again (file : Path) (stack : List Location) (number : Nat) (conditions : ConditionStack)
    (lines : List Line) (s : State) : ∀ t t' : State, c.run fs file stack number conditions lines s = .ok t →
      c.run fs' file stack number conditions lines s = .ok t' →
      (∀ l ∈ t.dependencies, fs'.content? l = fs.content? l) → t' = t := by
  fun_induction c.run fs file stack number conditions lines s with
  | case1 file stack number conditions s =>
    intro t t' ht ht' _
    rw [run] at ht'
    rw [← Except.ok.inj ht, ← Except.ok.inj ht']
  | case2 => intro t t' ht; cases ht
  | case3 file stack number conditions s line rest conditions' u ha ih =>
    intro t t' ht ht' hc
    rw [run_proceed c fs' file stack ha] at ht'
    exact ih t t' ht ht' hc
  | case4 => intro t t' ht; cases ht
  | case5 => intro t t' ht; cases ht
  | case6 file stack number conditions s line rest reference ha place text he u hu ih ihr =>
    intro t t' ht ht' hc
    -- what the included file notes is noted in the end
    obtain ⟨hin, -⟩ := run_of_sameTree (.refl fs) _ _ _ _ _ _ u hu
    obtain ⟨hout, -⟩ := run_of_sameTree (.refl fs) _ _ _ _ _ _ t ht
    rw [dependencies_endLine] at hout
    have hplace : place ∈ t.dependencies := hout (hin (mem_depend.2 (.inl rfl)))
    rw [run_cons, ha] at ht'
    dsimp only at ht'
    split at ht'
    · cases ht'
    · next place' text' he' =>
      obtain ⟨rfl, rfl⟩ := enter_again hd hw he he' (hc place hplace)
      split at ht'
      · cases ht'
      · next u' hu' =>
        obtain rfl := ih u u' hu hu' fun l hl => hc l (hout hl)
        exact ihr t t' ht ht' hc

theorem processFile_again {p : Path} {macros : List Macro} {f f' : Flattened}
    (hf : (c.processFile fs p macros).result = .ok f) (hf' : (c.processFile fs' p macros).result = .ok f')
    (hc : ∀ l ∈ f.dependencies, fs'.content? l = fs.content? l) : f' = f := by
  simp only [processFile] at hf hf'
  split at hf
  · cases hf
  · next place text ho =>
    split at hf'
    · cases hf'
    · next place' text' ho' =>
      obtain ⟨t, ht, rfl⟩ := finish_eq_ok hf
      obtain ⟨t', ht', rfl⟩ := finish_eq_ok hf'
      obtain ⟨hnoted, -⟩ := run_of_sameTree (.refl fs) _ _ _ _ _ _ t ht
      have hplace : place ∈ t.dependencies := hnoted (mem_depend.2 (.inl rfl))
      obtain ⟨rfl, rfl⟩ := openFile_again hw ho ho' (hc place hplace)
      rw [run_again hd hw _ _ _ _ _ _ t t' ht ht' hc]

end OneDirectory

end Preprocessor

namespace Engine
variable {σ : Type}

/-- A source that is flattened twice is flattened to the same, if the files that it came from were not changed. -/
theorem flatten_again (e : Engine σ) {fs fs' : FileSystem} (hw : fs'.workDir = fs.workDir) {source : StageSource}
    {f f' : Flattened} (hf : (e.flatten fs source).result = .ok f) (hf' : (e.flatten fs' source).result = .ok f')
    (hc : ∀ l ∈ f.dependencies, fs'.content? l = fs.content? l) : f' = f := by
  simp only [flatten] at hf hf'
  split at hf
  · split at hf'
    · have hdirs : e.preprocessor.includeDirs = [e.settings.sourceDir] := rfl
      exact Preprocessor.processFile_again hdirs hw hf hf' hc
    · cases hf'
  · cases hf

end Engine

end ShaderBuild
