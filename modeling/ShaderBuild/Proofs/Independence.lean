import ShaderBuild.Proofs.Lookups
import ShaderBuild.Proofs.Progress
import ShaderBuild.Proofs.Reports
/-!
# Stages do not influence each other

A stage leaves behind nothing but what storing its bytecode leaves behind, which is below the output directory
and does not change how bytecode is stored for another digest. So if nothing that the stages may look up is
there, and the sources that can be flattened have different digests, then every stage is compiled as it would
be on its own (`stages_are_independent`).

One more thing is asked for: that no path goes up from a place where there is nothing. Storing bytecode
creates directories, and such a path may lead to a file once they are there
(`found_through_created_directories`).
-/

namespace ShaderBuild

/-- The backend answers by what it is asked alone, and changes no files. -/
def Backend.Answers {σ : Type} (b : Backend σ) (answer : Request → Except String Bytes) : Prop :=
  ∀ r s, (b.compile r s).1 = answer r ∧ (b.compile r s).2.files = s.files

/-- A place below a directory. -/
def Location.Below (l dir : Location) : Prop := dir.names <+: l.names ∧ l ≠ dir

instance (l dir : Location) : Decidable (l.Below dir) := inferInstanceAs (Decidable (_ ∧ _))

theorem Location.below_child (dir : Location) (name : String) : (dir.child name).Below dir :=
  ⟨List.prefix_append _ _, fun h => by simpa [Location.child] using congrArg (·.names.length) h⟩

theorem Location.Below.child {l dir : Location} (h : l.Below dir) (name : String) : (l.child name).Below dir := by
  refine ⟨h.1.trans (List.prefix_append _ _), ?_⟩
  rintro rfl
  have hlength := h.1.length_le
  simp only [Location.child, List.length_append, List.length_singleton] at hlength
  omega

/-! ## The directory of a cache -/

namespace Settings

theorem mem_toDigits {n : Nat} {c : Char} (h : c ∈ Nat.toDigits 16 n) : ∃ m, c = Nat.digitChar m := by
  induction n using Nat.strongRecOn with
  | ind n ih =>
    rcases Nat.lt_or_ge n 16 with hn | hn
    · rw [Nat.toDigits_of_lt_base hn, List.mem_singleton] at h
      exact ⟨n, h⟩
    · rw [Nat.toDigits_of_base_le (by decide) hn, List.mem_append, List.mem_singleton] at h
      rcases h with h | h
      · exact ih _ (by omega) h
      · exact ⟨_, h⟩

/-- The name of the directory of a backend. -/
theorem hex_named (n : Nat) : '/' ∉ (hex n).toList ∧
    Path.isIdle (hex n).toList = false ∧ (hex n).toList ≠ ['.', '.'] := by
  have hd : ∀ c ∈ (hex n).toList, c ≠ '.' ∧ c ≠ '/' := by
    intro c hc
    rw [hex, String.toList_ofList] at hc
    obtain ⟨m, rfl⟩ := mem_toDigits hc
    exact Bytes.digitChar_ne m
  refine ⟨fun h => (hd _ h).2 rfl, Path.named_of_not_mem ?_ fun h => (hd _ h).1 rfl⟩
  rw [hex, String.toList_ofList]
  exact Nat.toDigits_ne_nil

variable (s : Settings) (fs : FileSystem) (backend : Nat)

theorem lastPart_cacheDir : (s.cacheDir backend).lastPart ≠ [] := by
  rw [cacheDir, Path.lastPart_join _ (hex_named backend).1]
  intro he
  have h := (hex_named backend).2.1
  rw [he] at h
  cases h

theorem place_cacheDir :
    fs.place (s.cacheDir backend) = ((fs.place s.outputDir).child cacheName).child (hex backend) := by
  rw [cacheDir, FileSystem.place_join _ _ (hex_named backend).1 (hex_named backend).2,
    FileSystem.place_join _ _ (by decide) (by decide)]

variable {s fs} in
theorem grounded_cacheDir (h : fs.Grounded s.outputDir) : fs.Grounded (s.cacheDir backend) :=
  (h.join _ _ (by decide) (by decide)).join _ _ (hex_named backend).1 (hex_named backend).2

end Settings

namespace Engine

variable {σ : Type}

/-- The entries of the cache are below the output directory. -/
theorem below_place (e : Engine σ) (fs : FileSystem) (d : Digest) :
    (e.cache.place fs d).Below (fs.place e.settings.outputDir) := by
  rw [Cache.place, Cache.path, FileSystem.place_join _ _ (Digest.not_mem_hex d).2 (Digest.hex_named d), cache,
    Settings.place_cacheDir]
  exact ((Location.below_child _ _).child _).child _

section Separation
variable (e : Engine σ)

/-- Where the source of a stage is looked up. -/
def sourcePath (source : StageSource) : Path := e.settings.sourceDir.join source.file

/-- The digest of a stage that there is, if its source can be flattened. -/
def digestOf? (unit : ShaderUnit) (fs : FileSystem) (stage : Stage) : Option Digest :=
  if (unit.get stage).isAbsent then none
  else
    match (e.flatten fs (unit.get stage)).result with
    | .ok f => some (Digest.ofSource (unit.get stage).entryPoint f.text)
    | .error _ => none

/-- The stages of a shader look up nothing below the output directory, and those that can be flattened have
digests of their own. -/
structure Separate (unit : ShaderUnit) (fs : FileSystem) : Prop where
  tree : fs.IsTree
  outside : ∀ stage, (unit.get stage).isAbsent = false → ∀ p,
    e.preprocessor.MayLookUp fs (e.sourcePath (unit.get stage)) p →
    ¬ (fs.place p).Below (fs.place e.settings.outputDir)
  distinct : ∀ stage stage' d, e.digestOf? unit fs stage = some d → e.digestOf? unit fs stage' = some d →
    stage = stage'

/-- Besides, no path goes up from a place where there is nothing. -/
structure Independent (unit : ShaderUnit) (fs : FileSystem) : Prop extends e.Separate unit fs where
  output : fs.Grounded e.settings.outputDir
  grounded : ∀ stage, (unit.get stage).isAbsent = false → ∀ p,
    e.preprocessor.MayLookUp fs (e.sourcePath (unit.get stage)) p → fs.Grounded p

/-- Files with other contents, but not where the source of a stage may look something up. -/
structure Rewritten (source : StageSource) (fs fs' : FileSystem) : Prop where
  tree : fs.SameTree fs'
  content : ∀ p, e.preprocessor.MayLookUp fs (e.sourcePath source) p →
    fs'.content? (fs.place p) = fs.content? (fs.place p)

end Separation

/-! ## One stage after others -/

variable {e : Engine σ} {unit : ShaderUnit} {fs fs' : FileSystem} {D : Digest → Prop}

section Flattening
variable {source : StageSource}

theorem flatten_undisturbed (h : e.preprocessor.Undisturbed fs (e.sourcePath source) fs') :
    e.flatten fs' source = e.flatten fs source := by
  have hf := h.isFile .root
  rw [sourcePath] at h hf
  simp only [flatten]
  rw [hf]
  split
  · next hfile => exact h.processFile hfile _
  · rfl

/-- A source is flattened to the same, or fails in the same way, after bytecode was stored. -/
theorem flatten_progress (h : e.Independent unit fs) (hp : e.cache.Progress fs D fs') {stage : Stage}
    (hs : (unit.get stage).isAbsent = false) :
    e.flatten fs' (unit.get stage) = e.flatten fs (unit.get stage) := by
  refine flatten_undisturbed ⟨hp.grows, h.tree, h.grounded stage hs, fun p hl => hp.content fun d _ he => ?_⟩
  exact h.outside stage hs p hl (he ▸ e.below_place fs d)

end Flattening

variable {answer : Request → Except String Bytes}

variable (e answer) in
/-- What compiling a stage comes to if the backend answers like this: the result, and the files. -/
def compiled (stage : Stage) (source : StageSource) (fs : FileSystem) : Except Error CompiledStage × FileSystem :=
  match (e.flatten fs source).result with
  | .error error => (.error error, fs)
  | .ok f =>
    let digest := Digest.ofSource source.entryPoint f.text
    if e.cache.contains fs digest then (.ok ⟨digest, true, e.cache.path digest, f.dependencies⟩, fs)
    else
      match answer ⟨f.text, source.entryPoint, stage⟩ with
      | .error text => (.error (.backend stage source.entryPoint text), fs)
      | .ok bytecode =>
        let (result, fs) := e.cache.store fs digest bytecode
        (result.map fun path => ⟨digest, false, path, f.dependencies⟩, fs)

/-- Nothing of the session matters but its files. -/
theorem compileStage_answers (hb : e.backend.Answers answer) (stage : Stage) (source : StageSource) (s : Session σ) :
    ((e.compileStage stage source s).1, (e.compileStage stage source s).2.files) =
      e.compiled answer stage source s.files := by
  rw [compileStage_run]
  unfold compiled
  dsimp only
  cases (e.flatten s.files source).result with
  | error error => rfl
  | ok f =>
    dsimp only
    split
    · rfl
    · obtain ⟨hanswer, hfiles⟩ := hb ⟨f.text, source.entryPoint, stage⟩
        (s.warn (e.flatten s.files source).warnings)
      generalize e.backend.compile _ _ = ran at hanswer hfiles ⊢
      obtain ⟨result, t⟩ := ran
      dsimp only at hanswer hfiles
      rw [← hanswer]
      cases result with
      | error text =>
        dsimp only
        rw [hfiles, Session.files_warn]
      | ok bytecode =>
        dsimp only
        rw [hfiles, Session.files_warn]
        generalize e.cache.store _ _ _ = stored
        obtain ⟨result, files⟩ := stored
        cases result <;> rfl

theorem digestOf?_of_flatten {stage : Stage} {f : Flattened} {d : Digest} (hs : (unit.get stage).isAbsent = false)
    (hf : (e.flatten fs (unit.get stage)).result = .ok f)
    (hd : Digest.ofSource (unit.get stage).entryPoint f.text = d) : e.digestOf? unit fs stage = some d := by
  simp only [digestOf?, hs, hf, hd, if_neg Bool.false_ne_true]

theorem digestOf?_of_error {stage : Stage} {error : Error}
    (hf : (e.flatten fs (unit.get stage)).result = .error error) : e.digestOf? unit fs stage = none := by
  simp only [digestOf?, hf, ite_self]

variable (answer) in
/-- A stage that is compiled after others, with other digests, ends as if it were compiled first. -/
theorem compiled_progress (h : e.Independent unit fs) (hp : e.cache.Progress fs D fs') {stage : Stage}
    (hs : (unit.get stage).isAbsent = false) (hd : ∀ d, e.digestOf? unit fs stage = some d → ¬ D d) :
    (e.compiled answer stage (unit.get stage) fs').1 = (e.compiled answer stage (unit.get stage) fs).1 ∧
      e.cache.Progress fs (fun d => D d ∨ e.digestOf? unit fs stage = some d)
        (e.compiled answer stage (unit.get stage) fs').2 := by
  have hg : fs.Grounded e.cache.dir := Settings.grounded_cacheDir _ h.output
  have hlast : e.cache.dir.lastPart ≠ [] := Settings.lastPart_cacheDir _ _
  have hsame : e.cache.Progress fs (fun d => D d ∨ e.digestOf? unit fs stage = some d) fs' := hp.mono fun d => .inl
  unfold compiled
  simp only [flatten_progress h hp hs]
  cases hr : (e.flatten fs (unit.get stage)).result with
  | error error => exact ⟨rfl, hsame⟩
  | ok f =>
    have hdigest := digestOf?_of_flatten hs hr rfl
    have hnew := hd _ hdigest
    dsimp only
    rw [hp.contains h.tree hg hnew]
    split
    · exact ⟨rfl, hsame⟩
    · cases answer ⟨f.text, (unit.get stage).entryPoint, stage⟩ with
      | error text => exact ⟨rfl, hsame⟩
      | ok bytecode =>
        obtain ⟨hresult, hprogress⟩ := hp.store h.tree hlast hg hnew bytecode
        dsimp only
        rw [hresult]
        refine ⟨rfl, hprogress.mono fun d hd => hd.imp id ?_⟩
        rintro rfl
        exact hdigest

/-- The digests of some stages. -/
theorem not_digestOf?_of_not_mem (h : e.Independent unit fs) {stages : List Stage} {stage : Stage}
    (hn : stage ∉ stages) (d : Digest) (hd : e.digestOf? unit fs stage = some d) :
    ¬ ∃ other ∈ stages, e.digestOf? unit fs other = some d := by
  rintro ⟨other, hm, ho⟩
  obtain rfl := h.distinct stage other d hd ho
  exact hn hm

/-- After any stages, the files are what storing bytecode for their digests can have made of them. -/
theorem progress_after (name : String) (hb : e.backend.Answers answer) {s : Session σ} (h : e.Independent unit s.files)
    {stages : List Stage} (hn : stages.Nodup) :
    e.cache.Progress s.files (fun d => ∃ stage ∈ stages, e.digestOf? unit s.files stage = some d)
      (e.after name unit stages s).files := by
  induction stages using List.reverseRecOn with
  | nil => exact .unchanged
  | append_singleton stages stage ih =>
    obtain ⟨hstages, -, hdisjoint⟩ := List.nodup_append.1 hn
    have hnew : stage ∉ stages := fun hm => hdisjoint stage hm stage (List.mem_singleton_self _) rfl
    have hp := ih hstages
    have hafter : e.after name unit (stages ++ [stage]) s =
        (e.stageOutcome name unit stage (e.after name unit stages s)).2 :=
      after_append e name unit stages [stage] s
    rw [hafter, files_stageOutcome]
    cases hs : (unit.get stage).isAbsent with
    | true => exact hp.mono fun d ⟨other, hm, ho⟩ => ⟨other, List.mem_append_left _ hm, ho⟩
    | false =>
      have hstep := (compiled_progress answer h hp hs (not_digestOf?_of_not_mem h hnew)).2
      rw [← compileStage_answers hb] at hstep
      refine hstep.mono fun d hd => ?_
      rcases hd with ⟨other, hm, ho⟩ | ho
      · exact ⟨other, List.mem_append_left _ hm, ho⟩
      · exact ⟨stage, by simp, ho⟩

/-- A stage that is tried after others ends as it does on its own. -/
theorem compileStage_after (name : String) (hb : e.backend.Answers answer) {s : Session σ} (h : e.Independent unit s.files)
    {stages : List Stage} (hn : stages.Nodup) {stage : Stage} (hs : (unit.get stage).isAbsent = false)
    (hnew : stage ∉ stages) :
    (e.compileStage stage (unit.get stage) (e.after name unit stages s)).1 =
      (e.compileStage stage (unit.get stage) s).1 := by
  have hp := progress_after name hb h hn
  have hstep := (compiled_progress answer h hp hs (not_digestOf?_of_not_mem h hnew)).1
  rwa [← compileStage_answers hb, ← compileStage_answers hb] at hstep

variable (answer) in
/-- A stage ends in the same way whatever is in the files that it does not look up. -/
theorem compiled_rewritten (h : e.Independent unit fs) {stage : Stage} (hs : (unit.get stage).isAbsent = false)
    (hr : e.Rewritten (unit.get stage) fs fs') :
    (e.compiled answer stage (unit.get stage) fs').1 = (e.compiled answer stage (unit.get stage) fs).1 := by
  have hflat := flatten_undisturbed ⟨hr.tree.grows, h.tree, h.grounded stage hs, hr.content⟩
  unfold compiled
  simp only [hflat]
  cases (e.flatten fs (unit.get stage)).result with
  | error error => rfl
  | ok f =>
    dsimp only
    rw [Cache.contains, hr.tree.isFile, ← Cache.contains]
    split
    · rfl
    · cases answer ⟨f.text, (unit.get stage).entryPoint, stage⟩ with
      | error text => rfl
      | ok bytecode =>
        dsimp only
        rw [e.cache.store_of_sameTree hr.tree]

/-! ## Independence -/

theorem get_outcomes_of_independent (name : String) (hb : e.backend.Answers answer) {s : Session σ}
    (h : e.Independent unit s.files) {stage : Stage} (hs : (unit.get stage).isAbsent = false) :
    (e.tryStages name unit s).1.outcomes.get stage = .ofResult (e.compileStage stage (unit.get stage) s).1 := by
  have hall : Stage.all.Nodup := by decide
  rw [Stage.all_eq stage] at hall
  obtain ⟨hn, -, hdisjoint⟩ := List.nodup_append.1 hall
  have hnew : stage ∉ Stage.all.take stage.index := fun hm => hdisjoint stage hm stage List.mem_cons_self rfl
  rw [get_outcomes_tryStages, hs, if_neg Bool.false_ne_true, reached, compileStage_after name hb h hn hs hnew]

/-- Without one of its stages, a shader has no others than it had. -/
theorem Independent.without (h : e.Independent unit fs) (other : Stage) : e.Independent (unit.set other {}) fs := by
  have habsent : ({} : StageSource).isAbsent = true := by decide
  have hget : ∀ stage, ((unit.set other {}).get stage).isAbsent = false →
      (unit.set other {}).get stage = unit.get stage := by
    intro stage hs
    rw [PerStage.get_set] at hs ⊢
    split at hs
    · rw [habsent] at hs
      cases hs
    · next hne => rw [if_neg hne]
  have hdigest : ∀ stage d, e.digestOf? (unit.set other {}) fs stage = some d →
      e.digestOf? unit fs stage = some d := by
    intro stage d hd
    simp only [digestOf?] at hd ⊢
    cases hs : ((unit.set other {}).get stage).isAbsent with
    | true =>
      rw [hs] at hd
      cases hd
    | false => rwa [hget stage hs] at hd
  refine ⟨⟨h.tree, fun stage hs => ?_, fun stage stage' d hd hd' => ?_⟩, h.output, fun stage hs => ?_⟩
  · have hsame := hget stage hs
    rw [hsame] at hs ⊢
    exact h.outside stage hs
  · exact h.distinct stage stage' d (hdigest stage d hd) (hdigest stage' d hd')
  · have hsame := hget stage hs
    rw [hsame] at hs ⊢
    exact h.grounded stage hs

/-- Stages do not influence each other. If the stages of a shader look up nothing below the output directory,
no path that they look up goes up from nothing, and those that can be flattened have different digests, then
what is reported of each is what compiling it alone comes to, from the same files. So nothing changes for it
if another stage is taken away, or others are added or changed, be it in the unit or in the files that only
these look up. -/
theorem stages_are_independent (hb : e.backend.Answers answer) (name : String) (unit : ShaderUnit) (s : Session σ)
    (h : e.Independent unit s.files) (stage : Stage) (hs : (unit.get stage).isAbsent = false) :
    (e.tryStages name unit s).1.outcomes.get stage = .ofResult (e.compileStage stage (unit.get stage) s).1 ∧
      (∀ report t, e.compileShader name unit s = (.ok report, t) →
        report.outcomes.get stage = .ofResult (e.compileStage stage (unit.get stage) s).1) ∧
      (∀ other, other ≠ stage →
        (e.tryStages name (unit.set other {}) s).1.outcomes.get stage = (e.tryStages name unit s).1.outcomes.get stage) ∧
      ∀ (name' : String) (unit' : ShaderUnit) (t : Session σ), e.Independent unit' t.files →
        unit'.get stage = unit.get stage → e.Rewritten (unit.get stage) s.files t.files →
        (e.tryStages name' unit' t).1.outcomes.get stage = (e.tryStages name unit s).1.outcomes.get stage := by
  have halone := get_outcomes_of_independent name hb h hs
  refine ⟨halone, fun report t hr => ?_, fun other hne => ?_, fun name' unit' t h' hsame hr => ?_⟩
  · rw [compileShader_run] at hr
    dsimp only at hr
    split at hr
    · obtain rfl := Except.ok.inj (Prod.mk.inj hr).1
      exact halone
    · cases hr
  · have hsame : (unit.set other {}).get stage = unit.get stage := by
      rw [PerStage.get_set, if_neg (Ne.symm hne)]
    rw [halone, get_outcomes_of_independent name hb (h.without other) (by rw [hsame, hs]), hsame]
  · have hcompiled := compiled_rewritten answer h hs hr
    rw [← compileStage_answers hb, ← compileStage_answers hb] at hcompiled
    rw [halone, get_outcomes_of_independent name' hb h' (by rw [hsame, hs]), hsame, hcompiled]

/-! ## Sources that are found once there is an output directory -/

theorem echo_answers : echo.backend.Answers echoed := fun _ _ => ⟨rfl, rfl⟩

/-- The same source with another entry point. -/
def otherSource : StageSource := { echoSource with entryPoint := "other" }

/-- Its digest, computed once. -/
def otherDigest : Digest where
  bytes := [0xbf, 0x01, 0x8e, 0x0b, 0x3c, 0xe5, 0xa9, 0x1f, 0x3a, 0x4c, 0x48, 0xef, 0xce, 0xc1, 0x03, 0x33, 0xb2, 0x62,
    0x66, 0x62, 0xa2, 0x5f, 0xf0, 0x58, 0x9c, 0x2e, 0x1e, 0x3a, 0x10, 0xf4, 0x86, 0x26]
  length_bytes := rfl

theorem ofSource_other : Digest.ofSource "other" "x\n" = otherDigest := by decide +kernel

/-- A file of one line refers to nothing, and neither does one that is not there. -/
theorem eq_of_mayLookUp_echo {fs : FileSystem} {root p : Path}
    (h : ((fs.trace root).toOption.all fun place => (fs.readTextAt place).toOption = some "x\n") = true)
    (hp : echo.preprocessor.MayLookUp fs root p) : p = root := by
  refine Preprocessor.eq_of_mayLookUp (fun place text hl hr line hm reference => ?_) hp
  rw [hl] at h
  have htext : (fs.readTextAt place).toOption = some "x\n" := of_decide_eq_true h
  rw [hr] at htext
  obtain rfl := Option.some.inj htext
  rw [linesOf_echo, List.mem_singleton] at hm
  have hnone : Directive.ofLine? ['x'] = none := by decide
  simp [hm, hnone]

/-- A shader with two stages that can be flattened, and one whose source is missing. -/
def apartUnit : ShaderUnit := ⟨echoSource, { file := ⟨"gone.hlsl"⟩ }, {}, {}, otherSource⟩

theorem lookedUp_apartUnit {stage : Stage} (hs : (apartUnit.get stage).isAbsent = false) {p : Path}
    (hp : echo.preprocessor.MayLookUp echoStart.files (echo.sourcePath (apartUnit.get stage)) p) :
    p = ⟨"src/a.hlsl"⟩ ∨ p = ⟨"src/gone.hlsl"⟩ := by
  cases stage with
  | vertex => exact .inl (eq_of_mayLookUp_echo (by decide) hp)
  | hull => exact .inr (eq_of_mayLookUp_echo (by decide) hp)
  | domain => exact absurd hs (by decide)
  | geometry => exact absurd hs (by decide)
  | pixel => exact .inl (eq_of_mayLookUp_echo (by decide) hp)

/-- A file that is not there cannot be flattened. -/
theorem flatten_of_missing {source : StageSource} (h : fs.isFile (e.sourcePath source) = false) :
    e.flatten fs source = ⟨.error (.fileNotFound (e.sourcePath source)), []⟩ := by
  rw [sourcePath] at h ⊢
  simp only [flatten, h, if_neg Bool.false_ne_true]

theorem digestOf?_apartUnit :
    echo.digestOf? apartUnit echoStart.files .vertex = some echoDigest ∧
      echo.digestOf? apartUnit echoStart.files .hull = none ∧
      echo.digestOf? apartUnit echoStart.files .pixel = some otherDigest := by
  refine ⟨?_, ?_, ?_⟩
  · exact digestOf?_of_flatten (by decide) (congrArg Logged.result flatten_echoStart) ofSource_echo
  · exact digestOf?_of_error (congrArg Logged.result (flatten_of_missing (by decide)))
  · exact digestOf?_of_flatten (by decide) (congrArg Logged.result flatten_echoStart) ofSource_other

theorem independent_apartUnit : echo.Independent apartUnit echoStart.files where
  tree := .of_listed (by decide)
  outside stage hs p hp := by
    rcases lookedUp_apartUnit hs hp with rfl | rfl <;> decide
  distinct stage stage' d hd hd' := by
    have hne : echoDigest ≠ otherDigest := by decide
    obtain ⟨hv, hh, hp⟩ := digestOf?_apartUnit
    have hdomain : echo.digestOf? apartUnit echoStart.files .domain = none := rfl
    have hgeometry : echo.digestOf? apartUnit echoStart.files .geometry = none := rfl
    cases stage <;> cases stage' <;> simp_all
  output := FileSystem.groundedAlong_of_not_mem (by decide)
  grounded stage hs p hp := by
    rcases lookedUp_apartUnit hs hp with rfl | rfl <;>
      exact FileSystem.groundedAlong_of_not_mem (by decide)

/-- The pixel stage is compiled after the vertex stage as it is on its own, also without the hull stage, which
fails, and without the vertex stage. -/
theorem stages_are_independent_apartUnit :
    echo.backend.Answers echoed ∧ echo.Independent apartUnit echoStart.forget.files ∧
      (apartUnit.get .pixel).isAbsent = false ∧
      (echo.tryStages "s" apartUnit echoStart.forget).1.outcomes.get .pixel =
        .ofResult (echo.compileStage .pixel otherSource echoStart.forget).1 ∧
      (echo.tryStages "s" (apartUnit.set .hull {}) echoStart.forget).1.outcomes.get .pixel =
        (echo.tryStages "s" apartUnit echoStart.forget).1.outcomes.get .pixel ∧
      (echo.tryStages "t" (apartUnit.set .vertex {}) echoStart.forget).1.outcomes.get .pixel =
        (echo.tryStages "s" apartUnit echoStart.forget).1.outcomes.get .pixel := by
  have hs : (apartUnit.get .pixel).isAbsent = false := by decide
  have hindependent : echo.Independent apartUnit echoStart.forget.files := independent_apartUnit
  obtain ⟨halone, -, hwithout, hchanged⟩ :=
    stages_are_independent echo_answers "s" apartUnit echoStart.forget hindependent .pixel hs
  refine ⟨echo_answers, hindependent, hs, halone, hwithout .hull (by decide), ?_⟩
  exact hchanged _ _ _ (hindependent.without .vertex) rfl ⟨.refl _, fun _ _ => rfl⟩

/-- An engine that writes to a directory in another one. -/
def through : Engine Unit := { echo with settings := { sourceDir := ⟨"src"⟩, outputDir := ⟨"build/bin"⟩ } }

/-- A session in which neither of these is there. -/
def throughStart : Session (Unit × List Request) where
  files := { nodes := [(⟨["src"]⟩, .directory), (echoPlace, .file (Bytes.ofText "x\n"))] }
  backend := ((), [])

/-- A source with a path through the directory that is not there. -/
def throughSource : StageSource := { otherSource with file := ⟨"../build/../src/a.hlsl"⟩ }

/-- A shader with a stage of that source, after another stage. -/
def throughUnit : ShaderUnit := ⟨echoSource, throughSource, {}, {}, {}⟩

/-- The files after the vertex stage was compiled. -/
def throughStored : FileSystem :=
  ((((throughStart.files.put ⟨["build"]⟩ .directory).put ⟨["build", "bin"]⟩ .directory).put
    ⟨["build", "bin", "cache"]⟩ .directory).put ⟨["build", "bin", "cache", "5f"]⟩ .directory).put
    ⟨["build", "bin", "cache", "5f", "b61c7918043475e9eeff77886be4e179d0fd6a8bd41dd4534bb6ac711e897df1"]⟩
    (.file (Bytes.ofText "vs_5_0:main:x\n"))

/-- The files after the hull stage was compiled too. -/
def throughFiles : FileSystem := throughStored.put
  ⟨["build", "bin", "cache", "5f", "bf018e0b3ce5a91f3a4c48efcec10333b2626662a25ff0589c2e1e3a10f48626"]⟩
  (.file (Bytes.ofText "hs_5_0:other:x\n"))

theorem isTree_throughStart : throughStart.files.IsTree := .of_listed (by decide)

theorem lookedUp_throughUnit {stage : Stage} (hs : (throughUnit.get stage).isAbsent = false) {p : Path}
    (hp : through.preprocessor.MayLookUp throughStart.files (through.sourcePath (throughUnit.get stage)) p) :
    p = ⟨"src/a.hlsl"⟩ ∨ p = ⟨"src/../build/../src/a.hlsl"⟩ := by
  cases stage with
  | vertex => exact .inl (eq_of_mayLookUp_echo (by decide) hp)
  | hull => exact .inr (eq_of_mayLookUp_echo (by decide) hp)
  | domain => exact absurd hs (by decide)
  | geometry => exact absurd hs (by decide)
  | pixel => exact absurd hs (by decide)

theorem isFile_throughSource : throughStart.files.isFile (through.sourcePath throughSource) = false := by
  decide

theorem separate_throughUnit : through.Separate throughUnit throughStart.files where
  tree := isTree_throughStart
  outside stage hs p hp := by
    rcases lookedUp_throughUnit hs hp with rfl | rfl <;> decide
  distinct stage stage' d hd hd' := by
    have hhull : through.digestOf? throughUnit throughStart.files .hull = none :=
      digestOf?_of_error (congrArg Logged.result (flatten_of_missing isFile_throughSource))
    have hdomain : through.digestOf? throughUnit throughStart.files .domain = none := rfl
    have hgeometry : through.digestOf? throughUnit throughStart.files .geometry = none := rfl
    have hpixel : through.digestOf? throughUnit throughStart.files .pixel = none := rfl
    cases stage <;> cases stage' <;> simp_all

/-- The vertex stage is compiled. -/
def throughFirst : Attempt := ⟨.vertex, echoSource, throughStart.files, [⟨"x\n", "main", .vertex⟩],
  .ok ⟨echoDigest, false, through.cache.path echoDigest, [echoPlace]⟩, throughStored⟩

/-- The session after that. -/
def throughSession : Session (Unit × List Request) := ⟨throughStored, ((), [⟨"x\n", "main", .vertex⟩]), []⟩

/-- The hull stage is compiled after it. -/
def throughSecond : Attempt := ⟨.hull, throughSource, throughSession.files, [⟨"x\n", "other", .hull⟩],
  .ok ⟨otherDigest, false, through.cache.path otherDigest, [echoPlace]⟩, throughFiles⟩

/-- The session after both. -/
def throughEnd : Session (Unit × List Request) :=
  ⟨throughFiles, ((), [⟨"x\n", "main", .vertex⟩, ⟨"x\n", "other", .hull⟩]), []⟩

/-- A shader whose object file can be written is reported. -/
theorem compileShader_of_tryStages {s t : Session σ} {tally : Tally} (ht : e.tryStages name unit s = (tally, t))
    (hw : (tally.header.write t.files (e.settings.objectPath name)).1.toOption = some ()) :
    ∃ report t', e.compileShader name unit s = (.ok report, t') ∧ report.toTally = tally := by
  have hrun := e.compileShader_run name unit s
  rw [ht] at hrun
  dsimp only at hrun
  generalize Header.write _ _ _ = written at hw hrun
  obtain ⟨result, files⟩ := written
  obtain rfl : result = .ok () := eq_ok_of_toOption hw
  exact ⟨_, _, hrun, rfl⟩

theorem eq_ok_of_prod {ε α β : Type} {r : Except ε α × β} {a : α} {b : β} (h : (r.1.toOption, r.2) = (some a, b)) :
    r = (.ok a, b) :=
  Prod.ext (eq_ok_of_toOption (Prod.mk.inj h).1) (Prod.mk.inj h).2

/-- The bytecode of both stages can be stored, and the object file written. -/
theorem stored_throughUnit :
    through.cache.store throughStart.files echoDigest (Bytes.ofText "vs_5_0:main:x\n") =
        (.ok (through.cache.path echoDigest), throughStored) ∧
      through.cache.store throughStored otherDigest (Bytes.ofText "hs_5_0:other:x\n") =
        (.ok (through.cache.path otherDigest), throughFiles) ∧
      (Header.write ⟨⟨echoDigest, otherDigest, .zero, .zero, .zero⟩⟩ throughFiles
        (through.settings.objectPath "u")).1.toOption = some () :=
  ⟨eq_ok_of_prod (by decide +kernel), eq_ok_of_prod (by decide +kernel), by decide +kernel⟩

theorem attempt_throughFirst :
    through.attempt .vertex echoSource throughStart = (throughFirst, throughSession) := by
  have hf : through.flatten throughStart.files echoSource = ⟨.ok ⟨"x\n", [echoPlace]⟩, []⟩ :=
    flatten_echo rfl (by decide) (by decide)
  exact attempt_of_missing hf ofSource_echo (by decide) rfl stored_throughUnit.1

theorem attempt_throughSecond :
    through.attempt .hull throughSource throughSession = (throughSecond, throughEnd) := by
  have hf : through.flatten throughSession.files throughSource = ⟨.ok ⟨"x\n", [echoPlace]⟩, []⟩ :=
    flatten_echo rfl (by decide) (by decide)
  exact attempt_of_missing hf ofSource_other (by decide) rfl stored_throughUnit.2.1

/-- The source of the hull stage is not found on its own, and is found after the vertex stage. -/
theorem source_found :
    ∃ report t, through.compileShader "u" throughUnit throughStart.forget = (.ok report, t) ∧
      report.outcomes.get .hull ≠ .ofResult (through.compileStage .hull throughSource throughStart.forget).1 := by
  have halone : (through.compileStage .hull throughSource throughStart.forget).1 =
      .error (.fileNotFound (through.sourcePath throughSource)) := by
    have hfiles : throughStart.forget.files = throughStart.files := rfl
    rw [compileStage_run, hfiles, flatten_of_missing isFile_throughSource]
  have hv : through.stageOutcome "u" throughUnit .vertex throughStart.forget =
      (.ofResult throughFirst.outcome, throughSession.forget) := by
    have hs : (throughUnit.get .vertex).isAbsent = false := by decide
    exact stageOutcome_of_attempt "u" hs attempt_throughFirst
  have hh : through.stageOutcome "u" throughUnit .hull throughSession.forget =
      (.ofResult throughSecond.outcome, throughEnd.forget) := by
    have hs : (throughUnit.get .hull).isAbsent = false := by decide
    exact stageOutcome_of_attempt "u" hs attempt_throughSecond
  obtain ⟨report, t, hrun, hreport⟩ :=
    compileShader_of_tryStages (tryStages_of_steps hv hh rfl rfl rfl) stored_throughUnit.2.2
  refine ⟨report, t, hrun, ?_⟩
  rw [hreport, halone]
  exact StageOutcome.noConfusion

/-- An engine whose output directory is reached through one that is not there. -/
def around : Engine Unit := { echo with settings := { sourceDir := ⟨"src"⟩, outputDir := ⟨"none/../out"⟩ } }

/-- A session with bytecode for the second source. -/
def aroundStart : Session (Unit × List Request) where
  files := { nodes := [(⟨["src"]⟩, .directory), (echoPlace, .file (Bytes.ofText "x\n")), (⟨["out"]⟩, .directory),
    (⟨["out", "cache"]⟩, .directory), (⟨["out", "cache", "5f"]⟩, .directory),
    (⟨["out", "cache", "5f", "bf018e0b3ce5a91f3a4c48efcec10333b2626662a25ff0589c2e1e3a10f48626"]⟩,
      .file (Bytes.ofText "hs_5_0:other:x\n"))] }
  backend := ((), [])

/-- A shader with two stages that can be flattened. -/
def aroundUnit : ShaderUnit := ⟨echoSource, otherSource, {}, {}, {}⟩

/-- The files after the vertex stage was compiled. -/
def aroundStored : FileSystem :=
  (aroundStart.files.put ⟨["none"]⟩ .directory).put
    ⟨["out", "cache", "5f", "b61c7918043475e9eeff77886be4e179d0fd6a8bd41dd4534bb6ac711e897df1"]⟩
    (.file (Bytes.ofText "vs_5_0:main:x\n"))

/-- The vertex stage is compiled. -/
def aroundFirst : Attempt := ⟨.vertex, echoSource, aroundStart.files, [⟨"x\n", "main", .vertex⟩],
  .ok ⟨echoDigest, false, around.cache.path echoDigest, [echoPlace]⟩, aroundStored⟩

/-- The session after that. -/
def aroundSession : Session (Unit × List Request) := ⟨aroundStored, ((), [⟨"x\n", "main", .vertex⟩]), []⟩

/-- The bytecode of the hull stage is found after it. -/
def aroundSecond : Attempt := ⟨.hull, otherSource, aroundSession.files, [],
  .ok ⟨otherDigest, true, around.cache.path otherDigest, [echoPlace]⟩, aroundSession.files⟩

/-- Without it, the hull stage is compiled again. -/
def aroundAlone : Attempt := ⟨.hull, otherSource, aroundStart.files, [⟨"x\n", "other", .hull⟩],
  .ok ⟨otherDigest, false, around.cache.path otherDigest, [echoPlace]⟩,
  (aroundStart.files.put ⟨["none"]⟩ .directory).put
    ⟨["out", "cache", "5f", "bf018e0b3ce5a91f3a4c48efcec10333b2626662a25ff0589c2e1e3a10f48626"]⟩
    (.file (Bytes.ofText "hs_5_0:other:x\n"))⟩

/-- The session after that. -/
def aroundLeft : Session (Unit × List Request) := ⟨aroundAlone.after, ((), [⟨"x\n", "other", .hull⟩]), []⟩

theorem lookedUp_aroundUnit {stage : Stage} (hs : (aroundUnit.get stage).isAbsent = false) {p : Path}
    (hp : around.preprocessor.MayLookUp aroundStart.files (around.sourcePath (aroundUnit.get stage)) p) :
    p = ⟨"src/a.hlsl"⟩ := by
  cases stage with
  | vertex => exact eq_of_mayLookUp_echo (by decide) hp
  | hull => exact eq_of_mayLookUp_echo (by decide) hp
  | domain => exact absurd hs (by decide)
  | geometry => exact absurd hs (by decide)
  | pixel => exact absurd hs (by decide)

theorem flatten_aroundStart {source : StageSource} (hm : source.macros = []) (hf : source.file = ⟨"a.hlsl"⟩) :
    around.flatten aroundStart.files source = ⟨.ok ⟨"x\n", [echoPlace]⟩, []⟩ := by
  refine flatten_echo hm ?_ ?_ <;> rw [hf] <;> decide

theorem separate_aroundUnit : around.Separate aroundUnit aroundStart.files where
  tree := .of_listed (by decide)
  outside stage hs p hp := by
    obtain rfl := lookedUp_aroundUnit hs hp
    decide
  distinct stage stage' d hd hd' := by
    have hne : echoDigest ≠ otherDigest := by decide
    have hv : around.digestOf? aroundUnit aroundStart.files .vertex = some echoDigest :=
      digestOf?_of_flatten (by decide) (congrArg Logged.result (flatten_aroundStart rfl rfl)) ofSource_echo
    have hh : around.digestOf? aroundUnit aroundStart.files .hull = some otherDigest :=
      digestOf?_of_flatten (by decide) (congrArg Logged.result (flatten_aroundStart rfl rfl)) ofSource_other
    have hdomain : around.digestOf? aroundUnit aroundStart.files .domain = none := rfl
    have hgeometry : around.digestOf? aroundUnit aroundStart.files .geometry = none := rfl
    have hpixel : around.digestOf? aroundUnit aroundStart.files .pixel = none := rfl
    cases stage <;> cases stage' <;> simp_all

/-- The bytecode of the vertex stage can be stored, and the object file written, and so can the bytecode of the
hull stage without it. -/
theorem stored_aroundUnit :
    around.cache.store aroundStart.files echoDigest (Bytes.ofText "vs_5_0:main:x\n") =
        (.ok (around.cache.path echoDigest), aroundStored) ∧
      (Header.write ⟨⟨echoDigest, otherDigest, .zero, .zero, .zero⟩⟩ aroundStored
        (around.settings.objectPath "u")).1.toOption = some () ∧
      around.cache.store aroundStart.files otherDigest (Bytes.ofText "hs_5_0:other:x\n") =
        (.ok (around.cache.path otherDigest), aroundAlone.after) :=
  ⟨eq_ok_of_prod (by decide +kernel), by decide +kernel, eq_ok_of_prod (by decide +kernel)⟩

theorem attempt_aroundFirst :
    around.attempt .vertex echoSource aroundStart = (aroundFirst, aroundSession) := by
  have hf : around.flatten aroundStart.files echoSource = ⟨.ok ⟨"x\n", [echoPlace]⟩, []⟩ :=
    flatten_aroundStart rfl rfl
  exact attempt_of_missing hf ofSource_echo (by decide) rfl stored_aroundUnit.1

theorem attempt_aroundSecond :
    around.attempt .hull otherSource aroundSession = (aroundSecond, aroundSession) := by
  have hf : around.flatten aroundSession.files otherSource = ⟨.ok ⟨"x\n", [echoPlace]⟩, []⟩ :=
    flatten_echo rfl (by decide) (by decide)
  exact attempt_of_found hf ofSource_other (by decide)

theorem attempt_aroundAlone : around.attempt .hull otherSource aroundStart = (aroundAlone, aroundLeft) := by
  have hf : around.flatten aroundStart.files otherSource = ⟨.ok ⟨"x\n", [echoPlace]⟩, []⟩ :=
    flatten_aroundStart rfl rfl
  exact attempt_of_missing hf ofSource_other (by decide) rfl stored_aroundUnit.2.2

/-- The bytecode of the hull stage is not found on its own, and is found after the vertex stage. -/
theorem bytecode_found :
    ∃ report t, around.compileShader "u" aroundUnit aroundStart.forget = (.ok report, t) ∧
      report.outcomes.get .hull ≠ .ofResult (around.compileStage .hull otherSource aroundStart.forget).1 := by
  have halone : (around.compileStage .hull otherSource aroundStart.forget).1 = aroundAlone.outcome := by
    rw [compileStage_forget, attempt_aroundAlone]
  have hv : around.stageOutcome "u" aroundUnit .vertex aroundStart.forget =
      (.ofResult aroundFirst.outcome, aroundSession.forget) := by
    have hs : (aroundUnit.get .vertex).isAbsent = false := by decide
    exact stageOutcome_of_attempt "u" hs attempt_aroundFirst
  have hh : around.stageOutcome "u" aroundUnit .hull aroundSession.forget =
      (.ofResult aroundSecond.outcome, aroundSession.forget) := by
    have hs : (aroundUnit.get .hull).isAbsent = false := by decide
    exact stageOutcome_of_attempt "u" hs attempt_aroundSecond
  obtain ⟨report, t, hrun, hreport⟩ :=
    compileShader_of_tryStages (tryStages_of_steps hv hh rfl rfl rfl) stored_aroundUnit.2.1
  refine ⟨report, t, hrun, ?_⟩
  rw [hreport, halone]
  intro h
  have hhit := congrArg CompiledStage.cacheHit (StageOutcome.compiled.inj h)
  cases hhit

/-- It is not enough that the stages look up nothing below the output directory. Once the vertex stage has
created directories, a path that goes up from one of these leads somewhere: the path of a source, which is then
found, or the path of the output directory, where bytecode is then found. -/
theorem found_through_created_directories :
    (through.backend.Answers echoed ∧ through.Separate throughUnit throughStart.forget.files ∧
      (throughUnit.get .hull).isAbsent = false ∧
      ∃ report t, through.compileShader "u" throughUnit throughStart.forget = (.ok report, t) ∧
        report.outcomes.get .hull ≠
          .ofResult (through.compileStage .hull throughSource throughStart.forget).1) ∧
      around.backend.Answers echoed ∧ around.Separate aroundUnit aroundStart.forget.files ∧
      (aroundUnit.get .hull).isAbsent = false ∧
      ∃ report t, around.compileShader "u" aroundUnit aroundStart.forget = (.ok report, t) ∧
        report.outcomes.get .hull ≠
          .ofResult (around.compileStage .hull otherSource aroundStart.forget).1 :=
  ⟨⟨echo_answers, separate_throughUnit, by decide, source_found⟩, echo_answers, separate_aroundUnit, by decide,
    bytecode_found⟩

end Engine

end ShaderBuild
