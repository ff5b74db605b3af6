import ShaderBuild.CommandLine.Run
import ShaderBuild.Proofs.Reports
/-!
# What a run prints

A run is a computation on a console. Here is what happens in it as a value: for each shader, from which files it
was compiled, how its object file was written, and what was shown of each of its stages (`Built`, `turns`). A run
whose object files can be written prints what these values say, one after the other, and nothing else
(`run_eq`). What is printed about a stage is one line (`Shown.line?`) or one complaint (`Shown.complaint?`). Where
the complaints go, there are also the records of the log, as far as the logger shows them.
-/

namespace ShaderBuild

/-! ## The log -/

/-- The records about errors in a log. -/
def errorsIn (log : List Record) : List Record := log.filter Record.isError

theorem errorsIn_append (log log' : List Record) : errorsIn (log ++ log') = errorsIn log ++ errorsIn log' :=
  List.filter_append ..

theorem errorsIn_warnings (warnings : List Warning) : errorsIn (warnings.map .warning) = [] := by
  simp [errorsIn, List.filter_map, Function.comp_def, Record.isError]

theorem errorsIn_records (shader : String) (stage : Stage) (outcome : StageOutcome) :
    errorsIn (outcome.records shader stage) = outcome.records shader stage := by
  cases outcome <;> rfl

/-- A backend logs nothing but warnings. -/
def Backend.OnlyWarns {σ : Type} (b : Backend σ) : Prop :=
  ∀ r s, errorsIn (b.compile r s).2.log = errorsIn s.log

theorem Command.onlyWarns {σ : Type} (launch : Launcher) (c : Command) : (c.backend launch : Backend σ).OnlyWarns := by
  have hcleanUp : ∀ (p : Path) (s : Session σ), errorsIn (cleanUp p s).log = errorsIn s.log := by
    intro p s
    unfold cleanUp
    split
    · rfl
    · rfl
    · rw [Session.log_warn, errorsIn_append, errorsIn_warnings, List.append_nil]
  intro r s
  simp only [backend]
  generalize run launch c r s.files = ran
  obtain ⟨result, files⟩ := ran
  dsimp only
  rw [hcleanUp, hcleanUp]

namespace Engine
variable {σ : Type} {e : Engine σ} (h : e.backend.OnlyWarns)
include h

theorem errorsIn_compileStage (stage : Stage) (source : StageSource) (s : Session σ) :
    errorsIn (e.compileStage stage source s).2.log = errorsIn s.log := by
  have hwarn : ∀ warnings, errorsIn (s.warn warnings).log = errorsIn s.log := fun warnings => by
    rw [Session.log_warn, errorsIn_append, errorsIn_warnings, List.append_nil]
  rw [compileStage_run]
  dsimp only
  cases (e.flatten s.files source).result with
  | error error => exact hwarn _
  | ok f =>
    dsimp only
    split
    · exact hwarn _
    · have hcompile := (h ⟨f.text, source.entryPoint, stage⟩ (s.warn (e.flatten s.files source).warnings)).trans
        (hwarn _)
      generalize e.backend.compile _ _ = ran at hcompile ⊢
      obtain ⟨result, t⟩ := ran
      cases result with
      | error text => exact hcompile
      | ok bytecode =>
        dsimp only
        generalize e.cache.store _ _ _ = stored
        obtain ⟨result, files⟩ := stored
        cases result <;> exact hcompile

/-- Of the stages, those that fail are logged as errors, and nothing else. -/
theorem errorsIn_after (name : String) (unit : ShaderUnit) (stages : List Stage) (s : Session σ) :
    errorsIn (e.after name unit stages s).log =
      errorsIn s.log ++ (e.outcomesAlong name unit stages s).1.flatMap fun x => x.2.records name x.1 := by
  induction stages generalizing s with
  | nil => exact (List.append_nil _).symm
  | cons stage rest ih =>
    have hstage : errorsIn (e.stageOutcome name unit stage s).2.log =
        errorsIn s.log ++ (e.stageOutcome name unit stage s).1.records name stage := by
      rw [stageOutcome_eq]
      split
      · exact (List.append_nil _).symm
      · rw [Session.log_note, errorsIn_append, errorsIn_records, errorsIn_compileStage h]
    have hrest := ih (e.stageOutcome name unit stage s).2
    rw [hstage, List.append_assoc] at hrest
    exact hrest

end Engine

namespace Engine
variable {σ : Type} (e : Engine σ) (name : String) (unit : ShaderUnit) (s : Session σ)

/-- The report on a shader, provided that its object file can be written. -/
def reportOn : CompileReport :=
  { (e.tryStages name unit s).1 with name, objectPath := e.settings.objectPath name }

/-- Write the object file of a shader, after its stages. -/
def writeObject : Except Error Unit × Session σ :=
  let t := (e.tryStages name unit s).2
  let ran := (e.reportOn name unit s).header.write t.files (e.settings.objectPath name)
  (ran.1, { t with files := ran.2 })

/-- A shader is compiled unless its object file cannot be written. -/
theorem compileShader_eq :
    e.compileShader name unit s =
      ((e.writeObject name unit s).1.map fun _ => e.reportOn name unit s, (e.writeObject name unit s).2) := by
  rw [compileShader_run]
  simp only [writeObject, reportOn]
  generalize Header.write _ _ _ = ran
  obtain ⟨written, files⟩ := ran
  cases written <;> rfl

/-- What is logged of a shader as errors is what its report has as failures. -/
theorem errorsIn_writeObject (h : e.backend.OnlyWarns) :
    errorsIn (e.writeObject name unit s).2.log =
      errorsIn s.log ++ (e.reportOn name unit s).failures.map fun x => .stageFailed name x.1 x.2 := by
  have hlog : (e.writeObject name unit s).2.log = (e.after name unit Stage.all s).log := by
    rw [← e.session_tryStages]
    rfl
  have hfailures : (e.reportOn name unit s).failures =
      (e.outcomesAlong name unit Stage.all s).1.filterMap fun x => x.2.error?.map fun error => (x.1, error) := by
    rw [CompileReport.failures, reportOn, e.outcomes_tryStages, e.outcomesAlong_all]
    rfl
  rw [hlog, errorsIn_after h, hfailures]
  generalize (e.outcomesAlong name unit Stage.all s).1 = outcomes
  congr 1
  induction outcomes with
  | nil => rfl
  | cons x rest ih =>
    rw [List.flatMap_cons, ih]
    cases hx : x.2.error? <;> simp [StageOutcome.records, hx]

end Engine

namespace CommandLine

/-! ## Stages -/

/-- What was shown of a stage. -/
structure Shown where
  stage : Stage
  outcome : StageOutcome
  before : FileSystem
  /-- How its report was written, if that was tried. -/
  reflection? : Option (Except String Unit)
  /-- What was logged meanwhile. -/
  warnings : List Warning
  after : FileSystem

namespace Shown

/-- The line about a stage that was compiled. -/
def line? (shader : String) (x : Shown) : Option String :=
  match x.outcome with
  | .compiled c =>
    let state := if c.cacheHit then "cached" else "compiled"
    some (stageName shader x.stage ++ ": " ++ state ++ " " ++ c.digest.hex)
  | _ => none

/-- The line about a stage that failed, or whose report was not written. -/
def complaint? (shader : String) (x : Shown) : Option String :=
  match x.outcome, x.reflection? with
  | .failed error, _ => some (stageName shader x.stage ++ ": " ++ error.message)
  | _, some (.error text) => some (stageName shader x.stage ++ ": reflection failed: " ++ text)
  | _, _ => none

/-- What goes where the errors go. -/
def notices (shader : String) (x : Shown) : List Notice :=
  (x.warnings.map .warning).map .record ++ (x.complaint? shader).toList.map .line

/-- Was the report of the stage not written, though that was tried? -/
def reflectionFailed (x : Shown) : Bool :=
  match x.reflection? with
  | some (.error _) => true
  | _ => false

end Shown

/-- What writing the report of a stage comes to: an error as the text to show, what is logged, and the files
afterwards. -/
def reflected (e : Engine Unit) (shader : String) (stage : Stage) (source : StageSource) (fs : FileSystem) :
    Except String Unit × List Warning × FileSystem :=
  let flattened := e.flatten fs source
  match flattened.result with
  | .error error => (.error error.fullMessage, flattened.warnings, fs)
  | .ok f =>
    let parsed := Interface.parse f.text
    let warnings := flattened.warnings ++ parsed.warnings
    match parsed.result with
    | .error error => (.error ("parsing " ++ source.file.text ++ ": " ++ error.fullMessage), warnings, fs)
    | .ok i =>
      let (written, files) := Engine.writeReport fs (reportPath e.settings shader stage) (.ofInterface i)
      (written.mapError Error.fullMessage, warnings, files)

section Shaders
variable (o : Options) (e : Engine Unit) (entry : ManifestEntry)

/-- Show what became of a stage. -/
def shown (stage : Stage) (outcome : StageOutcome) (fs : FileSystem) : Shown :=
  match outcome with
  | .compiled _ =>
    if o.reflect then
      let (result, warnings, files) := reflected e entry.name stage (entry.unit.get stage) fs
      ⟨stage, outcome, fs, some result, warnings, files⟩
    else ⟨stage, outcome, fs, none, [], fs⟩
  | _ => ⟨stage, outcome, fs, none, [], fs⟩

/-- Show what became of some stages, one after the other. -/
def showAll : List (Stage × StageOutcome) → FileSystem → List Shown × FileSystem
  | [], fs => ([], fs)
  | (stage, outcome) :: rest, fs =>
    let x := shown o e entry stage outcome fs
    let others := showAll rest x.after
    (x :: others.1, others.2)

end Shaders

/-! ## Shaders -/

/-- What happened to a shader. -/
structure Built where
  entry : ManifestEntry
  before : FileSystem
  /-- The report, if the object file was written. -/
  report : CompileReport
  written : Except Error Unit
  /-- What was logged up to the object file. -/
  records : List Record
  /-- The files after the object file. -/
  compiled : FileSystem
  shown : List Shown
  after : FileSystem

namespace Built

/-- The lines about a shader: one for each stage that was compiled, and one for the object file. -/
def lines (b : Built) : List String :=
  b.shown.filterMap (Shown.line? b.entry.name) ++ [b.entry.name ++ " -> " ++ b.report.objectPath.text]

/-- The complaints about a shader. -/
def complaints (b : Built) : List String := b.shown.filterMap (Shown.complaint? b.entry.name)

/-- What goes where the errors go: first the log, then the complaints. -/
def notices (b : Built) : List Notice :=
  b.records.map .record ++ b.shown.flatMap (Shown.notices b.entry.name)

end Built

section Shaders
variable (o : Options) (e : Engine Unit)

/-- Compile a shader, write its object file and show its stages. -/
def turn (entry : ManifestEntry) (fs : FileSystem) : Built :=
  let report := e.reportOn entry.name entry.unit (session fs)
  let object := e.writeObject entry.name entry.unit (session fs)
  let all := showAll o e entry report.outcomes.toList object.2.files
  { entry, before := fs, report, written := object.1, records := object.2.log, compiled := object.2.files
    shown := all.1, after := all.2 }

/-- The object file is written after the last stage. -/
theorem written_turn (entry : ManifestEntry) (fs : FileSystem) :
    ((turn o e entry fs).written, (turn o e entry fs).compiled) =
      (turn o e entry fs).report.header.write (e.after entry.name entry.unit Stage.all (session fs)).files
        (e.settings.objectPath entry.name) := by
  simp only [turn, Engine.writeObject, e.session_tryStages]

/-- What happens to some shaders, one after the other. -/
def turns : List ManifestEntry → FileSystem → List Built × FileSystem
  | [], fs => ([], fs)
  | entry :: rest, fs =>
    let b := turn o e entry fs
    let others := turns rest b.after
    (b :: others.1, others.2)

theorem turns_cons (entry : ManifestEntry) (rest : List ManifestEntry) (fs : FileSystem) :
    turns o e (entry :: rest) fs =
      (turn o e entry fs :: (turns o e rest (turn o e entry fs).after).1,
        (turns o e rest (turn o e entry fs).after).2) :=
  rfl

end Shaders

/-! ## What is printed -/

/-- Lines, each with its end. -/
def unlines (lines : List String) : String := String.join (lines.map (· ++ "\n"))

theorem unlines_append (ls ms : List String) : unlines (ls ++ ms) = unlines ls ++ unlines ms := by
  simp [unlines]

theorem unlines_singleton (line : String) : unlines [line] = line ++ "\n" := by simp [unlines]

/-- The line that a notice is, if it is one. -/
def Notice.line? : Notice → Option String
  | line text => some text
  | record _ => none

theorem filterMap_line?_lines (lines : List String) : (lines.map Notice.line).filterMap Notice.line? = lines := by
  induction lines with
  | nil => rfl
  | cons line lines ih => simp [Notice.line?, ih]

theorem filterMap_line?_records (records : List Record) : (records.map Notice.record).filterMap Notice.line? = [] := by
  simp [List.filterMap_eq_nil_iff, Notice.line?]

namespace Console

/-- The console after some lines and some notices, with other files. Every line among the notices tells of a
failure. -/
def print (c : Console) (lines : List String) (notices : List Notice) (fs : FileSystem) : Console where
  files := fs
  output := c.output ++ unlines lines
  errors := c.errors ++ notices
  failures := c.failures + (notices.filterMap Notice.line?).length

theorem print_nil (c : Console) : c.print [] [] c.files = c := by simp [print, unlines]

theorem print_print (c : Console) (ls ls' : List String) (ns ns' : List Notice) (fs fs' : FileSystem) :
    (c.print ls ns fs).print ls' ns' fs' = c.print (ls ++ ls') (ns ++ ns') fs' := by
  simp [print, unlines_append, String.append_assoc, Nat.add_assoc]

end Console

namespace Job

theorem bind_run {α β : Type} (j : Job α) (f : α → Job β) (c : Console) :
    (j >>= f) c = match j c with
      | (.ok a, c) => f a c
      | (.error text, c) => (.error text, c) := by
  simp only [bind, ExceptT.bind, ExceptT.mk, StateT.bind]
  rcases j c with ⟨result, c'⟩
  cases result <;> rfl

theorem say_run (line : String) (c : Console) : say line c = (.ok (), c.print [line] [] c.files) := by
  have hsay : say line c = (.ok (), { c with output := c.output ++ line ++ "\n" }) := rfl
  rw [hsay, Console.print, unlines_singleton, String.append_assoc]
  simp

theorem complain_run (line : String) (c : Console) :
    complain line c = (.ok (), c.print [] [.line line] c.files) := by
  have hcomplain : complain line c =
      (.ok (), { c with errors := c.errors ++ [.line line], failures := c.failures + 1 }) := rfl
  rw [hcomplain, Console.print]
  have hline : [Notice.line line].filterMap Notice.line? = [line] := rfl
  rw [hline]
  simp [unlines]

theorem perform_run {α : Type} (b : Build Unit α) (c : Console) :
    perform b c =
      (.ok (b (session c.files)).1, c.print [] ((b (session c.files)).2.log.map .record) (b (session c.files)).2.files) := by
  have hperform : perform b c = (.ok (b (session c.files)).1, { c with
    files := (b (session c.files)).2.files, errors := c.errors ++ (b (session c.files)).2.log.map .record }) := rfl
  rw [hperform, Console.print, filterMap_line?_records]
  simp [unlines]

theorem perform_report {α : Type} (l : Logged α) (c : Console) :
    perform (Build.report l) c = (.ok l.result, c.print [] ((l.warnings.map .warning).map .record) c.files) :=
  perform_run (Build.report l) c

theorem perform_change {α : Type} (f : FileSystem → Except Error α × FileSystem) (c : Console) :
    perform (Build.change f) c = (.ok (f c.files).1, c.print [] [] (f c.files).2) :=
  perform_run (Build.change f) c

end Job

open Job

section Stages
variable (o : Options) (e : Engine Unit) (entry : ManifestEntry)

theorem reflect_run (shader : String) (stage : Stage) (source : StageSource) (c : Console) :
    reflect e shader stage source c =
      let ran := reflected e shader stage source c.files
      (.ok ran.1, c.print [] ((ran.2.1.map .warning).map .record) ran.2.2) := by
  rw [reflect, bind_run, perform_run, Engine.preprocessStage_run]
  unfold reflected
  dsimp only
  rw [Session.files_warn, Session.log_warn, files_session, log_session, List.nil_append]
  generalize e.flatten c.files source = flattened
  obtain ⟨result, warnings⟩ := flattened
  cases result with
  | error error => rfl
  | ok f =>
    dsimp only
    rw [bind_run, perform_report, Console.print_print, ← List.map_append, ← List.map_append, List.append_nil]
    generalize Interface.parse f.text = parsed
    obtain ⟨result, more⟩ := parsed
    cases result with
    | error error => rfl
    | ok i =>
      dsimp only
      rw [bind_run, perform_change, Console.print_print, List.append_nil, List.append_nil]
      rfl

theorem showStage_run (stage : Stage) (outcome : StageOutcome) (c : Console) :
    showStage o e entry stage outcome c =
      let x := shown o e entry stage outcome c.files
      (.ok (), c.print (x.line? entry.name).toList (x.notices entry.name) x.after) := by
  cases outcome with
  | skipped => exact congrArg _ (c.print_nil).symm
  | failed error => exact complain_run _ c
  | compiled compiled =>
    rw [showStage]
    dsimp only
    rw [bind_run, say_run]
    cases ho : o.reflect with
    | false =>
      simp only [shown, ho]
      rfl
    | true =>
      simp only [shown, ho, if_true]
      rw [bind_run, reflect_run]
      have hfiles : ∀ lines, (c.print lines [] c.files).files = c.files := fun _ => rfl
      rw [hfiles]
      generalize reflected e entry.name stage (entry.unit.get stage) c.files = ran
      obtain ⟨result, warnings, files⟩ := ran
      dsimp only
      rw [Console.print_print, List.append_nil, List.nil_append]
      cases result with
      | ok u =>
        rw [Shown.notices]
        dsimp only [Shown.complaint?]
        rw [Option.toList_none, List.map_nil, List.append_nil]
        rfl
      | error text => exact (complain_run _ (c.print _ _ files)).trans (congrArg _ (c.print_print ..))

theorem showAll_run (outcomes : List (Stage × StageOutcome)) (c : Console) :
    (outcomes.forM fun x => showStage o e entry x.1 x.2) c =
      let all := showAll o e entry outcomes c.files
      (.ok (), c.print (all.1.filterMap (Shown.line? entry.name)) (all.1.flatMap (Shown.notices entry.name))
        all.2) := by
  induction outcomes generalizing c with
  | nil => exact congrArg _ c.print_nil.symm
  | cons x rest ih =>
    have hcons : (x :: rest).forM (fun x => showStage o e entry x.1 x.2) =
        showStage o e entry x.1 x.2 >>= fun _ => rest.forM fun x => showStage o e entry x.1 x.2 := rfl
    rw [hcons, bind_run, showStage_run]
    dsimp only
    rw [ih]
    have hmap : ∀ f : Shown → Option String, ∀ y ys, (y :: ys).filterMap f = (f y).toList ++ ys.filterMap f := by
      intro f y ys
      cases hf : f y <;> simp [hf]
    simp only [showAll, hmap, List.flatMap_cons, Console.print_print]
    rfl

end Stages

section Shaders
variable (o : Options) (e : Engine Unit)

theorem buildShader_run {entry : ManifestEntry} {c : Console} (hw : (turn o e entry c.files).written = .ok ()) :
    buildShader o e entry c =
      let b := turn o e entry c.files
      (.ok (), c.print b.lines b.notices b.after) := by
  have hwritten : (e.writeObject entry.name entry.unit (session c.files)).1 = .ok () := hw
  rw [buildShader, bind_run, perform_run, e.compileShader_eq, hwritten]
  -- the report is there, and what follows is its stages and the line about the object file
  let b := turn o e entry c.files
  show ((b.report.outcomes.toList.forM fun x => showStage o e entry x.1 x.2) >>= fun _ =>
    say (entry.name ++ " -> " ++ b.report.objectPath.text)) (c.print [] (b.records.map .record) b.compiled) = _
  rw [bind_run, showAll_run]
  dsimp only
  rw [say_run, Console.print_print, Console.print_print, List.append_nil]
  rfl

theorem buildShaders_run {entries : List ManifestEntry} {c : Console}
    (hw : ∀ b ∈ (turns o e entries c.files).1, b.written = .ok ()) :
    entries.forM (buildShader o e) c =
      let all := turns o e entries c.files
      (.ok (), c.print (all.1.flatMap Built.lines) (all.1.flatMap Built.notices) all.2) := by
  induction entries generalizing c with
  | nil => exact congrArg _ c.print_nil.symm
  | cons entry rest ih =>
    have hcons : (entry :: rest).forM (buildShader o e) =
        buildShader o e entry >>= fun _ => rest.forM (buildShader o e) := rfl
    rw [hcons, bind_run, buildShader_run o e (hw _ List.mem_cons_self)]
    dsimp only
    rw [ih fun b hb => hw b (List.mem_cons_of_mem _ hb)]
    exact congrArg _ (Console.print_print ..)

end Shaders

/-- The engine of a run. -/
def engine (launch : Launcher) (o : Options) (settings : Settings) : Engine Unit :=
  ⟨settings, Command.backend launch (command o settings)⟩

/-! ## Where the errors go -/

/-- A logger that shows nothing. -/
def Logger.Quiet (logger : Logger) : Prop := ∀ before record, logger before record = ""

/-- Without the log there are only the lines. -/
theorem Logger.Quiet.text {logger : Logger} (h : logger.Quiet) (before : Nat) (notices : List Notice) :
    logger.text before notices = unlines (notices.filterMap Notice.line?) := by
  induction notices generalizing before with
  | nil => rfl
  | cons notice rest ih =>
    cases notice with
    | line text => simp [Logger.text, ih, Notice.line?, unlines]
    | record record =>
      have hline : (Notice.record record :: rest).filterMap Notice.line? = rest.filterMap Notice.line? := rfl
      rw [Logger.text, h, ih, hline, String.empty_append]

/-- The lines among what happens to a shader are the complaints. -/
theorem Built.filterMap_notices (b : Built) : b.notices.filterMap Notice.line? = b.complaints := by
  have hshown : ∀ xs : List Shown, (xs.flatMap (Shown.notices b.entry.name)).filterMap Notice.line? =
      xs.filterMap (Shown.complaint? b.entry.name) := by
    intro xs
    induction xs with
    | nil => rfl
    | cons x xs ih =>
      rw [List.flatMap_cons, List.filterMap_append, ih, Shown.notices, List.filterMap_append, filterMap_line?_records,
        filterMap_line?_lines, List.nil_append]
      cases hc : x.complaint? b.entry.name <;> simp [hc]
  rw [notices, List.filterMap_append, filterMap_line?_records, List.nil_append, hshown, complaints]

theorem filterMap_notices (builds : List Built) :
    (builds.flatMap Built.notices).filterMap Notice.line? = builds.flatMap Built.complaints := by
  rw [List.filterMap_flatMap]
  exact congrArg (builds.flatMap ·) (funext Built.filterMap_notices)

/-- A run prints what happens to its shaders, and the number of the complaints at the end, if there are any. -/
theorem run_eq {launch : Launcher} {logger : Logger} {o : Options} {fs : FileSystem} {settings : Settings}
    {manifest : Manifest} (hs : loadSettings o fs = .ok settings) (hm : Manifest.load fs o.manifest = .ok manifest)
    (hw : ∀ b ∈ (turns o (engine launch o settings) manifest.entries fs).1, b.written = .ok ()) :
    run launch logger o fs =
      let all := turns o (engine launch o settings) manifest.entries fs
      let complaints := all.1.flatMap Built.complaints
      { status := if complaints = [] then 0 else 1
        output := unlines (all.1.flatMap Built.lines)
        errors := logger.text 0 (all.1.flatMap Built.notices ++
          (if complaints = [] then [] else [complaints.length.repr ++ " stage(s) failed"]).map .line)
        files := all.2 } := by
  have hbuild : build launch o { files := fs } =
      manifest.entries.forM (buildShader o (engine launch o settings)) { files := fs } := by
    have hget : (get : Job Console) { files := fs } = (.ok { files := fs }, { files := fs }) := rfl
    rw [build, bind_run, hget]
    dsimp only
    rw [hs, hm]
    rfl
  have hloop := buildShaders_run o (engine launch o settings) (c := { files := fs }) hw
  dsimp only at hloop
  have hran : (build launch o).run { files := fs } = build launch o { files := fs } := rfl
  rw [run, hran, hbuild, hloop]
  generalize turns o (engine launch o settings) manifest.entries fs = all
  dsimp only [Console.print]
  rw [filterMap_notices]
  generalize all.1.flatMap Built.complaints = complaints
  by_cases hc : complaints = []
  · simp [hc]
  · have hlength : ¬ complaints.length = 0 := by simpa using hc
    simp only [Nat.zero_add, if_neg hlength, if_neg hc, String.empty_append]
    rfl

end CommandLine

end ShaderBuild
