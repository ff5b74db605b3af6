import ShaderBuild.Proofs.Outputs
/-!
# What a run does

A run of the command line attempts everything and tells what became of it (`run_tells_truth`). There is one
complaint for each failure (`length_complaints`), and a report that is written for a stage is that of the text
whose digest is in the object file, since nothing that this text was flattened from was changed meanwhile
(`reported_source`). That a stage failed is also logged as an error, once (`Engine.errorsIn_writeObject`). Where the
logger shows this, there are two entries for the stage; without a log, the complaints are all there is.
-/

namespace ShaderBuild.CommandLine

/-! ## What is shown -/

section Shown
variable {o : Options} {e : Engine Unit} {entry : ManifestEntry}

theorem shown_fields (o : Options) (e : Engine Unit) (entry : ManifestEntry) (stage : Stage) (outcome : StageOutcome)
    (fs : FileSystem) :
    (shown o e entry stage outcome fs).stage = stage ∧ (shown o e entry stage outcome fs).outcome = outcome ∧
      (shown o e entry stage outcome fs).before = fs := by
  unfold shown
  split
  · split <;> exact ⟨rfl, rfl, rfl⟩
  · exact ⟨rfl, rfl, rfl⟩

theorem map_showAll (o : Options) (e : Engine Unit) (entry : ManifestEntry) (outcomes : List (Stage × StageOutcome))
    (fs : FileSystem) : (showAll o e entry outcomes fs).1.map (fun x => (x.stage, x.outcome)) = outcomes := by
  induction outcomes generalizing fs with
  | nil => rfl
  | cons x rest ih =>
    obtain ⟨hstage, houtcome, -⟩ := shown_fields o e entry x.1 x.2 fs
    simp only [showAll, List.map_cons, ih, hstage, houtcome]

/-- What is shown of a stage is shown after the stages before it, and then come the others. -/
theorem mem_showAll {outcomes : List (Stage × StageOutcome)} {fs : FileSystem} {x : Shown}
    (h : x ∈ (showAll o e entry outcomes fs).1) :
    ∃ before after, outcomes = before ++ (x.stage, x.outcome) :: after ∧
      x = shown o e entry x.stage x.outcome (showAll o e entry before fs).2 ∧
      (showAll o e entry outcomes fs).2 = (showAll o e entry after x.after).2 := by
  induction outcomes generalizing fs with
  | nil => cases h
  | cons first rest ih =>
    obtain ⟨hstage, houtcome, -⟩ := shown_fields o e entry first.1 first.2 fs
    rcases List.mem_cons.1 h with rfl | h
    · refine ⟨[], rest, ?_, ?_, rfl⟩
      · rw [hstage, houtcome]
        rfl
      · rw [hstage, houtcome]
        rfl
    · obtain ⟨before, after, rfl, hx, hlast⟩ := ih h
      exact ⟨first :: before, after, rfl, hx, hlast⟩

theorem map_turns (o : Options) (e : Engine Unit) (entries : List ManifestEntry) (fs : FileSystem) :
    (turns o e entries fs).1.map Built.entry = entries := by
  induction entries generalizing fs with
  | nil => rfl
  | cons entry rest ih => rw [turns_cons, List.map_cons, ih]; rfl

/-- The report of a stage that was compiled is written: its source is flattened and parsed, and what was found is
written as a document. -/
def Shown.Reflected (e : Engine Unit) (entry : ManifestEntry) (x : Shown) : Prop :=
  ∃ f i, (e.flatten x.before (entry.unit.get x.stage)).result = .ok f ∧ (Interface.parse f.text).result = .ok i ∧
    x.before.write (reportPath e.settings entry.name x.stage) (Bytes.ofText (Report.ofInterface i).print) = .ok x.after

theorem reflected_eq_ok_iff (e : Engine Unit) (shader : String) (stage : Stage) (source : StageSource)
    (fs : FileSystem) :
    (reflected e shader stage source fs).1 = .ok () ↔
      ∃ f i, (e.flatten fs source).result = .ok f ∧ (Interface.parse f.text).result = .ok i ∧
        fs.write (reportPath e.settings shader stage) (Bytes.ofText (Report.ofInterface i).print) =
          .ok (reflected e shader stage source fs).2.2 := by
  unfold reflected
  dsimp only
  cases hf : (e.flatten fs source).result with
  | error error => simp
  | ok f =>
    dsimp only
    cases hi : (Interface.parse f.text).result with
    | error error => simp [hi]
    | ok i =>
      dsimp only [Engine.writeReport]
      cases hw : fs.write (reportPath e.settings shader stage) (Bytes.ofText (Report.ofInterface i).print) with
      | error fault => simp [hi, hw, Except.mapError]
      | ok files => simp [hi, hw, Except.mapError]

theorem reflectionFailed_shown (ho : o.reflect = true) (stage : Stage) (c : CompiledStage) (fs : FileSystem) :
    (shown o e entry stage (.compiled c) fs).reflectionFailed = false ↔
      (shown o e entry stage (.compiled c) fs).Reflected e entry := by
  have hreflected := reflected_eq_ok_iff e entry.name stage (entry.unit.get stage) fs
  simp only [shown, ho, if_true, Shown.reflectionFailed, Shown.Reflected, ← hreflected]
  cases (reflected e entry.name stage (entry.unit.get stage) fs).1 <;> simp

/-- Only the report of a stage that was compiled is written, and only if that was asked for. -/
theorem compiled_of_reflectionFailed {stage : Stage} {outcome : StageOutcome} {fs : FileSystem}
    (h : (shown o e entry stage outcome fs).reflectionFailed = true) : o.reflect = true ∧ ∃ c, outcome = .compiled c := by
  unfold shown at h
  split at h
  · next c =>
    split at h
    · next ho => exact ⟨ho, c, rfl⟩
    · cases h
  · cases h

end Shown

/-! ## How often something failed -/

/-- The stages whose reports were not written. -/
def Built.failedReflections (b : Built) : List Shown := b.shown.filter Shown.reflectionFailed

/-- The number of the stages that failed, and of the reports that were not written. -/
def failureCount (builds : List Built) : Nat :=
  (builds.map fun b => b.report.failures.length + b.failedReflections.length).sum

theorem length_failures (r : CompileReport) :
    r.failures.length = (r.outcomes.toList.filter fun x => x.2.isFailed).length := by
  rw [CompileReport.failures, List.length_filterMap_eq_countP, List.countP_eq_length_filter]
  congr 2
  funext x
  obtain ⟨stage, outcome⟩ := x
  cases outcome <;> rfl

/-- A report is one of success if there are no failures in it. -/
theorem isSuccess_reportOn (e : Engine Unit) (name : String) (unit : ShaderUnit) (s : Session Unit) :
    (e.reportOn name unit s).isSuccess = true ↔ (e.reportOn name unit s).failures = [] := by
  have hfailed : (e.reportOn name unit s).failures = [] ↔
      ∀ x ∈ (e.tryStages name unit s).1.outcomes.toList, x.2.isFailed = false := by
    rw [← List.length_eq_zero_iff, length_failures, List.length_eq_zero_iff, List.filter_eq_nil_iff]
    simp only [Bool.not_eq_true]
    rfl
  have hstages : (∀ x ∈ (e.tryStages name unit s).1.outcomes.toList, x.2.isFailed = false) ↔
      ∀ stage, ((e.tryStages name unit s).1.outcomes.get stage).isFailed = false := by
    simp only [PerStage.toList, List.forall_mem_map]
    exact forall_congr' fun stage => forall_prop_of_true stage.mem_all
  rw [hfailed, hstages]
  exact (e.agrees_tryStages name unit s).success

theorem isSome_complaint? (shader : String) (x : Shown) :
    (x.complaint? shader).isSome = (x.outcome.isFailed || x.reflectionFailed) := by
  obtain ⟨stage, outcome, before, reflection, after⟩ := x
  rcases outcome with _ | c | error <;> rcases reflection with _ | (text | u) <;> rfl

/-- There is one complaint for each failure. -/
theorem length_filterMap_complaint? (shader : String) {xs : List Shown}
    (h : ∀ x ∈ xs, x.reflectionFailed = true → x.outcome.isFailed = false) :
    (xs.filterMap (Shown.complaint? shader)).length =
      (xs.filter fun x => x.outcome.isFailed).length + (xs.filter Shown.reflectionFailed).length := by
  induction xs with
  | nil => rfl
  | cons x xs ih =>
    obtain ⟨hx, hxs⟩ := List.forall_mem_cons.1 h
    have hsome := isSome_complaint? shader x
    cases hc : x.complaint? shader with
    | none =>
      obtain ⟨hf, hr⟩ : x.outcome.isFailed = false ∧ x.reflectionFailed = false := by simpa [hc] using hsome
      simp [hc, hf, hr, ih hxs]
    | some line =>
      rw [hc, Option.isSome_some, eq_comm, Bool.or_eq_true] at hsome
      cases hr : x.reflectionFailed with
      | true =>
        simp [hc, hr, hx hr, ih hxs]
        omega
      | false =>
        have hf : x.outcome.isFailed = true := by simpa [hr] using hsome
        simp [hc, hr, hf, ih hxs]
        omega

theorem length_complaints (b : Built) (h : b.shown.map (fun x => (x.stage, x.outcome)) = b.report.outcomes.toList)
    (hx : ∀ x ∈ b.shown, x.reflectionFailed = true → x.outcome.isFailed = false) :
    b.complaints.length = b.report.failures.length + b.failedReflections.length := by
  have hfailures : (b.shown.filter fun x => x.outcome.isFailed).length = b.report.failures.length := by
    have hlist := congrArg (fun l => (l.filter fun y => y.2.isFailed).length) h
    rw [List.filter_map, List.length_map] at hlist
    exact hlist.trans (length_failures b.report).symm
  rw [Built.complaints, length_filterMap_complaint? _ hx, hfailures]
  rfl

/-! ## The sources of a report -/

section Sources
variable {o : Options} {e : Engine Unit} {fs fs' : FileSystem} {entry : ManifestEntry} {x : Shown}
  (hx : x ∈ (turn o e entry fs').shown)
include hx

/-- What is shown of a stage is what became of it. -/
theorem outcome_of_mem_shown : (e.tryStages entry.name entry.unit (session fs')).1.outcomes.get x.stage = x.outcome := by
  obtain ⟨before, after, houtcomes, -⟩ := mem_showAll hx
  have hmem : (x.stage, x.outcome) ∈ (e.tryStages entry.name entry.unit (session fs')).1.outcomes.toList := by
    have hlist : (e.tryStages entry.name entry.unit (session fs')).1.outcomes.toList =
      before ++ (x.stage, x.outcome) :: after := houtcomes
    rw [hlist]
    exact List.mem_append_right _ List.mem_cons_self
  obtain ⟨stage, -, hstage⟩ := List.mem_map.1 hmem
  obtain ⟨rfl, houtcome⟩ := Prod.mk.inj hstage
  exact houtcome

theorem exists_flattened_of_mem_shown {c : CompiledStage} (hc : x.outcome = .compiled c) :
    ∃ f, (e.flatten (e.reached entry.name entry.unit x.stage (session fs')).files (entry.unit.get x.stage)).result = .ok f ∧
      c.digest = Digest.ofSource (entry.unit.get x.stage).entryPoint f.text ∧ c.dependencies = f.dependencies := by
  have houtcome := outcome_of_mem_shown hx
  rw [hc, Engine.get_outcomes_tryStages] at houtcome
  split at houtcome
  · cases houtcome
  · apply Engine.exists_flattened_of_compileStage
    cases hr : (e.compileStage x.stage (entry.unit.get x.stage)
      (e.reached entry.name entry.unit x.stage (session fs'))).1 with
    | ok c' =>
      rw [hr] at houtcome
      rw [StageOutcome.compiled.inj houtcome]
    | error error =>
      rw [hr] at houtcome
      cases houtcome

/-- Between the attempt to compile a stage and the moment when it is shown, sources are not changed. -/
theorem sameOn_before {sources : Location → Prop} (h : Untouched e fs [entry] sources)
    (hw : fs'.workDir = fs.workDir) :
    (e.reached entry.name entry.unit x.stage (session fs')).files.SameOn sources x.before ∧
      x.before.workDir = fs.workDir := by
  have hreached : (e.reached entry.name entry.unit x.stage (session fs')).files.workDir = fs.workDir :=
    (h.spares.sameOn_after entry.name entry.unit (Stage.all.take x.stage.index) (s := session fs') hw).workDir.trans hw
  have hstages : (e.reached entry.name entry.unit x.stage (session fs')).files.SameOn sources
      (e.after entry.name entry.unit Stage.all (session fs')).files := by
    have hall := h.spares.sameOn_after entry.name entry.unit (x.stage :: Stage.all.drop (x.stage.index + 1)) hreached
    rw [Engine.reached, ← Engine.after_append, ← Stage.all_eq] at hall
    exact hall
  have hobject := sameOn_compiled o h.spares (h.object entry List.mem_cons_self) hw
  obtain ⟨before, after, -, hshown, -⟩ := mem_showAll hx
  have hcompiled := (hstages.trans hobject).workDir.trans hreached
  have hothers := sameOn_showAll o before (fun y _ => h.report entry List.mem_cons_self y.1) hcompiled
  have hbefore : x.before = (showAll o e entry before (turn o e entry fs').compiled).2 := by
    rw [hshown]
    exact (shown_fields ..).2.2
  rw [hbefore]
  exact ⟨(hstages.trans hobject).trans hothers, hothers.workDir.trans hcompiled⟩

/-- A report that is written for a stage is that of the text whose digest is in the object file, if the compiler
left alone what the text was flattened from. -/
theorem reported_source {sources : Location → Prop} (h : Untouched e fs [entry] sources)
    (hw : fs'.workDir = fs.workDir) {c : CompiledStage} (hc : x.outcome = .compiled c)
    (hr : x.Reflected e entry) (hd : ∀ l ∈ c.dependencies, sources l) :
    ∃ f i, (e.flatten (e.reached entry.name entry.unit x.stage (session fs')).files
        (entry.unit.get x.stage)).result = .ok f ∧
      Digest.ofSource (entry.unit.get x.stage).entryPoint f.text = (turn o e entry fs').report.header.get x.stage ∧
      (Interface.parse f.text).result = .ok i ∧
      x.after.content? (fs.place (reportPath e.settings entry.name x.stage)) =
        some (Bytes.ofText (Report.ofInterface i).print) := by
  obtain ⟨f, hf, hdigest, hdependencies⟩ := exists_flattened_of_mem_shown hx hc
  obtain ⟨f', i, hf', hi, hwrite⟩ := hr
  obtain ⟨hsame, hbefore⟩ := sameOn_before hx h hw
  obtain rfl : f' = f :=
    e.flatten_again hsame.workDir hf hf' fun l hl => hsame.content l (hd l (hdependencies ▸ hl))
  have hheader : (turn o e entry fs').report.header.get x.stage = c.digest := by
    have hget := (e.agrees_tryStages entry.name entry.unit (session fs')).digest x.stage
    rw [outcome_of_mem_shown hx, hc] at hget
    exact hget
  obtain ⟨-, -, -, hcontent⟩ := FileSystem.write_spec hwrite
  refine ⟨f', i, hf, by rw [hheader, hdigest], hi, ?_⟩
  rw [hcontent, if_pos (FileSystem.place_of_workDir hbefore _).symm]

/-- A report that was written for a stage is not changed when the others are shown. -/
theorem content_shown {m : Manifest} (hm : m.WellFormed) (he : entry ∈ m.entries) (hw : x.after.workDir = fs.workDir) :
    (turn o e entry fs').after.content? (fs.place (reportPath e.settings entry.name x.stage)) =
      x.after.content? (fs.place (reportPath e.settings entry.name x.stage)) := by
  have hof : entry.name ∈ m.entries.map ManifestEntry.name := List.mem_map_of_mem he
  obtain ⟨before, after, houtcomes, -, hlast⟩ := mem_showAll hx
  -- each stage is shown once
  have hother : ∀ y ∈ after, y.1 ≠ x.stage := by
    have hn : Stage.all.Nodup := by decide
    have hstages : Stage.all = before.map Prod.fst ++ x.stage :: after.map Prod.fst := by
      have hmap := congrArg (List.map Prod.fst) houtcomes
      rwa [PerStage.fst_toList, List.map_append, List.map_cons] at hmap
    rw [hstages] at hn
    intro y hy hstage
    exact (List.nodup_cons.1 (List.nodup_append.1 hn).2.1).1 (hstage ▸ List.mem_map_of_mem hy)
  have hne : ∀ y ∈ after, fs.place (reportPath e.settings entry.name y.1) ≠
      fs.place (reportPath e.settings entry.name x.stage) := by
    intro y hy hp
    have hsame := Output.eq_of_place hm e.settings fs (a := .report entry.name y.1) (b := .report entry.name x.stage)
      hof hof (by rw [Output.path, Output.path, hp])
    exact hother y hy (Output.report.inj hsame).2
  have hshown := sameOn_showAll o (P := fun l => l = fs.place (reportPath e.settings entry.name x.stage)) after hne hw
  have hcontent := hshown.content _ rfl
  rwa [← hlast] at hcontent

end Sources

/-! ## The whole run -/

theorem noSlash_of_isIdentifier {name : String} (h : Written.isIdentifier name = true) : '/' ∉ name.toList :=
  fun hslash => absurd (Written.isWordChar_of_isIdentifier h hslash) (by decide)

theorem wellFormed_of_load {fs : FileSystem} {p : Path} {m : Manifest} (h : Manifest.load fs p = .ok m) :
    m.WellFormed := by
  simp only [Manifest.load] at h
  split at h
  · split at h
    · exact Written.wellFormed_of_parse h
    · cases h
  · cases h

/-- What a run comes to, if this happened to its shaders. -/
structure Truthful (launch : Launcher) (logger : Logger) (o : Options) (e : Engine Unit) (sources : Location → Prop)
    (fs : FileSystem) (m : Manifest) (builds : List Built) (ran : Ran) : Prop where
  /-- The shaders are compiled in the order of the manifest, all of them. -/
  order : builds.map Built.entry = m.entries
  compiled : ∀ b ∈ builds,
    e.compileShader b.entry.name b.entry.unit (session b.before) = (.ok b.report, ⟨b.compiled, (), b.records⟩)
  /-- Every object file is there. -/
  object : ∀ b ∈ builds,
    ran.files.content? (fs.place (e.settings.objectPath b.entry.name)) = some b.report.header.toBytes
  /-- Every stage is shown with what became of it. -/
  shown : ∀ b ∈ builds, b.shown.map (fun x => (x.stage, x.outcome)) = b.report.outcomes.toList
  output : ran.output = unlines (builds.flatMap Built.lines)
  /-- Besides the log there are the complaints, and the number of failures in the end. -/
  errors : ran.errors = logger.text 0 (builds.flatMap Built.notices ++
    (if failureCount builds = 0 then [] else [(failureCount builds).repr ++ " stage(s) failed"]).map .line)
  complaints : ∀ b ∈ builds, b.notices.filterMap Notice.line? = b.complaints
  /-- Without the log there is nothing else. -/
  unlogged : logger.Quiet → ran.errors = unlines (builds.flatMap Built.complaints ++
    if failureCount builds = 0 then [] else [(failureCount builds).repr ++ " stage(s) failed"])
  /-- In the log there is one error for each stage that failed. -/
  logged : ∀ b ∈ builds, errorsIn b.records = b.report.failures.map fun x => .stageFailed b.entry.name x.1 x.2
  status : ran.status = 0 ↔ (∀ b ∈ builds, b.report.isSuccess = true) ∧
    (o.reflect = true → ∀ b ∈ builds, ∀ x ∈ b.shown, ∀ c, x.outcome = .compiled c → x.Reflected e b.entry)
  /-- A report that is written is that of the text whose digest is in the object file. It is there in the end, if
  the compiler leaves it alone. -/
  reflected : ∀ b ∈ builds, ∀ x ∈ b.shown, ∀ c, x.outcome = .compiled c → x.Reflected e b.entry →
    (∀ l ∈ c.dependencies, sources l) →
    ∃ f i, (e.flatten (e.reached b.entry.name b.entry.unit x.stage (session b.before)).files
        (b.entry.unit.get x.stage)).result = .ok f ∧
      Digest.ofSource (b.entry.unit.get x.stage).entryPoint f.text = b.report.header.get x.stage ∧
      (Interface.parse f.text).result = .ok i ∧
      x.after.content? (fs.place (reportPath e.settings b.entry.name x.stage)) =
        some (Bytes.ofText (Report.ofInterface i).print) ∧
      ((command o e.settings).LeavesAlone launch fs.workDir
          (fun l => l = fs.place (reportPath e.settings b.entry.name x.stage)) →
        ran.files.content? (fs.place (reportPath e.settings b.entry.name x.stage)) =
          some (Bytes.ofText (Report.ofInterface i).print))

section Complaints
variable {o : Options} {e : Engine Unit} {entries : List ManifestEntry} {fs : FileSystem}

theorem map_shown {b : Built} (hb : b ∈ (turns o e entries fs).1) :
    b.shown.map (fun x => (x.stage, x.outcome)) = b.report.outcomes.toList := by
  obtain ⟨entry, start, rfl⟩ := exists_turn hb
  exact map_showAll ..

theorem exists_shown {b : Built} (hb : b ∈ (turns o e entries fs).1) {x : Shown} (hx : x ∈ b.shown) :
    ∃ before, x = shown o e b.entry x.stage x.outcome before := by
  obtain ⟨entry, start, rfl⟩ := exists_turn hb
  obtain ⟨before, after, -, hshown, -⟩ := mem_showAll hx
  exact ⟨_, hshown⟩

theorem isSuccess_of_mem_turns {b : Built} (hb : b ∈ (turns o e entries fs).1) :
    b.report.isSuccess = true ↔ b.report.failures = [] := by
  obtain ⟨entry, start, rfl⟩ := exists_turn hb
  exact isSuccess_reportOn ..

theorem compiled_of_mem_shown {b : Built} (hb : b ∈ (turns o e entries fs).1) {x : Shown} (hx : x ∈ b.shown)
    (h : x.reflectionFailed = true) : o.reflect = true ∧ ∃ c, x.outcome = .compiled c := by
  obtain ⟨t, hshown⟩ := exists_shown hb hx
  rw [hshown] at h
  exact compiled_of_reflectionFailed h

theorem length_flatMap_complaints :
    ((turns o e entries fs).1.flatMap Built.complaints).length = failureCount (turns o e entries fs).1 := by
  rw [List.length_flatMap, failureCount]
  refine congrArg List.sum (List.map_congr_left fun b hb => ?_)
  refine length_complaints b (map_shown hb) fun x hx hr => ?_
  obtain ⟨-, c, hc⟩ := compiled_of_mem_shown hb hx hr
  rw [hc]
  rfl

theorem failureCount_eq_zero_iff :
    failureCount (turns o e entries fs).1 = 0 ↔ (∀ b ∈ (turns o e entries fs).1, b.report.isSuccess = true) ∧
      (o.reflect = true → ∀ b ∈ (turns o e entries fs).1, ∀ x ∈ b.shown, ∀ c, x.outcome = .compiled c →
        x.Reflected e b.entry) := by
  have hcount : failureCount (turns o e entries fs).1 = 0 ↔
      ∀ b ∈ (turns o e entries fs).1, b.report.isSuccess = true ∧ ∀ x ∈ b.shown, x.reflectionFailed = false := by
    have hb : ∀ b ∈ (turns o e entries fs).1, b.report.failures.length + b.failedReflections.length = 0 ↔
        b.report.isSuccess = true ∧ ∀ x ∈ b.shown, x.reflectionFailed = false := by
      intro b hb
      rw [isSuccess_of_mem_turns hb]
      simp [Built.failedReflections]
    simp only [failureCount, List.sum_eq_zero_iff_forall_eq_nat, List.forall_mem_map]
    exact forall₂_congr hb
  rw [hcount]
  have hreflected : ∀ b ∈ (turns o e entries fs).1, ∀ x ∈ b.shown, ∀ c, x.outcome = .compiled c → o.reflect = true →
      (x.reflectionFailed = false ↔ x.Reflected e b.entry) := by
    intro b hb x hx c hc ho
    obtain ⟨t, hshown⟩ := exists_shown hb hx
    rw [hc] at hshown
    rw [hshown]
    exact reflectionFailed_shown ho _ _ _
  constructor
  · intro h
    exact ⟨fun b hb => (h b hb).1, fun ho b hb x hx c hc => (hreflected b hb x hx c hc ho).1 ((h b hb).2 x hx)⟩
  · rintro ⟨hsuccess, hall⟩ b hb
    refine ⟨hsuccess b hb, fun x hx => Bool.eq_false_iff.2 fun hfailed => ?_⟩
    obtain ⟨ho, c, hc⟩ := compiled_of_mem_shown hb hx hfailed
    rw [(hreflected b hb x hx c hc ho).2 (hall ho b hb x hx c hc)] at hfailed
    cases hfailed

theorem complaints_eq_nil_iff :
    (turns o e entries fs).1.flatMap Built.complaints = [] ↔ failureCount (turns o e entries fs).1 = 0 := by
  rw [← length_flatMap_complaints, List.length_eq_zero_iff]

end Complaints

section Whole
variable {o : Options} {launch : Launcher} {settings : Settings} {fs : FileSystem} {m : Manifest}

theorem compileShader_of_mem_turns {e : Engine Unit} {entries : List ManifestEntry} {b : Built}
    (hb : b ∈ (turns o e entries fs).1) (hw : b.written = .ok ()) :
    e.compileShader b.entry.name b.entry.unit (session b.before) = (.ok b.report, ⟨b.compiled, (), b.records⟩) := by
  obtain ⟨entry, start, rfl⟩ := exists_turn hb
  have hwritten : (e.writeObject entry.name entry.unit (session start)).1 = .ok () := hw
  show e.compileShader entry.name entry.unit (session start) = _
  rw [e.compileShader_eq, hwritten]
  rfl

/-- The log of a shader has one error for each stage that failed. -/
theorem errorsIn_of_mem_turns {entries : List ManifestEntry} {b : Built}
    (hb : b ∈ (turns o (engine launch o settings) entries fs).1) :
    errorsIn b.records = b.report.failures.map fun x => .stageFailed b.entry.name x.1 x.2 := by
  obtain ⟨entry, start, rfl⟩ := exists_turn hb
  exact (engine launch o settings).errorsIn_writeObject _ _ _ (Command.onlyWarns launch _)

variable {sources : Location → Prop} (hslash : ∀ entry ∈ m.entries, '/' ∉ entry.name.toList)
  (hsources : ∀ l, sources l → ¬ l.Below (fs.place settings.outputDir))
include hslash hsources

theorem spares_run
    (hcompiler : (command o settings).LeavesAlone launch fs.workDir fun l =>
      sources l ∨ ∃ entry ∈ m.entries, l = fs.place (settings.objectPath entry.name)) :
    (engine launch o settings).Spares fs fun l =>
      sources l ∨ ∃ entry ∈ m.entries, l = fs.place (settings.objectPath entry.name) := by
  refine spares_engine hcompiler fun l hl hbelow => ?_
  rcases hl with hl | ⟨entry, he, rfl⟩
  · exact hsources l hl hbelow.of_parent
  · rw [place_objectPath settings fs (hslash entry he), Location.parent_child] at hbelow
    exact hbelow.2 rfl

omit hsources in
theorem spares_report {entry : ManifestEntry} (he : entry ∈ m.entries) {stage : Stage}
    (hcompiler : (command o settings).LeavesAlone launch fs.workDir fun l =>
      l = fs.place (reportPath settings entry.name stage)) :
    (engine launch o settings).Spares fs fun l => l = fs.place (reportPath settings entry.name stage) := by
  refine spares_engine hcompiler ?_
  rintro l rfl hbelow
  rw [place_reportPath settings fs (hslash entry he), Location.parent_child] at hbelow
  exact hbelow.2 rfl

/-- Neither object files nor reports are written over sources. -/
theorem untouched_sources (hspares : (engine launch o settings).Spares fs sources) :
    Untouched (engine launch o settings) fs m.entries sources where
  spares := hspares
  object entry he hl := by
    refine hsources _ hl ?_
    rw [engine, place_objectPath settings fs (hslash entry he)]
    exact Location.below_child _ _
  report entry he stage hl := by
    refine hsources _ hl ?_
    rw [engine, place_reportPath settings fs (hslash entry he)]
    exact Location.below_child _ _

end Whole

/-- No program can be started. -/
def noPrograms : Launcher := fun _ _ fs => (.error .notFound, fs)

def sampleArgs : List String := ["-t", "m", "-s", "src", "-o", "out", "--reflect"]

def sampleOptions : Options where
  manifest := ⟨"m"⟩
  source := some ⟨"src"⟩
  output := some ⟨"out"⟩
  reflect := true

def sampleSettings : Settings where
  sourceDir := ⟨"src"⟩
  outputDir := ⟨"out"⟩

def sampleEntry : ManifestEntry := ⟨"A", ⟨{ file := ⟨"a"⟩ }, {}, {}, {}, { file := ⟨"b"⟩ }⟩, 1⟩

/-- A manifest, the source of one of the two stages in it, and the bytecode for this source. -/
def sampleFiles : FileSystem where
  nodes := [
    (⟨["m"]⟩, .file (Bytes.ofText
      "shader A \x7b stage vertex \x7b file = a; \x7d stage pixel \x7b file = b; \x7d \x7d")),
    (⟨["src"]⟩, .directory), (⟨["src", "a"]⟩, .file (Bytes.ofText "float f;\n")), (⟨["out"]⟩, .directory),
    (⟨["out", "cache"]⟩, .directory), (⟨["out", "cache", "1"]⟩, .directory),
    (⟨["out", "cache", "1", "8aba50cae4b1e3053a2b6bd69da192e15333aaf162bbad85c704ff731cf52ca4"]⟩, .file [])]

def sampleEngine : Engine Unit := engine noPrograms sampleOptions sampleSettings

/-- The stage that is compiled. -/
def sampleCompiled : CompiledStage :=
  let digest := Digest.ofSource "" "float f;\n"
  ⟨digest, true, sampleEngine.cache.path digest, [⟨["src", "a"]⟩]⟩

theorem linesOf_sample : sampleEngine.preprocessor.linesOf "float f;\n" = [⟨"float f;".toList, ['\n']⟩] := by cbv

theorem flatten_sample : sampleEngine.flatten sampleFiles { file := ⟨"a"⟩ } =
    ⟨.ok ⟨"float f;\n", [⟨["src", "a"]⟩]⟩, []⟩ := by
  have hfile : sampleFiles.isFile (sampleEngine.settings.sourceDir.join ⟨"a"⟩) = true := by decide
  have hopen : Preprocessor.openFile sampleFiles [] (sampleEngine.settings.sourceDir.join ⟨"a"⟩) =
      .ok (⟨["src", "a"]⟩, "float f;\n") := Engine.eq_ok_of_toOption (by decide)
  have hact : ∀ s : Preprocessor.State, Preprocessor.act (Location.path ⟨["src", "a"]⟩) 1 .root s
      ⟨"float f;".toList, ['\n']⟩ = .proceed .root (s.write ⟨"float f;".toList, ['\n']⟩) := fun _ => rfl
  rw [Engine.flatten, if_pos hfile, Preprocessor.processFile, hopen]
  dsimp only
  rw [linesOf_sample, Preprocessor.run_proceed _ _ _ _ (hact _), Preprocessor.run]
  rfl

/-- What is filled in for the stages. -/
def sampleTally : Tally where
  header := ⟨⟨sampleCompiled.digest, .zero, .zero, .zero, .zero⟩⟩
  failed := Stage.pixel.flag
  outcomes := ⟨.compiled sampleCompiled, .skipped, .skipped, .skipped, .failed (.fileNotFound ⟨"src/b"⟩)⟩

theorem tryStages_sample : sampleEngine.tryStages "A" sampleEntry.unit (session sampleFiles) =
    (sampleTally, ⟨sampleFiles, (), [.stageFailed "A" .pixel (.fileNotFound ⟨"src/b"⟩)]⟩) := by
  let s := session sampleFiles
  have habsent : ∀ stage, (sampleEntry.unit.get stage).isAbsent = true →
      sampleEngine.stageOutcome "A" sampleEntry.unit stage s = (.skipped, s) := by
    intro stage hs
    rw [Engine.stageOutcome_eq, if_pos hs]
  have hvertex : sampleEngine.stageOutcome "A" sampleEntry.unit .vertex s = (.compiled sampleCompiled, s) := by
    have hpresent : ¬ (sampleEntry.unit.get .vertex).isAbsent = true := by decide
    have hflat : sampleEngine.flatten s.files (sampleEntry.unit.get .vertex) = _ := flatten_sample
    have hcached : sampleEngine.cache.contains sampleFiles (Digest.ofSource "" "float f;\n") = true := by
      decide +kernel
    have hthere : sampleEngine.cache.contains s.files
        (Digest.ofSource (sampleEntry.unit.get .vertex).entryPoint "float f;\n") = true := hcached
    rw [Engine.stageOutcome_eq, if_neg hpresent, Engine.compileStage_run, hflat]
    dsimp only
    rw [if_pos hthere]
    rfl
  have hpixel : sampleEngine.stageOutcome "A" sampleEntry.unit .pixel s =
      (.failed (.fileNotFound ⟨"src/b"⟩), s.note [.stageFailed "A" .pixel (.fileNotFound ⟨"src/b"⟩)]) := by
    have hpresent : ¬ (sampleEntry.unit.get .pixel).isAbsent = true := by decide
    have hmissing : ¬ sampleFiles.isFile (sampleEngine.settings.sourceDir.join ⟨"b"⟩) = true := by decide
    have hflat : sampleEngine.flatten s.files (sampleEntry.unit.get .pixel) =
        ⟨.error (.fileNotFound ⟨"src/b"⟩), []⟩ := by
      rw [Engine.flatten]
      exact if_neg hmissing
    rw [Engine.stageOutcome_eq, if_neg hpresent, Engine.compileStage_run, hflat]
    rfl
  exact Engine.tryStages_of_steps hvertex (habsent .hull (by decide)) (habsent .domain (by decide))
    (habsent .geometry (by decide)) hpixel

theorem written_sample : (sampleEngine.writeObject "A" sampleEntry.unit (session sampleFiles)).1 = .ok () := by
  have hobject : (sampleTally.header.write sampleFiles ⟨"out/A.tsh"⟩).1 = .ok () :=
    Engine.eq_ok_of_toOption (by decide +kernel)
  rw [Engine.writeObject, Engine.reportOn, tryStages_sample]
  exact hobject

end ShaderBuild.CommandLine
