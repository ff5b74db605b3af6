import ShaderBuild.Proofs.OutputPaths
import ShaderBuild.Proofs.Transcript
/-!
# Where a run writes

What a run writes has a place of its own below the output directory: object files and reports are in it, under
different names, and all else is further down (`spares_engine`). So a run leaves alone whatever its compiler leaves
alone and is not there (`Untouched.sameOn_turns`), and every object file is there at the end with what was written
to it (`content_turns`).
-/

namespace ShaderBuild

open FileSystem (SameOn)

/-! ## Places in the output directory -/

theorem Location.parent_child (dir : Location) (name : String) : (dir.child name).parent = dir := by
  simp [child, parent]

theorem Location.Below.of_parent {l dir : Location} (h : l.parent.Below dir) : l.Below dir := by
  obtain ⟨hp, hne⟩ := h
  have hparent : l.parent.names <+: l.names := List.dropLast_prefix _
  refine ⟨hp.trans hparent, ?_⟩
  rintro rfl
  have hlength := hp.length_le
  simp only [Location.parent, List.length_dropLast] at hlength
  have hnil : l.names = [] := List.length_eq_zero_iff.1 (by omega)
  exact hne (by cases l; simp_all [Location.parent])

namespace CommandLine

section Places
variable (settings : Settings) (fs : FileSystem)

theorem place_objectPath {name : String} (h : '/' ∉ name.toList) :
    fs.place (settings.objectPath name) = (fs.place settings.outputDir).child (name ++ ".tsh") := by
  have hname : name ++ "." ++ Settings.objectExtension = name ++ ".tsh" := by
    rw [String.append_assoc]
    rfl
  rw [Settings.objectPath, hname]
  refine fs.place_named _ ?_ ?_
  · simpa [String.toList_append] using h
  · simp [String.toList_append]

theorem place_reportPath {name : String} (h : '/' ∉ name.toList) (stage : Stage) :
    fs.place (reportPath settings name stage) =
      (fs.place settings.outputDir).child (stageName name stage ++ ".json") := by
  have hstage : '/' ∉ stage.name.toList := by cases stage <;> decide
  refine fs.place_named _ ?_ ?_
  · simpa [stageName, String.toList_append] using ⟨h, hstage⟩
  · simp [String.toList_append]

theorem parent_place_workFile (o : Options) {name : String} (h : '/' ∉ name.toList) (hl : 2 < name.toList.length) :
    (fs.place ((command o settings).workDir.join ⟨name⟩)).parent = (fs.place settings.outputDir).child "tmp" := by
  have hdir : fs.place (command o settings).workDir = (fs.place settings.outputDir).child "tmp" :=
    fs.place_named _ (by decide) (by decide)
  rw [fs.place_named _ h hl, Location.parent_child, hdir]

end Places

/-- Compiling stages writes nothing but files in directories below the output directory. -/
theorem spares_engine {launch : Launcher} {o : Options} {settings : Settings} {fs : FileSystem}
    {P : Location → Prop} (hc : (command o settings).LeavesAlone launch fs.workDir P)
    (hp : ∀ l, P l → ¬ l.parent.Below (fs.place settings.outputDir)) : (engine launch o settings).Spares fs P where
  backend r s hw := by
    have hwork : ∀ ext : String, '/' ∉ ext.toList → 2 < ext.toList.length →
        ¬ P (s.files.place ((command o settings).workDir.join ⟨Command.stem r ++ ext⟩)) := by
      intro ext hslash hlength h
      have hname : '/' ∉ (Command.stem r ++ ext).toList := by
        simpa [String.toList_append] using ⟨Command.stem_noSlash r, hslash⟩
      refine hp _ h ?_
      rw [parent_place_workFile settings s.files o hname (by rw [String.toList_append, List.length_append]; omega),
        FileSystem.place_of_workDir hw]
      exact Location.below_child _ _
    have hinput : ¬ P (s.files.place ((command o settings).inputPath r)) := by
      rw [Command.inputPath]
      exact hwork ".hlsl" (by decide) (by decide)
    have houtput : ¬ P (s.files.place ((command o settings).outputPath r)) := by
      rw [Command.outputPath]
      exact hwork ".bin" (by decide) (by decide)
    rw [← hw] at hc
    exact Command.sameOn_compile hc r hinput houtput
  entry d h := by
    refine hp _ h ?_
    rw [Cache.place, Cache.path, FileSystem.place_join _ _ (Digest.not_mem_hex d).2 (Digest.hex_named d),
      Location.parent_child, Engine.cache, Settings.place_cacheDir]
    exact (Location.below_child _ _).child _

/-! ## What a run leaves alone -/

section Shaders
variable {o : Options} {e : Engine Unit} {fs : FileSystem} {P : Location → Prop}

theorem sameOn_reflected {shader : String} {stage : Stage} (source : StageSource)
    (hp : ¬ P (fs.place (reportPath e.settings shader stage))) :
    fs.SameOn P (reflected e shader stage source fs).2.2 := by
  unfold reflected
  dsimp only
  cases (e.flatten fs source).result with
  | error error => exact .refl P _
  | ok f =>
    dsimp only
    cases (Interface.parse f.text).result with
    | error error => exact .refl P _
    | ok i =>
      dsimp only [Engine.writeReport]
      split
      · next hw => exact .write hw hp
      · exact .refl P _

theorem sameOn_shown (o : Options) {entry : ManifestEntry} {stage : Stage} (outcome : StageOutcome)
    (hp : ¬ P (fs.place (reportPath e.settings entry.name stage))) :
    fs.SameOn P (shown o e entry stage outcome fs).after := by
  unfold shown
  split
  · split
    · exact sameOn_reflected _ hp
    · exact .refl P _
  · exact .refl P _

theorem sameOn_showAll (o : Options) {entry : ManifestEntry} (outcomes : List (Stage × StageOutcome))
    (hp : ∀ x ∈ outcomes, ¬ P (fs.place (reportPath e.settings entry.name x.1))) {fs' : FileSystem}
    (hw : fs'.workDir = fs.workDir) : fs'.SameOn P (showAll o e entry outcomes fs').2 := by
  induction outcomes generalizing fs' with
  | nil => exact .refl P _
  | cons x rest ih =>
    obtain ⟨hx, hrest⟩ := List.forall_mem_cons.1 hp
    have hshown : fs'.SameOn P (shown o e entry x.1 x.2 fs').after :=
      sameOn_shown o x.2 (by rw [FileSystem.place_of_workDir hw]; exact hx)
    exact hshown.trans (ih hrest (hshown.workDir.trans hw))

/-- None of these places belongs to a file that is written when these shaders are compiled. -/
structure Untouched (e : Engine Unit) (fs : FileSystem) (entries : List ManifestEntry) (P : Location → Prop) :
    Prop where
  spares : e.Spares fs P
  object : ∀ entry ∈ entries, ¬ P (fs.place (e.settings.objectPath entry.name))
  report : ∀ entry ∈ entries, ∀ stage, ¬ P (fs.place (reportPath e.settings entry.name stage))

theorem Untouched.subset {entries entries' : List ManifestEntry} (h : Untouched e fs entries P)
    (hs : entries' ⊆ entries) : Untouched e fs entries' P :=
  ⟨h.spares, fun entry he => h.object entry (hs he), fun entry he => h.report entry (hs he)⟩

/-- An object file is written after the stages of its shader. -/
theorem sameOn_compiled (o : Options) {entry : ManifestEntry} {fs' : FileSystem} (hs : e.Spares fs P)
    (ho : ¬ P (fs.place (e.settings.objectPath entry.name))) (hw : fs'.workDir = fs.workDir) :
    (e.after entry.name entry.unit Stage.all (session fs')).files.SameOn P (turn o e entry fs').compiled := by
  have hafter := hs.sameOn_after entry.name entry.unit Stage.all (s := session fs') hw
  have hfiles := congrArg Prod.snd (written_turn o e entry fs')
  dsimp only [Header.write] at hfiles
  rw [hfiles]
  refine .writeCreating _ _ ?_
  rw [hafter.place, files_session, FileSystem.place_of_workDir hw]
  exact ho

theorem Untouched.sameOn_turn {entries : List ManifestEntry} (h : Untouched e fs entries P) (o : Options)
    {entry : ManifestEntry} (he : entry ∈ entries) {fs' : FileSystem} (hw : fs'.workDir = fs.workDir) :
    fs'.SameOn P (turn o e entry fs').after := by
  have hafter : fs'.SameOn P (e.after entry.name entry.unit Stage.all (session fs')).files :=
    h.spares.sameOn_after entry.name entry.unit Stage.all (s := session fs') hw
  have hcompiled := hafter.trans (sameOn_compiled o h.spares (h.object entry he) hw)
  exact hcompiled.trans (sameOn_showAll o _ (fun x _ => h.report entry he x.1) (hcompiled.workDir.trans hw))

theorem Untouched.sameOn_turns {entries : List ManifestEntry} (h : Untouched e fs entries P) (o : Options)
    {fs' : FileSystem} (hw : fs'.workDir = fs.workDir) : fs'.SameOn P (turns o e entries fs').2 := by
  induction entries generalizing fs' with
  | nil => exact .refl P _
  | cons entry rest ih =>
    have hturn := h.sameOn_turn o List.mem_cons_self hw
    exact hturn.trans (ih (h.subset (List.subset_cons_self _ _)) (hturn.workDir.trans hw))

end Shaders

/-! ## What is there in the end -/

section Last
variable {o : Options} {e : Engine Unit} {fs : FileSystem}

/-- A shader has its turn after those before it, and what comes after it are the turns of the others. -/
theorem mem_turns {entries : List ManifestEntry} {b : Built} (h : b ∈ (turns o e entries fs).1) :
    ∃ before after, entries = before ++ b.entry :: after ∧ b = turn o e b.entry (turns o e before fs).2 ∧
      (turns o e entries fs).2 = (turns o e after b.after).2 := by
  induction entries generalizing fs with
  | nil => cases h
  | cons first rest ih =>
    rw [turns_cons] at h
    rcases List.mem_cons.1 h with rfl | h
    · exact ⟨[], rest, rfl, rfl, rfl⟩
    · obtain ⟨before, after, rfl, hb, hlast⟩ := ih h
      exact ⟨first :: before, after, rfl, hb, hlast⟩

theorem entry_mem_of_mem_turns {entries : List ManifestEntry} {b : Built} (h : b ∈ (turns o e entries fs).1) :
    b.entry ∈ entries := by
  obtain ⟨before, after, rfl, -, -⟩ := mem_turns h
  exact List.mem_append_right before List.mem_cons_self

/-- What happened to a shader is its turn, with some files to begin with. -/
theorem exists_turn {entries : List ManifestEntry} {b : Built} (h : b ∈ (turns o e entries fs).1) :
    ∃ entry start, b = turn o e entry start := by
  obtain ⟨before, after, -, hturn, -⟩ := mem_turns h
  exact ⟨_, _, hturn⟩

/-- Paths lead to the same places all along. -/
theorem Untouched.workDir {P : Location → Prop} {entries : List ManifestEntry} (h : Untouched e fs entries P) {b : Built}
    (hb : b ∈ (turns o e entries fs).1) :
    b.before.workDir = fs.workDir ∧ b.compiled.workDir = fs.workDir ∧ b.after.workDir = fs.workDir := by
  obtain ⟨before, after, rfl, hturn, -⟩ := mem_turns hb
  have hmine : b.entry ∈ before ++ b.entry :: after := by simp
  have hbefore := ((h.subset (List.subset_append_left before _)).sameOn_turns o rfl).workDir
  generalize (turns o e before fs).2 = start at hturn hbefore
  have hafter := h.spares.sameOn_after b.entry.name b.entry.unit Stage.all (s := session start) hbefore
  have hcompiled := (sameOn_compiled o h.spares (h.object b.entry hmine) hbefore).workDir.trans
    (hafter.workDir.trans hbefore)
  have hlast := (h.sameOn_turn o hmine hbefore).workDir.trans hbefore
  rw [hturn]
  exact ⟨hbefore, hcompiled, hlast⟩

/-- The object file of a shader, or the report of one of its stages. -/
def IsOf (shader : String) (output : Output) : Prop := output = .object shader ∨ ∃ stage, output = .report shader stage

/-- What was written for a shader is there after the last one, unless the compiler changed it. -/
theorem content_turns {m : Manifest} (hm : m.WellFormed) {b : Built} (hb : b ∈ (turns o e m.entries fs).1)
    {output : Output} (hof : IsOf b.entry.name output)
    (hs : e.Spares fs fun l => l = fs.place (output.path e.settings)) (hw : b.after.workDir = fs.workDir) :
    (turns o e m.entries fs).2.content? (fs.place (output.path e.settings)) =
      b.after.content? (fs.place (output.path e.settings)) := by
  obtain ⟨before, after, hentries, -, hlast⟩ := mem_turns hb
  have hmem : ∀ entry ∈ b.entry :: after, entry.name ∈ m.entries.map ManifestEntry.name := fun entry he =>
    List.mem_map_of_mem (hentries ▸ List.mem_append_right _ he)
  have houtput : output.Of m := by
    rcases hof with rfl | ⟨stage, rfl⟩ <;> exact hmem b.entry List.mem_cons_self
  -- the other shaders have other names
  have hnew : ∀ entry ∈ after, entry.name ≠ b.entry.name := by
    have hn := hm.distinct
    rw [hentries, List.map_append, List.map_cons] at hn
    intro entry he hname
    exact (List.nodup_cons.1 (List.nodup_append.1 hn).2.1).1 (hname ▸ List.mem_map_of_mem he)
  have hne : ∀ {other : Output}, other.Of m → fs.place (other.path e.settings) = fs.place (output.path e.settings) →
      other = output := fun hother he =>
    Output.eq_of_place hm e.settings fs hother houtput (by rw [he])
  have huntouched : Untouched e fs after fun l => l = fs.place (output.path e.settings) := by
    refine ⟨hs, fun entry he hl => ?_, fun entry he stage hl => ?_⟩
    · obtain rfl : Output.object entry.name = output := hne (hmem entry (List.mem_cons_of_mem _ he)) hl
      rcases hof with hof | ⟨stage, hof⟩
      · exact hnew entry he (Output.object.inj hof)
      · cases hof
    · obtain rfl : Output.report entry.name stage = output := hne (hmem entry (List.mem_cons_of_mem _ he)) hl
      rcases hof with hof | ⟨stage', hof⟩
      · cases hof
      · exact hnew entry he (Output.report.inj hof).1
  rw [hlast]
  exact (huntouched.sameOn_turns o hw).content _ rfl

theorem content_compiled {entry : ManifestEntry} {fs' : FileSystem}
    (hc : (turn o e entry fs').compiled.workDir = fs.workDir) (hw : (turn o e entry fs').written = .ok ()) :
    (turn o e entry fs').compiled.content? (fs.place (e.settings.objectPath entry.name)) =
      some (turn o e entry fs').report.header.toBytes := by
  have hpair := written_turn o e entry fs'
  rw [hw] at hpair
  have hwritten := FileSystem.read_of_writeCreating (Header.writeCreating_of_write hpair.symm)
  rw [← FileSystem.place_of_workDir hc]
  exact FileSystem.content?_of_read hwritten.2

/-- The object file of a shader is not changed when its stages are shown. -/
theorem content_turn {m : Manifest} (hm : m.WellFormed) {b : Built} (hb : b ∈ (turns o e m.entries fs).1)
    (hc : b.compiled.workDir = fs.workDir) (hwritten : b.written = .ok ()) :
    b.after.content? (fs.place (e.settings.objectPath b.entry.name)) = some b.report.header.toBytes := by
  have hof : b.entry.name ∈ m.entries.map ManifestEntry.name := List.mem_map_of_mem (entry_mem_of_mem_turns hb)
  obtain ⟨entry, start, rfl⟩ := exists_turn hb
  have hne : ∀ stage, fs.place ((Output.report entry.name stage).path e.settings) ≠
      fs.place ((Output.object entry.name).path e.settings) := by
    intro stage hp
    cases Output.eq_of_place hm e.settings fs (a := .report entry.name stage) (b := .object entry.name) hof hof
      (by rw [hp])
  have hshown := sameOn_showAll o (P := fun l => l = fs.place (e.settings.objectPath entry.name))
    (turn o e entry start).report.outcomes.toList (fun x _ => hne x.1) hc
  exact (hshown.content _ rfl).trans (content_compiled hc hwritten)

end Last

end CommandLine

end ShaderBuild
