import Mathlib.Data.List.Induction
import Mathlib.Data.List.TakeWhile
import ShaderBuild.Proofs.Directories
import ShaderBuild.Proofs.Untouched
/-!
# What a compiler leaves behind

A command backend has six exits (`Exit`): it cannot create its directory, cannot write the source, cannot start the
program, the program fails, its output cannot be read, or there is bytecode. Up to there it creates directories and
writes the source (`Prepared`). Both files of the request are then removed if they are there, and nothing else is
touched (`Removed`). So whatever the program did, none of the two is left (`compile_cleans_up`).
-/

namespace ShaderBuild

/-- A path and the paths of the directories above it. -/
def Path.withParents (p : Path) : List Path :=
  match _h : p.parent? with
  | none => [p]
  | some above => p :: above.withParents
termination_by p.text.length
decreasing_by exact Path.length_parent_lt _h

theorem Path.self_mem_withParents (p : Path) : p ∈ p.withParents := by
  rw [withParents]
  split <;> exact List.mem_cons_self

theorem Path.withParents_parent {p above : Path} (h : p.parent? = some above) :
    p.withParents = p :: above.withParents := by
  rw [withParents]
  split
  · next hnone => rw [h] at hnone; cases hnone
  · next above' habove =>
    rw [h] at habove
    rw [Option.some.inj habove]

/-- A name is joined to a directory by writing it behind the same text as any other. -/
theorem Path.exists_front (dir : Path) :
    ∃ front : String, ∀ name : String, '/' ∉ name.toList → (dir.join ⟨name⟩).text = front ++ name := by
  have hrelative : ∀ name : String, '/' ∉ name.toList → (⟨name⟩ : Path).isAbsolute = false := by
    intro name h
    rw [Path.isAbsolute, beq_eq_false_iff_ne]
    exact fun he => h (List.mem_of_mem_head? he)
  by_cases hempty : dir.text = ""
  · exact ⟨"", fun name _ => by simp [Path.join, hempty]⟩
  · by_cases hslash : dir.endsInSlash = true
    · exact ⟨dir.text, fun name h => by simp [Path.join, hrelative name h, hempty, hslash]⟩
    · exact ⟨dir.text ++ "/", fun name h => by simp [Path.join, hrelative name h, hempty, hslash]⟩

theorem utf8ByteSize_ofList_le (cs : List Char) : (String.ofList cs).utf8ByteSize ≤ 4 * cs.length := by
  induction cs with
  | nil => simp
  | cons c cs ih =>
    have hc := c.utf8Size_le_four
    rw [String.ofList_cons, String.utf8ByteSize_append, String.utf8ByteSize_singleton, List.length_cons]
    omega

namespace FileSystem

variable {fs fs' fs'' : FileSystem} {l l' : Location} {p : Path} {ps : List Path}
  {parts : List (List Char)}

/-! ## Single places -/

/-- What is at a place was not changed. -/
abbrev SameAt (fs fs' : FileSystem) (l : Location) : Prop := fs'.node? l = fs.node? l

theorem SameAt.refl (fs : FileSystem) (l : Location) : fs.SameAt fs l := rfl

theorem SameAt.trans (h : fs.SameAt fs' l) (h' : fs'.SameAt fs'' l) : fs.SameAt fs'' l :=
  Eq.trans h' h

theorem sameAt_put (fs : FileSystem) (n : Node) (hl : l ≠ .root) (h : l' ≠ l) : fs.SameAt (fs.put l n) l' := by
  rw [SameAt, node?_put fs hl, if_neg h]

theorem sameAt_erase (fs : FileSystem) (hl : l ≠ .root) (h : l' ≠ l) : fs.SameAt (fs.erase l) l' := by
  rw [SameAt, node?_erase fs l l' hl, if_neg h]

/-! ## Making directories -/

theorem along_splitSlash_slashes (l : Location) (cs slashes : List Char) (h : ∀ c ∈ slashes, c = '/') :
    l.along (Path.splitSlash (cs ++ slashes)) = l.along (Path.splitSlash cs) := by
  induction slashes using List.reverseRecOn with
  | nil => rw [List.append_nil]
  | append_singleton slashes c ih =>
    obtain rfl := h c (by simp)
    rw [← List.append_assoc, Path.splitSlash_append_slash, Location.along_concat,
      ih fun c hc => h c (List.mem_append_left _ hc)]
    rfl

/-- Slashes at the end do not matter for the place. -/
theorem place_dropSlashes (fs : FileSystem) (p : Path) : fs.place (dropSlashes p) = fs.place p := by
  unfold dropSlashes
  dsimp only
  split
  · rfl
  · next hkept =>
    have hsplit : p.text.toList = (p.text.toList.reverse.dropWhile (· == '/')).reverse ++
        (p.text.toList.reverse.takeWhile (· == '/')).reverse := by
      rw [← List.reverse_append, List.takeWhile_append_dropWhile, List.reverse_reverse]
    generalize (p.text.toList.reverse.dropWhile (· == '/')).reverse = kept at hkept hsplit
    have hslashes : ∀ c ∈ (p.text.toList.reverse.takeWhile (· == '/')).reverse, c = '/' := by
      intro c hc
      have hslash := List.mem_takeWhile_imp (List.mem_reverse.1 hc)
      exact eq_of_beq hslash
    have habsolute : (⟨String.ofList kept⟩ : Path).isAbsolute = p.isAbsolute := by
      rw [Path.isAbsolute, Path.isAbsolute, hsplit, String.toList_ofList, List.head?_append_of_ne_nil _ hkept]
    rw [place, place, origin, habsolute, ← origin, String.toList_ofList, hsplit,
      along_splitSlash_slashes _ _ _ hslashes]

/-- Directories were made at the places of some paths, where nothing was, and nothing else was changed. -/
structure Makes (dirs : List Path) (fs fs' : FileSystem) : Prop where
  workDir : fs'.workDir = fs.workDir
  changed : ∀ l, fs.SameAt fs' l ∨
    fs.node? l = none ∧ fs'.node? l = some .directory ∧ ∃ dir ∈ dirs, l = fs.place dir

namespace Makes
variable {dirs dirs' : List Path}

theorem refl (dirs : List Path) (fs : FileSystem) : Makes dirs fs fs := ⟨rfl, fun l => .inl (.refl fs l)⟩

theorem mono (h : Makes dirs fs fs') (hd : dirs ⊆ dirs') : Makes dirs' fs fs' where
  workDir := h.workDir
  changed l := (h.changed l).imp_right fun ⟨hnone, hnew, dir, hdir, hl⟩ => ⟨hnone, hnew, dir, hd hdir, hl⟩

theorem trans (h : Makes dirs fs fs') (h' : Makes dirs fs' fs'') : Makes dirs fs fs'' where
  workDir := h'.workDir.trans h.workDir
  changed l := by
    rcases h.changed l with hsame | ⟨hnone, hnew, hplace⟩
    · rcases h'.changed l with hsame' | ⟨hnone', hnew', dir, hdir, hl⟩
      · exact .inl (hsame.trans hsame')
      · exact .inr ⟨hsame ▸ hnone', hnew', dir, hdir, hl.trans (place_of_workDir h.workDir dir)⟩
    · -- a directory that was made is not made again
      rcases h'.changed l with hsame' | ⟨hnone', -⟩
      · exact .inr ⟨hnone, Eq.trans hsame' hnew, hplace⟩
      · rw [hnew] at hnone'
        cases hnone'

theorem createDirectory (h : fs.createDirectory p = .ok fs') : Makes [p] fs fs' := by
  obtain ⟨dir, hw, hnone, rfl⟩ := createDirectory_eq_put h
  have hroot := hw.place_ne_root
  refine ⟨rfl, fun l => ?_⟩
  by_cases hl : l = fs.place (dropSlashes p)
  · subst hl
    refine .inr ⟨hnone, ?_, p, List.mem_singleton_self p, fs.place_dropSlashes p⟩
    rw [node?_put fs hroot, if_pos rfl]
  · exact .inl (fs.sameAt_put .directory hroot hl)

/-- Whether it succeeds or not, creating a directory makes this one and those above it at most. -/
theorem createDirectories (fs : FileSystem) (p : Path) : Makes p.withParents fs (fs.createDirectories p).2 := by
  have hself {fs fs' : FileSystem} {p : Path} (h : fs.createDirectory p = .ok fs') : Makes p.withParents fs fs' :=
    (Makes.createDirectory h).mono (by simpa using p.self_mem_withParents)
  have habove {p above : Path} (ha : p.parent? = some above) : above.withParents ⊆ p.withParents := by
    rw [Path.withParents_parent ha]
    exact List.subset_cons_self _ _
  -- What was made above remains if the directory itself cannot be made.
  fun_induction fs.createDirectories p with
  | case1 => exact .refl _ _
  | case2 p hp fs' h => exact hself h
  | case3 => exact .refl _ _
  | case4 p hp hm above ha fault fs' hc ih =>
    rw [hc] at ih
    exact ih.mono (habove ha)
  | case5 p hp hm above ha u fs' hc fs'' hd ih =>
    rw [hc] at ih
    exact (ih.mono (habove ha)).trans (hself hd)
  | case6 p hp hm above ha u fs' hc fault hd ih =>
    rw [hc] at ih
    exact ih.mono (habove ha)
  | case7 => exact .refl _ _

end Makes

/-! ## Removing files -/

/-- A path that led somewhere still does, if what is there and the directories on the way were kept. -/
theorem walk_of_directories (hdir : ∀ l, fs.node? l = some .directory → fs'.node? l = some .directory)
    (hend : (fs'.node? l').isSome) (hw : fs.walk l parts = .ok l') : fs'.walk l parts = .ok l' := by
  induction parts generalizing l with
  | nil => exact hw
  | cons part parts ih =>
    simp only [walk, List.foldlM_cons, bind, Except.bind] at hw ⊢
    split at hw
    · cases hw
    · next m hm =>
      have hpresent : (fs'.node? m).isSome := by
        cases parts with
        | nil => rwa [Except.ok.inj hw]
        | cons next parts =>
          simp only [List.foldlM_cons, bind, Except.bind] at hw
          split at hw
          · cases hw
          · next hnext => rw [hdir m (directory_of_step hnext)]; rfl
      rw [step_of (hdir l) (fun _ => hpresent) hm]
      exact ih hw

/-- The files that some paths lead to were removed, and nothing else was changed. -/
structure Removed (ps : List Path) (fs fs' : FileSystem) : Prop where
  workDir : fs'.workDir = fs.workDir
  gone : ∀ p ∈ ps, fs.isFile p = true → fs'.node? (fs.place p) = none
  same : ∀ l, (∀ p ∈ ps, fs.isFile p = true → l ≠ fs.place p) → fs.SameAt fs' l

namespace Removed

theorem cases_at (h : Removed ps fs fs') (l : Location) :
    fs.SameAt fs' l ∨ (fs.content? l).isSome ∧ fs'.node? l = none := by
  by_cases hl : ∀ p ∈ ps, fs.isFile p = true → l ≠ fs.place p
  · exact .inl (h.same l hl)
  · push Not at hl
    obtain ⟨p, hp, hfile, rfl⟩ := hl
    exact .inr ⟨(isFile_iff.1 hfile).2, h.gone p hp hfile⟩

theorem directory (h : Removed ps fs fs') (hl : fs.node? l = some .directory) : fs'.node? l = some .directory := by
  rcases h.cases_at l with hsame | ⟨hfile, -⟩
  · rw [hsame, hl]
  · simp [content?, hl] at hfile

/-- What is there afterwards was there before. -/
theorem extends_before (h : Removed ps fs fs') : fs'.Extends fs where
  workDir := h.workDir.symm
  directory l hl := by
    rcases h.cases_at l with hsame | ⟨-, hnone⟩
    · rw [← hsame, hl]
    · rw [hnone] at hl
      cases hl
  present l hl := by
    rcases h.cases_at l with hsame | ⟨-, hnone⟩
    · rwa [← hsame]
    · rw [hnone] at hl
      cases hl

theorem content? (h : Removed ps fs fs') (hl : (fs'.content? l).isSome) : fs'.content? l = fs.content? l := by
  rcases h.cases_at l with hsame | ⟨-, hnone⟩
  · simp only [FileSystem.content?, hsame]
  · simp [FileSystem.content?, hnone] at hl

theorem isFile (h : Removed ps fs fs') (hp : fs'.isFile p = true) : fs.isFile p = true := by
  obtain ⟨hresolve, hcontent⟩ := isFile_iff.1 hp
  rw [← h.extends_before.place] at hresolve hcontent
  exact isFile_iff.2 ⟨h.extends_before.resolve hresolve, h.content? hcontent ▸ hcontent⟩

/-- None of the paths leads to a file afterwards. -/
theorem isFile_eq_false (h : Removed ps fs fs') (hp : p ∈ ps) : fs'.isFile p = false := by
  by_contra hfile
  rw [Bool.not_eq_false] at hfile
  have hgone := h.gone p hp (h.isFile hfile)
  have hcontent := (isFile_iff.1 hfile).2
  rw [← h.extends_before.place] at hcontent
  simp [FileSystem.content?, hgone] at hcontent

/-- A file that is still there can be found in the same way. -/
theorem isFile_of_present (h : Removed ps fs fs') (hp : fs.isFile p = true)
    (hpresent : (fs'.node? (fs.place p)).isSome) : fs'.isFile p = true := by
  obtain ⟨hresolve, hcontent⟩ := isFile_iff.1 hp
  have hcheck := check_of_resolve hresolve
  rw [isFile_iff, ← h.extends_before.place]
  constructor
  · rw [resolve_of_check hcheck] at hresolve ⊢
    rw [← h.extends_before.origin]
    exact walk_of_directories (fun l => h.directory) hpresent hresolve
  · rcases h.cases_at (fs.place p) with hsame | ⟨-, hnone⟩
    · simpa only [FileSystem.content?, hsame] using hcontent
    · rw [hnone] at hpresent
      cases hpresent

theorem append {qs : List Path} (h : Removed ps fs fs') (h' : Removed qs fs' fs'') : Removed (ps ++ qs) fs fs'' where
  workDir := h'.workDir.trans h.workDir
  gone p hp hfile := by
    have hlater : fs'.node? (fs.place p) = none → fs''.node? (fs.place p) = none := by
      intro hnone
      rcases h'.cases_at (fs.place p) with hsame | ⟨-, hnone'⟩
      · rw [hsame, hnone]
      · exact hnone'
    cases hn : fs'.node? (fs.place p) with
    | none => exact hlater hn
    | some n =>
      -- The file is none of those that were removed first, so it is found and removed now.
      have hfile' := h.isFile_of_present hfile (by rw [hn]; rfl)
      rcases List.mem_append.1 hp with hp | hp
      · exact absurd hfile' (by rw [h.isFile_eq_false hp]; decide)
      · rw [← place_of_workDir h.workDir]
        exact h'.gone p hp hfile'
  same l hl := by
    have hfirst := h.same l fun p hp => hl p (List.mem_append_left _ hp)
    refine hfirst.trans (h'.same l fun p hp hfile => ?_)
    rw [place_of_workDir h.workDir]
    exact hl p (List.mem_append_right _ hp) (h.isFile hfile)

theorem removeFile (h : fs.removeFile p = .ok fs') : Removed [p] fs fs' := by
  simp only [FileSystem.removeFile, bind, Except.bind] at h
  split at h
  · cases h
  · next l hl =>
    obtain rfl := resolve_eq hl
    split at h
    · next content hn =>
      obtain rfl := Except.ok.inj h
      have hroot : fs.place p ≠ .root := by
        intro he
        simp [node?, he] at hn
      have hfile : fs.isFile p = true := isFile_iff.2 ⟨hl, by simp [FileSystem.content?, hn]⟩
      refine ⟨rfl, fun q hq _ => ?_, fun l hne => ?_⟩
      · rw [List.mem_singleton.1 hq, node?_erase fs _ _ hroot, if_pos rfl]
      · exact fs.sameAt_erase hroot (hne p (List.mem_singleton_self p) hfile)
    · cases h
    · cases h

/-- A file that cannot be removed is not there. -/
theorem of_removeFile_error {fault : FileFault} (h : fs.removeFile p = .error fault) : Removed [p] fs fs := by
  refine ⟨rfl, fun q hq hfile => ?_, fun l _ => .refl fs l⟩
  obtain rfl := List.mem_singleton.1 hq
  obtain ⟨hresolve, hcontent⟩ := isFile_iff.1 hfile
  obtain ⟨content, hcontent⟩ := Option.isSome_iff_exists.1 hcontent
  simp only [FileSystem.removeFile, hresolve, node?_of_content? hcontent, bind, Except.bind] at h
  cases h

end Removed

/-! ## Files in a directory -/

/-- There is a directory where a path leads, however long the path is. With an empty path it is the one that relative
paths start from. -/
structure LeadsTo (fs : FileSystem) (p : Path) (dir : Location) : Prop where
  walked : fs.walk (fs.origin p) (Path.splitSlash p.text.toList) = .ok dir
  directory : fs.node? dir = some .directory

/-- A file in a directory can be found by its name. -/
theorem LeadsTo.isFile_join {dir : Location} (h : fs.LeadsTo p dir) {name : String} (hslash : '/' ∉ name.toList)
    (hnamed : Path.isIdle name.toList = false ∧ name.toList ≠ ['.', '.']) (hshort : name.utf8ByteSize ≤ maxName)
    (hcheck : check (p.join ⟨name⟩) = .ok ()) (hfile : (fs.content? (dir.child name)).isSome) :
    fs.isFile (p.join ⟨name⟩) = true := by
  obtain ⟨habsolute, front, hparts, hfront⟩ := Path.splitSlash_join p hslash
  have hwalk : fs.walk (fs.origin p) front = .ok dir := by
    have hdir := h.walked
    rcases hfront with hparts | hparts
    · rwa [hparts] at hdir
    · rw [hparts, walk_concat] at hdir
      split at hdir
      · next m hm => rw [hm, step_eq hdir]; rfl
      · cases hdir
  have hpresent : (fs.node? (dir.child name)).isSome := by
    obtain ⟨content, hcontent⟩ := Option.isSome_iff_exists.1 hfile
    rw [node?_of_content? hcontent]
    rfl
  have hstep : fs.step dir name.toList = .ok (dir.child name) := by
    simp [step, h.directory, hnamed, Nat.not_lt.2 hshort, hpresent]
  have hresolve : fs.resolve (p.join ⟨name⟩) = .ok (dir.child name) := by
    rw [resolve_of_check hcheck, origin, habsolute, ← origin, hparts, walk_concat, hwalk]
    exact hstep
  rw [isFile, hresolve]
  exact hfile

theorem check_eq_ok : check p = .ok () ↔ '\x00' ∉ p.text.toList ∧ p.text ≠ "" ∧ p.text.utf8ByteSize ≤ maxPath := by
  by_cases hnul : '\x00' ∈ p.text.toList
  · simp [check, hnul]
  · by_cases hempty : p.text = ""
    · simp [check, hempty]
    · by_cases hlong : maxPath < p.text.utf8ByteSize
      · simp [check, hnul, hempty, hlong]
      · simp [check, hnul, hempty, hlong, Nat.not_lt.1 hlong]

/-- In a directory, a name of the same characters that is no longer can be looked up as well. -/
theorem check_join {name name' : String} (hslash : '/' ∉ name.toList) (hslash' : '/' ∉ name'.toList)
    (hempty : name' ≠ "") (hnul : '\x00' ∈ name'.toList → '\x00' ∈ name.toList)
    (hlength : name'.utf8ByteSize ≤ name.utf8ByteSize) (h : check (p.join ⟨name⟩) = .ok ()) :
    check (p.join ⟨name'⟩) = .ok () := by
  obtain ⟨front, hfront⟩ := p.exists_front
  obtain ⟨hnul₀, -, hshort⟩ := check_eq_ok.1 h
  rw [hfront name hslash, String.toList_append, List.mem_append, not_or] at hnul₀
  rw [hfront name hslash, String.utf8ByteSize_append] at hshort
  rw [check_eq_ok, hfront name' hslash', String.toList_append, String.utf8ByteSize_append, List.mem_append, not_or]
  refine ⟨⟨hnul₀.1, mt hnul hnul₀.2⟩, fun he => hempty (String.append_eq_empty_iff.1 he).2, by omega⟩

end FileSystem

open FileSystem (Makes Removed)

namespace Command
variable {σ : Type} {launch : Launcher} {c : Command} {r : Request} {fs fs' : FileSystem}

/-- The names of the two files of a request. -/
def workNames (r : Request) : List String := [stem r ++ ".hlsl", stem r ++ ".bin"]

/-- The two files of a request. -/
def workFiles (c : Command) (r : Request) : List Path := (workNames r).map fun name => c.workDir.join ⟨name⟩

theorem removed_cleanUp (p : Path) (s : Session σ) : Removed [p] s.files (cleanUp p s).files := by
  simp only [cleanUp]
  split
  · next hr => exact .removeFile hr
  · next hr => exact .of_removeFile_error hr
  · next hr => exact .of_removeFile_error hr

/-! ## The exits -/

/-- What was changed before the program is started: its directory and those above it were created as far as they were
missing, and the source is in its file. -/
structure Prepared (c : Command) (r : Request) (fs before : FileSystem) : Prop where
  workDir : before.workDir = fs.workDir
  changed : ∀ l, fs.SameAt before l ∨ l = fs.place (c.inputPath r) ∨
    fs.node? l = none ∧ before.node? l = some .directory ∧ ∃ dir ∈ c.workDir.withParents, l = fs.place dir

/-- The program is run for a request. -/
def started (launch : Launcher) (c : Command) (r : Request) (fs : FileSystem) : Except FileFault Ended × FileSystem :=
  launch c.program (c.arguments (c.inputPath r) (c.outputPath r) r.entryPoint r.stage) fs

/-- The source of a request is in its file. -/
def Ready (c : Command) (r : Request) (fs : FileSystem) : Prop := fs.read (c.inputPath r) = .ok (Bytes.ofText r.source)

/-- The ways to an end, each with what comes of the request and the files that are left. -/
inductive Exit (launch : Launcher) (c : Command) (r : Request) (fs before : FileSystem) :
    Except String Bytes → FileSystem → Prop
  | notCreated {fault : FileFault} (created : fs.createDirectories c.workDir = (.error fault, before)) :
      Exit launch c r fs before (.error (refusal "create" c.workDir fault)) before
  | notWritten {fault : FileFault} (created : fs.createDirectories c.workDir = (.ok (), before))
      (written : before.write (c.inputPath r) (Bytes.ofText r.source) = .error fault) :
      Exit launch c r fs before (.error (refusal "write" (c.inputPath r) fault)) before
  | notStarted {fault : FileFault} {left : FileSystem} (ready : c.Ready r before)
      (ran : c.started launch r before = (.error fault, left)) :
      Exit launch c r fs before (.error (refusal "run" c.program fault)) left
  | failed {ended : Ended} {left : FileSystem} (ready : c.Ready r before)
      (ran : c.started launch r before = (.ok ended, left)) (status : ended.success = false) :
      Exit launch c r fs before (.error (complaint ended)) left
  | notRead {ended : Ended} {left : FileSystem} {fault : FileFault} (ready : c.Ready r before)
      (ran : c.started launch r before = (.ok ended, left)) (status : ended.success = true)
      (output : left.read (c.outputPath r) = .error fault) :
      Exit launch c r fs before (.error (refusal "read" (c.outputPath r) fault)) left
  | compiled {ended : Ended} {left : FileSystem} {bytecode : Bytes} (ready : c.Ready r before)
      (ran : c.started launch r before = (.ok ended, left)) (status : ended.success = true)
      (output : left.read (c.outputPath r) = .ok bytecode) :
      Exit launch c r fs before (.ok bytecode) left

theorem prepared_of_makes (h : Makes c.workDir.withParents fs fs') : c.Prepared r fs fs' where
  workDir := h.workDir
  changed l := (h.changed l).imp_right .inr

theorem prepared_of_write {fs'' : FileSystem} (h : Makes c.workDir.withParents fs fs')
    (hw : fs'.write (c.inputPath r) (Bytes.ofText r.source) = .ok fs'') : c.Prepared r fs fs'' := by
  obtain ⟨-, hroot, -, rfl⟩ := FileSystem.write_eq_ok hw
  refine ⟨h.workDir, fun l => ?_⟩
  by_cases hl : l = fs'.place (c.inputPath r)
  · exact .inr (.inl (hl.trans (FileSystem.place_of_workDir h.workDir _)))
  · have hsame := fs'.sameAt_put (.file (Bytes.ofText r.source)) hroot hl
    rcases h.changed l with hfirst | ⟨hnone, hnew, hplace⟩
    · exact .inl (hfirst.trans hsame)
    · exact .inr (.inr ⟨hnone, Eq.trans hsame hnew, hplace⟩)

/-- Running the program ends with one of the exits. -/
theorem exit_of_run (launch : Launcher) (c : Command) (r : Request) (fs : FileSystem) :
    ∃ before, c.Prepared r fs before ∧ Exit launch c r fs before (run launch c r fs).1 (run launch c r fs).2 := by
  have hmakes := Makes.createDirectories fs c.workDir
  simp only [run]
  split
  · next fault fs₁ hc =>
    rw [hc] at hmakes
    exact ⟨fs₁, prepared_of_makes hmakes, .notCreated hc⟩
  · next fs₁ hc =>
    rw [hc] at hmakes
    split
    · next fault hw => exact ⟨fs₁, prepared_of_makes hmakes, .notWritten hc hw⟩
    · next fs₂ hw =>
      refine ⟨fs₂, prepared_of_write hmakes hw, ?_⟩
      have hready : c.Ready r fs₂ := (FileSystem.read_of_write hw).2
      split
      · next fault fs₃ hl => exact .notStarted hready hl
      · next ended fs₃ hl =>
        split
        · next hs =>
          cases hread : fs₃.read (c.outputPath r) with
          | error fault => exact .notRead hready hl hs hread
          | ok bytecode => exact .compiled hready hl hs hread
        · next hs => exact .failed hready hl (by simpa using hs)

/-! ## The two files -/

/-- A name that stands for a place in any directory. -/
structure IsFileName (name : String) : Prop where
  noSlash : '/' ∉ name.toList
  named : Path.isIdle name.toList = false ∧ name.toList ≠ ['.', '.']
  short : name.utf8ByteSize ≤ FileSystem.maxName

theorem isFileName_append (r : Request) {extension : String} (hslash : '/' ∉ extension.toList)
    (hlong : 2 < extension.toList.length) (hshort : extension.utf8ByteSize ≤ 16) :
    IsFileName (stem r ++ extension) where
  noSlash := by
    rw [String.toList_append, List.mem_append, not_or]
    exact ⟨stem_noSlash r, hslash⟩
  named := Path.named_of_length (by simp only [String.toList_append, List.length_append]; omega)
  short := by
    have hstem : (stem r).utf8ByteSize ≤ 4 * 16 :=
      (utf8ByteSize_ofList_le _).trans (Nat.mul_le_mul_left 4 (by simp))
    rw [String.utf8ByteSize_append, FileSystem.maxName]
    omega

theorem isFileName_of_mem {name : String} (h : name ∈ workNames r) : IsFileName name := by
  simp only [workNames, List.mem_cons, List.not_mem_nil, or_false] at h
  rcases h with rfl | rfl <;> exact isFileName_append r (by decide) (by decide) (by decide)

/-- The bytecode has a shorter name than the source. -/
theorem check_workFile {name : String} (h : name ∈ workNames r) (hcheck : FileSystem.check (c.inputPath r) = .ok ()) :
    FileSystem.check (c.workDir.join ⟨name⟩) = .ok () := by
  have hslash : '/' ∉ (stem r ++ ".hlsl").toList := (isFileName_of_mem (r := r) (by simp [workNames])).noSlash
  have hslash' := (isFileName_of_mem h).noSlash
  simp only [workNames, List.mem_cons, List.not_mem_nil, or_false] at h
  rcases h with rfl | rfl
  · exact hcheck
  · refine FileSystem.check_join hslash hslash' (by simp) (fun hnul => ?_) ?_ hcheck
    · rw [String.toList_append, List.mem_append] at hnul ⊢
      exact .inl (hnul.resolve_right (by decide))
    · rw [String.utf8ByteSize_append, String.utf8ByteSize_append]
      exact Nat.add_le_add_left (by decide) _

/-- Paths that lead to no file stand for names that no file in the directory has, unless they are too long. -/
theorem content?_of_isFile_eq_false {dir : Location} (h : ∀ p ∈ c.workFiles r, fs.isFile p = false)
    (hdir : fs.LeadsTo c.workDir dir) (hcheck : FileSystem.check (c.inputPath r) = .ok ()) {name : String}
    (hname : name ∈ workNames r) : fs.content? (dir.child name) = none := by
  have hw := isFileName_of_mem hname
  rw [← Option.not_isSome_iff_eq_none]
  intro hfile
  have hfound := hdir.isFile_join hw.noSlash hw.named hw.short (check_workFile hname hcheck) hfile
  rw [h _ (List.mem_map_of_mem hname)] at hfound
  cases hfound

/-- Whatever the program does and however a request ends, none of its two files is there afterwards: no path leads to
them, and their directory, if it is there, has no files of these names. Apart from what the program did, nothing was
changed but that the directory and those above it were created as far as they were missing. -/
theorem compile_cleans_up (launch : Launcher) (c : Command) (r : Request) (s : Session σ) :
    let result := ((backend launch c).compile r s).1
    let after := ((backend launch c).compile r s).2.files
    (∀ p ∈ c.workFiles r, after.isFile p = false) ∧
    (∀ dir, after.LeadsTo c.workDir dir → FileSystem.check (c.inputPath r) = .ok () →
      ∀ name ∈ workNames r, after.content? (dir.child name) = none) ∧
    ∃ before left, c.Prepared r s.files before ∧ Exit launch c r s.files before result left ∧
      Removed (c.workFiles r) left after := by
  intro result after
  obtain ⟨before, hprepared, hexit⟩ := exit_of_run launch c r s.files
  have hremoved : Removed (c.workFiles r) (run launch c r s.files).2 after :=
    (removed_cleanUp (c.inputPath r) { s with files := (run launch c r s.files).2 }).append
      (removed_cleanUp (c.outputPath r) _)
  have hgone : ∀ p ∈ c.workFiles r, after.isFile p = false := fun p hp => hremoved.isFile_eq_false hp
  exact ⟨hgone, fun dir hdir hcheck name hname => content?_of_isFile_eq_false hgone hdir hcheck hname,
    before, _, hprepared, hexit, hremoved⟩

end Command

end ShaderBuild
