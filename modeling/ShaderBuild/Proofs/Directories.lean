import ShaderBuild.Proofs.Grounded
/-!
# Creating directories

A directory is created in the one above it, which is created first if it is missing. So a failure may leave
some of the directories behind. Nevertheless creating the same directories again does the same again, and
changes nothing (`createDirectories_again`): what stood in the way still does (`walk_above`).
-/

namespace ShaderBuild

namespace FileSystem

variable {fs fs' : FileSystem} {l l' : Location} {p : Path} {parts : List (List Char)} {fault : FileFault}

/-! ## Creating one directory -/

theorem locate_of_check (fs : FileSystem) (h : check p = .ok ()) :
    fs.locate p = match fs.walk (fs.origin p) (Path.splitSlash p.text.toList).dropLast with
      | .ok dir => if fs.node? dir = some .directory then .ok (dir, p.lastPart) else .error .notADirectory
      | .error fault => .error fault := by
  simp only [locate, h, bind, Except.bind]
  cases fs.walk (fs.origin p) (Path.splitSlash p.text.toList).dropLast <;> rfl

theorem createDirectory_of_locate_error (hp : p.lastPart ≠ []) (h : fs.locate p = .error fault) :
    fs.createDirectory p = .error fault := by
  simp only [createDirectory, Path.dropSlashes_of_lastPart hp, h, bind, Except.bind]

theorem createDirectory_eq_ok (hp : p.lastPart ≠ []) (h : fs.createDirectory p = .ok fs') :
    ∃ dir, fs.Writable p dir ∧ fs.node? (fs.place p) = none ∧ fs' = fs.put (fs.place p) .directory := by
  have hput := createDirectory_eq_put h
  rwa [Path.dropSlashes_of_lastPart hp] at hput

/-- A directory that was created is there. -/
theorem isDirectory_of_createDirectory (hp : p.lastPart ≠ []) (h : fs.createDirectory p = .ok fs') :
    fs'.isDirectory p = true := by
  obtain ⟨dir, hw, -, rfl⟩ := createDirectory_eq_ok hp h
  have hroot := hw.place_ne_root
  have he : fs.Extends (fs.put (fs.place p) .directory) := .put hroot (.inl rfl)
  have hn : (fs.put (fs.place p) .directory).node? ((fs.put (fs.place p) .directory).place p) = some .directory := by
    rw [he.place, node?_put fs hroot, if_pos rfl]
  rw [isDirectory, (hw.extends he).resolve_eq (by rw [hn]; rfl)]
  simp only [hn]
  rfl

/-- A directory in a tree makes it a tree again. -/
theorem IsTree.createDirectory (ht : fs.IsTree) (hp : p.lastPart ≠ []) (h : fs.createDirectory p = .ok fs') :
    fs'.IsTree := by
  obtain ⟨dir, hw, hnone, rfl⟩ := createDirectory_eq_ok hp h
  have hplace := hw.place_eq
  have hroot := hw.place_ne_root
  have he : fs.Extends (fs.put (fs.place p) .directory) := .put hroot (.inl rfl)
  have hname : IsName (String.ofList p.lastPart) := by
    obtain ⟨front, hfront⟩ := p.exists_append_lastPart
    refine ⟨?_, fun hc => ?_, ?_, hw.short⟩
    · rw [String.toList_ofList]
      exact p.not_mem_lastPart
    · rw [String.toList_ofList] at hc
      have hcheck := hw.checked
      rw [check, if_pos (by simp [hfront, hc])] at hcheck
      cases hcheck
    · rw [String.toList_ofList]
      exact hw.named
  -- What is in the new files is what was there, or the new directory.
  have hcases : ∀ (above : Location) (name : String),
      ((fs.put (fs.place p) .directory).node? (above.child name)).isSome →
      (above = dir ∧ name = String.ofList p.lastPart) ∨ (fs.node? (above.child name)).isSome := by
    intro above name hs
    rw [node?_put fs hroot] at hs
    split at hs
    · next hc => exact .inl (Location.child_inj (hc.trans hplace))
    · exact .inr hs
  refine ⟨fun above name hs => ?_, fun above name hs => ?_⟩
  · rcases hcases above name hs with ⟨rfl, -⟩ | hs
    · exact he.directory _ hw.directory
    · exact he.directory _ (ht.parent above name hs)
  · rcases hcases above name hs with ⟨-, rfl⟩ | hs
    · exact hname
    · exact ht.name above name hs

/-- The last step of a path that leads to a directory. -/
theorem exists_step_of_isDirectory (h : fs.isDirectory p = true) :
    check p = .ok () ∧ fs.resolve p = .ok (fs.place p) ∧ fs.node? (fs.place p) = some .directory ∧
      ∃ dir, fs.walk (fs.origin p) (Path.splitSlash p.text.toList).dropLast = .ok dir ∧
        fs.step dir p.lastPart = .ok (fs.place p) := by
  rw [isDirectory] at h
  cases hr : fs.resolve p with
  | error fault =>
    rw [hr] at h
    cases h
  | ok l =>
    rw [hr] at h
    obtain rfl := resolve_eq hr
    have hcheck := check_of_resolve hr
    refine ⟨hcheck, rfl, by simpa using h, ?_⟩
    rw [resolve_of_check hcheck, splitSlash_eq_concat p, walk_concat] at hr
    cases hw : fs.walk (fs.origin p) (Path.splitSlash p.text.toList).dropLast with
    | error fault =>
      rw [hw] at hr
      cases hr
    | ok dir =>
      rw [hw] at hr
      exact ⟨dir, rfl, hr⟩

theorem createDirectory_of_isDirectory (hp : p.lastPart ≠ []) (h : fs.isDirectory p = true) :
    fs.createDirectory p = .error .alreadyExists := by
  obtain ⟨hcheck, -, -, dir, hw, hs⟩ := exists_step_of_isDirectory h
  have hd := directory_of_step hs
  have hl : fs.locate p = .ok (dir, p.lastPart) := by
    rw [fs.locate_of_check hcheck, hw]
    exact if_pos hd
  simp only [createDirectory, Path.dropSlashes_of_lastPart hp, hl, bind, Except.bind]
  simp only [step, hd] at hs
  split at hs
  · next hi => rw [if_pos (.inl hi)]
  · split at hs
    · next hu => rw [if_pos (.inr hu)]
    · next hi hu =>
      rw [if_neg (not_or.2 ⟨hi, hu⟩)]
      split at hs
      · cases hs
      · next hshort =>
        rw [if_neg hshort]
        split at hs
        · next hsome => rw [if_pos hsome]
        · cases hs

/-- What stands in the way of a path stands in the way of a directory there. -/
theorem createDirectory_of_walk_error (hp : p.lastPart ≠ []) (hc : check p = .ok ())
    (hw : fs.walk (fs.origin p) (Path.splitSlash p.text.toList) = .error fault) (hn : fault ≠ .notFound) :
    fs.createDirectory p = .error fault := by
  rw [splitSlash_eq_concat p, walk_concat] at hw
  have hl := fs.locate_of_check hc
  cases hf : fs.walk (fs.origin p) (Path.splitSlash p.text.toList).dropLast with
  | error fault' =>
    rw [hf] at hw hl
    obtain rfl := Except.error.inj hw
    exact createDirectory_of_locate_error hp hl
  | ok dir =>
    rw [hf] at hw hl
    dsimp only at hw hl
    cases step_eq_error hw with
    | away hd => exact absurd rfl hn
    | missing hd => exact absurd rfl hn
    | file hd =>
      rw [hd, if_neg (by simp)] at hl
      exact createDirectory_of_locate_error hp hl
    | long hd named long =>
      rw [if_pos hd] at hl
      simp [createDirectory, Path.dropSlashes_of_lastPart hp, hl, bind, Except.bind, named, long]

/-! ## Creating directories again -/

theorem createDirectories_of_isDirectory (hp : p.lastPart ≠ []) (h : fs.isDirectory p = true) :
    fs.createDirectories p = (.ok (), fs) := by
  unfold createDirectories
  rw [createDirectory_of_isDirectory hp h]
  simp [h]

theorem isDirectory_of_createDirectories (hp : p.lastPart ≠ []) (h : fs.createDirectories p = (.ok (), fs')) :
    fs'.isDirectory p = true := by
  have hcreated : ∀ {fs : FileSystem} {fault : FileFault},
      ((if fs.isDirectory p then .ok () else .error fault : Except FileFault Unit), fs) = (.ok (), fs') →
      fs'.isDirectory p = true := by
    intro fs fault he
    obtain ⟨hr, rfl⟩ := Prod.mk.inj he
    split at hr
    · assumption
    · cases hr
  unfold createDirectories at h
  rw [if_neg (Path.text_ne_of_lastPart hp)] at h
  split at h
  · next hd =>
    obtain ⟨-, rfl⟩ := Prod.mk.inj h
    exact isDirectory_of_createDirectory hp hd
  · split at h
    · cases h
    · split at h
      · cases h
      · split at h
        · next hd =>
          obtain ⟨-, rfl⟩ := Prod.mk.inj h
          exact isDirectory_of_createDirectory hp hd
        · exact hcreated h
  · exact hcreated h

theorem createDirectories_of_created (hp : p.text ≠ "") (h : fs.createDirectory p = .ok fs') :
    fs.createDirectories p = (.ok (), fs') := by
  rw [createDirectories, if_neg hp, h]

theorem createDirectories_of_fault (hp : p.text ≠ "") (h : fs.createDirectory p = .error fault)
    (hn : fault ≠ .notFound) : fs.createDirectories p = (if fs.isDirectory p then .ok () else .error fault, fs) := by
  rw [createDirectories, if_neg hp, h]
  cases fault <;> first | exact absurd rfl hn | rfl

theorem createDirectories_of_none (hp : p.text ≠ "") (h : fs.createDirectory p = .error .notFound)
    (ha : p.parent? = none) : fs.createDirectories p = (.error .noAncestor, fs) := by
  rw [createDirectories, if_neg hp, h]
  dsimp only
  split
  · rfl
  · next above ha' => rw [ha] at ha'; cases ha'

theorem createDirectories_of_missing {above : Path} (hp : p.text ≠ "") (h : fs.createDirectory p = .error .notFound)
    (ha : p.parent? = some above) :
    fs.createDirectories p = match fs.createDirectories above with
      | (.error fault, fs) => (.error fault, fs)
      | (.ok _, fs) =>
        match fs.createDirectory p with
        | .ok fs => (.ok (), fs)
        | .error fault => (if fs.isDirectory p then .ok () else .error fault, fs) := by
  rw [createDirectories, if_neg hp, h]
  dsimp only
  split
  · next hnone => rw [ha] at hnone; cases hnone
  · next above' ha' =>
    rw [ha] at ha'
    obtain rfl := Option.some.inj ha'
    rfl

/-- The root is there, and so is the directory that relative paths start from. -/
theorem createDirectories_of_text (h : p.text = "" ∨ p.text = "/") : fs.createDirectories p = (.ok (), fs) := by
  obtain ⟨text⟩ := p
  rcases h with rfl | rfl
  · rw [createDirectories, if_pos rfl]
  · have hparts : Path.splitSlash "/".toList = [[], []] := by decide
    have horigin : fs.origin ⟨"/"⟩ = .root := rfl
    have hstep : fs.step .root [] = .ok .root := rfl
    have hlocate : fs.locate ⟨"/"⟩ = .ok (.root, []) := by
      rw [fs.locate_of_check (by decide), horigin, hparts]
      rfl
    have hdir : fs.isDirectory ⟨"/"⟩ = true := by
      rw [isDirectory, resolve_of_check (by decide), horigin, hparts]
      rfl
    have hdrop : dropSlashes ⟨"/"⟩ = ⟨"/"⟩ := by decide
    have hfault : fs.createDirectory ⟨"/"⟩ = .error .alreadyExists := by
      simp only [createDirectory, hdrop, hlocate, bind, Except.bind]
      rfl
    rw [createDirectories_of_fault (by decide) hfault (by decide), if_pos hdir]

/-- A directory is missing only if what it would be in is. -/
theorem walk_of_createDirectory (hp : p.lastPart ≠ []) (h : fs.createDirectory p = .error .notFound) :
    check p = .ok () ∧ fs.walk (fs.origin p) (Path.splitSlash p.text.toList).dropLast = .error .notFound := by
  cases hc : check p with
  | error fault =>
    have hl : fs.locate p = .error fault := by simp only [locate, hc, bind, Except.bind]
    rw [createDirectory_of_locate_error hp hl] at h
    exact absurd (Except.error.inj h) (check_eq_error hc (Path.text_ne_of_lastPart hp))
  | ok u =>
    refine ⟨rfl, ?_⟩
    have hl := fs.locate_of_check hc
    cases hw : fs.walk (fs.origin p) (Path.splitSlash p.text.toList).dropLast with
    | error fault =>
      rw [hw] at hl
      rw [createDirectory_of_locate_error hp hl] at h
      rw [Except.error.inj h]
    | ok dir =>
      rw [hw] at hl
      dsimp only at hl
      split at hl
      · simp only [createDirectory, Path.dropSlashes_of_lastPart hp, hl, bind, Except.bind] at h
        repeat' split at h
        all_goals cases h
      · rw [createDirectory_of_locate_error hp hl] at h
        cases h

/-- Directories in a tree make it a tree again, also if not all of them could be created. -/
theorem IsTree.createDirectories (ht : fs.IsTree) (hp : p.lastPart ≠ []) : (fs.createDirectories p).2.IsTree := by
  have habove : ∀ {p above : Path}, p.parent? = some above →
      (above.lastPart ≠ [] → (fs.createDirectories above).2.IsTree) → (fs.createDirectories above).2.IsTree := by
    intro p above ha ih
    rcases Path.parent?_eq_some ha with htext | habove
    · rw [createDirectories_of_text htext]
      exact ht
    · exact ih habove.named
  fun_induction fs.createDirectories p with
  | case1 => exact ht
  | case2 p hn fs' h => exact ht.createDirectory hp h
  | case3 => exact ht
  | case4 p hn hm above ha fault fs' hc ih =>
    have := habove ha ih
    rwa [hc] at this
  | case5 p hn hm above ha u fs' hc fs'' hd ih =>
    have := habove ha ih
    rw [hc] at this
    exact this.createDirectory hp hd
  | case6 p hn hm above ha u fs' hc fault hd ih =>
    have := habove ha ih
    rwa [hc] at this
  | case7 => exact ht

/-- A directory that was missing could not be created because of one above it. Then nothing leads to that one
afterwards: if there were a file in its place, it would have been there before, and the directory would not
have been missing. -/
theorem walk_above (ht : fs.IsTree) {above : Path} (ha : above.Above p) (hp : p.lastPart ≠ [])
    (hg : fs.Grounded p) (hm : fs.createDirectory p = .error .notFound) (he : fs.Extends fs') (ht' : fs'.IsTree)
    (hc : ∀ l, fs'.content? l = fs.content? l) (hnot : fs'.isDirectory above = false) :
    ∃ fault, fs'.walk (fs'.origin above) (Path.splitSlash above.text.toList) = .error fault := by
  obtain ⟨hcheck, hmissing⟩ := walk_of_createDirectory hp hm
  obtain ⟨rest, hrest⟩ := ha.initial
  rw [← hrest, ← origin_above ha] at hmissing
  cases hw : fs'.walk (fs'.origin above) (Path.splitSlash above.text.toList) with
  | error fault => exact ⟨fault, rfl⟩
  | ok l =>
    exfalso
    have hsome := ht'.isSome_of_walk (Path.splitSlash_ne_nil _) hw
    rw [isDirectory, resolve_of_check (check_above ha hcheck), hw] at hnot
    dsimp only at hnot
    obtain rfl : l = fs.place above := (walk_eq hw).trans (he.place above)
    have hfile : (fs.content? (fs.place above)).isSome := by
      rw [← hc, content?]
      obtain ⟨node, hn⟩ := Option.isSome_iff_exists.1 hsome
      rw [hn] at hnot ⊢
      cases node with
      | directory => cases hnot
      | file content => rfl
    cases hw' : fs.walk (fs.origin above) (Path.splitSlash above.text.toList) with
    | ok m =>
      rw [walk_append_of_ok hw'] at hmissing
      obtain rfl := walk_eq hw'
      exact walk_of_file hfile hmissing
    | error fault =>
      rw [walk_append_of_error hw'] at hmissing
      rw [Except.error.inj hmissing] at hw'
      have hnone := node?_of_walk_notFound ht (grounded_above ha hg) hw'
      rw [content?, show fs.node? (fs.place above) = none from hnone] at hfile
      cases hfile

/-- What stands in the way of a directory above stands in the way of one below it. -/
theorem createDirectories_of_above {above : Path} {fault' : FileFault} (hp : p.lastPart ≠ [])
    (ha : p.parent? = some above) (habove : above.Above p) (hcheck : check p = .ok ())
    (hw : fs.walk (fs.origin above) (Path.splitSlash above.text.toList) = .error fault')
    (hc : fs.createDirectories above = (.error fault, fs)) : fs.createDirectories p = (.error fault, fs) := by
  have hn := Path.text_ne_of_lastPart hp
  obtain ⟨rest, hrest⟩ := habove.initial
  rw [origin_above habove] at hw
  have hd : fs.createDirectory p = .error fault' := by
    refine createDirectory_of_locate_error hp ?_
    rw [fs.locate_of_check hcheck, ← hrest, walk_append_of_error hw]
  by_cases hmissing : fault' = .notFound
  · subst hmissing
    rw [createDirectories_of_missing hn hd ha, hc]
  · have hcheck' := check_above habove hcheck
    rw [← origin_above habove] at hw
    have hnot : fs.isDirectory above = false := by rw [isDirectory, resolve_of_check hcheck', hw]
    have hd' := createDirectory_of_walk_error habove.named hcheck' hw hmissing
    rw [createDirectories_of_fault (Path.text_ne_of_lastPart habove.named) hd' hmissing, hnot] at hc
    obtain rfl := Except.error.inj (Prod.mk.inj hc).1
    have hnot' : fs.isDirectory p = false := by
      rw [isDirectory, resolve_of_check hcheck, splitSlash_eq_concat p, ← hrest, List.append_assoc,
        ← origin_above habove, walk_append_of_error hw]
    rw [createDirectories_of_fault hn hd hmissing, hnot']
    rfl

/-- What could not be created cannot be created afterwards, for the same reason. -/
theorem createDirectories_failed (ht : fs.IsTree) (hp : p.lastPart ≠ []) (hg : fs.Grounded p)
    (h : fs.createDirectories p = (.error fault, fs')) : fs'.createDirectories p = (.error fault, fs') := by
  fun_induction fs.createDirectories p generalizing fs' fault with
  | case1 => cases h
  | case2 => cases h
  | case3 p hn hm hnone =>
    obtain ⟨hr, rfl⟩ := Prod.mk.inj h
    rw [createDirectories_of_none hn hm hnone, hr]
  | case4 p hn hm above ha fault' fs₁ hc ih =>
    obtain ⟨hr, rfl⟩ := Prod.mk.inj h
    obtain rfl := Except.error.inj hr
    rcases Path.parent?_eq_some ha with htext | habove
    · rw [createDirectories_of_text htext] at hc
      cases hc
    · have hagain := ih habove.named (grounded_above habove hg) hc
      have hspec := createDirectories_spec fs above
      have htree := ht.createDirectories habove.named
      rw [hc] at hspec htree
      have hnot : fs₁.isDirectory above = false := by
        rw [← Bool.not_eq_true]
        intro hd
        rw [createDirectories_of_isDirectory habove.named hd] at hagain
        cases hagain
      obtain ⟨fault, hw⟩ := walk_above ht habove hp hg hm hspec.1 htree hspec.2 hnot
      exact createDirectories_of_above hp ha habove (walk_of_createDirectory hp hm).1 hw hagain
  | case5 => cases h
  | case6 p hn hm above ha u fs₁ hc fault' hd ih =>
    obtain ⟨hr, rfl⟩ := Prod.mk.inj h
    by_cases hmissing : fault' = .notFound
    · subst hmissing
      have hagain : fs₁.createDirectories above = (.ok (), fs₁) := by
        rcases Path.parent?_eq_some ha with htext | habove
        · exact createDirectories_of_text htext
        · exact createDirectories_of_isDirectory habove.named (isDirectory_of_createDirectories habove.named hc)
      rw [createDirectories_of_missing hn hd ha, hagain]
      dsimp only
      rw [hd]
      dsimp only
      rw [hr]
    · rw [createDirectories_of_fault hn hd hmissing, hr]
  | case7 p hn fault' hne hd =>
    obtain ⟨hr, rfl⟩ := Prod.mk.inj h
    rw [createDirectories_of_fault hn hd hne, hr]

/-- Creating directories again does the same again, and changes nothing. -/
theorem createDirectories_again (ht : fs.IsTree) (hp : p.lastPart ≠ []) (hg : fs.Grounded p) :
    (fs.createDirectories p).2.createDirectories p = fs.createDirectories p := by
  cases hc : fs.createDirectories p with
  | mk result fs' =>
    cases result with
    | ok u => exact createDirectories_of_isDirectory hp (isDirectory_of_createDirectories hp hc)
    | error fault => exact createDirectories_failed ht hp hg hc

/-! ## The same tree -/

namespace SameTree

theorem grows (h : fs.SameTree fs') : fs.Grows fs' where
  workDir := h.workDir
  directory l := (h.directory l).2
  present l hl := by rwa [h.isSome]
  file l hl := by rwa [h.file]

/-- The same is put in the same place, or different files are. -/
theorem put_put (h : fs.SameTree fs') {l : Location} (hl : l ≠ .root) {n n' : Node}
    (hn : n = .directory ↔ n' = .directory) : (fs.put l n).SameTree (fs'.put l n') := by
  refine ⟨h.workDir, fun k => ?_, fun k => ?_⟩
  · rw [node?_put fs hl, node?_put fs' hl]
    split
    · simp [hn]
    · exact h.directory k
  · have hf := h.file k
    simp only [content?, node?_put fs hl, node?_put fs' hl] at hf ⊢
    by_cases hk : k = l
    · rw [if_pos hk, if_pos hk]
      cases n <;> cases n' <;> simp_all
    · rw [if_neg hk, if_neg hk]
      exact hf

section Same
variable (h : fs.SameTree fs') (p : Path)
include h

theorem resolve : fs'.resolve p = fs.resolve p := by
  rw [FileSystem.resolve, FileSystem.resolve, h.walk, h.origin]

theorem locate : fs'.locate p = fs.locate p := by
  simp only [FileSystem.locate, h.walk, h.origin, h.directory]

theorem target : fs'.target p = fs.target p := by
  simp only [FileSystem.target, h.locate]

theorem isDirectory : fs'.isDirectory p = fs.isDirectory p := by
  rw [FileSystem.isDirectory, FileSystem.isDirectory, h.resolve]
  cases fs.resolve p with
  | error fault => rfl
  | ok l => exact Bool.eq_iff_iff.2 (by simp [h.directory])

theorem createDirectory :
    (∃ a a', fs.createDirectory p = .ok a ∧ fs'.createDirectory p = .ok a' ∧ a.SameTree a') ∨
      ∃ fault, fs.createDirectory p = .error fault ∧ fs'.createDirectory p = .error fault := by
  simp only [FileSystem.createDirectory, h.locate, bind, Except.bind]
  cases fs.locate (dropSlashes p) with
  | error fault => exact .inr ⟨fault, rfl, rfl⟩
  | ok found =>
    obtain ⟨dir, part⟩ := found
    dsimp only
    rw [h.isSome]
    split
    · exact .inr ⟨_, rfl, rfl⟩
    · split
      · exact .inr ⟨_, rfl, rfl⟩
      · split
        · exact .inr ⟨_, rfl, rfl⟩
        · exact .inl ⟨_, _, rfl, rfl, h.put_put (Location.child_ne_root dir _) Iff.rfl⟩

theorem createDirectory_error {p : Path} (hd : fs.createDirectory p = .error fault) :
    fs'.createDirectory p = .error fault := by
  rcases h.createDirectory p with ⟨a, a', ha, -⟩ | ⟨fault', ha, ha'⟩
  · rw [hd] at ha
    cases ha
  · rwa [Except.error.inj (hd.symm.trans ha)]

/-- Directories are created in the same way in files that differ in their contents. -/
theorem createDirectories :
    (fs'.createDirectories p).1 = (fs.createDirectories p).1 ∧
      (fs.createDirectories p).2.SameTree (fs'.createDirectories p).2 := by
  fun_induction fs.createDirectories p generalizing fs' with
  | case1 p hp =>
    rw [FileSystem.createDirectories, if_pos hp]
    exact ⟨rfl, h⟩
  | case2 p hp fs₁ hd =>
    rcases h.createDirectory p with ⟨a, a', ha, ha', hs⟩ | ⟨fault, ha, -⟩
    · obtain rfl := Except.ok.inj (hd.symm.trans ha)
      rw [createDirectories_of_created hp ha']
      exact ⟨rfl, hs⟩
    · rw [hd] at ha
      cases ha
  | case3 p hp hm hnone =>
    rw [createDirectories_of_none hp (h.createDirectory_error hm) hnone]
    exact ⟨rfl, h⟩
  | case4 p hp hm above ha fault fs₁ hc ih =>
    obtain ⟨hr, hs⟩ := ih h
    rw [createDirectories_of_missing hp (h.createDirectory_error hm) ha]
    rw [hc] at hr hs
    rw [← Prod.eta (fs'.createDirectories above), hr]
    exact ⟨rfl, hs⟩
  | case5 p hp hm above ha u fs₁ hc fs₂ hd ih =>
    obtain ⟨hr, hs⟩ := ih h
    rw [createDirectories_of_missing hp (h.createDirectory_error hm) ha]
    rw [hc] at hr hs
    rw [← Prod.eta (fs'.createDirectories above), hr]
    rcases hs.createDirectory p with ⟨a, a', ha, ha', hs'⟩ | ⟨fault, ha, -⟩
    · obtain rfl := Except.ok.inj (hd.symm.trans ha)
      dsimp only at ha' ⊢
      rw [ha']
      exact ⟨rfl, hs'⟩
    · rw [hd] at ha
      cases ha
  | case6 p hp hm above ha u fs₁ hc fault hd ih =>
    obtain ⟨hr, hs⟩ := ih h
    rw [createDirectories_of_missing hp (h.createDirectory_error hm) ha]
    rw [hc] at hr hs
    rw [← Prod.eta (fs'.createDirectories above), hr]
    have hd' := hs.createDirectory_error hd
    dsimp only at hd' ⊢
    rw [hd', ← hs.isDirectory]
    exact ⟨rfl, hs⟩
  | case7 p hp fault hne hd =>
    rw [createDirectories_of_fault hp (h.createDirectory_error hd) hne, h.isDirectory]
    exact ⟨rfl, h⟩

/-- A file is written, or not, whatever files there are in the same tree. -/
theorem write (content : Bytes) :
    (∃ a a', fs.write p content = .ok a ∧ fs'.write p content = .ok a') ∨
      ∃ fault, fs.write p content = .error fault ∧ fs'.write p content = .error fault := by
  simp only [FileSystem.write, h.target, bind, Except.bind]
  cases fs.target p with
  | error fault => exact .inr ⟨fault, rfl, rfl⟩
  | ok l =>
    dsimp only
    by_cases hn : fs.node? l = some .directory
    · exact .inr ⟨_, if_pos hn, if_pos ((h.directory l).2 hn)⟩
    · exact .inl ⟨_, _, if_neg hn, if_neg fun hn' => hn ((h.directory l).1 hn')⟩

end Same

end SameTree

end FileSystem

end ShaderBuild
