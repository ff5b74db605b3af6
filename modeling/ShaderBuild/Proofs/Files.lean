import ShaderBuild.FileSystem
/-!
# What writing changes

Proven once for everything that puts files into a file system. There are no links, so a path that leads
somewhere leads to the place that its parts spell out (`place`), and writing a file changes the content
of that place and of no other (`write_spec`). Whatever is written or created, a path that led somewhere
still leads there (`Extends`).
-/

namespace ShaderBuild

/-! ## Places -/

/-- Where some parts lead from a place, if they lead anywhere. -/
def Location.along (l : Location) (parts : List (List Char)) : Location :=
  parts.foldl (fun l part =>
    if Path.isIdle part then l else if part = ['.', '.'] then l.parent else l.child (String.ofList part)) l

theorem Location.child_inj {dir dir' : Location} {name name' : String} (h : dir.child name = dir'.child name') :
    dir = dir' ∧ name = name' := by
  obtain ⟨h1, h2⟩ := List.append_inj' (Location.mk.inj h) rfl
  exact ⟨congrArg Location.mk h1, (List.cons.inj h2).1⟩

theorem Location.child_ne_root (dir : Location) (name : String) : dir.child name ≠ .root := by
  simp [Location.child, Location.root]

/-- The last part of a path; it is empty if the path ends in a slash. -/
def Path.lastPart (p : Path) : List Char := (Path.splitSlash p.text.toList).getLastD []

theorem Path.splitSlash_of_not_mem {cs : List Char} (h : '/' ∉ cs) : Path.splitSlash cs = [cs] := by
  induction cs with
  | nil => rfl
  | cons c cs ih =>
    obtain ⟨hc, hcs⟩ : c ≠ '/' ∧ '/' ∉ cs := by simpa [eq_comm] using h
    rw [Path.splitSlash, if_neg hc, ih hcs]

/-- Text without a slash goes on the last part. -/
theorem Path.splitSlash_append (a : List Char) {b : List Char} (h : '/' ∉ b) :
    Path.splitSlash (a ++ b) = (Path.splitSlash a).dropLast ++ [(Path.splitSlash a).getLastD [] ++ b] := by
  induction a with
  | nil => exact Path.splitSlash_of_not_mem h
  | cons c cs ih =>
    obtain ⟨part, parts, hp⟩ := List.exists_cons_of_ne_nil (Path.splitSlash_ne_nil cs)
    rw [hp] at ih
    rw [List.cons_append, Path.splitSlash, Path.splitSlash, hp, ih]
    by_cases hc : c = '/'
    · simp only [if_pos hc]
      rfl
    · simp only [if_neg hc]
      cases parts <;> rfl

theorem Path.splitSlash_append_slash (cs : List Char) :
    Path.splitSlash (cs ++ ['/']) = Path.splitSlash cs ++ [[]] := by
  induction cs with
  | nil => rfl
  | cons c cs ih =>
    obtain ⟨part, parts, hp⟩ := List.exists_cons_of_ne_nil (Path.splitSlash_ne_nil cs)
    rw [List.cons_append, Path.splitSlash, Path.splitSlash, ih, hp]
    by_cases hc : c = '/'
    · simp only [if_pos hc]
      rfl
    · simp only [if_neg hc]
      rfl

/-- A path joined to a directory ends as it does itself. -/
theorem Path.exists_text_join (dir p : Path) :
    ∃ front : String, (dir.join p).text = front ++ p.text ∧ Path.lastPart ⟨front⟩ = [] := by
  have slash : ∀ cs : List Char, (Path.splitSlash (cs ++ ['/'])).getLastD [] = [] :=
    fun cs => by rw [Path.splitSlash_append_slash, List.getLastD_concat]
  unfold Path.join
  split
  · exact ⟨"", by simp, rfl⟩
  · split
    · next h =>
      obtain ⟨cs, hcs⟩ := List.getLast?_eq_some_iff.1 (eq_of_beq h)
      refine ⟨dir.text, rfl, ?_⟩
      simp only [Path.lastPart, hcs]
      exact slash cs
    · refine ⟨dir.text ++ "/", rfl, ?_⟩
      simp only [Path.lastPart, String.toList_append]
      exact slash _

/-- A name joined to a directory is the last part. -/
theorem Path.lastPart_join (dir : Path) {name : String} (h : '/' ∉ name.toList) :
    (dir.join ⟨name⟩).lastPart = name.toList := by
  obtain ⟨front, h1, h2⟩ := Path.exists_text_join dir ⟨name⟩
  simp only [Path.lastPart] at h2
  rw [Path.lastPart, h1, String.toList_append, Path.splitSlash_append _ h, List.getLastD_concat, h2, List.nil_append]

namespace FileSystem

/-- The place that a path stands for, whether it leads anywhere or not. -/
def place (fs : FileSystem) (p : Path) : Location := (fs.origin p).along (Path.splitSlash p.text.toList)

theorem step_eq {fs : FileSystem} {l l' : Location} {part : List Char} (h : fs.step l part = .ok l') :
    l' = l.along [part] := by
  unfold step at h
  simp only [Location.along, List.foldl_cons, List.foldl_nil]
  split at h
  · cases h
  · cases h
  · split
    · next hi => rw [if_pos hi] at h; exact (Except.ok.inj h).symm
    · next hi =>
      rw [if_neg hi] at h
      split
      · next hp => rw [if_pos hp] at h; exact (Except.ok.inj h).symm
      · next hp =>
        rw [if_neg hp] at h
        dsimp only at h
        repeat' split at h
        · cases h
        · exact (Except.ok.inj h).symm
        · cases h

/-- A step is possible as long as its two ends are there. -/
theorem step_of {fs fs' : FileSystem} {l l' : Location} {part : List Char}
    (hd : fs.node? l = some .directory → fs'.node? l = some .directory)
    (hp : (fs.node? l').isSome → (fs'.node? l').isSome) (hs : fs.step l part = .ok l') :
    fs'.step l part = .ok l' := by
  unfold FileSystem.step at hs ⊢
  split at hs
  · cases hs
  · cases hs
  · next hl =>
    rw [hd hl]
    dsimp only
    split
    · next hi => rwa [if_pos hi] at hs
    · next hi =>
      rw [if_neg hi] at hs
      split
      · next hu => rwa [if_pos hu] at hs
      · next hu =>
        rw [if_neg hu] at hs
        dsimp only at hs
        split
        · next hn =>
          rw [if_pos hn] at hs
          cases hs
        · next hn =>
          rw [if_neg hn] at hs
          split at hs
          · next hc =>
            obtain rfl := Except.ok.inj hs
            rw [if_pos (hp hc)]
          · cases hs

/-- A path that leads somewhere leads to its place. -/
theorem walk_eq {fs : FileSystem} {l l' : Location} {parts : List (List Char)}
    (h : fs.walk l parts = .ok l') : l' = l.along parts := by
  induction parts generalizing l with
  | nil => exact (Except.ok.inj h).symm
  | cons part parts ih =>
    simp only [walk, List.foldlM_cons, bind, Except.bind] at h
    split at h
    · cases h
    · next m hm =>
      rw [ih h, step_eq hm]
      rfl

theorem resolve_eq {fs : FileSystem} {p : Path} {l : Location} (h : fs.resolve p = .ok l) : l = fs.place p := by
  simp only [resolve, bind, Except.bind] at h
  split at h
  · cases h
  · exact walk_eq h

/-- A path leads to a file if it leads to its place, and there is a file. -/
theorem isFile_iff {fs : FileSystem} {p : Path} :
    fs.isFile p = true ↔ fs.resolve p = .ok (fs.place p) ∧ (fs.content? (fs.place p)).isSome := by
  simp only [isFile]
  constructor
  · intro h
    split at h
    · next l hl =>
      obtain rfl := resolve_eq hl
      exact ⟨hl, h⟩
    · cases h
  · rintro ⟨h, hc⟩
    rw [h]
    exact hc

/-! ## Extensions -/

/-- Nothing was taken away, and directories are still directories. -/
structure Extends (fs fs' : FileSystem) : Prop where
  workDir : fs'.workDir = fs.workDir
  directory : ∀ l, fs.node? l = some .directory → fs'.node? l = some .directory
  present : ∀ l, (fs.node? l).isSome → (fs'.node? l).isSome

namespace Extends
variable {fs fs' fs'' : FileSystem}

theorem refl (fs : FileSystem) : fs.Extends fs := ⟨rfl, fun _ h => h, fun _ h => h⟩

theorem trans (h : fs.Extends fs') (h' : fs'.Extends fs'') : fs.Extends fs'' :=
  ⟨h'.workDir.trans h.workDir, fun l hl => h'.directory l (h.directory l hl),
    fun l hl => h'.present l (h.present l hl)⟩

theorem origin (h : fs.Extends fs') (p : Path) : fs'.origin p = fs.origin p := by
  simp only [FileSystem.origin, h.workDir]

theorem place (h : fs.Extends fs') (p : Path) : fs'.place p = fs.place p := by
  simp only [FileSystem.place, h.origin]

theorem step (h : fs.Extends fs') {l l' : Location} {part : List Char} (hs : fs.step l part = .ok l') :
    fs'.step l part = .ok l' :=
  step_of (h.directory l) (h.present l') hs

/-- A path that led somewhere still leads there. -/
theorem walk (h : fs.Extends fs') {l l' : Location} {parts : List (List Char)} (hw : fs.walk l parts = .ok l') :
    fs'.walk l parts = .ok l' := by
  induction parts generalizing l with
  | nil => exact hw
  | cons part parts ih =>
    simp only [FileSystem.walk, List.foldlM_cons, bind, Except.bind] at hw ⊢
    split at hw
    · cases hw
    · next m hm =>
      rw [h.step hm]
      exact ih hw

theorem resolve (h : fs.Extends fs') {p : Path} {l : Location} (hr : fs.resolve p = .ok l) :
    fs'.resolve p = .ok l := by
  simp only [FileSystem.resolve, bind, Except.bind] at hr ⊢
  split at hr
  · cases hr
  · rw [h.origin]
    exact h.walk hr

end Extends

/-! ## Putting a file or directory at a place -/

theorem lookup_filter_ne {α β : Type} [DecidableEq α] (k k' : α) (l : List (α × β)) :
    (l.filter (·.1 != k)).lookup k' = if k' = k then none else l.lookup k' := by
  induction l with
  | nil => simp
  | cons e es ih =>
    obtain ⟨x, v⟩ := e
    by_cases hx : x = k
    · subst hx
      rw [List.filter_cons_of_neg (by simp), ih, List.lookup_cons]
      by_cases hk : k' = x
      · simp [hk]
      · simp [hk, beq_eq_false_iff_ne.2 hk]
    · rw [List.filter_cons_of_pos (by simpa using hx), List.lookup_cons, List.lookup_cons, ih]
      by_cases hk : k' = x
      · simp [hk, hx]
      · simp [beq_eq_false_iff_ne.2 hk]

theorem node?_of_content? {fs : FileSystem} {l : Location} {content : Bytes} (h : fs.content? l = some content) :
    fs.node? l = some (.file content) := by
  simp only [content?] at h
  split at h
  · next hn => rw [hn, Option.some.inj h]
  · cases h

/-- What is at a place is listed, apart from the root. -/
theorem mem_nodes_of_node? {fs : FileSystem} {l : Location} {n : Node} (hl : l ≠ .root) (h : fs.node? l = some n) :
    (l, n) ∈ fs.nodes := by
  rw [node?, if_neg hl] at h
  obtain ⟨before, after, hs, -⟩ := List.lookup_eq_some_iff.1 h
  rw [hs]
  exact List.mem_append_right _ List.mem_cons_self

theorem mem_nodes_of_content? {fs : FileSystem} {l : Location} {content : Bytes} (h : fs.content? l = some content) :
    (l, Node.file content) ∈ fs.nodes := by
  have hn := node?_of_content? h
  refine mem_nodes_of_node? ?_ hn
  rintro rfl
  cases hn

theorem node?_put (fs : FileSystem) {l : Location} (hl : l ≠ .root) (n : Node) (l' : Location) :
    (fs.put l n).node? l' = if l' = l then some n else fs.node? l' := by
  by_cases hr : l' = .root
  · subst hr
    simp [node?, Ne.symm hl]
  · by_cases h : l' = l
    · subst h
      simp [node?, put, hr]
    · simp [node?, put, hr, h, List.lookup_cons, beq_eq_false_iff_ne.2 h, lookup_filter_ne]

theorem content?_put_file (fs : FileSystem) {l : Location} (hl : l ≠ .root) (content : Bytes) (l' : Location) :
    (fs.put l (.file content)).content? l' = if l' = l then some content else fs.content? l' := by
  simp only [content?, node?_put fs hl]
  by_cases h : l' = l <;> simp [h]

theorem content?_put_directory (fs : FileSystem) {l : Location} (hl : l ≠ .root) (hn : fs.node? l = none)
    (l' : Location) : (fs.put l .directory).content? l' = fs.content? l' := by
  simp only [content?, node?_put fs hl]
  by_cases h : l' = l <;> simp [h, hn]

theorem Extends.put {fs : FileSystem} {l : Location} (hl : l ≠ .root) {n : Node}
    (hn : n = .directory ∨ fs.node? l ≠ some .directory) : fs.Extends (fs.put l n) where
  workDir := rfl
  directory l' h := by
    rw [node?_put fs hl]
    split
    · next he =>
      rcases hn with rfl | hn
      · rfl
      · exact absurd (he ▸ h) hn
    · exact h
  present l' h := by
    rw [node?_put fs hl]
    split
    · rfl
    · exact h

/-! ## Writing files -/

/-- What `target` found out about the path of a file that can be written. -/
structure Writable (fs : FileSystem) (p : Path) (dir : Location) : Prop where
  checked : check p = .ok ()
  walked : fs.walk (fs.origin p) (Path.splitSlash p.text.toList).dropLast = .ok dir
  directory : fs.node? dir = some .directory
  named : Path.isIdle p.lastPart = false ∧ p.lastPart ≠ ['.', '.']
  short : ¬ maxName < (String.ofList p.lastPart).utf8ByteSize

theorem locate_eq {fs : FileSystem} {p : Path} {dir : Location} {part : List Char}
    (h : fs.locate p = .ok (dir, part)) :
    check p = .ok () ∧ fs.walk (fs.origin p) (Path.splitSlash p.text.toList).dropLast = .ok dir ∧
      fs.node? dir = some .directory ∧ part = p.lastPart := by
  simp only [locate, bind, Except.bind] at h
  split at h
  · cases h
  · next hc =>
    split at h
    · cases h
    · next dir' hw =>
      split at h
      · next hd =>
        obtain ⟨rfl, rfl⟩ := Prod.mk.inj (Except.ok.inj h)
        exact ⟨hc, hw, hd, rfl⟩
      · cases h

theorem target_eq {fs : FileSystem} {p : Path} {l : Location} (h : fs.target p = .ok l) :
    ∃ dir, fs.Writable p dir ∧ l = dir.child (String.ofList p.lastPart) := by
  simp only [target, bind, Except.bind] at h
  split at h
  · cases h
  · -- the directory is there; what is left is the check of the last part
    next found hf =>
    obtain ⟨dir, part⟩ := found
    obtain ⟨h1, h2, h3, h4⟩ := locate_eq hf
    dsimp only at h
    split at h
    · cases h
    · next hn =>
      rw [not_or, not_or, Decidable.not_not] at hn
      obtain ⟨hp, hi, hd⟩ := hn
      rw [hp] at h1 h2 h4
      subst h4
      split at h
      · cases h
      · next hs => exact ⟨dir, ⟨h1, h2, h3, ⟨by simpa using hi, hd⟩, hs⟩, (Except.ok.inj h).symm⟩

theorem Location.along_concat (l : Location) (parts : List (List Char)) (part : List Char) :
    l.along (parts ++ [part]) = (l.along parts).along [part] := by
  simp [Location.along]

theorem splitSlash_eq_concat (p : Path) :
    Path.splitSlash p.text.toList = (Path.splitSlash p.text.toList).dropLast ++ [p.lastPart] := by
  rcases List.eq_nil_or_concat (Path.splitSlash p.text.toList) with h | ⟨front, last, h⟩
  · exact absurd h (Path.splitSlash_ne_nil _)
  · rw [Path.lastPart, h]
    simp

/-- The file is at the place of its path. -/
theorem Writable.place_eq {fs : FileSystem} {p : Path} {dir : Location} (h : fs.Writable p dir) :
    fs.place p = dir.child (String.ofList p.lastPart) := by
  rw [place, splitSlash_eq_concat p, Location.along_concat, ← walk_eq h.walked]
  simp [Location.along, h.named]

theorem Writable.place_ne_root {fs : FileSystem} {p : Path} {dir : Location} (h : fs.Writable p dir) :
    fs.place p ≠ .root := by
  rw [h.place_eq]
  exact Location.child_ne_root dir _

/-- Once there is something at its place, the path leads there. -/
theorem Writable.resolve_eq {fs : FileSystem} {p : Path} {dir : Location} (h : fs.Writable p dir)
    (hp : (fs.node? (fs.place p)).isSome) : fs.resolve p = .ok (fs.place p) := by
  simp only [FileSystem.resolve, h.checked, bind, Except.bind]
  rw [splitSlash_eq_concat p]
  have hw := h.walked
  simp only [walk] at hw ⊢
  rw [List.foldlM_append, hw]
  rw [h.place_eq] at hp ⊢
  simp only [bind, Except.bind, List.foldlM_cons, List.foldlM_nil, step, h.directory, h.named, if_neg h.short, hp]
  rfl

theorem Writable.extends {fs fs' : FileSystem} {p : Path} {dir : Location} (h : fs.Writable p dir)
    (he : fs.Extends fs') : fs'.Writable p dir :=
  ⟨h.checked, by rw [he.origin]; exact he.walk h.walked, he.directory _ h.directory, h.named, h.short⟩

theorem write_eq_ok {fs fs' : FileSystem} {p : Path} {content : Bytes} (h : fs.write p content = .ok fs') :
    fs.target p = .ok (fs.place p) ∧ fs.place p ≠ .root ∧ fs.node? (fs.place p) ≠ some .directory ∧
      fs' = fs.put (fs.place p) (.file content) := by
  simp only [write, bind, Except.bind] at h
  split at h
  · cases h
  · next l ht =>
    obtain ⟨dir, hw, hl⟩ := target_eq ht
    obtain rfl := hl.trans hw.place_eq.symm
    split at h
    · cases h
    · next hn => exact ⟨ht, hw.place_ne_root, hn, (Except.ok.inj h).symm⟩

/-- Writing a file changes what is at its place and nowhere else, and makes the path lead there. -/
theorem write_spec {fs fs' : FileSystem} {p : Path} {content : Bytes} (h : fs.write p content = .ok fs') :
    fs.Extends fs' ∧ fs'.resolve p = .ok (fs.place p) ∧
      (∃ dir : Location, fs.place p = dir.child (String.ofList p.lastPart)) ∧
      ∀ l, fs'.content? l = if l = fs.place p then some content else fs.content? l := by
  obtain ⟨ht, hr, hn, rfl⟩ := write_eq_ok h
  obtain ⟨dir, hw, -⟩ := target_eq ht
  have he : fs.Extends (fs.put (fs.place p) (.file content)) := .put hr (.inr hn)
  have hs := (hw.extends he).resolve_eq (by rw [he.place, node?_put fs hr, if_pos rfl]; rfl)
  exact ⟨he, he.place p ▸ hs, ⟨dir, hw.place_eq⟩, content?_put_file fs hr content⟩

/-- A file that was written can be read. -/
theorem read_of_write {fs fs' : FileSystem} {p : Path} {content : Bytes} (h : fs.write p content = .ok fs') :
    fs'.isFile p = true ∧ fs'.read p = .ok content := by
  obtain ⟨-, hr, -, hc⟩ := write_spec h
  have hn := node?_of_content? ((hc (fs.place p)).trans (if_pos rfl))
  simp only [isFile, read, hr, hc, if_pos, bind, Except.bind, readAt, hn]
  exact ⟨rfl, trivial⟩

/-! ## Removing a file -/

theorem node?_erase (fs : FileSystem) (l l' : Location) (hr : l ≠ .root) :
    (fs.erase l).node? l' = if l' = l then none else fs.node? l' := by
  by_cases h : l' = .root
  · subst h
    simp [node?, Ne.symm hr]
  · simp [node?, erase, h, lookup_filter_ne]

/-- Without a file, paths that led elsewhere still do. -/
theorem walk_erase {fs : FileSystem} {l k k' : Location} {content : Bytes} {parts : List (List Char)}
    (hl : fs.node? l = some (.file content)) (hk : k' ≠ l) (hw : fs.walk k parts = .ok k') :
    (fs.erase l).walk k parts = .ok k' := by
  have hr : l ≠ .root := by
    rintro rfl
    simp [node?] at hl
  induction parts generalizing k with
  | nil => exact hw
  | cons part parts ih =>
    simp only [walk, List.foldlM_cons, bind, Except.bind] at hw ⊢
    split at hw
    · cases hw
    · next m hm =>
      -- A file is never passed through: the steps after it would fail.
      have hml : m ≠ l := by
        rintro rfl
        cases parts with
        | nil => exact hk (Except.ok.inj hw).symm
        | cons _ _ => simp [List.foldlM_cons, bind, Except.bind, step, hl] at hw
      have hs : (fs.erase l).step k part = .ok m := by
        refine step_of (fun hd => ?_) (fun hp => ?_) hm
        · rw [node?_erase fs l k hr, if_neg, hd]
          rintro rfl
          rw [hd] at hl
          cases hl
        · rwa [node?_erase fs l m hr, if_neg hml]
      rw [hs]
      exact ih hw

/-- Removing a file changes what is at its place and nowhere else. -/
theorem removeFile_spec {fs fs' : FileSystem} {p : Path} (h : fs.removeFile p = .ok fs') :
    fs'.workDir = fs.workDir ∧ (∀ l, fs'.content? l = if l = fs.place p then none else fs.content? l) ∧
      ∀ q, fs.place q ≠ fs.place p → fs.resolve q = .ok (fs.place q) → fs'.resolve q = .ok (fs.place q) := by
  simp only [removeFile, bind, Except.bind] at h
  split at h
  · cases h
  · next l hl =>
    obtain rfl := resolve_eq hl
    split at h
    · next content hn =>
      obtain rfl := Except.ok.inj h
      have hr : fs.place p ≠ .root := by
        intro he
        simp [node?, he] at hn
      refine ⟨rfl, fun l => ?_, fun q hq hw => ?_⟩
      · simp only [content?, node?_erase fs _ l hr]
        by_cases he : l = fs.place p <;> simp [he]
      · simp only [resolve, bind, Except.bind] at hw ⊢
        split at hw
        · cases hw
        · exact walk_erase hn hq hw
    · cases h
    · cases h

/-! ## Creating directories -/

theorem createDirectory_eq_put {fs fs' : FileSystem} {p : Path} (h : fs.createDirectory p = .ok fs') :
    ∃ dir, fs.Writable (dropSlashes p) dir ∧ fs.node? (fs.place (dropSlashes p)) = none ∧
      fs' = fs.put (fs.place (dropSlashes p)) .directory := by
  simp only [createDirectory, bind, Except.bind] at h
  split at h
  · cases h
  · next found hf =>
    obtain ⟨dir, part⟩ := found
    obtain ⟨hcheck, hwalk, hdir, rfl⟩ := locate_eq hf
    dsimp only at h
    split at h
    · cases h
    · next hi =>
      rw [not_or] at hi
      split at h
      · cases h
      · next hshort =>
        have hw : fs.Writable (dropSlashes p) dir := ⟨hcheck, hwalk, hdir, ⟨by simpa using hi.1, hi.2⟩, hshort⟩
        rw [← hw.place_eq] at h
        split at h
        · cases h
        · next hn => exact ⟨dir, hw, by simpa using hn, (Except.ok.inj h).symm⟩

theorem createDirectory_spec {fs fs' : FileSystem} {p : Path} (h : fs.createDirectory p = .ok fs') :
    fs.Extends fs' ∧ ∀ l, fs'.content? l = fs.content? l := by
  obtain ⟨dir, hw, hnone, rfl⟩ := createDirectory_eq_put h
  exact ⟨.put hw.place_ne_root (.inl rfl), content?_put_directory fs hw.place_ne_root hnone⟩

/-- Creating directories changes no file, whether it succeeds or not. -/
theorem createDirectories_spec (fs : FileSystem) (p : Path) :
    fs.Extends (fs.createDirectories p).2 ∧ ∀ l, (fs.createDirectories p).2.content? l = fs.content? l := by
  -- The directories above come first, so a failure leaves those that could be created.
  fun_induction fs.createDirectories p with
  | case1 => exact ⟨.refl fs, fun _ => rfl⟩
  | case2 fs p hp h => exact createDirectory_spec h
  | case3 => exact ⟨.refl _, fun _ => rfl⟩
  | case4 p hp hn above ha fault fs' hc ih => rwa [hc] at ih
  | case5 p hp hn above ha u fs' hc fs'' hd ih =>
    rw [hc] at ih
    obtain ⟨he, hs⟩ := createDirectory_spec hd
    exact ⟨ih.1.trans he, fun l => (hs l).trans (ih.2 l)⟩
  | case6 p hp hn above ha u fs' hc fault hd ih => rwa [hc] at ih
  | case7 => exact ⟨.refl _, fun _ => rfl⟩

/-- Writing a file with its directory changes what is at its place and nowhere else. -/
theorem writeCreating_spec (fs : FileSystem) (p : Path) (content : Bytes) :
    fs.Extends (fs.writeCreating p content).2 ∧
      ((∀ l, (fs.writeCreating p content).2.content? l = fs.content? l) ∨
        (∃ dir : Location, fs.place p = dir.child (String.ofList p.lastPart)) ∧
        ∀ l, (fs.writeCreating p content).2.content? l = if l = fs.place p then some content else fs.content? l) := by
  have hdir : fs.Extends (p.parent?.elim (.ok (), fs) fs.createDirectories).2 ∧
      ∀ l, (p.parent?.elim (.ok (), fs) fs.createDirectories).2.content? l = fs.content? l := by
    cases p.parent? with
    | none => exact ⟨.refl fs, fun _ => rfl⟩
    | some above => exact createDirectories_spec fs above
  simp only [writeCreating]
  split
  · next hc =>
    rw [hc] at hdir
    exact ⟨hdir.1, .inl hdir.2⟩
  · next fs' hc =>
    rw [hc] at hdir
    obtain ⟨he, hs⟩ := hdir
    split
    · -- the place of the path is the same in the files with its directory
      next fs'' hw =>
      obtain ⟨he', -, hd, hc'⟩ := write_spec hw
      rw [he.place] at hd hc'
      exact ⟨he.trans he', .inr ⟨hd, fun l => by rw [hc' l, hs l]⟩⟩
    · exact ⟨he, .inl hs⟩

theorem read_of_writeCreating {fs fs' : FileSystem} {p : Path} {content : Bytes}
    (h : fs.writeCreating p content = (.ok (), fs')) : fs'.isFile p = true ∧ fs'.read p = .ok content := by
  simp only [writeCreating] at h
  split at h
  · cases h
  · split at h
    · next hw =>
      obtain rfl := (Prod.mk.inj h).2
      exact read_of_write hw
    · cases h

end FileSystem

end ShaderBuild
