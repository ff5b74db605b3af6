import Mathlib.Data.List.Induction
import ShaderBuild.Proofs.Files
/-!
# Trees of places

Where paths lead depends on which places hold files and directories, and not on what is in the files
(`SameTree`). In a tree, where everything is in a directory and has a name that a path can spell
(`IsTree`), the path of a place leads to that place (`trace_path`): it is the canonical one.
-/

namespace ShaderBuild

/-! ## Paths that spell places -/

theorem Path.splitSlash_append_cons {part : List Char} (h : '/' ∉ part) (cs : List Char) :
    Path.splitSlash (part ++ '/' :: cs) = part :: Path.splitSlash cs := by
  induction part with
  | nil => rw [List.nil_append, Path.splitSlash, if_pos rfl]
  | cons c part ih =>
    rw [List.mem_cons, not_or] at h
    rw [List.cons_append, Path.splitSlash, if_neg (Ne.symm h.1), ih h.2]

/-- Parts that were joined are found again. -/
theorem Path.splitSlash_joinSlash {parts : List (List Char)} (hn : parts ≠ []) (h : ∀ part ∈ parts, '/' ∉ part) :
    Path.splitSlash (Path.joinSlash parts) = parts := by
  induction parts with
  | nil => exact absurd rfl hn
  | cons part parts ih =>
    have hpart := h part List.mem_cons_self
    cases parts with
    | nil => exact Path.splitSlash_of_not_mem hpart
    | cons next parts =>
      rw [Path.joinSlash_cons_cons, Path.splitSlash_append_cons hpart,
        ih (List.cons_ne_nil _ _) fun p hp => h p (List.mem_cons_of_mem _ hp)]

theorem Path.mem_joinSlash {parts : List (List Char)} {c : Char} (h : c ∈ Path.joinSlash parts) :
    c = '/' ∨ ∃ part ∈ parts, c ∈ part := by
  induction parts with
  | nil => cases h
  | cons part parts ih =>
    cases parts with
    | nil => exact .inr ⟨part, List.mem_cons_self, h⟩
    | cons next parts =>
      rw [Path.joinSlash_cons_cons, List.mem_append, List.mem_cons] at h
      rcases h with h | rfl | h
      · exact .inr ⟨part, List.mem_cons_self, h⟩
      · exact .inl rfl
      · rcases ih h with rfl | ⟨p, hp, hc⟩
        · exact .inl rfl
        · exact .inr ⟨p, List.mem_cons_of_mem _ hp, hc⟩

namespace FileSystem

variable {fs fs' : FileSystem}

/-- A name that a file or directory can have. -/
structure IsName (name : String) : Prop where
  noSlash : '/' ∉ name.toList
  noNul : '\x00' ∉ name.toList
  named : Path.isIdle name.toList = false ∧ name.toList ≠ ['.', '.']
  short : ¬ maxName < name.utf8ByteSize

instance (name : String) : Decidable (IsName name) :=
  decidable_of_iff ('/' ∉ name.toList ∧ '\x00' ∉ name.toList ∧
      (Path.isIdle name.toList = false ∧ name.toList ≠ ['.', '.']) ∧ ¬ maxName < name.utf8ByteSize)
    ⟨fun ⟨h1, h2, h3, h4⟩ => ⟨h1, h2, h3, h4⟩, fun h => ⟨h.noSlash, h.noNul, h.named, h.short⟩⟩

/-- Everything is in a directory, under a name. -/
structure IsTree (fs : FileSystem) : Prop where
  parent : ∀ (dir : Location) (name : String), (fs.node? (dir.child name)).isSome → fs.node? dir = some .directory
  name : ∀ (dir : Location) (name : String), (fs.node? (dir.child name)).isSome → IsName name

namespace IsTree

/-- It is enough to know this of what is listed. -/
theorem of_nodes (h : ∀ dir : Location, ∀ name, ∀ n, (dir.child name, n) ∈ fs.nodes →
    fs.node? dir = some .directory ∧ IsName name) : fs.IsTree := by
  have listed : ∀ (dir : Location) (name : String), (fs.node? (dir.child name)).isSome →
      ∃ n, (dir.child name, n) ∈ fs.nodes := by
    intro dir name hs
    obtain ⟨n, hn⟩ := Option.isSome_iff_exists.1 hs
    exact ⟨n, mem_nodes_of_node? (Location.child_ne_root dir name) hn⟩
  refine ⟨fun dir name hs => ?_, fun dir name hs => ?_⟩
  · obtain ⟨n, hn⟩ := listed dir name hs
    exact (h dir name n hn).1
  · obtain ⟨n, hn⟩ := listed dir name hs
    exact (h dir name n hn).2

/-- Whether the files make a tree can be seen from what is listed. -/
theorem of_listed (h : ∀ e ∈ fs.nodes, fs.node? e.1.parent = some .directory ∧ IsName (e.1.names.getLastD "")) :
    fs.IsTree := by
  refine .of_nodes fun dir name n hn => ?_
  have hparent : (dir.child name).parent = dir := by simp [Location.child, Location.parent]
  have hlast : (dir.child name).names.getLastD "" = name := by simp [Location.child]
  have hentry := h _ hn
  rwa [hparent, hlast] at hentry

/-- There is something at every place on the way to something. -/
theorem isSome_of_append (h : fs.IsTree) {above below : List String} (hs : (fs.node? ⟨above ++ below⟩).isSome) :
    (fs.node? ⟨above⟩).isSome := by
  induction below using List.reverseRecOn with
  | nil => rwa [List.append_nil] at hs
  | append_singleton below name ih =>
    rw [← List.append_assoc] at hs
    exact ih (by rw [h.parent ⟨above ++ below⟩ name hs]; rfl)

theorem isName (h : fs.IsTree) {l : Location} (hs : (fs.node? l).isSome) : ∀ name ∈ l.names, IsName name := by
  obtain ⟨names⟩ := l
  intro name hn
  obtain ⟨above, below, rfl⟩ := List.append_of_mem hn
  rw [List.append_cons] at hs
  exact h.name ⟨above⟩ name (h.isSome_of_append hs)

theorem step_child (h : fs.IsTree) {dir : Location} {name : String} (hs : (fs.node? (dir.child name)).isSome) :
    fs.step dir name.toList = .ok (dir.child name) := by
  obtain ⟨-, -, hn, hshort⟩ := h.name dir name hs
  simp only [step, h.parent dir name hs, hn.1, hn.2, String.ofList_toList, hshort, hs]
  rfl

/-- Going along the names of a place leads there. -/
theorem walk_names (h : fs.IsTree) (above names : List String) (hs : (fs.node? ⟨above ++ names⟩).isSome) :
    fs.walk ⟨above⟩ (names.map String.toList) = .ok ⟨above ++ names⟩ := by
  induction names generalizing above with
  | nil => simp [walk, pure, Except.pure]
  | cons name names ih =>
    rw [List.append_cons] at hs ⊢
    have hstep : fs.step ⟨above⟩ name.toList = .ok ⟨above ++ [name]⟩ := h.step_child (h.isSome_of_append hs)
    rw [List.map_cons, walk, List.foldlM_cons, hstep]
    exact ih (above ++ [name]) hs

/-- The path of a place leads to that place. -/
theorem trace_path (h : fs.IsTree) {l : Location} (hs : (fs.node? l).isSome) : fs.trace l.path = .ok l := by
  have hnames := h.isName hs
  have htext : l.path.text.toList = '/' :: Path.joinSlash (l.names.map String.toList) := String.toList_ofList
  have hnul : '\x00' ∉ l.path.text.toList := by
    rw [htext, List.mem_cons, not_or]
    refine ⟨by decide, fun hc => ?_⟩
    rcases Path.mem_joinSlash hc with hc | ⟨part, hp, hc⟩
    · exact absurd hc (by decide)
    · obtain ⟨name, hn, rfl⟩ := List.mem_map.1 hp
      exact (hnames name hn).noNul hc
  have hempty : l.path.text ≠ "" := by
    intro he
    rw [he] at htext
    exact absurd htext (by simp)
  have habsolute : l.path.isAbsolute = true := by simp [Path.isAbsolute, htext]
  have hroot : fs.step .root [] = .ok .root := by simp [step, node?, Path.isIdle]
  have hcontains : l.path.text.toList.contains '\x00' = false := by simpa using hnul
  rw [trace, hcontains, if_neg Bool.false_ne_true, if_neg hempty, origin, if_pos habsolute, htext, Path.splitSlash,
    if_pos rfl, walk, List.foldlM_cons, hroot]
  by_cases hl : l.names = []
  · -- the path of the root has a second part, which is empty too
    obtain rfl : l = .root := congrArg Location.mk hl
    show fs.walk .root [[]] = _
    rw [walk, List.foldlM_cons, hroot]
    rfl
  · have hne : l.names.map String.toList ≠ [] := by simpa using hl
    rw [Path.splitSlash_joinSlash hne]
    · exact h.walk_names [] l.names hs
    · intro part hp
      obtain ⟨name, hn, rfl⟩ := List.mem_map.1 hp
      exact (hnames name hn).noSlash

end IsTree

/-- The same places hold directories, and the same places hold files. -/
structure SameTree (fs fs' : FileSystem) : Prop where
  workDir : fs'.workDir = fs.workDir
  directory : ∀ l, fs'.node? l = some .directory ↔ fs.node? l = some .directory
  file : ∀ l, (fs'.content? l).isSome = (fs.content? l).isSome

namespace SameTree

theorem refl (fs : FileSystem) : fs.SameTree fs := ⟨rfl, fun _ => Iff.rfl, fun _ => rfl⟩

theorem isSome (h : fs.SameTree fs') (l : Location) : (fs'.node? l).isSome = (fs.node? l).isSome := by
  have hd := h.directory l
  have hf := h.file l
  simp only [content?] at hf
  cases hn : fs.node? l with
  | none =>
    cases hn' : fs'.node? l with
    | none => rfl
    | some node => cases node <;> simp_all
  | some node =>
    cases hn' : fs'.node? l with
    | none => cases node <;> simp_all
    | some node' => rfl

theorem step (h : fs.SameTree fs') : fs'.step = fs.step := by
  funext l part
  have hd := h.directory l
  have hs := h.isSome l
  simp only [FileSystem.step, h.isSome]
  cases hn : fs.node? l with
  | none =>
    rw [hn] at hs
    have hn' : fs'.node? l = none := by simpa using hs
    rw [hn']
  | some node =>
    cases node with
    | directory => rw [hd.2 hn]
    | file content =>
      -- there is another file in its place
      rw [hn] at hd hs
      obtain ⟨node', hn'⟩ := Option.isSome_iff_exists.1 hs
      cases node' with
      | directory => exact absurd (hd.1 hn') (by simp)
      | file content' => rw [hn']

/-- Another content for a file. -/
theorem put {l : Location} (hl : (fs.content? l).isSome) (content : Bytes) :
    fs.SameTree (fs.put l (.file content)) := by
  have hroot : l ≠ .root := by
    rintro rfl
    simp [content?, node?] at hl
  have hn : fs.node? l ≠ some .directory := by
    intro hn
    simp [content?, hn] at hl
  refine ⟨rfl, fun l' => ?_, fun l' => ?_⟩
  · rw [node?_put fs hroot]
    by_cases he : l' = l
    · subst he
      simp [hn]
    · rw [if_neg he]
  · rw [content?_put_file fs hroot]
    by_cases he : l' = l
    · subst he
      simp [hl]
    · rw [if_neg he]

theorem walk (h : fs.SameTree fs') : fs'.walk = fs.walk := by
  funext l parts
  rw [FileSystem.walk, FileSystem.walk, h.step]

theorem origin (h : fs.SameTree fs') : fs'.origin = fs.origin := by
  funext p
  rw [FileSystem.origin, FileSystem.origin, h.workDir]

/-- Every path leads to the same place. -/
theorem trace (h : fs.SameTree fs') : fs'.trace = fs.trace := by
  funext p
  rw [FileSystem.trace, FileSystem.trace, h.walk, h.origin]

theorem isFile (h : fs.SameTree fs') : fs'.isFile = fs.isFile := by
  have hr : fs'.resolve = fs.resolve := by
    funext p
    rw [FileSystem.resolve, FileSystem.resolve, h.walk, h.origin]
  funext p
  rw [FileSystem.isFile, FileSystem.isFile, hr]
  cases fs.resolve p with
  | error fault => rfl
  | ok l => exact h.file l

end SameTree

end FileSystem

end ShaderBuild
