import ShaderBuild.Cache
import ShaderBuild.Proofs.Files
/-!
# The entries of a cache

Where the entry for a digest is, and what changes it. Different digests have different entries
(`place_inj`), storing bytecode changes the entry of its digest and no other (`store_spec`), and writing
a file whose name has a dot changes none (`Kept.writeCreating`).

`Kept` is what is asked of everybody else: whatever happens to the files, the entries of the cache stay
what they are, and paths that led to them still do.
-/

namespace ShaderBuild

/-- A name without dots stands for a place of its own. -/
theorem Path.named_of_not_mem {part : List Char} (hn : part ≠ []) (h : '.' ∉ part) :
    Path.isIdle part = false ∧ part ≠ ['.', '.'] := by
  constructor
  · simp only [Path.isIdle, Bool.or_eq_false_iff, beq_eq_false_iff_ne]
    exact ⟨hn, fun he => h (by simp [he])⟩
  · exact fun he => h (by simp [he])

/-! ## Hexadecimal digits can be read back -/

namespace Bytes

theorem digitChar_inj : ∀ m n : Fin 16, Nat.digitChar m = Nat.digitChar n → m = n := by decide

theorem digitChar_ne (n : Nat) : Nat.digitChar n ≠ '.' ∧ Nat.digitChar n ≠ '/' := by
  have small : ∀ m : Fin 16, Nat.digitChar m ≠ '.' ∧ Nat.digitChar m ≠ '/' := by decide
  rcases Nat.lt_or_ge n 16 with h | h
  · exact small ⟨n, h⟩
  · rw [Nat.digitChar_eq_star.2 h]
    decide

theorem hexByte_inj {b b' : UInt8} (h : hexByte b = hexByte b') : b = b' := by
  have hb := b.toNat_lt
  have hb' := b'.toNat_lt
  simp only [hexByte, List.cons.injEq, and_true] at h
  have h1 := digitChar_inj ⟨b.toNat / 16, by omega⟩ ⟨b'.toNat / 16, by omega⟩ h.1
  have h2 := digitChar_inj ⟨b.toNat % 16, by omega⟩ ⟨b'.toNat % 16, by omega⟩ h.2
  rw [Fin.mk.injEq] at h1 h2
  exact UInt8.toNat_inj.1 (by omega)

theorem flatMap_hexByte_inj {bs bs' : Bytes} (h : bs.flatMap hexByte = bs'.flatMap hexByte) :
    bs = bs' := by
  induction bs generalizing bs' with
  | nil =>
    cases bs' with
    | nil => rfl
    | cons => simp [hexByte] at h
  | cons b bs ih =>
    cases bs' with
    | nil => simp [hexByte] at h
    | cons b' bs' =>
      rw [List.flatMap_cons, List.flatMap_cons] at h
      obtain ⟨h1, h2⟩ := List.append_inj h rfl
      rw [hexByte_inj h1, ih h2]

theorem hex_inj {bs bs' : Bytes} (h : hex bs = hex bs') : bs = bs' :=
  flatMap_hexByte_inj (String.ofList_injective h)

/-- The digits of bytes are neither dots nor slashes. -/
theorem not_mem_hex (bs : Bytes) : '.' ∉ (hex bs).toList ∧ '/' ∉ (hex bs).toList := by
  have hdigit : ∀ c ∈ (hex bs).toList, c ≠ '.' ∧ c ≠ '/' := by
    intro c hc
    rw [hex, String.toList_ofList, List.mem_flatMap] at hc
    obtain ⟨b, -, hb⟩ := hc
    simp only [hexByte, List.mem_cons, List.not_mem_nil, or_false] at hb
    rcases hb with rfl | rfl <;> exact digitChar_ne _
  exact ⟨fun h => (hdigit _ h).1 rfl, fun h => (hdigit _ h).2 rfl⟩

end Bytes

/-! ## Digests have different names -/

namespace Digest

theorem hex_inj {d d' : Digest} (h : d.hex = d'.hex) : d = d' := by
  obtain ⟨bytes, hl⟩ := d
  obtain ⟨bytes', hl'⟩ := d'
  obtain rfl : bytes = bytes' := Bytes.hex_inj h
  rfl

theorem hex_toList (d : Digest) : d.hex.toList = d.bytes.flatMap Bytes.hexByte := String.toList_ofList

/-- The name of a digest has neither dots nor slashes. -/
theorem not_mem_hex (d : Digest) : '.' ∉ d.hex.toList ∧ '/' ∉ d.hex.toList := Bytes.not_mem_hex d.bytes

theorem hex_named (d : Digest) : Path.isIdle d.hex.toList = false ∧ d.hex.toList ≠ ['.', '.'] := by
  have hl : d.hex.toList ≠ [] := by
    obtain ⟨b, bs, hb⟩ := List.exists_cons_of_length_pos (show 0 < d.bytes.length by rw [d.length_bytes]; decide)
    rw [hex_toList, hb]
    exact List.cons_ne_nil _ _
  exact Path.named_of_not_mem hl (not_mem_hex d).1

end Digest

namespace Cache

open FileSystem (Extends)

variable {c : Cache} {fs fs' fs'' : FileSystem}

/-! ## Entries -/

/-- The place of the entry for a digest, whether there is one or not. -/
def place (c : Cache) (fs : FileSystem) (d : Digest) : Location := fs.place (c.path d)

/-- The bytecode for a digest, if there is some. -/
def bytecode? (c : Cache) (fs : FileSystem) (d : Digest) : Option Bytes := (c.load fs d).toOption

/-- There are no entries. -/
def IsEmpty (c : Cache) (fs : FileSystem) : Prop := ∀ d, fs.content? (c.place fs d) = none

/-- The files changed, but not those of the cache: its directory is where it was, every entry holds what
it held, and an entry that was found is found. -/
structure Kept (c : Cache) (fs fs' : FileSystem) : Prop where
  place : ∀ d, c.place fs' d = c.place fs d
  content : ∀ d, fs'.content? (c.place fs d) = fs.content? (c.place fs d)
  contains : ∀ d, c.contains fs d = true → c.contains fs' d = true

/-- Every entry is found under its path. -/
def Sound (c : Cache) (fs : FileSystem) : Prop := ∀ d, (fs.content? (c.place fs d)).isSome → c.contains fs d = true

theorem IsEmpty.sound (h : c.IsEmpty fs) : c.Sound fs := fun d hd => by simp [h d] at hd

theorem lastPart_path (c : Cache) (d : Digest) : (c.path d).lastPart = d.hex.toList :=
  Path.lastPart_join c.dir (Digest.not_mem_hex d).2

theorem place_eq (c : Cache) (fs : FileSystem) (d : Digest) : ∃ dir : Location, c.place fs d = dir.child d.hex := by
  refine ⟨(fs.origin (c.path d)).along (Path.splitSlash (c.path d).text.toList).dropLast, ?_⟩
  rw [place, FileSystem.place, FileSystem.splitSlash_eq_concat, FileSystem.Location.along_concat, lastPart_path]
  simp [Location.along, Digest.hex_named]

/-- Files whose names have dots are no entries. -/
theorem isEmpty_of_dots (h : ∀ place content, (place, FileSystem.Node.file content) ∈ fs.nodes →
    ∃ (dir : Location) (name : String), place = dir.child name ∧ '.' ∈ name.toList) : c.IsEmpty fs := by
  refine fun d => Option.eq_none_iff_forall_ne_some.2 fun content hc => ?_
  obtain ⟨dir, name, hp, hn⟩ := h (c.place fs d) content (FileSystem.mem_nodes_of_content? hc)
  obtain ⟨dir', hd⟩ := c.place_eq fs d
  obtain rfl := (Location.child_inj (hd.symm.trans hp)).2
  exact (Digest.not_mem_hex d).1 hn

/-- Different digests have different entries. -/
theorem place_inj {d d' : Digest} (h : c.place fs d = c.place fs d') : d = d' := by
  obtain ⟨dir, hd⟩ := c.place_eq fs d
  obtain ⟨dir', hd'⟩ := c.place_eq fs d'
  rw [hd, hd'] at h
  exact Digest.hex_inj (Location.child_inj h).2

theorem contains_iff {d : Digest} :
    c.contains fs d = true ↔ fs.resolve (c.path d) = .ok (c.place fs d) ∧ (fs.content? (c.place fs d)).isSome :=
  FileSystem.isFile_iff

theorem toOption_readAt (fs : FileSystem) (l : Location) : (fs.readAt l).toOption = fs.content? l := by
  simp only [FileSystem.readAt, FileSystem.content?]
  cases fs.node? l with
  | none => rfl
  | some node => cases node <;> rfl

theorem toOption_mapError {ε ε' α : Type} (f : ε → ε') (r : Except ε α) : (r.mapError f).toOption = r.toOption := by
  cases r <;> rfl

/-- An entry is what is at its place, if it is found there. -/
theorem bytecode?_eq (d : Digest) :
    c.bytecode? fs d = if c.contains fs d then fs.content? (c.place fs d) else none := by
  rw [bytecode?, load, toOption_mapError]
  cases h : fs.resolve (c.path d) with
  | error fault =>
    have hn : c.contains fs d = false := by simp only [contains, FileSystem.isFile, h]
    rw [hn, FileSystem.read, h]
    rfl
  | ok l =>
    obtain rfl := FileSystem.resolve_eq h
    have hr : (fs.read (c.path d)).toOption = fs.content? (c.place fs d) := by
      simp only [FileSystem.read, h, bind, Except.bind, toOption_readAt, place]
    rw [hr]
    split
    · rfl
    · next hn =>
      rw [contains_iff] at hn
      exact Option.not_isSome_iff_eq_none.1 fun hs => hn ⟨h, hs⟩

theorem bytecode?_eq_some {d : Digest} {bytecode : Bytes} :
    c.bytecode? fs d = some bytecode ↔ fs.read (c.path d) = .ok bytecode := by
  rw [bytecode?, load, toOption_mapError]
  cases fs.read (c.path d) <;> simp [Except.toOption]

theorem Sound.bytecode? (h : c.Sound fs) (d : Digest) : c.bytecode? fs d = fs.content? (c.place fs d) := by
  rw [bytecode?_eq]
  split
  · rfl
  · next hn => exact (Option.not_isSome_iff_eq_none.1 fun hs => hn (h d hs)).symm

/-! ## Leaving the entries alone -/

namespace Kept

theorem refl (c : Cache) (fs : FileSystem) : c.Kept fs fs := ⟨fun _ => rfl, fun _ => rfl, fun _ h => h⟩

theorem trans (h : c.Kept fs fs') (h' : c.Kept fs' fs'') : c.Kept fs fs'' where
  place d := (h'.place d).trans (h.place d)
  content d := by rw [← h.content d, ← h.place d, h'.content d]
  contains d hd := h'.contains d (h.contains d hd)

theorem sound (h : c.Kept fs fs') (hs : c.Sound fs) : c.Sound fs' := by
  intro d hd
  rw [h.place, h.content] at hd
  exact h.contains d (hs d hd)

theorem bytecode? (h : c.Kept fs fs') (hs : c.Sound fs) (d : Digest) : c.bytecode? fs' d = c.bytecode? fs d := by
  rw [hs.bytecode?, (h.sound hs).bytecode?, h.place, h.content]

theorem place_of_extends (h : fs.Extends fs') (d : Digest) : c.place fs' d = c.place fs d := h.place (c.path d)

/-- Files that are no entries may be added and changed. -/
theorem of_extends (h : fs.Extends fs') (hc : ∀ d, fs'.content? (c.place fs d) = fs.content? (c.place fs d)) :
    c.Kept fs fs' where
  place := place_of_extends h
  content := hc
  contains d hd := by
    obtain ⟨hr, hs⟩ := contains_iff.1 hd
    rw [contains_iff, place_of_extends h, hc]
    exact ⟨h.resolve hr, hs⟩

/-- Writing a file whose name has a dot, and its directory. -/
theorem writeCreating {p : Path} (hp : '.' ∈ p.lastPart) (content : Bytes) :
    c.Kept fs (fs.writeCreating p content).2 := by
  obtain ⟨he, hs | ⟨⟨dir, hd⟩, hs⟩⟩ := FileSystem.writeCreating_spec fs p content
  · exact .of_extends he fun d => hs _
  · refine .of_extends he fun d => ?_
    rw [hs, if_neg]
    intro h
    obtain ⟨dir', hd'⟩ := c.place_eq fs d
    have hn := (Location.child_inj (hd'.symm.trans (h.trans hd))).2
    exact (Digest.not_mem_hex d).1 (by rwa [hn, String.toList_ofList])

/-- Writing a file that is no entry. -/
theorem write {p : Path} {content : Bytes} (h : fs.write p content = .ok fs') (hp : ∀ d, c.place fs d ≠ fs.place p) :
    c.Kept fs fs' := by
  obtain ⟨he, -, -, hs⟩ := FileSystem.write_spec h
  exact .of_extends he fun d => by rw [hs, if_neg (hp d)]

/-- Removing a file that is no entry. -/
theorem removeFile {p : Path} (h : fs.removeFile p = .ok fs') (hp : ∀ d, c.place fs d ≠ fs.place p) :
    c.Kept fs fs' := by
  obtain ⟨hw, hs, hr⟩ := FileSystem.removeFile_spec h
  have hplace : ∀ d, c.place fs' d = c.place fs d := fun d => by
    simp only [Cache.place, FileSystem.place, FileSystem.origin, hw]
  have hcontent : ∀ d, fs'.content? (c.place fs d) = fs.content? (c.place fs d) := fun d => by rw [hs, if_neg (hp d)]
  refine ⟨hplace, hcontent, fun d hd => ?_⟩
  obtain ⟨h1, h2⟩ := contains_iff.1 hd
  rw [contains_iff, hplace, hcontent]
  exact ⟨hr (c.path d) (hp d) h1, h2⟩

end Kept

/-! ## Storing bytecode -/

/-- Afterwards there is bytecode for a digest, and for others what there was. -/
structure Stored (c : Cache) (fs : FileSystem) (d : Digest) (bytecode : Bytes) (fs' : FileSystem) : Prop where
  place : ∀ d', c.place fs' d' = c.place fs d'
  content : ∀ d', fs'.content? (c.place fs d') = if d' = d then some bytecode else fs.content? (c.place fs d')
  contains : ∀ d', c.contains fs d' = true ∨ d' = d → c.contains fs' d' = true

namespace Stored
variable {d : Digest} {bytecode : Bytes}

theorem sound (h : c.Stored fs d bytecode fs') (hs : c.Sound fs) : c.Sound fs' := by
  intro d' hd
  rw [h.place, h.content] at hd
  split at hd
  · next he => exact h.contains d' (.inr he)
  · exact h.contains d' (.inl (hs d' hd))

theorem bytecode? (h : c.Stored fs d bytecode fs') (hs : c.Sound fs) (d' : Digest) :
    c.bytecode? fs' d' = if d' = d then some bytecode else c.bytecode? fs d' := by
  rw [hs.bytecode?, (h.sound hs).bytecode?, h.place, h.content]

end Stored

/-- Storing either stores, under the path of the digest, or leaves all entries as they were. -/
theorem store_spec (c : Cache) (fs : FileSystem) (d : Digest) (bytecode : Bytes) :
    (∃ fs', c.store fs d bytecode = (.ok (c.path d), fs') ∧ c.Stored fs d bytecode fs') ∨
      ∃ error fs', c.store fs d bytecode = (.error error, fs') ∧ c.Kept fs fs' := by
  have hdir := FileSystem.createDirectories_spec fs c.dir
  simp only [store]
  split
  · next fs' hc =>
    rw [hc] at hdir
    exact .inr ⟨_, _, rfl, .of_extends hdir.1 fun _ => hdir.2 _⟩
  · next fs' hc =>
    rw [hc] at hdir
    obtain ⟨he, hs⟩ := hdir
    split
    · next fs'' hw =>
      obtain ⟨he', hr, -, hc'⟩ := FileSystem.write_spec hw
      have hext := he.trans he'
      rw [he.place] at hr hc'
      have hcontent : ∀ d', fs''.content? (c.place fs d') =
          if d' = d then some bytecode else fs.content? (c.place fs d') := by
        intro d'
        rw [hc', hs]
        by_cases hd : d' = d
        · rw [hd, place, if_pos rfl, if_pos rfl]
        · rw [if_neg hd]
          exact if_neg fun h => hd (place_inj h)
      refine .inl ⟨_, rfl, Kept.place_of_extends hext, hcontent, ?_⟩
      rintro d' (hd | rfl)
      · obtain ⟨hr', hs'⟩ := contains_iff.1 hd
        rw [contains_iff, Kept.place_of_extends hext, hcontent]
        refine ⟨hext.resolve hr', ?_⟩
        split
        · rfl
        · exact hs'
      · rw [contains_iff, Kept.place_of_extends hext, hcontent, if_pos rfl]
        exact ⟨hr, rfl⟩
    · exact .inr ⟨_, _, rfl, .of_extends he fun _ => hs _⟩

end Cache

end ShaderBuild
