import ShaderBuild.Proofs.Cache
import ShaderBuild.Proofs.Directories
/-!
# What storing leaves behind

Storing bytecode creates the directory of the cache, as far as that is possible, and writes an entry there.
`Progress` says what the files can be after bytecode was stored for some digests. Whatever that is, storing
bytecode for another digest ends in the same way as if nothing had been stored (`Progress.store`).
-/

namespace ShaderBuild

namespace FileSystem

variable {fs fs' : FileSystem} {p : Path} {content : Bytes}

theorem Grows.write (h : fs.write p content = .ok fs') : fs.Grows fs' := by
  obtain ⟨he, -, -, hc⟩ := write_spec h
  refine ⟨he, fun l hl => ?_⟩
  rw [hc]
  split
  · rfl
  · exact hl

theorem Extends.isDirectory (h : fs.Extends fs') (hd : fs.isDirectory p = true) : fs'.isDirectory p = true := by
  obtain ⟨-, hr, hn, -⟩ := exists_step_of_isDirectory hd
  rw [FileSystem.isDirectory, h.resolve hr]
  simp only [h.directory _ hn]
  rfl

/-- A name is found in a directory that is there, whatever else is there. -/
theorem locate_join {dir : Path} {name : String} (hp : dir.lastPart ≠ []) (h : '/' ∉ name.toList)
    (hd : fs.isDirectory dir = true) :
    fs.locate (dir.join ⟨name⟩) = (check (dir.join ⟨name⟩)).map fun _ => (fs.place dir, name.toList) := by
  obtain ⟨habs, front, hparts, hdir⟩ := Path.splitSlash_join dir h
  obtain ⟨hcheck, hr, hn, -⟩ := exists_step_of_isDirectory hd
  have hfront : Path.splitSlash dir.text.toList = front := by
    refine hdir.resolve_right fun he => hp ?_
    rw [Path.lastPart, he, List.getLastD_concat]
  rw [resolve_of_check hcheck, hfront, origin, ← habs, ← origin] at hr
  cases hc : check (dir.join ⟨name⟩) with
  | error fault => simp only [locate, hc, bind, Except.bind, Except.map]
  | ok u =>
    rw [fs.locate_of_check hc, Path.lastPart_join dir h, hparts, List.dropLast_concat, hr]
    exact if_pos hn

end FileSystem

namespace Cache

open FileSystem (Grows)

variable {c : Cache} {fs fs' fs'' : FileSystem} {D : Digest → Prop} {d : Digest} {bytecode : Bytes}

/-- Entries for some digests were written, and nothing else. -/
structure Filled (c : Cache) (fs : FileSystem) (D : Digest → Prop) (fs' : FileSystem) : Prop where
  grows : fs.Grows fs'
  node : ∀ l, (∀ d, D d → l ≠ c.place fs d) → fs'.node? l = fs.node? l

/-- What the files can be after bytecode was stored for some digests: the same as before, if there were none,
or those in which the directory of the cache could not be created, or could be, with some entries. -/
inductive Progress (c : Cache) (fs : FileSystem) (D : Digest → Prop) : FileSystem → Prop
  | unchanged : Progress c fs D fs
  | refused {fault fs'} (h : fs.createDirectories c.dir = (.error fault, fs')) : Progress c fs D fs'
  | filled {fs₁ fs'} (h : fs.createDirectories c.dir = (.ok (), fs₁)) (hf : c.Filled fs₁ D fs') :
    Progress c fs D fs'

namespace Filled

theorem refl (c : Cache) (fs : FileSystem) (D : Digest → Prop) : c.Filled fs D fs := ⟨.refl fs, fun _ _ => rfl⟩

theorem mono {D' : Digest → Prop} (h : c.Filled fs D fs') (hd : ∀ d, D d → D' d) : c.Filled fs D' fs' :=
  ⟨h.grows, fun l hl => h.node l fun d hD => hl d (hd d hD)⟩

/-- Another entry. -/
theorem write (h : c.Filled fs D fs') (hw : fs'.write (c.path d) bytecode = .ok fs'') :
    c.Filled fs (fun x => D x ∨ x = d) fs'' := by
  refine ⟨h.grows.trans (.write hw), fun l hl => ?_⟩
  obtain ⟨-, hroot, -, rfl⟩ := FileSystem.write_eq_ok hw
  have hl' : l ≠ fs'.place (c.path d) := by
    rw [h.grows.place]
    exact hl d (.inr rfl)
  rw [FileSystem.node?_put fs' hroot, if_neg hl']
  exact h.node l fun x hx => hl x (.inl hx)

end Filled

theorem store_of_refused {fault : FileFault} (h : fs.createDirectories c.dir = (.error fault, fs')) :
    c.store fs d bytecode = (.error (.cacheWrite c.dir fault), fs') := by
  rw [store, h]

theorem store_of_created (h : fs.createDirectories c.dir = (.ok (), fs')) :
    c.store fs d bytecode = match fs'.write (c.path d) bytecode with
      | .ok fs => (.ok (c.path d), fs)
      | .error fault => (.error (.cacheWrite (c.path d) fault), fs') := by
  cases hw : fs'.write (c.path d) bytecode <;> simp only [store, h, hw]

/-- Storing ends in the same way in files that differ in their contents. -/
theorem store_of_sameTree (c : Cache) (h : fs.SameTree fs') (d : Digest) (bytecode : Bytes) :
    (c.store fs' d bytecode).1 = (c.store fs d bytecode).1 := by
  obtain ⟨hresult, hfiles⟩ := h.createDirectories c.dir
  cases hc : fs.createDirectories c.dir with
  | mk result fs₁ =>
    cases hc' : fs'.createDirectories c.dir with
    | mk result' fs₁' =>
      rw [hc, hc'] at hresult hfiles
      obtain rfl : result' = result := hresult
      cases result' with
      | error fault => rw [store_of_refused hc, store_of_refused hc']
      | ok u =>
        rw [store_of_created hc, store_of_created hc']
        rcases hfiles.write (c.path d) bytecode with ⟨a, a', ha, ha'⟩ | ⟨fault, ha, ha'⟩
        · rw [ha, ha']
        · rw [ha, ha']

/-- What is written to one entry is written, or not, whatever other entries there are. -/
theorem Filled.write_other (h : c.Filled fs D fs') (hp : c.dir.lastPart ≠ []) (hdir : fs.isDirectory c.dir = true)
    (hd : ¬ D d) (bytecode : Bytes) :
    (∃ a a', fs.write (c.path d) bytecode = .ok a ∧ fs'.write (c.path d) bytecode = .ok a') ∨
      ∃ fault, fs.write (c.path d) bytecode = .error fault ∧ fs'.write (c.path d) bytecode = .error fault := by
  have hslash := (Digest.not_mem_hex d).2
  have hlast : (c.path d).lastPart ≠ [] := by
    rw [lastPart_path]
    exact fun he => absurd (Digest.hex_named d).1 (by rw [he]; decide)
  have htarget : fs'.target (c.path d) = fs.target (c.path d) := by
    simp only [FileSystem.target, Path.dropSlashes_of_lastPart hlast]
    rw [path, FileSystem.locate_join hp hslash hdir,
      FileSystem.locate_join hp hslash (h.grows.toExtends.isDirectory hdir), h.grows.place]
  simp only [FileSystem.write, htarget, bind, Except.bind]
  cases ht : fs.target (c.path d) with
  | error fault => exact .inr ⟨fault, rfl, rfl⟩
  | ok l =>
    obtain ⟨dir, hw, hl⟩ := FileSystem.target_eq ht
    obtain rfl : l = c.place fs d := hl.trans hw.place_eq.symm
    have hnode := h.node (c.place fs d) fun x hx he => hd (place_inj he ▸ hx)
    dsimp only
    rw [hnode]
    by_cases hn : fs.node? (c.place fs d) = some .directory
    · exact .inr ⟨_, if_pos hn, if_pos hn⟩
    · exact .inl ⟨_, _, if_neg hn, if_neg hn⟩

namespace Progress

theorem mono {D' : Digest → Prop} (h : c.Progress fs D fs') (hd : ∀ d, D d → D' d) : c.Progress fs D' fs' := by
  cases h with
  | unchanged => exact .unchanged
  | refused h => exact .refused h
  | filled h hf => exact .filled h (hf.mono hd)

theorem grows (h : c.Progress fs D fs') : fs.Grows fs' := by
  have hspec := FileSystem.createDirectories_spec fs c.dir
  cases h with
  | unchanged => exact .refl fs
  | refused h =>
    rw [h] at hspec
    exact .of_content hspec.1 hspec.2
  | filled h hf =>
    rw [h] at hspec
    exact (Grows.of_content hspec.1 hspec.2).trans hf.grows

/-- The files have the contents that they had, apart from the entries. -/
theorem content (h : c.Progress fs D fs') {l : Location} (hl : ∀ d, D d → l ≠ c.place fs d) :
    fs'.content? l = fs.content? l := by
  have hspec := FileSystem.createDirectories_spec fs c.dir
  cases h with
  | unchanged => rfl
  | refused h =>
    rw [h] at hspec
    exact hspec.2 l
  | filled h hf =>
    rw [h] at hspec
    rw [← hspec.2 l, FileSystem.content?, FileSystem.content?, hf.node l]
    intro d hd
    rw [Kept.place_of_extends hspec.1]
    exact hl d hd

section Other
variable (ht : fs.IsTree) (hp : c.dir.lastPart ≠ []) (hg : fs.Grounded c.dir) (hd : ¬ D d)
include ht hg hd

/-- Entries for other digests are found, or not, as before. -/
theorem contains (h : c.Progress fs D fs') : c.contains fs' d = c.contains fs d := by
  refine h.grows.isFile ht ?_ (h.content fun x hx he => hd ?_)
  · exact hg.join _ _ (Digest.not_mem_hex d).2 (Digest.hex_named d)
  · rwa [place_inj he]

include hp

/-- Storing bytecode for another digest ends in the same way as without what was stored before. -/
theorem store (h : c.Progress fs D fs') (bytecode : Bytes) :
    (c.store fs' d bytecode).1 = (c.store fs d bytecode).1 ∧
      c.Progress fs (fun x => D x ∨ x = d) (c.store fs' d bytecode).2 := by
  have hagain := FileSystem.createDirectories_again ht hp hg
  cases h with
  | unchanged =>
    refine ⟨rfl, ?_⟩
    rcases hc : fs.createDirectories c.dir with ⟨_ | _, fs₁⟩
    · rw [store_of_refused hc]
      exact .refused hc
    · rw [store_of_created hc]
      have hf := Filled.refl c fs₁ D
      split
      · next hw => exact .filled hc (hf.write hw)
      · exact .filled hc (hf.mono fun x hx => .inl hx)
  | refused h =>
    rw [h] at hagain
    rw [store_of_refused hagain, store_of_refused h]
    exact ⟨rfl, .refused h⟩
  | @filled fs₁ _ h hf =>
    have hdir := FileSystem.isDirectory_of_createDirectories hp h
    have h' := FileSystem.createDirectories_of_isDirectory hp (hf.grows.toExtends.isDirectory hdir)
    rw [store_of_created h', store_of_created h]
    rcases hf.write_other hp hdir hd bytecode with ⟨a, a', ha, ha'⟩ | ⟨fault, ha, ha'⟩
    · rw [ha, ha']
      exact ⟨rfl, .filled h (hf.write ha')⟩
    · rw [ha, ha']
      exact ⟨rfl, .filled h (hf.mono fun x hx => .inl hx)⟩

end Other

end Progress

end Cache

end ShaderBuild
