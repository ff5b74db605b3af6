import Mathlib.Data.List.Induction
import ShaderBuild.Header
import ShaderBuild.Proofs.Files
/-!
# Object files and headers

The digests of a header follow its tag in pipeline order, each in a block of its own (`record_toBytes`). So a
header can be read off what it is written as, and every content of the right size that begins with the tag is what
some header is written as: reading and writing are inverse to each other (`ofBytes_eq_ok_iff`). All other contents
are refused, and so are paths without a file (`contents_match_headers`).
-/

namespace ShaderBuild

/-! ## Blocks of the same length -/

/-- Each of several blocks of the same length is found in its place. -/
theorem take_drop_flatMap {α β : Type} {f : α → List β} {n : Nat} (hf : ∀ a, (f a).length = n) (before : List α)
    (a : α) (after : List α) : (((before ++ a :: after).flatMap f).drop (n * before.length)).take n = f a := by
  have hl : (before.flatMap f).length = n * before.length := by
    induction before with
    | nil => rfl
    | cons b before ih =>
      rw [List.flatMap_cons, List.length_append, hf, ih, List.length_cons, Nat.mul_succ, Nat.add_comm]
  rw [List.flatMap_append, List.flatMap_cons, List.drop_left' hl, List.take_left' (hf a)]

/-- A list is made up of its blocks, one after the other. -/
theorem flatMap_take_drop {α : Type} (n count : Nat) (as : List α) :
    (List.range count).flatMap (fun i => (as.drop (n * i)).take n) = as.take (n * count) := by
  induction count with
  | zero => rw [List.range_zero, List.flatMap_nil, Nat.mul_zero, List.take_zero]
  | succ count ih => rw [List.range_succ, List.flatMap_append, List.flatMap_singleton, ih, Nat.mul_succ, List.take_add]

/-! ## Stages -/

theorem Stage.all_eq (s : Stage) : all = all.take s.index ++ s :: all.drop (s.index + 1) := by cases s <;> rfl

theorem Stage.length_take_index (s : Stage) : (all.take s.index).length = s.index := by cases s <;> rfl

theorem Stage.map_index_all : all.map index = List.range 5 := rfl

namespace Header

/-! ## Digests that are set -/

/-- A header after some digests were set, one after the other. -/
def setAll (h : Header) (sets : List (Stage × Digest)) : Header := sets.foldl (fun h x => h.set x.1 x.2) h

/-- The digest of a stage is the one that was set last. -/
theorem get_setAll (h : Header) (sets : List (Stage × Digest)) (s : Stage) :
    (h.setAll sets).get s = (sets.reverse.lookup s).getD (h.get s) := by
  induction sets using List.reverseRecOn with
  | nil => rfl
  | append_singleton sets x ih =>
    obtain ⟨t, d⟩ := x
    have hlast : (h.setAll (sets ++ [(t, d)])).get s = if s = t then d else (h.setAll sets).get s := by
      rw [setAll, List.foldl_append]
      exact PerStage.get_set _ t s d
    rw [hlast, List.reverse_append, List.reverse_singleton, List.singleton_append, List.lookup_cons]
    by_cases hs : s = t
    · rw [if_pos hs, beq_iff_eq.2 hs]
      rfl
    · rw [if_neg hs, beq_eq_false_iff_ne.2 hs, ih]

/-! ## Headers are read back -/

theorem length_toBytes (h : Header) : h.toBytes.length = size := by
  simp [toBytes, tag, size, Stage.all, Digest.length_bytes]

theorem tag_prefix_toBytes (h : Header) : tag <+: h.toBytes := List.prefix_append _ _

theorem record_toBytes (h : Header) (s : Stage) : (h.toBytes.drop (4 + 32 * s.index)).take 32 = (h.get s).bytes := by
  have hblock := take_drop_flatMap (f := fun s => (h.get s).bytes) (fun s => (h.get s).length_bytes)
    (Stage.all.take s.index) s (Stage.all.drop (s.index + 1))
  rw [← Stage.all_eq, Stage.length_take_index] at hblock
  rw [toBytes, ← List.drop_drop]
  exact hblock

/-- The content of an object file holds all of its header. -/
theorem ofBytes_toBytes (h : Header) : ofBytes h.toBytes = .ok h := by
  have htag : h.toBytes.take 4 = tag := rfl
  simp only [ofBytes, dif_pos h.length_toBytes, if_pos htag, h.record_toBytes]
  rfl

/-! ## Nothing else is read -/

section Contents
variable {bytes : Bytes}

theorem take_eq_tag_iff : bytes.take 4 = tag ↔ tag <+: bytes := by
  rw [List.prefix_iff_eq_take, eq_comm]
  rfl

/-- A content of the right size is its first four bytes and a record for every stage. -/
theorem eq_records (h : bytes.length = size) :
    bytes = bytes.take 4 ++ Stage.all.flatMap fun s => (bytes.drop (4 + 32 * s.index)).take 32 := by
  have hblocks : (Stage.all.flatMap fun s => ((bytes.drop 4).drop (32 * s.index)).take 32) = bytes.drop 4 := by
    have hall := flatMap_take_drop 32 5 (bytes.drop 4)
    rw [← Stage.map_index_all, List.flatMap_map] at hall
    rw [hall, List.take_of_length_le]
    simp [h, size]
  simp only [List.drop_drop] at hblocks
  rw [hblocks, List.take_append_drop]

/-- What a header is read from is what it is written as. -/
theorem toBytes_of_ofBytes {h : Header} (hb : ofBytes bytes = .ok h) : h.toBytes = bytes := by
  unfold ofBytes at hb
  split at hb
  · next hsize =>
    split at hb
    · next htag =>
      obtain rfl := Except.ok.inj hb
      have hrecords := eq_records hsize
      rw [htag] at hrecords
      simp only [toBytes, get, PerStage.get_ofFn]
      exact hrecords.symm
    · cases hb
  · cases hb

theorem ofBytes_eq_ok_iff {h : Header} : ofBytes bytes = .ok h ↔ bytes = h.toBytes := by
  constructor
  · exact fun hb => (toBytes_of_ofBytes hb).symm
  · rintro rfl
    exact h.ofBytes_toBytes

theorem exists_header_iff : (∃ h, ofBytes bytes = .ok h) ↔ bytes.length = size ∧ tag <+: bytes := by
  constructor
  · rintro ⟨h, hb⟩
    rw [← toBytes_of_ofBytes hb]
    exact ⟨h.length_toBytes, h.tag_prefix_toBytes⟩
  · rintro ⟨hsize, htag⟩
    rw [ofBytes, dif_pos hsize, if_pos (take_eq_tag_iff.2 htag)]
    exact ⟨_, rfl⟩

/-- The size is looked at first, and the tag only if it is right. -/
theorem ofBytes_eq_error_iff {fault : ObjectFault} :
    ofBytes bytes = .error fault ↔
      bytes.length ≠ size ∧ fault = .wrongSize size bytes.length ∨
      bytes.length = size ∧ ¬ tag <+: bytes ∧ fault = .badTag ((bytes.take 4).map UInt8.toNat) := by
  unfold ofBytes
  by_cases hsize : bytes.length = size
  · rw [dif_pos hsize]
    by_cases htag : tag <+: bytes
    · rw [if_pos (take_eq_tag_iff.2 htag)]
      simp [hsize, htag]
    · rw [if_neg (mt take_eq_tag_iff.1 htag)]
      simp [hsize, htag, eq_comm]
  · rw [dif_neg hsize]
    simp [hsize, eq_comm]

end Contents

/-! ## Object files -/

section Files
variable {h : Header} {fs fs' : FileSystem} {p : Path}

theorem writeCreating_of_write (hw : h.write fs p = (.ok (), fs')) :
    fs.writeCreating p h.toBytes = (.ok (), fs') := by
  simp only [write] at hw
  generalize fs.writeCreating p h.toBytes = written at hw ⊢
  obtain ⟨result, files⟩ := written
  obtain ⟨hr, rfl⟩ := Prod.mk.inj hw
  cases result with
  | ok u => rfl
  | error fault => cases hr

/-- An object file that was written is read back, whatever was in its place. -/
theorem read_of_write (hw : h.write fs p = (.ok (), fs')) : read fs' p = .ok h := by
  obtain ⟨hfile, hread⟩ := FileSystem.read_of_writeCreating (writeCreating_of_write hw)
  rw [read, if_pos hfile, hread]
  dsimp only
  rw [ofBytes_toBytes]
  rfl

theorem read_eq_ok_iff : read fs p = .ok h ↔ fs.isFile p = true ∧ fs.read p = .ok h.toBytes := by
  unfold read
  by_cases hfile : fs.isFile p = true
  · rw [if_pos hfile]
    cases hread : fs.read p with
    | error fault => simp
    | ok content =>
      simp only [hfile, true_and, Except.ok.injEq, ← ofBytes_eq_ok_iff]
      cases ofBytes content <;> simp [Except.mapError]
  · simp [hfile]

/-- Why an object file is not read: there is none, it cannot be read, or it does not hold a header. -/
inductive Unread (fs : FileSystem) (p : Path) : Error → Prop
  | missing (file : fs.isFile p = false) : Unread fs p (.fileNotFound p)
  | unreadable {fault : FileFault} (file : fs.isFile p = true) (read : fs.read p = .error fault) :
    Unread fs p (.unreadable fault)
  | invalid {content : Bytes} {fault : ObjectFault} (file : fs.isFile p = true) (read : fs.read p = .ok content)
    (refused : ofBytes content = .error fault) : Unread fs p (.invalidObject fault)

theorem read_eq_error_iff {e : Error} : read fs p = .error e ↔ Unread fs p e := by
  unfold read
  constructor
  · intro he
    split at he
    · next hfile =>
      split at he
      · next content hread =>
        cases hb : ofBytes content with
        | ok h =>
          rw [hb] at he
          cases he
        | error fault =>
          rw [hb] at he
          obtain rfl := Except.error.inj he
          exact .invalid hfile hread hb
      · next fault hread =>
        obtain rfl := Except.error.inj he
        exact .unreadable hfile hread
    · next hfile =>
      obtain rfl := Except.error.inj he
      exact .missing (Bool.eq_false_iff.2 hfile)
  · rintro (hfile | ⟨hfile, hread⟩ | ⟨hfile, hread, hrefused⟩)
    · rw [hfile, if_neg Bool.false_ne_true]
    · rw [if_pos hfile, hread]
    · rw [if_pos hfile, hread]
      dsimp only
      rw [hrefused]
      rfl

end Files

/-- Object files and headers correspond one to one. Whatever digests are set, in whatever order, the last one of
every stage stands in the record of that stage, and the header is read back from what it is written as. The contents
that are read are those of 164 bytes that begin with the tag; every other one is refused for its size or for its tag.
A file is read if it has such a content, and nothing is read otherwise. -/
theorem contents_match_headers :
    (∀ (h : Header) (sets : List (Stage × Digest)), ofBytes (h.setAll sets).toBytes = .ok (h.setAll sets) ∧
      ∀ s : Stage, ((h.setAll sets).toBytes.drop (4 + 32 * s.index)).take 32 =
        ((sets.reverse.lookup s).getD (h.get s)).bytes) ∧
    (∀ bytes : Bytes, ((∃ h, ofBytes bytes = .ok h) ↔ bytes.length = 164 ∧ tag <+: bytes) ∧
      (∀ h, ofBytes bytes = .ok h ↔ bytes = h.toBytes) ∧
      ∀ fault, ofBytes bytes = .error fault ↔
        bytes.length ≠ 164 ∧ fault = .wrongSize 164 bytes.length ∨
        bytes.length = 164 ∧ ¬ tag <+: bytes ∧ fault = .badTag ((bytes.take 4).map UInt8.toNat)) ∧
    ∀ (fs : FileSystem) (p : Path),
      (∀ h, read fs p = .ok h ↔ fs.isFile p = true ∧ fs.read p = .ok h.toBytes) ∧
      ∀ e, read fs p = .error e ↔ Unread fs p e := by
  refine ⟨fun h sets => ⟨ofBytes_toBytes _, fun s => ?_⟩, fun bytes => ?_, fun fs p => ?_⟩
  · rw [record_toBytes, get_setAll]
  · exact ⟨exists_header_iff, fun h => ofBytes_eq_ok_iff, fun fault => ofBytes_eq_error_iff⟩
  · exact ⟨fun h => read_eq_ok_iff, fun e => read_eq_error_iff⟩

example : tag = Bytes.ofText "TSHO" := by decide +kernel

end Header

end ShaderBuild
