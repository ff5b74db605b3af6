import ShaderBuild.CommandLine.Run
import ShaderBuild.Proofs.ManifestText
import ShaderBuild.Proofs.Untouched
/-!
# Output files have paths of their own

All that a build writes is below its output directory, under one to three names (`Output.names`). What is found under
the first name tells how many there are, so no list of names begins with another one, and the names tell which file
it is (`Output.eq_of_names`): the name of a shader has neither dots nor slashes, and hexadecimal digits can be read
back. As the names are the last parts of the path (`parts_below`) and of the place that it leads to (`place_below`),
two files never have the same path, and none is in the way of another (`outputs_never_collide`).
-/

namespace ShaderBuild

/-! ## Going down from a directory -/

namespace Path

/-- A name that leads from a directory to something in it. -/
structure LeadsDown (name : String) : Prop where
  slash : '/' ∉ name.toList
  named : isIdle name.toList = false ∧ name.toList ≠ ['.', '.']

instance (name : String) : Decidable (LeadsDown name) :=
  decidable_of_iff ('/' ∉ name.toList ∧ isIdle name.toList = false ∧ name.toList ≠ ['.', '.'])
    ⟨fun h => ⟨h.1, h.2⟩, fun h => ⟨h.slash, h.named⟩⟩

/-- What is found below a directory under some names, one after the other. -/
def below (dir : Path) (names : List String) : Path := names.foldl (fun p name => p.join ⟨name⟩) dir

theorem parts_join (dir : Path) {name : String} (h : LeadsDown name) :
    (dir.join ⟨name⟩).parts = dir.parts ++ [name.toList] := by
  obtain ⟨habs, front, hjoined, hdir⟩ := splitSlash_join dir h.slash
  have hname : name.toList ≠ [] := by
    intro he
    have hidle := h.named.1
    rw [he] at hidle
    cases hidle
  cases front with
  | nil =>
    -- Only the empty path has no part that stays in front of the name.
    have hsplit : splitSlash dir.text.toList = [[]] := hdir.resolve_left (splitSlash_ne_nil _)
    have hrelative : dir.isAbsolute = false := by
      rw [Bool.eq_false_iff]
      exact fun ha => ((isAbsolute_iff hsplit).1 ha).2 rfl
    simp [parts, hjoined, hsplit, habs, hrelative, hname]
  | cons first others =>
    have hfilter : (others ++ [name.toList]).filter (!isIdle ·) = others.filter (!isIdle ·) ++ [name.toList] := by
      rw [List.filter_append, List.filter_cons_of_pos (by rw [h.named.1]; rfl), List.filter_nil]
    rcases hdir with hd | hd
    · simp only [parts, hjoined, hd, habs, List.cons_append, hfilter, List.append_assoc]
    · simp only [parts, hjoined, hd, habs, List.cons_append, hfilter, List.append_assoc, List.filter_append]
      simp [isIdle]

theorem parts_below (dir : Path) {names : List String} (h : ∀ name ∈ names, LeadsDown name) :
    (dir.below names).parts = dir.parts ++ names.map String.toList := by
  induction names generalizing dir with
  | nil => exact (List.append_nil _).symm
  | cons name names ih =>
    obtain ⟨hname, hnames⟩ := List.forall_mem_cons.1 h
    have hjoined := ih (dir.join ⟨name⟩) hnames
    rw [parts_join dir hname, List.append_assoc] at hjoined
    exact hjoined

theorem place_below (fs : FileSystem) (dir : Path) {names : List String} (h : ∀ name ∈ names, LeadsDown name) :
    (fs.place (dir.below names)).names = (fs.place dir).names ++ names := by
  induction names generalizing dir with
  | nil => exact (List.append_nil _).symm
  | cons name names ih =>
    obtain ⟨hname, hnames⟩ := List.forall_mem_cons.1 h
    have hjoined := ih (dir.join ⟨name⟩) hnames
    rw [fs.place_join dir hname.slash hname.named, Location.child, List.append_assoc] at hjoined
    exact hjoined

end Path

/-! ## Names that can be read back -/

/-- The digits of a number tell which number it is. -/
theorem Settings.hex_inj {m n : Nat} (h : hex m = hex n) : m = n := by
  have hdigits : ∀ m n : Nat, Nat.toDigits 16 m = Nat.toDigits 16 n → m = n := by
    intro m
    induction m using Nat.strongRecOn with
    | ind m ih =>
      intro n hmn
      have hlast : Nat.digitChar (m % 16) = Nat.digitChar (n % 16) → m % 16 = n % 16 := fun hc =>
        Fin.mk.inj (Bytes.digitChar_inj ⟨m % 16, Nat.mod_lt _ (by decide)⟩ ⟨n % 16, Nat.mod_lt _ (by decide)⟩ hc)
      have hsmall : m < 16 ↔ n < 16 := by
        have hm := @Nat.length_toDigits_le_iff 16 m 1 (by decide) (by decide)
        have hn := @Nat.length_toDigits_le_iff 16 n 1 (by decide) (by decide)
        rw [hmn] at hm
        exact hm.symm.trans hn
      rcases Nat.lt_or_ge m 16 with hm | hm
      · have hn := hsmall.1 hm
        rw [Nat.toDigits_of_lt_base hm, Nat.toDigits_of_lt_base hn, List.cons.injEq] at hmn
        rw [Nat.mod_eq_of_lt hm, Nat.mod_eq_of_lt hn] at hlast
        exact hlast hmn.1
      · have hn : 16 ≤ n := by omega
        rw [Nat.toDigits_of_base_le (by decide) hm, Nat.toDigits_of_base_le (by decide) hn] at hmn
        obtain ⟨hfront, hback⟩ := List.append_inj' hmn rfl
        have hdiv := ih (m / 16) (by omega) (n / 16) hfront
        have hmod := hlast (List.cons.inj hback).1
        omega
  exact hdigits m n (String.ofList_injective h)

/-- A file name with an extension. -/
def dotted (stem extension : String) : String := stem ++ "." ++ extension

section Dotted
variable {stem stem' extension extension' : String}

theorem toList_dotted (stem extension : String) :
    (dotted stem extension).toList = stem.toList ++ '.' :: extension.toList := by
  simp [dotted, String.toList_append]

/-- The first dot tells where the extension begins. -/
theorem dotted_inj (h : '.' ∉ stem.toList) (h' : '.' ∉ stem'.toList)
    (he : dotted stem extension = dotted stem' extension') : stem = stem' ∧ extension = extension' := by
  have hlists := congrArg String.toList he
  rw [toList_dotted, toList_dotted] at hlists
  have hstem : ∀ cs ds : List Char, '.' ∉ cs → (cs ++ '.' :: ds).takeWhile (· != '.') = cs := by
    intro cs ds hcs
    rw [List.takeWhile_append_of_pos fun c hc => bne_iff_ne.2 (ne_of_mem_of_not_mem hc hcs)]
    simp
  have hstems := congrArg (List.takeWhile (· != '.')) hlists
  rw [hstem _ _ h, hstem _ _ h'] at hstems
  rw [hstems] at hlists
  have hextensions := (List.cons.inj (List.append_cancel_left hlists)).2
  exact ⟨String.toList_injective hstems, String.toList_injective hextensions⟩

theorem dotted_ne {name : String} (h : '.' ∉ name.toList) : dotted stem extension ≠ name := by
  rintro rfl
  rw [toList_dotted] at h
  exact h (List.mem_append_right _ List.mem_cons_self)

theorem leadsDown_dotted (h : '/' ∉ stem.toList) (he : '/' ∉ extension.toList) (hl : 1 < extension.toList.length) :
    Path.LeadsDown (dotted stem extension) where
  slash := by
    rw [toList_dotted]
    simpa using ⟨h, he⟩
  named := by
    refine Path.named_of_length ?_
    rw [toList_dotted, List.length_append, List.length_cons]
    omega

end Dotted

/-! ## The files that a build writes -/

/-- What the names of the temporary files of a request are made of. -/
def Command.key (r : Request) : Bytes :=
  (Digest.ofBytes (Bytes.ofText r.stage.profile ++ Bytes.ofText r.entryPoint ++ Bytes.ofText r.source)).bytes.take 8

/-- A file that is written below the output directory, by what tells it from the others. -/
inductive Output where
  /-- The object file of a shader. -/
  | object (shader : String)
  /-- The report of a stage. -/
  | report (shader : String) (stage : Stage)
  /-- The bytecode for a digest in the cache of a backend. -/
  | entry (backend : Nat) (digest : Digest)
  /-- The temporary file with the source of a request. -/
  | source (key : Bytes)
  /-- The temporary file that the compiler writes the bytecode for a request to. -/
  | bytecode (key : Bytes)
  deriving DecidableEq

namespace Output

open Settings (cacheName objectExtension)

/-- Where a file is written. -/
def path (s : Settings) : Output → Path
  | object shader => s.objectPath shader
  | report shader stage => CommandLine.reportPath s shader stage
  | entry backend digest => Cache.path ⟨s.cacheDir backend⟩ digest
  | source key => (s.outputDir.join ⟨"tmp"⟩).join ⟨Bytes.hex key ++ ".hlsl"⟩
  | bytecode key => (s.outputDir.join ⟨"tmp"⟩).join ⟨Bytes.hex key ++ ".bin"⟩

/-- The names on the way from the output directory to a file. -/
def names : Output → List String
  | object shader => [dotted shader objectExtension]
  | report shader stage => [dotted shader (dotted stage.name "json")]
  | entry backend digest => [cacheName, Settings.hex backend, digest.hex]
  | source key => ["tmp", dotted (Bytes.hex key) "hlsl"]
  | bytecode key => ["tmp", dotted (Bytes.hex key) "bin"]

/-- A file that belongs to a shader belongs to one of the manifest. -/
def Of (m : Manifest) : Output → Prop
  | object shader => shader ∈ m.entries.map ManifestEntry.name
  | report shader _ => shader ∈ m.entries.map ManifestEntry.name
  | _ => True

instance (m : Manifest) : DecidablePred (Of m)
  | object _ => inferInstanceAs (Decidable (_ ∈ _))
  | report .. => inferInstanceAs (Decidable (_ ∈ _))
  | entry .. | source _ | bytecode _ => inferInstanceAs (Decidable True)

theorem path_eq (s : Settings) (o : Output) : o.path s = s.outputDir.below o.names := by
  have hext : ∀ stem extension : String, dotted stem extension = stem ++ ("." ++ extension) := fun stem extension =>
    String.append_assoc
  cases o with
  | object shader => rfl
  | report shader stage =>
    simp only [path, names, Path.below, List.foldl_cons, List.foldl_nil, CommandLine.reportPath,
      CommandLine.stageName, dotted, String.append_assoc]
    rfl
  | entry backend digest => rfl
  | source key => simp only [path, names, Path.below, List.foldl_cons, List.foldl_nil, hext]; rfl
  | bytecode key => simp only [path, names, Path.below, List.foldl_cons, List.foldl_nil, hext]; rfl

section Names
variable {m : Manifest} (hm : m.WellFormed)
include hm

/-- The names of shaders are identifiers. -/
theorem not_mem_shader {shader : String} (h : shader ∈ m.entries.map ManifestEntry.name) {c : Char}
    (hc : Text.isWordChar c = false) : c ∉ shader.toList := by
  obtain ⟨entry, he, rfl⟩ := List.mem_map.1 h
  intro hmem
  have hword := Written.isWordChar_of_isIdentifier (hm.named entry he).1 hmem
  rw [hc] at hword
  cases hword

theorem leadsDown {o : Output} (ho : o.Of m) : ∀ name ∈ o.names, Path.LeadsDown name := by
  have hslash : ∀ {shader}, shader ∈ m.entries.map ManifestEntry.name → '/' ∉ shader.toList := fun h =>
    not_mem_shader hm h rfl
  cases o with
  | object shader => exact List.forall_mem_singleton.2 (leadsDown_dotted (hslash ho) (by decide) (by decide))
  | report shader stage =>
    have hextension : '/' ∉ (dotted stage.name "json").toList ∧ 1 < (dotted stage.name "json").toList.length := by
      cases stage <;> decide
    exact List.forall_mem_singleton.2 (leadsDown_dotted (hslash ho) hextension.1 hextension.2)
  | entry backend digest =>
    refine List.forall_mem_cons.2 ⟨by decide, List.forall_mem_cons.2 ⟨⟨?_, ?_⟩, List.forall_mem_singleton.2 ⟨?_, ?_⟩⟩⟩
    · exact (Settings.hex_named backend).1
    · exact (Settings.hex_named backend).2
    · exact (Digest.not_mem_hex digest).2
    · exact Digest.hex_named digest
  | source key =>
    have hfile : Path.LeadsDown (dotted (Bytes.hex key) "hlsl") :=
      leadsDown_dotted (Bytes.not_mem_hex key).2 (by decide) (by decide)
    exact List.forall_mem_cons.2 ⟨by decide, List.forall_mem_singleton.2 hfile⟩
  | bytecode key =>
    have hfile : Path.LeadsDown (dotted (Bytes.hex key) "bin") :=
      leadsDown_dotted (Bytes.not_mem_hex key).2 (by decide) (by decide)
    exact List.forall_mem_cons.2 ⟨by decide, List.forall_mem_singleton.2 hfile⟩

/-- The names of a file tell which one it is, and they do not go on as those of another file. -/
theorem eq_of_names {a b : Output} (ha : a.Of m) (hb : b.Of m) (h : a.names <+: b.names) : a = b := by
  have hdot : ∀ {shader}, shader ∈ m.entries.map ManifestEntry.name → '.' ∉ shader.toList := fun h =>
    not_mem_shader hm h rfl
  have hkey := fun key : Bytes => (Bytes.not_mem_hex key).1
  have hfirst : ∀ {x y : String} {xs ys : List String}, x :: xs <+: y :: ys → x = y := fun h =>
    (List.cons_prefix_cons.1 h).1
  have hsecond : ∀ {x x' y y' : String} {xs ys : List String}, x :: x' :: xs <+: y :: y' :: ys → x' = y' := fun h =>
    hfirst (List.cons_prefix_cons.1 h).2
  -- The first name is that of a directory, or it has a dot. Then its extension tells what kind of file it is.
  cases a with
  | object shader =>
    cases b with
    | object => rw [(dotted_inj (hdot ha) (hdot hb) (hfirst h)).1]
    | report _ stage =>
      have hextension := (dotted_inj (hdot ha) (hdot hb) (hfirst h)).2
      exact absurd hextension.symm (dotted_ne (by decide))
    | entry | source | bytecode => exact absurd (hfirst h) (dotted_ne (by decide))
  | report shader stage =>
    cases b with
    | object =>
      have hextension := (dotted_inj (hdot ha) (hdot hb) (hfirst h)).2
      exact absurd hextension (dotted_ne (by decide))
    | report _ stage' =>
      have hstages : ∀ s s' : Stage, dotted s.name "json" = dotted s'.name "json" → s = s' := by
        intro s s'
        cases s <;> cases s' <;> decide
      obtain ⟨rfl, hextension⟩ := dotted_inj (hdot ha) (hdot hb) (hfirst h)
      rw [hstages _ _ hextension]
    | entry | source | bytecode => exact absurd (hfirst h) (dotted_ne (by decide))
  | entry backend digest =>
    cases b with
    | object | report => exact absurd (hfirst h).symm (dotted_ne (by decide))
    | entry =>
      have hdigest := hsecond (List.cons_prefix_cons.1 h).2
      rw [Settings.hex_inj (hsecond h), Digest.hex_inj hdigest]
    | source | bytecode => exact absurd (hfirst h) (by decide)
  | source key =>
    cases b with
    | object | report => exact absurd (hfirst h).symm (dotted_ne (by decide))
    | entry => exact absurd (hfirst h) (by decide)
    | source => rw [Bytes.hex_inj (dotted_inj (hkey _) (hkey _) (hsecond h)).1]
    | bytecode => exact absurd (dotted_inj (hkey _) (hkey _) (hsecond h)).2 (by decide)
  | bytecode key =>
    cases b with
    | object | report => exact absurd (hfirst h).symm (dotted_ne (by decide))
    | entry => exact absurd (hfirst h) (by decide)
    | source => exact absurd (dotted_inj (hkey _) (hkey _) (hsecond h)).2 (by decide)
    | bytecode => rw [Bytes.hex_inj (dotted_inj (hkey _) (hkey _) (hsecond h)).1]

/-- The place of a file tells which one it is, and no file is where another one has a directory. -/
theorem eq_of_place (s : Settings) (fs : FileSystem) {a b : Output} (ha : a.Of m) (hb : b.Of m)
    (h : (fs.place (a.path s)).names <+: (fs.place (b.path s)).names) : a = b := by
  rw [path_eq, path_eq, Path.place_below fs _ (leadsDown hm ha), Path.place_below fs _ (leadsDown hm hb),
    List.prefix_append_right_inj] at h
  exact eq_of_names hm ha hb h

end Names

end Output

namespace Command

theorem take_flatMap_hexByte (bytes : Bytes) (n : Nat) :
    (bytes.flatMap Bytes.hexByte).take (2 * n) = (bytes.take n).flatMap Bytes.hexByte := by
  induction n generalizing bytes with
  | zero => rfl
  | succ n ih =>
    cases bytes with
    | nil => rfl
    | cons b bytes =>
      rw [List.take_succ_cons, List.flatMap_cons, List.flatMap_cons, ← ih bytes]
      rfl

theorem stem_eq (r : Request) : stem r = Bytes.hex (key r) := by
  rw [stem, Digest.hex_toList, Bytes.hex, key, ← take_flatMap_hexByte]

end Command

/-- Files that a build writes do not collide. Below the output directory, the object files of the shaders of a
manifest, the reports of their stages, the cached bytecode of any backends and digests and the temporary files have
paths and places of their own, and none of these files is where another one has a directory. What is cached for one
backend or digest is never in the file of another, and the temporary files of a request go by the first half of its
name's digits. -/
theorem outputs_never_collide {text : String} {m : Manifest} (h : Manifest.parse text = .ok m) (s : Settings) :
    (m.entries.map ManifestEntry.name).Nodup ∧
    (∀ a b : Output, a.Of m → b.Of m → a ≠ b →
      ¬ (a.path s).parts <+: (b.path s).parts ∧
      ∀ fs : FileSystem, ¬ (fs.place (a.path s)).names <+: (fs.place (b.path s)).names) ∧
    (∀ (backend backend' : Nat) (digest digest' : Digest),
      Cache.path ⟨s.cacheDir backend⟩ digest = Cache.path ⟨s.cacheDir backend'⟩ digest' →
        backend = backend' ∧ digest = digest') ∧
    ∀ (o : Options) (r : Request),
      (CommandLine.command o s).inputPath r = (Output.source (Command.key r)).path s ∧
      (CommandLine.command o s).outputPath r = (Output.bytecode (Command.key r)).path s := by
  have hm := Written.wellFormed_of_parse h
  have hparts : ∀ a b : Output, a.Of m → b.Of m → (a.path s).parts <+: (b.path s).parts → a = b := by
    intro a b ha hb hp
    rw [Output.path_eq, Output.path_eq, Path.parts_below _ (Output.leadsDown hm ha),
      Path.parts_below _ (Output.leadsDown hm hb), List.prefix_append_right_inj] at hp
    exact Output.eq_of_names hm ha hb ((List.prefix_map_iff_of_injective fun _ _ => String.toList_injective).1 hp)
  refine ⟨hm.distinct, fun a b ha hb hne => ?_, fun backend backend' digest digest' hp => ?_, fun o r => ?_⟩
  · exact ⟨fun hp => hne (hparts a b ha hb hp), fun fs hp => hne (Output.eq_of_place hm s fs ha hb hp)⟩
  · have hsame := hparts (.entry backend digest) (.entry backend' digest') trivial trivial
      (show (Cache.path _ _).parts <+: (Cache.path _ _).parts by rw [hp])
    exact Output.entry.inj hsame
  · rw [Command.inputPath, Command.outputPath, Command.stem_eq]
    exact ⟨rfl, rfl⟩

def twoShaders : String :=
  "shader Sky \x7b stage vertex \x7b file = a; \x7d \x7d shader Sky_cache \x7b stage pixel \x7b file = b; \x7d \x7d"

theorem parse_twoShaders :
    Manifest.parse twoShaders =
      .ok ⟨[⟨"Sky", ShaderUnit.empty.set .vertex { file := ⟨"a"⟩ }, 1⟩,
        ⟨"Sky_cache", ShaderUnit.empty.set .pixel { file := ⟨"b"⟩ }, 1⟩]⟩ := by
  decide +kernel

/-- The object file of one shader and the report of another. -/
theorem outputs_never_collide_two :
    ∃ m, Manifest.parse twoShaders = .ok m ∧
      ¬ (Output.path {} (.object "Sky")).parts <+: (Output.path {} (.report "Sky_cache" .pixel)).parts := by
  obtain ⟨-, happart, -, -⟩ := outputs_never_collide parse_twoShaders {}
  have hne := happart (.object "Sky") (.report "Sky_cache" .pixel) (by decide) (by decide) (by decide)
  exact ⟨_, parse_twoShaders, hne.1⟩

end ShaderBuild
