import ShaderBuild.Proofs.Builds
import ShaderBuild.Proofs.Numbering
/-!
# Reusing bytecode

What a cache holds after a build that started without entries: for every digest that an attempt ended
with, the bytecode that the first such attempt stored (`Holds`). One attempt keeps this (`Holds.step`), so
it holds after every build, and tells when the backend is run and whose bytecode is found.
-/

namespace ShaderBuild

namespace Engine

variable {σ : Type} {e : Engine σ}

/-- The first attempt that ended with bytecode for a digest. -/
def writer (h : List Attempt) (d : Digest) : Option Attempt := h.find? fun a => a.Compiled d

theorem writer_concat (h : List Attempt) (a : Attempt) (d : Digest) :
    writer (h ++ [a]) d = (writer h d).or (if a.Compiled d then some a else none) := by
  rw [writer, writer, List.find?_append, List.find?_singleton]
  simp only [decide_eq_true_eq]

theorem isSome_writer {h : List Attempt} {d : Digest} : (writer h d).isSome ↔ ∃ a ∈ h, a.Compiled d := by
  simp [writer]

theorem writer_eq_some {h : List Attempt} {a : Attempt} {d : Digest} (hw : writer h d = some a) :
    a ∈ h ∧ a.Compiled d :=
  ⟨List.mem_of_find?_eq_some hw, by simpa using List.find?_some hw⟩

variable (e) in
/-- This attempt stored this bytecode for a digest. -/
def Wrote (a : Attempt) (d : Digest) (bytecode : Bytes) : Prop :=
  ∃ f, e.flattened a = .ok f ∧ a.digestOf f.text = d ∧ e.Yields (a.request f.text) bytecode

variable (e) in
/-- A cache has what the first attempts for its digests stored, and nothing else. -/
structure Holds (h : List Attempt) (fs : FileSystem) : Prop where
  sound : e.cache.Sound fs
  entry : ∀ d, (writer h d = none ∧ e.cache.bytecode? fs d = none) ∨
    ∃ a bytecode, writer h d = some a ∧ e.Wrote a d bytecode ∧ e.cache.bytecode? fs d = some bytecode

namespace Holds
variable {h : List Attempt} {fs fs' : FileSystem}

theorem of_isEmpty (h0 : e.cache.IsEmpty fs) : e.Holds [] fs :=
  ⟨h0.sound, fun d => .inl ⟨rfl, by rw [h0.sound.bytecode?, h0 d]⟩⟩

theorem kept (hh : e.Holds h fs) (hk : e.cache.Kept fs fs') : e.Holds h fs' :=
  ⟨hk.sound hh.sound, fun d => by rw [hk.bytecode? hh.sound d]; exact hh.entry d⟩

/-- There is an entry for exactly those digests that some attempt ended with. -/
theorem isSome_bytecode? (hh : e.Holds h fs) (d : Digest) :
    (e.cache.bytecode? fs d).isSome ↔ ∃ a ∈ h, a.Compiled d := by
  rw [← isSome_writer]
  rcases hh.entry d with ⟨hw, he⟩ | ⟨a, bytecode, hw, -, he⟩ <;> simp [hw, he]

theorem contains_iff (hh : e.Holds h fs) (d : Digest) :
    e.cache.contains fs d = true ↔ ∃ a ∈ h, a.Compiled d := by
  rw [← hh.isSome_bytecode?, hh.sound.bytecode?]
  exact ⟨fun hd => (Cache.contains_iff.1 hd).2, hh.sound d⟩

theorem not_compiled (hh : e.Holds h fs) {d : Digest} (hd : e.cache.contains fs d = false) :
    ¬ ∃ a ∈ h, a.Compiled d := by
  rw [← hh.contains_iff, hd]
  exact Bool.false_ne_true

/-- An attempt that ends without bytecode, or with some that was there, adds no writer. -/
theorem writer_same (hh : e.Holds h fs) {a : Attempt} (ha : ∀ d, a.Compiled d → e.cache.contains fs d = true)
    (d : Digest) : writer (h ++ [a]) d = writer h d := by
  rw [writer_concat]
  split
  · next hc =>
    obtain ⟨b, hb⟩ := Option.isSome_iff_exists.1 (isSome_writer.2 ((hh.contains_iff d).1 (ha d hc)))
    rw [hb, Option.some_or]
  · rw [Option.or_none]

/-- One attempt keeps the invariant. -/
theorem step {a : Attempt} (hh : e.Holds h a.before) (hw : e.Went a) : e.Holds (h ++ [a]) a.after := by
  cases hw with
  | notFlattened flat asked outcome same =>
    rw [same]
    refine ⟨hh.sound, fun d => ?_⟩
    rw [hh.writer_same fun d hd => absurd hd (Attempt.not_compiled_of_error outcome d)]
    exact hh.entry d
  | @found f flat there asked outcome same =>
    rw [same]
    refine ⟨hh.sound, fun d => ?_⟩
    -- The attempt is compiled too, but for this digest there is an earlier one.
    have hc : ∀ d, a.Compiled d → e.cache.contains a.before d = true := by
      intro d hd
      obtain rfl : a.digestOf f.text = d := (Attempt.compiled_iff_of_ok outcome d).1 hd
      exact there
    rw [hh.writer_same hc]
    exact hh.entry d
  | refused flat missing asked outcome kept =>
    refine ⟨kept.sound hh.sound, fun d => ?_⟩
    rw [hh.writer_same fun d hd => absurd hd (Attempt.not_compiled_of_error outcome d), kept.bytecode? hh.sound]
    exact hh.entry d
  | @stored f bytecode files flat missing asked outcome yields kept stored =>
    have hs := kept.sound hh.sound
    refine ⟨stored.sound hs, fun d => ?_⟩
    rw [stored.bytecode? hs, kept.bytecode? hh.sound, writer_concat]
    by_cases hd : d = a.digestOf f.text
    · -- nobody has written this entry before
      subst hd
      have hn : writer h (a.digestOf f.text) = none := by
        rw [← Option.not_isSome_iff_eq_none, isSome_writer]
        exact hh.not_compiled missing
      refine .inr ⟨a, bytecode, ?_, ⟨f, flat, rfl, yields⟩, if_pos rfl⟩
      rw [hn, if_pos ((Attempt.compiled_iff_of_ok outcome _).2 rfl)]
      rfl
    · have hc : ¬ a.Compiled d := fun hc => hd ((Attempt.compiled_iff_of_ok outcome d).1 hc).symm
      rw [if_neg hd, if_neg hc, Option.or_none]
      exact hh.entry d

end Holds

/-- After every build the cache has what its first attempts stored. -/
theorem Trace.holds (hb : e.backend.Keeps e.cache) {s t : Session (σ × List Request)} {h : List Attempt}
    (h0 : e.cache.IsEmpty s.files) (ht : Trace e s h t) : e.Holds h t.files := by
  induction ht with
  | start => exact .of_isEmpty h0
  | kept _ _ hk ih => exact ih.kept hk
  | @tried h t stage source _ ih =>
    rw [← before_attempt e stage source t] at ih
    rw [← after_attempt e stage source t]
    exact ih.step (attempt_went hb stage source t).1

/-- The record is what the attempts asked, one after the other. -/
theorem Trace.record (hb : e.backend.Keeps e.cache) {s t : Session (σ × List Request)} {h : List Attempt}
    (ht : Trace e s h t) : t.backend.2 = s.backend.2 ++ h.flatMap Attempt.asked := by
  induction ht with
  | start => simp
  | kept _ _ _ ih => exact ih
  | @tried h t stage source _ ih =>
    rw [(attempt_went hb stage source t).2, ih, List.flatMap_append, List.flatMap_singleton, List.append_assoc]

/-- Every attempt started from a cache that held what the attempts before it stored. -/
theorem Trace.went (hb : e.backend.Keeps e.cache) {s t : Session (σ × List Request)} {h pre post : List Attempt}
    {a : Attempt} (h0 : e.cache.IsEmpty s.files) (ht : Trace e s h t) (hs : h = pre ++ a :: post) :
    e.Went a ∧ e.Holds pre a.before := by
  obtain ⟨stage, source, u, hu, rfl⟩ := ht.attempted pre a post hs
  exact ⟨(attempt_went hb stage source u).1, hu.holds hb h0⟩

variable (e) in
/-- The digests of some attempts tell apart what was hashed for them. -/
def Separates (h : List Attempt) : Prop :=
  ∀ a ∈ h, ∀ b ∈ h, ∀ f f', e.flattened a = .ok f → e.flattened b = .ok f' →
    a.digestOf f.text = b.digestOf f'.text → a.hashed f.text = b.hashed f'.text

/-! ## A backend that repeats what it is asked -/

/-- The answer that repeats a request. -/
def echoed (r : Request) : Except String Bytes :=
  .ok (Bytes.ofText (r.stage.profile ++ ":" ++ r.entryPoint ++ ":" ++ r.source))

/-- An engine whose backend repeats what it is asked. -/
def echo : Engine Unit where
  settings := { sourceDir := ⟨"src"⟩, outputDir := ⟨"bin"⟩ }
  backend := ⟨95, fun r s => (echoed r, s)⟩

theorem echo_keeps : echo.backend.Keeps echo.cache := fun _ _ => .refl _ _

/-- A stage source of one line. -/
def echoSource : StageSource := { file := ⟨"a.hlsl"⟩, entryPoint := "main" }

def echoPlace : Location := ⟨["src", "a.hlsl"]⟩

/-- A session with this source and an empty cache. -/
def echoStart : Session (Unit × List Request) where
  files := { nodes := [(⟨["src"]⟩, .directory), (echoPlace, .file (Bytes.ofText "x\n")), (⟨["bin"]⟩, .directory),
    (⟨["bin", "cache"]⟩, .directory), (⟨["bin", "cache", "5f"]⟩, .directory)] }
  backend := ((), [])

theorem echo_isEmpty : echo.cache.IsEmpty echoStart.files := by
  refine Cache.isEmpty_of_dots fun place content h => ?_
  simp only [echoStart, List.mem_cons, List.not_mem_nil, or_false, Prod.mk.injEq, reduceCtorEq, and_false,
    false_or] at h
  exact ⟨⟨["src"]⟩, "a.hlsl", h.1, by decide⟩

/-- The digest of the source, computed once. -/
def echoDigest : Digest where
  bytes := [0xb6, 0x1c, 0x79, 0x18, 0x04, 0x34, 0x75, 0xe9, 0xee, 0xff, 0x77, 0x88, 0x6b, 0xe4, 0xe1, 0x79, 0xd0,
    0xfd, 0x6a, 0x8b, 0xd4, 0x1d, 0xd4, 0x53, 0x4b, 0xb6, 0xac, 0x71, 0x1e, 0x89, 0x7d, 0xf1]
  length_bytes := rfl

theorem ofSource_echo : Digest.ofSource "main" "x\n" = echoDigest := by decide +kernel

/-- The files after the vertex stage was compiled. -/
def echoStored : FileSystem := echoStart.files.put
  ⟨["bin", "cache", "5f", "b61c7918043475e9eeff77886be4e179d0fd6a8bd41dd4534bb6ac711e897df1"]⟩
  (.file (Bytes.ofText "vs_5_0:main:x\n"))

theorem eq_ok_of_toOption {ε α : Type} {r : Except ε α} {a : α} (h : r.toOption = some a) : r = .ok a := by
  cases r with
  | error => cases h
  | ok b => exact congrArg _ (Option.some.inj h)

theorem linesOf_echo : echo.preprocessor.linesOf "x\n" = [⟨['x'], ['\n']⟩] := by cbv

theorem flatten_echo {fs : FileSystem} {source : StageSource} (hm : source.macros = [])
    (hf : fs.isFile (echo.settings.sourceDir.join source.file) = true)
    (ho : (Preprocessor.openFile fs [] (echo.settings.sourceDir.join source.file)).toOption = some (echoPlace, "x\n")) :
    echo.flatten fs source = ⟨.ok ⟨"x\n", [echoPlace]⟩, []⟩ := by
  rw [flatten, if_pos hf, Preprocessor.processFile, eq_ok_of_toOption ho, hm]
  dsimp only
  have hact : ∀ s : Preprocessor.State, Preprocessor.act echoPlace.path 1 .root s ⟨['x'], ['\n']⟩ =
      .proceed .root (s.write ⟨['x'], ['\n']⟩) := fun _ => rfl
  rw [linesOf_echo, Preprocessor.run_proceed _ _ _ _ (hact _), Preprocessor.run]
  rfl

theorem flatten_echoStart : echo.flatten echoStart.files echoSource = ⟨.ok ⟨"x\n", [echoPlace]⟩, []⟩ :=
  flatten_echo rfl (by decide) (by decide)

/-- The session after that. -/
def echoSession : Session (Unit × List Request) := ⟨echoStored, ((), [⟨"x\n", "main", .vertex⟩]), []⟩

theorem flatten_echoSession : echo.flatten echoSession.files echoSource = ⟨.ok ⟨"x\n", [echoPlace]⟩, []⟩ :=
  flatten_echo rfl (by decide) (by decide)

/-- The vertex stage is compiled. -/
def echoFirst : Attempt := ⟨.vertex, echoSource, echoStart.files, [⟨"x\n", "main", .vertex⟩],
  .ok ⟨echoDigest, false, echo.cache.path echoDigest, [echoPlace]⟩, echoStored⟩

/-- Another stage with the same source is tried after it. -/
def echoAgain (stage : Stage) : Attempt := ⟨stage, echoSource, echoSession.files, [],
  .ok ⟨echoDigest, true, echo.cache.path echoDigest, [echoPlace]⟩, echoSession.files⟩

theorem attempt_echoFirst : echo.attempt .vertex echoSource echoStart = (echoFirst, echoSession) := by
  have hs : echo.cache.store echoStart.files echoDigest (Bytes.ofText "vs_5_0:main:x\n") =
      (.ok (echo.cache.path echoDigest), echoStored) :=
    Prod.ext (eq_ok_of_toOption (by decide +kernel)) (by decide +kernel)
  exact attempt_of_missing flatten_echoStart ofSource_echo (by decide) rfl hs

theorem attempt_echoAgain (stage : Stage) :
    echo.attempt stage echoSource echoSession = (echoAgain stage, echoSession) :=
  attempt_of_found flatten_echoSession ofSource_echo (by decide)

theorem echo_builds (stage : Stage) : echo.Builds echoStart [echoFirst, echoAgain stage] echoSession := by
  have h1 := Builds.start.stage (e := echo) (s := echoStart) .vertex echoSource
  rw [← session_attempt, attempt_echoFirst] at h1
  have h2 := h1.stage stage echoSource
  rwa [← session_attempt, attempt_echoAgain] at h2

theorem flattened_echoAgain (stage : Stage) : echo.flattened (echoAgain stage) = .ok ⟨"x\n", [echoPlace]⟩ :=
  congrArg Logged.result flatten_echoSession

/-- Both attempts were made for the same source. -/
theorem echo_attempts {stage : Stage} {a : Attempt} {f : Flattened} (ha : a ∈ [echoFirst, echoAgain stage])
    (hf : echo.flattened a = .ok f) :
    a.source = echoSource ∧ f.text = "x\n" ∧ (a.stage = .vertex ∨ a.stage = stage) := by
  simp only [List.mem_cons, List.not_mem_nil, or_false] at ha
  rcases ha with rfl | rfl
  · obtain rfl : _ = f := Except.ok.inj ((congrArg Logged.result flatten_echoStart).symm.trans hf)
    exact ⟨rfl, rfl, .inl rfl⟩
  · obtain rfl : _ = f := Except.ok.inj ((flattened_echoAgain stage).symm.trans hf)
    exact ⟨rfl, rfl, .inr rfl⟩

theorem echo_separates (stage : Stage) : echo.Separates [echoFirst, echoAgain stage] := by
  intro a ha b hb f f' hf hf' _
  obtain ⟨h1, h2, -⟩ := echo_attempts ha hf
  obtain ⟨h1', h2', -⟩ := echo_attempts hb hf'
  rw [Attempt.hashed, Attempt.hashed, h1, h1', h2, h2']

/-! ## When the backend runs -/

variable (e) in
/-- What an attempt does after some others: the backend is asked unless one of these ended with bytecode
for the digest, and only then there is no cache hit. Without bytecode nothing is stored. -/
def RunsOnce (earlier : List Attempt) (a : Attempt) : Prop :=
  match e.flattened a with
  | .error error => a.asked = [] ∧ a.outcome = .error error ∧ a.after = a.before
  | .ok f =>
    (a.asked = if ∃ b ∈ earlier, b.Compiled (a.digestOf f.text) then [] else [a.request f.text]) ∧
      match a.outcome with
      | .ok c =>
        c.digest = a.digestOf f.text ∧ c.cachePath = e.cache.path c.digest ∧ (c.cacheHit = true ↔ a.asked = [])
      | .error _ => a.asked ≠ [] ∧ ∀ d, e.cache.bytecode? a.after d = e.cache.bytecode? a.before d

theorem Went.runsOnce {earlier : List Attempt} {a : Attempt} (hw : e.Went a) (hh : e.Holds earlier a.before) :
    e.RunsOnce earlier a := by
  unfold RunsOnce
  cases hw with
  | notFlattened flat asked outcome same =>
    rw [flat]
    exact ⟨asked, outcome, same⟩
  | @found f flat there asked outcome same =>
    have hx : ∃ b ∈ earlier, b.Compiled (a.digestOf f.text) := (hh.contains_iff _).1 there
    rw [flat, outcome]
    dsimp only
    refine ⟨?_, rfl, rfl, fun _ => asked, fun _ => rfl⟩
    rw [if_pos hx, asked]
  | @refused f error flat missing asked outcome kept =>
    have hn := hh.not_compiled missing
    rw [flat, outcome]
    dsimp only
    refine ⟨by rw [if_neg hn, asked], ?_, kept.bytecode? hh.sound⟩
    rw [asked]
    exact List.cons_ne_nil _ _
  | @stored f bytecode files flat missing asked outcome yields kept stored =>
    have hn := hh.not_compiled missing
    rw [flat, outcome]
    dsimp only
    refine ⟨by rw [if_neg hn, asked], rfl, rfl, fun h => absurd h Bool.false_ne_true, fun h => ?_⟩
    rw [asked] at h
    cases h

theorem Went.sound {a : Attempt} (hw : e.Went a) (hs : e.cache.Sound a.before) : e.cache.Sound a.after := by
  cases hw with
  | notFlattened flat asked outcome same =>
    rw [same]
    exact hs
  | found flat there asked outcome same =>
    rw [same]
    exact hs
  | refused flat missing asked outcome kept => exact kept.sound hs
  | stored flat missing asked outcome yields kept stored => exact stored.sound (kept.sound hs)

/-- An attempt replaces no entry. -/
theorem Went.bytecode?_kept {a : Attempt} (hw : e.Went a) (hs : e.cache.Sound a.before) {d : Digest}
    {bytecode : Bytes} (hd : e.cache.bytecode? a.before d = some bytecode) : e.cache.bytecode? a.after d = some bytecode := by
  cases hw with
  | notFlattened flat asked outcome same =>
    rw [same]
    exact hd
  | found flat there asked outcome same =>
    rw [same]
    exact hd
  | refused flat missing asked outcome kept => exact (kept.bytecode? hs d).trans hd
  | @stored f new files flat missing asked outcome yields kept stored =>
    have hne : d ≠ a.digestOf f.text := by
      rintro rfl
      rw [Cache.bytecode?_eq, missing, if_neg Bool.false_ne_true] at hd
      cases hd
    rw [stored.bytecode? (kept.sound hs), if_neg hne, kept.bytecode? hs]
    exact hd

/-- No later step replaces an entry. -/
theorem Trace.bytecode?_kept (hb : e.backend.Keeps e.cache) {s t u : Session (σ × List Request)} {h h' : List Attempt}
    (h0 : e.cache.IsEmpty s.files) (ht : Trace e s h t) (hu : Trace e t h' u) {d : Digest} {bytecode : Bytes}
    (hd : e.cache.bytecode? t.files d = some bytecode) :
    e.cache.Sound u.files ∧ e.cache.bytecode? u.files d = some bytecode := by
  induction hu with
  | start => exact ⟨(ht.holds hb h0).sound, hd⟩
  | kept _ _ hk ih => exact ⟨hk.sound ih.1, by rw [hk.bytecode? ih.1]; exact ih.2⟩
  | @tried h u stage source _ ih =>
    have hw := (attempt_went hb stage source u).1
    rw [← before_attempt e stage source u] at ih
    rw [← after_attempt e stage source u]
    exact ⟨hw.sound ih.1, hw.bytecode?_kept ih.1 ih.2⟩

/-- The backend runs once per digest. In every build that starts from an empty cache, with any changes to
files outside it, each attempt asks the backend if and only if none before it ended with bytecode for its
digest, there is a cache hit if and only if it does not ask, failed attempts store nothing, and no later
build changes an entry. A shader's report tells the outcomes of its attempts. -/
theorem backend_runs_once_per_digest (hb : e.backend.Keeps e.cache) {s t : Session (σ × List Request)}
    {h : List Attempt} (h0 : e.cache.IsEmpty s.files) (hr : e.Builds s h t) :
    (∀ pre a post, h = pre ++ a :: post → e.RunsOnce pre a) ∧
      t.backend.2 = s.backend.2 ++ h.flatMap Attempt.asked ∧
      (∀ d, (e.cache.bytecode? t.files d).isSome ↔ ∃ a ∈ h, a.Compiled d) ∧
      (∀ h' u, e.Builds t h' u → ∀ d bytecode,
        e.cache.bytecode? t.files d = some bytecode → e.cache.bytecode? u.files d = some bytecode) ∧
      ∀ name unit report, (e.recorded.compileShader name unit t).1 = .ok report →
        report.outcomes = .ofFn (reportedIn (e.attempts name unit Stage.all t).1) := by
  have ht := hr.trace
  refine ⟨fun pre a post hs => ?_, ht.record hb, (ht.holds hb h0).isSome_bytecode?, fun h' u hu d bytecode hd => ?_,
    fun name unit report => outcomes_compileShader⟩
  · obtain ⟨hw, hh⟩ := ht.went hb h0 hs
    exact hw.runsOnce hh
  · exact (ht.bytecode?_kept hb h0 hu.trace hd).2

/-- Of two stages with the same source the first is compiled, and the backend runs once. -/
theorem backend_runs_once_for_two_stages :
    let unit : ShaderUnit := ⟨echoSource, {}, {}, {}, echoSource⟩
    let t := (echo.recorded.compileShader "s" unit echoStart).2
    let h := [echoFirst, echoAgain .pixel]
    (echo.backend.Keeps echo.cache ∧ echo.cache.IsEmpty echoStart.files ∧ echo.Builds echoStart h t) ∧
      (∀ pre a post, h = pre ++ a :: post → echo.RunsOnce pre a) ∧ t.backend.2 = [⟨"x\n", "main", .vertex⟩] := by
  intro unit t h
  have ha : (echo.attempts "s" unit Stage.all echoStart).1 = h := by
    have hv : (unit.get .vertex).isAbsent = false := by decide
    have hh : (unit.get .hull).isAbsent = true := by decide
    have hd : (unit.get .domain).isAbsent = true := by decide
    have hg : (unit.get .geometry).isAbsent = true := by decide
    have hp : (unit.get .pixel).isAbsent = false := by decide
    have h1 : echo.attempt .vertex (unit.get .vertex) echoStart = (echoFirst, echoSession) := attempt_echoFirst
    have h2 : echo.attempt .pixel (unit.get .pixel) echoSession = (echoAgain .pixel, echoSession) :=
      attempt_echoAgain .pixel
    have hlog : echoSession.note (echoFirst.records "s") = echoSession := echoSession.note_nil
    simp only [attempts, Stage.all, hv, hh, hd, hg, hp, h1, hlog, h2, h, Bool.false_eq_true, if_true, if_false]
  have hr : echo.Builds echoStart h t := by
    have hr := Builds.start.shader (e := echo) (s := echoStart) "s" unit
    rwa [List.nil_append, ha] at hr
  obtain ⟨h1, h2, -⟩ := backend_runs_once_per_digest echo_keeps echo_isEmpty hr
  exact ⟨⟨echo_keeps, echo_isEmpty, hr⟩, h1, h2⟩

/-! ## Whose bytecode is found -/

variable (e) in
/-- Whenever there is bytecode, it is what the backend answers to the request itself. -/
def Transparent (answer : Request → Except String Bytes) (h : List Attempt) : Prop :=
  ∀ a ∈ h, ∀ f c, e.flattened a = .ok f → a.outcome = .ok c →
    ∃ bytecode, a.after.read c.cachePath = .ok bytecode ∧ answer (a.request f.text) = .ok bytecode

variable (e) in
/-- Attempts that ended with bytecode and had the same bytes hashed made requests with the same answer. -/
def Agrees (answer : Request → Except String Bytes) (h : List Attempt) : Prop :=
  ∀ a ∈ h, ∀ b ∈ h, ∀ f f' c c', e.flattened a = .ok f → e.flattened b = .ok f' → a.outcome = .ok c →
    b.outcome = .ok c' → a.hashed f.text = b.hashed f'.text →
    answer (a.request f.text) = answer (b.request f'.text)

theorem writer_append_of_some {h : List Attempt} {a : Attempt} {d : Digest} (hw : writer h d = some a)
    (h' : List Attempt) : writer (h ++ h') d = some a := by
  rw [writer] at hw
  rw [writer, List.find?_append, hw, Option.some_or]

theorem Went.digest_eq {a : Attempt} (hw : e.Went a) {f : Flattened} {c : CompiledStage} (hf : e.flattened a = .ok f)
    (hc : a.outcome = .ok c) : c.digest = a.digestOf f.text ∧ c.cachePath = e.cache.path c.digest := by
  cases hw with
  | notFlattened flat asked outcome same => cases hf.symm.trans flat
  | found flat there asked outcome same =>
    obtain rfl := Except.ok.inj (hf.symm.trans flat)
    obtain rfl := Except.ok.inj (hc.symm.trans outcome)
    dsimp only
    exact ⟨rfl, rfl⟩
  | refused flat missing asked outcome kept => cases hc.symm.trans outcome
  | stored flat missing asked outcome yields kept stored =>
    obtain rfl := Except.ok.inj (hf.symm.trans flat)
    obtain rfl := Except.ok.inj (hc.symm.trans outcome)
    dsimp only
    exact ⟨rfl, rfl⟩

/-- What is found under the path of an attempt is what the backend answered to the first attempt with its
digest. -/
theorem Trace.found {answer : Request → Except String Bytes} (hb : e.backend.Keeps e.cache)
    (ha : ∀ r s, (e.backend.compile r s).1 = answer r) {s t : Session (σ × List Request)} {h : List Attempt}
    (h0 : e.cache.IsEmpty s.files) (ht : Trace e s h t) {a : Attempt} {f : Flattened} {c : CompiledStage}
    (hm : a ∈ h) (hf : e.flattened a = .ok f) (hc : a.outcome = .ok c) :
    ∃ b f' bytecode, writer h (a.digestOf f.text) = some b ∧ e.flattened b = .ok f' ∧
      b.digestOf f'.text = a.digestOf f.text ∧ a.after.read c.cachePath = .ok bytecode ∧
      answer (b.request f'.text) = .ok bytecode := by
  obtain ⟨pre, post, rfl⟩ := List.append_of_mem hm
  obtain ⟨hw, hh⟩ := ht.went hb h0 rfl
  obtain ⟨hd, hp⟩ := hw.digest_eq hf hc
  have hcompiled : ∃ b ∈ pre ++ [a], b.Compiled (a.digestOf f.text) :=
    ⟨a, List.mem_append_right _ List.mem_cons_self, c, hc, hd⟩
  rcases (hh.step hw).entry (a.digestOf f.text) with ⟨hn, -⟩ | ⟨b, bytecode, hb, ⟨f', hf', hd', u, hu⟩, he⟩
  · rw [← isSome_writer, hn] at hcompiled
    cases hcompiled
  · refine ⟨b, f', bytecode, ?_, hf', hd', ?_, (ha _ u).symm.trans hu⟩
    · rw [List.append_cons]
      exact writer_append_of_some hb post
    · rw [hp, hd]
      exact Cache.bytecode?_eq_some.1 he

/-- A cache is transparent exactly as far as the backend gives one answer to all requests that are hashed
alike. What is hashed is the entry point followed by the text: neither the stage, nor where the one ends and
the other begins. In every build from an empty cache there is bytecode under the path that an attempt ended
with, namely the answer to some attempt with the same bytes hashed, and it is always the answer to the
attempt's own request if and only if such attempts have the same answer. -/
theorem transparent_iff_agrees {answer : Request → Except String Bytes} (hb : e.backend.Keeps e.cache)
    (ha : ∀ r s, (e.backend.compile r s).1 = answer r) {s t : Session (σ × List Request)} {h : List Attempt}
    (h0 : e.cache.IsEmpty s.files) (hr : e.Builds s h t) (hs : e.Separates h) :
    (∀ a ∈ h, ∀ f c, e.flattened a = .ok f → a.outcome = .ok c →
      ∃ b ∈ h, ∃ f' bytecode, e.flattened b = .ok f' ∧ b.hashed f'.text = a.hashed f.text ∧
        a.after.read c.cachePath = .ok bytecode ∧ answer (b.request f'.text) = .ok bytecode) ∧
      (e.Transparent answer h ↔ e.Agrees answer h) := by
  have ht := hr.trace
  refine ⟨fun a hm f c hf hc => ?_, fun htr a hma b hmb f f' c c' hf hf' hc hc' hh => ?_,
    fun hag a hm f c hf hc => ?_⟩
  · obtain ⟨b, f', bytecode, hw, hf', hd, hread, hans⟩ := ht.found hb ha h0 hm hf hc
    have hmb := (writer_eq_some hw).1
    exact ⟨b, hmb, f', bytecode, hf', hs b hmb a hm f' f hf' hf hd, hread, hans⟩
  · -- The same bytes have the same digest, so both found what its first attempt stored.
    have hd : a.digestOf f.text = b.digestOf f'.text := congrArg Digest.ofBytes hh
    obtain ⟨w, g, bytecode, hw, hg, -, hread, hans⟩ := ht.found hb ha h0 hma hf hc
    obtain ⟨w', g', bytecode', hw', hg', -, hread', hans'⟩ := ht.found hb ha h0 hmb hf' hc'
    obtain rfl : w = w' := by
      rw [← hd, hw] at hw'
      exact Option.some.inj hw'
    obtain rfl : g = g' := Except.ok.inj (hg.symm.trans hg')
    obtain ⟨own, hread1, hans1⟩ := htr a hma f c hf hc
    obtain ⟨own', hread1', hans1'⟩ := htr b hmb f' c' hf' hc'
    obtain rfl : own = bytecode := Except.ok.inj (hread1.symm.trans hread)
    obtain rfl : own' = bytecode' := Except.ok.inj (hread1'.symm.trans hread')
    rw [hans1, hans1', ← hans, ← hans']
  · -- The writer of the entry ended with bytecode too, so its answer agrees.
    obtain ⟨b, f', bytecode, hw, hf', hd, hread, hans⟩ := ht.found hb ha h0 hm hf hc
    obtain ⟨hmb, c', hc', -⟩ := writer_eq_some hw
    refine ⟨bytecode, hread, ?_⟩
    rw [hag a hm b hmb f f' c c' hf hf' hc hc' (hs a hm b hmb f f' hf hf' hd.symm)]
    exact hans

/-- A stage that is compiled twice: the second time the answer is found. -/
theorem transparent_for_one_stage :
    (echo.backend.Keeps echo.cache ∧ (∀ r s, (echo.backend.compile r s).1 = echoed r) ∧
      echo.cache.IsEmpty echoStart.files ∧ echo.Builds echoStart [echoFirst, echoAgain .vertex] echoSession ∧
      echo.Separates [echoFirst, echoAgain .vertex]) ∧
      echo.Transparent echoed [echoFirst, echoAgain .vertex] := by
  refine ⟨⟨echo_keeps, fun _ _ => rfl, echo_isEmpty, echo_builds .vertex, echo_separates .vertex⟩, ?_⟩
  refine (transparent_iff_agrees echo_keeps (fun _ _ => rfl) echo_isEmpty (echo_builds .vertex)
    (echo_separates .vertex)).2.2 fun a ha b hb f f' c c' hf hf' _ _ _ => ?_
  obtain ⟨h1, h2, h3⟩ := echo_attempts ha hf
  obtain ⟨h1', h2', h3'⟩ := echo_attempts hb hf'
  rw [Attempt.request, Attempt.request, h1, h1', h2, h2']
  rcases h3 with h3 | h3 <;> rcases h3' with h3' | h3' <;> rw [h3, h3']

/-- The pixel stage of the same source finds the bytecode of the vertex stage. -/
theorem not_transparent_for_two_stages :
    (echo.backend.Keeps echo.cache ∧ (∀ r s, (echo.backend.compile r s).1 = echoed r) ∧
      echo.cache.IsEmpty echoStart.files ∧ echo.Builds echoStart [echoFirst, echoAgain .pixel] echoSession ∧
      echo.Separates [echoFirst, echoAgain .pixel]) ∧
      ¬ echo.Transparent echoed [echoFirst, echoAgain .pixel] := by
  refine ⟨⟨echo_keeps, fun _ _ => rfl, echo_isEmpty, echo_builds .pixel, echo_separates .pixel⟩, fun h => ?_⟩
  obtain ⟨bytecode, hread, hans⟩ := h (echoAgain .pixel) (by simp) ⟨"x\n", [echoPlace]⟩
    ⟨echoDigest, true, echo.cache.path echoDigest, [echoPlace]⟩ (flattened_echoAgain .pixel) rfl
  have hvertex : (echoSession.files.read (echo.cache.path echoDigest)).toOption =
      some (Bytes.ofText "vs_5_0:main:x\n") := by decide +kernel
  have hpixel : echoed ((echoAgain .pixel).request "x\n") = .ok (Bytes.ofText "ps_5_0:main:x\n") := rfl
  have h1 : bytecode = Bytes.ofText "vs_5_0:main:x\n" := Except.ok.inj (hread.symm.trans (eq_ok_of_toOption hvertex))
  have h2 : bytecode = Bytes.ofText "ps_5_0:main:x\n" := Except.ok.inj (hans.symm.trans hpixel)
  exact absurd (h1.symm.trans h2) (by decide +kernel)

end Engine

end ShaderBuild
