import ShaderBuild.Engine
import ShaderBuild.Proofs.Cache
/-!
# Builds as histories of attempts

A build is any sequence of calls that compile a stage or a shader, with changes to the files between
them. `Builds` are the serial runs of such calls, and record what was tried: an `Attempt` says which stage
was compiled, what the backend was asked meanwhile, and how it ended. What the backend is asked is seen by
letting it keep a record (`Backend.recorded`), which changes nothing else.

`attempt_cases` says once what an attempt can do. `Builds.trace` cuts every call into attempts and changes
that leave the cache alone, so that whatever is kept by these two holds for all builds.
-/

namespace ShaderBuild

variable {σ : Type}

/-- A backend that keeps a record of what it is asked. -/
def Backend.recorded (b : Backend σ) : Backend (σ × List Request) where
  id := b.id
  compile r s :=
    let (result, t) := b.compile r { s with backend := s.backend.1 }
    (result, { t with backend := (t.backend, s.backend.2 ++ [r]) })

/-- The session without the record. -/
def Session.forget (s : Session (σ × List Request)) : Session σ := ⟨s.files, s.backend.1, s.log⟩

theorem Session.forget_warn (s : Session (σ × List Request)) (warnings : List Warning) :
    (s.warn warnings).forget = s.forget.warn warnings := rfl

/-- A backend leaves a cache alone if it changes none of its entries. -/
def Backend.Keeps (b : Backend σ) (c : Cache) : Prop := ∀ r s, c.Kept s.files (b.compile r s).2.files

/-- What is remembered of an attempt to compile a stage. -/
structure Attempt where
  stage : Stage
  source : StageSource
  /-- The files when it started. -/
  before : FileSystem
  /-- What the backend was asked. -/
  asked : List Request
  outcome : Except Error CompiledStage
  /-- The files when it ended. -/
  after : FileSystem

namespace Attempt

/-- What a report says of the attempt. -/
def reported (a : Attempt) : StageOutcome :=
  match a.outcome with
  | .ok compiled => .compiled compiled
  | .error error => .failed error

/-- What is logged of the attempt in the end, if it is made for a shader. -/
def records (a : Attempt) (shader : String) : List Record :=
  match a.outcome with
  | .ok _ => []
  | .error error => [.stageFailed shader a.stage error]

/-- The attempt ended with bytecode for a digest. -/
def Compiled (a : Attempt) (d : Digest) : Prop := ∃ c, a.outcome = .ok c ∧ c.digest = d

instance (a : Attempt) (d : Digest) : Decidable (a.Compiled d) :=
  match h : a.outcome with
  | .ok c => decidable_of_iff (c.digest = d) (by simp [Compiled, h])
  | .error _ => isFalse (by simp [Compiled, h])

theorem not_compiled_of_error {a : Attempt} {error : Error} (h : a.outcome = .error error) (d : Digest) :
    ¬ a.Compiled d := by
  rintro ⟨c, hc, -⟩
  rw [h] at hc
  cases hc

theorem compiled_iff_of_ok {a : Attempt} {c : CompiledStage} (h : a.outcome = .ok c) (d : Digest) :
    a.Compiled d ↔ c.digest = d := by
  simp [Compiled, h]

/-- The request that an attempt makes for a flattened source. -/
def request (a : Attempt) (text : String) : Request := ⟨text, a.source.entryPoint, a.stage⟩

/-- The bytes that are hashed for a flattened source. -/
def hashed (a : Attempt) (text : String) : Bytes := Bytes.ofText a.source.entryPoint ++ Bytes.ofText text

/-- The digest that an attempt looks up for a flattened source. -/
def digestOf (a : Attempt) (text : String) : Digest := Digest.ofSource a.source.entryPoint text

end Attempt

theorem Build.bind_run {α β : Type} (b : Build σ α) (f : α → Build σ β) (s : Session σ) :
    (b >>= f) s = match b s with
      | (.ok a, t) => f a t
      | (.error error, t) => (.error error, t) := by
  simp only [bind, ExceptT.bind, ExceptT.mk, StateT.bind]
  rcases b s with ⟨result, t⟩
  cases result <;> rfl

namespace Tally

theorem outcomes_add (t : Tally) (stage : Stage) (outcome : StageOutcome) :
    (t.add stage outcome).outcomes = t.outcomes.set stage outcome := by
  cases outcome <;> rfl

/-- Every stage has an outcome after it was filled in for all of them. -/
theorem outcomes_foldl_add (t : Tally) (outcome : Stage → StageOutcome) :
    ((Stage.all.map fun stage => (stage, outcome stage)).foldl (fun t x => t.add x.1 x.2) t).outcomes =
      .ofFn outcome := by
  simp only [Stage.all, List.map_cons, List.map_nil, List.foldl_cons, List.foldl_nil, outcomes_add]
  rfl

end Tally

namespace Engine

variable (e : Engine σ)

/-- The engine with a backend that keeps a record. -/
def recorded : Engine (σ × List Request) := ⟨e.settings, e.backend.recorded⟩

/-- Compile a stage, and remember what happened. -/
def attempt (stage : Stage) (source : StageSource) (s : Session (σ × List Request)) :
    Attempt × Session (σ × List Request) :=
  let (outcome, t) := e.recorded.compileStage stage source s
  (⟨stage, source, s.files, t.backend.2.drop s.backend.2.length, outcome, t.files⟩, t)

theorem before_attempt (stage : Stage) (source : StageSource) (s : Session (σ × List Request)) :
    (e.attempt stage source s).1.before = s.files := by
  unfold attempt
  rcases e.recorded.compileStage stage source s with ⟨outcome, t⟩
  rfl

theorem after_attempt (stage : Stage) (source : StageSource) (s : Session (σ × List Request)) :
    (e.attempt stage source s).1.after = (e.attempt stage source s).2.files := by
  unfold attempt
  rcases e.recorded.compileStage stage source s with ⟨outcome, t⟩
  rfl

theorem session_attempt (stage : Stage) (source : StageSource) (s : Session (σ × List Request)) :
    (e.attempt stage source s).2 = (e.recorded.compileStage stage source s).2 := by
  unfold attempt
  rcases e.recorded.compileStage stage source s with ⟨outcome, t⟩
  rfl

/-- Compile some stages of a shader as far as it has them, and remember what happened. -/
def attempts (name : String) (unit : ShaderUnit) :
    List Stage → Session (σ × List Request) → List Attempt × Session (σ × List Request)
  | [], s => ([], s)
  | stage :: rest, s =>
    if (unit.get stage).isAbsent then attempts name unit rest s
    else
      let (first, t) := e.attempt stage (unit.get stage) s
      let (others, u) := attempts name unit rest (t.note (first.records name))
      (first :: others, u)

/-- Serial runs: the session at the start, what was tried, and the session after it. -/
inductive Builds (s : Session (σ × List Request)) : List Attempt → Session (σ × List Request) → Prop
  | start : Builds s [] s
  /-- Files were changed, but not those of the cache. -/
  | edit {h t files} : Builds s h t → e.cache.Kept t.files files → Builds s h { t with files := files }
  | stage {h t} (stage : Stage) (source : StageSource) : Builds s h t →
      Builds s (h ++ [(e.attempt stage source t).1]) (e.recorded.compileStage stage source t).2
  | shader {h t} (name : String) (unit : ShaderUnit) : Builds s h t →
      Builds s (h ++ (e.attempts name unit Stage.all t).1) (e.recorded.compileShader name unit t).2

/-! ## One attempt -/

theorem preprocessStage_run (source : StageSource) (s : Session σ) :
    e.preprocessStage source s =
      ((e.flatten s.files source).result, s.warn (e.flatten s.files source).warnings) :=
  rfl

theorem runBackend_run (r : Request) (s : Session σ) :
    e.runBackend r s = match e.backend.compile r s with
      | (.ok bytecode, t) => (.ok bytecode, t)
      | (.error text, t) => (.error (.backend r.stage r.entryPoint text), t) := by
  unfold runBackend
  rcases e.backend.compile r s with ⟨result, t⟩
  cases result <;> rfl

theorem recorded_run (r : Request) (s : Session (σ × List Request)) :
    e.recorded.backend.compile r s =
      match e.backend.compile r s.forget with
      | (result, t) => (result, ⟨t.files, (t.backend, s.backend.2 ++ [r]), t.log⟩) :=
  rfl

/-- Compiling a stage, step by step. -/
theorem compileStage_run (stage : Stage) (source : StageSource) (s : Session σ) :
    e.compileStage stage source s =
      let flattened := e.flatten s.files source
      let warned := s.warn flattened.warnings
      match flattened.result with
      | .error error => (.error error, warned)
      | .ok f =>
        let digest := Digest.ofSource source.entryPoint f.text
        if e.cache.contains s.files digest then
          (.ok ⟨digest, true, e.cache.path digest, f.dependencies⟩, warned)
        else
          match e.backend.compile ⟨f.text, source.entryPoint, stage⟩ warned with
          | (.error text, t) => (.error (.backend stage source.entryPoint text), t)
          | (.ok bytecode, t) =>
            match e.cache.store t.files digest bytecode with
            | (.error error, files) => (.error error, { t with files })
            | (.ok path, files) => (.ok ⟨digest, false, path, f.dependencies⟩, { t with files }) := by
  rw [compileStage, Build.bind_run, preprocessStage_run]
  dsimp only
  cases (e.flatten s.files source).result with
  | error error => rfl
  | ok f =>
    dsimp only
    rw [Build.bind_run]
    show (ite _ _ _ : Build σ CompiledStage) _ = _
    rw [Session.files_warn]
    split
    · rfl
    · rw [Build.bind_run, runBackend_run]
      rcases e.backend.compile ⟨f.text, source.entryPoint, stage⟩ _ with ⟨result, t⟩
      cases result with
      | error text => rfl
      | ok bytecode =>
        dsimp only
        rw [Build.bind_run, Build.change]
        rcases e.cache.store t.files (Digest.ofSource source.entryPoint f.text) bytecode with ⟨result, files⟩
        cases result <;> rfl

/-- Compiling a shader, step by step. -/
theorem compileShader_run (name : String) (unit : ShaderUnit) (s : Session σ) :
    e.compileShader name unit s =
      let tally := (e.tryStages name unit s).1
      let t := (e.tryStages name unit s).2
      let path := e.settings.objectPath name
      match tally.header.write t.files path with
      | (.ok _, files) => (.ok { tally with name, objectPath := path }, { t with files })
      | (.error error, files) => (.error error, { t with files }) := by
  rw [compileShader, Build.bind_run]
  have h : (liftM (e.tryStages name unit) : Build σ _) s =
      (.ok (e.tryStages name unit s).1, (e.tryStages name unit s).2) := rfl
  rw [h]
  dsimp only
  rw [Build.bind_run, Build.change]
  rcases Header.write _ _ _ with ⟨result, files⟩
  cases result <;> rfl

/-- What becomes of some stages, one after the other. -/
def outcomesAlong (name : String) (unit : ShaderUnit) :
    List Stage → Session σ → List (Stage × StageOutcome) × Session σ
  | [], s => ([], s)
  | stage :: rest, s =>
    let first := e.stageOutcome name unit stage s
    let others := outcomesAlong name unit rest first.2
    ((stage, first.1) :: others.1, others.2)

/-- What the loop over the stages fills in is what became of each of them. -/
theorem foldlM_tryStage (name : String) (unit : ShaderUnit) (stages : List Stage) (tally : Tally) (s : Session σ) :
    (stages.foldlM (e.tryStage name unit) tally : StateM (Session σ) Tally) s =
      ((e.outcomesAlong name unit stages s).1.foldl (fun t x => t.add x.1 x.2) tally,
        (e.outcomesAlong name unit stages s).2) := by
  induction stages generalizing tally s with
  | nil => rfl
  | cons stage rest ih =>
    rw [List.foldlM_cons]
    exact ih _ _

theorem tryStages_eq (name : String) (unit : ShaderUnit) (s : Session σ) :
    e.tryStages name unit s =
      ((e.outcomesAlong name unit Stage.all s).1.foldl (fun t x => t.add x.1 x.2) {},
        (e.outcomesAlong name unit Stage.all s).2) :=
  e.foldlM_tryStage name unit Stage.all {} s

/-- Keeping a record does not change what a call does. -/
theorem compileStage_recorded (stage : Stage) (source : StageSource) (s : Session (σ × List Request)) :
    e.compileStage stage source s.forget =
      ((e.recorded.compileStage stage source s).1, (e.recorded.compileStage stage source s).2.forget) := by
  rw [compileStage_run, compileStage_run]
  have hf : e.recorded.flatten = e.flatten := rfl
  have hc : e.recorded.cache = e.cache := rfl
  have hs : s.forget.files = s.files := rfl
  rw [hf, hc, hs]
  generalize e.flatten s.files source = flattened
  obtain ⟨result, warnings⟩ := flattened
  cases result with
  | error error => rfl
  | ok f =>
    dsimp only
    split
    · rfl
    · rw [recorded_run, Session.forget_warn]
      generalize e.backend.compile _ _ = ran
      obtain ⟨result, t⟩ := ran
      cases result with
      | error text => rfl
      | ok bytecode =>
        dsimp only
        generalize e.cache.store _ _ _ = written
        obtain ⟨result, files⟩ := written
        cases result <;> rfl

/-- The flattened source of the stage that was tried. -/
def flattened (a : Attempt) : Except Error Flattened := (e.flatten a.before a.source).result

/-- The backend gave this bytecode when it was asked this. -/
def Yields (r : Request) (bytecode : Bytes) : Prop := ∃ s, (e.backend.compile r s).1 = .ok bytecode

/-- What an attempt can do, guards included. -/
inductive Went (a : Attempt) : Prop
  | notFlattened {error} (flat : e.flattened a = .error error) (asked : a.asked = [])
      (outcome : a.outcome = .error error) (same : a.after = a.before)
  | found {f} (flat : e.flattened a = .ok f) (there : e.cache.contains a.before (a.digestOf f.text) = true)
      (asked : a.asked = [])
      (outcome : a.outcome = .ok ⟨a.digestOf f.text, true, e.cache.path (a.digestOf f.text), f.dependencies⟩)
      (same : a.after = a.before)
  | refused {f error} (flat : e.flattened a = .ok f)
      (missing : e.cache.contains a.before (a.digestOf f.text) = false) (asked : a.asked = [a.request f.text])
      (outcome : a.outcome = .error error)
      (kept : e.cache.Kept a.before a.after)
  | stored {f bytecode files} (flat : e.flattened a = .ok f)
      (missing : e.cache.contains a.before (a.digestOf f.text) = false) (asked : a.asked = [a.request f.text])
      (outcome : a.outcome = .ok ⟨a.digestOf f.text, false, e.cache.path (a.digestOf f.text), f.dependencies⟩)
      (yields : e.Yields (a.request f.text) bytecode) (kept : e.cache.Kept a.before files)
      (stored : e.cache.Stored files (a.digestOf f.text) bytecode a.after)

variable {e} (hb : e.backend.Keeps e.cache)
include hb

theorem attempt_went (stage : Stage) (source : StageSource) (s : Session (σ × List Request)) :
    e.Went (e.attempt stage source s).1 ∧
      (e.attempt stage source s).2.backend.2 = s.backend.2 ++ (e.attempt stage source s).1.asked := by
  unfold attempt
  rw [compileStage_run]
  have hf : e.recorded.flatten = e.flatten := rfl
  have hc : e.recorded.cache = e.cache := rfl
  dsimp only
  rw [hf, hc]
  cases hr : (e.flatten s.files source).result with
  | error error => exact ⟨.notFlattened hr (by simp) rfl rfl, by simp⟩
  | ok f =>
    dsimp only
    cases hd : e.cache.contains s.files (Digest.ofSource source.entryPoint f.text) with
    | true =>
      rw [if_pos rfl]
      exact ⟨.found hr hd (by simp) rfl rfl, by simp⟩
    | false =>
      rw [if_neg Bool.false_ne_true, recorded_run]
      have hk := hb ⟨f.text, source.entryPoint, stage⟩ (s.warn (e.flatten s.files source).warnings).forget
      have hy : ∀ bytecode, (e.backend.compile ⟨f.text, source.entryPoint, stage⟩
          (s.warn (e.flatten s.files source).warnings).forget).1 = .ok bytecode →
          e.Yields ⟨f.text, source.entryPoint, stage⟩ bytecode := fun _ h => ⟨_, h⟩
      -- Of the backend's answer only these two facts are used.
      generalize e.backend.compile ⟨f.text, source.entryPoint, stage⟩
        (s.warn (e.flatten s.files source).warnings).forget = ran at hk hy ⊢
      obtain ⟨result, t⟩ := ran
      cases result with
      | error text => exact ⟨.refused hr hd (by simp [Attempt.request]) rfl hk, by simp⟩
      | ok bytecode =>
        dsimp only at hk hy ⊢
        rcases e.cache.store_spec t.files (Digest.ofSource source.entryPoint f.text) bytecode with
          ⟨files, h1, h2⟩ | ⟨error, files, h1, h2⟩
        · rw [h1]
          exact ⟨.stored hr hd (by simp [Attempt.request]) rfl (hy _ rfl) hk h2, by simp⟩
        · rw [h1]
          exact ⟨.refused hr hd (by simp [Attempt.request]) rfl (hk.trans h2), by simp⟩

omit hb

section OneStage
variable {stage : Stage} {source : StageSource} {s : Session (σ × List Request)} {f : Flattened} {d : Digest}
  (hf : e.flatten s.files source = ⟨.ok f, []⟩) (hd : Digest.ofSource source.entryPoint f.text = d)
include hf hd

/-- An attempt that finds bytecode. -/
theorem attempt_of_found (hc : e.cache.contains s.files d = true) :
    e.attempt stage source s =
      (⟨stage, source, s.files, [], .ok ⟨d, true, e.cache.path d, f.dependencies⟩, s.files⟩, s) := by
  have hr : e.recorded.flatten = e.flatten := rfl
  have hcache : e.recorded.cache = e.cache := rfl
  rw [attempt, compileStage_run, hr, hcache, hf]
  dsimp only
  rw [hd, if_pos hc]
  simp

/-- An attempt whose bytecode is stored. -/
theorem attempt_of_missing {t : Session σ} {bytecode : Bytes} {path : Path} {files : FileSystem}
    (hc : e.cache.contains s.files d = false)
    (hb : e.backend.compile ⟨f.text, source.entryPoint, stage⟩ s.forget = (.ok bytecode, t))
    (hs : e.cache.store t.files d bytecode = (.ok path, files)) :
    e.attempt stage source s =
      (⟨stage, source, s.files, [⟨f.text, source.entryPoint, stage⟩], .ok ⟨d, false, path, f.dependencies⟩, files⟩,
        ⟨files, (t.backend, s.backend.2 ++ [⟨f.text, source.entryPoint, stage⟩]), t.log⟩) := by
  have hr : e.recorded.flatten = e.flatten := rfl
  have hcache : e.recorded.cache = e.cache := rfl
  rw [attempt, compileStage_run, hr, hcache, hf]
  dsimp only
  rw [hd, hc, if_neg Bool.false_ne_true, Session.warn_nil, recorded_run, hb]
  dsimp only
  rw [hs]
  simp

end OneStage

/-! ## A call is a sequence of attempts -/

/-- What a report says of a stage, given what was tried. -/
def reportedIn (tried : List Attempt) (stage : Stage) : StageOutcome :=
  (tried.find? (·.stage == stage)).elim .skipped Attempt.reported


variable (e) in
theorem stageOutcome_run (name : String) (unit : ShaderUnit) (stage : Stage) (s : Session (σ × List Request)) :
    e.recorded.stageOutcome name unit stage s =
      if (unit.get stage).isAbsent then (.skipped, s)
      else
        let tried := e.attempt stage (unit.get stage) s
        (tried.1.reported, tried.2.note (tried.1.records name)) := by
  unfold stageOutcome attempt Attempt.reported Attempt.records
  split
  · rfl
  · simp only [bind, StateT.bind, Build.attempt]
    rcases e.recorded.compileStage stage (unit.get stage) s with ⟨result, t⟩
    cases result with
    | ok c => exact congrArg _ t.note_nil.symm
    | error error => rfl

theorem stage_of_mem_attempts {name : String} {unit : ShaderUnit} {stages : List Stage}
    {s : Session (σ × List Request)} {a : Attempt} (h : a ∈ (e.attempts name unit stages s).1) : a.stage ∈ stages := by
  induction stages generalizing s with
  | nil => cases h
  | cons stage rest ih =>
    simp only [attempts] at h
    split at h
    · exact List.mem_cons_of_mem _ (ih h)
    · rcases List.mem_cons.1 h with rfl | h
      · exact List.mem_cons_self
      · exact List.mem_cons_of_mem _ (ih h)

theorem outcomesAlong_eq (name : String) (unit : ShaderUnit) {stages : List Stage} (hn : stages.Nodup)
    (s : Session (σ × List Request)) :
    e.recorded.outcomesAlong name unit stages s =
      (stages.map fun stage => (stage, reportedIn (e.attempts name unit stages s).1 stage),
        (e.attempts name unit stages s).2) := by
  induction stages generalizing s with
  | nil => rfl
  | cons stage rest ih =>
    obtain ⟨hs, hr⟩ := List.nodup_cons.1 hn
    simp only [outcomesAlong, attempts, stageOutcome_run e]
    split
    · rw [ih hr]
      have hnone : (e.attempts name unit rest s).1.find? (·.stage == stage) = none := by
        refine List.find?_eq_none.2 fun a ha he => hs ?_
        rw [← eq_of_beq he]
        exact stage_of_mem_attempts ha
      simp [reportedIn, hnone]
    · rw [ih hr]
      have hself : (e.attempt stage (unit.get stage) s).1.stage = stage := rfl
      simp only [List.map_cons, Prod.mk.injEq, List.cons.injEq, and_true]
      refine ⟨by simp [reportedIn, hself], List.map_congr_left fun other ho => ?_⟩
      have hne : ¬ stage = other := fun he => hs (he ▸ ho)
      simp [reportedIn, hself, hne]

/-- The outcomes in a report are those of the attempts. -/
theorem tryStages_run (name : String) (unit : ShaderUnit) (s : Session (σ × List Request)) :
    (e.recorded.tryStages name unit s).1.outcomes = .ofFn (reportedIn (e.attempts name unit Stage.all s).1) ∧
      (e.recorded.tryStages name unit s).2 = (e.attempts name unit Stage.all s).2 := by
  have hn : Stage.all.Nodup := by decide
  rw [tryStages_eq, outcomesAlong_eq name unit hn]
  exact ⟨Tally.outcomes_foldl_add _ _, rfl⟩

theorem outcomes_compileShader {name : String} {unit : ShaderUnit} {s : Session (σ × List Request)}
    {report : CompileReport} (h : (e.recorded.compileShader name unit s).1 = .ok report) :
    report.outcomes = .ofFn (reportedIn (e.attempts name unit Stage.all s).1) := by
  rw [compileShader_run] at h
  dsimp only at h
  split at h
  · rw [← Except.ok.inj h]
    exact (tryStages_run name unit s).1
  · cases h

theorem dot_mem_lastPart_objectPath (settings : Settings) (name : String) :
    '.' ∈ (settings.objectPath name).lastPart := by
  obtain ⟨front, h, -⟩ := Path.exists_text_join settings.outputDir ⟨name ++ "." ++ Settings.objectExtension⟩
  have ht : (settings.objectPath name).text.toList = (front ++ name).toList ++ ".tsh".toList := by
    rw [Settings.objectPath, h, ← String.toList_append]
    congr 1
    simp [String.append_assoc, Settings.objectExtension]
  rw [Path.lastPart, ht, Path.splitSlash_append _ (by decide), List.getLastD_concat]
  exact List.mem_append_right _ (by decide)

/-- Writing an object file changes no entry of a cache, whatever the name of the shader. -/
theorem kept_write_header (c : Cache) (header : Header) (settings : Settings) (name : String) (fs : FileSystem) :
    c.Kept fs (header.write fs (settings.objectPath name)).2 :=
  .writeCreating (dot_mem_lastPart_objectPath settings name) header.toBytes

/-- Builds in steps that are attempts, or leave the cache alone. -/
inductive Trace (e : Engine σ) (s : Session (σ × List Request)) : List Attempt → Session (σ × List Request) → Prop
  | start : Trace e s [] s
  | kept {h t files} (log : List Record) : Trace e s h t → e.cache.Kept t.files files →
      Trace e s h { t with files := files, log := log }
  | tried {h t} (stage : Stage) (source : StageSource) : Trace e s h t →
      Trace e s (h ++ [(e.attempt stage source t).1]) (e.attempt stage source t).2

/-- What is logged changes no file. -/
theorem Trace.note {s t : Session (σ × List Request)} {h : List Attempt} (ht : Trace e s h t)
    (records : List Record) : Trace e s h (t.note records) :=
  ht.kept _ (.refl e.cache t.files)

theorem Trace.attempts {s t : Session (σ × List Request)} {h : List Attempt} (ht : Trace e s h t)
    (name : String) (unit : ShaderUnit) (stages : List Stage) :
    Trace e s (h ++ (e.attempts name unit stages t).1) (e.attempts name unit stages t).2 := by
  induction stages generalizing h t with
  | nil => simpa [Engine.attempts] using ht
  | cons stage rest ih =>
    simp only [Engine.attempts]
    split
    · exact ih ht
    · have htried := (ht.tried stage (unit.get stage)).note ((e.attempt stage (unit.get stage) t).1.records name)
      have hrest := ih htried
      rwa [List.append_assoc] at hrest

theorem Builds.trace {s t : Session (σ × List Request)} {h : List Attempt} (hr : e.Builds s h t) :
    Trace e s h t := by
  induction hr with
  | start => exact .start
  | edit _ hk ih => exact ih.kept _ hk
  | stage stage source _ ih => exact .tried stage source ih
  | @shader h t name unit _ ih =>
    have hs : e.recorded.settings = e.settings := rfl
    rw [compileShader_run, (tryStages_run name unit t).2, hs]
    dsimp only
    -- The stages are attempts, and the object file is written after them.
    have hk := kept_write_header e.cache (e.recorded.tryStages name unit t).1.header e.settings name
      (e.attempts name unit Stage.all t).2.files
    have ht := (ih.attempts name unit Stage.all).kept (e.attempts name unit Stage.all t).2.log hk
    generalize Header.write _ _ _ = written at ht ⊢
    obtain ⟨result, files⟩ := written
    cases result <;> exact ht

/-- Every attempt was made in a session that the attempts before it led to. -/
theorem Trace.attempted {s t : Session (σ × List Request)} {h : List Attempt} (ht : Trace e s h t) :
    ∀ pre a post, h = pre ++ a :: post →
      ∃ stage source u, Trace e s pre u ∧ (e.attempt stage source u).1 = a := by
  induction ht with
  | start => intro pre a post he; simp at he
  | kept _ _ _ ih => exact ih
  | @tried h t stage source ht ih =>
    intro pre a post he
    -- The attempt is the last one, or it was made before that.
    rcases List.eq_nil_or_concat post with rfl | ⟨post, last, rfl⟩
    · obtain ⟨rfl, ha⟩ := List.append_inj' he rfl
      exact ⟨stage, source, t, ht, List.singleton_inj.1 ha⟩
    · rw [List.concat_eq_append, ← List.cons_append, ← List.append_assoc] at he
      obtain ⟨rfl, -⟩ := List.append_inj' he rfl
      exact ih pre a post rfl

end Engine

end ShaderBuild
