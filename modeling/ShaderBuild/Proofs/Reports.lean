import Mathlib.Data.Nat.Bitwise
import ShaderBuild.Proofs.ObjectFiles
import ShaderBuild.Proofs.Reuse
/-!
# Reports, object files and the cache agree

Compiling a shader leaves three records: the report, the object file, and the entries of the cache. What
becomes of a stage is filled in in up to three places of the report: its outcomes, the header and the set of
stages that failed. They agree before the first stage, and one stage after the other keeps this
(`Tally.Agrees.add`, `Tally.Agrees.foldl`). An object file is read back as it was written
(`Header.read_of_write`), no stage takes an entry away (`contains_after`), and every stage is tried in the
session that those before it left, whatever became of them (`outcomes_tryStages`). From this it follows that
the records tell the same of each stage.
-/

namespace ShaderBuild

/-! ## Stages -/

namespace StageFlags

theorem contains_empty (s : Stage) : empty.contains s = false := by cases s <;> rfl

/-- The flag of a stage is a bit of its own. -/
theorem toNat_flag (s : Stage) : s.flag.bits.toNat = 2 ^ s.index := by cases s <;> rfl

theorem contains_eq_testBit (f : StageFlags) (s : Stage) : f.contains s = f.bits.toNat.testBit s.index := by
  have hand : (f.bits &&& s.flag.bits).toNat = (f.bits.toNat.testBit s.index).toNat * 2 ^ s.index := by
    rw [UInt8.toNat_and, toNat_flag, Nat.and_two_pow]
  have hpos : 2 ^ s.index ≠ 0 := Nat.two_pow_pos s.index |>.ne'
  rw [contains, Bool.eq_iff_iff, beq_iff_eq, ← UInt8.toNat_inj, hand, toNat_flag]
  cases f.bits.toNat.testBit s.index <;> simp [hpos.symm]

theorem contains_or (f g : StageFlags) (s : Stage) : (f ||| g).contains s = (f.contains s || g.contains s) := by
  simp only [contains_eq_testBit]
  exact (congrArg (Nat.testBit · s.index) (UInt8.toNat_or ..)).trans (Nat.testBit_or ..)

theorem contains_flag (s t : Stage) : s.flag.contains t = decide (t = s) := by
  cases s <;> cases t <;> rfl

theorem isEmpty_or (f g : StageFlags) : (f ||| g).isEmpty = (f.isEmpty && g.isEmpty) := by
  rw [Bool.eq_iff_iff, Bool.and_eq_true]
  exact beq_iff_eq.trans (UInt8.or_eq_zero_iff.trans (and_congr beq_iff_eq beq_iff_eq).symm)

theorem isEmpty_flag (s : Stage) : s.flag.isEmpty = false := by cases s <;> rfl

end StageFlags

namespace StageOutcome

theorem isFailed_iff {o : StageOutcome} : o.isFailed = true ↔ ∃ error, o = .failed error := by
  cases o <;> simp [isFailed]

/-- The digest of the bytecode, or the one that stands for none. -/
def digest : StageOutcome → Digest
  | compiled stage => stage.digest
  | _ => .zero

end StageOutcome

namespace Tally

/-- What is filled in tells the same of each stage. -/
structure Agrees (t : Tally) : Prop where
  failed : ∀ stage, t.failed.contains stage = (t.outcomes.get stage).isFailed
  digest : ∀ stage, t.header.get stage = (t.outcomes.get stage).digest
  success : t.failed.isEmpty = true ↔ ∀ stage, (t.outcomes.get stage).isFailed = false

section Add
variable {t : Tally} {stage : Stage}

theorem contains_failed_add (hs : t.failed.contains stage = false) (outcome : StageOutcome) (other : Stage) :
    (t.add stage outcome).failed.contains other =
      if other = stage then outcome.isFailed else t.failed.contains other := by
  have hsame : t.failed.contains other = if other = stage then false else t.failed.contains other := by
    split
    · next he => rw [he, hs]
    · rfl
  cases outcome with
  | skipped => exact hsame
  | compiled c => exact hsame
  | failed error =>
    rw [add, StageFlags.contains_or, StageFlags.contains_flag]
    split
    · next he => rw [decide_eq_true he, Bool.or_true]; rfl
    · next he => rw [decide_eq_false he, Bool.or_false]

theorem get_header_add (hs : t.header.get stage = .zero) (outcome : StageOutcome) (other : Stage) :
    (t.add stage outcome).header.get other = if other = stage then outcome.digest else t.header.get other := by
  have hsame : t.header.get other = if other = stage then .zero else t.header.get other := by
    split
    · next he => rw [he, hs]
    · rfl
  cases outcome with
  | skipped => exact hsame
  | compiled c => exact PerStage.get_set ..
  | failed error => exact hsame

theorem isEmpty_failed_add (t : Tally) (stage : Stage) (outcome : StageOutcome) :
    (t.add stage outcome).failed.isEmpty = (t.failed.isEmpty && !outcome.isFailed) := by
  cases outcome with
  | failed error => exact (StageFlags.isEmpty_or ..).trans (congrArg _ (StageFlags.isEmpty_flag stage))
  | _ => exact (Bool.and_true _).symm

end Add

namespace Agrees

/-- Nothing is filled in at the start. -/
theorem start : ({} : Tally).Agrees where
  failed stage := by rw [StageFlags.contains_empty, PerStage.get_replicate]; rfl
  digest stage := by rw [Header.get, PerStage.get_replicate, PerStage.get_replicate]; rfl
  success := iff_of_true rfl fun stage => by rw [PerStage.get_replicate]; rfl

/-- It still tells the same after one more stage, if nothing was filled in for it. -/
theorem add {t : Tally} (h : t.Agrees) {stage : Stage} (hs : t.outcomes.get stage = .skipped)
    (outcome : StageOutcome) : (t.add stage outcome).Agrees where
  failed other := by
    have hnot : t.failed.contains stage = false := by rw [h.failed, hs]; rfl
    rw [contains_failed_add hnot, outcomes_add, PerStage.get_set, h.failed]
    split <;> rfl
  digest other := by
    have hzero : t.header.get stage = .zero := by rw [h.digest, hs]; rfl
    rw [get_header_add hzero, outcomes_add, PerStage.get_set, h.digest]
    split <;> rfl
  success := by
    rw [isEmpty_failed_add, Bool.and_eq_true, Bool.not_eq_true', h.success, outcomes_add]
    constructor
    · rintro ⟨hothers, hstage⟩ other
      rw [PerStage.get_set]
      split
      · exact hstage
      · exact hothers other
    · intro hall
      refine ⟨fun other => ?_, ?_⟩
      · by_cases he : other = stage
        · rw [he, hs]
          rfl
        · have hother := hall other
          rwa [PerStage.get_set, if_neg he] at hother
      · have hstage := hall stage
        rwa [PerStage.get_set, if_pos rfl] at hstage

/-- It tells the same after any stages. -/
theorem foldl {xs : List (Stage × StageOutcome)} (hn : (xs.map Prod.fst).Nodup) {t : Tally} (h : t.Agrees)
    (hs : ∀ x ∈ xs, t.outcomes.get x.1 = .skipped) : (xs.foldl (fun t x => t.add x.1 x.2) t).Agrees := by
  induction xs generalizing t with
  | nil => exact h
  | cons x xs ih =>
    obtain ⟨hnew, hn⟩ := List.nodup_cons.1 hn
    refine ih hn (h.add (hs x List.mem_cons_self) x.2) fun y hy => ?_
    rw [outcomes_add, PerStage.get_set, if_neg, hs y (List.mem_cons_of_mem _ hy)]
    rintro he
    exact hnew (he ▸ List.mem_map_of_mem hy)

end Agrees

end Tally

/-! ## One stage after the other -/

variable {σ : Type}

/-- The session with a record that is empty. -/
def Session.record (s : Session σ) : Session (σ × List Request) := ⟨s.files, (s.backend, []), s.log⟩

/-- What a report says of a stage that was tried. -/
def StageOutcome.ofResult : Except Error CompiledStage → StageOutcome
  | .ok stage => .compiled stage
  | .error error => .failed error

/-- What is logged of a stage in the end. -/
def StageOutcome.records (shader : String) (stage : Stage) (outcome : StageOutcome) : List Record :=
  (outcome.error?.map (.stageFailed shader stage)).toList

namespace Engine

section Sessions
variable (e : Engine σ) (name : String) (unit : ShaderUnit)

theorem stageOutcome_eq (stage : Stage) (s : Session σ) :
    e.stageOutcome name unit stage s =
      if (unit.get stage).isAbsent then (.skipped, s)
      else
        let tried := e.compileStage stage (unit.get stage) s
        let outcome := StageOutcome.ofResult tried.1
        (outcome, tried.2.note (outcome.records name stage)) := by
  unfold stageOutcome
  split
  · rfl
  · simp only [bind, StateT.bind, Build.attempt]
    rcases e.compileStage stage (unit.get stage) s with ⟨result, t⟩
    cases result with
    | ok c => exact congrArg _ t.note_nil.symm
    | error error => rfl

theorem files_stageOutcome (stage : Stage) (s : Session σ) :
    (e.stageOutcome name unit stage s).2.files =
      if (unit.get stage).isAbsent then s.files else (e.compileStage stage (unit.get stage) s).2.files := by
  rw [stageOutcome_eq]
  split <;> rfl

/-- The session after some stages, whatever became of them. -/
def after (stages : List Stage) (s : Session σ) : Session σ :=
  stages.foldl (fun t stage => (e.stageOutcome name unit stage t).2) s

/-- The session in which a stage is tried. -/
def reached (stage : Stage) (s : Session σ) : Session σ := e.after name unit (Stage.all.take stage.index) s

theorem fst_outcomesAlong (stages : List Stage) (s : Session σ) :
    (e.outcomesAlong name unit stages s).1.map Prod.fst = stages := by
  induction stages generalizing s with
  | nil => rfl
  | cons stage stages ih => exact congrArg _ (ih _)

theorem snd_outcomesAlong (stages : List Stage) (s : Session σ) :
    (e.outcomesAlong name unit stages s).2 = e.after name unit stages s := by
  induction stages generalizing s with
  | nil => rfl
  | cons stage stages ih => exact ih _

theorem outcomesAlong_all (s : Session σ) :
    (e.outcomesAlong name unit Stage.all s).1 =
      Stage.all.map fun stage => (stage, (e.stageOutcome name unit stage (e.reached name unit stage s)).1) := rfl

/-- Every stage has the outcome that it has in the session in which it is tried. -/
theorem outcomes_tryStages (s : Session σ) :
    (e.tryStages name unit s).1.outcomes =
      .ofFn fun stage => (e.stageOutcome name unit stage (e.reached name unit stage s)).1 := by
  rw [tryStages_eq, outcomesAlong_all]
  exact Tally.outcomes_foldl_add _ _

theorem session_tryStages (s : Session σ) : (e.tryStages name unit s).2 = e.after name unit Stage.all s := by
  rw [tryStages_eq, snd_outcomesAlong]

variable {e name unit} in
theorem tryStages_of_steps {v h d g p : StageOutcome} {s s₁ s₂ s₃ s₄ s₅ : Session σ}
    (hv : e.stageOutcome name unit .vertex s = (v, s₁)) (hh : e.stageOutcome name unit .hull s₁ = (h, s₂))
    (hd : e.stageOutcome name unit .domain s₂ = (d, s₃)) (hg : e.stageOutcome name unit .geometry s₃ = (g, s₄))
    (hp : e.stageOutcome name unit .pixel s₄ = (p, s₅)) :
    e.tryStages name unit s = ((Stage.all.zip [v, h, d, g, p]).foldl (fun t x => t.add x.1 x.2) {}, s₅) := by
  simp only [tryStages_eq, Stage.all, outcomesAlong, hv, hh, hd, hg, hp]
  rfl

/-- After the loop over the stages, what was filled in tells the same of each of them. -/
theorem agrees_tryStages (s : Session σ) : (e.tryStages name unit s).1.Agrees := by
  rw [tryStages_eq]
  refine Tally.Agrees.foldl ?_ .start fun x _ => PerStage.get_replicate _ _
  rw [fst_outcomesAlong]
  decide

theorem after_append (stages stages' : List Stage) (s : Session σ) :
    e.after name unit (stages ++ stages') s = e.after name unit stages' (e.after name unit stages s) :=
  List.foldl_append

/-- Compiling a stage is an attempt, apart from the record. -/
theorem compileStage_forget (stage : Stage) (source : StageSource) (s : Session (σ × List Request)) :
    e.compileStage stage source s.forget =
      ((e.attempt stage source s).1.outcome, (e.attempt stage source s).2.forget) := by
  rw [compileStage_recorded]
  unfold attempt
  rcases e.recorded.compileStage stage source s with ⟨outcome, t⟩
  rfl

theorem compileStage_eq (stage : Stage) (source : StageSource) (s : Session σ) :
    e.compileStage stage source s =
      ((e.attempt stage source s.record).1.outcome, (e.attempt stage source s.record).2.forget) :=
  e.compileStage_forget stage source s.record

end Sessions

variable {e : Engine σ} {name : String} {unit : ShaderUnit}

/-- What is reported of a stage is what became of its attempt. -/
theorem stageOutcome_of_attempt (name : String) {stage : Stage} {s t : Session (σ × List Request)} {a : Attempt}
    (hs : (unit.get stage).isAbsent = false) (ha : e.attempt stage (unit.get stage) s = (a, t)) :
    e.stageOutcome name unit stage s.forget =
      (.ofResult a.outcome, t.forget.note ((StageOutcome.ofResult a.outcome).records name stage)) := by
  rw [stageOutcome_eq, hs, if_neg Bool.false_ne_true, compileStage_forget, ha]

/-- An attempt takes nothing from the cache. -/
theorem Went.contains {a : Attempt} (hw : e.Went a) {d : Digest} (hd : e.cache.contains a.before d = true) :
    e.cache.contains a.after d = true := by
  cases hw with
  | notFlattened flat asked outcome same =>
    rw [same]
    exact hd
  | found flat there asked outcome same =>
    rw [same]
    exact hd
  | refused flat missing asked outcome kept => exact kept.contains d hd
  | stored flat missing asked outcome yields kept stored => exact stored.contains d (.inl (kept.contains d hd))

/-- A stage that was compiled has an entry in the cache, under the digest of its source. -/
theorem Went.compiled {a : Attempt} (hw : e.Went a) {c : CompiledStage} (hc : a.outcome = .ok c) :
    (∃ f, e.flattened a = .ok f ∧ c.digest = a.digestOf f.text) ∧ c.cachePath = e.cache.path c.digest ∧
      e.cache.contains a.after c.digest = true := by
  cases hw with
  | notFlattened flat asked outcome same => cases hc.symm.trans outcome
  | found flat there asked outcome same =>
    obtain rfl := Except.ok.inj (hc.symm.trans outcome)
    dsimp only
    rw [same]
    exact ⟨⟨_, flat, rfl⟩, rfl, there⟩
  | refused flat missing asked outcome kept => cases hc.symm.trans outcome
  | stored flat missing asked outcome yields kept stored =>
    obtain rfl := Except.ok.inj (hc.symm.trans outcome)
    dsimp only
    exact ⟨⟨_, flat, rfl⟩, rfl, stored.contains _ (.inr rfl)⟩

section Kept
variable (hb : e.backend.Keeps e.cache)
include hb

theorem contains_stageOutcome (stage : Stage) (s : Session σ) {d : Digest} (hd : e.cache.contains s.files d = true) :
    e.cache.contains (e.stageOutcome name unit stage s).2.files d = true := by
  rw [stageOutcome_eq]
  split
  · exact hd
  · rw [compileStage_eq]
    have hw := (attempt_went hb stage (unit.get stage) s.record).1
    have ha := e.after_attempt stage (unit.get stage) s.record
    have hd' : e.cache.contains (e.attempt stage (unit.get stage) s.record).1.before d = true := by
      rwa [e.before_attempt]
    exact ha ▸ hw.contains hd'

/-- No stage takes anything from the cache. -/
theorem contains_after (stages : List Stage) (s : Session σ) {d : Digest} (hd : e.cache.contains s.files d = true) :
    e.cache.contains (e.after name unit stages s).files d = true := by
  induction stages generalizing s with
  | nil => exact hd
  | cons stage stages ih => exact ih _ (contains_stageOutcome hb stage s hd)

/-- What a compiled stage has in the cache is still there after the last stage. -/
theorem compiled_after {stage : Stage} {s : Session σ} {c : CompiledStage}
    (hc : (e.stageOutcome name unit stage (e.reached name unit stage s)).1 = .compiled c) :
    (∃ f, (e.flatten (e.reached name unit stage s).files (unit.get stage)).result = .ok f ∧
        c.digest = Digest.ofSource (unit.get stage).entryPoint f.text) ∧
      c.cachePath = e.cache.path c.digest ∧ e.cache.contains (e.after name unit Stage.all s).files c.digest = true := by
  have hafter : e.after name unit Stage.all s = e.after name unit (Stage.all.drop (stage.index + 1))
      (e.stageOutcome name unit stage (e.reached name unit stage s)).2 := by
    conv => lhs; rw [Stage.all_eq stage]
    rw [after_append]
    rfl
  rw [hafter]
  generalize e.reached name unit stage s = u at hc ⊢
  rw [stageOutcome_eq] at hc ⊢
  split at hc
  · cases hc
  · next hp =>
    rw [if_neg hp]
    rw [compileStage_eq] at hc ⊢
    have hw := (attempt_went hb stage (unit.get stage) u.record).1
    have ha := e.after_attempt stage (unit.get stage) u.record
    have hbefore := e.before_attempt stage (unit.get stage) u.record
    have ho : (e.attempt stage (unit.get stage) u.record).1.outcome = .ok c := by
      cases hr : (e.attempt stage (unit.get stage) u.record).1.outcome with
      | ok c' =>
        rw [hr] at hc
        exact congrArg _ (StageOutcome.compiled.inj hc)
      | error error =>
        rw [hr] at hc
        cases hc
    obtain ⟨⟨f, hf, hd⟩, hpath, hthere⟩ := hw.compiled ho
    rw [flattened, hbefore] at hf
    rw [ha] at hthere
    exact ⟨⟨f, hf, hd⟩, hpath, contains_after hb _ _ hthere⟩

end Kept

variable (e unit) in
/-- What is said of a stage by a report, by its header, and by the files that were left. The stage was
tried in a session with the files `before`. -/
structure Reported (report : CompileReport) (stage : Stage) (before left : FileSystem) : Prop where
  skipped : report.outcomes.get stage = .skipped ↔ (unit.get stage).file.text = ""
  failed : report.failed.contains stage = true ↔ ∃ error, report.outcomes.get stage = .failed error
  digest : ∀ c, report.outcomes.get stage = .compiled c → report.header.get stage = c.digest ∧
    ∃ f, (e.flatten before (unit.get stage)).result = .ok f ∧
      c.digest = Digest.ofSource (unit.get stage).entryPoint f.text
  cached : ∀ c, report.outcomes.get stage = .compiled c →
    left.isFile c.cachePath = true ∧ c.cachePath.lastPart = c.digest.hex.toList
  zero : (∀ c, report.outcomes.get stage ≠ .compiled c) → report.header.get stage = .zero

variable (e name unit) in
/-- Every stage that there is is tried. -/
theorem get_outcomes_tryStages (stage : Stage) (s : Session σ) :
    (e.tryStages name unit s).1.outcomes.get stage =
      if (unit.get stage).isAbsent then .skipped
      else .ofResult (e.compileStage stage (unit.get stage) (e.reached name unit stage s)).1 := by
  rw [outcomes_tryStages, PerStage.get_ofFn, stageOutcome_eq]
  split <;> rfl

theorem get_outcomes_eq_skipped (stage : Stage) (s : Session σ) :
    (e.tryStages name unit s).1.outcomes.get stage = .skipped ↔ (unit.get stage).file.text = "" := by
  have habsent : (unit.get stage).isAbsent = true ↔ (unit.get stage).file.text = "" := beq_iff_eq
  rw [get_outcomes_tryStages, ← habsent]
  split
  · next ha => simp [ha]
  · next ha =>
    cases (e.compileStage stage (unit.get stage) (e.reached name unit stage s)).1 <;> simp [StageOutcome.ofResult, ha]

/-- A report of what was filled in agrees with all files that have what was in the cache after the last stage. -/
theorem reported_of_contains (hb : e.backend.Keeps e.cache) {s : Session σ} {report : CompileReport}
    {left : FileSystem} (ht : report.toTally = (e.tryStages name unit s).1)
    (hl : ∀ d, e.cache.contains (e.after name unit Stage.all s).files d = true → e.cache.contains left d = true)
    (stage : Stage) : e.Reported unit report stage (e.reached name unit stage s).files left := by
  have hagrees : report.toTally.Agrees := ht ▸ agrees_tryStages e name unit s
  have hstage : report.outcomes.get stage = (e.stageOutcome name unit stage (e.reached name unit stage s)).1 := by
    rw [ht, outcomes_tryStages, PerStage.get_ofFn]
  refine ⟨?_, ?_, fun c hc => ?_, fun c hc => ?_, fun hn => ?_⟩
  · rw [ht, get_outcomes_eq_skipped]
  · rw [hagrees.failed, StageOutcome.isFailed_iff]
  · obtain ⟨hsource, -, -⟩ := compiled_after hb (hstage.symm.trans hc)
    refine ⟨?_, hsource⟩
    rw [hagrees.digest, hc]
    rfl
  · obtain ⟨-, hpath, hthere⟩ := compiled_after hb (hstage.symm.trans hc)
    rw [hpath]
    exact ⟨hl _ hthere, Cache.lastPart_path _ _⟩
  · rw [hagrees.digest]
    cases hc : report.outcomes.get stage with
    | compiled c => exact absurd hc (hn c)
    | skipped => rfl
    | failed error => rfl

/-- A report, its object file and the cache agree. Every stage that a shader has is tried, whatever became
of those before it, and the object file is written after them, unless that itself fails. If it is, it is
read back as the header of the report, and for each stage the report, the header and the cache tell the
same. -/
theorem reports_agree (hb : e.backend.Keeps e.cache) (name : String) (unit : ShaderUnit) (s : Session σ) :
    (∀ stage, (e.tryStages name unit s).1.outcomes.get stage =
        if (unit.get stage).isAbsent then .skipped
        else .ofResult (e.compileStage stage (unit.get stage) (e.reached name unit stage s)).1) ∧
      (∀ error, (e.compileShader name unit s).1 = .error error ↔
        ((e.tryStages name unit s).1.header.write (e.after name unit Stage.all s).files
          (e.settings.objectPath name)).1 = .error error) ∧
      ∀ report t, e.compileShader name unit s = (.ok report, t) →
        report.toTally = (e.tryStages name unit s).1 ∧ report.name = name ∧
          report.objectPath = e.settings.objectPath name ∧
          Header.read t.files report.objectPath = .ok report.header ∧
          (report.isSuccess = true ↔ ∀ stage error, report.outcomes.get stage ≠ .failed error) ∧
          ∀ stage, e.Reported unit report stage (e.reached name unit stage s).files t.files := by
  have hsession := session_tryStages e name unit s
  refine ⟨fun stage => get_outcomes_tryStages e name unit stage s, fun error => ?_, fun report t h => ?_⟩
  · rw [compileShader_run, ← hsession]
    dsimp only
    generalize Header.write _ _ _ = written
    obtain ⟨result, files⟩ := written
    cases result <;> simp
  · rw [compileShader_run, hsession] at h
    dsimp only at h
    split at h
    · next files hw =>
      obtain ⟨hr, rfl⟩ := Prod.mk.inj h
      obtain rfl := Except.ok.inj hr
      refine ⟨rfl, rfl, rfl, Header.read_of_write hw, ?_, reported_of_contains hb rfl fun d hd => ?_⟩
      · refine (agrees_tryStages e name unit s).success.trans (forall_congr' fun stage => ?_)
        rw [← Bool.not_eq_true, StageOutcome.isFailed_iff, not_exists]
      · have hk := kept_write_header e.cache (e.tryStages name unit s).1.header e.settings name
          (e.after name unit Stage.all s).files
        rw [hw] at hk
        exact hk.contains d hd
    · cases h

/-- A shader with two stages that have the same source, and between them one whose source is missing. -/
def echoUnit : ShaderUnit := ⟨echoSource, { file := ⟨"gone.hlsl"⟩ }, {}, {}, echoSource⟩

/-- What becomes of its stages. -/
def echoOutcomes : PerStage StageOutcome where
  vertex := .compiled ⟨echoDigest, false, echo.cache.path echoDigest, [echoPlace]⟩
  hull := .failed (.fileNotFound ⟨"src/gone.hlsl"⟩)
  domain := .skipped
  geometry := .skipped
  pixel := .compiled ⟨echoDigest, true, echo.cache.path echoDigest, [echoPlace]⟩

/-- The session after the stages: that one of them failed was logged. -/
def echoNoted : Session (Unit × List Request) :=
  echoSession.note [.stageFailed "s" .hull (.fileNotFound ⟨"src/gone.hlsl"⟩)]

theorem stageOutcome_echoVertex :
    echo.stageOutcome "s" echoUnit .vertex echoStart.forget = (echoOutcomes.vertex, echoSession.forget) := by
  have hs : (echoUnit.get .vertex).isAbsent = false := by decide
  exact stageOutcome_of_attempt "s" hs attempt_echoFirst

theorem stageOutcome_echoHull :
    echo.stageOutcome "s" echoUnit .hull echoSession.forget = (echoOutcomes.hull, echoNoted.forget) := by
  have hp : (echoUnit.get .hull).isAbsent = false := by decide
  have hf : echo.settings.sourceDir.join (echoUnit.get .hull).file = ⟨"src/gone.hlsl"⟩ := by decide
  have hm : echoSession.forget.files.isFile ⟨"src/gone.hlsl"⟩ = false := by decide
  rw [stageOutcome_eq, hp, if_neg Bool.false_ne_true, compileStage_run, flatten, hf, hm, if_neg Bool.false_ne_true]
  rfl

theorem stageOutcome_echoPixel :
    echo.stageOutcome "s" echoUnit .pixel echoNoted.forget = (echoOutcomes.pixel, echoNoted.forget) := by
  have hs : (echoUnit.get .pixel).isAbsent = false := by decide
  have hflat : echo.flatten echoNoted.files echoSource = ⟨.ok ⟨"x\n", [echoPlace]⟩, []⟩ := flatten_echoSession
  exact stageOutcome_of_attempt "s" hs (attempt_of_found hflat ofSource_echo (by decide))

/-- What is filled in for the stages. -/
def echoTally : Tally := ⟨⟨⟨echoDigest, .zero, .zero, .zero, echoDigest⟩⟩, Stage.hull.flag, echoOutcomes⟩

theorem tryStages_echoUnit : echo.tryStages "s" echoUnit echoStart.forget = (echoTally, echoNoted.forget) :=
  tryStages_of_steps stageOutcome_echoVertex stageOutcome_echoHull rfl rfl stageOutcome_echoPixel

/-- The stage that fails keeps neither the later one nor the object file from being written. -/
theorem reports_agree_echoUnit :
    ∃ report t, echo.backend.Keeps echo.cache ∧ echo.compileShader "s" echoUnit echoStart.forget = (.ok report, t) ∧
      report.failed = Stage.hull.flag ∧
      Header.read t.files report.objectPath = .ok ⟨⟨echoDigest, .zero, .zero, .zero, echoDigest⟩⟩ ∧
      t.files.isFile (echo.cache.path echoDigest) = true := by
  have hw : (echoTally.header.write echoNoted.forget.files (echo.settings.objectPath "s")).1 = .ok () :=
    eq_ok_of_toOption (by decide +kernel)
  have hrun := echo.compileShader_run "s" echoUnit echoStart.forget
  rw [tryStages_echoUnit] at hrun
  dsimp only at hrun
  generalize hwritten : Header.write _ _ _ = written at hw hrun
  obtain ⟨result, files⟩ := written
  obtain rfl : result = .ok () := hw
  obtain ⟨-, -, hagree⟩ := reports_agree echo_keeps "s" echoUnit echoStart.forget
  obtain ⟨-, -, -, hread, -, hstages⟩ := hagree _ _ hrun
  exact ⟨_, _, echo_keeps, hrun, rfl, hread, ((hstages .vertex).cached _ rfl).1⟩

end Engine

end ShaderBuild
