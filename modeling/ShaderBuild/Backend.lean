import ShaderBuild.Error
import ShaderBuild.FileSystem
/-!
# Backends

A backend turns the flattened source of a stage into bytecode. It may read and change files, and it
may have a state of its own.
-/

namespace ShaderBuild

/-- What a build works on: the files, the state of its backend, and the log. -/
structure Session (σ : Type) where
  files : FileSystem
  backend : σ
  log : List Record := []

/-- The session with more records in the log. -/
def Session.note {σ : Type} (s : Session σ) (records : List Record) : Session σ :=
  { s with log := s.log ++ records }

/-- The session with warnings in the log. -/
def Session.warn {σ : Type} (s : Session σ) (warnings : List Warning) : Session σ :=
  s.note (warnings.map .warning)

namespace Session
variable {σ : Type} (s : Session σ)

@[simp] theorem files_note (records : List Record) : (s.note records).files = s.files := rfl

@[simp] theorem backend_note (records : List Record) : (s.note records).backend = s.backend := rfl

@[simp] theorem log_note (records : List Record) : (s.note records).log = s.log ++ records := rfl

@[simp] theorem note_nil : s.note [] = s := by rw [note, List.append_nil]

@[simp] theorem files_warn (warnings : List Warning) : (s.warn warnings).files = s.files := rfl

@[simp] theorem backend_warn (warnings : List Warning) : (s.warn warnings).backend = s.backend := rfl

@[simp] theorem log_warn (warnings : List Warning) : (s.warn warnings).log = s.log ++ warnings.map .warning := rfl

@[simp] theorem warn_nil : s.warn [] = s := s.note_nil

end Session

/-- A computation that works on a session. What it did remains when it fails. -/
abbrev Build (σ : Type) := ExceptT Error (StateM (Session σ))

/-- What a backend is asked to compile. -/
structure Request where
  source : String
  entryPoint : String
  stage : Stage
  deriving DecidableEq, Repr

/-- A backend with a state of type `σ`. -/
structure Backend (σ : Type) where
  /-- The format of the bytecode. Each format has a cache of its own. -/
  id : Nat
  /-- The bytecode, or a text that says what is wrong. -/
  compile : Request → Session σ → Except String Bytes × Session σ

end ShaderBuild
