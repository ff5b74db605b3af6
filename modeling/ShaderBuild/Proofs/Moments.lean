import Mathlib.Logic.Function.Iterate
import ShaderBuild.Preprocess
/-!
# The moments of a run

`run` follows an include by calling itself. Here the same work is done one line at a time, with the files
that are open kept in a list (`advance`), so that one can speak of every moment of a run. Nothing bounds
this list beforehand, and nothing makes the steps end.

`later_eq_ofResult` says that the steps come to the end of a file as `run` does, by induction over `run`.
So every run ends, and with what flattening gives (`exists_moment_ended`).
-/

namespace ShaderBuild.Preprocessor

/-! ## Moments -/

/-- A file that is open. -/
structure Opened where
  /-- The path that diagnostics name, and that includes are relative to. -/
  file : Path
  /-- The place of the file. A text that was given may stand for none. -/
  place? : Option Location
  /-- The number of the next line. -/
  number : Nat
  conditions : ConditionStack
  /-- The lines that are left. -/
  lines : List Line

/-- A moment of a run. -/
inductive Moment where
  /-- A file is being processed. It was included by the first of the others, and so on. -/
  | working (here : Opened) (includers : List Opened) (s : State)
  | ended (result : Except Failure State)

namespace Moment

/-- The files that are open, innermost first. -/
def files : Moment → List Opened
  | working here includers _ => here :: includers
  | ended _ => []

/-- The places of the files that are open, innermost first. -/
def stack (m : Moment) : List Location := m.files.filterMap Opened.place?

/-- What follows the end of a file that was included by the first of some files. -/
def resume : List Opened → State → Moment
  | [], s => ended (.ok s)
  | here :: includers, s => working here includers s.endLine

/-- What follows the end of a file or its failure. -/
def ofResult (includers : List Opened) : Except Failure State → Moment
  | .ok s => resume includers s
  | .error f => ended (.error f)

/-- What flattening gives, once it has come to its end. -/
def flattened? : Moment → Option Flattened
  | ended (.ok s) => some ⟨s.output, s.dependencies⟩
  | _ => none

end Moment

/-- What is flattened. -/
inductive Root where
  | file (p : Path)
  /-- A text that goes by the name `origin`. -/
  | text (text : String) (origin : Path)
  deriving DecidableEq, Repr

section Steps
variable (c : Preprocessor) (fs : FileSystem)

/-- A file that has just been opened. -/
def opened (place : Location) (text : String) : Opened := ⟨place.path, some place, 1, .root, c.linesOf text⟩

/-- Flatten a file or a text. -/
def process (macros : List Macro) : Root → Logged Flattened
  | .file p => c.processFile fs p macros
  | .text text origin => c.processText fs text origin macros

/-- The moment that a run starts with. -/
def start (macros : List Macro) : Root → Moment
  | .file p =>
    match openFile fs [] p with
    | .error e => .ended (.error ⟨e, []⟩)
    | .ok (place, text) => .working (c.opened place text) [] (State.depend { macros := .ofList macros } place)
  | .text text origin =>
    .working ⟨origin, anchor? fs origin, 1, .root, c.linesOf text⟩ [] { macros := .ofList macros }

/-- Process a line, or close a file that has none left. -/
def advance : Moment → Moment
  | .ended result => .ended result
  | .working here includers s =>
    match here.lines with
    | [] => .resume includers (s.closeFile here.file here.conditions)
    | line :: rest =>
      match act here.file here.number here.conditions s line with
      | .fail fault => .ended (.error ⟨.directive here.file here.number fault, s.warnings⟩)
      | .proceed conditions s =>
        .working { here with number := here.number + 1, conditions := conditions, lines := rest } includers s
      | .enter reference =>
        match c.enter fs here.file (Moment.stack (.working here includers s)) reference with
        | .error e => .ended (.error ⟨e, s.warnings⟩)
        | .ok (place, text) =>
          .working (c.opened place text) ({ here with number := here.number + 1, lines := rest } :: includers)
            (s.depend place)

/-- A moment some steps after another. -/
def later (m : Moment) (steps : Nat) : Moment := (c.advance fs)^[steps] m

/-- A moment of the run that flattens something, that many steps after its start. -/
def moment (macros : List Macro) (root : Root) (steps : Nat) : Moment := c.later fs (c.start fs macros root) steps

/-! ## Runs come to an end -/

theorem later_add (m : Moment) (steps others : Nat) :
    c.later fs m (steps + others) = c.later fs (c.later fs m steps) others := by
  rw [later, Nat.add_comm, Function.iterate_add_apply]
  rfl

theorem later_succ (m : Moment) (steps : Nat) : c.later fs m (steps + 1) = c.advance fs (c.later fs m steps) :=
  Function.iterate_succ_apply' ..

theorem later_ended (result : Except Failure State) (steps : Nat) :
    c.later fs (.ended result) steps = .ended result :=
  Function.iterate_fixed rfl steps

/-- A first step, and then some others. -/
theorem exists_later {m m' m'' : Moment} (h : c.advance fs m = m') (h' : ∃ steps, c.later fs m' steps = m'') :
    ∃ steps, c.later fs m steps = m'' := by
  obtain ⟨steps, hs⟩ := h'
  exact ⟨steps + 1, by rw [later, Function.iterate_succ_apply, h]; exact hs⟩

/-- The steps come to the end of a file, or to its failure, as `run` does. -/
theorem later_eq_ofResult (file : Path) (stack : List Location) (number : Nat) (conditions : ConditionStack)
    (lines : List Line) (s : State) : ∀ (place? : Option Location) (includers : List Opened),
      Moment.stack (.working ⟨file, place?, number, conditions, lines⟩ includers s) = stack →
      ∃ steps, c.later fs (.working ⟨file, place?, number, conditions, lines⟩ includers s) steps =
        .ofResult includers (c.run fs file stack number conditions lines s) := by
  fun_induction c.run fs file stack number conditions lines s with
  | case1 file stack number conditions s =>
    intro place? includers hs
    exact ⟨1, rfl⟩
  | case2 file stack number conditions s line rest fault ha =>
    intro place? includers hs
    refine ⟨1, ?_⟩
    simp only [later, Function.iterate_one, advance, ha]
    rfl
  | case3 file stack number conditions s line rest conditions' t ha ih =>
    intro place? includers hs
    exact c.exists_later fs (by simp only [advance, ha]) (ih place? includers hs)
  | case4 file stack number conditions s line rest reference ha e he =>
    intro place? includers hs
    refine ⟨1, ?_⟩
    simp only [later, Function.iterate_one, advance, ha, hs, he]
    rfl
  | case5 file stack number conditions s line rest reference ha place text he f hf ih =>
    intro place? includers hs
    -- The included file is processed with this one put off, and fails.
    have hin := ih (some place) (⟨file, place?, number + 1, conditions, rest⟩ :: includers)
      (congrArg (place :: ·) hs)
    rw [hf] at hin
    exact c.exists_later fs (by simp only [advance, ha, hs, he]; rfl) hin
  | case6 file stack number conditions s line rest reference ha place text he t ht ih ihr =>
    intro place? includers hs
    -- It comes to its end, and this file is resumed.
    obtain ⟨steps, hin⟩ := ih (some place) (⟨file, place?, number + 1, conditions, rest⟩ :: includers)
      (congrArg (place :: ·) hs)
    obtain ⟨steps', hout⟩ := ihr place? includers hs
    rw [ht] at hin
    refine c.exists_later fs (by simp only [advance, ha, hs, he]; rfl) ⟨steps + steps', ?_⟩
    rw [later_add]
    exact (congrArg (c.later fs · steps') hin).trans hout

/-- Every run ends, and with what flattening gives. -/
theorem exists_moment_ended (macros : List Macro) (root : Root) :
    ∃ steps result, c.moment fs macros root steps = .ended result ∧ c.process fs macros root = finish result := by
  cases root with
  | file p =>
    simp only [moment, start, process, processFile]
    cases openFile fs [] p with
    | error e => exact ⟨0, _, rfl, rfl⟩
    | ok found =>
      obtain ⟨place, text⟩ := found
      obtain ⟨steps, h⟩ := c.later_eq_ofResult fs place.path [place] 1 .root (c.linesOf text)
        (State.depend { macros := .ofList macros } place) (some place) [] rfl
      refine ⟨steps, _, h.trans ?_, rfl⟩
      cases c.run fs place.path [place] 1 .root (c.linesOf text) _ <;> rfl
  | text text origin =>
    obtain ⟨steps, h⟩ := c.later_eq_ofResult fs origin (anchor? fs origin).toList 1 .root (c.linesOf text)
      { macros := .ofList macros } (anchor? fs origin) [] (by cases anchor? fs origin <;> rfl)
    refine ⟨steps, _, h.trans ?_, rfl⟩
    cases c.run fs origin (anchor? fs origin).toList 1 .root (c.linesOf text) _ <;> rfl

/-- A run that ends has a last step, or ended when it started. -/
theorem exists_last {m : Moment} {steps : Nat} {result : Except Failure State}
    (h : c.later fs m steps = .ended result) :
    m = .ended result ∨ ∃ before here includers s,
      c.later fs m before = .working here includers s ∧ c.advance fs (.working here includers s) = .ended result := by
  induction steps with
  | zero => exact .inl h
  | succ steps ih =>
    rw [later_succ] at h
    cases hm : c.later fs m steps with
    | ended result' =>
      rw [hm] at h
      exact ih (hm.trans h)
    | working here includers s =>
      rw [hm] at h
      exact .inr ⟨steps, here, includers, s, hm, h⟩

theorem later_unique {m : Moment} {steps steps' : Nat} {result result' : Except Failure State}
    (h : c.later fs m steps = .ended result) (h' : c.later fs m steps' = .ended result') : result = result' := by
  have both : c.later fs m (steps + steps') = c.later fs m (steps' + steps) := by rw [Nat.add_comm]
  rw [later_add, later_add, h, h', later_ended, later_ended] at both
  exact Moment.ended.inj both

/-- A run is known from any moment after its end. -/
theorem result_of_flattened? {macros : List Macro} {root : Root} {steps : Nat} {r : Flattened}
    (h : (c.moment fs macros root steps).flattened? = some r) : (c.process fs macros root).result = .ok r := by
  obtain ⟨steps', result, hend, hprocess⟩ := c.exists_moment_ended fs macros root
  cases hm : c.moment fs macros root steps with
  | working here includers s =>
    rw [hm] at h
    cases h
  | ended result' =>
    rw [hm] at h
    cases result' with
    | error f => cases h
    | ok s =>
      rw [hprocess, c.later_unique fs hend hm]
      exact congrArg Except.ok (Option.some.inj h)

end Steps

end ShaderBuild.Preprocessor
