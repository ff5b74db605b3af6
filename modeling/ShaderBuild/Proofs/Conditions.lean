import Mathlib.Data.List.Infix
import ShaderBuild.Condition
/-!
# Conditionals and their own conditions

A stack keeps one visibility for each open scope. In hidden text the condition of a conditional is not kept, and its
other branch is found by turning the visibility. Proven here: this is as good as keeping the conditions themselves and
turning those (`refines_conditions`). Every stack is made up of the conditions of its open conditionals
(`ofConditions`), for a step leads from such a stack to the one for the conditions that it leads to
(`step_ofConditions`).
-/

namespace ShaderBuild.ConditionStack

/-- What can be done to the open conditionals. -/
inductive Step where
  /-- Open one with this condition. -/
  | push (condition : Bool)
  /-- Go to the other branch of the innermost one. -/
  | flip
  /-- Close the innermost one. -/
  | pop
  deriving DecidableEq, Repr

/-- Whether a step is done, and the stack afterwards. -/
def step (s : ConditionStack) : Step → Bool × ConditionStack
  | .push condition => (true, s.push condition)
  | .flip => s.flip
  | .pop => s.pop

/-- The same for the conditions of the open conditionals themselves, innermost first. -/
def stepConditions : List Bool → Step → Bool × List Bool
  | conditions, .push condition => (true, condition :: conditions)
  | [], .flip => (false, [])
  | condition :: outer, .flip => (true, (!condition) :: outer)
  | [], .pop => (false, [])
  | _ :: outer, .pop => (true, outer)

/-- What there is after these steps. -/
def after {α : Type} (step : α → Step → Bool × α) (start : α) (steps : List Step) : α :=
  steps.foldl (fun a s => (step a s).2) start

/-- The stack for open conditionals with these conditions. -/
def ofConditions : List Bool → ConditionStack
  | [] => root
  | condition :: outer => (ofConditions outer).push condition

/-! ## One more conditional -/

section Push
variable (s : ConditionStack) (condition : Bool)

@[simp] theorem states_push : (s.push condition).states = (s.isVisible && condition) :: s.states := rfl

@[simp] theorem isVisible_push : (s.push condition).isVisible = (s.isVisible && condition) := rfl

@[simp] theorem depth_push : (s.push condition).depth = s.depth + 1 := rfl

@[simp] theorem pop_push : (s.push condition).pop = (true, s) := s.pop_cons _

/-- In hidden text the condition is not kept, but there the other branch is hidden, too. -/
@[simp] theorem flip_push : (s.push condition).flip = (true, s.push (!condition)) := by
  have hturn : (s.isVisible && !(s.isVisible && condition)) = (s.isVisible && !condition) := by
    cases s.isVisible <;> rfl
  rw [push, flip_cons]
  simp only [push, hturn]

end Push

/-! ## Steps -/

/-- A step is done on the stack if it is done on the conditions, and makes of the one what it makes of the others. -/
theorem step_ofConditions (conditions : List Bool) (step : Step) :
    (ofConditions conditions).step step =
      ((stepConditions conditions step).1, ofConditions (stepConditions conditions step).2) := by
  cases step with
  | push condition => rfl
  | flip =>
    cases conditions with
    | nil => rfl
    | cons condition outer => exact flip_push (ofConditions outer) condition
  | pop =>
    cases conditions with
    | nil => rfl
    | cons condition outer => exact pop_push (ofConditions outer) condition

theorem after_ofConditions (conditions : List Bool) (steps : List Step) :
    after step (ofConditions conditions) steps = ofConditions (after stepConditions conditions steps) := by
  induction steps generalizing conditions with
  | nil => rfl
  | cons s steps ih =>
    simp only [after, List.foldl_cons] at ih ⊢
    rw [step_ofConditions, ih]

theorem stepConditions_eq_false {conditions : List Bool} {step : Step} :
    (stepConditions conditions step).1 = false ↔ conditions = [] ∧ (step = .flip ∨ step = .pop) := by
  cases step <;> cases conditions <;> simp [stepConditions]

/-- A step that is not done leaves the stack as it was. -/
theorem step_of_refused {s : ConditionStack} {step : Step} (h : (s.step step).1 = false) : (s.step step).2 = s := by
  cases step with
  | push condition => cases h
  | flip =>
    simp only [ConditionStack.step, flip] at h ⊢
    split at h
    · cases h
    · rfl
  | pop =>
    simp only [ConditionStack.step, pop] at h ⊢
    split at h
    · cases h
    · rfl

/-! ## Stacks -/

theorem isVisible_ofConditions (conditions : List Bool) :
    (ofConditions conditions).isVisible = true ↔ ∀ condition ∈ conditions, condition = true := by
  induction conditions with
  | nil => simp [ofConditions, root, isVisible]
  | cons condition outer ih => rw [ofConditions, isVisible_push, Bool.and_eq_true, ih, List.forall_mem_cons, and_comm]

theorem depth_ofConditions (conditions : List Bool) : (ofConditions conditions).depth = 1 + conditions.length := by
  induction conditions with
  | nil => rfl
  | cons condition outer ih => rw [ofConditions, depth_push, ih, List.length_cons, Nat.add_assoc]

theorem getLast?_states (conditions : List Bool) : (ofConditions conditions).states.getLast? = some true := by
  induction conditions with
  | nil => rfl
  | cons condition outer ih => rw [ofConditions, states_push, List.getLast?_cons, ih, Option.getD_some]

/-- What is around visible text is visible. -/
theorem visible_around {conditions : List Bool} (h : (ofConditions conditions).isVisible = true) :
    ∀ visible ∈ (ofConditions conditions).states, visible = true := by
  induction conditions with
  | nil => simp [ofConditions, root]
  | cons condition outer ih =>
    rw [ofConditions, isVisible_push] at h
    rw [ofConditions, states_push]
    exact List.forall_mem_cons.2 ⟨h, ih (Bool.and_eq_true_iff.1 h).1⟩

theorem pairwise_states (conditions : List Bool) :
    (ofConditions conditions).states.Pairwise fun inner outer => inner = true → outer = true := by
  induction conditions with
  | nil => exact List.pairwise_singleton _ _
  | cons condition outer ih =>
    rw [ofConditions, states_push]
    refine List.pairwise_cons.2 ⟨fun visible hmem hinner => ?_, ih⟩
    exact visible_around (Bool.and_eq_true_iff.1 hinner).1 visible hmem

/-- Whatever is done to the open conditionals, the stack tells what their own conditions tell. Text is visible where
all of them hold, and a step is refused where there is no conditional to turn or to close, and then changes nothing.
The file is always visible, and nothing is visible in hidden text. -/
theorem refines_conditions (steps : List Step) :
    let s := after step root steps
    let conditions := after stepConditions [] steps
    (s.isVisible = true ↔ ∀ condition ∈ conditions, condition = true) ∧
      s.depth = 1 + conditions.length ∧
      (∀ step, (s.step step).1 = false ↔ conditions = [] ∧ (step = .flip ∨ step = .pop)) ∧
      (∀ step, (s.step step).1 = false → (s.step step).2 = s) ∧
      s.states.getLast? = some true ∧
      s.states.Pairwise fun inner outer => inner = true → outer = true := by
  intro s conditions
  have hs : s = ofConditions conditions := after_ofConditions [] steps
  refine ⟨?_, ?_, fun step => ?_, fun step => step_of_refused, ?_, ?_⟩
  · rw [hs]
    exact isVisible_ofConditions conditions
  · rw [hs]
    exact depth_ofConditions conditions
  · rw [hs, step_ofConditions]
    exact stepConditions_eq_false
  · rw [hs]
    exact getLast?_states conditions
  · rw [hs]
    exact pairwise_states conditions

/-- In hidden text, the other branch of a conditional is hidden whatever its condition. -/
example : (after step root [.push false, .push true, .flip, .push true]).states = [false, false, false, true] ∧
    after stepConditions [] [.push false, .push true, .flip, .push true] = [true, false, false] := by decide

end ShaderBuild.ConditionStack
