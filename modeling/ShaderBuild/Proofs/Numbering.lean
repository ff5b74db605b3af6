import ShaderBuild.Proofs.LockStep
/-!
# Flattening without line numbers

Proven once for everything that moves lines about: the same lines do the same wherever they stand in a
file. `unnumbered` takes the line numbers out of what a run ends with, and `unnumbered_run` says that the
number of the first line matters for nothing else.
-/

namespace ShaderBuild

/-- A warning without the number of its line. -/
def Warning.unnumbered : Warning → Warning
  | .unknownDirective file _ text => .unknownDirective file 0 text
  | w => w

/-- An error without the number of its line. -/
def Error.unnumbered : Error → Error
  | .directive file _ fault => .directive file 0 fault
  | .declaration _ fault => .declaration 0 fault
  | .manifest _ fault => .manifest 0 fault
  | e => e

namespace Preprocessor

/-- A state without the line numbers in its warnings. -/
def State.unnumbered (s : State) : State := { s with warnings := s.warnings.map Warning.unnumbered }

/-- A failure without line numbers. -/
def Failure.unnumbered (f : Failure) : Failure := ⟨f.error.unnumbered, f.warnings.map Warning.unnumbered⟩

/-- The end of a run without line numbers. -/
def unnumbered : Except Failure State → Except Failure State
  | .ok s => .ok s.unnumbered
  | .error f => .error f.unnumbered

/-- What a line asks for, without line numbers. -/
def Action.unnumbered : Action → Action
  | .proceed conditions s => .proceed conditions s.unnumbered
  | a => a

/-! ## Runs do not depend on line numbers -/

section Numbers
variable {s s' : State} (h : s.unnumbered = s'.unnumbered)
include h

theorem State.unnumbered_eq :
    s.macros = s'.macros ∧ s.output = s'.output ∧ s.dependencies = s'.dependencies ∧
      s.warnings.map Warning.unnumbered = s'.warnings.map Warning.unnumbered := by
  simpa [State.unnumbered] using h

theorem unnumbered_write (line : Line) : (s.write line).unnumbered = (s'.write line).unnumbered := by
  obtain ⟨hm, ho, hd, hw⟩ := State.unnumbered_eq h
  simp [State.write, State.unnumbered, hm, ho, hd, hw]

theorem unnumbered_endLine : s.endLine.unnumbered = s'.endLine.unnumbered := by
  obtain ⟨hm, ho, hd, hw⟩ := State.unnumbered_eq h
  have hl : s.isInLine = s'.isInLine := by rw [State.isInLine, State.isInLine, ho]
  simp only [State.endLine, hl]
  split <;> simp [State.unnumbered, hm, ho, hd, hw]

theorem unnumbered_depend (place : Location) : (s.depend place).unnumbered = (s'.depend place).unnumbered := by
  obtain ⟨hm, ho, hd, hw⟩ := State.unnumbered_eq h
  simp only [State.depend, hd]
  split <;> simp [State.unnumbered, hm, ho, hd, hw]

theorem unnumbered_warn {w w' : Warning} (hww : w.unnumbered = w'.unnumbered) :
    (s.warn w).unnumbered = (s'.warn w').unnumbered := by
  obtain ⟨hm, ho, hd, hw⟩ := State.unnumbered_eq h
  simp [State.warn, State.unnumbered, hm, ho, hd, hw, hww]

theorem unnumbered_closeFile (file : Path) (conditions : ConditionStack) :
    (s.closeFile file conditions).unnumbered = (s'.closeFile file conditions).unnumbered := by
  simp only [State.closeFile]
  split
  · exact unnumbered_warn h rfl
  · exact h

theorem unnumbered_macros (f : MacroTable → MacroTable) :
    ({ s with macros := f s.macros } : State).unnumbered =
      ({ s' with macros := f s'.macros } : State).unnumbered := by
  obtain ⟨hm, ho, hd, hw⟩ := State.unnumbered_eq h
  simp [State.unnumbered, hm, ho, hd, hw]

theorem unnumbered_failure {e e' : Error} (he : e.unnumbered = e'.unnumbered) :
    unnumbered (.error ⟨e, s.warnings⟩) = unnumbered (.error ⟨e', s'.warnings⟩) := by
  simp [unnumbered, Failure.unnumbered, he, (State.unnumbered_eq h).2.2.2]

/-- A directive asks for the same on every line. -/
theorem unnumbered_follow (file : Path) (number number' : Nat) (conditions : ConditionStack) (d : Directive) :
    (follow file number conditions s d).unnumbered = (follow file number' conditions s' d).unnumbered := by
  have hm := (State.unnumbered_eq h).1
  cases d with
  | includeFile reference =>
    simp only [follow]
    split
    · rfl
    · exact congrArg (Action.proceed conditions) h
  | define name value =>
    simp only [follow, Action.unnumbered, Action.proceed.injEq, true_and]
    split
    · exact unnumbered_macros h (·.insert name value)
    · exact h
  | undefine name =>
    simp only [follow, Action.unnumbered, Action.proceed.injEq, true_and]
    split
    · exact unnumbered_macros h (·.erase name)
    · exact h
  | openIf defined name => simp only [follow, Action.unnumbered, hm, h]
  | otherwise =>
    simp only [follow]
    split
    · exact congrArg (Action.proceed _) h
    · rfl
  | close =>
    simp only [follow]
    split
    · exact congrArg (Action.proceed _) h
    · rfl
  | invalid fault opensConditional =>
    simp only [follow]
    split
    · rfl
    · exact congrArg (Action.proceed conditions) h
  | unknown line =>
    simp only [follow, Action.unnumbered, Action.proceed.injEq, true_and]
    split
    · exact unnumbered_warn h rfl
    · exact h

theorem unnumbered_act (file : Path) (number number' : Nat) (conditions : ConditionStack) (line : Line) :
    (act file number conditions s line).unnumbered = (act file number' conditions s' line).unnumbered := by
  simp only [act]
  split
  · exact unnumbered_follow h file number number' conditions _
  · simp only [Action.unnumbered, Action.proceed.injEq, true_and]
    split
    · exact unnumbered_write h line
    · exact h

end Numbers

theorem related_of_unnumbered {a a' : Action} (h : a.unnumbered = a'.unnumbered) :
    a.Related (fun s s' => s.unnumbered = s'.unnumbered) a' := by
  cases a with
  | proceed conditions s =>
    cases a' with
    | proceed conditions' s' =>
      obtain ⟨rfl, hs⟩ := Action.proceed.inj h
      exact .proceed _ hs
    | _ => cases h
  | enter reference =>
    cases a' with
    | enter reference' => exact Action.enter.inj h ▸ .enter _
    | _ => cases h
  | fail fault =>
    cases a' with
    | fail fault' => exact Action.fail.inj h ▸ .fail _
    | _ => cases h

/-- All lines keep states alike that differ in line numbers only. -/
theorem matched_unnumbered :
    Matched (fun _ => True) (fun _ _ => True) (fun f f' => f.unnumbered = f'.unnumbered)
      fun s s' => s.unnumbered = s'.unnumbered where
  first := trivial
  next _ := trivial
  act h file n n' _ conditions line _ := related_of_unnumbered (unnumbered_act h file n n' conditions line)
  depend h place := unnumbered_depend h place
  endLine h := unnumbered_endLine h
  closeFile h file conditions := unnumbered_closeFile h file conditions
  fault h _ _ _ _ _ := Except.error.inj (unnumbered_failure h rfl)
  error h _ := Except.error.inj (unnumbered_failure h rfl)

section Runs
variable (c : Preprocessor) (fs : FileSystem) (file : Path) (stack : List Location)

/-- The same lines do the same wherever they stand in a file. -/
theorem unnumbered_run (number : Nat) (conditions : ConditionStack) (lines : List Line) (s : State) :
    ∀ (number' : Nat) (s' : State), s.unnumbered = s'.unnumbered →
      unnumbered (c.run fs file stack number conditions lines s) =
        unnumbered (c.run fs file stack number' conditions lines s') := by
  intro number' s' h
  have hrun : EndAlike (fun f f' => f.unnumbered = f'.unnumbered) (fun s s' => s.unnumbered = s'.unnumbered)
      (c.run fs file stack number conditions lines s) (c.run fs file stack number' conditions lines s') :=
    matched_unnumbered.run (fun _ _ _ _ _ => trivial) file stack number conditions lines s number' s' trivial h
      fun _ _ => trivial
  generalize c.run fs file stack number conditions lines s = r at hrun ⊢
  generalize c.run fs file stack number' conditions lines s' = r' at hrun ⊢
  cases hrun with
  | ok ht => exact congrArg Except.ok ht
  | error hf => exact congrArg Except.error hf

end Runs

end Preprocessor

end ShaderBuild
