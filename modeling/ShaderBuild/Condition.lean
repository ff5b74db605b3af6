/-!
# Conditional scopes

A stack with an entry for every scope that is open, innermost first. An entry says whether text is
visible there, so it already takes the scopes around it into account. The last entry is that of the
file itself, which is never closed.
-/

namespace ShaderBuild

/-- The visibility of each open scope, innermost first. -/
structure ConditionStack where
  states : List Bool := [true]
  nonempty : states ≠ [] := by decide
  deriving DecidableEq, Repr

namespace ConditionStack

/-- No conditional is open. -/
def root : ConditionStack := {}

/-- Is text visible here? -/
def isVisible (s : ConditionStack) : Bool := s.states.headD true

/-- The number of scopes, the file included. -/
def depth (s : ConditionStack) : Nat := s.states.length

/-- Open a conditional with this condition. -/
def push (s : ConditionStack) (condition : Bool) : ConditionStack :=
  ⟨(s.isVisible && condition) :: s.states, List.cons_ne_nil _ _⟩

/-- Go to the other branch of the innermost conditional. Is one open? -/
def flip (s : ConditionStack) : Bool × ConditionStack :=
  match s.states with
  | here :: around :: outer => (true, ⟨(around && !here) :: around :: outer, List.cons_ne_nil _ _⟩)
  | _ => (false, s)

/-- Close the innermost conditional. Is one open? -/
def pop (s : ConditionStack) : Bool × ConditionStack :=
  match s.states with
  | _ :: around :: outer => (true, ⟨around :: outer, List.cons_ne_nil _ _⟩)
  | _ => (false, s)

/-- The other branch of a conditional is visible if its condition does not hold, and what is around it is visible. -/
theorem flip_cons (s : ConditionStack) (here : Bool) :
    (⟨here :: s.states, List.cons_ne_nil _ _⟩ : ConditionStack).flip =
      (true, ⟨(s.isVisible && !here) :: s.states, List.cons_ne_nil _ _⟩) := by
  obtain ⟨states, hne⟩ := s
  cases states with
  | nil => exact absurd rfl hne
  | cons => rfl

/-- A conditional is closed above any scopes. -/
theorem pop_cons (s : ConditionStack) (here : Bool) :
    (⟨here :: s.states, List.cons_ne_nil _ _⟩ : ConditionStack).pop = (true, s) := by
  obtain ⟨states, hne⟩ := s
  cases states with
  | nil => exact absurd rfl hne
  | cons => rfl

end ConditionStack

end ShaderBuild
