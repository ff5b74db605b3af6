import ShaderBuild.Preprocess
/-!
# Runs in lock step

Two runs over the same lines stay together if every line takes related states to related states: through
conditionals, and into the same included files (`Matched.run`). What the states have in common, how their
failures compare and which lines they may meet is up to the user of the lemma.
-/

namespace ShaderBuild.Preprocessor

section Lines
variable (c : Preprocessor) (fs : FileSystem) (file : Path) (stack : List Location)

/-- One line of a run, followed by the rest of it. -/
theorem run_cons (number : Nat) (conditions : ConditionStack) (line : Line) (rest : List Line) (s : State) :
    c.run fs file stack number conditions (line :: rest) s =
      match act file number conditions s line with
      | .fail fault => .error ⟨.directive file number fault, s.warnings⟩
      | .proceed conditions s => c.run fs file stack (number + 1) conditions rest s
      | .enter reference =>
        match c.enter fs file stack reference with
        | .error e => .error ⟨e, s.warnings⟩
        | .ok (place, text) =>
          match c.run fs place.path (place :: stack) 1 .root (c.linesOf text) (s.depend place) with
          | .error f => .error f
          | .ok s => c.run fs file stack (number + 1) conditions rest s.endLine := by
  rw [run]
  cases act file number conditions s line with
  | fail fault => rfl
  | proceed conditions' s' => rfl
  | enter reference =>
    dsimp only
    cases c.enter fs file stack reference with
    | error e => rfl
    | ok found => rfl

/-- A line that asks to go on. -/
theorem run_proceed {number : Nat} {conditions conditions' : ConditionStack} {line : Line} {s s' : State}
    (h : act file number conditions s line = .proceed conditions' s') (rest : List Line) :
    c.run fs file stack number conditions (line :: rest) s =
      c.run fs file stack (number + 1) conditions' rest s' := by
  rw [run_cons, h]

end Lines

/-- Two actions that are the same, but for states that are related by `R`. -/
inductive Action.Related (R : State → State → Prop) : Action → Action → Prop
  | proceed (conditions : ConditionStack) {s s' : State} (h : R s s') :
    Related R (.proceed conditions s) (.proceed conditions s')
  | enter (reference : Reference) : Related R (.enter reference) (.enter reference)
  | fail (fault : DirectiveFault) : Related R (.fail fault) (.fail fault)

/-- Two runs that end alike: in states that are related by `R`, or in failures that are related by `E`. -/
inductive EndAlike (E : Failure → Failure → Prop) (R : State → State → Prop) :
    Except Failure State → Except Failure State → Prop
  | ok {s s' : State} (h : R s s') : EndAlike E R (.ok s) (.ok s')
  | error {f f' : Failure} (h : E f f') : EndAlike E R (.error f) (.error f')

/-- Lines that satisfy `P` keep states related by `R`, if their numbers are related by `N`. -/
structure Matched (P : Line → Prop) (N : Nat → Nat → Prop) (E : Failure → Failure → Prop)
    (R : State → State → Prop) : Prop where
  first : N 1 1
  next {n n' : Nat} : N n n' → N (n + 1) (n' + 1)
  act {s s' : State} (h : R s s') (file : Path) {n n' : Nat} (hn : N n n') (conditions : ConditionStack)
    {line : Line} (hl : P line) :
    (Preprocessor.act file n conditions s line).Related R (Preprocessor.act file n' conditions s' line)
  depend {s s' : State} (h : R s s') (place : Location) : R (s.depend place) (s'.depend place)
  endLine {s s' : State} (h : R s s') : R s.endLine s'.endLine
  closeFile {s s' : State} (h : R s s') (file : Path) (conditions : ConditionStack) :
    R (s.closeFile file conditions) (s'.closeFile file conditions)
  fault {s s' : State} (h : R s s') (file : Path) {n n' : Nat} (hn : N n n') (fault : DirectiveFault) :
    E ⟨.directive file n fault, s.warnings⟩ ⟨.directive file n' fault, s'.warnings⟩
  error {s s' : State} (h : R s s') (e : Error) : E ⟨e, s.warnings⟩ ⟨e, s'.warnings⟩

/-- All lines of the files that can be read satisfy `P`. -/
def Throughout (c : Preprocessor) (fs : FileSystem) (P : Line → Prop) : Prop :=
  ∀ place text, fs.readTextAt place = .ok text → ∀ l ∈ c.linesOf text, P l

variable {c : Preprocessor} {fs : FileSystem} {P : Line → Prop} {N : Nat → Nat → Prop}
  {E : Failure → Failure → Prop} {R : State → State → Prop}

theorem Matched.run (h : Matched P N E R) (hfs : c.Throughout fs P) (file : Path) (stack : List Location)
    (number : Nat) (conditions : ConditionStack) (lines : List Line) (s : State) :
    ∀ (number' : Nat) (s' : State), N number number' → R s s' → (∀ l ∈ lines, P l) →
      EndAlike E R (c.run fs file stack number conditions lines s)
        (c.run fs file stack number' conditions lines s') := by
  -- The induction is over the run and not over the lines: it goes through the included files too.
  fun_induction c.run fs file stack number conditions lines s with
  | case1 file stack number conditions s =>
    intro number' s' _ hs _
    rw [Preprocessor.run]
    exact .ok (h.closeFile hs file conditions)
  | case2 file stack number conditions s line rest fault ha =>
    intro number' s' hn hs hl
    have hsame := h.act hs file hn conditions (hl line List.mem_cons_self)
    rw [run_cons]
    generalize Preprocessor.act file number' conditions s' line = a at hsame ⊢
    rw [ha] at hsame
    cases hsame with
    | fail => exact .error (h.fault hs file hn fault)
  | case3 file stack number conditions s line rest conditions' t ha ih =>
    intro number' s' hn hs hl
    have hsame := h.act hs file hn conditions (hl line List.mem_cons_self)
    rw [run_cons]
    generalize Preprocessor.act file number' conditions s' line = a at hsame ⊢
    rw [ha] at hsame
    cases hsame with
    | proceed _ ht => exact ih _ _ (h.next hn) ht fun l hr => hl l (List.mem_cons_of_mem _ hr)
  | case4 file stack number conditions s line rest reference ha e he =>
    intro number' s' hn hs hl
    have hsame := h.act hs file hn conditions (hl line List.mem_cons_self)
    rw [run_cons]
    generalize Preprocessor.act file number' conditions s' line = a at hsame ⊢
    rw [ha] at hsame
    cases hsame with
    | enter =>
      dsimp only
      rw [he]
      exact .error (h.error hs e)
  | case5 file stack number conditions s line rest reference ha place text he f hf ih =>
    intro number' s' hn hs hl
    have hsame := h.act hs file hn conditions (hl line List.mem_cons_self)
    have hin := ih 1 _ h.first (h.depend hs place) (hfs place text (enter_eq_ok he).2)
    rw [run_cons]
    generalize Preprocessor.act file number' conditions s' line = a at hsame ⊢
    rw [ha] at hsame
    cases hsame with
    | enter =>
      rw [hf] at hin
      dsimp only
      rw [he]
      dsimp only
      generalize c.run fs place.path (place :: stack) 1 .root (c.linesOf text) (s'.depend place) = r at hin ⊢
      cases hin with
      | error hff => exact .error hff
  | case6 file stack number conditions s line rest reference ha place text he t ht ih ihr =>
    intro number' s' hn hs hl
    have hsame := h.act hs file hn conditions (hl line List.mem_cons_self)
    have hin := ih 1 _ h.first (h.depend hs place) (hfs place text (enter_eq_ok he).2)
    rw [run_cons]
    generalize Preprocessor.act file number' conditions s' line = a at hsame ⊢
    rw [ha] at hsame
    cases hsame with
    | enter =>
      rw [ht] at hin
      dsimp only
      rw [he]
      dsimp only
      generalize c.run fs place.path (place :: stack) 1 .root (c.linesOf text) (s'.depend place) = r at hin ⊢
      cases hin with
      | ok htt => exact ihr _ _ (h.next hn) (h.endLine htt) fun l hr => hl l (List.mem_cons_of_mem _ hr)

end ShaderBuild.Preprocessor
