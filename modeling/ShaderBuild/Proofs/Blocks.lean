import ShaderBuild.Proofs.Dependencies
import ShaderBuild.Proofs.Lines
/-!
# The output, block by block

A step of a run adds a block to the output: a visible line of text adds its expansion and its ending, the
end of an include adds a line feed if the last line is still open, and nothing else adds anything
(`output_advance`). Whenever a line is about to be processed, the output is closed (`Moment.Apart`), although
it is the includer, and not the file that leaves a line open, who closes it. So no two files share a line of
the output.
-/

namespace ShaderBuild.Preprocessor

/-! ## Blocks -/

/-- What a line adds to the output. -/
def lineBlock (conditions : ConditionStack) (s : State) (line : Line) : List Char :=
  if conditions.isVisible ∧ Directive.ofLine? line.body = none then s.macros.expand line.body ++ line.ending
  else []

/-- What the next step adds to the output. -/
def Moment.block : Moment → List Char
  | .ended _ => []
  | .working here includers s =>
    match here.lines with
    | [] => if includers ≠ [] ∧ ¬Closed s.output.toList then ['\n'] else []
    | line :: _ => lineBlock here.conditions s line

theorem isInLine_iff {s : State} : s.isInLine = true ↔ ¬Closed s.output.toList := by
  unfold State.isInLine Closed
  cases s.output.toList.getLast? <;> simp

theorem output_endLine (s : State) :
    s.endLine.output.toList = s.output.toList ++ if Closed s.output.toList then [] else ['\n'] := by
  unfold State.endLine
  by_cases h : Closed s.output.toList
  · have hs : ¬s.isInLine = true := fun hs => isInLine_iff.1 hs h
    rw [if_neg hs, if_pos h, List.append_nil]
  · rw [if_pos (isInLine_iff.2 h), if_neg h, String.toList_append]
    rfl

theorem closed_endLine (s : State) : Closed s.endLine.output.toList := by
  rw [output_endLine]
  split
  · next h => rwa [List.append_nil]
  · exact closed_iff.2 (.inr ⟨_, rfl⟩)

theorem output_closeFile (s : State) (file : Path) (conditions : ConditionStack) :
    (s.closeFile file conditions).output = s.output := by
  unfold State.closeFile
  split <;> rfl

theorem output_depend (s : State) (place : Location) : (s.depend place).output = s.output := by
  unfold State.depend
  split <;> rfl

theorem output_write (s : State) (line : Line) :
    (s.write line).output.toList = s.output.toList ++ (s.macros.expand line.body ++ line.ending) := by
  simp [State.write]

/-- A line that does not end in another file adds its block. -/
theorem output_of_act {file : Path} {number : Nat} {conditions conditions' : ConditionStack} {s t : State}
    {line : Line} (h : act file number conditions s line = .proceed conditions' t) :
    t.output.toList = s.output.toList ++ lineBlock conditions s line := by
  unfold lineBlock
  simp only [act] at h
  cases hd : Directive.ofLine? line.body with
  | none =>
    rw [hd] at h
    obtain ⟨-, rfl⟩ := Action.proceed.inj h
    by_cases hv : conditions.isVisible = true
    · simp [hv, output_write]
    · simp [hv]
  | some d =>
    rw [hd] at h
    -- a directive changes macros, conditions and warnings only
    have hsame : t.output = s.output := by
      cases d with
      | includeFile reference =>
        simp only [follow] at h
        split at h
        · cases h
        · rw [(Action.proceed.inj h).2]
      | define name value =>
        obtain ⟨-, rfl⟩ := Action.proceed.inj h
        split <;> rfl
      | undefine name =>
        obtain ⟨-, rfl⟩ := Action.proceed.inj h
        split <;> rfl
      | openIf defined name => rw [(Action.proceed.inj h).2]
      | otherwise =>
        simp only [follow] at h
        split at h
        · rw [(Action.proceed.inj h).2]
        · cases h
      | close =>
        simp only [follow] at h
        split at h
        · rw [(Action.proceed.inj h).2]
        · cases h
      | invalid fault opensConditional =>
        simp only [follow] at h
        split at h
        · cases h
        · rw [(Action.proceed.inj h).2]
      | unknown text =>
        obtain ⟨-, rfl⟩ := Action.proceed.inj h
        split <;> rfl
    simp [hsame]

/-- A line with an ending does not leave the output open. -/
theorem closed_lineBlock (conditions : ConditionStack) (s : State) {line : Line} (h : line.Ends) :
    Closed (lineBlock conditions s line) := by
  unfold lineBlock
  split
  · exact h.closed _
  · exact closed_nil

/-! ## Steps -/

section Steps
variable {c : Preprocessor} {fs : FileSystem}

/-- A step adds its block. -/
theorem output_advance {m : Moment} {s t : State} (hs : m.state? = some s)
    (ht : (c.advance fs m).state? = some t) : t.output.toList = s.output.toList ++ m.block := by
  cases m with
  | ended result =>
    obtain rfl := Option.some.inj (hs.symm.trans ht)
    exact (List.append_nil _).symm
  | working here includers s' =>
    obtain rfl := Option.some.inj hs
    simp only [advance] at ht
    simp only [Moment.block]
    cases hl : here.lines with
    | nil =>
      rw [hl] at ht
      dsimp only at ht ⊢
      rw [state?_resume] at ht
      rw [← Option.some.inj ht]
      by_cases hi : includers = []
      · simp [hi, output_closeFile]
      · rw [if_neg hi, output_endLine, output_closeFile]
        by_cases hc : Closed s'.output.toList <;> simp [hi, hc]
    | cons line rest =>
      rw [hl] at ht
      dsimp only at ht ⊢
      cases ha : act here.file here.number here.conditions s' line with
      | fail fault =>
        rw [ha] at ht
        cases ht
      | proceed conditions u =>
        rw [ha] at ht
        obtain rfl := Option.some.inj ht
        exact output_of_act ha
      | enter reference =>
        -- the line is a directive, and only opens a file
        have hd := (act_eq_enter.1 ha).2
        rw [ha] at ht
        dsimp only at ht
        cases he : c.enter fs here.file (Moment.stack (.working here includers s')) reference with
        | error e =>
          rw [he] at ht
          cases ht
        | ok found =>
          rw [he] at ht
          obtain rfl := Option.some.inj ht
          simp [output_depend, lineBlock, hd]

/-- The lines that are left of the open files are separate ones, and so is what is written next, if it is
for a line. -/
def Moment.Apart : Moment → Prop
  | .ended _ => True
  | .working here includers s =>
    (∀ f ∈ here :: includers, Line.Ended f.lines) ∧ (here.lines ≠ [] → Closed s.output.toList)

theorem Moment.Apart.advance {m : Moment} (h : m.Apart) : (c.advance fs m).Apart := by
  cases m with
  | ended result => trivial
  | working here includers s =>
    obtain ⟨hf, hc⟩ := h
    obtain ⟨hhere, hothers⟩ := List.forall_mem_cons.1 hf
    simp only [Preprocessor.advance]
    cases hl : here.lines with
    | nil =>
      -- whatever this file has left open is closed for the one that included it
      cases includers with
      | nil => trivial
      | cons next others => exact ⟨hothers, fun _ => closed_endLine _⟩
    | cons line rest =>
      have hclosed : Closed s.output.toList := hc (by rw [hl]; exact List.cons_ne_nil _ _)
      rw [hl] at hhere
      dsimp only
      cases ha : act here.file here.number here.conditions s line with
      | fail fault => trivial
      | proceed conditions t =>
        refine ⟨List.forall_mem_cons.2 ⟨hhere.2, hothers⟩, fun hr => ?_⟩
        -- another line follows, so this one has an ending
        have hends : line.Ends := hhere.1.resolve_right fun hn => hr hn.2
        rw [output_of_act ha]
        exact hclosed.append (closed_lineBlock _ _ hends)
      | enter reference =>
        dsimp only
        cases c.enter fs here.file (Moment.stack (.working here includers s)) reference with
        | error e => trivial
        | ok found =>
          refine ⟨List.forall_mem_cons.2 ⟨Line.ended_list _, List.forall_mem_cons.2 ⟨hhere.2, hothers⟩⟩, fun _ => ?_⟩
          rw [output_depend]
          exact hclosed

variable (c fs) in
theorem apart_start (macros : List Macro) (root : Root) : (c.start fs macros root).Apart := by
  cases root with
  | file p =>
    simp only [start]
    cases openFile fs [] p with
    | error e => trivial
    | ok found =>
      refine ⟨List.forall_mem_singleton.2 (Line.ended_list _), fun _ => ?_⟩
      rw [output_depend]
      exact closed_nil
  | text text origin => exact ⟨List.forall_mem_singleton.2 (Line.ended_list _), fun _ => closed_nil⟩

variable (c fs) in
/-- At every moment the next line starts on a line of its own. -/
theorem apart_moment (macros : List Macro) (root : Root) (steps : Nat) : (c.moment fs macros root steps).Apart := by
  induction steps with
  | zero => exact apart_start c fs macros root
  | succ steps ih =>
    rw [moment, later_succ]
    exact ih.advance

end Steps

/-! ## Runs -/

section Runs
variable (c : Preprocessor) (fs : FileSystem) (macros : List Macro) (root : Root)

/-- The blocks of the first steps. -/
def written (steps : Nat) : List Char :=
  (List.range steps).flatMap fun k => (c.moment fs macros root k).block

theorem written_add (steps others : Nat) :
    c.written fs macros root (steps + others) = c.written fs macros root steps ++
      (List.range others).flatMap fun k => (c.moment fs macros root (steps + k)).block := by
  simp only [written, List.range_add, List.flatMap_append, List.flatMap_map]

/-- The output is what the steps have added. -/
theorem output_moment {steps : Nat} {s : State} (h : (c.moment fs macros root steps).state? = some s) :
    s.output.toList = c.written fs macros root steps := by
  induction steps generalizing s with
  | zero =>
    have h' : (c.start fs macros root).state? = some s := h
    cases root with
    | file p =>
      simp only [start] at h'
      cases ho : openFile fs [] p with
      | error e =>
        rw [ho] at h'
        cases h'
      | ok found =>
        rw [ho] at h'
        obtain rfl := Option.some.inj h'
        rw [output_depend]
        rfl
    | text text origin =>
      obtain rfl := Option.some.inj h'
      rfl
  | succ steps ih =>
    have hnext : c.moment fs macros root (steps + 1) = c.advance fs (c.moment fs macros root steps) :=
      c.later_succ fs _ steps
    rw [hnext] at h
    obtain ⟨s', hs'⟩ := exists_state?_of_advance h
    rw [output_advance hs' h, ih hs', written_add]
    simp

theorem flatMap_text_linesOf (text : String) :
    (c.linesOf text).flatMap Line.text = if c.stripComments then Comment.strip text.toList else text.toList :=
  Line.text_list _

/-- The output of a run that succeeds, split where it processes a line of some file: it is what had been
written, which is empty or ends in a line feed, then the block of this line, then the rest. -/
theorem exists_rest {r : Flattened} (hr : (c.process fs macros root).result = .ok r) :
    ∃ steps s, c.moment fs macros root steps = .ended (.ok s) ∧ r.text.toList = c.written fs macros root steps ∧
      ∀ k here includers s, c.moment fs macros root k = .working here includers s →
        ∃ rest, r.text.toList = s.output.toList ++ ((c.moment fs macros root k).block ++ rest) := by
  obtain ⟨steps, result, hend, hprocess⟩ := c.exists_moment_ended fs macros root
  rw [hprocess] at hr
  obtain ⟨s, rfl, rfl⟩ := finish_eq_ok hr
  have hall := c.output_moment fs macros root (congrArg Moment.state? hend)
  refine ⟨steps, s, hend, hall, fun k here includers t hk => ?_⟩
  -- a file is open, so this is before the end
  have hlt : k < steps := by
    by_contra hn
    obtain ⟨others, rfl⟩ := Nat.exists_eq_add_of_le (Nat.le_of_not_lt hn)
    rw [moment, later_add, ← moment, hend, later_ended] at hk
    cases hk
  obtain ⟨others, rfl⟩ := Nat.exists_eq_add_of_lt hlt
  refine ⟨(List.range others).flatMap fun j => (c.moment fs macros root (k + (j + 1))).block, ?_⟩
  rw [c.output_moment fs macros root (congrArg Moment.state? hk)]
  refine hall.trans ?_
  rw [Nat.add_assoc, written_add, List.range_succ_eq_map, List.flatMap_cons, List.flatMap_map]
  rfl

/-- Flattening neither joins nor loses lines. The output is the blocks of the steps, one after the other;
whenever a line of a file is to be processed, it is empty or ends in a line feed. So what is written for this
line, and all that follows, is on lines of its own. -/
theorem lines_stay_apart :
    (∀ steps here includers s, c.moment fs macros root steps = .working here includers s →
      s.output.toList = c.written fs macros root steps ∧ Line.Ended here.lines ∧
        (here.lines ≠ [] → Closed s.output.toList)) ∧
    (∀ text, (c.linesOf text).flatMap Line.text =
      if c.stripComments then Comment.strip text.toList else text.toList) ∧
    ∀ r, (c.process fs macros root).result = .ok r →
      ∃ steps s, c.moment fs macros root steps = .ended (.ok s) ∧ r.text.toList = c.written fs macros root steps ∧
        ∀ k here includers s, c.moment fs macros root k = .working here includers s → here.lines ≠ [] →
          ∃ rest, r.text.toList = s.output.toList ++ ((c.moment fs macros root k).block ++ rest) ∧
            Line.list r.text.toList =
              Line.list s.output.toList ++ Line.list ((c.moment fs macros root k).block ++ rest) := by
  have hapart : ∀ steps here includers s, c.moment fs macros root steps = .working here includers s →
      Line.Ended here.lines ∧ (here.lines ≠ [] → Closed s.output.toList) := by
    intro steps here includers s hm
    have h := c.apart_moment fs macros root steps
    rw [hm] at h
    exact ⟨h.1 here List.mem_cons_self, h.2⟩
  refine ⟨fun steps here includers s hm => ?_, c.flatMap_text_linesOf, fun r hr => ?_⟩
  · exact ⟨c.output_moment fs macros root (congrArg Moment.state? hm), hapart steps here includers s hm⟩
  · obtain ⟨steps, s, hend, hall, hrest⟩ := c.exists_rest fs macros root hr
    refine ⟨steps, s, hend, hall, fun k here includers t hm hl => ?_⟩
    obtain ⟨rest, htext⟩ := hrest k here includers t hm
    exact ⟨rest, htext, by rw [htext, Line.list_append ((hapart k here includers t hm).2 hl)]⟩

end Runs

/-- Three files, none of which ends its last line. -/
def unended : FileSystem where
  nodes := [(⟨["a"]⟩, .file (Bytes.ofText "#include \"b\"\nx")), (⟨["b"]⟩, .file (Bytes.ofText "#include \"c\"\ny")),
    (⟨["c"]⟩, .file (Bytes.ofText "z"))]

example : ((moment {} unended [] (.file ⟨"/a"⟩) 8).flattened?.map Flattened.text) = some "z\ny\nx" := by
  decide +kernel

end ShaderBuild.Preprocessor
