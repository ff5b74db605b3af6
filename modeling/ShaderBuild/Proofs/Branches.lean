import ShaderBuild.Proofs.Numbering
/-!
# A conditional block is one of its branches

`run` works through a flat list of lines and keeps one visibility for each open conditional.
Proven here: a block `#ifdef`, `T`, `#else`, `E`, `#endif` in visible text does what `T` alone does,
or what `E` alone does, whatever lines follow, and in hidden text it does nothing at all. `T` and `E`
may be any lines that close the conditionals they open.

`run_hidden` passes over nested lines in hidden text. `run_visible` runs nested lines on two stacks
that differ below them, up to the lines that follow. What is said about a visible block leaves line
numbers aside, because the lines after a block have other numbers than the same lines after a branch.
-/

namespace ShaderBuild

/-! ## Nesting -/

/-- The number of open conditionals after a line, if it was `depth` before. There is none if the line
belongs to a conditional further out, or opens one without the name of a macro. -/
def Line.nest (depth : Nat) (l : Line) : Option Nat :=
  match Directive.ofLine? l.body with
  | some (.openIf _ _) => some (depth + 1)
  | some .otherwise => if depth = 0 then none else some depth
  | some .close => if depth = 0 then none else some (depth - 1)
  | some (.invalid _ opensConditional) => if opensConditional then none else some depth
  | _ => some depth

/-- The lines close every conditional that they open, and no other. -/
def Line.Nested (lines : List Line) : Prop := lines.foldlM Line.nest 0 = some 0

instance (lines : List Line) : Decidable (Line.Nested lines) :=
  inferInstanceAs (Decidable (_ = _))

namespace ConditionStack

/-- Open conditionals around which there are others. -/
def above (scopes : List Bool) (base : ConditionStack) : ConditionStack :=
  ⟨scopes ++ base.states, List.append_ne_nil_of_right_ne_nil scopes base.nonempty⟩

theorem push_above (scopes : List Bool) (base : ConditionStack) (condition : Bool) :
    (above scopes base).push condition = above (((above scopes base).isVisible && condition) :: scopes) base :=
  rfl

theorem flip_above_cons (here : Bool) (scopes : List Bool) (base : ConditionStack) :
    (above (here :: scopes) base).flip = (true, above (((above scopes base).isVisible && !here) :: scopes) base) :=
  flip_cons (above scopes base) here

theorem pop_above_cons (here : Bool) (scopes : List Bool) (base : ConditionStack) :
    (above (here :: scopes) base).pop = (true, above scopes base) :=
  pop_cons (above scopes base) here

/-- Conditionals look the same on any visible ground as they do in a file of their own. -/
theorem isVisible_above {base : ConditionStack} (h : base.isVisible = true) (scopes : List Bool) :
    (above scopes base).isVisible = (above scopes root).isVisible := by
  cases scopes with
  | nil => exact h
  | cons => rfl

/-- In hidden text every conditional is hidden. -/
theorem isVisible_above_replicate {base : ConditionStack} (h : base.isVisible = false) (depth : Nat) :
    (above (List.replicate depth false) base).isVisible = false := by
  cases depth with
  | zero => exact h
  | succ => rfl

end ConditionStack

namespace Preprocessor

open ConditionStack (above)

/-! ## Nested lines -/

section Nested
variable {c : Preprocessor} {fs : FileSystem} {file : Path} {stack : List Location}

theorem nest_cons {depth depth' : Nat} {line : Line} {lines : List Line}
    (h : (line :: lines).foldlM Line.nest depth = some depth') :
    ∃ d, line.nest depth = some d ∧ lines.foldlM Line.nest d = some depth' := by
  rw [List.foldlM_cons] at h
  exact Option.bind_eq_some_iff.1 h

/-- In hidden text a line only changes how many conditionals are open. -/
theorem act_hidden {base : ConditionStack} (hb : base.isVisible = false) {depth d : Nat} {line : Line}
    (h : line.nest depth = some d) (number : Nat) (s : State) :
    act file number (above (List.replicate depth false) base) s line =
      .proceed (above (List.replicate d false) base) s := by
  have hv := ConditionStack.isVisible_above_replicate hb depth
  simp only [Line.nest] at h
  simp only [act, hv]
  split at h
  · -- a conditional in hidden text is hidden, whatever it asks
    next hd =>
    cases h
    rw [hd]
    simp [follow, ConditionStack.push_above, hv, List.replicate_succ]
  · -- so is its other branch, as what is around it is hidden
    next hd =>
    rw [hd]
    cases depth with
    | zero => cases h
    | succ depth =>
      cases h
      simp [follow, List.replicate_succ, ConditionStack.flip_above_cons,
        ConditionStack.isVisible_above_replicate hb depth]
  · -- the end of a conditional
    next hd =>
    rw [hd]
    cases depth with
    | zero => cases h
    | succ depth =>
      cases h
      simp [follow, List.replicate_succ, ConditionStack.pop_above_cons]
  · -- an invalid directive, which is no error here
    next fault opensConditional hd =>
    rw [hd]
    cases opensConditional with
    | true => cases h
    | false =>
      cases h
      simp [follow, hv]
  · -- any other directive, or text
    next hd =>
    cases h
    split
    · next d' hd' =>
      rw [hd'] at hd
      cases d' <;> simp_all [follow]
    · rfl

/-- Nested lines in hidden text are passed over. -/
theorem run_hidden {base : ConditionStack} (hb : base.isVisible = false) {lines : List Line} {depth : Nat}
    (h : lines.foldlM Line.nest depth = some 0) (number : Nat) (rest : List Line) (s : State) :
    c.run fs file stack number (above (List.replicate depth false) base) (lines ++ rest) s =
      c.run fs file stack (number + lines.length) base rest s := by
  induction lines generalizing depth number with
  | nil =>
    cases h
    rfl
  | cons line lines ih =>
    obtain ⟨d, h1, h2⟩ := nest_cons h
    rw [List.cons_append, run_proceed c fs file stack (act_hidden hb h1 number s), ih h2, List.length_cons,
      Nat.add_right_comm, Nat.add_assoc]

theorem run_nested_hidden {base : ConditionStack} (hb : base.isVisible = false) {lines : List Line}
    (h : Line.Nested lines) (number : Nat) (rest : List Line) (s : State) :
    c.run fs file stack number base (lines ++ rest) s =
      c.run fs file stack (number + lines.length) base rest s := by
  have h0 : lines.foldlM Line.nest 0 = some 0 := h
  exact run_hidden hb h0 number rest s

variable (file) in
/-- What a nested line asks for does not depend on what is below the conditionals that it is in, as long
as that is visible. -/
theorem act_above {scopes : List Bool} {d : Nat} {line : Line} (h : line.nest scopes.length = some d)
    (number : Nat) (s : State) :
    (∃ scopes' t, scopes'.length = d ∧ ∀ base : ConditionStack, base.isVisible = true →
        act file number (above scopes base) s line = .proceed (above scopes' base) t) ∨
      (∃ reference, scopes.length = d ∧ ∀ base : ConditionStack, base.isVisible = true →
        act file number (above scopes base) s line = .enter reference) ∨
      ∃ fault, ∀ base : ConditionStack, base.isVisible = true →
        act file number (above scopes base) s line = .fail fault := by
  have hv : ∀ base : ConditionStack, base.isVisible = true →
      (above scopes base).isVisible = (above scopes .root).isVisible :=
    fun base hb => ConditionStack.isVisible_above hb scopes
  simp only [Line.nest] at h
  simp only [act]
  split at h
  · -- `#ifdef` and `#ifndef` put a conditional on the stack
    next defined name hd =>
    cases h
    refine .inl ⟨((above scopes .root).isVisible && (s.macros.contains name == defined)) :: scopes, s, rfl, ?_⟩
    intro base hb
    rw [hd]
    simp only [follow, ConditionStack.push_above, hv base hb]
  · -- `#else` turns the one on top, which is above `base`
    next hd =>
    cases scopes with
    | nil => cases h
    | cons here scopes =>
      cases h
      refine .inl ⟨((above scopes .root).isVisible && !here) :: scopes, s, rfl, ?_⟩
      intro base hb
      rw [hd]
      simp only [follow, ConditionStack.flip_above_cons, ConditionStack.isVisible_above hb scopes]
  · -- `#endif` takes it away
    next hd =>
    cases scopes with
    | nil => cases h
    | cons here scopes =>
      cases h
      refine .inl ⟨scopes, s, rfl, ?_⟩
      intro base hb
      rw [hd]
      simp only [follow, ConditionStack.pop_above_cons]
  · -- an invalid directive fails if it is visible
    next fault opensConditional hd =>
    cases opensConditional with
    | true => cases h
    | false =>
      cases h
      simp only [hd, follow, Bool.or_false]
      by_cases hr : (above scopes .root).isVisible = true
      · refine .inr (.inr ⟨fault, fun base hb => ?_⟩)
        rw [hv base hb, if_pos hr]
      · refine .inl ⟨scopes, s, rfl, fun base hb => ?_⟩
        rw [hv base hb, if_neg hr]
  · -- any other line leaves the conditionals as they are
    next h1 h2 h3 h4 =>
    cases h
    cases hd : Directive.ofLine? line.body with
    | none =>
      refine .inl ⟨scopes, if (above scopes .root).isVisible then s.write line else s, rfl, fun base hb => ?_⟩
      simp only [hv base hb]
    | some directive =>
      cases directive with
      | includeFile reference =>
        by_cases hr : (above scopes .root).isVisible = true
        · exact .inr (.inl ⟨reference, rfl, fun base hb => by simp only [follow, hv base hb, if_pos hr]⟩)
        · exact .inl ⟨scopes, s, rfl, fun base hb => by simp only [follow, hv base hb, if_neg hr]⟩
      | define name value => exact .inl ⟨scopes, _, rfl, fun base hb => by simp only [follow, hv base hb]; rfl⟩
      | undefine name => exact .inl ⟨scopes, _, rfl, fun base hb => by simp only [follow, hv base hb]; rfl⟩
      | unknown text => exact .inl ⟨scopes, _, rfl, fun base hb => by simp only [follow, hv base hb]; rfl⟩
      | openIf defined name => exact absurd hd (h1 defined name)
      | otherwise => exact absurd hd h2
      | close => exact absurd hd h3
      | invalid fault opensConditional => exact absurd hd (h4 fault opensConditional)

/-- Nested lines in visible text do the same on two stacks, if what follows them does. -/
theorem run_visible {base base' : ConditionStack} (hb : base.isVisible = true) (hb' : base'.isVisible = true)
    {rest rest' : List Line}
    (hrest : ∀ (number number' : Nat) (s s' : State), s.unnumbered = s'.unnumbered →
      unnumbered (c.run fs file stack number base rest s) = unnumbered (c.run fs file stack number' base' rest' s'))
    {lines : List Line} {scopes : List Bool} (h : lines.foldlM Line.nest scopes.length = some 0)
    (number number' : Nat) {s s' : State} (hs : s.unnumbered = s'.unnumbered) :
    unnumbered (c.run fs file stack number (above scopes base) (lines ++ rest) s) =
      unnumbered (c.run fs file stack number' (above scopes base') (lines ++ rest') s') := by
  induction lines generalizing scopes number number' s s' with
  | nil =>
    obtain rfl : scopes = [] := List.length_eq_zero_iff.1 (Option.some.inj h)
    exact hrest number number' s s' hs
  | cons line lines ih =>
    obtain ⟨d, h1, h2⟩ := nest_cons h
    have hsame := related_of_unnumbered (unnumbered_act hs file number number' (above scopes base') line)
    rw [List.cons_append, List.cons_append, run_cons, run_cons]
    generalize act file number' (above scopes base') s' line = a at hsame ⊢
    rcases act_above file h1 number s with ⟨scopes', t, hl, ha⟩ | ⟨reference, hl, ha⟩ | ⟨fault, ha⟩
    · -- the line only changes the state and the conditionals
      rw [ha base' hb'] at hsame
      rw [ha base hb]
      cases hsame with
      | proceed _ ht => exact ih (hl ▸ h2) _ _ ht
    · -- the line includes a file, which is flattened on a stack of its own
      rw [ha base' hb'] at hsame
      rw [ha base hb]
      cases hsame with
      | enter =>
        dsimp only
        cases c.enter fs file stack reference with
        | error e => exact unnumbered_failure hs rfl
        | ok found =>
          obtain ⟨place, text⟩ := found
          have hi := unnumbered_run c fs place.path (place :: stack) 1 .root (c.linesOf text) _ 1 _
            (unnumbered_depend hs place)
          dsimp only
          cases hr : c.run fs place.path (place :: stack) 1 .root (c.linesOf text) (s.depend place) <;>
            cases hr' : c.run fs place.path (place :: stack) 1 .root (c.linesOf text) (s'.depend place) <;>
            rw [hr, hr'] at hi
          · exact hi
          · cases hi
          · cases hi
          · exact ih (hl ▸ h2) _ _ (unnumbered_endLine (Except.ok.inj hi))
    · -- the line fails
      rw [ha base' hb'] at hsame
      rw [ha base hb]
      cases hsame with
      | fail => exact unnumbered_failure hs rfl

theorem run_nested_visible {base base' : ConditionStack} (hb : base.isVisible = true) (hb' : base'.isVisible = true)
    {rest rest' : List Line}
    (hrest : ∀ (number number' : Nat) (s s' : State), s.unnumbered = s'.unnumbered →
      unnumbered (c.run fs file stack number base rest s) = unnumbered (c.run fs file stack number' base' rest' s'))
    {lines : List Line} (h : Line.Nested lines) (number number' : Nat) {s s' : State}
    (hs : s.unnumbered = s'.unnumbered) :
    unnumbered (c.run fs file stack number base (lines ++ rest) s) =
      unnumbered (c.run fs file stack number' base' (lines ++ rest') s') := by
  have h0 : lines.foldlM Line.nest ([] : List Bool).length = some 0 := h
  exact run_visible hb hb' hrest h0 number number' hs

end Nested

/-! ## Blocks -/

section Blocks
variable (c : Preprocessor) (fs : FileSystem) (file : Path) (stack : List Location)
  {conditions : ConditionStack} {opening alternative closing : Line} {defined : Bool} {name : String}
  (ho : Directive.ofLine? opening.body = some (.openIf defined name))
  (ha : Directive.ofLine? alternative.body = some .otherwise)
  (hc : Directive.ofLine? closing.body = some .close)
  {T E : List Line} (hT : Line.Nested T) (hE : Line.Nested E)

include ho in
theorem act_opening (number : Nat) (s : State) :
    act file number conditions s opening =
      .proceed (above [conditions.isVisible && (s.macros.contains name == defined)] conditions) s := by
  simp only [act, ho, follow]
  rfl

include ha in
theorem act_alternative (here : Bool) (number : Nat) (s : State) :
    act file number (above [here] conditions) s alternative =
      .proceed (above [conditions.isVisible && !here] conditions) s := by
  simp only [act, ha, follow, ConditionStack.flip_above_cons]
  rfl

include hc in
theorem act_closing (here : Bool) (number : Nat) (s : State) :
    act file number (above [here] conditions) s closing = .proceed conditions s := by
  simp only [act, hc, follow, ConditionStack.pop_above_cons]
  rfl

include hc hE in
/-- The second branch in visible text, if the first one was hidden. -/
theorem unnumbered_alternative (hv : conditions.isVisible = true) (number number' : Nat) (R : List Line)
    {s s' : State} (hs : s.unnumbered = s'.unnumbered) :
    unnumbered (c.run fs file stack number (above [true] conditions) (E ++ closing :: R) s) =
      unnumbered (c.run fs file stack number' conditions (E ++ R) s') := by
  have hb : (above [true] conditions).isVisible = true := rfl
  refine run_nested_visible hb hv (fun n n' t t' ht => ?_) hE _ _ hs
  rw [run_proceed c fs file stack (act_closing file hc true n t)]
  exact unnumbered_run c fs file stack _ _ _ _ _ _ ht

include ha hc hE in
/-- What follows the first branch in visible text, if that was visible. -/
theorem unnumbered_after_branch (hv : conditions.isVisible = true) (number number' : Nat) (R : List Line)
    {s s' : State} (hs : s.unnumbered = s'.unnumbered) :
    unnumbered (c.run fs file stack number (above [true] conditions) (alternative :: (E ++ closing :: R)) s) =
      unnumbered (c.run fs file stack number' conditions R s') := by
  have hb : (above [true && !true] conditions).isVisible = false := rfl
  rw [run_proceed c fs file stack (act_alternative file ha true number s), hv, run_nested_hidden hb hE,
    run_proceed c fs file stack (act_closing file hc (true && !true) _ s)]
  exact unnumbered_run c fs file stack _ _ _ _ _ _ hs

include ho ha hc hT hE in
/-- A block does what its first branch does, or what its second branch does if the macro is not defined
(or, for `#ifndef`, if it is) where the block starts; without a second branch it then does nothing. This
is so whatever the branches do to that macro, whatever state the block starts in and whatever follows.
In hidden text it does nothing but take up lines. -/
theorem block_selects_branch (number number' : Nat) (R : List Line) (s : State) :
    (conditions.isVisible = true →
      unnumbered (c.run fs file stack number conditions (opening :: (T ++ alternative :: (E ++ closing :: R))) s) =
        unnumbered (c.run fs file stack number' conditions
          ((if s.macros.contains name = defined then T else E) ++ R) s) ∧
      unnumbered (c.run fs file stack number conditions (opening :: (T ++ closing :: R)) s) =
        unnumbered (c.run fs file stack number' conditions
          ((if s.macros.contains name = defined then T else []) ++ R) s)) ∧
    (conditions.isVisible = false →
      c.run fs file stack number conditions (opening :: (T ++ alternative :: (E ++ closing :: R))) s =
        c.run fs file stack (number + T.length + E.length + 3) conditions R s ∧
      c.run fs file stack number conditions (opening :: (T ++ closing :: R)) s =
        c.run fs file stack (number + T.length + 2) conditions R s) := by
  have hopen : ∀ rest, c.run fs file stack number conditions (opening :: rest) s =
      c.run fs file stack (number + 1)
        (above [conditions.isVisible && (s.macros.contains name == defined)] conditions) rest s :=
    fun rest => run_proceed c fs file stack (act_opening file ho number s) rest
  have hb : (above [false] conditions).isVisible = false := rfl
  refine ⟨fun hv => ?_, fun hv => ?_⟩
  · rw [hopen, hopen, hv, Bool.true_and]
    by_cases hd : s.macros.contains name = defined
    · rw [if_pos hd, if_pos hd, beq_iff_eq.2 hd]
      constructor
      · have hb : (above [true] conditions).isVisible = true := rfl
        refine run_nested_visible hb hv (fun n n' t t' ht => ?_) hT _ _ rfl
        exact unnumbered_after_branch c fs file stack ha hc hE hv n n' R ht
      · -- without `#else`, the first branch ends like the second one of a whole block
        exact unnumbered_alternative c fs file stack hc hT hv _ _ R rfl
    · rw [if_neg hd, if_neg hd, beq_eq_false_iff_ne.2 hd]
      constructor
      · rw [run_nested_hidden hb hT,
          run_proceed c fs file stack (act_alternative file ha false _ s), hv]
        exact unnumbered_alternative c fs file stack hc hE hv _ _ R rfl
      · rw [run_nested_hidden hb hT,
          run_proceed c fs file stack (act_closing file hc false _ s)]
        exact unnumbered_run c fs file stack _ _ _ _ _ _ rfl
  · rw [hopen, hopen, hv, Bool.false_and]
    constructor
    · rw [run_nested_hidden hb hT,
        run_proceed c fs file stack (act_alternative file ha false _ s), hv, Bool.false_and,
        run_nested_hidden hb hE,
        run_proceed c fs file stack (act_closing file hc false _ s)]
      congr 1
      omega
    · rw [run_nested_hidden hb hT,
        run_proceed c fs file stack (act_closing file hc false _ s)]
      congr 1
      omega

end Blocks

/-- Lines that end in a line feed. -/
def linesEnded (texts : List String) : List Line := texts.map fun t => ⟨t.toList, ['\n']⟩

/-- A branch that removes the macro of its own block, around a conditional with three branches: the block
is that branch, although the macro is gone when `#else` is reached. -/
theorem block_selects_branch_undefining :
    let T := linesEnded ["#undef N", "#ifndef M", "a", "# else", "b", "#else", "N", "#endif"]
    let E := linesEnded ["#define N 2", "#ifdef N", "#endif"]
    let R := linesEnded ["N", "#else"]
    let s : State := { macros := .ofList [⟨"N", "1"⟩] }
    (Line.Nested T ∧ Line.Nested E ∧ s.macros.contains "N" = true) ∧
      unnumbered (run {} {} ⟨"f"⟩ [] 7 .root (⟨"#ifdef N".toList, ['\n']⟩ ::
          (T ++ ⟨"\t#else".toList, ['\n']⟩ :: (E ++ ⟨"#endif".toList, ['\n']⟩ :: R))) s) =
        unnumbered (run {} {} ⟨"f"⟩ [] 1 .root (T ++ R) s) := by
  intro T E R s
  have hT : Line.Nested T := by decide
  have hE : Line.Nested E := by decide
  have ho : Directive.ofLine? (Line.mk "#ifdef N".toList ['\n']).body = some (.openIf true "N") := by decide
  have ha : Directive.ofLine? (Line.mk "\t#else".toList ['\n']).body = some .otherwise := by decide
  have hc : Directive.ofLine? (Line.mk "#endif".toList ['\n']).body = some .close := by decide
  exact ⟨⟨hT, hE, by decide⟩, ((block_selects_branch {} {} ⟨"f"⟩ [] ho ha hc hT hE 7 1 R s).1 rfl).1⟩

end Preprocessor

end ShaderBuild
