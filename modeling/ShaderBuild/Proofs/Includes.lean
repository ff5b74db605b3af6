import Mathlib.Data.List.Dedup
import Mathlib.Data.List.Perm.Subperm
import ShaderBuild.Proofs.Moments
/-!
# Circular includes

`Chain` is what every step of a run keeps: a file is opened only if it is there and not open already. So no
place is twice on the stack, which bounds its depth by the number of files, and a circular include is what
ends a run exactly if a visible directive leads to a file that is open.
-/

namespace ShaderBuild.Preprocessor

/-! ## What is open -/

/-- The file is there, it is named by its place, and it is not one of these others. -/
def Opened.Entered (fs : FileSystem) (f : Opened) (others : List Opened) : Prop :=
  ∃ place text, f.place? = some place ∧ f.file = place.path ∧ fs.readTextAt place = .ok text ∧
    place ∉ others.filterMap Opened.place?

namespace Opened.Entered
variable {fs : FileSystem} {f g : Opened} {others : List Opened} {place : Location}

/-- What has been processed of a file does not matter. -/
theorem congr (h : f.Entered fs others) (hf : g.file = f.file) (hp : g.place? = f.place?) : g.Entered fs others := by
  obtain ⟨place, text, h1, h2, h3, h4⟩ := h
  exact ⟨place, text, hp.trans h1, hf.trans h2, h3, h4⟩

theorem ne_none (h : f.Entered fs others) : f.place? ≠ none := by
  obtain ⟨place, text, h1, -⟩ := h
  rw [h1]
  exact Option.some_ne_none place

theorem file_eq (h : f.Entered fs others) (hp : f.place? = some place) : f.file = place.path := by
  obtain ⟨place', text, h1, h2, -⟩ := h
  obtain rfl := Option.some.inj (h1.symm.trans hp)
  exact h2

theorem readable (h : f.Entered fs others) (hp : f.place? = some place) : ∃ text, fs.readTextAt place = .ok text := by
  obtain ⟨place', text, h1, -, h3, -⟩ := h
  obtain rfl := Option.some.inj (h1.symm.trans hp)
  exact ⟨text, h3⟩

end Opened.Entered

/-- Files that are open while something is flattened, innermost first. -/
inductive Chain (fs : FileSystem) (root : Root) : List Opened → Prop
  | file {f} : (∃ p, root = .file p) → f.Entered fs [] → Chain fs root [f]
  | text {f} : (∃ text, root = .text text f.file) → f.place? = anchor? fs f.file → Chain fs root [f]
  | included {f others} : f.Entered fs others → Chain fs root others → Chain fs root (f :: others)

namespace Chain
variable {fs : FileSystem} {root : Root} {f g : Opened} {others : List Opened}

theorem congr (h : Chain fs root (f :: others)) (hf : g.file = f.file) (hp : g.place? = f.place?) :
    Chain fs root (g :: others) := by
  cases h with
  | file hr he => exact .file hr (he.congr hf hp)
  | text hr ha => exact .text (by rwa [hf]) (by rw [hp, hf, ha])
  | included he hc => exact .included (he.congr hf hp) hc

theorem tail (h : Chain fs root (f :: g :: others)) : Chain fs root (g :: others) := by
  cases h with
  | included he hc => exact hc

/-- No place is open twice. -/
theorem nodup {files : List Opened} (h : Chain fs root files) : (files.filterMap Opened.place?).Nodup := by
  induction h with
  | file _ he =>
    obtain ⟨place, text, hp, -⟩ := he
    simp [hp]
  | @text f _ _ => cases hp : f.place? <;> simp [hp]
  | included he _ ih =>
    obtain ⟨place, text, hp, -, -, hn⟩ := he
    rw [List.filterMap_cons_some hp]
    exact List.nodup_cons.2 ⟨hn, ih⟩

/-- All files but the outermost have places of their own, at which there are files. -/
theorem exists_places {files : List Opened} (h : Chain fs root files) :
    ∃ places : List Location, places.Sublist (files.filterMap Opened.place?) ∧ places ⊆ fs.filePlaces ∧
      files.length = places.length + 1 := by
  induction h with
  | file => exact ⟨[], List.nil_sublist _, List.nil_subset _, rfl⟩
  | text => exact ⟨[], List.nil_sublist _, List.nil_subset _, rfl⟩
  | included he _ ih =>
    obtain ⟨place, text, hp, -, ht, -⟩ := he
    obtain ⟨places, hsub, hfiles, hlen⟩ := ih
    refine ⟨place :: places, ?_, List.cons_subset.2 ⟨mem_filePlaces ht, hfiles⟩, ?_⟩
    · rw [List.filterMap_cons_some hp]
      exact hsub.cons_cons place
    · simp [hlen]

/-- At most as many files are open as there are, and one more if the outermost is not among them. -/
theorem length_le {files : List Opened} (h : Chain fs root files) : files.length ≤ fs.filePlaces.dedup.length + 1 := by
  obtain ⟨places, hsub, hfiles, hlen⟩ := h.exists_places
  have := ((h.nodup.sublist hsub).subperm fun p hp => List.mem_dedup.2 (hfiles hp)).length_le
  omega

/-- If any place is open, then that of the innermost file is, and it comes first. -/
theorem place?_eq_headD (h : Chain fs root (f :: others)) {place : Location}
    (hp : place ∈ (f :: others).filterMap Opened.place?) :
    f.place? = some (((f :: others).filterMap Opened.place?).headD place) := by
  cases hf : f.place? with
  | some place' => rw [List.filterMap_cons_some hf, List.headD_cons]
  | none =>
    -- Only a text has no place, and there is nothing around it.
    rw [List.filterMap_cons_none hf] at hp
    cases h with
    | file _ he => exact absurd hf he.ne_none
    | text => cases hp
    | included he _ => exact absurd hf he.ne_none

/-- If no text was given, there are files at all places that are open. -/
theorem readable {p : Path} {files : List Opened} (h : Chain fs (.file p) files) :
    ∀ place ∈ files.filterMap Opened.place?, ∃ text, fs.readTextAt place = .ok text := by
  induction h with
  | file _ he =>
    intro place hp
    obtain ⟨f, hf, hplace⟩ := List.mem_filterMap.1 hp
    obtain rfl := List.mem_singleton.1 hf
    exact he.readable hplace
  | text hr =>
    obtain ⟨text, hr⟩ := hr
    cases hr
  | included he _ ih =>
    intro place hp
    obtain ⟨f, hf, hplace⟩ := List.mem_filterMap.1 hp
    rcases List.mem_cons.1 hf with rfl | hf
    · exact he.readable hplace
    · exact ih place (List.mem_filterMap.2 ⟨f, hf, hplace⟩)

/-- A file goes by the path of its place, unless it is the text that was given. -/
theorem file_eq {files : List Opened} (h : Chain fs root files) :
    ∀ f ∈ files, ∀ place, f.place? = some place →
      f.file = place.path ∨ ∃ text, root = .text text f.file ∧ anchor? fs f.file = some place := by
  induction h with
  | file _ he =>
    intro f hf place hp
    obtain rfl := List.mem_singleton.1 hf
    exact .inl (he.file_eq hp)
  | text hr ha =>
    intro f hf place hp
    obtain rfl := List.mem_singleton.1 hf
    obtain ⟨text, hr⟩ := hr
    exact .inr ⟨text, hr, ha.symm.trans hp⟩
  | included he _ ih =>
    intro f hf place hp
    rcases List.mem_cons.1 hf with rfl | hf
    · exact .inl (he.file_eq hp)
    · exact ih f hf place hp

end Chain

/-- The files that are open at this moment were opened as they should be. -/
def Moment.Sound (fs : FileSystem) (root : Root) : Moment → Prop
  | .working here includers _ => Chain fs root (here :: includers)
  | .ended _ => True

section Invariant
variable {c : Preprocessor} {fs : FileSystem} {root : Root}

theorem Moment.Sound.resume {here : Opened} {includers : List Opened} (h : Chain fs root (here :: includers))
    (s : State) : Moment.Sound fs root (.resume includers s) := by
  cases includers with
  | nil => trivial
  | cons next others => exact h.tail

theorem Moment.Sound.advance {m : Moment} (h : m.Sound fs root) : (c.advance fs m).Sound fs root := by
  cases m with
  | ended result => trivial
  | working here includers s =>
    simp only [Preprocessor.advance]
    cases here.lines with
    | nil => exact .resume h _
    | cons line rest =>
      dsimp only
      cases act here.file here.number here.conditions s line with
      | fail fault => trivial
      | proceed conditions t => exact Chain.congr h rfl rfl
      | enter reference =>
        dsimp only
        cases he : c.enter fs here.file (Moment.stack (.working here includers s)) reference with
        | error e => trivial
        | ok found =>
          obtain ⟨place, text⟩ := found
          obtain ⟨hn, ht⟩ := enter_eq_ok he
          have hrest : Chain fs root ({ here with number := here.number + 1, lines := rest } :: includers) :=
            Chain.congr h rfl rfl
          exact .included ⟨place, text, rfl, rfl, ht, hn⟩ hrest

theorem openFile_eq_error {stack : List Location} {p : Path} {e : Error} (h : openFile fs stack p = .error e) :
    (∃ place, e = .circularInclude place (stack.headD place) ∧ fs.trace p = .ok place ∧ place ∈ stack) ∨
      ∀ place includer, e ≠ .circularInclude place includer := by
  simp only [openFile] at h
  cases ht : fs.trace p with
  | error fault =>
    rw [ht] at h
    obtain rfl := Except.error.inj h
    exact .inr fun _ _ => by simp
  | ok place =>
    rw [ht] at h
    dsimp only at h
    by_cases hs : place ∈ stack
    · rw [if_pos hs] at h
      exact .inl ⟨place, (Except.error.inj h).symm, rfl, hs⟩
    · rw [if_neg hs] at h
      right
      intro place' includer
      split at h
      · cases h
      · obtain rfl := Except.error.inj h
        simp
      · obtain rfl := Except.error.inj h
        simp

theorem sound_start (macros : List Macro) : (c.start fs macros root).Sound fs root := by
  cases root with
  | file p =>
    simp only [start]
    cases ho : openFile fs [] p with
    | error e => trivial
    | ok found =>
      obtain ⟨place, text⟩ := found
      exact .file ⟨p, rfl⟩ ⟨place, text, rfl, rfl, (openFile_eq_ok ho).2, List.not_mem_nil⟩
  | text text origin => exact .text ⟨text, rfl⟩ rfl

variable (c fs root) in
/-- What is open is in order at every moment. -/
theorem sound_moment (macros : List Macro) (steps : Nat) : (c.moment fs macros root steps).Sound fs root := by
  induction steps with
  | zero => exact sound_start macros
  | succ steps ih =>
    rw [moment, later_succ]
    exact ih.advance

end Invariant

/-! ## Circular includes -/

/-- The next line of a file is a visible directive that includes the file at a place, however its path is
spelled. -/
def Includes (c : Preprocessor) (fs : FileSystem) (here : Opened) (place : Location) : Prop :=
  ∃ line rest reference path, here.lines = line :: rest ∧ here.conditions.isVisible = true ∧
    Directive.ofLine? line.body = some (.includeFile reference) ∧ c.find fs here.file reference = .ok path ∧
    fs.trace path = .ok place

section Circular
variable {c : Preprocessor} {fs : FileSystem} {root : Root} {here : Opened} {includers : List Opened} {s : State}
  {place includer : Location}

theorem act_eq_enter {file : Path} {number : Nat} {conditions : ConditionStack} {line : Line} {reference : Reference} :
    act file number conditions s line = .enter reference ↔
      conditions.isVisible = true ∧ Directive.ofLine? line.body = some (.includeFile reference) := by
  simp only [act]
  cases Directive.ofLine? line.body with
  | none => simp
  | some d =>
    cases d with
    | includeFile reference' =>
      by_cases hv : conditions.isVisible = true <;> simp [follow, hv]
    | otherwise =>
      simp only [follow]
      split <;> simp
    | close =>
      simp only [follow]
      split <;> simp
    | invalid fault opensConditional =>
      simp only [follow]
      split <;> simp
    | _ => simp [follow]

theorem find_eq_error {file : Path} {reference : Reference} {e : Error} (h : c.find fs file reference = .error e) :
    ∃ p, e = .fileNotFound p := by
  cases reference with
  | relative p =>
    simp only [find] at h
    split at h
    · cases h
    · exact ⟨_, (Except.error.inj h).symm⟩
  | search p =>
    simp only [find] at h
    split at h
    · cases h
    · exact ⟨_, (Except.error.inj h).symm⟩

/-- Why an include fails because it is circular. -/
theorem enter_eq_circular {file : Path} {stack : List Location} {reference : Reference}
    (h : c.enter fs file stack reference = .error (.circularInclude place includer)) :
    ∃ path, c.find fs file reference = .ok path ∧ fs.trace path = .ok place ∧ place ∈ stack ∧
      includer = stack.headD place := by
  simp only [enter, bind, Except.bind] at h
  cases hf : c.find fs file reference with
  | error e =>
    rw [hf] at h
    obtain ⟨p, rfl⟩ := find_eq_error hf
    cases h
  | ok path =>
    rw [hf] at h
    rcases openFile_eq_error h with ⟨place', hc, ht, hs⟩ | hn
    · obtain ⟨rfl, rfl⟩ := Error.circularInclude.inj hc
      exact ⟨path, rfl, ht, hs, rfl⟩
    · exact absurd rfl (hn place includer)

/-- An include of a file that is open ends the run. -/
theorem advance_includes (h : c.Includes fs here place) (hp : place ∈ Moment.stack (.working here includers s)) :
    c.advance fs (.working here includers s) =
      .ended (.error ⟨.circularInclude place ((Moment.stack (.working here includers s)).headD place),
        s.warnings⟩) := by
  obtain ⟨line, rest, reference, path, hl, hv, hd, hf, ht⟩ := h
  have ho : c.enter fs here.file (Moment.stack (.working here includers s)) reference =
      .error (.circularInclude place ((Moment.stack (.working here includers s)).headD place)) := by
    simp only [enter, hf, bind, Except.bind, openFile, ht, if_pos hp]
  simp only [advance, hl, act_eq_enter.2 ⟨hv, hd⟩, ho]

/-- Nothing else ends a run in this way. -/
theorem includes_of_advance {warnings : List Warning} (h : c.advance fs (.working here includers s) =
      .ended (.error ⟨.circularInclude place includer, warnings⟩)) :
    c.Includes fs here place ∧ place ∈ Moment.stack (.working here includers s) ∧
      includer = (Moment.stack (.working here includers s)).headD place := by
  simp only [advance] at h
  cases hl : here.lines with
  | nil =>
    rw [hl] at h
    cases includers <;> cases h
  | cons line rest =>
    rw [hl] at h
    dsimp only at h
    cases ha : act here.file here.number here.conditions s line with
    | fail fault =>
      rw [ha] at h
      cases h
    | proceed conditions t =>
      rw [ha] at h
      cases h
    | enter reference =>
      rw [ha] at h
      dsimp only at h
      cases he : c.enter fs here.file (Moment.stack (.working here includers s)) reference with
      | ok found =>
        rw [he] at h
        cases h
      | error e =>
        rw [he] at h
        obtain ⟨rfl, -⟩ := Failure.mk.inj (Except.error.inj (Moment.ended.inj h))
        obtain ⟨hv, hd⟩ := act_eq_enter.1 ha
        obtain ⟨path, hf, ht, hs, hi⟩ := enter_eq_circular he
        exact ⟨⟨line, rest, reference, path, hl, hv, hd, hf, ht⟩, hs, hi⟩

theorem finish_eq_error {result : Except Failure State} {e : Error} (h : (finish result).result = .error e) :
    ∃ warnings, result = .error ⟨e, warnings⟩ := by
  cases result with
  | ok s => cases h
  | error f => exact ⟨f.warnings, congrArg _ (congrArg (Failure.mk · f.warnings) (Except.error.inj h))⟩

/-- Nothing is open yet when the first file is. -/
theorem start_ne_circular (macros : List Macro) {warnings : List Warning} :
    c.start fs macros root ≠ .ended (.error ⟨.circularInclude place includer, warnings⟩) := by
  intro h
  cases root with
  | text text origin => cases h
  | file p =>
    simp only [start] at h
    cases ho : openFile fs [] p with
    | ok found =>
      rw [ho] at h
      cases h
    | error e =>
      rw [ho] at h
      obtain ⟨rfl, -⟩ := Failure.mk.inj (Except.error.inj (Moment.ended.inj h))
      rcases openFile_eq_error ho with ⟨place', -, -, hs⟩ | hn
      · cases hs
      · exact hn place includer rfl

/-- Flattening ends, whatever includes what. While it is under way no place is on the stack twice, so it is
never deeper than there are files, the text that was given aside. It fails because of a circular include if
and only if it comes to a visible directive that leads to a file that is open; the error names that file,
and the file that the directive stands in. -/
theorem circular_includes_reported (c : Preprocessor) (fs : FileSystem) (macros : List Macro) (root : Root) :
    (∃ steps result, c.moment fs macros root steps = .ended result ∧ c.process fs macros root = finish result) ∧
      (∀ steps, (c.moment fs macros root steps).stack.Nodup ∧
        (c.moment fs macros root steps).files.length ≤ fs.filePlaces.dedup.length + 1) ∧
      (∀ place includer, (c.process fs macros root).result = .error (.circularInclude place includer) ↔
        ∃ steps here includers s, c.moment fs macros root steps = .working here includers s ∧
          c.Includes fs here place ∧ place ∈ Moment.stack (.working here includers s) ∧
          here.place? = some includer) ∧
      ∀ steps, ∀ f ∈ (c.moment fs macros root steps).files, ∀ place, f.place? = some place →
        f.file = place.path ∨ ∃ text, root = .text text f.file ∧ anchor? fs f.file = some place := by
  obtain ⟨steps, result, hend, hprocess⟩ := c.exists_moment_ended fs macros root
  refine ⟨⟨steps, result, hend, hprocess⟩, fun steps => ?_, fun place includer => ⟨fun h => ?_, ?_⟩, fun steps => ?_⟩
  · have hs := c.sound_moment fs root macros steps
    cases hm : c.moment fs macros root steps with
    | ended result' => exact ⟨List.nodup_nil, Nat.zero_le _⟩
    | working here includers s =>
      rw [hm] at hs
      exact ⟨Chain.nodup hs, Chain.length_le hs⟩
  · -- The last step was an include of a file that was open, and not the opening of the first file.
    obtain ⟨warnings, rfl⟩ := finish_eq_error (hprocess ▸ h)
    rcases c.exists_last fs hend with hstart | ⟨before, here, includers, s, hm, ha⟩
    · exact absurd hstart (start_ne_circular macros)
    · obtain ⟨hi, hp, hh⟩ := includes_of_advance ha
      have hs := c.sound_moment fs root macros before
      rw [moment, hm] at hs
      exact ⟨before, here, includers, s, hm, hi, hp, hh ▸ Chain.place?_eq_headD hs hp⟩
  · rintro ⟨before, here, includers, s, hm, hi, hp, hh⟩
    have hs := c.sound_moment fs root macros before
    rw [hm] at hs
    obtain rfl : (Moment.stack (.working here includers s)).headD place = includer :=
      Option.some.inj ((Chain.place?_eq_headD hs hp).symm.trans hh)
    have hnext := (congrArg (c.advance fs) hm).trans (advance_includes hi hp)
    rw [moment, ← later_succ] at hnext
    rw [hprocess, c.later_unique fs hend hnext]
    rfl
  · have hs := c.sound_moment fs root macros steps
    cases hm : c.moment fs macros root steps with
    | ended result' =>
      intro f hf
      cases hf
    | working here includers s =>
      rw [hm] at hs
      exact Chain.file_eq hs

end Circular

end ShaderBuild.Preprocessor
