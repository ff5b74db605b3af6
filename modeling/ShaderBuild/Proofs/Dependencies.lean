import ShaderBuild.Proofs.Includes
import ShaderBuild.Proofs.Numbering
import ShaderBuild.Proofs.Places
/-!
# Dependencies are complete

What a run reports as its dependencies is what it read (`mem_dependencies_iff`): at every moment the files
noted are those that have been open. A run looks at the contents of nothing else, so it goes the same way in
all files that have the same tree and agree on the dependencies (`run_of_sameTree`).
-/

namespace ShaderBuild.Preprocessor

/-! ## The files that were read -/

theorem mem_depend {s : State} {place l : Location} :
    l ∈ (s.depend place).dependencies ↔ l = place ∨ l ∈ s.dependencies := by
  simp only [State.depend]
  split
  · next h =>
    refine ⟨.inr, ?_⟩
    rintro (rfl | hl)
    · simpa using h
    · exact hl
  · exact SortedList.mem_insert

theorem dependencies_endLine (s : State) : s.endLine.dependencies = s.dependencies := by
  simp only [State.endLine]
  split <;> rfl

theorem dependencies_closeFile (s : State) (file : Path) (conditions : ConditionStack) :
    (s.closeFile file conditions).dependencies = s.dependencies := by
  simp only [State.closeFile]
  split <;> rfl

/-- A line that is no include reads nothing. -/
theorem dependencies_of_act {file : Path} {number : Nat} {conditions conditions' : ConditionStack} {s t : State}
    {line : Line} (h : act file number conditions s line = .proceed conditions' t) :
    t.dependencies = s.dependencies := by
  simp only [act] at h
  cases hd : Directive.ofLine? line.body with
  | none =>
    rw [hd] at h
    obtain ⟨-, rfl⟩ := Action.proceed.inj h
    split <;> rfl
  | some d =>
    rw [hd] at h
    cases d with
    | includeFile reference =>
      simp only [follow] at h
      split at h
      · cases h
      · rw [(Action.proceed.inj h).2]
    | define name value =>
      obtain ⟨-, rfl⟩ := Action.proceed.inj h
      split <;> rfl
    | undefine name =>
      obtain ⟨-, rfl⟩ := Action.proceed.inj h
      split <;> rfl
    | openIf defined name => rw [(Action.proceed.inj h).2]
    | otherwise =>
      simp only [follow] at h
      split at h
      · rw [(Action.proceed.inj h).2]
      · cases h
    | close =>
      simp only [follow] at h
      split at h
      · rw [(Action.proceed.inj h).2]
      · cases h
    | invalid fault opensConditional =>
      simp only [follow] at h
      split at h
      · cases h
      · rw [(Action.proceed.inj h).2]
    | unknown text =>
      obtain ⟨-, rfl⟩ := Action.proceed.inj h
      split <;> rfl

/-- The state of a run, unless it has failed. -/
def Moment.state? : Moment → Option State
  | .working _ _ s => some s
  | .ended (.ok s) => some s
  | .ended (.error _) => none

section Reads
variable {c : Preprocessor} {fs : FileSystem}

theorem state?_resume (includers : List Opened) (s : State) :
    (Moment.resume includers s).state? = some (if includers = [] then s else s.endLine) := by
  cases includers <;> rfl

theorem stack_resume_subset {here : Opened} {includers : List Opened} {s : State} (t : State) {place : Location}
    (h : place ∈ (Moment.resume includers t).stack) : place ∈ Moment.stack (.working here includers s) := by
  have hsub : (Moment.resume includers t).files ⊆ here :: includers := by
    cases includers with
    | nil => exact List.nil_subset _
    | cons next others => exact List.subset_cons_self _ _
  exact List.filterMap_subset _ hsub h

/-- One step notes what it opens, if what was open before had been noted. -/
theorem mem_dependencies_advance {m : Moment} {s t : State} (hs : m.state? = some s)
    (ht : (c.advance fs m).state? = some t) (h : ∀ place ∈ m.stack, place ∈ s.dependencies) (place : Location) :
    place ∈ t.dependencies ↔ place ∈ s.dependencies ∨ place ∈ (c.advance fs m).stack := by
  cases m with
  | ended result =>
    obtain rfl := Option.some.inj (hs.symm.trans ht)
    exact ⟨.inl, fun hp => hp.resolve_right List.not_mem_nil⟩
  | working here includers s' =>
    obtain rfl := Option.some.inj hs
    simp only [advance] at ht ⊢
    cases hl : here.lines with
    | nil =>
      -- a file is closed: nothing is read, and what is still open was open before
      rw [hl] at ht
      dsimp only at ht ⊢
      rw [state?_resume] at ht
      have hd : t.dependencies = s'.dependencies := by
        rw [← Option.some.inj ht]
        split <;> simp only [dependencies_endLine, dependencies_closeFile]
      rw [hd]
      exact ⟨.inl, fun hp => hp.elim id fun hp => h place (stack_resume_subset _ hp)⟩
    | cons line rest =>
      rw [hl] at ht
      dsimp only at ht ⊢
      cases ha : act here.file here.number here.conditions s' line with
      | fail fault =>
        rw [ha] at ht
        cases ht
      | proceed conditions u =>
        rw [ha] at ht
        obtain rfl := Option.some.inj ht
        rw [dependencies_of_act ha]
        exact ⟨.inl, fun hp => hp.elim id (h place)⟩
      | enter reference =>
        rw [ha] at ht
        dsimp only at ht ⊢
        cases he : c.enter fs here.file (Moment.stack (.working here includers s')) reference with
        | error e =>
          rw [he] at ht
          cases ht
        | ok found =>
          -- a file is opened, and noted
          obtain ⟨opening, text⟩ := found
          rw [he] at ht
          obtain rfl := Option.some.inj ht
          dsimp only
          rw [mem_depend]
          have hstack : place ∈ Moment.stack (.working (c.opened opening text)
              ({ here with number := here.number + 1, lines := rest } :: includers) (s'.depend opening)) ↔
              place = opening ∨ place ∈ Moment.stack (.working here includers s') := List.mem_cons
          rw [hstack]
          exact ⟨fun hp => hp.elim (fun hp => .inr (.inl hp)) .inl,
            fun hp => hp.elim .inr fun hp => hp.imp id (h place)⟩

theorem exists_state?_of_advance {m : Moment} {t : State} (h : (c.advance fs m).state? = some t) :
    ∃ s, m.state? = some s := by
  cases m with
  | working here includers s => exact ⟨s, rfl⟩
  | ended result => exact ⟨t, h⟩

/-- The dependencies of a file are the places that have been open. -/
theorem mem_dependencies_iff {macros : List Macro} {p : Path} {steps : Nat} {s : State}
    (h : (c.moment fs macros (.file p) steps).state? = some s) (place : Location) :
    place ∈ s.dependencies ↔ ∃ k ≤ steps, place ∈ (c.moment fs macros (.file p) k).stack := by
  induction steps generalizing s place with
  | zero =>
    have hstart : place ∈ s.dependencies ↔ place ∈ (c.start fs macros (.file p)).stack := by
      have h' : (c.start fs macros (.file p)).state? = some s := h
      simp only [start] at h' ⊢
      cases ho : openFile fs [] p with
      | error e =>
        rw [ho] at h'
        cases h'
      | ok found =>
        obtain ⟨opening, text⟩ := found
        rw [ho] at h'
        obtain rfl := Option.some.inj h'
        exact mem_depend.trans List.mem_cons.symm
    rw [hstart]
    constructor
    · exact fun hp => ⟨0, Nat.le_refl 0, hp⟩
    · rintro ⟨k, hk, hp⟩
      rwa [Nat.le_zero.1 hk] at hp
  | succ steps ih =>
    have hnext : c.moment fs macros (.file p) (steps + 1) = c.advance fs (c.moment fs macros (.file p) steps) :=
      c.later_succ fs _ steps
    rw [hnext] at h
    obtain ⟨s', hs'⟩ := exists_state?_of_advance h
    have hnow : ∀ place ∈ (c.moment fs macros (.file p) steps).stack, place ∈ s'.dependencies :=
      fun place hp => (ih hs' place).2 ⟨steps, Nat.le_refl steps, hp⟩
    rw [mem_dependencies_advance hs' h hnow, ih hs', ← hnext]
    constructor
    · rintro (⟨k, hk, hp⟩ | hp)
      · exact ⟨k, Nat.le_succ_of_le hk, hp⟩
      · exact ⟨steps + 1, Nat.le_refl _, hp⟩
    · rintro ⟨k, hk, hp⟩
      rcases Nat.le_succ_iff.1 hk with hk | rfl
      · exact .inl ⟨k, hk, hp⟩
      · exact .inr hp

end Reads

/-! ## Files that agree on the dependencies -/

section TwoSystems
variable {c : Preprocessor} {fs fs' : FileSystem} (h : fs.SameTree fs')

theorem readTextAt_eq_ok {l : Location} {text : String} :
    fs.readTextAt l = .ok text ↔ ∃ content, fs.content? l = some content ∧ FileSystem.asText content = .ok text := by
  simp only [FileSystem.readTextAt, FileSystem.readAt, FileSystem.content?, bind, Except.bind]
  cases fs.node? l with
  | none => simp
  | some node => cases node <;> simp

theorem trace_of_openFile {stack : List Location} {p : Path} {place : Location} {text : String}
    (h : openFile fs stack p = .ok (place, text)) : fs.trace p = .ok place := by
  simp only [openFile] at h
  cases ht : fs.trace p with
  | error fault =>
    rw [ht] at h
    cases h
  | ok place' =>
    rw [ht] at h
    dsimp only at h
    split at h
    · cases h
    · split at h
      · rw [(Prod.mk.inj (Except.ok.inj h)).1]
      · cases h
      · cases h

theorem finish_eq_ok {result : Except Failure State} {r : Flattened} (h : (finish result).result = .ok r) :
    ∃ s : State, result = .ok s ∧ r = ⟨s.output, s.dependencies⟩ := by
  cases result with
  | error f => cases h
  | ok s => exact ⟨s, rfl, (Except.ok.inj h).symm⟩

include h

theorem find_of_sameTree : c.find fs' = c.find fs := by
  funext file reference
  cases reference <;> simp only [find, h.isFile]

/-- A file that is the same is opened in the same way. -/
theorem openFile_of_sameTree {stack : List Location} {p : Path} {place : Location} {text : String}
    (ho : openFile fs stack p = .ok (place, text)) (hc : fs'.content? place = fs.content? place) :
    openFile fs' stack p = .ok (place, text) := by
  obtain ⟨hs, hr⟩ := openFile_eq_ok ho
  have hr' : fs'.readTextAt place = .ok text := by
    obtain ⟨content, h1, h2⟩ := readTextAt_eq_ok.1 hr
    exact readTextAt_eq_ok.2 ⟨content, hc.trans h1, h2⟩
  simp only [openFile, h.trace, trace_of_openFile ho, if_neg hs, hr']

theorem enter_of_sameTree {file : Path} {stack : List Location} {reference : Reference} {place : Location}
    {text : String} (he : c.enter fs file stack reference = .ok (place, text))
    (hc : fs'.content? place = fs.content? place) : c.enter fs' file stack reference = .ok (place, text) := by
  simp only [enter, bind, Except.bind] at he ⊢
  rw [find_of_sameTree h]
  cases hf : c.find fs file reference with
  | error e =>
    rw [hf] at he
    cases he
  | ok p =>
    rw [hf] at he
    exact openFile_of_sameTree h he hc

/-- A run that succeeds keeps what was noted, and succeeds in all files that agree on what it notes. -/
theorem run_of_sameTree (file : Path) (stack : List Location) (number : Nat) (conditions : ConditionStack)
    (lines : List Line) (s : State) : ∀ t : State, c.run fs file stack number conditions lines s = .ok t →
      s.dependencies ⊆ t.dependencies ∧
        ((∀ place ∈ t.dependencies, fs'.content? place = fs.content? place) →
          c.run fs' file stack number conditions lines s = .ok t) := by
  fun_induction c.run fs file stack number conditions lines s with
  | case1 file stack number conditions s =>
    intro t ht
    obtain rfl := Except.ok.inj ht
    rw [dependencies_closeFile]
    exact ⟨List.Subset.refl _, fun _ => by rw [run]⟩
  | case2 => intro t ht; cases ht
  | case3 file stack number conditions s line rest conditions' u ha ih =>
    intro t ht
    obtain ⟨hsub, hrun⟩ := ih t ht
    rw [dependencies_of_act ha] at hsub
    exact ⟨hsub, fun hc => by rw [run_proceed c fs' file stack ha]; exact hrun hc⟩
  | case4 => intro t ht; cases ht
  | case5 => intro t ht; cases ht
  | case6 file stack number conditions s line rest reference ha place text he u hu ih ihr =>
    intro t ht
    obtain ⟨hin, hrun⟩ := ih u hu
    obtain ⟨hout, hrest⟩ := ihr t ht
    rw [dependencies_endLine] at hout
    have hplace : place ∈ t.dependencies := hout (hin (mem_depend.2 (.inl rfl)))
    refine ⟨fun l hl => hout (hin (mem_depend.2 (.inr hl))), fun hc => ?_⟩
    -- the included file is the same, and so are those that it notes
    rw [run_cons, ha]
    dsimp only
    rw [enter_of_sameTree h he (hc place hplace)]
    dsimp only
    rw [hrun fun l hl => hc l (hout hl)]
    exact hrest hc

/-- A file that was flattened is flattened to the same in all files that agree on its dependencies. -/
theorem processFile_of_sameTree {p : Path} {macros : List Macro} {r : Flattened}
    (hr : (c.processFile fs p macros).result = .ok r)
    (hc : ∀ place ∈ r.dependencies, fs'.content? place = fs.content? place) :
    c.processFile fs' p macros = c.processFile fs p macros := by
  cases ho : openFile fs [] p with
  | error e =>
    simp only [processFile, ho] at hr
    cases hr
  | ok found =>
    obtain ⟨root, text⟩ := found
    simp only [processFile, ho] at hr
    obtain ⟨s, hrun, rfl⟩ := finish_eq_ok hr
    obtain ⟨hnoted, hsame⟩ := run_of_sameTree h _ _ _ _ _ _ s hrun
    have hroot : root ∈ s.dependencies := hnoted (mem_depend.2 (.inl rfl))
    simp only [processFile, ho, openFile_of_sameTree h ho (hc root hroot), hrun, hsame hc]

end TwoSystems

/-! ## What the dependencies are -/

section Complete
variable {c : Preprocessor} {fs : FileSystem} {p : Path} {macros : List Macro} {r : Flattened}

/-- The dependencies of a file that was flattened are the places that have been open. -/
theorem mem_dependencies_of_processFile (hr : (c.processFile fs p macros).result = .ok r) (place : Location) :
    place ∈ r.dependencies ↔ ∃ steps, place ∈ (c.moment fs macros (.file p) steps).stack := by
  obtain ⟨steps, result, hend, hprocess⟩ := c.exists_moment_ended fs macros (.file p)
  have hresult : c.processFile fs p macros = finish result := hprocess
  rw [hresult] at hr
  obtain ⟨s, rfl, rfl⟩ := finish_eq_ok hr
  rw [mem_dependencies_iff (congrArg Moment.state? hend)]
  refine ⟨fun ⟨k, _, hp⟩ => ⟨k, hp⟩, fun ⟨k, hp⟩ => ⟨k, ?_, hp⟩⟩
  -- Nothing is open after the end.
  by_contra hk
  obtain ⟨others, rfl⟩ := Nat.exists_eq_add_of_le (Nat.le_of_not_le hk)
  rw [moment, later_add, ← moment, hend, later_ended] at hp
  cases hp

/-- What is open has been read. -/
theorem readable_of_mem_stack {steps : Nat} {place : Location}
    (hp : place ∈ (c.moment fs macros (.file p) steps).stack) : ∃ text, fs.readTextAt place = .ok text := by
  have hs := c.sound_moment fs (.file p) macros steps
  cases hm : c.moment fs macros (.file p) steps with
  | ended result =>
    rw [hm] at hp
    cases hp
  | working here includers s =>
    rw [hm] at hs hp
    exact Chain.readable hs place hp

/-- The first file to be open is the one that is flattened. -/
theorem exists_mem_stack_start (hr : (c.processFile fs p macros).result = .ok r) :
    ∃ place ∈ (c.moment fs macros (.file p) 0).stack, fs.trace p = .ok place := by
  have hstart : c.moment fs macros (.file p) 0 = c.start fs macros (.file p) := rfl
  cases ho : openFile fs [] p with
  | error e =>
    simp only [processFile, ho] at hr
    cases hr
  | ok found =>
    obtain ⟨root, text⟩ := found
    refine ⟨root, ?_, trace_of_openFile ho⟩
    simp only [hstart, start, ho]
    exact List.mem_cons_self

/-- The dependencies of a file that was flattened are all that it depends on: with any other contents of the
other files it is flattened to the same. They are the files that were open at some moment, the file itself
among them, each under its canonical path. -/
theorem dependencies_complete (hr : (c.processFile fs p macros).result = .ok r) :
    (∀ fs', fs.SameTree fs' → (∀ place ∈ r.dependencies, fs'.content? place = fs.content? place) →
        c.processFile fs' p macros = c.processFile fs p macros) ∧
      (∀ place, place ∈ r.dependencies ↔ ∃ steps, place ∈ (c.moment fs macros (.file p) steps).stack) ∧
      (∀ place ∈ r.dependencies, (∃ text, fs.readTextAt place = .ok text) ∧
        (fs.IsTree → fs.trace place.path = .ok place)) ∧
      ∃ place ∈ r.dependencies, fs.trace p = .ok place := by
  have hopen := mem_dependencies_of_processFile hr
  refine ⟨fun fs' h hc => processFile_of_sameTree h hr hc, hopen, fun place hp => ?_, ?_⟩
  · obtain ⟨steps, hs⟩ := (hopen place).1 hp
    obtain ⟨text, ht⟩ := readable_of_mem_stack hs
    obtain ⟨content, hcontent, -⟩ := readTextAt_eq_ok.1 ht
    refine ⟨⟨text, ht⟩, fun htree => htree.trace_path ?_⟩
    rw [FileSystem.node?_of_content? hcontent]
    rfl
  · obtain ⟨place, hs, ht⟩ := exists_mem_stack_start hr
    exact ⟨place, (hopen place).2 ⟨0, hs⟩, ht⟩

/-- A file that includes another one, and a third one only where a macro is defined. -/
def guarded : FileSystem where
  nodes := [(⟨["a"]⟩, .file (Bytes.ofText "#include \"b\"\n#ifdef X\n#include \"h\"\n#endif\n")),
    (⟨["b"]⟩, .file (Bytes.ofText "x\n")), (⟨["h"]⟩, .file [])]

theorem isTree_guarded : guarded.IsTree := .of_listed (by decide)

/-- What the third file holds does not matter while the macro is not defined. -/
theorem dependencies_complete_guarded :
    let c : Preprocessor := {}
    let r : Flattened := ⟨"x\n", [⟨["a"]⟩, ⟨["b"]⟩]⟩
    let fs' := guarded.put ⟨["h"]⟩ (.file (Bytes.ofText "#else\n"))
    (c.processFile guarded ⟨"/./a"⟩ []).result = .ok r ∧ guarded.SameTree fs' ∧
      (∀ place ∈ r.dependencies, fs'.content? place = guarded.content? place) ∧
      c.processFile fs' ⟨"/./a"⟩ [] = c.processFile guarded ⟨"/./a"⟩ [] ∧
      ∀ place ∈ r.dependencies, guarded.trace place.path = .ok place := by
  intro c r fs'
  have hflat : (c.moment guarded [] (.file ⟨"/./a"⟩) 7).flattened? = some r := by decide +kernel
  have hr : (c.processFile guarded ⟨"/./a"⟩ []).result = .ok r := c.result_of_flattened? guarded hflat
  have htree : guarded.SameTree fs' := .put (by decide) _
  have hc : ∀ place ∈ r.dependencies, fs'.content? place = guarded.content? place := by decide
  obtain ⟨hsame, -, hread, -⟩ := dependencies_complete hr
  exact ⟨hr, htree, hc, hsame fs' htree hc, fun place hp => (hread place hp).2 isTree_guarded⟩

end Complete

end ShaderBuild.Preprocessor
