import ShaderBuild.Comment
import ShaderBuild.Condition
import ShaderBuild.Directive
import ShaderBuild.FileSystem
import ShaderBuild.Macro.Expand
import ShaderBuild.SortedList
/-!
# Flattening a source

A source and everything it includes become one text: directives are followed, and visible lines are
written out with their macros expanded. While a file is open it cannot be included again, so the
depth of includes is bounded by the number of files.
-/

namespace ShaderBuild

/-- How sources are flattened. -/
structure Preprocessor where
  /-- Where system includes are searched, in this order. -/
  includeDirs : List Path := []
  stripComments : Bool := true
  deriving DecidableEq, Repr

/-- A flattened source. -/
structure Flattened where
  text : String
  /-- The files that were read, in order of their places. -/
  dependencies : List Location
  deriving DecidableEq, Repr

namespace Preprocessor

/-- What is known while sources are being flattened. -/
structure State where
  macros : MacroTable
  output : String := ""
  dependencies : List Location := []
  warnings : List Warning := []
  deriving DecidableEq, Repr

namespace State

/-- Write the expansion of a line. -/
def write (s : State) (line : Line) : State :=
  { s with output := s.output ++ String.ofList (s.macros.expand line.body ++ line.ending) }

/-- Is there a last line that does not end? -/
def isInLine (s : State) : Bool :=
  match s.output.toList.getLast? with
  | none => false
  | some c => c != '\n'

/-- End the last line, if it does not end yet. -/
def endLine (s : State) : State := if s.isInLine then { s with output := s.output ++ "\n" } else s

/-- Note that a file was read. -/
def depend (s : State) (place : Location) : State :=
  if s.dependencies.contains place then s
  else { s with dependencies := SortedList.insert Location.before place s.dependencies }

/-- Report something. -/
def warn (s : State) (w : Warning) : State := { s with warnings := s.warnings ++ [w] }

/-- Report the conditionals that are open at the end of a file. -/
def closeFile (s : State) (file : Path) (conditions : ConditionStack) : State :=
  if 1 < conditions.depth then s.warn (.unclosedConditionals file (conditions.depth - 1)) else s

end State

/-- An error, with what was reported before it. -/
structure Failure where
  error : Error
  warnings : List Warning
  deriving DecidableEq, Repr

/-- What a line asks for. -/
inductive Action where
  /-- Go on with the next line. -/
  | proceed (conditions : ConditionStack) (state : State)
  | enter (reference : Reference)
  | fail (fault : DirectiveFault)

/-- What a directive asks for. -/
def follow (file : Path) (number : Nat) (conditions : ConditionStack) (s : State) :
    Directive → Action
  | .includeFile reference =>
    if conditions.isVisible then .enter reference else .proceed conditions s
  | .define name value =>
    .proceed conditions
      (if conditions.isVisible then { s with macros := s.macros.insert name value } else s)
  | .undefine name =>
    .proceed conditions
      (if conditions.isVisible then { s with macros := s.macros.erase name } else s)
  | .openIf defined name => .proceed (conditions.push (s.macros.contains name == defined)) s
  | .otherwise =>
    match conditions.flip with
    | (true, conditions) => .proceed conditions s
    | (false, _) => .fail (.unmatched "else")
  | .close =>
    match conditions.pop with
    | (true, conditions) => .proceed conditions s
    | (false, _) => .fail (.unmatched "endif")
  | .invalid fault opensConditional =>
    if conditions.isVisible || opensConditional then .fail fault else .proceed conditions s
  | .unknown line =>
    .proceed conditions
      (if conditions.isVisible then s.warn (.unknownDirective file number line) else s)

/-- What a line asks for. -/
def act (file : Path) (number : Nat) (conditions : ConditionStack) (s : State) (line : Line) :
    Action :=
  match Directive.ofLine? line.body with
  | some d => follow file number conditions s d
  | none => .proceed conditions (if conditions.isVisible then s.write line else s)

/-- The path of the file that a directive in `file` refers to. -/
def find (c : Preprocessor) (fs : FileSystem) (file : Path) : Reference → Except Error Path
  | .relative p =>
    let path := (file.parent?.getD ⟨""⟩).join p
    if fs.isFile path then .ok path else .error (.fileNotFound path)
  | .search p =>
    match (c.includeDirs.map (·.join p)).find? fs.isFile with
    | some path => .ok path
    | none => .error (.fileNotFound p)

/-- The place and the text of a file that is to be opened while those in `stack` are open. -/
def openFile (fs : FileSystem) (stack : List Location) (p : Path) :
    Except Error (Location × String) :=
  match fs.trace p with
  | .error _ => .error (.fileNotFound p)
  | .ok place =>
    if place ∈ stack then .error (.circularInclude place (stack.headD place))
    else
      match fs.readTextAt place with
      | .ok text => .ok (place, text)
      | .error .notFound => .error (.fileNotFound place.path)
      | .error fault => .error (.unreadable fault)

/-- The place and the text of the file that a directive in `file` refers to. -/
def enter (c : Preprocessor) (fs : FileSystem) (file : Path) (stack : List Location)
    (reference : Reference) : Except Error (Location × String) := do
  openFile fs stack (← c.find fs file reference)

/-- The lines of a source. -/
def linesOf (c : Preprocessor) (text : String) : List Line :=
  Line.list (if c.stripComments then Comment.strip text.toList else text.toList)

/-! ## Termination -/

/-- The files that can still be opened. -/
def closedFiles (fs : FileSystem) (stack : List Location) : List Location :=
  fs.filePlaces.filter (!stack.contains ·)

theorem openFile_eq_ok {fs : FileSystem} {stack : List Location} {p : Path} {place : Location}
    {text : String} (h : openFile fs stack p = .ok (place, text)) :
    place ∉ stack ∧ fs.readTextAt place = .ok text := by
  unfold openFile at h
  split at h
  · simp at h
  · split at h
    · simp at h
    · next hs =>
      split at h
      · next ht =>
        simp only [Except.ok.injEq, Prod.mk.injEq] at h
        exact ⟨h.1 ▸ hs, h.1 ▸ h.2 ▸ ht⟩
      · simp at h
      · simp at h

theorem enter_eq_ok {c : Preprocessor} {fs : FileSystem} {file : Path} {stack : List Location}
    {reference : Reference} {place : Location} {text : String}
    (h : c.enter fs file stack reference = .ok (place, text)) :
    place ∉ stack ∧ fs.readTextAt place = .ok text := by
  simp only [enter, bind, Except.bind] at h
  split at h
  · simp at h
  · exact openFile_eq_ok h

theorem mem_filePlaces {fs : FileSystem} {place : Location} {text : String}
    (h : fs.readTextAt place = .ok text) : place ∈ fs.filePlaces := by
  have hr : ∃ content, fs.readAt place = .ok content := by
    simp only [FileSystem.readTextAt, bind, Except.bind] at h
    split at h
    · simp at h
    · next content hc => exact ⟨content, hc⟩
  obtain ⟨content, hc⟩ := hr
  have hn : fs.node? place = some (.file content) := by
    simp only [FileSystem.readAt] at hc
    split at hc
    · simp at hc
    · simp at hc
    · next hn => simpa using (Except.ok.inj hc) ▸ hn
  have hl : fs.nodes.lookup place = some (.file content) := by
    simp only [FileSystem.node?] at hn
    split at hn
    · simp at hn
    · exact hn
  have hm : place ∈ fs.nodes.map Prod.fst := by
    generalize fs.nodes = nodes at hl ⊢
    induction nodes with
    | nil => simp at hl
    | cons n ns ih =>
      obtain ⟨l, n⟩ := n
      rw [List.lookup_cons] at hl
      by_cases he : place = l
      · simp [he]
      · have : (place == l) = false := by simpa using he
        rw [this] at hl
        exact List.mem_cons_of_mem _ (ih hl)
  exact List.mem_filter.mpr ⟨hm, by simp [FileSystem.content?, hn]⟩

theorem length_closedFiles_lt {fs : FileSystem} {stack : List Location} {place : Location}
    (hp : place ∈ fs.filePlaces) (hs : place ∉ stack) :
    (closedFiles fs (place :: stack)).length < (closedFiles fs stack).length := by
  have hsub : closedFiles fs (place :: stack) = (closedFiles fs stack).filter (· != place) := by
    simp only [closedFiles, List.filter_filter]
    congr 1
    funext x
    by_cases hx : x = place <;> simp [hx]
  rw [hsub]
  exact List.length_filter_lt_length_iff_exists.mpr ⟨place, by simp [closedFiles, hp, hs], by simp⟩

/-! ## Processing -/

/-- Process the lines of `file`, the first of which has the number `number`. `stack` holds the
places of the files that are open, innermost first. -/
def run (c : Preprocessor) (fs : FileSystem) (file : Path) (stack : List Location) (number : Nat)
    (conditions : ConditionStack) (lines : List Line) (s : State) : Except Failure State :=
  match lines with
  | [] => .ok (s.closeFile file conditions)
  | line :: rest =>
    match act file number conditions s line with
    | .fail fault => .error ⟨.directive file number fault, s.warnings⟩
    | .proceed conditions s => run c fs file stack (number + 1) conditions rest s
    | .enter reference =>
      match _h : c.enter fs file stack reference with
      | .error e => .error ⟨e, s.warnings⟩
      | .ok (place, text) =>
        match run c fs place.path (place :: stack) 1 .root (c.linesOf text) (s.depend place) with
        | .error f => .error f
        | .ok s => run c fs file stack (number + 1) conditions rest s.endLine
termination_by ((closedFiles fs stack).length, lines.length)
decreasing_by
  · exact Prod.Lex.right _ (Nat.lt_succ_self _)
  · have h := enter_eq_ok _h
    exact Prod.Lex.left _ _ (length_closedFiles_lt (mem_filePlaces h.2) h.1)
  · exact Prod.Lex.right _ (Nat.lt_succ_self _)

/-- The result of flattening. -/
def finish : Except Failure State → Logged Flattened
  | .ok s => ⟨.ok ⟨s.output, s.dependencies⟩, s.warnings⟩
  | .error f => ⟨.error f.error, f.warnings⟩

/-- Flatten a file. -/
def processFile (c : Preprocessor) (fs : FileSystem) (p : Path) (macros : List Macro) :
    Logged Flattened :=
  match openFile fs [] p with
  | .error e => ⟨.error e, []⟩
  | .ok (place, text) =>
    let s : State := { macros := .ofList macros }
    finish (c.run fs place.path [place] 1 .root (c.linesOf text) (s.depend place))

/-- The place that a text named `origin` stands for: where that path leads or, if it leads nowhere,
the place that it spells out. A file `/a` is not at the path `/a/`, but this spells out its place. -/
def anchor? (fs : FileSystem) (origin : Path) : Option Location :=
  match fs.trace origin with
  | .ok place => some place
  | .error _ => Location.spelled? origin

/-- Flatten a text that goes by the name `origin`. The text cannot include the place that it stands
for. -/
def processText (c : Preprocessor) (fs : FileSystem) (text : String) (origin : Path)
    (macros : List Macro) : Logged Flattened :=
  let stack := (anchor? fs origin).toList
  finish (c.run fs origin stack 1 .root (c.linesOf text) { macros := .ofList macros })

end Preprocessor

end ShaderBuild
