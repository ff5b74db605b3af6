import Mathlib.Computability.StateTransition
import Mathlib.Data.List.Perm.Subperm
import ShaderBuild.Proofs.Expansion
/-!
# Macros inside of macros

How a text is expanded with one list of active macros for all texts: the name of a macro is put on the list before
its value is read, and taken off again behind it (`step`). When the value has been read, the list is what it was
before, and what was put out is the expansion (`reaches_read`). So the reader ends for every table, although what it
reads next are values, which may be longer than any text before.

At every moment the list holds the macros whose values are being read, each in its turn and none of them twice
(`Nested`). One step keeps this (`Nested.step`), so it holds during every run, and there are never more texts being
read than there are macros.
-/

namespace ShaderBuild.MacroTable

open Relation StateTransition

/-! ## A reader with a list of active macros -/

/-- What is left to do: to read a text, or to take off the list a macro whose value was read. -/
inductive Task where
  | read (text : List Char)
  | leave
  deriving DecidableEq

/-- A reader on its way: what is left to do, the innermost text first, the macros that it is inside of, and what it
has put out. -/
structure Expander where
  tasks : List Task
  active : List String := []
  output : List Char := []
  deriving DecidableEq

/-- The reader of a text. -/
def start (text : List Char) : Expander := { tasks := [.read text] }

/-- The macro that a piece is replaced by, and its value. -/
def entered? (t : MacroTable) (active : List String) : Piece → Option (String × String)
  | .verbatim _ => none
  | .word text =>
    if String.ofList text ∈ active then none
    else (t.get? (String.ofList text)).map fun value => (String.ofList text, value)

/-- One piece is read: it is copied, or it is a macro, and its value is read before the reader goes on. -/
def step (t : MacroTable) : Expander → Option Expander
  | ⟨[], _, _⟩ => none
  | ⟨.leave :: tasks, active, output⟩ => some ⟨tasks, active.tail, output⟩
  | ⟨.read [] :: tasks, active, output⟩ => some ⟨tasks, active, output⟩
  | ⟨.read (c :: cs) :: tasks, active, output⟩ =>
    let after := .read (piece c cs).2 :: tasks
    match t.entered? active (piece c cs).1 with
    | none => some ⟨after, active, output ++ (piece c cs).1.text⟩
    | some (name, value) => some ⟨.read value.toList :: .leave :: after, name :: active, output⟩

/-- The reader goes on as long as there is more to do than so many tasks. -/
def stepAbove (t : MacroTable) (count : Nat) (e : Expander) : Option Expander :=
  if count < e.tasks.length then t.step e else none

/-- A macro that is entered inside of others: it is a word with a value, and none of the others. -/
structure Enters (t : MacroTable) (active : List String) (name value : String) : Prop where
  get : t.get? name = some value
  word : Token.IsWord name.toList
  idle : name ∉ active

section Steps
variable {t : MacroTable} {active : List String} {c : Char} {cs : List Char} {name value : String}

theorem enters_of_entered? (h : t.entered? active (piece c cs).1 = some (name, value)) :
    t.Enters active name value ∧ (piece c cs).1 = .word name.toList := by
  cases hp : (piece c cs).1 with
  | verbatim text =>
    rw [hp] at h
    cases h
  | word text =>
    have hword : Token.IsWord text := by
      have hmem : text ∈ (piece c cs).1.words := by
        rw [hp]
        exact List.mem_singleton_self text
      exact (isWord_of_mem hmem).2
    rw [hp, entered?] at h
    split at h
    · cases h
    · next hidle =>
      obtain ⟨v, hv, he⟩ := Option.map_eq_some_iff.1 h
      obtain ⟨rfl, rfl⟩ := Prod.mk.inj he
      refine ⟨⟨hv, ?_, hidle⟩, ?_⟩ <;> rw [String.toList_ofList]
      exact hword

/-- The expansion of a text starts with that of its first piece. -/
theorem expandWithin_cons (t : MacroTable) (active : List String) (c : Char) (cs : List Char) :
    t.expandWithin active (c :: cs) =
      (match t.entered? active (piece c cs).1 with
        | none => (piece c cs).1.text
        | some (name, value) => t.expandWithin (name :: active) value.toList) ++
      t.expandWithin active (piece c cs).2 := by
  rw [expandWithin_eq, expandWithin_eq t active, substitute_cons]
  congr 1
  cases (piece c cs).1 with
  | verbatim text => rfl
  | word text =>
    rw [entered?, Piece.substitute, expandWord]
    by_cases ha : String.ofList text ∈ active
    · cases t.get? (String.ofList text) <;> simp [ha, Piece.text]
    · cases t.get? (String.ofList text) <;> simp [ha, Piece.text]

theorem expandWithin_nil (t : MacroTable) (active : List String) : t.expandWithin active [] = [] := by
  rw [expandWithin_eq, substitute_nil]

end Steps

/-! ## Every text is read to its end -/

section Ending
variable {t : MacroTable} {count : Nat}

theorem stepAbove_eq {e : Expander} (h : count < e.tasks.length) : t.stepAbove count e = t.step e := if_pos h

/-- A text is read to its end, and the list of active macros is then what it was. Values can be longer than the text,
but there are fewer macros left that can be entered inside of them. -/
theorem reaches_read (t : MacroTable) (active : List String) (text : List Char) {tasks : List Task}
    (h : count ≤ tasks.length) (output : List Char) :
    Reaches (t.stepAbove count) ⟨.read text :: tasks, active, output⟩
      ⟨tasks, active, output ++ t.expandWithin active text⟩ := by
  have hstep : t.stepAbove count ⟨.read text :: tasks, active, output⟩ = t.step ⟨.read text :: tasks, active, output⟩ :=
    stepAbove_eq (Nat.lt_succ_of_le h)
  cases text with
  | nil =>
    rw [expandWithin_nil, List.append_nil]
    exact .single hstep
  | cons c cs =>
    have hlength := length_piece_lt c cs
    rw [expandWithin_cons]
    cases hp : t.entered? active (piece c cs).1 with
    | none =>
      have hcopied : t.step ⟨.read (c :: cs) :: tasks, active, output⟩ =
          some ⟨.read (piece c cs).2 :: tasks, active, output ++ (piece c cs).1.text⟩ := by
        rw [step, hp]
      have hrest := reaches_read t active (piece c cs).2 h (output ++ (piece c cs).1.text)
      rw [List.append_assoc] at hrest
      exact .head (hstep.trans hcopied) hrest
    | some entered =>
      obtain ⟨name, value⟩ := entered
      have henters := (enters_of_entered? hp).1
      have hidle := length_idle_lt (mem_names_of_get? henters.get) henters.idle
      have hentered : t.step ⟨.read (c :: cs) :: tasks, active, output⟩ =
          some ⟨.read value.toList :: .leave :: .read (piece c cs).2 :: tasks, name :: active, output⟩ := by
        rw [step, hp]
      have hbelow : count ≤ (Task.leave :: .read (piece c cs).2 :: tasks).length := by
        simp only [List.length_cons]
        omega
      have hvalue := reaches_read t (name :: active) value.toList hbelow output
      have hleft : t.stepAbove count ⟨.leave :: .read (piece c cs).2 :: tasks, name :: active,
          output ++ t.expandWithin (name :: active) value.toList⟩ =
            some ⟨.read (piece c cs).2 :: tasks, active, output ++ t.expandWithin (name :: active) value.toList⟩ := by
        rw [stepAbove_eq]
        · rfl
        · simp only [List.length_cons]
          omega
      have hrest := reaches_read t active (piece c cs).2 h (output ++ t.expandWithin (name :: active) value.toList)
      rw [List.append_assoc] at hrest
      exact .head (hstep.trans hentered) (hvalue.trans (.head hleft hrest))
termination_by ((t.idle active).length, text.length)

/-- A reader that stops behind a text stops with the expansion of the text, and with the list as it was. -/
theorem eval_stepAbove (t : MacroTable) (text : List Char) (tasks : List Task) (active : List String)
    (output : List Char) :
    eval (t.stepAbove tasks.length) ⟨.read text :: tasks, active, output⟩ =
      .some ⟨tasks, active, output ++ t.expandWithin active text⟩ := by
  refine Part.eq_some_iff.2 (mem_eval.2 ⟨reaches_read t active text (Nat.le_refl _) output, ?_⟩)
  exact if_neg (Nat.lt_irrefl _)

theorem stepAbove_zero (t : MacroTable) : t.stepAbove 0 = t.step := by
  funext e
  obtain ⟨tasks, active, output⟩ := e
  cases tasks <;> rfl

theorem eval_step (t : MacroTable) (text : List Char) : eval t.step (start text) = .some ⟨[], [], t.expand text⟩ := by
  have h := t.eval_stepAbove text [] [] []
  rwa [List.length_nil, stepAbove_zero, List.nil_append, ← expand_eq] at h

end Ending

/-! ## What is being read -/

/-- What is left to do while a text is expanded, and the macros on the list. Every text but the outermost one is the
rest of the value of a macro, which is on the list and is taken off behind the text. -/
inductive Nested (t : MacroTable) (text : List Char) : List Task → List String → Prop
  | finished : Nested t text [] []
  | outside {rest : List Char} (part : rest <:+ text) : Nested t text [.read rest] []
  | inside {name value : String} {rest : List Char} {tasks : List Task} {active : List String}
    (enters : t.Enters active name value) (part : rest <:+ value.toList) (around : Nested t text tasks active) :
    Nested t text (.read rest :: .leave :: tasks) (name :: active)
  | leaving {name value : String} {tasks : List Task} {active : List String} (enters : t.Enters active name value)
    (around : Nested t text tasks active) : Nested t text (.leave :: tasks) (name :: active)

namespace Nested
variable {t : MacroTable} {text : List Char} {tasks : List Task} {active : List String}

theorem enters (h : Nested t text tasks active) :
    ∀ name ∈ active, t.contains name = true ∧ Token.IsWord name.toList := by
  induction h with
  | finished => exact nofun
  | outside part => exact nofun
  | inside enters part around ih => exact List.forall_mem_cons.2 ⟨⟨by rw [contains, enters.get]; rfl, enters.word⟩, ih⟩
  | leaving enters around ih => exact List.forall_mem_cons.2 ⟨⟨by rw [contains, enters.get]; rfl, enters.word⟩, ih⟩

theorem nodup (h : Nested t text tasks active) : active.Nodup := by
  induction h with
  | finished => exact List.nodup_nil
  | outside part => exact List.nodup_nil
  | inside enters part around ih => exact List.nodup_cons.2 ⟨enters.idle, ih⟩
  | leaving enters around ih => exact List.nodup_cons.2 ⟨enters.idle, ih⟩

/-- There is a macro on the list for every text that is being read inside of another one. -/
theorem count_leave (h : Nested t text tasks active) : tasks.count .leave = active.length := by
  induction h with
  | finished => rfl
  | outside part => rfl
  | inside enters part around ih => rw [List.count_cons_of_ne (by simp), List.count_cons_self, ih, List.length_cons]
  | leaving enters around ih => rw [List.count_cons_self, ih, List.length_cons]

theorem length_le (h : Nested t text tasks active) : active.length ≤ t.size := by
  have hsub : active ⊆ t.names := by
    intro name hn
    obtain ⟨value, hv⟩ := Option.isSome_iff_exists.1 (h.enters name hn).1
    exact mem_names_of_get? hv
  have hlength := (h.nodup.subperm hsub).length_le
  rwa [names, List.length_map] at hlength

/-- The step of a reader that reads a text, whatever is around the text. -/
theorem step_read {rest : List Char} {output : List Char} {e : Expander}
    (hs : t.step ⟨.read rest :: tasks, active, output⟩ = some e) :
    (rest = [] ∧ e = ⟨tasks, active, output⟩) ∨
    ∃ c cs, rest = c :: cs ∧
      (e = ⟨.read (piece c cs).2 :: tasks, active, output ++ (piece c cs).1.text⟩ ∨
      ∃ name value, t.Enters active name value ∧
        e = ⟨.read value.toList :: .leave :: .read (piece c cs).2 :: tasks, name :: active, output⟩) := by
  cases rest with
  | nil => exact .inl ⟨rfl, (Option.some.inj hs).symm⟩
  | cons c cs =>
    refine .inr ⟨c, cs, rfl, ?_⟩
    cases hp : t.entered? active (piece c cs).1 with
    | none =>
      rw [step, hp] at hs
      exact .inl (Option.some.inj hs).symm
    | some entered =>
      rw [step, hp] at hs
      exact .inr ⟨entered.1, entered.2, (enters_of_entered? hp).1, (Option.some.inj hs).symm⟩

theorem step {output : List Char} {e : Expander} (h : Nested t text tasks active)
    (hs : t.step ⟨tasks, active, output⟩ = some e) : Nested t text e.tasks e.active := by
  cases h with
  | finished => cases hs
  | outside part =>
    rcases step_read hs with ⟨-, rfl⟩ | ⟨c, cs, rfl, rfl | ⟨name, value, henters, rfl⟩⟩
    · exact .finished
    · exact .outside ((rest_suffix c cs).trans part)
    · exact .inside henters List.suffix_rfl (.outside ((rest_suffix c cs).trans part))
  | inside enters part around =>
    rcases step_read hs with ⟨-, rfl⟩ | ⟨c, cs, rfl, rfl | ⟨name, value, henters, rfl⟩⟩
    · exact .leaving enters around
    · exact .inside enters ((rest_suffix c cs).trans part) around
    · exact .inside henters List.suffix_rfl (.inside enters ((rest_suffix c cs).trans part) around)
  | leaving enters around =>
    obtain rfl := Option.some.inj hs
    exact around

/-- During a run, the texts that are being read and the macros on the list belong together. -/
theorem of_reaches {e : Expander} (h : Reaches t.step (start text) e) : Nested t text e.tasks e.active := by
  induction h with
  | refl => exact .outside List.suffix_rfl
  | tail _ hs ih => exact ih.step hs

end Nested

/-- The name of a macro on the list is copied. -/
theorem step_active {t : MacroTable} {name : String} {rest : List Char} {tasks : List Task} {active : List String}
    (hn : name ∈ active) (hw : Token.IsWord name.toList) (ha : Apart name.toList rest) (output : List Char) :
    t.step ⟨.read (name.toList ++ rest) :: tasks, active, output⟩ =
      some ⟨.read rest :: tasks, active, output ++ name.toList⟩ := by
  obtain ⟨c, cs, hc⟩ := List.exists_cons_of_ne_nil hw.ne_nil
  have hpieces := pieces_word hw ha
  have happend := piece_append c (cs ++ rest)
  rw [hc, List.cons_append, pieces_cons, ← hc] at hpieces
  have hpiece : (piece c (cs ++ rest)).1 = .word name.toList := (List.cons.inj hpieces).1
  have hrest : (piece c (cs ++ rest)).2 = rest := by
    rw [hpiece, ← List.cons_append, ← hc] at happend
    exact List.append_cancel_left happend
  rw [hc, List.cons_append, step, hpiece, hrest, entered?, String.ofList_toList, if_pos hn, ← hc]
  rfl

/-- Expansion ends for every table and every text, and no macro is expanded inside of itself. Whatever macros are on
the list when the reader comes to a text, it comes to the end of it, with the same macros on the list, and with its
expansion put out. When a text is expanded from the start, the macros on the list are always different macros of the
table, as many as there are texts being read inside of others; each of these is the rest of the value of its macro.
So they are never more than there are macros. And wherever the name of one of them comes up, it is copied. -/
theorem expansion_ends (t : MacroTable) :
    (∀ (text : List Char) (tasks : List Task) (active : List String) (output : List Char),
      eval (t.stepAbove tasks.length) ⟨.read text :: tasks, active, output⟩ =
        .some ⟨tasks, active, output ++ t.expandWithin active text⟩) ∧
    ∀ text : List Char, eval t.step (start text) = .some ⟨[], [], t.expand text⟩ ∧
      ∀ e : Expander, Reaches t.step (start text) e →
        Nested t text e.tasks e.active ∧ e.active.Nodup ∧ (∀ name ∈ e.active, t.contains name = true) ∧
        e.tasks.count .leave = e.active.length ∧ e.active.length ≤ t.size ∧
        ∀ name ∈ e.active, ∀ rest tasks, Apart name.toList rest → e.tasks = .read (name.toList ++ rest) :: tasks →
          t.step e = some ⟨.read rest :: tasks, e.active, e.output ++ name.toList⟩ := by
  refine ⟨t.eval_stepAbove, fun text => ⟨t.eval_step text, fun e he => ?_⟩⟩
  have hnested := Nested.of_reaches he
  refine ⟨hnested, hnested.nodup, fun name hn => (hnested.enters name hn).1, hnested.count_leave, hnested.length_le,
    fun name hn rest tasks ha htasks => ?_⟩
  obtain ⟨_, active, output⟩ := e
  obtain rfl : _ = _ := htasks
  exact step_active hn (hnested.enters name hn).2 ha output

/-- Two macros that stand for each other: inside of both, the name of the first one is copied. -/
theorem expansion_ends_cyclic :
    let t : MacroTable := .ofList [⟨"A", "B + A"⟩, ⟨"B", "A"⟩]
    let e : Expander := ⟨[.read "A".toList, .leave, .read " + A".toList, .leave, .read []], ["B", "A"], []⟩
    Reaches t.step (start "A".toList) e ∧ eval t.step (start "A".toList) = .some ⟨[], [], "A + A".toList⟩ ∧
      Nested t "A".toList e.tasks e.active ∧
      t.step e = some ⟨[.read [], .leave, .read " + A".toList, .leave, .read []], ["B", "A"], "A".toList⟩ := by
  intro t e
  have hreaches : Reaches t.step (start "A".toList) e := by
    have hfirst : t.step (start "A".toList) = some ⟨[.read "B + A".toList, .leave, .read []], ["A"], []⟩ := by
      decide +kernel
    have hsecond : t.step ⟨[.read "B + A".toList, .leave, .read []], ["A"], []⟩ = some e := by decide +kernel
    exact .head hfirst (.single hsecond)
  obtain ⟨heval, hrun⟩ := (expansion_ends t).2 "A".toList
  obtain ⟨hnested, -, -, -, -, hcopied⟩ := hrun e hreaches
  have hexpand : t.expand "A".toList = "A + A".toList := by decide +kernel
  rw [hexpand] at heval
  exact ⟨hreaches, heval, hnested, hcopied "A" (by decide) [] _ (by decide +kernel) rfl⟩

end ShaderBuild.MacroTable
