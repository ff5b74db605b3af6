import Mathlib.Data.List.Infix
import ShaderBuild.Backend.Command
/-!
# Filling in a template

A template is split into its placeholders and the characters between them, and filled in by putting a value at each
placeholder (`substitute`). The arguments of a program are made differently: the placeholders are replaced one after the
other, each in the text that the replacements before have left. A step puts the values where they belong exactly if its
placeholder occurs in that text only where it does in the template (`Fills.replaceAll_eq_iff`). So the arguments are the
templates filled in at once if no value forms a placeholder (`values_are_filled`), and otherwise a value is replaced in
its turn (`values_are_filled_again`).
-/

namespace ShaderBuild.Command

/-- What a template can leave open. -/
inductive Placeholder
  | input
  | output
  | entry
  | profile
  deriving DecidableEq, Repr

namespace Placeholder

/-- The placeholders in the order in which they are replaced. -/
def all : List Placeholder := [.input, .output, .entry, .profile]

def name : Placeholder → String
  | input => "input"
  | output => "output"
  | entry => "entry"
  | profile => "profile"

/-- How a placeholder is written, less its opening brace. -/
def ending (p : Placeholder) : List Char := p.name.toList ++ ['}']

/-- How a placeholder is written. -/
def mark (p : Placeholder) : List Char := '{' :: p.ending

/-- The placeholders that are replaced before another one. -/
def earlier (p : Placeholder) : List Placeholder := all.takeWhile (· != p)

/-- A placeholder with those that are replaced before it. -/
def upTo (p : Placeholder) : List Placeholder := p.earlier ++ [p]

variable {p q : Placeholder} {cs w : List Char}

@[simp] theorem mem_all (p : Placeholder) : p ∈ all := by cases p <;> decide

theorem not_mem_earlier (p : Placeholder) : p ∉ p.earlier := by cases p <;> decide

/-- What is replaced before a placeholder ends with the one before it. -/
theorem earlier_cases (p : Placeholder) : p.earlier = [] ∨ ∃ q : Placeholder, p.earlier = q.upTo := by
  cases p with
  | input => exact .inl rfl
  | output => exact .inr ⟨.input, rfl⟩
  | entry => exact .inr ⟨.output, rfl⟩
  | profile => exact .inr ⟨.entry, rfl⟩

theorem brace_not_mem_ending (p : Placeholder) : '{' ∉ p.ending := by cases p <;> decide +kernel

theorem eq_of_mark_initial : p.mark <+: q.mark → p = q := by cases p <;> cases q <;> decide +kernel

/-- No two placeholders are written at one place. -/
theorem eq_of_marks (hp : p.mark <+: cs) (hq : q.mark <+: cs) : p = q := by
  rcases List.prefix_or_prefix_of_prefix hp hq with h | h
  · exact eq_of_mark_initial h
  · exact (eq_of_mark_initial h).symm

theorem mark_append (p : Placeholder) (w : List Char) : p.mark ++ w = '{' :: (p.ending ++ w) := rfl

/-- A text is read from its start, some placeholders as a whole and everything else character by character. -/
theorem reading_induction (ps : List Placeholder) {motive : List Char → Prop} (nil : motive [])
    (mark : ∀ p ∈ ps, ∀ w, motive w → motive (p.mark ++ w))
    (char : ∀ c w, (∀ p ∈ ps, ¬ p.mark <+: c :: w) → motive w → motive (c :: w)) (cs : List Char) : motive cs := by
  induction hn : cs.length using Nat.strong_induction_on generalizing cs with
  | _ n ih =>
    rcases cs with - | ⟨c, w⟩
    · exact nil
    by_cases h : ∃ p ∈ ps, p.mark <+: c :: w
    · obtain ⟨p, hp, rest, hrest⟩ := h
      rw [← hrest] at hn ⊢
      refine mark p hp rest (ih rest.length ?_ rest rfl)
      simp only [Placeholder.mark, List.length_append, List.length_cons] at hn
      omega
    · push Not at h
      exact char c w h (ih w.length (by simp [← hn]) w rfl)

end Placeholder

open Placeholder

/-! ## The parts of a template -/

/-- A part of a template. -/
inductive Piece
  | char (c : Char)
  | hole (p : Placeholder)
  deriving DecidableEq, Repr

/-- The placeholder that a text starts with. -/
def holeAt (cs : List Char) : Option Placeholder := Placeholder.all.find? fun p => p.mark.isPrefixOf cs

/-- The parts of a template. -/
def pieces (cs : List Char) : List Piece :=
  match cs with
  | [] => []
  | c :: rest =>
    match holeAt (c :: rest) with
    | some p => .hole p :: pieces (rest.drop p.ending.length)
    | none => .char c :: pieces rest
termination_by cs.length
decreasing_by all_goals simp only [List.length_drop, List.length_cons]; omega

/-- What stands in the place of a part. -/
def Piece.text (value : Placeholder → List Char) : Piece → List Char
  | char c => [c]
  | hole p => value p

/-- The text of some parts, with a value for each placeholder. -/
def render (value : Placeholder → List Char) (ps : List Piece) : List Char := ps.flatMap (Piece.text value)

/-- A template with all its placeholders replaced at once. -/
def substitute (value : Placeholder → List Char) (cs : List Char) : List Char := render value (pieces cs)

section Pieces
variable {p : Placeholder} {value : Placeholder → List Char} {ps : List Piece} {c : Char} {w : List Char}

@[simp] theorem render_nil (value : Placeholder → List Char) : render value [] = [] := rfl

@[simp] theorem render_cons (value : Placeholder → List Char) (q : Piece) (ps : List Piece) :
    render value (q :: ps) = q.text value ++ render value ps := by
  simp [render]

theorem holeAt_mark (p : Placeholder) (w : List Char) : holeAt (p.mark ++ w) = some p := by
  have hp : p.mark <+: p.mark ++ w := List.prefix_append _ _
  cases h : holeAt (p.mark ++ w) with
  | none => simpa using List.find?_eq_none.1 h p (mem_all p)
  | some q =>
    have hq := List.find?_some h
    rw [eq_of_marks hp (List.isPrefixOf_iff_prefix.1 hq)]

theorem holeAt_eq_none (h : ∀ p ∈ Placeholder.all, ¬ p.mark <+: c :: w) : holeAt (c :: w) = none := by
  simpa [holeAt] using h

@[simp] theorem pieces_nil : pieces [] = [] := by rw [pieces]

@[simp] theorem pieces_mark_append (p : Placeholder) (w : List Char) : pieces (p.mark ++ w) = .hole p :: pieces w := by
  have h := holeAt_mark p w
  rw [mark_append] at h ⊢
  rw [pieces, h]
  simp only [List.drop_left]

theorem pieces_cons (h : ∀ p ∈ Placeholder.all, ¬ p.mark <+: c :: w) : pieces (c :: w) = .char c :: pieces w := by
  rw [pieces, holeAt_eq_none h]

/-- A template is the text of its parts. -/
theorem render_mark_pieces (cs : List Char) : render Placeholder.mark (pieces cs) = cs := by
  induction cs using reading_induction Placeholder.all with
  | nil => simp
  | mark p _ w ih => simp [Piece.text, ih]
  | char c w h ih => simp [pieces_cons h, Piece.text, ih]

end Pieces

/-! ## Counting occurrences -/

/-- The number of places where a text occurs in another one. -/
def occurrences (mark : List Char) : List Char → Nat
  | [] => 0
  | c :: rest => occurrences mark rest + if mark.isPrefixOf (c :: rest) then 1 else 0

section Occurrences
variable {p : Placeholder} {mark u w : List Char} {c : Char}

theorem occurrences_cons (h : ¬ mark <+: c :: w) : occurrences mark (c :: w) = occurrences mark w := by
  have h : ¬ mark.isPrefixOf (c :: w) := mt List.isPrefixOf_iff_prefix.1 h
  simp [occurrences, h]

theorem occurrences_le_append (mark u w : List Char) : occurrences mark w ≤ occurrences mark (u ++ w) := by
  induction u with
  | nil => simp
  | cons c u ih => exact ih.trans (Nat.le_add_right _ _)

/-- What adds no occurrence in front adds none step by step. -/
theorem of_occurrences_cons_append (h : occurrences mark (c :: (u ++ w)) = occurrences mark w) :
    ¬ mark <+: c :: (u ++ w) ∧ occurrences mark (u ++ w) = occurrences mark w := by
  have hle := occurrences_le_append mark u w
  rw [← List.isPrefixOf_iff_prefix]
  by_cases hpre : mark.isPrefixOf (c :: (u ++ w))
  · simp [occurrences, hpre] at h
    omega
  · exact ⟨hpre, by simpa [occurrences, hpre] using h⟩

/-- A placeholder begins at a brace. -/
theorem not_mark_prefix_of_ne (h : c ≠ '{') : ¬ p.mark <+: c :: w := fun hpre =>
  h (List.cons_prefix_cons.1 hpre).1.symm

theorem occurrences_append_of_no_brace (h : '{' ∉ u) : occurrences p.mark (u ++ w) = occurrences p.mark w := by
  induction u with
  | nil => rfl
  | cons c u ih =>
    simp only [List.mem_cons, not_or] at h
    rw [List.cons_append, occurrences_cons (not_mark_prefix_of_ne (Ne.symm h.1)), ih h.2]

theorem occurrences_mark_append (p q : Placeholder) (w : List Char) :
    occurrences p.mark (q.mark ++ w) = occurrences p.mark w + if q = p then 1 else 0 := by
  have hrest : occurrences p.mark (q.ending ++ w) = occurrences p.mark w :=
    occurrences_append_of_no_brace (brace_not_mem_ending q)
  have hpre : p.mark.isPrefixOf (q.mark ++ w) = true ↔ q = p := by
    rw [List.isPrefixOf_iff_prefix]
    refine ⟨eq_of_marks (List.prefix_append _ _), ?_⟩
    rintro rfl
    exact List.prefix_append _ _
  rw [mark_append] at hpre ⊢
  simp only [occurrences, hrest, hpre]

end Occurrences

/-- In a template, a placeholder occurs where it is a part. -/
theorem count_pieces (p : Placeholder) (cs : List Char) : (pieces cs).count (.hole p) = occurrences p.mark cs := by
  induction cs using reading_induction Placeholder.all with
  | nil => simp [occurrences]
  | mark q _ w ih => simp [occurrences_mark_append, List.count_cons, ih]
  | char c w h ih => simp [pieces_cons h, occurrences_cons (h p (mem_all p)), ih]

/-! ## Replacing one placeholder -/

section Replace
variable {p : Placeholder} {v u w r : List Char} {c : Char}

@[simp] theorem replaceAll_nil (mark v : List Char) : replaceAll mark v [] = [] := by rw [replaceAll]

@[simp] theorem replaceAll_mark_append (p : Placeholder) (v w : List Char) :
    replaceAll p.mark v (p.mark ++ w) = v ++ replaceAll p.mark v w := by
  have hpre : p.mark.isPrefixOf (p.mark ++ w) := List.isPrefixOf_iff_prefix.2 (List.prefix_append _ _)
  rw [mark_append] at hpre ⊢
  rw [replaceAll, if_pos ⟨List.cons_ne_nil _ _, hpre⟩, Placeholder.mark, List.length_cons, Nat.add_sub_cancel,
    List.drop_left]

theorem replaceAll_cons (h : ¬ p.mark <+: c :: w) : replaceAll p.mark v (c :: w) = c :: replaceAll p.mark v w := by
  rw [replaceAll, if_neg fun hpre => h (List.isPrefixOf_iff_prefix.1 hpre.2)]

/-- Replacing a placeholder by itself changes nothing. -/
theorem replaceAll_mark (p : Placeholder) (cs : List Char) : replaceAll p.mark p.mark cs = cs := by
  induction cs using reading_induction [p] with
  | nil => simp
  | mark q hq w ih =>
    obtain rfl := List.mem_singleton.1 hq
    rw [replaceAll_mark_append, ih]
  | char c w h ih => rw [replaceAll_cons (h p (List.mem_singleton_self p)), ih]

theorem length_replaceAll (p : Placeholder) (v cs : List Char) :
    (replaceAll p.mark v cs).length + occurrences p.mark cs * p.mark.length =
      cs.length + occurrences p.mark cs * v.length := by
  induction cs using reading_induction [p] with
  | nil => simp [occurrences]
  | mark q hq w ih =>
    obtain rfl := List.mem_singleton.1 hq
    simp only [replaceAll_mark_append, occurrences_mark_append, if_true, List.length_append, Nat.add_mul, Nat.one_mul]
    omega
  | char c w h ih =>
    have hc := h p (List.mem_singleton_self p)
    simp only [replaceAll_cons hc, occurrences_cons hc, List.length_cons]
    omega

theorem replaceAll_append (h : occurrences p.mark (u ++ w) = occurrences p.mark w) :
    replaceAll p.mark v (u ++ w) = u ++ replaceAll p.mark v w := by
  induction u with
  | nil => rfl
  | cons c u ih =>
    obtain ⟨hpre, hrest⟩ := of_occurrences_cons_append h
    rw [List.cons_append, replaceAll_cons hpre, ih hrest, List.cons_append]

/-- The first text and the second one start with the same characters, as far as the first brace. -/
def SameStart (w r : List Char) : Prop := ∀ e, '{' ∉ e → e <+: w → e <+: r

theorem SameStart.append (h : SameStart w r) (u : List Char) : SameStart (u ++ w) (u ++ r) := by
  induction u with
  | nil => exact h
  | cons c u ih =>
    rintro (- | ⟨d, e⟩) he hpre
    · exact List.nil_prefix
    · obtain ⟨rfl, htail⟩ := List.cons_prefix_cons.1 hpre
      exact List.cons_prefix_cons.2 ⟨rfl, ih e (fun hmem => he (List.mem_cons_of_mem _ hmem)) htail⟩

/-- A replacement of the same length that leaves some text in front as it is has replaced nothing there. -/
theorem of_replaceAll_append (hlength : v.length = p.mark.length) (hne : v ≠ p.mark) (hstart : SameStart w r)
    (h : replaceAll p.mark v (u ++ w) = u ++ r) :
    occurrences p.mark (u ++ w) = occurrences p.mark w ∧ replaceAll p.mark v w = r := by
  induction u with
  | nil => exact ⟨rfl, h⟩
  | cons c u ih =>
    by_cases hpre : p.mark <+: c :: (u ++ w)
    · -- What replaced the occurrence is the occurrence, which begins in the text in front and has no second brace.
      obtain ⟨z, hz⟩ := hpre
      have hmark : p.mark <+: c :: (u ++ r) := by
        obtain ⟨rfl, hending⟩ := List.cons_prefix_cons.1 (show p.mark <+: c :: (u ++ w) from ⟨z, hz⟩)
        exact List.cons_prefix_cons.2 ⟨rfl, hstart.append u _ (brace_not_mem_ending p) hending⟩
      have hv : v <+: c :: (u ++ r) := by
        rw [List.cons_append, ← hz, replaceAll_mark_append] at h
        exact ⟨_, h⟩
      exact absurd ((List.prefix_of_prefix_length_le hv hmark hlength.le).eq_of_length hlength) hne
    · rw [List.cons_append, replaceAll_cons hpre, List.cons_append] at h
      obtain ⟨hoccurs, hrest⟩ := ih (List.cons.inj h).2
      exact ⟨(occurrences_cons hpre).trans hoccurs, hrest⟩

end Replace

/-! ## One step

`old` and `new` give the values before and after the step for `p`. -/

section Step
variable {p : Placeholder} {old new : Placeholder → List Char}

/-- The values after a step are those before, but for one placeholder that was not replaced before. -/
structure Fills (p : Placeholder) (old new : Placeholder → List Char) : Prop where
  before : old p = p.mark
  others : ∀ q, q ≠ p → new q = old q

/-- In a step, a part is the placeholder of the step or it keeps its text. -/
theorem Fills.part (h : Fills p old new) (q : Piece) :
    q = .hole p ∨ q ≠ .hole p ∧ q.text new = q.text old := by
  cases q with
  | char c => exact .inr ⟨by simp, rfl⟩
  | hole q =>
    by_cases hq : q = p
    · exact .inl (hq ▸ rfl)
    · exact .inr ⟨by simpa using hq, h.others q hq⟩

theorem Fills.count_le (h : Fills p old new) (ps : List Piece) :
    ps.count (.hole p) ≤ occurrences p.mark (render old ps) := by
  induction ps with
  | nil => simp
  | cons q ps ih =>
    rcases h.part q with rfl | ⟨hq, -⟩
    · simpa [Piece.text, h.before, occurrences_mark_append] using ih
    · rw [List.count_cons_of_ne hq, render_cons]
      exact ih.trans (occurrences_le_append _ _ _)

theorem Fills.replaceAll_render (h : Fills p old new) {ps : List Piece}
    (hcount : occurrences p.mark (render old ps) = ps.count (.hole p)) :
    replaceAll p.mark (new p) (render old ps) = render new ps := by
  induction ps with
  | nil => simp
  | cons q ps ih =>
    have hle := h.count_le ps
    rcases h.part q with rfl | ⟨hq, htext⟩
    · simp only [render_cons, Piece.text, h.before, occurrences_mark_append, List.count_cons_self, if_true] at hcount ⊢
      rw [replaceAll_mark_append, ih (by omega)]
    · rw [List.count_cons_of_ne hq, render_cons] at hcount
      have hadd := occurrences_le_append p.mark (q.text old) (render old ps)
      rw [render_cons, render_cons, htext, replaceAll_append (by omega), ih (by omega)]

theorem Fills.length_render (h : Fills p old new) (ps : List Piece) :
    (render new ps).length + ps.count (.hole p) * p.mark.length =
      (render old ps).length + ps.count (.hole p) * (new p).length := by
  induction ps with
  | nil => simp
  | cons q ps ih =>
    rcases h.part q with rfl | ⟨hq, htext⟩
    · simp only [render_cons, Piece.text, h.before, List.count_cons_self, List.length_append, Nat.add_mul, Nat.one_mul]
      omega
    · simp only [render_cons, htext, List.count_cons_of_ne hq, List.length_append]
      omega

theorem Fills.sameStart (h : Fills p old new) (ps : List Piece) : SameStart (render old ps) (render new ps) := by
  induction ps with
  | nil => exact fun e _ hpre => hpre
  | cons q ps ih =>
    rcases h.part q with rfl | ⟨-, htext⟩
    · rintro (- | ⟨d, e⟩) he hpre
      · exact List.nil_prefix
      · rw [render_cons, Piece.text, h.before] at hpre
        exact absurd (List.cons_prefix_cons.1 hpre).1.symm fun hd => he (hd ▸ List.mem_cons_self)
    · rw [render_cons, render_cons, htext]
      exact ih.append _

theorem Fills.count_of_length_eq (h : Fills p old new) (hlength : (new p).length = p.mark.length)
    (hne : new p ≠ p.mark) {ps : List Piece} (heq : replaceAll p.mark (new p) (render old ps) = render new ps) :
    occurrences p.mark (render old ps) = ps.count (.hole p) := by
  induction ps with
  | nil => rfl
  | cons q ps ih =>
    rcases h.part q with rfl | ⟨hq, htext⟩
    · simp only [render_cons, Piece.text, h.before, replaceAll_mark_append, List.append_cancel_left_eq] at heq
      simp [Piece.text, h.before, occurrences_mark_append, ih heq]
    · rw [render_cons, render_cons, htext] at heq
      obtain ⟨hoccurs, hrest⟩ := of_replaceAll_append hlength hne (h.sameStart ps) heq
      rw [render_cons, hoccurs, List.count_cons_of_ne hq, ih hrest]

theorem Fills.count_of_length_ne (h : Fills p old new) (hlength : (new p).length ≠ p.mark.length) {ps : List Piece}
    (heq : replaceAll p.mark (new p) (render old ps) = render new ps) :
    occurrences p.mark (render old ps) = ps.count (.hole p) := by
  have hreplace := length_replaceAll p (new p) (render old ps)
  have hrender := h.length_render ps
  obtain ⟨extra, hextra⟩ := Nat.exists_eq_add_of_le (h.count_le ps)
  rw [heq, hextra, Nat.add_mul, Nat.add_mul] at hreplace
  have hzero : extra * (new p).length = extra * p.mark.length := by omega
  rcases Nat.eq_zero_or_pos extra with rfl | hpos
  · exact hextra
  · exact absurd (Nat.eq_of_mul_eq_mul_left hpos hzero) hlength

/-- A step puts the value at the parts of the template exactly if the placeholder occurs nowhere else. -/
theorem Fills.replaceAll_eq_iff (h : Fills p old new) (ps : List Piece) :
    replaceAll p.mark (new p) (render old ps) = render new ps ↔
      new p = p.mark ∨ occurrences p.mark (render old ps) = ps.count (.hole p) := by
  constructor
  · intro heq
    by_cases hmark : new p = p.mark
    · exact .inl hmark
    · -- One more occurrence would show in the length of the text, or else at the place where it is replaced.
      by_cases hlength : (new p).length = p.mark.length
      · exact .inr (h.count_of_length_eq hlength hmark heq)
      · exact .inr (h.count_of_length_ne hlength heq)
  · rintro (hmark | hcount)
    · have hnew : new = old := by
        funext q
        by_cases hq : q = p
        · rw [hq, hmark, h.before]
        · exact h.others q hq
      rw [hnew, h.before, replaceAll_mark]
    · exact h.replaceAll_render hcount

end Step

/-! ## All steps -/

/-- The values of the placeholders that are replaced, and the others as they are written. -/
def partly (value : Placeholder → List Char) (replaced : List Placeholder) (q : Placeholder) : List Char :=
  if q ∈ replaced then value q else q.mark

/-- A template with some placeholders replaced one after the other. -/
def inTurn (value : Placeholder → List Char) (replaced : List Placeholder) (cs : List Char) : List Char :=
  replaced.foldl (fun text p => replaceAll p.mark (value p) text) cs

/-- In the text that a placeholder is replaced in, the values before it have formed no placeholder of its kind: it
occurs as often as in the template. What stands for itself may occur anywhere. -/
def NoneFormed (value : Placeholder → List Char) (cs : List Char) : Prop :=
  ∀ p ∈ Placeholder.all,
    value p = p.mark ∨ occurrences p.mark (substitute (partly value p.earlier) cs) = occurrences p.mark cs

instance (value : Placeholder → List Char) (cs : List Char) : Decidable (NoneFormed value cs) :=
  inferInstanceAs (Decidable (∀ p ∈ Placeholder.all, _ ∨ _))

section InTurn
variable {p : Placeholder} {value : Placeholder → List Char} {replaced : List Placeholder} {cs : List Char}

theorem partly_concat_self (value : Placeholder → List Char) (replaced : List Placeholder) (p : Placeholder) :
    partly value (replaced ++ [p]) p = value p := by
  simp [partly]

theorem fills_partly (hp : p ∉ replaced) (value : Placeholder → List Char) :
    Fills p (partly value replaced) (partly value (replaced ++ [p])) where
  before := by simp [partly, hp]
  others q hq := by simp [partly, hq]

theorem inTurn_concat (value : Placeholder → List Char) (replaced : List Placeholder) (p : Placeholder)
    (cs : List Char) :
    inTurn value (replaced ++ [p]) cs = replaceAll p.mark (value p) (inTurn value replaced cs) := by
  simp [inTurn]

theorem substitute_partly_nil (value : Placeholder → List Char) (cs : List Char) :
    substitute (partly value []) cs = cs := by
  have hmark : partly value [] = Placeholder.mark := by
    funext q
    simp [partly]
  rw [hmark, substitute, render_mark_pieces]

/-- The step for one placeholder. -/
theorem inTurn_concat_eq_iff (hp : p ∉ replaced)
    (hbefore : inTurn value replaced cs = substitute (partly value replaced) cs) :
    inTurn value (replaced ++ [p]) cs = substitute (partly value (replaced ++ [p])) cs ↔
      value p = p.mark ∨ occurrences p.mark (substitute (partly value replaced) cs) = occurrences p.mark cs := by
  have hstep := (fills_partly hp value).replaceAll_eq_iff (pieces cs)
  rw [partly_concat_self, count_pieces] at hstep
  rw [inTurn_concat, hbefore]
  exact hstep

/-- The steps up to a placeholder, from those before it. -/
theorem inTurn_upTo_eq_iff (p : Placeholder)
    (hbefore : ∀ q : Placeholder, p.earlier = q.upTo → inTurn value q.upTo cs = substitute (partly value q.upTo) cs) :
    inTurn value p.upTo cs = substitute (partly value p.upTo) cs ↔
      value p = p.mark ∨ occurrences p.mark (substitute (partly value p.earlier) cs) = occurrences p.mark cs := by
  refine inTurn_concat_eq_iff (not_mem_earlier p) ?_
  rcases earlier_cases p with hnil | ⟨q, hq⟩
  · rw [hnil, substitute_partly_nil]
    rfl
  · rw [hq]
    exact hbefore q hq

/-- Every step gives what filling in at once gives exactly if no value forms a placeholder. -/
theorem inTurn_eq_iff (value : Placeholder → List Char) (cs : List Char) :
    (∀ p ∈ Placeholder.all, inTurn value p.upTo cs = substitute (partly value p.upTo) cs) ↔ NoneFormed value cs := by
  constructor
  · intro h p hp
    exact (inTurn_upTo_eq_iff p fun q _ => h q (mem_all q)).1 (h p hp)
  · intro h p hp
    -- The induction is on the number of steps before.
    induction hn : p.earlier.length using Nat.strong_induction_on generalizing p with
    | _ n ih =>
      refine (inTurn_upTo_eq_iff p fun q hq => ih q.earlier.length ?_ q (mem_all q) rfl).2 (h p hp)
      rw [← hn, hq, upTo, List.length_append]
      exact Nat.lt_succ_self _

theorem NoneFormed.inTurn_all (h : NoneFormed value cs) : inTurn value Placeholder.all cs = substitute value cs := by
  have hall : partly value Placeholder.all = value := by
    funext q
    simp [partly]
  have hlast := (inTurn_eq_iff value cs).2 h .profile (mem_all _)
  rwa [show Placeholder.profile.upTo = Placeholder.all from rfl, hall] at hlast

end InTurn

/-! ## The arguments of a program -/

/-- What the placeholders stand for in one invocation. -/
def valueOf (input output : Path) (entryPoint : String) (stage : Stage) : Placeholder → List Char
  | .input => input.text.toList
  | .output => output.text.toList
  | .entry => entryPoint.toList
  | .profile => stage.profile.toList

/-- Values without braces form no placeholder in a template whose braces all open a placeholder. -/
theorem noneFormed_of_no_brace {value : Placeholder → List Char} {cs : List Char} (hvalue : ∀ p, '{' ∉ value p)
    (hcs : Piece.char '{' ∉ pieces cs) : NoneFormed value cs := by
  intro p _
  right
  rw [substitute, ← count_pieces p cs]
  generalize pieces cs = ps at hcs ⊢
  induction ps with
  | nil => rfl
  | cons q ps ih =>
    simp only [List.mem_cons, not_or] at hcs
    rw [render_cons]
    cases q with
    | char c =>
      have hc : c ≠ '{' := fun h => hcs.1 (h ▸ rfl)
      rw [Piece.text, List.singleton_append, occurrences_cons (not_mark_prefix_of_ne hc), ih hcs.2,
        List.count_cons_of_ne (by simp)]
    | hole q =>
      by_cases hq : q ∈ p.earlier
      · have hne : q ≠ p := fun h => not_mem_earlier p (h ▸ hq)
        rw [Piece.text, partly, if_pos hq, occurrences_append_of_no_brace (hvalue q), ih hcs.2,
          List.count_cons_of_ne (by simpa using hne)]
      · rw [Piece.text, partly, if_neg hq, occurrences_mark_append, ih hcs.2, List.count_cons]
        simp

/-- The arguments with all placeholders replaced at once. -/
def argumentsAtOnce (c : Command) (input output : Path) (entryPoint : String) (stage : Stage) : List String :=
  c.template.map fun a => String.ofList (substitute (valueOf input output entryPoint stage) a.toList)

theorem brace_not_mem_profile (stage : Stage) : '{' ∉ stage.profile.toList := by cases stage <;> decide +kernel

section Arguments
variable (c : Command) (input output : Path) (entryPoint : String) (stage : Stage)

theorem arguments_eq_inTurn :
    c.arguments input output entryPoint stage = c.template.map fun a =>
      String.ofList (inTurn (valueOf input output entryPoint stage) Placeholder.all a.toList) := by
  simp [arguments, fill, inTurn, Placeholder.all, valueOf, Placeholder.mark, ending, name]

theorem arguments_eq_atOnce (h : ∀ a ∈ c.template, NoneFormed (valueOf input output entryPoint stage) a.toList) :
    c.arguments input output entryPoint stage = c.argumentsAtOnce input output entryPoint stage := by
  rw [arguments_eq_inTurn]
  exact List.map_congr_left fun a ha => by rw [(h a ha).inTurn_all]

/-- Every step of every argument puts the values where the template has the placeholders exactly if no value forms a
placeholder, alone or with what is around it. Then the arguments are the templates filled in at once. -/
theorem values_are_filled :
    let value := valueOf input output entryPoint stage
    (∀ a ∈ c.template, (∀ p ∈ Placeholder.all,
      inTurn value p.upTo a.toList = substitute (partly value p.upTo) a.toList) ↔ NoneFormed value a.toList) ∧
    ((∀ a ∈ c.template, NoneFormed value a.toList) →
      c.arguments input output entryPoint stage = c.argumentsAtOnce input output entryPoint stage) :=
  ⟨fun a _ => inTurn_eq_iff _ a.toList, c.arguments_eq_atOnce input output entryPoint stage⟩

/-- Braces in the values do no harm by themselves. -/
theorem values_are_filled_braced :
    let braced : Command := { program := ⟨"fxc"⟩, template := ["/T", "\x7bprofile\x7d", "\x7bentry\x7d:\x7binput\x7d"], workDir := ⟨"tmp"⟩ }
    (∀ a ∈ braced.template, NoneFormed (valueOf ⟨"\x7bin\x7d"⟩ ⟨"out"⟩ "\x7bmain" .pixel) a.toList) ∧
    braced.arguments ⟨"\x7bin\x7d"⟩ ⟨"out"⟩ "\x7bmain" .pixel = ["/T", "ps_5_0", "\x7bmain:\x7bin\x7d"] := by
  intro braced
  have hnone : ∀ a ∈ braced.template, NoneFormed (valueOf ⟨"\x7bin\x7d"⟩ ⟨"out"⟩ "\x7bmain" .pixel) a.toList := by
    decide +kernel
  refine ⟨hnone, ((braced.values_are_filled ⟨"\x7bin\x7d"⟩ ⟨"out"⟩ "\x7bmain" .pixel).2 hnone).trans ?_⟩
  decide +kernel

/-- The usual compiler gets its values as they are if there is no brace in them. -/
theorem arguments_usual (htemplate : c.template = usualTemplate) (hinput : '{' ∉ input.text.toList)
    (houtput : '{' ∉ output.text.toList) (hentry : '{' ∉ entryPoint.toList) :
    c.arguments input output entryPoint stage =
      ["/nologo", "/T", stage.profile, "/E", entryPoint, "/Fo", output.text, input.text] := by
  have hvalue (p : Placeholder) : '{' ∉ valueOf input output entryPoint stage p := by
    cases p with
    | input => exact hinput
    | output => exact houtput
    | entry => exact hentry
    | profile => exact brace_not_mem_profile stage
  have hbraces : ∀ a ∈ usualTemplate, Piece.char '{' ∉ pieces a.toList := by decide +kernel
  have hparts : usualTemplate.map (fun a => pieces a.toList) =
      ["/nologo".toList.map .char, "/T".toList.map .char, [.hole .profile], "/E".toList.map .char, [.hole .entry],
        "/Fo".toList.map .char, [.hole .output], [.hole .input]] := by
    decide +kernel
  rw [c.arguments_eq_atOnce _ _ _ _ fun a ha => noneFormed_of_no_brace hvalue (hbraces a (htemplate ▸ ha))]
  calc c.argumentsAtOnce input output entryPoint stage
    _ = (usualTemplate.map fun a => pieces a.toList).map fun ps =>
          String.ofList (render (valueOf input output entryPoint stage) ps) := by
        rw [argumentsAtOnce, htemplate, List.map_map]
        rfl
    _ = ["/nologo", "/T", stage.profile, "/E", entryPoint, "/Fo", output.text, input.text] := by
        rw [hparts]
        simp [render, Piece.text, valueOf]

end Arguments

/-- A value is replaced in its turn if it is written like a placeholder, if it makes one with the braces around it, and
if it is a path that goes through a directory of that name. -/
theorem values_are_filled_again :
    let entry : Command := { program := ⟨"fxc"⟩, template := ["\x7bentry\x7d"], workDir := ⟨"tmp"⟩ }
    let braced : Command := { program := ⟨"fxc"⟩, template := ["\x7b\x7bentry\x7d\x7d"], workDir := ⟨"tmp"⟩ }
    let path : Command := { program := ⟨"fxc"⟩, template := ["\x7binput\x7d"], workDir := ⟨"tmp"⟩ }
    (entry.arguments ⟨"in"⟩ ⟨"out"⟩ "\x7bprofile\x7d" .pixel = ["ps_5_0"] ∧
      entry.argumentsAtOnce ⟨"in"⟩ ⟨"out"⟩ "\x7bprofile\x7d" .pixel = ["\x7bprofile\x7d"]) ∧
    (braced.arguments ⟨"in"⟩ ⟨"out"⟩ "profile" .pixel = ["ps_5_0"] ∧
      braced.argumentsAtOnce ⟨"in"⟩ ⟨"out"⟩ "profile" .pixel = ["\x7bprofile\x7d"]) ∧
    (path.arguments ⟨"\x7bentry\x7d/in"⟩ ⟨"out"⟩ "main" .pixel = ["main/in"] ∧
      path.argumentsAtOnce ⟨"\x7bentry\x7d/in"⟩ ⟨"out"⟩ "main" .pixel = ["\x7bentry\x7d/in"]) := by
  decide +kernel

end ShaderBuild.Command
