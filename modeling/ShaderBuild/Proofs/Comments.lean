import Mathlib.Data.List.Infix
import ShaderBuild.Comment
/-!
# Texts without comments

A text is free of comments if neither `//` nor a slash and a star are in it. Such a text is left as it is
(`strip_of_free`), and what is left of any text is free (`free_strip`): a comment is taken away as a whole, and
what stands before one never ends in a slash, for the comment would have begun there.
-/

namespace ShaderBuild.Comment

/-- No comment begins in a text. -/
structure Free (cs : List Char) : Prop where
  line : ¬ ['/', '/'] <:+: cs
  block : ¬ ['/', '*'] <:+: cs

instance (cs : List Char) : Decidable (Free cs) :=
  decidable_of_iff (¬ ['/', '/'] <:+: cs ∧ ¬ ['/', '*'] <:+: cs) ⟨fun h => ⟨h.1, h.2⟩, fun h => ⟨h.line, h.block⟩⟩

variable {c : Char} {cs ds : List Char}

theorem Free.infix (h : Free cs) (hi : ds <:+: cs) : Free ds :=
  ⟨fun hl => h.line (hl.trans hi), fun hb => h.block (hb.trans hi)⟩

theorem Free.tail (h : Free (c :: cs)) : Free cs := h.infix (List.suffix_cons c cs).isInfix

theorem free_nil : Free [] := ⟨by simp, by simp⟩

/-- A text with one character more is free if that is no slash that begins a comment. -/
theorem free_cons : Free (c :: cs) ↔ Free cs ∧ (c = '/' → ∀ d ∈ cs.head?, d ≠ '/' ∧ d ≠ '*') := by
  have pair : ∀ d, ['/', d] <:+: c :: cs ↔ ['/', d] <:+: cs ∨ c = '/' ∧ cs.head? = some d := by
    intro d
    rw [List.infix_cons_iff, List.cons_prefix_cons, or_comm, eq_comm]
    cases cs with
    | nil => simp
    | cons e cs => simp [eq_comm]
  constructor
  · intro h
    refine ⟨h.tail, fun hc d hd => ⟨?_, ?_⟩⟩
    · rintro rfl
      exact h.line ((pair '/').2 (.inr ⟨hc, hd⟩))
    · rintro rfl
      exact h.block ((pair '*').2 (.inr ⟨hc, hd⟩))
  · rintro ⟨h, hc⟩
    refine ⟨fun hl => ?_, fun hb => ?_⟩
    · rcases (pair '/').1 hl with hl | ⟨rfl, hd⟩
      · exact h.line hl
      · exact (hc rfl '/' hd).1 rfl
    · rcases (pair '*').1 hb with hb | ⟨rfl, hd⟩
      · exact h.block hb
      · exact (hc rfl '*' hd).2 rfl

theorem free_cons_of_ne (hc : c ≠ '/') : Free (c :: cs) ↔ Free cs := by
  rw [free_cons]
  exact ⟨And.left, fun h => ⟨h, fun he => absurd he hc⟩⟩

theorem free_of_not_mem (h : '/' ∉ cs) : Free cs := by
  induction cs with
  | nil => exact free_nil
  | cons c cs ih =>
    rw [List.mem_cons, not_or] at h
    exact (free_cons_of_ne (Ne.symm h.1)).2 (ih h.2)

/-- Free texts stay free when they are put together, if the second goes on with neither a slash nor a star. -/
theorem Free.append (hc : Free cs) (hd : Free ds) (h : ∀ d ∈ ds.head?, d ≠ '/' ∧ d ≠ '*') : Free (cs ++ ds) := by
  induction cs with
  | nil => exact hd
  | cons c cs ih =>
    obtain ⟨htail, hhead⟩ := free_cons.1 hc
    refine free_cons.2 ⟨ih htail, fun he d hm => ?_⟩
    cases cs with
    | nil => exact h d hm
    | cons e cs => exact hhead he d hm

theorem Free.append_of_not_mem (hd : Free ds) (hc : '/' ∉ cs) : Free (cs ++ ds) := by
  induction cs with
  | nil => exact hd
  | cons c cs ih =>
    rw [List.mem_cons, not_or] at hc
    exact (free_cons_of_ne (Ne.symm hc.1)).2 (ih hc.2)

/-- Where there are no comments, nothing is taken away. -/
theorem strip_of_free (h : Free cs) : strip cs = cs := by
  induction cs with
  | nil => rfl
  | cons c cs ih =>
    obtain ⟨htail, hhead⟩ := free_cons.1 h
    rw [strip, stripFrom, ← strip, ih htail]
    · rintro rest rfl rfl
      exact (hhead rfl '*' rfl).2 rfl
    · rintro rest rfl rfl
      exact (hhead rfl '/' rfl).1 rfl

theorem stripFrom_code_cons (hc : c ≠ '/') : stripFrom .code (c :: cs) = c :: stripFrom .code cs := by
  rw [stripFrom]
  · rintro rest rfl
    exact absurd rfl hc
  · rintro rest rfl
    exact absurd rfl hc

/-- What is left of a text has no comments. -/
theorem free_stripFrom (place : Place) (cs : List Char) : Free (stripFrom place cs) := by
  fun_induction stripFrom place cs with
  | case1 => exact free_nil
  | case2 rest ih => exact ih
  | case3 rest ih => exact ih
  | case4 c rest hstar hslash ih =>
    refine free_cons.2 ⟨ih, ?_⟩
    rintro rfl d hd
    -- After this slash comes no other, so what comes next is kept.
    cases rest with
    | nil => cases hd
    | cons e rest =>
      have hne : e ≠ '/' := by
        rintro rfl
        exact hslash rest rfl rfl
      rw [stripFrom_code_cons hne] at hd
      obtain rfl : e = d := Option.some.inj hd
      refine ⟨hne, ?_⟩
      rintro rfl
      exact hstar rest rfl rfl
  | case5 rest ih => exact ih
  | case6 => assumption
  | case7 rest ih => exact (free_cons_of_ne (by decide)).2 ih
  | case8 => assumption

theorem free_strip (cs : List Char) : Free (strip cs) := free_stripFrom .code cs

end ShaderBuild.Comment
