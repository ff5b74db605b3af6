import ShaderBuild.Preprocess
/-!
# Splitting texts into lines

The lines of a text are all of it (`text_list`), only the last one may lack an ending (`ended_list`), and
a text may be split first wherever a line ends (`list_append`).
-/

namespace ShaderBuild

/-- A text that is empty or ends in a line feed: what comes after it starts on a line of its own. -/
def Closed (cs : List Char) : Prop := ∀ c ∈ cs.getLast?, c = '\n'

instance (cs : List Char) : Decidable (Closed cs) :=
  decidable_of_iff (cs.getLast?.all (· == '\n') = true) (by simp [Closed, Option.all_eq_true])

theorem closed_nil : Closed [] := by simp [Closed]

theorem closed_iff {cs : List Char} : Closed cs ↔ cs = [] ∨ ∃ front, cs = front ++ ['\n'] := by
  constructor
  · intro h
    rcases List.eq_nil_or_concat cs with rfl | ⟨front, c, rfl⟩
    · exact .inl rfl
    · have hc : c = '\n' := h c (by simp)
      exact .inr ⟨front, by rw [hc, List.concat_eq_append]⟩
  · rintro (rfl | ⟨front, rfl⟩)
    · exact closed_nil
    · simp [Closed]

theorem Closed.append {u v : List Char} (hu : Closed u) (hv : Closed v) : Closed (u ++ v) := by
  rcases closed_iff.1 hv with rfl | ⟨front, rfl⟩
  · rwa [List.append_nil]
  · exact closed_iff.2 (.inr ⟨u ++ front, (List.append_assoc u front ['\n']).symm⟩)

/-- What follows the first line of a closed text is closed. -/
theorem Closed.rest {body rest : List Char} (h : Closed (body ++ '\n' :: rest)) : Closed rest := by
  intro c hc
  refine h c ?_
  simp only [Option.mem_def] at hc ⊢
  rw [List.getLast?_append, List.getLast?_cons, hc]
  rfl

namespace Line

theorem list_nil : list [] = [] := by
  rw [list]
  rfl

theorem all_of_not_mem {cs : List Char} (h : '\n' ∉ cs) : ∀ c ∈ cs, (c != '\n') = true := by
  intro c hc
  rw [bne_iff_ne]
  rintro rfl
  exact h hc

theorem list_of_not_mem {cs : List Char} (h : '\n' ∉ cs) (hn : cs ≠ []) : list cs = [⟨cs, []⟩] := by
  have hd : cs.dropWhile (· != '\n') = [] := by
    rw [← List.append_nil cs, List.dropWhile_append_of_pos (all_of_not_mem h)]
    rfl
  rw [list]
  split
  · exact if_neg hn
  · next hr => simp [hd] at hr

/-- The first line is what comes before the first line feed. -/
theorem list_cons {body : List Char} (h : '\n' ∉ body) (rest : List Char) :
    list (body ++ '\n' :: rest) = terminated body :: list rest := by
  have hd : (body ++ '\n' :: rest).dropWhile (· != '\n') = '\n' :: rest := by
    rw [List.dropWhile_append_of_pos (all_of_not_mem h)]
    rfl
  have ht : (body ++ '\n' :: rest).takeWhile (· != '\n') = body := by
    rw [List.takeWhile_append_of_pos (all_of_not_mem h)]
    simp
  rw [list]
  split
  · next hr => simp [hd] at hr
  · next c rest' hr =>
    obtain ⟨-, rfl⟩ := List.cons.inj (hd.symm.trans hr)
    rw [ht]

/-- What holds of a text without line feeds, and of every other one if it holds after its first line, holds
of all texts. -/
theorem by_lines {P : List Char → Prop} (last : ∀ cs, '\n' ∉ cs → P cs)
    (first : ∀ body rest, '\n' ∉ body → P rest → P (body ++ '\n' :: rest)) (cs : List Char) : P cs := by
  by_cases h : '\n' ∈ cs
  · obtain ⟨body, rest, hc, hb⟩ := List.eq_append_cons_of_mem h
    have hlt : rest.length < cs.length := by
      rw [hc, List.length_append, List.length_cons]
      omega
    rw [hc]
    exact first body rest hb (by_lines last first rest)
  · exact last cs h
termination_by cs.length

theorem text_terminated (cs : List Char) : (terminated cs).text = cs ++ ['\n'] := by
  unfold terminated
  split
  · next h =>
    obtain ⟨front, rfl⟩ := List.getLast?_eq_some_iff.1 h
    simp [text]
  · rfl

/-- The line has an ending. -/
def Ends (l : Line) : Prop := l.ending = ['\n'] ∨ l.ending = ['\r', '\n']

theorem ends_terminated (cs : List Char) : (terminated cs).Ends := by
  unfold terminated
  split
  · exact .inr rfl
  · exact .inl rfl

theorem Ends.closed {l : Line} (h : l.Ends) (cs : List Char) : Closed (cs ++ l.ending) := by
  rcases h with h | h
  · exact closed_iff.2 (.inr ⟨cs, by rw [h]⟩)
  · exact closed_iff.2 (.inr ⟨cs ++ ['\r'], by rw [h, List.append_assoc]; rfl⟩)

/-- Nothing is lost. -/
theorem text_list (cs : List Char) : (list cs).flatMap text = cs := by
  induction cs using by_lines with
  | last cs h =>
    by_cases hc : cs = []
    · rw [hc, list_nil]
      rfl
    · rw [list_of_not_mem h hc]
      simp [text]
  | first body rest hb ih =>
    rw [list_cons hb, List.flatMap_cons, text_terminated, ih, List.append_assoc]
    rfl

/-- Every line has an ending, but for the last one. -/
def Ended : List Line → Prop
  | [] => True
  | line :: rest => (line.Ends ∨ line.ending = [] ∧ rest = []) ∧ Ended rest

theorem ended_list (cs : List Char) : Ended (list cs) := by
  induction cs using by_lines with
  | last cs h =>
    by_cases hc : cs = []
    · rw [hc, list_nil]
      trivial
    · rw [list_of_not_mem h hc]
      exact ⟨.inr ⟨rfl, rfl⟩, trivial⟩
  | first body rest hb ih =>
    rw [list_cons hb]
    exact ⟨.inl (ends_terminated body), ih⟩

/-- In a closed text the last line has an ending, too. -/
theorem ends_of_closed {cs : List Char} (hc : Closed cs) : ∀ l ∈ list cs, l.Ends := by
  induction cs using by_lines with
  | last cs h =>
    rcases closed_iff.1 hc with rfl | ⟨front, rfl⟩
    · rw [list_nil]
      exact List.forall_mem_nil _
    · simp at h
  | first body rest hb ih =>
    rw [list_cons hb]
    exact List.forall_mem_cons.2 ⟨ends_terminated body, ih hc.rest⟩

/-- The lines of two texts, the first of which is closed. -/
theorem list_append {u : List Char} (hu : Closed u) (v : List Char) : list (u ++ v) = list u ++ list v := by
  induction u using by_lines with
  | last u h =>
    rcases closed_iff.1 hu with rfl | ⟨front, rfl⟩
    · rw [list_nil]
      rfl
    · simp at h
  | first body rest hb ih =>
    rw [List.append_assoc, List.cons_append, list_cons hb, list_cons hb, ih hu.rest]
    rfl

end Line

end ShaderBuild
