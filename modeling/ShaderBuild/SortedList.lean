/-!
# Sorted lists

Lists that are kept in order as elements are added one by one.
-/

namespace ShaderBuild.SortedList

variable {α : Type}

/-- Put an element before the first one that it comes before. -/
def insert (before : α → α → Bool) (a : α) : List α → List α
  | [] => [a]
  | b :: bs => if before a b then a :: b :: bs else b :: insert before a bs

theorem mem_insert {before : α → α → Bool} {a x : α} {l : List α} :
    x ∈ insert before a l ↔ x = a ∨ x ∈ l := by
  induction l with
  | nil => simp [insert]
  | cons b bs ih =>
    rw [insert]
    split
    · simp
    · simp only [List.mem_cons, ih]
      exact or_left_comm

/-- A list in order stays in order, if the new element comes before or after each of its elements. -/
theorem pairwise_insert {before : α → α → Bool}
    (trans : ∀ {a b c}, before a b = true → before b c = true → before a c = true) {a : α}
    {l : List α} (hl : l.Pairwise (before · ·)) (ha : ∀ b ∈ l, before a b = false → before b a = true) :
    (insert before a l).Pairwise (before · ·) := by
  induction l with
  | nil => simp [insert]
  | cons b bs ih =>
    rw [List.pairwise_cons] at hl
    rw [insert]
    split
    · next h =>
      refine List.pairwise_cons.mpr ⟨fun c hc => ?_, List.pairwise_cons.mpr hl⟩
      rcases List.mem_cons.mp hc with rfl | hc
      · exact h
      · exact trans h (hl.1 c hc)
    · next h =>
      refine List.pairwise_cons.mpr ⟨fun c hc => ?_, ih hl.2 fun c hc => ha c (.tail _ hc)⟩
      rcases mem_insert.mp hc with rfl | hc
      · exact ha b (.head _) (by simpa using h)
      · exact hl.1 c hc

end ShaderBuild.SortedList
