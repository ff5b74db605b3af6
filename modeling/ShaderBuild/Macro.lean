/-!
# Macros

A macro table maps names to values. Only words can be expanded, but any name can be defined and
tested.
-/

namespace ShaderBuild

/-- A macro definition. -/
structure Macro where
  name : String
  value : String := ""
  deriving DecidableEq, Repr

/-- The macros that are defined, each name once. -/
structure MacroTable where
  entries : List (String × String) := []
  deriving DecidableEq, Repr

namespace MacroTable

/-- No macro is defined. -/
def empty : MacroTable := {}

/-- The names that are defined. -/
def names (t : MacroTable) : List String := t.entries.map Prod.fst

/-- The value of a macro. -/
def get? (t : MacroTable) (name : String) : Option String := t.entries.lookup name

/-- Is there a macro of this name? -/
def contains (t : MacroTable) (name : String) : Bool := (t.get? name).isSome

/-- Remove a macro. -/
def erase (t : MacroTable) (name : String) : MacroTable := ⟨t.entries.filter (·.1 != name)⟩

/-- Define a macro, in place of one of that name. -/
def insert (t : MacroTable) (name value : String) : MacroTable :=
  ⟨(name, value) :: (t.erase name).entries⟩

/-- The number of macros. -/
def size (t : MacroTable) : Nat := t.entries.length

/-- Is no macro defined? -/
def isEmpty (t : MacroTable) : Bool := t.entries.isEmpty

/-- The table of a list of definitions, of which later ones win. -/
def ofList (macros : List Macro) : MacroTable :=
  macros.foldl (fun t m => t.insert m.name m.value) empty

@[simp] theorem get?_empty (name : String) : empty.get? name = none := rfl

theorem get?_erase (t : MacroTable) (name other : String) :
    (t.erase name).get? other = if other = name then none else t.get? other := by
  obtain ⟨entries⟩ := t
  simp only [get?, erase]
  induction entries with
  | nil => simp
  | cons e es ih =>
    obtain ⟨k, v⟩ := e
    by_cases hk : k = name
    · subst hk
      rw [List.filter_cons_of_neg (by simp), ih]
      by_cases ho : other = k
      · simp [ho]
      · have : (other == k) = false := by simpa using ho
        simp [ho, List.lookup_cons, this]
    · rw [List.filter_cons_of_pos (by simpa using hk), List.lookup_cons, List.lookup_cons, ih]
      by_cases ho : other = k
      · simp [ho, hk]
      · have : (other == k) = false := by simpa using ho
        simp [this]

theorem get?_insert (t : MacroTable) (name value other : String) :
    (t.insert name value).get? other = if other = name then some value else t.get? other := by
  have h := get?_erase t name other
  by_cases ho : other = name
  · subst ho; simp [insert, get?]
  · have hf : (other == name) = false := by simpa using ho
    simp only [ho, if_false] at h ⊢
    simpa [insert, get?, List.lookup_cons, hf] using h

theorem mem_names_of_get? {t : MacroTable} {name value : String} (h : t.get? name = some value) :
    name ∈ t.names := by
  obtain ⟨entries⟩ := t
  induction entries with
  | nil => simp [get?] at h
  | cons e es ih =>
    obtain ⟨k, v⟩ := e
    simp only [get?, names, List.lookup_cons, List.map_cons, List.mem_cons] at ih h ⊢
    by_cases hk : name = k
    · exact .inl hk
    · have hf : (name == k) = false := by simpa using hk
      rw [hf] at h
      exact .inr (ih h)

end MacroTable

end ShaderBuild
