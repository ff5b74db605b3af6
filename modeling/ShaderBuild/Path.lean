/-!
# Paths and locations

A `Path` is a text that names a file, as a user wrote it or as it was joined from such texts; it is
never normalised. A `Location` is where a path leads: the names from the root of the file system
down to a file or directory.
-/

namespace ShaderBuild

/-- A path as it is written. -/
structure Path where
  text : String
  deriving DecidableEq, Repr, Inhabited

/-- The place of a file or directory: the names on the way to it from the root. -/
structure Location where
  names : List String
  deriving DecidableEq, Repr, Inhabited

namespace Path

/-- The parts of a text between slashes; there is at least one. -/
def splitSlash : List Char → List (List Char)
  | [] => [[]]
  | c :: cs =>
    if c = '/' then [] :: splitSlash cs
    else
      match splitSlash cs with
      | [] => [[c]]
      | part :: parts => (c :: part) :: parts

/-- Parts with slashes between them. -/
def joinSlash : List (List Char) → List Char
  | [] => []
  | [part] => part
  | part :: parts => part ++ '/' :: joinSlash parts

/-- Does the path start at the root? -/
def isAbsolute (p : Path) : Bool := p.text.toList.head? == some '/'

/-- Does the path end in a slash? -/
def endsInSlash (p : Path) : Bool := p.text.toList.getLast? == some '/'

/-- `p` as seen from the directory `dir`: an absolute path stands for itself, and any other is
appended with a slash between, if there is none yet and something to separate. -/
def join (dir p : Path) : Path :=
  if p.isAbsolute ∨ dir.text = "" then p
  else if dir.endsInSlash then ⟨dir.text ++ p.text⟩
  else ⟨dir.text ++ "/" ++ p.text⟩

/-- A part that leads nowhere: an empty one, or a single dot. -/
def isIdle (part : List Char) : Bool := part == [] || part == ['.']

/-- The parts that a path is made of: the root of an absolute path, the dot that another one may start
with, and the names after it. -/
def parts (p : Path) : List (List Char) :=
  match splitSlash p.text.toList with
  | [] => []
  | first :: others =>
    let front := if p.isAbsolute then [['/']] else if first = [] then [] else [first]
    front ++ others.filter (!isIdle ·)

/-- Are two paths made of the same parts? -/
def same (p q : Path) : Bool := p.parts == q.parts

/-- Drop the parts at the end that lead nowhere. -/
def dropIdle (parts : List (List Char)) : List (List Char) :=
  (parts.reverse.dropWhile isIdle).reverse

/-- The directory that a path names something in: the path without its last part. The root and the
empty path have none. A dot at the very front counts as a part, any other does not. -/
def parent? (p : Path) : Option Path :=
  match splitSlash p.text.toList with
  | [] => none
  | first :: others =>
    match dropIdle others with
    | [] => if first = [] then none else some ⟨""⟩
    | kept =>
      let above := joinSlash (first :: dropIdle kept.dropLast)
      some ⟨if above = [] then "/" else String.ofList above⟩

/-! ### Parts and lengths -/

theorem splitSlash_ne_nil (cs : List Char) : splitSlash cs ≠ [] := by
  unfold splitSlash
  repeat' split
  all_goals simp

theorem joinSlash_cons_cons (part next : List Char) (parts : List (List Char)) :
    joinSlash (part :: next :: parts) = part ++ '/' :: joinSlash (next :: parts) := rfl

/-- The parts of a text, joined again, are the text. -/
theorem joinSlash_splitSlash (cs : List Char) : joinSlash (splitSlash cs) = cs := by
  induction cs with
  | nil => rfl
  | cons c cs ih =>
    obtain ⟨part, parts, h⟩ := List.exists_cons_of_ne_nil (splitSlash_ne_nil cs)
    rw [h] at ih
    rw [splitSlash]
    split
    · next hc => rw [h, joinSlash_cons_cons, ih, hc]; rfl
    · rw [h]
      cases parts <;> simp_all [joinSlash]

theorem joinSlash_append {l m : List (List Char)} (hl : l ≠ []) (hm : m ≠ []) :
    joinSlash (l ++ m) = joinSlash l ++ '/' :: joinSlash m := by
  obtain ⟨next, others, rfl⟩ := List.exists_cons_of_ne_nil hm
  induction l with
  | nil => exact absurd rfl hl
  | cons part parts ih =>
    cases parts with
    | nil => rfl
    | cons p ps =>
      rw [List.cons_append, List.cons_append, joinSlash_cons_cons, ← List.cons_append,
        ih (List.cons_ne_nil _ _), joinSlash_cons_cons, List.append_assoc, List.cons_append]

theorem length_joinSlash_le {l m : List (List Char)} (hl : l ≠ []) (h : l <+: m) :
    (joinSlash l).length ≤ (joinSlash m).length := by
  obtain ⟨t, rfl⟩ := h
  by_cases ht : t = []
  · simp [ht]
  · rw [joinSlash_append hl ht, List.length_append]
    exact Nat.le_add_right _ _

theorem dropIdle_initial (parts : List (List Char)) : dropIdle parts <+: parts := by
  have h := List.reverse_prefix.mpr (List.dropWhile_suffix (l := parts.reverse) isIdle)
  simpa [dropIdle] using h

theorem getLast_dropIdle {parts : List (List Char)} (h : dropIdle parts ≠ []) :
    isIdle ((dropIdle parts).getLast h) = false := by
  have h' : (parts.reverse.dropWhile isIdle) ≠ [] := by simpa [dropIdle] using h
  have := List.head_dropWhile_not isIdle h'
  simpa [dropIdle, List.getLast_reverse] using this

/-- A directory has a shorter path than what is in it. -/
theorem length_parent_lt {p above : Path} (h : p.parent? = some above) :
    above.text.length < p.text.length := by
  unfold parent? at h
  have hp := joinSlash_splitSlash p.text.toList
  split at h
  · simp at h
  next first others hs =>
  rw [hs] at hp
  have hlen := congrArg List.length hp
  rw [String.length_toList] at hlen
  split at h
  · split at h
    · simp at h
    next hf =>
    obtain rfl := Option.some.inj h
    have hle := length_joinSlash_le (List.cons_ne_nil first [])
      (List.prefix_append [first] others)
    have hpos := List.length_pos_iff.mpr hf
    rw [joinSlash] at hle
    simp only [List.cons_append, List.nil_append] at hle
    rw [String.length_empty]
    omega
  next hne =>
  obtain rfl := Option.some.inj h
  have hlast := getLast_dropIdle hne
  have hcut := List.dropLast_concat_getLast hne
  generalize (dropIdle others).getLast hne = last at hlast hcut
  have hpos : 0 < last.length := by
    cases last with
    | nil => simp [isIdle] at hlast
    | cons => simp
  have hle := length_joinSlash_le (List.cons_ne_nil first _)
    (List.cons_prefix_cons.mpr ⟨rfl, dropIdle_initial others⟩)
  rw [← hcut, ← List.cons_append, joinSlash_append (List.cons_ne_nil _ _) (List.cons_ne_nil _ _),
    List.length_append, List.length_cons, joinSlash] at hle
  have hlt := length_joinSlash_le (List.cons_ne_nil first _)
    (List.cons_prefix_cons.mpr ⟨rfl, dropIdle_initial (dropIdle others).dropLast⟩)
  split
  · rw [show "/".length = 1 from rfl]
    omega
  · rw [String.length_ofList]
    omega

end Path

namespace Location

/-- The root of the file system. -/
def root : Location := ⟨[]⟩

/-- The place of `name` in a directory. -/
def child (dir : Location) (name : String) : Location := ⟨dir.names ++ [name]⟩

/-- The directory of a place; the root is its own. -/
def parent (l : Location) : Location := ⟨l.names.dropLast⟩

/-- The absolute path of a place. -/
def path (l : Location) : Path :=
  ⟨String.ofList ('/' :: Path.joinSlash (l.names.map String.toList))⟩

/-- The place that an absolute path spells out, if it nowhere goes up. -/
def spelled? (p : Path) : Option Location :=
  let names := (Path.splitSlash p.text.toList).filter (!Path.isIdle ·)
  if p.isAbsolute ∧ ['.', '.'] ∉ names then some ⟨names.map String.ofList⟩ else none

/-- Places in order, name by name. -/
def before (a b : Location) : Bool := a.names < b.names

end Location

end ShaderBuild
