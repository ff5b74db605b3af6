import ShaderBuild.Proofs.Places
/-!
# Paths that lead nowhere yet

What is added to a file system can make a path lead somewhere that led nowhere before, even if its place was
not touched: `a/../b` needs an `a`. This does not happen to a path that goes up only from places where there
is something (`Grounded`). In a tree nothing is missing on the way along such a path unless there is nothing
at its place (`node?_of_walk_notFound`), so whether it leads to a file depends on that place alone
(`Grows.isFile`).
-/

namespace ShaderBuild

/-! ## The parts of a path and of the one above -/

namespace Path

theorem not_mem_of_mem_splitSlash {cs part : List Char} (h : part ∈ splitSlash cs) : '/' ∉ part := by
  induction cs generalizing part with
  | nil =>
    rw [splitSlash, List.mem_singleton] at h
    rw [h]
    exact List.not_mem_nil
  | cons c cs ih =>
    obtain ⟨first, others, hs⟩ := List.exists_cons_of_ne_nil (splitSlash_ne_nil cs)
    rw [splitSlash, hs] at h
    rw [hs] at ih
    split at h
    · rcases List.mem_cons.1 h with rfl | h
      · exact List.not_mem_nil
      · exact ih h
    · next hc =>
      rcases List.mem_cons.1 h with rfl | h
      · rw [List.mem_cons, not_or]
        exact ⟨Ne.symm hc, ih List.mem_cons_self⟩
      · exact ih (List.mem_cons_of_mem _ h)

theorem not_mem_lastPart (p : Path) : '/' ∉ p.lastPart := by
  have hmem : p.lastPart ∈ splitSlash p.text.toList := by
    rw [FileSystem.splitSlash_eq_concat p]
    exact List.mem_concat_self
  exact not_mem_of_mem_splitSlash hmem

/-- A path ends in its last part. -/
theorem exists_append_lastPart (p : Path) : ∃ front, p.text.toList = front ++ p.lastPart := by
  rw [← joinSlash_splitSlash p.text.toList, FileSystem.splitSlash_eq_concat p]
  by_cases hd : (splitSlash p.text.toList).dropLast = []
  · exact ⟨[], by rw [hd]; rfl⟩
  · refine ⟨joinSlash (splitSlash p.text.toList).dropLast ++ ['/'], ?_⟩
    rw [joinSlash_append hd (List.cons_ne_nil _ _), List.append_assoc]
    rfl

theorem text_ne_of_lastPart {p : Path} (h : p.lastPart ≠ []) : p.text ≠ "" := by
  intro he
  simp [lastPart, he, splitSlash] at h

theorem dropSlashes_of_lastPart {p : Path} (h : p.lastPart ≠ []) : FileSystem.dropSlashes p = p := by
  obtain ⟨front, hf⟩ := exists_append_lastPart p
  obtain ⟨init, last, hl⟩ := (List.eq_nil_or_concat p.lastPart).resolve_left h
  have hslash : last ≠ '/' := by
    rintro rfl
    exact not_mem_lastPart p (by rw [hl]; simp)
  have hkept : (p.text.toList.reverse.dropWhile (· == '/')).reverse = p.text.toList := by
    rw [hf, hl, List.concat_eq_append, ← List.append_assoc, List.reverse_append, List.reverse_singleton,
      List.singleton_append, List.dropWhile_cons_of_neg (by simpa using hslash), List.reverse_cons,
      List.reverse_reverse]
  simp only [FileSystem.dropSlashes, hkept, String.ofList_toList]
  split <;> rfl

/-- Where a joined text begins. -/
theorem head?_joinSlash (first : List Char) (others : List (List Char)) :
    (joinSlash (first :: others)).head? = if first = [] ∧ others ≠ [] then some '/' else first.head? := by
  cases others with
  | nil => simp [joinSlash]
  | cons next others => cases first <;> simp [joinSlash]

theorem isAbsolute_iff {p : Path} {first : List Char} {others : List (List Char)}
    (h : splitSlash p.text.toList = first :: others) : p.isAbsolute = true ↔ first = [] ∧ others ≠ [] := by
  have hmem : first ∈ splitSlash p.text.toList := h ▸ List.mem_cons_self
  rw [isAbsolute, ← joinSlash_splitSlash p.text.toList, h, head?_joinSlash, beq_iff_eq]
  split
  · next hc => exact iff_of_true rfl hc
  · next hc =>
    exact iff_of_false (fun he => not_mem_of_mem_splitSlash hmem (List.mem_of_mem_head? he)) hc

theorem joinSlash_initial {parts parts' : List (List Char)} (hn : parts ≠ []) (h : parts <+: parts') :
    joinSlash parts <+: joinSlash parts' := by
  obtain ⟨rest, rfl⟩ := h
  by_cases hr : rest = []
  · simp [hr]
  · rw [joinSlash_append hn hr]
    exact List.prefix_append _ _

theorem dropLast_initial {parts parts' : List (List Char)} (h : parts <+: parts') :
    parts.dropLast <+: parts'.dropLast := by
  obtain ⟨rest, rfl⟩ := h
  rw [List.dropLast_append]
  split
  · exact List.prefix_rfl
  · exact (List.dropLast_prefix _).trans (List.prefix_append _ _)

/-- The parts of a name in a directory are those of the directory, an empty one at the end apart, and the name. -/
theorem splitSlash_join (dir : Path) {name : String} (h : '/' ∉ name.toList) :
    (dir.join ⟨name⟩).isAbsolute = dir.isAbsolute ∧
      ∃ front, splitSlash (dir.join ⟨name⟩).text.toList = front ++ [name.toList] ∧
        (splitSlash dir.text.toList = front ∨ splitSlash dir.text.toList = front ++ [[]]) := by
  have habs : (⟨name⟩ : Path).isAbsolute = false := by
    rw [isAbsolute, beq_eq_false_iff_ne]
    exact fun he => h (List.mem_of_mem_head? he)
  have happend : ∀ cs : List Char,
      splitSlash (cs ++ ['/'] ++ name.toList) = splitSlash cs ++ [name.toList] := by
    intro cs
    rw [splitSlash_append _ h, splitSlash_append_slash, List.dropLast_concat, List.getLastD_concat, List.nil_append]
  unfold join
  split
  · next hc =>
    have hempty := hc.resolve_left (by simp [habs])
    refine ⟨by rw [habs, isAbsolute, hempty]; rfl, [], splitSlash_of_not_mem h, .inr ?_⟩
    rw [hempty]
    rfl
  · next hc =>
    obtain ⟨first, others, hcs⟩ := List.exists_cons_of_ne_nil (l := dir.text.toList) (by simpa using (not_or.1 hc).2)
    split
    · next hslash =>
      obtain ⟨cs, hcs'⟩ := List.getLast?_eq_some_iff.1 (eq_of_beq hslash)
      refine ⟨by simp [isAbsolute, hcs], splitSlash cs, ?_, .inr ?_⟩
      · rw [String.toList_append, hcs', happend]
      · rw [hcs', splitSlash_append_slash]
    · refine ⟨by simp [isAbsolute, hcs], splitSlash dir.text.toList, ?_, .inl rfl⟩
      rw [String.toList_append, String.toList_append]
      exact happend _

/-- The part that is last once the idle ones were dropped. -/
theorem dropIdle_cases (parts : List (List Char)) :
    dropIdle parts = [] ∨ ∃ front last, dropIdle parts = front ++ [last] ∧ isIdle last = false := by
  by_cases h : dropIdle parts = []
  · exact .inl h
  · exact .inr ⟨_, _, (List.dropLast_concat_getLast h).symm, getLast_dropIdle h⟩

/-- A path that is made of parts that another one has too, before its last one. -/
structure Above (above p : Path) : Prop where
  named : above.lastPart ≠ []
  absolute : above.isAbsolute = p.isAbsolute
  initial : splitSlash above.text.toList <+: (splitSlash p.text.toList).dropLast

/-- The directory that a path names something in is the empty path, or the root, or has a part that is last. -/
theorem parent?_eq_some {p above : Path} (h : p.parent? = some above) :
    (above.text = "" ∨ above.text = "/") ∨ above.Above p := by
  obtain ⟨first, others, hs⟩ := List.exists_cons_of_ne_nil (splitSlash_ne_nil p.text.toList)
  have hfree : ∀ part ∈ first :: others, '/' ∉ part := fun part hp => not_mem_of_mem_splitSlash (hs ▸ hp)
  simp only [parent?, hs] at h
  split at h
  · split at h
    · cases h
    · exact .inl (.inl (congrArg Path.text (Option.some.inj h)).symm)
  · next hne =>
    have hothers : others ≠ [] := by
      rintro rfl
      exact hne rfl
    have hcut : dropIdle (dropIdle others).dropLast <+: others.dropLast :=
      (dropIdle_initial _).trans (dropLast_initial (dropIdle_initial others))
    obtain rfl := Option.some.inj h
    have hlast := dropIdle_cases (dropIdle others).dropLast
    generalize dropIdle (dropIdle others).dropLast = kept at hcut hlast
    by_cases habove : joinSlash (first :: kept) = []
    · exact .inl (.inr (by simp only [if_pos habove]))
    · have hinitial : first :: kept <+: (first :: others).dropLast := by
        rw [List.dropLast_cons_of_ne_nil hothers]
        exact List.cons_prefix_cons.2 ⟨rfl, hcut⟩
      rw [if_neg habove]
      have hparts : splitSlash (⟨String.ofList (joinSlash (first :: kept))⟩ : Path).text.toList = first :: kept := by
        rw [String.toList_ofList]
        exact splitSlash_joinSlash (List.cons_ne_nil _ _) fun part hp =>
          hfree part (List.dropLast_subset _ (hinitial.subset hp))
      refine .inr ⟨?_, ?_, ?_⟩
      · rw [lastPart, hparts]
        rcases hlast with rfl | ⟨front, last, rfl, hi⟩
        · exact habove
        · rw [← List.cons_append, List.getLastD_concat]
          rintro rfl
          cases hi
      · rw [Bool.eq_iff_iff, isAbsolute_iff hs, isAbsolute_iff hparts]
        refine and_congr_right fun hf => iff_of_true ?_ hothers
        rintro rfl
        exact habove hf
      · rw [hparts, hs]
        exact hinitial

theorem named_of_length {part : List Char} (h : 2 < part.length) : isIdle part = false ∧ part ≠ ['.', '.'] := by
  refine ⟨?_, fun he => by simp [he] at h⟩
  simp only [isIdle, Bool.or_eq_false_iff, beq_eq_false_iff_ne]
  exact ⟨fun he => by simp [he] at h, fun he => by simp [he] at h⟩

end Path

namespace FileSystem

variable {fs fs' fs'' : FileSystem} {l l' : Location} {p : Path} {parts : List (List Char)} {part : List Char}
  {fault : FileFault}

/-! ## Where walks end -/

theorem walk_concat (fs : FileSystem) (l : Location) (front : List (List Char)) (part : List Char) :
    fs.walk l (front ++ [part]) = match fs.walk l front with
      | .ok m => fs.step m part
      | .error fault => .error fault := by
  simp only [walk, List.foldlM_append, bind, Except.bind]
  cases List.foldlM fs.step l front with
  | error fault => rfl
  | ok m =>
    simp only [List.foldlM_cons, List.foldlM_nil, bind, Except.bind]
    cases fs.step m part <;> rfl

theorem walk_append_of_error {rest : List (List Char)} (h : fs.walk l parts = .error fault) :
    fs.walk l (parts ++ rest) = .error fault := by
  simp only [walk, List.foldlM_append, bind, Except.bind] at h ⊢
  rw [h]

theorem walk_append_of_ok {rest : List (List Char)} (h : fs.walk l parts = .ok l') :
    fs.walk l (parts ++ rest) = fs.walk l' rest := by
  simp only [walk, List.foldlM_append, bind, Except.bind] at h ⊢
  rw [h]

/-- What a step that is not possible says about its two ends. -/
inductive StepFault (fs : FileSystem) (l : Location) (part : List Char) : FileFault → Prop
  | away (h : fs.node? l = none) : StepFault fs l part .notFound
  | file {content : Bytes} (h : fs.node? l = some (.file content)) : StepFault fs l part .notADirectory
  | long (h : fs.node? l = some .directory) (named : Path.isIdle part = false ∧ part ≠ ['.', '.'])
      (long : maxName < (String.ofList part).utf8ByteSize) : StepFault fs l part .nameTooLong
  | missing (h : fs.node? l = some .directory) (named : Path.isIdle part = false ∧ part ≠ ['.', '.'])
      (short : ¬ maxName < (String.ofList part).utf8ByteSize)
      (missing : fs.node? (l.child (String.ofList part)) = none) : StepFault fs l part .notFound

theorem step_eq_error (h : fs.step l part = .error fault) : fs.StepFault l part fault := by
  unfold step at h
  split at h
  · next hn => exact Except.error.inj h ▸ .away hn
  · next content hn => exact Except.error.inj h ▸ .file hn
  · next hn =>
    split at h
    · cases h
    · next hi =>
      split at h
      · cases h
      · next hd =>
        have named : Path.isIdle part = false ∧ part ≠ ['.', '.'] := ⟨by simpa using hi, hd⟩
        dsimp only at h
        split at h
        · next hlong => exact Except.error.inj h ▸ .long hn named hlong
        · next hshort =>
          split at h
          · cases h
          · next hm => exact Except.error.inj h ▸ .missing hn named hshort (by simpa using hm)

theorem directory_of_step (h : fs.step l part = .ok l') : fs.node? l = some .directory := by
  unfold step at h
  split at h
  · cases h
  · cases h
  · assumption

/-- Nothing leads through a file. -/
theorem walk_of_file (hf : (fs.content? l).isSome) : fs.walk l parts ≠ .error .notFound := by
  obtain ⟨content, hc⟩ := Option.isSome_iff_exists.1 hf
  cases parts with
  | nil => exact fun h => by cases h
  | cons part parts =>
    simp only [walk, List.foldlM_cons, bind, Except.bind, step, node?_of_content? hc]
    exact fun h => by cases h

/-- In a tree there is something wherever a walk leads. -/
theorem IsTree.isSome_of_walk (ht : fs.IsTree) (hn : parts ≠ []) (h : fs.walk l parts = .ok l') :
    (fs.node? l').isSome := by
  obtain ⟨front, part, rfl⟩ := (List.eq_nil_or_concat parts).resolve_left hn
  rw [List.concat_eq_append, walk_concat] at h
  cases hf : fs.walk l front with
  | error fault =>
    rw [hf] at h
    cases h
  | ok m =>
    rw [hf] at h
    dsimp only at h
    have hd := directory_of_step h
    simp only [step, hd] at h
    split at h
    · rw [← Except.ok.inj h, hd]
      rfl
    · split at h
      · rw [← Except.ok.inj h]
        obtain ⟨names⟩ := m
        rcases List.eq_nil_or_concat names with rfl | ⟨above, name, rfl⟩
        · rfl
        · rw [List.concat_eq_append] at hd
          have hs : (fs.node? ⟨above ++ [name]⟩).isSome := by rw [hd]; rfl
          simpa [Location.parent] using ht.isSome_of_append hs
      · split at h
        · cases h
        · split at h
          · next hs =>
            rw [← Except.ok.inj h]
            exact hs
          · cases h

/-! ## Growing file systems -/

/-- Something was added: nothing was taken away, and directories and files are still what they were. -/
structure Grows (fs fs' : FileSystem) : Prop extends fs.Extends fs' where
  file : ∀ l, (fs.content? l).isSome → (fs'.content? l).isSome

namespace Grows

theorem of_content (h : fs.Extends fs') (hc : ∀ l, fs'.content? l = fs.content? l) : fs.Grows fs' :=
  ⟨h, fun l hl => by rw [hc]; exact hl⟩

theorem refl (fs : FileSystem) : fs.Grows fs := .of_content (.refl fs) fun _ => rfl

theorem trans (h : fs.Grows fs') (h' : fs'.Grows fs'') : fs.Grows fs'' :=
  ⟨h.toExtends.trans h'.toExtends, fun l hl => h'.file l (h.file l hl)⟩

/-- A walk that something stood in the way of still fails. -/
theorem walk_error (h : fs.Grows fs') (hw : fs.walk l parts = .error fault) (hn : fault ≠ .notFound) :
    fs'.walk l parts = .error fault := by
  induction parts using List.reverseRecOn with
  | nil => cases hw
  | append_singleton front part ih =>
    rw [walk_concat] at hw ⊢
    cases hf : fs.walk l front with
    | error fault' =>
      rw [hf] at hw ih
      obtain rfl := Except.error.inj hw
      rw [ih rfl]
    | ok m =>
      rw [hf] at hw
      rw [h.toExtends.walk hf]
      dsimp only at hw ⊢
      cases step_eq_error hw with
      | away hm => exact absurd rfl hn
      | missing hm => exact absurd rfl hn
      | @file content hm =>
        have hs := h.file m (by simp [content?, hm])
        obtain ⟨content', hc⟩ := Option.isSome_iff_exists.1 hs
        simp only [step, node?_of_content? hc]
      | long hm named long => simp [step, h.directory m hm, named, long]

end Grows

/-! ## Paths that go up from something -/

/-- Wherever some parts go up, they go up from something. -/
def GroundedAlong (fs : FileSystem) (l : Location) (parts : List (List Char)) : Prop :=
  ∀ front, front ++ [['.', '.']] <+: parts → (fs.node? (l.along front)).isSome

/-- Wherever a path goes up, it goes up from something. -/
def Grounded (fs : FileSystem) (p : Path) : Prop :=
  fs.GroundedAlong (fs.origin p) (Path.splitSlash p.text.toList)

theorem GroundedAlong.initial {parts' : List (List Char)} (h : fs.GroundedAlong l parts) (hp : parts' <+: parts) :
    fs.GroundedAlong l parts' :=
  fun front hf => h front (hf.trans hp)

theorem groundedAlong_of_not_mem (h : ['.', '.'] ∉ parts) : fs.GroundedAlong l parts :=
  fun _ hf => absurd (hf.subset (by simp)) h

/-- In a tree, a walk along such parts misses something only if there is nothing at its end. -/
theorem node?_of_walk_notFound (ht : fs.IsTree) (hg : fs.GroundedAlong l parts)
    (hw : fs.walk l parts = .error .notFound) : fs.node? (l.along parts) = none := by
  induction parts using List.reverseRecOn with
  | nil => cases hw
  | append_singleton front part ih =>
    have hinitial : front <+: front ++ [part] := List.prefix_append _ _
    -- What is missing on the way is missing at the end, as there is no way up from it.
    have hbelow : fs.node? (l.along front) = none → fs.node? (l.along (front ++ [part])) = none := by
      intro hn
      rw [Location.along_concat]
      simp only [Location.along, List.foldl_cons, List.foldl_nil]
      split
      · exact hn
      · split
        · next hup =>
          have hs := hg front (hup ▸ List.prefix_rfl)
          rw [hn] at hs
          cases hs
        · refine Option.not_isSome_iff_eq_none.1 fun hs => ?_
          have hd := ht.parent _ _ hs
          rw [show List.foldl _ l front = l.along front from rfl, hn] at hd
          cases hd
    rw [walk_concat] at hw
    cases hf : fs.walk l front with
    | error fault =>
      rw [hf] at hw
      exact hbelow (ih (hg.initial hinitial) (hf.trans hw))
    | ok m =>
      rw [hf] at hw
      obtain rfl := walk_eq hf
      cases step_eq_error hw with
      | away hn => exact hbelow hn
      | missing hn named short missing =>
        rw [Location.along_concat]
        simpa [Location.along, named] using missing

section Join
variable (fs) (dir : Path) {name : String} (h : '/' ∉ name.toList)
  (hn : Path.isIdle name.toList = false ∧ name.toList ≠ ['.', '.'])
include h hn

/-- A name in a directory stands for the place of that name. -/
theorem place_join : fs.place (dir.join ⟨name⟩) = (fs.place dir).child name := by
  obtain ⟨habs, front, hparts, hdir⟩ := Path.splitSlash_join dir h
  have hfront : (fs.origin dir).along (Path.splitSlash dir.text.toList) = (fs.origin dir).along front := by
    rcases hdir with hd | hd
    · rw [hd]
    · simp [hd, Location.along, Path.isIdle]
  rw [place, place, origin, habs, ← origin, hparts, Location.along_concat, hfront]
  simp [Location.along, hn]

theorem Grounded.join (hg : fs.Grounded dir) : fs.Grounded (dir.join ⟨name⟩) := by
  obtain ⟨habs, front, hparts, hdir⟩ := Path.splitSlash_join dir h
  have hfront : fs.GroundedAlong (fs.origin dir) front := by
    refine GroundedAlong.initial hg ?_
    rcases hdir with hd | hd
    · simp [hd]
    · simp [hd]
  rw [Grounded, origin, habs, ← origin, hparts]
  intro up hup
  rcases List.prefix_concat_iff.1 hup with he | hup
  · exact absurd (List.append_inj' he rfl).2 (by simpa using Ne.symm hn.2)
  · exact hfront up hup

end Join

theorem place_named (fs : FileSystem) (dir : Path) {name : String} (h : '/' ∉ name.toList)
    (hl : 2 < name.toList.length) : fs.place (dir.join ⟨name⟩) = (fs.place dir).child name :=
  place_join fs dir h (Path.named_of_length hl)

theorem resolve_of_check (h : check p = .ok ()) :
    fs.resolve p = fs.walk (fs.origin p) (Path.splitSlash p.text.toList) := by
  simp only [resolve, h, bind, Except.bind]

theorem check_eq_error (h : check p = .error fault) (hp : p.text ≠ "") : fault ≠ .notFound := by
  rw [check, if_neg hp] at h
  split at h
  · rw [← Except.error.inj h]
    decide
  · split at h
    · rw [← Except.error.inj h]
      decide
    · cases h

theorem check_of_resolve (h : fs.resolve p = .ok l) : check p = .ok () := by
  simp only [resolve, bind, Except.bind] at h
  split at h
  · cases h
  · next hc => exact hc

theorem trace_of_resolve (h : fs.resolve p = .ok l) : fs.trace p = .ok l := by
  have hcheck := check_of_resolve h
  rw [resolve_of_check hcheck] at h
  rw [check] at hcheck
  rw [trace, h]
  split at hcheck
  · cases hcheck
  · next hnul =>
    split at hcheck
    · cases hcheck
    · next hempty => rw [if_neg hnul, if_neg hempty]

/-- Whether such a path leads to a file does not depend on what was added elsewhere. -/
theorem Grows.isFile (h : fs.Grows fs') (ht : fs.IsTree) (hg : fs.Grounded p)
    (hc : fs'.content? (fs.place p) = fs.content? (fs.place p)) : fs'.isFile p = fs.isFile p := by
  rw [FileSystem.isFile, FileSystem.isFile]
  cases hr : fs.resolve p with
  | ok l =>
    obtain rfl := resolve_eq hr
    rw [h.toExtends.resolve hr]
    exact congrArg Option.isSome hc
  | error fault =>
    cases hr' : fs'.resolve p with
    | error fault' => rfl
    | ok l =>
      obtain rfl := (resolve_eq hr').trans (h.toExtends.place p)
      have hcheck := check_of_resolve hr'
      rw [resolve_of_check hcheck] at hr hr'
      by_cases hn : fault = .notFound
      · subst hn
        have hnone : fs.node? (fs.place p) = none := node?_of_walk_notFound ht hg hr
        dsimp only
        rw [hc, content?, hnone]
        rfl
      · rw [h.origin, h.walk_error hr hn] at hr'
        cases hr'

section Above
variable {above : Path} (ha : above.Above p)
include ha

theorem origin_above : fs.origin above = fs.origin p := by
  simp only [origin, ha.absolute]

theorem grounded_above (hg : fs.Grounded p) : fs.Grounded above := by
  rw [Grounded, origin_above ha]
  exact hg.initial (ha.initial.trans (List.dropLast_prefix _))

/-- A path can be looked up if one below it can. -/
theorem check_above (hp : check p = .ok ()) : check above = .ok () := by
  obtain ⟨rest, hrest⟩ : ∃ rest, p.text = above.text ++ rest := by
    obtain ⟨chars, hchars⟩ := Path.joinSlash_initial (Path.splitSlash_ne_nil _)
      (ha.initial.trans (List.dropLast_prefix _))
    rw [Path.joinSlash_splitSlash, Path.joinSlash_splitSlash] at hchars
    exact ⟨String.ofList chars, String.toList_inj.1 (by rw [← hchars]; simp)⟩
  rw [check, hrest, String.utf8ByteSize_append] at hp
  rw [check, if_neg (Path.text_ne_of_lastPart ha.named)]
  split at hp
  · cases hp
  · next hnul =>
    split at hp
    · cases hp
    · split at hp
      · cases hp
      · rw [if_neg fun hc => hnul (by simp_all), if_neg (by omega)]

end Above

end FileSystem

end ShaderBuild
