import ShaderBuild.Proofs.Declarations
/-!
# Interfaces are read back

A text of written declarations, with gaps between their words, is read without an error, and the interface
is that of the declarations: each one is read after its first word (`reads_declaration`) and added
(`add_read`), and what was added before stays (`Firsts`).
-/

namespace ShaderBuild

/-- An element is put where it is found, unless another one is found before it. -/
theorem SortedList.find?_insert {α : Type} {before : α → α → Bool} {p : α → Bool} {a : α} {l : List α}
    (h : p a = true → ∀ b ∈ l, p b = false) : (SortedList.insert before a l).find? p = (l ++ [a]).find? p := by
  induction l with
  | nil => rfl
  | cons b bs ih =>
    have hbs := ih fun ha b hb => h ha b (List.mem_cons_of_mem _ hb)
    rw [SortedList.insert]
    split
    · -- put first: found if it is wanted, and in the way of nothing else
      cases ha : p a with
      | true =>
        rw [List.find?_cons_of_pos ha, List.find?_append, List.find?_eq_none.2, Option.none_or,
          List.find?_cons_of_pos ha]
        exact fun b hb => Bool.eq_false_iff.1 (h ha b hb)
      | false =>
        have hne : ¬ p a = true := Bool.eq_false_iff.1 ha
        rw [List.find?_cons_of_neg hne, List.find?_append, List.find?_cons_of_neg hne, List.find?_nil,
          Option.or_none]
    · rw [List.cons_append, List.find?_cons, List.find?_cons, hbs]

namespace Written

open Token Reader Text

/-! ## The first declaration of each name -/

namespace Firsts
variable {α : Type} {name : α → String} {declared kept : List α} {a : α}

theorem nil : Firsts name [] [] := ⟨fun _ => rfl, List.Pairwise.nil⟩

theorem isSome_iff (h : Firsts name declared kept) (n : String) :
    (kept.find? (name · == n)).isSome = true ↔ ∃ a ∈ declared, name a = n := by
  rw [h.first, List.find?_isSome]
  simp only [beq_iff_eq]

/-- Another declaration of a name does not count. -/
theorem again (h : Firsts name declared kept) (hs : (kept.find? (name · == name a)).isSome = true) :
    Firsts name (declared ++ [a]) kept := by
  refine ⟨fun n => ?_, h.sorted⟩
  rw [h.first, List.find?_append]
  by_cases hn : name a = n
  · -- there is one before it
    rw [h.first, hn] at hs
    obtain ⟨b, hb⟩ := Option.isSome_iff_exists.1 hs
    rw [hb, Option.some_or]
  · rw [List.find?_cons_of_neg (by rwa [beq_iff_eq]), List.find?_nil, Option.or_none]

theorem before_of_not_before {b : α} (h : decide (name a < name b) = false) (hne : name b ≠ name a) :
    decide (name b < name a) = true := by
  have hle := String.not_lt.1 (of_decide_eq_false h)
  exact decide_eq_true (String.not_le.1 fun hle' => hne (String.le_antisymm hle hle'))

/-- The first declaration of a name is put in order. -/
theorem insert (h : Firsts name declared kept) (hs : (kept.find? (name · == name a)).isSome = false) :
    Firsts name (declared ++ [a]) (SortedList.insert (fun a b => decide (name a < name b)) a kept) := by
  have hnew : ∀ b ∈ kept, name b ≠ name a := by
    intro b hb hn
    have hs := List.find?_eq_none.1 (Option.isNone_iff_eq_none.1 (by rw [← Option.not_isSome, hs]; rfl)) b hb
    exact hs (beq_iff_eq.2 hn)
  refine ⟨fun n => ?_, ?_⟩
  · have hp : (name a == n) = true → ∀ b ∈ kept, (name b == n) = false :=
      fun ha b hb => beq_eq_false_iff_ne.2 fun hn => hnew b hb (hn.trans (beq_iff_eq.1 ha).symm)
    rw [SortedList.find?_insert hp, List.find?_append, List.find?_append, h.first]
  · have hsorted : kept.Pairwise fun a b => decide (name a < name b) = true := by
      simpa only [decide_eq_true_eq] using h.sorted
    have hin := @SortedList.pairwise_insert α (fun a b => decide (name a < name b))
      (fun h1 h2 => decide_eq_true (String.lt_trans (of_decide_eq_true h1) (of_decide_eq_true h2))) a kept hsorted
      fun b hb hlt => before_of_not_before hlt (hnew b hb)
    simpa only [decide_eq_true_eq] using hin

/-- In order, each one is the first of its name. -/
theorem find?_of_mem {l : List α} (h : l.Pairwise fun a b => name a < name b) (ha : a ∈ l) :
    l.find? (name · == name a) = some a := by
  induction l with
  | nil => cases ha
  | cons b bs ih =>
    rw [List.pairwise_cons] at h
    rcases List.mem_cons.1 ha with rfl | ha
    · exact List.find?_cons_of_pos (beq_self_eq_true (name a))
    · have hne : ¬ (name b == name a) = true := fun he => String.lt_irrefl _ (beq_iff_eq.1 he ▸ h.1 a ha)
      rw [List.find?_cons_of_neg (p := fun x => name x == name a) hne, ih h.2 ha]

theorem mem_iff (h : Firsts name declared kept) (a : α) : a ∈ kept ↔ declared.find? (name · == name a) = some a :=
  ⟨fun ha => (h.first (name a)).symm.trans (find?_of_mem h.sorted ha),
    fun ha => List.mem_of_find?_eq_some ((h.first (name a)).trans ha)⟩

theorem nodup (h : Firsts name declared kept) : kept.Nodup := by
  refine h.sorted.imp fun hlt => ?_
  rintro rfl
  exact String.lt_irrefl _ hlt

/-- The first declaration of each name, in order, is only one list. -/
theorem unique (h : Firsts name declared kept) {kept' : List α} (h' : Firsts name declared kept') :
    kept = kept' := by
  have hperm : kept.Perm kept' :=
    (List.perm_ext_iff_of_nodup h.nodup h'.nodup).2 fun a => (h.mem_iff a).trans (h'.mem_iff a).symm
  refine hperm.eq_of_pairwise (fun a b _ _ hab hba => ?_) h.sorted h'.sorted
  exact absurd (String.lt_trans hab hba) (String.lt_irrefl _)

end Firsts

/-- Put a declaration in order, unless there is one of its name. -/
def addFirst {α : Type} (name : α → String) (a : α) (kept : List α) : List α :=
  if (kept.find? (name · == name a)).isSome then kept
  else SortedList.insert (fun a b => decide (name a < name b)) a kept

theorem Firsts.add {α : Type} {name : α → String} {declared kept : List α} (h : Firsts name declared kept) (a : α) :
    Firsts name (declared ++ [a]) (addFirst name a kept) := by
  rw [addFirst]
  split
  · next hs => exact h.again hs
  · next hs => exact h.insert (Bool.eq_false_iff.2 hs)

/-! ## Declarations are added -/

theorem repeated_append {α : Type} [DecidableEq α] (before l l' : List α) :
    repeated before (l ++ l') = repeated before l ++ repeated (before ++ l) l' := by
  induction l generalizing before with
  | nil => rw [List.nil_append, repeated, List.nil_append, List.append_nil]
  | cons a l ih => rw [List.cons_append, repeated, repeated, ih, List.append_assoc, List.append_assoc]; rfl

theorem warnings_append (before ss ss' : List Standing) :
    warnings before (ss ++ ss') = warnings before ss ++ warnings (before ++ ss) ss' := by
  rw [warnings, List.filterMap_append, repeated_append, List.map_append, warnings, warnings, List.filterMap_append]

/-- The names of a kind are those of its declarations. -/
theorem mem_keys {α : Type} {name : α → String} {kind : DeclarationKind} {f : Standing → Option α}
    (hf : ∀ s n, s.key? = some (kind, n) ↔ ∃ a, f s = some a ∧ name a = n) (ss : List Standing) (n : String) :
    (kind, n) ∈ ss.filterMap Standing.key? ↔ ∃ a ∈ ss.filterMap f, name a = n := by
  simp only [List.mem_filterMap, hf]
  constructor
  · rintro ⟨s, hs, a, ha, hn⟩
    exact ⟨a, ⟨s, hs, ha⟩, hn⟩
  · rintro ⟨a, ⟨s, hs, ha⟩, hn⟩
    exact ⟨s, hs, a, ha, hn⟩

theorem key?_constantBuffer (s : Standing) (n : String) :
    s.key? = some (.constantBuffer, n) ↔ ∃ b, s.constantBuffer? = some b ∧ b.name = n := by
  obtain ⟨line, types, d⟩ := s
  cases d <;> simp [Standing.key?, Standing.constantBuffer?]

theorem key?_resource (s : Standing) (n : String) :
    s.key? = some (.resource, n) ↔ ∃ r, s.resource? = some r ∧ r.name = n := by
  obtain ⟨line, types, d⟩ := s
  cases d <;> simp [Standing.key?, Standing.resource?]

theorem key?_function (s : Standing) (n : String) :
    s.key? = some (.function, n) ↔ ∃ f, s.function? = some f ∧ f.name = n := by
  obtain ⟨line, types, d⟩ := s
  cases d <;> simp [Standing.key?, Standing.function?, Function.resolved]

section Kind
variable {α : Type} {name : α → String} {kind : DeclarationKind} {f : Standing → Option α} {before : List Standing}
  {s : Standing} {a : α} {kept : List α}

theorem filterMap_append_some (ha : f s = some a) : (before ++ [s]).filterMap f = before.filterMap f ++ [a] := by
  rw [List.filterMap_append, List.filterMap_cons_some ha, List.filterMap_nil]

theorem filterMap_append_none (ha : f s = none) : (before ++ [s]).filterMap f = before.filterMap f := by
  rw [List.filterMap_append, List.filterMap_cons_none ha, List.filterMap_nil, List.append_nil]

/-- There is a warning about a declaration if there is one of its name. -/
theorem warnings_of_find? (hf : ∀ s n, s.key? = some (kind, n) ↔ ∃ a, f s = some a ∧ name a = n) (ha : f s = some a)
    (h : Firsts name (before.filterMap f) kept) :
    warnings before [s] = if (kept.find? (name · == name a)).isSome then [.duplicate kind (name a)] else [] := by
  have hk : s.key? = some (kind, name a) := (hf s _).2 ⟨a, ha, rfl⟩
  have hm := (mem_keys hf before (name a)).trans (h.isSome_iff (name a)).symm
  rw [warnings, List.filterMap_cons_some hk, List.filterMap_nil, repeated, repeated, List.append_nil]
  by_cases hs : (kept.find? (name · == name a)).isSome = true
  · rw [if_pos hs, if_pos (hm.2 hs)]
    rfl
  · rw [if_neg hs, if_neg fun h => hs (hm.1 h)]
    rfl

end Kind

section Add
variable (i : Interface)

theorem addConstantBuffer_eq (b : ConstantBuffer) :
    i.addConstantBuffer b = ({ i with constantBuffers := addFirst ConstantBuffer.name b i.constantBuffers },
      if (i.constantBuffers.find? (·.name == b.name)).isSome then [.duplicate .constantBuffer b.name] else []) := by
  rw [Interface.addConstantBuffer, Interface.constantBuffer?, addFirst]
  split <;> rfl

theorem addResource_eq (r : Resource) :
    i.addResource r = ({ i with resources := addFirst Resource.name r i.resources },
      if (i.resources.find? (·.name == r.name)).isSome then [.duplicate .resource r.name] else []) := by
  rw [Interface.addResource, Interface.resource?, addFirst]
  split <;> rfl

theorem addFunction_eq (f : ShaderBuild.Function) :
    i.addFunction f = ({ i with functions := addFirst ShaderBuild.Function.name f i.functions },
      if (i.functions.find? (·.name == f.name)).isSome then [.duplicate .function f.name] else []) := by
  rw [Interface.addFunction, Interface.function?, addFirst]
  split <;> rfl

variable {i} {before : List Standing} {s : Standing}

theorem define_struct {types : TypeTable} (hs : types.InStep) {name : Name} {members : List Member}
    (hn : types.contains name.text = false) (hm : ∀ m ∈ members, types.contains m.type.text = true) :
    types.define ⟨name.text, members.map Member.spec⟩ =
      (some (.ofNat types.size), Declaration.after types (.struct name members)) := by
  rw [TypeTable.define, hn, if_neg Bool.false_ne_true, resolveAll?_specs hs hm]
  rfl

theorem Reflects.append_none (h : Reflects i before) (hb : s.constantBuffer? = none) (hr : s.resource? = none)
    (hf : s.function? = none) : Reflects i (before ++ [s]) := by
  refine ⟨?_, ?_, ?_⟩
  · rw [filterMap_append_none hb]
    exact h.constantBuffers
  · rw [filterMap_append_none hr]
    exact h.resources
  · rw [filterMap_append_none hf]
    exact h.functions

theorem Reflects.constantBuffer (h : Reflects i before) {b : ConstantBuffer} (hb : s.constantBuffer? = some b)
    (hr : s.resource? = none) (hf : s.function? = none) :
    ∃ i', i.addConstantBuffer b = (i', warnings before [s]) ∧ i'.types = i.types ∧ Reflects i' (before ++ [s]) := by
  have hw := warnings_of_find? key?_constantBuffer hb h.constantBuffers
  refine ⟨_, (addConstantBuffer_eq i b).trans (congrArg (Prod.mk _) hw.symm), rfl, ?_, ?_, ?_⟩
  · rw [filterMap_append_some hb]
    exact h.constantBuffers.add b
  · rw [filterMap_append_none hr]
    exact h.resources
  · rw [filterMap_append_none hf]
    exact h.functions

theorem Reflects.resource (h : Reflects i before) {r : Resource} (hb : s.constantBuffer? = none)
    (hr : s.resource? = some r) (hf : s.function? = none) :
    ∃ i', i.addResource r = (i', warnings before [s]) ∧ i'.types = i.types ∧ Reflects i' (before ++ [s]) := by
  have hw := warnings_of_find? key?_resource hr h.resources
  refine ⟨_, (addResource_eq i r).trans (congrArg (Prod.mk _) hw.symm), rfl, ?_, ?_, ?_⟩
  · rw [filterMap_append_none hb]
    exact h.constantBuffers
  · rw [filterMap_append_some hr]
    exact h.resources.add r
  · rw [filterMap_append_none hf]
    exact h.functions

theorem Reflects.function (h : Reflects i before) {f : ShaderBuild.Function} (hb : s.constantBuffer? = none)
    (hr : s.resource? = none) (hf : s.function? = some f) :
    ∃ i', i.addFunction f = (i', warnings before [s]) ∧ i'.types = i.types ∧ Reflects i' (before ++ [s]) := by
  have hw := warnings_of_find? key?_function hf h.functions
  refine ⟨_, (addFunction_eq i f).trans (congrArg (Prod.mk _) hw.symm), rfl, ?_, ?_, ?_⟩
  · rw [filterMap_append_none hb]
    exact h.constantBuffers
  · rw [filterMap_append_none hr]
    exact h.resources
  · rw [filterMap_append_some hf]
    exact h.functions.add f

/-- What is read of a fitting declaration can be added, and is then in the interface. -/
theorem add_read (h : Reflects i before) (hi : i.types.InStep) (hs : s.types = i.types)
    (hd : s.declaration.Fits i.types) :
    ∃ i', i.add (s.declaration.read i.types s.line) = .ok (i', warnings before [s]) ∧
      i'.types = s.declaration.after i.types ∧ Reflects i' (before ++ [s]) := by
  obtain ⟨line, types, d⟩ := s
  obtain rfl : types = i.types := hs
  cases d with
  | struct name members =>
    have hr := h.append_none (s := ⟨line, i.types, .struct name members⟩) rfl rfl rfl
    refine ⟨{ i with types := Declaration.after i.types (.struct name members) }, ?_, rfl, ⟨hr.1, hr.2, hr.3⟩⟩
    dsimp only [Declaration.read, Interface.add]
    rw [hd.1.unknown, if_neg Bool.false_ne_true, define_struct hi hd.1.unknown hd.2]
    rfl
  | constants buffer name register members closed =>
    obtain ⟨i', hb, ht, hr⟩ :=
      h.constantBuffer (s := ⟨line, i.types, .constants buffer name register members closed⟩) rfl rfl rfl
    refine ⟨i', ?_, ht, hr⟩
    dsimp only [Declaration.read, Interface.add]
    rw [resolveAll?_specs hi hd]
    exact congrArg Except.ok hb
  | resource kind argument name size register =>
    obtain ⟨i', ha, ht, hr⟩ :=
      h.resource (s := ⟨line, i.types, .resource kind argument name size register⟩) rfl rfl rfl
    exact ⟨i', congrArg Except.ok ha, ht, hr⟩
  | function f =>
    obtain ⟨i', ha, ht, hr⟩ := h.function (s := ⟨line, i.types, .function f⟩) rfl rfl rfl
    exact ⟨i', congrArg Except.ok ha, ht, hr⟩
  | global g => exact ⟨i, rfl, rfl, h.append_none rfl rfl rfl⟩

end Add

/-! ## All declarations of a text -/

theorem extend_nil (i : Interface) (endLine : UInt32) : i.extend ⟨[], endLine⟩ = ⟨.ok i, []⟩ := by
  rw [Interface.extend]

theorem extend_cons {i i' : Interface} {t : Token} {rest : List Token} {endLine : UInt32} {s : Stream}
    {d : ShaderBuild.Declaration} {ws : List Warning}
    (hd : Declaration.startingWith i.types t ⟨rest, endLine⟩ = .ok (d, s)) (ha : i.add d = .ok (i', ws)) :
    i.extend ⟨t :: rest, endLine⟩ = ⟨(i'.extend s).result, ws ++ (i'.extend s).warnings⟩ := by
  rw [Interface.extend]
  dsimp only
  split
  · next e he => cases he.symm.trans hd
  · next d' s' hd' =>
    obtain ⟨rfl, rfl⟩ := Prod.mk.inj (Except.ok.inj (hd'.symm.trans hd))
    rw [ha]

/-- A declaration has a first word, which is no semicolon. -/
theorem words_eq_cons (d : Declaration) : ∃ w ws, d.words = w :: ws ∧ w.kind ≠ .semicolon := by
  cases d with
  | struct name members => exact ⟨_, _, rfl, by decide⟩
  | constants buffer name register members closed => exact ⟨_, _, rfl, by cases buffer <;> decide⟩
  | resource kind argument name size register =>
    refine ⟨_, _, rfl, fun h => ?_⟩
    cases (ofWord_keyword kind).symm.trans h
  | function f =>
    refine ⟨_, _, rfl, ?_⟩
    cases f.returns with
    | none => decide
    | some n => exact (by decide : Kind.identifier ≠ .semicolon)
  | global g => exact ⟨_, _, rfl, (by decide : Kind.identifier ≠ .semicolon)⟩

/-- What a declaration that is placed consists of. -/
theorem laid_eq_cons (p : Placed) :
    ∃ l ls, p.laid = l :: ls ∧ p.declaration.words = l.word :: ls.map Laid.word ∧ l.word.kind ≠ .semicolon := by
  obtain ⟨w, ws, hw, hk⟩ := words_eq_cons p.declaration
  obtain ⟨l, ls, hl, rfl, rfl⟩ := List.map_eq_cons_iff.1 (p.laid_words.trans hw)
  exact ⟨l, ls, hl, hw, hk⟩

/-- Declarations do not start with a semicolon, and neither does nothing. -/
theorem head_of_placed (line endLine : UInt32) (ps : List Placed) :
    NotKind .semicolon (Stream.head ⟨Laid.tokens line (Placed.all ps), endLine⟩) := by
  cases ps with
  | nil => exact (by decide : Kind.endOfInput ≠ .semicolon)
  | cons p ps =>
    obtain ⟨l, ls, hl, -, hk⟩ := laid_eq_cons p
    rw [Placed.all, List.flatMap_cons, hl]
    exact hk

/-- Declarations that fit are added one by one. What was added before is in the interface. -/
theorem extend_placed (ps : List Placed) {i : Interface} {before : List Standing} (h : Reflects i before)
    (ho : OrdinaryTypes i.types) (hf : Declaration.FitAll i.types (ps.map Placed.declaration)) (line endLine : UInt32) :
    ∃ i', i.extend ⟨Laid.tokens line (Placed.all ps), endLine⟩ =
        ⟨.ok i', warnings before (Placed.standing line i.types ps)⟩ ∧
      i'.types = Placed.types i.types ps ∧ Reflects i' (before ++ Placed.standing line i.types ps) := by
  induction ps generalizing i before line with
  | nil => exact ⟨i, extend_nil i endLine, rfl, by rwa [Placed.standing, List.append_nil]⟩
  | cons p ps ih =>
    obtain ⟨l, ls, hl, hw, -⟩ := laid_eq_cons p
    obtain ⟨hfit, hfits⟩ := hf
    have htokens : Laid.tokens line (Placed.all (p :: ps)) =
        l.word.token (p.start line) :: (Laid.tokens (line + lineFeeds l.gap + lineFeeds l.word.text.toList) ls ++
          Laid.tokens (line + lineFeeds (Laid.chars p.laid)) (Placed.all ps)) := by
      rw [Placed.all, List.flatMap_cons, Laid.tokens_append, Placed.start, hl]
      rfl
    -- The first token decides how the declaration is read, and the rest of its words is taken.
    have hread := reads_declaration ho hfit hw (t := l.word.token (p.start line)) rfl _ _ endLine
      (spelled_tokens (line + lineFeeds l.gap + lineFeeds l.word.text.toList) ls)
      (head_of_placed (line + lineFeeds (Laid.chars p.laid)) endLine ps)
    -- With the struct of this declaration, if it is one, the others still fit.
    obtain ⟨i1, ha, ht, hr⟩ := add_read h ho.inStep (s := ⟨p.start line, i.types, p.declaration⟩) rfl hfit
    obtain ⟨i', he, ht', hr'⟩ := ih hr (ht ▸ ordinaryTypes_after ho hfit) (by rw [ht]; exact hfits)
      (line + lineFeeds (Laid.chars p.laid))
    rw [ht] at he ht' hr'
    refine ⟨i', ?_, ht', ?_⟩
    · rw [htokens, extend_cons hread ha, he, Placed.standing]
      exact congrArg (Logged.mk _) (warnings_append before [_] _).symm
    · rwa [List.append_assoc] at hr'

theorem Reflects.nil : Reflects .empty [] := ⟨Firsts.nil, Firsts.nil, Firsts.nil⟩

/-- Declarations have only one interface. -/
theorem Reflects.unique {i i' : Interface} {ss : List Standing} (h : Reflects i ss) (h' : Reflects i' ss)
    (ht : i.types = i'.types) : i = i' := by
  obtain ⟨types, constantBuffers, resources, functions⟩ := i
  obtain rfl : types = i'.types := ht
  obtain rfl := h.constantBuffers.unique h'.constantBuffers
  obtain rfl := h.resources.unique h'.resources
  obtain rfl := h.functions.unique h'.functions
  rfl

/-- A text of declarations that fit, with gaps between their words, is read without an error. The types of the
interface are the primitive ones and then the structs. Of the other declarations of a kind it has the first one of
each name, in the order of the names, and there is a warning about each other one. -/
theorem parse_source {ps : List Placed} (hs : Laid.Spaced (Placed.all ps)) {trailing : List Char}
    (ht : trailing.all isGap = true) (hf : Declaration.FitAll .primitive (ps.map Placed.declaration)) :
    ∃ i, Interface.parse (Placed.source ps trailing) = ⟨.ok i, warnings [] (Placed.standing 1 .primitive ps)⟩ ∧
      i.types = Placed.types .primitive ps ∧ Reflects i (Placed.standing 1 .primitive ps) := by
  have htokens : Stream.ofSource (Placed.source ps trailing) =
      ⟨Laid.tokens 1 (Placed.all ps), 1 + lineFeeds (Laid.chars (Placed.all ps) ++ trailing)⟩ := by
    rw [Stream.ofSource, Placed.source, String.toList_ofList, list_chars hs ht]
  rw [Interface.parse, htokens]
  exact extend_placed ps Reflects.nil ordinaryTypes_primitive hf 1 _

/-! ### A text with one declaration of each form -/

/-- A declaration with the same gap before each of its words. -/
def Placed.spread (gap : List Char) (h : gap.all isGap = true) (d : Declaration) : Placed :=
  ⟨d, d.words.map fun w => ⟨gap, h, w⟩, by rw [List.map_map]; exact List.map_id _⟩

theorem spaced_spread {gap : List Char} (h : gap.all isGap = true) (hn : gap ≠ []) (ds : List Declaration) :
    Laid.Spaced (Placed.all (ds.map (Placed.spread gap h))) := by
  intro l hl
  obtain ⟨p, hp, hl⟩ := List.mem_flatMap.1 (List.mem_of_mem_tail hl)
  obtain ⟨d, -, rfl⟩ := List.mem_map.1 hp
  obtain ⟨w, -, rfl⟩ := List.mem_map.1 hl
  exact hn

def vertexName : Name := ⟨"V", by decide, by decide⟩

def mainName : Name := ⟨"main", by decide, by decide⟩

/-- The parameters `triangle in V input[3], TriangleStream<V> stream`. -/
def sampleParameters : Parameters :=
  .some
    ⟨[], by decide, [⟨"triangle", by decide, by decide⟩], by decide,
      .inl ⟨[⟨"in", by decide, by decide⟩], by decide, vertexName, ⟨"input", by decide, by decide⟩,
        some ⟨⟨0, 3⟩, by decide⟩, none⟩⟩
    [⟨[], by decide, [], by decide,
      .inr ⟨⟨"TriangleStream", by decide, by decide⟩, by decide, some ⟨[vertexName.word], by decide⟩,
        ⟨"stream", by decide, by decide⟩, none, none⟩⟩]

/-- A struct, a constant buffer, a resource, a global variable, and two functions of one name. -/
def sample : List Declaration :=
  [.struct vertexName
      [⟨[⟨"linear", by decide, by decide⟩], by decide, ⟨"float4", by decide, by decide⟩,
        ⟨"pos", by decide, by decide⟩, none, some ⟨"SV_Position", by decide, by decide⟩⟩],
    .constants .tbuffer ⟨"Scene", by decide, by decide⟩ (some ⟨'t', by decide, by decide, ⟨1, 4⟩, by decide⟩)
      [⟨[], by decide, vertexName, ⟨"last", by decide, by decide⟩, some ⟨⟨0, 4⟩, by decide⟩, none⟩] false,
    .resource .texture2D (some ⟨[vertexName.word], by decide⟩) mainName none none,
    .global ⟨vertexName, ⟨"first", by decide, by decide⟩, [sign '=' (by decide), mainName.word], by decide,
      by decide⟩,
    .function ⟨some vertexName, mainName, sampleParameters, some ⟨"SV_Target", by decide, by decide⟩,
      some ⟨[blockOpen, blockClose], by decide⟩⟩,
    .function ⟨none, mainName, .void, none, none⟩]

def samplePlaced : List Placed := sample.map (Placed.spread [' '] (by decide))

def sampleText : String :=
  " struct V \x7b linear float4 pos : SV_Position ; \x7d ; tbuffer Scene : register ( t04 ) \x7b V last [ 4 ] ; \x7d" ++
  " Texture2D < V > main ; V first = main ; V main ( triangle in V input [ 3 ] , TriangleStream < V > stream )" ++
  " : SV_Target \x7b \x7b \x7d \x7d void main ( void ) ;\n"

theorem source_sample : Placed.source samplePlaced ['\n'] = sampleText := by decide +kernel

/-- Each form is read back. The function that has the name of another one is left out, with a warning. -/
theorem parse_source_sample :
    (Laid.Spaced (Placed.all samplePlaced) ∧ ['\n'].all isGap = true ∧
      Declaration.FitAll .primitive (samplePlaced.map Placed.declaration)) ∧
      ∃ i, Interface.parse sampleText = ⟨.ok i, [.duplicate .function "main"]⟩ ∧
        i.types = Placed.types .primitive samplePlaced ∧ Reflects i (Placed.standing 1 .primitive samplePlaced) := by
  have hs : Laid.Spaced (Placed.all samplePlaced) := spaced_spread (by decide) (by decide) sample
  have ht : ['\n'].all isGap = true := by decide
  have hf : Declaration.FitAll .primitive (samplePlaced.map Placed.declaration) := by decide
  have hw : warnings [] (Placed.standing 1 .primitive samplePlaced) = [.duplicate .function "main"] := by decide
  obtain ⟨i, hi, htypes, hr⟩ := parse_source hs ht hf
  rw [hw, source_sample] at hi
  exact ⟨⟨hs, ht, hf⟩, i, hi, htypes, hr⟩

end Written

end ShaderBuild
