import ShaderBuild.Proofs.Bodies
import ShaderBuild.Proofs.Joining
import ShaderBuild.Proofs.ReadBack
import ShaderBuild.Proofs.Sealed
/-!
# Parsing goes on where it stopped

What a text declares is not changed by what follows it. A declaration ends with a token that closes it, and only
the next token can matter beyond that (`declare_append`): a semicolon after a constant buffer is passed over in
any case, and an opening angle bracket can make a word that starts nothing the type of a statement. So the
declarations of a text that was read without an error are read in the same way whatever follows
(`extend_append`), and nothing is ever taken out of an interface (`extends_extend`).
-/

namespace ShaderBuild

open Token Reader Text

/-- The first of these tokens opens a template argument, if a type is before it. -/
def StartsTemplate (ts : List Token) : Prop := ∃ t ∈ ts.head?, t.text = "<"

instance (ts : List Token) : Decidable (StartsTemplate ts) :=
  decidable_of_iff (ts.head?.any (·.text == "<") = true) (by simp [StartsTemplate, Option.any_eq_true])

theorem text_head_ne {ts : List Token} (h : ¬ StartsTemplate ts) (line : UInt32) :
    (Stream.head ⟨ts, line⟩).text ≠ "<" := by
  cases ts with
  | nil =>
    have hend : (Stream.head ⟨[], line⟩).text = "" := rfl
    rw [hend]
    decide
  | cons t ts => exact fun ht => h ⟨t, rfl, ht⟩

theorem startsTemplate_of_ahead {ts ts' : List Token} (ha : Ahead ts ts') (h : StartsTemplate ts') :
    StartsTemplate ts := by
  obtain ⟨t', ht', htext⟩ := h
  obtain ⟨t, ht, hs⟩ := Option.map_eq_some_iff.1 (ha.trans (congrArg (Option.map shape) ht'))
  exact ⟨t, ht, (text_eq hs).trans htext⟩

namespace Declaration

/-- A semicolon that is passed over, or nothing. -/
inductive Passed : List Token → List Token → Prop
  | none (ts : List Token) : Passed ts ts
  | semicolon {t : Token} (h : t.kind = .semicolon) (ts : List Token) : Passed (t :: ts) ts

theorem accept_semicolon (ts : List Token) (line : UInt32) :
    ∃ found ts', accept .semicolon ⟨ts, line⟩ = .ok (found, ⟨ts', line⟩) ∧ Passed ts ts' := by
  cases ts with
  | nil => exact ⟨false, [], rfl, .none []⟩
  | cons t ts =>
    by_cases hk : t.kind = .semicolon
    · exact ⟨true, ts, if_pos hk, .semicolon hk ts⟩
    · exact ⟨false, t :: ts, if_neg hk, .none _⟩

/-- The declaration that starts with `first` and goes on with `taken` is `d`, whatever follows. -/
structure Finished (types : TypeTable) (first : Token) (taken : List Token) (d : Declaration) (next : List Token) :
    Prop where
  closed : taken = [] ∨ ∃ front last, taken = front ++ [last] ∧ last.Closing
  read (rest : List Token) (line : UInt32) (h : Ahead next rest ∨ ¬ StartsTemplate rest) :
    ∃ rest', Passed rest rest' ∧ startingWith types first ⟨taken ++ rest, line⟩ = .ok (d, ⟨rest', line⟩)
  eq {rest : List Token} {line : UInt32} {d' : Declaration} {t : Stream}
    (h : startingWith types first ⟨taken ++ rest, line⟩ = .ok (d', t)) : d' = d

theorem finished_of_sealed {types : TypeTable} {first last : Token} {taken : List Token} {d : Declaration}
    (next : List Token) (hl : last.Closing)
    (hok : ∀ rest line, startingWith types first ⟨taken ++ last :: rest, line⟩ = .ok (d, ⟨rest, line⟩)) :
    Finished types first (taken ++ [last]) d next where
  closed := .inr ⟨taken, last, rfl, hl⟩
  read rest line _ := ⟨rest, .none rest, by rw [List.append_assoc]; exact hok rest line⟩
  eq h := by
    rw [List.append_assoc] at h
    exact (Prod.mk.inj (Except.ok.inj (h.symm.trans (hok _ _)))).1

theorem startingWith_finished {types : TypeTable} {first : Token} {ts : List Token} {line : UInt32} {d : Declaration}
    {t : Stream} (h : startingWith types first ⟨ts, line⟩ = .ok (d, t)) :
    ∃ taken, ts = taken ++ t.tokens ∧ Finished types first taken d t.tokens := by
  rcases startingWith_cases types first with hs | hs | hs | hs
  · obtain ⟨taken, last, he, hl, hok⟩ := hs _ _ _ h
    refine ⟨taken ++ [last], ?_, finished_of_sealed _ hl hok⟩
    rw [List.append_assoc]
    exact (Stream.mk.inj he).1
  · -- a constant buffer, up to its brace and perhaps up to the semicolon after it
    rw [hs, constantsAfter_eq] at h
    obtain ⟨d₀, ⟨us, line'⟩, h1, h2⟩ := bind_eq_ok h
    obtain ⟨taken, last, he, hl, hok⟩ := sealed_constantsBefore _ _ _ _ h1
    obtain ⟨found, ts', ha, hp⟩ := accept_semicolon us line'
    rw [bind_of_ok ha] at h2
    obtain ⟨rfl, rfl⟩ := Prod.mk.inj (Except.ok.inj h2)
    have hread : ∀ rest line, ∃ rest', Passed rest rest' ∧
        startingWith types first ⟨taken ++ last :: rest, line⟩ = .ok (d₀, ⟨rest', line⟩) := by
      intro rest line
      obtain ⟨found, rest', ha, hp⟩ := accept_semicolon rest line
      refine ⟨rest', hp, ?_⟩
      rw [hs, constantsAfter_eq, bind_of_ok (hok rest line), bind_of_ok ha]
      rfl
    have hts : ts = taken ++ last :: us := (Stream.mk.inj he).1
    cases hp with
    | none =>
      refine ⟨taken ++ [last], by rw [hts, List.append_assoc]; rfl, ?_⟩
      constructor
      · exact .inr ⟨taken, last, rfl, hl⟩
      · intro rest line _
        rw [List.append_assoc]
        exact hread rest line
      · intro rest line d' t h
        obtain ⟨rest', -, hr⟩ := hread rest line
        rw [List.append_assoc] at h
        exact (Prod.mk.inj (Except.ok.inj (h.symm.trans hr))).1
    | @semicolon semi hk =>
      refine ⟨taken ++ [last] ++ [semi], by rw [hts, List.append_assoc, List.append_assoc]; rfl,
        finished_of_sealed _ (.inl hk) fun rest line => ?_⟩
      have haccept : accept .semicolon ⟨semi :: rest, line⟩ = .ok (true, ⟨rest, line⟩) := if_pos hk
      rw [List.append_assoc, List.singleton_append, hs, constantsAfter_eq, bind_of_ok (hok _ line), bind_of_ok haccept]
      rfl
  · by_cases ht : (Stream.head ⟨ts, line⟩).text = "<"
    · rw [hs] at h
      obtain ⟨taken, last, he, hl, hok⟩ := sealedAt_unknownAfter _ ht _ _ h
      refine ⟨taken ++ [last], ?_, finished_of_sealed _ hl (hs ▸ hok)⟩
      rw [List.append_assoc]
      exact (Stream.mk.inj he).1
    · -- nothing is taken, unless a template argument follows
      rw [hs, unknownAfter_of_ne _ ht] at h
      obtain ⟨rfl, rfl⟩ := Prod.mk.inj (Except.ok.inj h)
      have hnot : ¬ StartsTemplate ts := by
        rintro ⟨t, hh, htext⟩
        cases ts with
        | nil => cases hh
        | cons t' ts => exact ht (Option.some.inj hh ▸ htext)
      refine ⟨[], rfl, .inl rfl, fun rest line hr => ⟨rest, .none rest, ?_⟩, fun h => ?_⟩
      · rw [List.nil_append, hs]
        exact unknownAfter_of_ne _ (text_head_ne (hr.elim (fun ha hr => hnot (startsTemplate_of_ahead ha hr)) id) line)
      · rw [hs] at h
        exact unknownAfter_eq_other h
  · rw [hs] at h
    obtain ⟨rfl, rfl⟩ := Prod.mk.inj (Except.ok.inj h)
    refine ⟨[], rfl, .inl rfl, fun rest line _ => ⟨rest, .none rest, ?_⟩, fun h => ?_⟩
    · rw [hs]
      rfl
    · rw [hs] at h
      exact (Prod.mk.inj (Except.ok.inj h)).1.symm

end Declaration

namespace Interface

open Declaration

theorem extend_semicolon (i : Interface) {t : Token} (h : t.kind = .semicolon) (rest : List Token) (line : UInt32) :
    i.extend ⟨t :: rest, line⟩ = i.extend ⟨rest, line⟩ := by
  have hread : startingWith i.types t ⟨rest, line⟩ = .ok (.other, ⟨rest, line⟩) := by
    unfold startingWith
    rw [h]
    rfl
  rw [Written.extend_cons hread rfl, List.nil_append]

theorem extend_passed (i : Interface) {ts ts' : List Token} (h : Passed ts ts') (line : UInt32) :
    i.extend ⟨ts', line⟩ = i.extend ⟨ts, line⟩ := by
  cases h with
  | none => rfl
  | semicolon hk => exact (extend_semicolon i hk ts' line).symm

/-- A declaration that was read is read again whatever follows, and the rest is read after it. -/
theorem declare_append {i : Interface} {first : Token} {ts : List Token} {line : UInt32} {i' : Interface}
    {ws : List Warning} {t : Stream} (h : i.declare first ⟨ts, line⟩ = .ok ((i', ws), t)) :
    ∃ taken, ts = taken ++ t.tokens ∧ (taken = [] ∨ ∃ front last, taken = front ++ [last] ∧ last.Closing) ∧
      (∀ rest line, Ahead t.tokens rest ∨ ¬ StartsTemplate rest →
        i.extend ⟨first :: (taken ++ rest), line⟩ =
          ⟨(i'.extend ⟨rest, line⟩).result, ws ++ (i'.extend ⟨rest, line⟩).warnings⟩) ∧
      ∀ rest line added t', i.declare first ⟨taken ++ rest, line⟩ = .ok (added, t') → added = (i', ws) := by
  obtain ⟨d, hd, ha⟩ := declare_eq_ok.1 h
  obtain ⟨taken, hts, hf⟩ := startingWith_finished hd
  refine ⟨taken, hts, hf.closed, fun rest line hr => ?_, fun rest line added t' h' => ?_⟩
  · obtain ⟨rest', hp, hread⟩ := hf.read rest line hr
    rw [Written.extend_cons hread ha, extend_passed i' hp]
  · obtain ⟨d', hd', ha'⟩ := declare_eq_ok.1 h'
    rw [hf.eq hd', ha] at ha'
    exact (Except.ok.inj ha').symm

/-- The first declaration of a text that was read without an error. -/
theorem declare_of_extend {i j : Interface} {first : Token} {ts : List Token} {line : UInt32}
    (h : (i.extend ⟨first :: ts, line⟩).result = .ok j) :
    ∃ i' ws t, i.declare first ⟨ts, line⟩ = .ok ((i', ws), t) ∧ (i'.extend t).result = .ok j ∧
      (i.extend ⟨first :: ts, line⟩).warnings = ws ++ (i'.extend t).warnings := by
  rw [extend_first] at h ⊢
  cases hd : i.declare first ⟨ts, line⟩ with
  | error e =>
    rw [hd] at h
    cases h
  | ok p =>
    obtain ⟨⟨i', ws⟩, t⟩ := p
    rw [hd] at h
    exact ⟨i', ws, t, rfl, h, rfl⟩

/-- The declarations of a text that was read without an error are read in the same way whatever follows, and
what follows is read after them. -/
theorem extend_append {more : List Token} (hm : ¬ StartsTemplate more) (i : Interface) (s : Stream) {j : Interface}
    (h : (i.extend s).result = .ok j) (line : UInt32) : i.extend ⟨s.tokens ++ more, line⟩ =
      ⟨(j.extend ⟨more, line⟩).result, (i.extend s).warnings ++ (j.extend ⟨more, line⟩).warnings⟩ := by
  -- by induction on the number of tokens, as every declaration takes some of them
  induction hn : s.size using Nat.strongRecOn generalizing i s with
  | _ n ih =>
    subst hn
    obtain ⟨ts, line₀⟩ := s
    cases ts with
    | nil =>
      rw [Written.extend_nil] at h ⊢
      obtain rfl := Except.ok.inj h
      rfl
    | cons first ts =>
      obtain ⟨i', ws, t, hd, hr, hw⟩ := declare_of_extend h
      obtain ⟨taken, rfl, -, hread, -⟩ := declare_append hd
      have hahead : Ahead t.tokens (t.tokens ++ more) ∨ ¬ StartsTemplate (t.tokens ++ more) := by
        cases ht : t.tokens with
        | nil => exact .inr hm
        | cons => exact .inl rfl
      have hlt : t.size < Stream.size ⟨first :: (taken ++ t.tokens), line₀⟩ := Nat.lt_succ_of_le (size_declare hd)
      have hrest := ih t.size hlt i' t hr rfl
      rw [hw, List.cons_append, List.append_assoc, hread _ line hahead, hrest, List.append_assoc]

/-- Whatever follows, if it is read without an error, then something is read after these declarations. -/
theorem extend_append_any (more : List Token) (i : Interface) (s : Stream) {j : Interface}
    (h : (i.extend s).result = .ok j) {line : UInt32} {k : Interface}
    (hk : (i.extend ⟨s.tokens ++ more, line⟩).result = .ok k) : ∃ t, (j.extend t).result = .ok k := by
  by_cases hm : StartsTemplate more
  swap
  · rw [extend_append hm i s h] at hk
    exact ⟨_, hk⟩
  induction hn : s.size using Nat.strongRecOn generalizing i s with
  | _ n ih =>
    subst hn
    obtain ⟨ts, line₀⟩ := s
    cases ts with
    | nil =>
      rw [Written.extend_nil] at h
      obtain rfl := Except.ok.inj h
      exact ⟨_, hk⟩
    | cons first ts =>
      obtain ⟨i', ws, t, hd, hr, -⟩ := declare_of_extend h
      obtain ⟨taken, rfl, -, hread, hsame⟩ := declare_append hd
      rw [List.cons_append, List.append_assoc] at hk
      cases ht : t.tokens with
      | nil =>
        -- the last declaration may take more tokens, but it is the same
        obtain ⟨k', ws', t', hd', hr', -⟩ := declare_of_extend hk
        obtain ⟨rfl, -⟩ := Prod.mk.inj (hsame _ _ _ _ hd')
        obtain ⟨ts, line₁⟩ := t
        obtain rfl : ts = [] := ht
        rw [Written.extend_nil] at hr
        obtain rfl := Except.ok.inj hr
        exact ⟨t', hr'⟩
      | cons t₀ ts =>
        have hahead : Ahead t.tokens (t.tokens ++ more) := by
          rw [ht]
          rfl
        rw [hread _ line (.inl hahead)] at hk
        have hlt : t.size < Stream.size ⟨first :: (taken ++ t.tokens), line₀⟩ := Nat.lt_succ_of_le (size_declare hd)
        exact ih t.size hlt i' t hr hk rfl

/-- A literal at the end declares nothing. -/
theorem extend_of_literal (i : Interface) {ts : List Token} {literal : Token} (hl : literal.kind = .string)
    {line line' : UInt32} {j : Interface} (h : (i.extend ⟨ts ++ [literal], line⟩).result = .ok j) :
    (i.extend ⟨ts, line'⟩).result = .ok j := by
  induction hn : ts.length using Nat.strongRecOn generalizing i ts line with
  | _ n ih =>
    subst hn
    cases ts with
    | nil =>
      have hread : startingWith i.types literal ⟨[], line⟩ = .ok (.other, ⟨[], line⟩) := by
        unfold startingWith
        rw [hl]
        rfl
      rw [List.nil_append, Written.extend_cons hread rfl, Written.extend_nil] at h
      rw [Written.extend_nil]
      exact h
    | cons first ts =>
      obtain ⟨i', ws, t, hd, hr, -⟩ := declare_of_extend h
      obtain ⟨taken, hts, hclosed, hread, -⟩ := declare_append hd
      -- the literal is left, as no declaration ends with it
      obtain ⟨inner, hinner⟩ : ∃ inner, t.tokens = inner ++ [literal] := by
        rcases List.eq_nil_or_concat t.tokens with hnil | ⟨inner, last, hlast⟩
        · rw [hnil, List.append_nil] at hts
          rcases hclosed with rfl | ⟨front, last, rfl, hc⟩
          · cases ts <;> cases hts
          · have hts : ts ++ [literal] = front ++ [last] := hts
            have hlast : [literal] = [last] := List.append_inj_right' hts rfl
            obtain rfl := List.singleton_inj.1 hlast
            rcases hc with hc | hc <;> cases hl.symm.trans hc
        · rw [hlast, List.concat_eq_append, ← List.append_assoc] at hts
          have hl' : [literal] = [last] := List.append_inj_right' hts rfl
          rw [hlast, List.concat_eq_append, hl']
          exact ⟨inner, rfl⟩
      rw [hinner, ← List.append_assoc] at hts
      obtain rfl : ts = taken ++ inner := List.append_inj_left' hts rfl
      have hahead : Ahead t.tokens inner ∨ ¬ StartsTemplate inner := by
        rw [hinner]
        cases inner with
        | nil => exact .inr fun ⟨_, h, _⟩ => nomatch h
        | cons => exact .inl rfl
      rw [hread inner line' hahead]
      have hrest : (i'.extend ⟨inner ++ [literal], t.endLine⟩).result = .ok j := by
        rw [← hinner]
        exact hr
      have hlt : inner.length < (first :: (taken ++ inner)).length := by
        rw [List.length_cons, List.length_append]
        omega
      exact ih inner.length hlt i' hrest rfl

/-! ## Nothing is taken out -/

/-- The second interface has all that the first one has, with the same types in the same places. -/
structure Extends (i j : Interface) : Prop where
  types : i.types.types <+: j.types.types
  idOf? {name : String} {id : TypeId} (h : i.types.idOf? name = some id) : j.types.idOf? name = some id
  constantBuffers : i.constantBuffers.Sublist j.constantBuffers
  constantBuffer? {name : String} {b : ConstantBuffer} (h : i.constantBuffer? name = some b) :
    j.constantBuffer? name = some b
  resources : i.resources.Sublist j.resources
  resource? {name : String} {r : Resource} (h : i.resource? name = some r) : j.resource? name = some r
  functions : i.functions.Sublist j.functions
  function? {name : String} {f : Function} (h : i.function? name = some f) : j.function? name = some f

theorem Extends.refl (i : Interface) : i.Extends i :=
  ⟨List.prefix_refl _, id, List.Sublist.refl _, id, List.Sublist.refl _, id, List.Sublist.refl _, id⟩

theorem Extends.trans {i j k : Interface} (h : i.Extends j) (h' : j.Extends k) : i.Extends k :=
  ⟨h.types.trans h'.types, fun hid => h'.idOf? (h.idOf? hid), h.constantBuffers.trans h'.constantBuffers,
    fun hb => h'.constantBuffer? (h.constantBuffer? hb),
    h.resources.trans h'.resources, fun hr => h'.resource? (h.resource? hr),
    h.functions.trans h'.functions, fun hf => h'.function? (h.function? hf)⟩

theorem sublist_insert {α : Type} (before : α → α → Bool) (a : α) (l : List α) :
    l.Sublist (SortedList.insert before a l) := by
  induction l with
  | nil => exact List.nil_sublist _
  | cons b bs ih =>
    rw [SortedList.insert]
    split
    · exact List.sublist_cons_self a _
    · exact ih.cons_cons b

/-- An element of a new name does not get in the way of those that are there. -/
theorem find?_insert_of_new {α : Type} {name : α → String} {before : α → α → Bool} {a b : α} {l : List α}
    {word : String}
    (hn : ¬ (l.find? (name · == name a)).isSome = true) (h : l.find? (name · == word) = some b) :
    (SortedList.insert before a l).find? (name · == word) = some b := by
  have hnew : (name a == word) = true → ∀ c ∈ l, (name c == word) = false := by
    intro ha c hc
    obtain rfl : name a = word := beq_iff_eq.1 ha
    rw [h] at hn
    exact absurd rfl hn
  rw [SortedList.find?_insert hnew, List.find?_append, h]
  rfl

theorem extends_addConstantBuffer (i : Interface) (b : ConstantBuffer) : i.Extends (i.addConstantBuffer b).1 := by
  unfold addConstantBuffer
  split
  · exact .refl i
  · next hn =>
    exact { Extends.refl i with
      constantBuffers := sublist_insert _ b _
      constantBuffer? := find?_insert_of_new hn }

theorem extends_addResource (i : Interface) (r : Resource) : i.Extends (i.addResource r).1 := by
  unfold addResource
  split
  · exact .refl i
  · next hn =>
    exact { Extends.refl i with
      resources := sublist_insert _ r _
      resource? := find?_insert_of_new hn }

theorem extends_addFunction (i : Interface) (f : Function) : i.Extends (i.addFunction f).1 := by
  unfold addFunction
  split
  · exact .refl i
  · next hn =>
    exact { Extends.refl i with
      functions := sublist_insert _ f _
      function? := find?_insert_of_new hn }

theorem Extends.of_ok {i j : Interface} {added : Interface × List Warning} {ws : List Warning} (h : i.Extends added.1)
    (hj : (.ok added : Except Error (Interface × List Warning)) = .ok (j, ws)) : i.Extends j := by
  obtain rfl := Except.ok.inj hj
  exact h

theorem extends_add {i j : Interface} {d : Declaration} {ws : List Warning} (h : i.add d = .ok (j, ws)) :
    i.Extends j := by
  cases d with
  | struct line name specs =>
    simp only [add] at h
    split at h
    · cases h
    · split at h
      · next id types ht =>
        obtain ⟨rfl, -⟩ := Prod.mk.inj (Except.ok.inj h)
        exact { Extends.refl i with types := TypeTable.prefix_define ht, idOf? := TypeTable.idOf?_define ht }
      · cases h
  | constants line name register specs =>
    simp only [add] at h
    split at h
    · next members _ => exact (extends_addConstantBuffer i _).of_ok h
    · cases h
  | resource r => exact (extends_addResource i r).of_ok h
  | function f => exact (extends_addFunction i f).of_ok h
  | other => exact (Extends.refl i).of_ok h

theorem extends_extend (i : Interface) (s : Stream) {j : Interface} (h : (i.extend s).result = .ok j) :
    i.Extends j := by
  induction hn : s.size using Nat.strongRecOn generalizing i s with
  | _ n ih =>
    subst hn
    obtain ⟨ts, line⟩ := s
    cases ts with
    | nil =>
      rw [Written.extend_nil] at h
      exact Except.ok.inj h ▸ .refl i
    | cons first ts =>
      obtain ⟨i', ws, t, hd, hr, -⟩ := declare_of_extend h
      obtain ⟨d, -, ha⟩ := declare_eq_ok.1 hd
      have hlt : t.size < Stream.size ⟨first :: ts, line⟩ := Nat.lt_succ_of_le (size_declare hd)
      exact (extends_add ha).trans (ih t.size hlt i' t hr rfl)

/-! ## Names that are taken -/

/-- What a declaration repeats, if its name is taken and its members are known. -/
def repeated? (i : Interface) : Declaration → Option (DeclarationKind × String)
  | .constants _ name _ specs =>
    if (i.constantBuffer? name).isSome ∧ (i.types.resolveAll? specs).isSome then some (.constantBuffer, name) else none
  | .resource r => if (i.resource? r.name).isSome then some (.resource, r.name) else none
  | .function f => if (i.function? f.name).isSome then some (.function, f.name) else none
  | _ => none

theorem add_repeated {i : Interface} {d : Declaration} {kind : DeclarationKind} {name : String}
    (h : i.repeated? d = some (kind, name)) : i.add d = .ok (i, [.duplicate kind name]) := by
  unfold repeated? at h
  split at h
  · split at h
    · next hs =>
      obtain ⟨rfl, rfl⟩ := Prod.mk.inj (Option.some.inj h)
      obtain ⟨members, hm⟩ := Option.isSome_iff_exists.1 hs.2
      simp only [add, hm, addConstantBuffer, if_pos hs.1]
    · cases h
  · split at h
    · next hs =>
      obtain ⟨rfl, rfl⟩ := Prod.mk.inj (Option.some.inj h)
      simp only [add, addResource, if_pos hs]
    · cases h
  · split at h
    · next hs =>
      obtain ⟨rfl, rfl⟩ := Prod.mk.inj (Option.some.inj h)
      simp only [add, addFunction, if_pos hs]
    · cases h
  · cases h

/-! ## Texts -/

theorem parse_append {u v : String} {i : Interface} (h : (parse u).result = .ok i)
    (hu : ¬ OpenEnd (Stream.ofSource u).tokens) (hv : ¬ StartsTemplate (Stream.ofSource v).tokens) :
    parse (u ++ "\n" ++ v) =
      let later := i.extend ((Stream.ofSource v).shift (lineFeeds u.toList + 1))
      ⟨later.result, (parse u).warnings ++ later.warnings⟩ := by
  have hv' : ¬ StartsTemplate ((Stream.ofSource v).shift (lineFeeds u.toList + 1)).tokens := by
    rintro ⟨t, ht, htext⟩
    obtain ⟨t₀, ht₀, rfl⟩ := Option.map_eq_some_iff.1 (List.head?_map.symm.trans ht)
    exact hv ⟨t₀, ht₀, htext⟩
  unfold parse
  rw [ofSource_append u v hu]
  exact extend_append hv' empty (.ofSource u) h _

theorem extends_parse {u v : String} {i j : Interface} (h : (parse u).result = .ok i)
    (hj : (parse (u ++ "\n" ++ v)).result = .ok j) : i.Extends j := by
  by_cases hu : OpenEnd (Stream.ofSource u).tokens
  · have hends : Ends ("\n" ++ v).toList := by
      rw [String.toList_append]
      exact ends_append (by decide) (by decide) _
    obtain ⟨ts, t, t', more, ht, ht', hk, hk', hquote⟩ := list_append_open hends u.toList 1 hu
    -- the literal is another one, and declares nothing, like the one that it replaces
    have hu : (empty.extend ⟨ts ++ [t], (Stream.ofSource u).endLine⟩).result = .ok i := by
      rw [← ht]
      exact h
    have hi : (empty.extend ⟨ts, 0⟩).result = .ok i := extend_of_literal empty hk hu
    have hnot : ¬ StartsTemplate (t' :: more) := by
      rintro ⟨t₀, h₀, htext⟩
      obtain rfl := Option.some.inj h₀
      rw [htext] at hquote
      cases hquote
    have htokens : (Stream.ofSource (u ++ "\n" ++ v)).tokens = ts ++ t' :: more := by
      rw [← ht', ← String.toList_append, ← String.append_assoc]
      rfl
    have hj' : (empty.extend ⟨ts ++ t' :: more, (Stream.ofSource (u ++ "\n" ++ v)).endLine⟩).result = .ok j := by
      rw [← htokens]
      exact hj
    have happend := extend_append hnot empty ⟨ts, 0⟩ hi (Stream.ofSource (u ++ "\n" ++ v)).endLine
    rw [happend] at hj'
    exact extends_extend i _ hj'
  · unfold parse at hj
    rw [ofSource_append u v hu] at hj
    obtain ⟨t, ht⟩ := extend_append_any _ empty (.ofSource u) h hj
    exact extends_extend i t ht

/-- Parsing only ever adds. What a text declares is declared in the same way by that text with another one below it,
if both can be read. If the first text does not end in a literal, and the second one does not start with an angle
bracket, then to read them together is to read the second one, further down, on top of what the first one declares. It
is further down by the lines of the first one, if there are not too many lines for their counter. Declarations of names
that are taken are dropped, each with a warning, and a struct of such a name is an error. -/
theorem parsing_appends :
    (∀ (u v : String) (i j : Interface), (parse u).result = .ok i → (parse (u ++ "\n" ++ v)).result = .ok j →
      i.Extends j) ∧
    (∀ (u v : String) (i : Interface), (parse u).result = .ok i → ¬ OpenEnd (Stream.ofSource u).tokens →
      ¬ StartsTemplate (Stream.ofSource v).tokens →
      parse (u ++ "\n" ++ v) =
        let later := i.extend ((Stream.ofSource v).shift (lineFeeds u.toList + 1))
        ⟨later.result, (parse u).warnings ++ later.warnings⟩) ∧
    (∀ u v : String, newlines u.toList + newlines v.toList + 2 < UInt32.size → ∀ t ∈ (Stream.ofSource v).tokens,
      (t.shift (lineFeeds u.toList + 1)).line.toNat = t.line.toNat + (newlines u.toList + 1)) ∧
    (∀ (i : Interface) (first : Token) (rest : List Token) (line : UInt32) (d : Declaration) (t : Stream),
      startingWith i.types first ⟨rest, line⟩ = .ok (d, t) →
      (∀ kind name, i.repeated? d = some (kind, name) →
        i.extend ⟨first :: rest, line⟩ = ⟨(i.extend t).result, .duplicate kind name :: (i.extend t).warnings⟩) ∧
      ∀ at' name specs, d = .struct at' name specs → i.types.contains name = true →
        i.extend ⟨first :: rest, line⟩ = ⟨.error (.declaration at' (.redefinition name)), []⟩) := by
  refine ⟨fun u v i j => extends_parse, fun u v i => parse_append, fun u v hlt t ht => ?_, ?_⟩
  · obtain ⟨n, hn, hline⟩ := exists_line ht
    exact toNat_line_shift hline hn hlt
  intro i first rest line d t hd
  constructor
  · intro kind name hr
    exact Written.extend_cons hd (add_repeated hr)
  · rintro at' name specs rfl hc
    have hadd : i.add (.struct at' name specs) = .error (.declaration at' (.redefinition name)) := if_pos hc
    rw [extend_first, declare, hd]
    dsimp only
    rw [hadd]

/-- A function, and then a struct and a function of the same name. -/
theorem parsing_appends_repeated :
    let u := "float4 f();"
    let v := "struct A \x7b float2 x; \x7d;\nfloat4 f(A a);"
    let i : Interface := { functions := [⟨"f", some 14, none, [], 1⟩] }
    let j : Interface := { i with types := (i.types.insert (.composite "A" [⟨12, "x", none, 1⟩] 8)).2 }
    (parse u).result = .ok i ∧ (parse (u ++ "\n" ++ v)).result = .ok j ∧ i.Extends j ∧
      parse (u ++ "\n" ++ v) =
        ⟨(i.extend ((Stream.ofSource v).shift 1)).result, [] ++ (i.extend ((Stream.ofSource v).shift 1)).warnings⟩ ∧
      i.extend (.ofSource u) = ⟨(i.extend ⟨[], 1⟩).result, .duplicate .function "f" :: (i.extend ⟨[], 1⟩).warnings⟩ ∧
      j.extend ((Stream.ofSource v).shift 1) = ⟨.error (.declaration 2 (.redefinition "A")), []⟩ := by
  intro u v i j
  have hi : (parse u).result = .ok i := by decide +kernel
  have hj : (parse (u ++ "\n" ++ v)).result = .ok j := by decide +kernel
  have hw : (parse u).warnings = [] := by decide +kernel
  have hfunction : startingWith i.types ⟨.identifier, "float4", 1⟩ ⟨(Stream.ofSource u).tokens.tail, 1⟩ =
      .ok (.function ⟨"f", some 14, none, [], 1⟩, ⟨[], 1⟩) := by decide +kernel
  have hstruct : startingWith j.types ⟨.struct, "struct", 2⟩ ⟨((Stream.ofSource v).shift 1).tokens.tail, 3⟩ =
      .ok (.struct 2 "A" [⟨"float2", "x", none, 1⟩], ⟨((Stream.ofSource v).shift 1).tokens.drop 8, 3⟩) := by
    decide +kernel
  have hu : Stream.ofSource u = ⟨⟨.identifier, "float4", 1⟩ :: (Stream.ofSource u).tokens.tail, 1⟩ := by decide +kernel
  have hv : (Stream.ofSource v).shift 1 = ⟨⟨.struct, "struct", 2⟩ :: ((Stream.ofSource v).shift 1).tokens.tail, 3⟩ := by
    decide +kernel
  have hline : lineFeeds u.toList + 1 = 1 := by decide
  obtain ⟨hextends, happend, -, hnames⟩ := parsing_appends
  have hjoined := happend u v i hi (by decide +kernel) (by decide +kernel)
  rw [hline, hw] at hjoined
  refine ⟨hi, hj, hextends u v i j hi hj, hjoined, ?_, ?_⟩
  · rw [hu]
    exact (hnames i _ _ _ _ _ hfunction).1 .function "f" (by decide +kernel)
  · rw [hv]
    exact (hnames j _ _ _ _ _ hstruct).2 2 "A" _ rfl (by decide +kernel)

end Interface

end ShaderBuild
