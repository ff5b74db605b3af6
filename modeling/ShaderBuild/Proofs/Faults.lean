import Mathlib.Logic.Relation
import ShaderBuild.Proofs.Halting
import ShaderBuild.Proofs.Tables
/-!
# Faults that are never found

Two faults of declarations are there for cases that do not come about. A struct whose name is new is only refused if
the type of one of its members is unknown, and then it is that member that is named (`Interface.exists_unresolved`).
The type that a function starts with is always known, or the token would not start a function
(`Declaration.startingWith_eq`). So no source text has one of these faults (`Interface.attested_extend`).

The loops that count brackets start behind an opening one, and each token opens one more at most
(`Loop.template_counter`, `Loop.body_counter`).
-/

namespace ShaderBuild

open Token Reader

/-! ## What readers fail with -/

namespace Token.Reader

variable {α β : Type} {E : Error → Prop} {r : Reader α}

/-- Whatever error a reader fails with has some property. -/
def Fails (E : Error → Prop) (r : Reader α) : Prop := ∀ s e, r s = .error e → E e

theorem fails_of_ok (h : ∀ s, ∃ p, r s = .ok p) : Fails E r := by
  intro s e he
  obtain ⟨p, hp⟩ := h s
  cases hp.symm.trans he

theorem fails_pure (a : α) : Fails E (pure a : Reader α) := fails_of_ok fun s => ⟨(a, s), rfl⟩

theorem fails_throw {e : Error} (h : E e) : Fails E (throw e : Reader α) := by
  intro s e' he
  obtain rfl : e = e' := Except.error.inj he
  exact h

theorem Fails.bind {f : α → Reader β} (hr : Fails E r) (hf : ∀ a, Fails E (f a)) : Fails E (r >>= f) := by
  intro s e he
  cases h : r s with
  | error e' =>
    rw [bind_of_error h] at he
    exact Except.error.inj he ▸ hr s e' h
  | ok p =>
    rw [bind_of_ok h] at he
    exact hf p.1 p.2 e he

theorem Fails.map (hr : Fails E r) (f : α → β) : Fails E (f <$> r) := by
  rw [map_eq_pure_bind]
  exact hr.bind fun a => fails_pure (f a)

theorem fails_peek : Fails E peek := fails_of_ok fun s => ⟨(s.head, s), rfl⟩

theorem fails_next : Fails E next := fails_of_ok fun s => ⟨(s.head, s.tail), rfl⟩

theorem fails_isNext (kind : Kind) : Fails E (isNext kind) := fails_of_ok fun _ => ⟨_, rfl⟩

theorem fails_accept (kind : Kind) : Fails E (accept kind) := by
  refine fails_of_ok fun s => ?_
  unfold accept
  split <;> exact ⟨_, rfl⟩

theorem fails_skipWhile (p : Token → Bool) : Fails E (skipWhile p) := fails_of_ok fun _ => ⟨_, rfl⟩

theorem fails_require {kind : Kind} {error : Token → Error} (h : ∀ t, E (error t)) : Fails E (require kind error) := by
  intro s e he
  unfold require at he
  split at he
  · cases he
  · exact Except.error.inj he ▸ h s.head

theorem Fails.after (kind : Kind) (hr : Fails E r) : Fails E (after kind r) := by
  refine (fails_accept kind).bind fun found => ?_
  split
  · exact hr.map some
  · exact fails_pure none

theorem fails_cut {f : List Token → Option (α × List Token)} {error : UInt32 → Error} (h : ∀ line, E (error line)) :
    Fails E (cut f error) := by
  intro s e he
  unfold cut at he
  split at he
  · cases he
  · exact Except.error.inj he ▸ h s.endLine

theorem fails_liftM {x : Except Error α} (h : ∀ e, x = .error e → E e) : Fails E (liftM x : Reader α) := by
  cases x with
  | error e => exact fails_throw (h e rfl)
  | ok a => exact fails_pure a

theorem Fails.untilClosed (closing : Kind) (hr : Fails E r) (h : Consumes r) :
    Fails E (Reader.untilClosed closing r h) := by
  intro s
  fun_induction Reader.untilClosed closing r h s with
  | case1 =>
    intro e he
    cases he
  | case2 s hk e' hi =>
    intro e he
    exact Except.error.inj he ▸ hr s e' hi
  | case3 s hk a t hi ih =>
    intro e he
    cases hrest : Reader.untilClosed closing r h t with
    | error e' =>
      rw [hrest] at he
      exact Except.error.inj he ▸ ih e' hrest
    | ok p =>
      rw [hrest] at he
      cases he

theorem Fails.separated (separator : Kind) (hr : Fails E r) (h : Consumes r) :
    Fails E (Reader.separated separator r h) := by
  intro s
  fun_induction Reader.separated separator r h s with
  | case1 s e' hi =>
    intro e he
    exact Except.error.inj he ▸ hr s e' hi
  | case2 s a t hi hk ih =>
    intro e he
    cases hrest : Reader.separated separator r h t.tail with
    | error e' =>
      rw [hrest] at he
      exact Except.error.inj he ▸ ih e' hrest
    | ok p =>
      rw [hrest] at he
      cases he
  | case3 =>
    intro e he
    cases he

end Token.Reader

/-- The faults that declarations can have: all but the two that are never found. -/
def DeclarationFault.Attested : DeclarationFault → Prop
  | invalidStruct | unknownType _ => False
  | _ => True

/-- A fault in a declaration that can be found. -/
def Error.Attested (e : Error) : Prop := ∃ line fault, e = .declaration line fault ∧ fault.Attested

theorem attested {line : UInt32} {fault : DeclarationFault} (h : fault.Attested) :
    (Error.declaration line fault).Attested :=
  ⟨line, fault, rfl, h⟩

/-- Texts with different characters at some place are different, whatever follows. -/
theorem append_ne {first other : String} (k : Nat) {c : Char} (h : first.toList[k]? = some c)
    (ho : other.toList[k]? ≠ some c) (rest : String) : first ++ rest ≠ other := by
  intro he
  have hk : k < first.toList.length := (List.getElem?_eq_some_iff.1 h).1
  rw [← he, String.toList_append, List.getElem?_append_left hk] at ho
  exact ho h

/-- An attested fault says something else than that a struct is invalid. -/
theorem DeclarationFault.Attested.message_ne {fault : DeclarationFault} (h : fault.Attested) :
    fault.message ≠ "invalid struct definition" := by
  cases fault with
  | unexpected found expected =>
    have hm : (unexpected found expected).message =
      "unexpected token " ++ found.describe ++ ", expected " ++ quote expected.describe := rfl
    rw [hm, String.append_assoc, String.append_assoc]
    exact append_ne 8 (c := 'e') (by decide) (by decide) _
  | redefinition name => exact append_ne 8 (c := 't') (by decide) (by decide) _
  | unknownMemberType type member =>
    have hm : (unknownMemberType type member).message =
      "unknown type " ++ quote type ++ " for " ++ quote member := rfl
    rw [hm, String.append_assoc, String.append_assoc]
    exact append_ne 8 (c := 't') (by decide) (by decide) _
  | unknownType type => exact h.elim
  | invalidStruct => exact h.elim
  | invalidArraySize text => exact append_ne 8 (c := 'a') (by decide) (by decide) _
  | unterminatedTemplate => decide
  | invalidRegister text banks =>
    have hm : (invalidRegister text banks).message =
      "invalid register " ++ quote text ++ ", expected one of " ++ quote banks := rfl
    rw [hm, String.append_assoc, String.append_assoc]
    exact append_ne 8 (c := 'r') (by decide) (by decide) _
  | invalidSlot text => exact append_ne 8 (c := 'r') (by decide) (by decide) _
  | unclosedBody function => exact append_ne 8 (c := 'e') (by decide) (by decide) _
  | unterminatedDeclaration => decide

namespace Declaration

variable {types : TypeTable}

/-! ## What declarations fail with -/

theorem fails_expect (kind : Kind) : Fails Error.Attested (expect kind) := fails_require fun _ => attested trivial

theorem fails_word : Fails Error.Attested word := (fails_expect .identifier).map _

theorem fails_semantic : Fails Error.Attested semantic := fails_word.after .colon

theorem fails_arraySize : Fails Error.Attested arraySize := by
  refine Fails.after _ ((fails_expect .integer).bind fun t => ?_)
  split
  · exact fails_throw (attested trivial)
  · exact (fails_expect .squareClose).bind fun _ => fails_pure _

theorem fails_templateArgument : Fails Error.Attested templateArgument := by
  have hfault : DeclarationFault.unterminatedTemplate.Attested := trivial
  refine fails_peek.bind fun t => ?_
  split
  · exact fails_next.bind fun _ => (fails_cut fun _ => attested hfault).bind fun _ => fails_pure _
  · exact fails_pure _

theorem attested_registerOf {banks : String} {t : Token} {e : Error} (h : registerOf banks t = .error e) :
    e.Attested := by
  unfold registerOf at h
  split at h
  · exact Except.error.inj h ▸ attested trivial
  split at h
  · split at h
    · exact Except.error.inj h ▸ attested trivial
    · cases h
  · exact Except.error.inj h ▸ attested trivial

theorem fails_register (banks : String) : Fails Error.Attested (register banks) :=
  Fails.after _ <| (fails_expect _).bind fun _ => (fails_expect _).bind fun _ => (fails_expect _).bind fun _ =>
    (fails_liftM fun _ => attested_registerOf).bind fun _ => (fails_expect _).bind fun _ => fails_pure _

theorem fails_member : Fails Error.Attested member :=
  (fails_skipWhile _).bind fun _ => fails_word.bind fun _ => fails_word.bind fun _ => fails_arraySize.bind fun _ =>
    fails_semantic.bind fun _ => fails_pure _

theorem fails_memberStatement : Fails Error.Attested memberStatement :=
  fails_member.bind fun _ => (fails_expect _).bind fun _ => fails_pure _

theorem fails_members : Fails Error.Attested members :=
  (fails_expect _).bind fun _ => fails_memberStatement.untilClosed _ _

theorem fails_opaqueParameter : Fails Error.Attested opaqueParameter :=
  fails_next.bind fun _ => fails_templateArgument.bind fun _ => fails_word.bind fun _ => fails_arraySize.bind fun _ =>
    fails_semantic.bind fun _ => fails_pure _

theorem fails_parameter (types : TypeTable) : Fails Error.Attested (parameter types) := by
  refine (fails_skipWhile _).bind fun _ => (fails_skipWhile _).bind fun _ => fails_peek.bind fun t => ?_
  split
  · exact fails_opaqueParameter.bind fun _ => fails_pure _
  · refine fails_member.bind fun spec => ?_
    split
    · exact fails_throw (attested trivial)
    · exact fails_pure _

theorem fails_parameters (types : TypeTable) : Fails Error.Attested (parameters types) := by
  refine (fails_expect _).bind fun _ => (fails_accept _).bind fun _ => ?_
  split
  · exact fails_pure _
  · refine fails_peek.bind fun _ => ?_
    split
    · exact fails_next.bind fun _ => (fails_expect _).bind fun _ => fails_pure _
    · exact ((fails_parameter types).separated _ _).bind fun _ => (fails_expect _).bind fun _ => fails_pure _

theorem fails_skipStatement (line : UInt32) : Fails Error.Attested (skipStatement line) :=
  fails_cut fun _ => attested trivial

theorem fails_body (name : String) (line : UInt32) : Fails Error.Attested (body name line) := by
  refine (fails_accept _).bind fun _ => ?_
  split
  · exact fails_pure _
  · exact (fails_expect _).bind fun _ => fails_cut fun _ => attested trivial

theorem fails_unknownAfter (line : UInt32) : Fails Error.Attested (unknownAfter line) := by
  refine fails_templateArgument.bind fun arg => ?_
  cases arg with
  | none => exact fails_pure _
  | some _ => exact (fails_skipStatement _).bind fun _ => fails_pure _

/-- What starts with a token that starts no function. -/
def otherAfter (first : Token) : Reader Declaration :=
  match first.kind with
  | .struct => structAfter first.line
  | .cbuffer => constantsAfter first.line
  | .identifier =>
    match ResourceKind.ofKeyword? first.text with
    | some kind => resourceAfter kind first.line
    | none => unknownAfter first.line
  | _ => pure .other

/-- A function is only read if the token starts one. -/
theorem startingWith_eq (types : TypeTable) (first : Token) :
    startingWith types first = if StartsFunction types first then functionAfter types first else otherAfter first := by
  by_cases h : StartsFunction types first
  · rw [if_pos h, h.eq]
  · rw [if_neg h, startingWith, otherAfter]
    cases hk : first.kind with
    | identifier =>
      cases hkind : ResourceKind.ofKeyword? first.text with
      | some kind => rfl
      | none => exact if_neg fun hf => h ⟨hk, hkind, hf⟩
    | _ => rfl

/-- The type that a function starts with is known. -/
theorem StartsFunction.exists_returnType {first : Token} (h : StartsFunction types first) :
    ∃ returned, returnType types first = .ok returned := by
  unfold returnType
  by_cases hv : first.text = "void"
  · exact ⟨none, if_pos hv⟩
  · have hknown : types.contains first.text = true := h.2.2.resolve_left hv
    obtain ⟨id, hid⟩ := Option.isSome_iff_exists.1 hknown
    rw [if_neg hv, hid]
    exact ⟨some id, rfl⟩

theorem fails_functionAfter {first : Token} (h : StartsFunction types first) :
    Fails Error.Attested (functionAfter types first) := by
  obtain ⟨returned, hr⟩ := h.exists_returnType
  have hnever : ∀ e, returnType types first = .error e → e.Attested := fun e he => nomatch hr.symm.trans he
  refine (fails_liftM hnever).bind fun _ => fails_word.bind fun _ => (fails_isNext _).bind fun _ => ?_
  split
  · exact (fails_parameters types).bind fun _ => fails_semantic.bind fun _ => (fails_body _ _).bind fun _ =>
      fails_pure _
  · exact (fails_skipStatement _).bind fun _ => fails_pure _

theorem fails_otherAfter (first : Token) : Fails Error.Attested (otherAfter first) := by
  unfold otherAfter
  split
  · exact fails_word.bind fun _ => fails_members.bind fun _ => (fails_expect _).bind fun _ => fails_pure _
  · exact fails_word.bind fun _ => (fails_register _).bind fun _ => fails_members.bind fun _ =>
      (fails_accept _).bind fun _ => fails_pure _
  · split
    · exact fails_templateArgument.bind fun _ => fails_word.bind fun _ => fails_arraySize.bind fun _ =>
        (fails_register _).bind fun _ => (fails_expect _).bind fun _ => fails_pure _
    · exact fails_unknownAfter _
  · exact fails_pure _

theorem fails_startingWith (types : TypeTable) (first : Token) : Fails Error.Attested (startingWith types first) := by
  rw [startingWith_eq]
  split
  · next h => exact fails_functionAfter h
  · exact fails_otherAfter first

end Declaration

/-! ## Members that are not resolved -/

/-- A member of a list is the first one whose type is not in the table. -/
def TypeTable.FirstUnknown (types : TypeTable) (specs : List MemberSpec) (spec : MemberSpec) : Prop :=
  ∃ before after, specs = before ++ spec :: after ∧ (∀ m ∈ before, types.contains m.typeName = true) ∧
    types.contains spec.typeName = false

section Unknown
variable {types : TypeTable} {specs : List MemberSpec} {spec : MemberSpec}

theorem TypeTable.FirstUnknown.unresolved? (h : types.FirstUnknown specs spec) :
    types.unresolved? specs = some spec := by
  obtain ⟨before, after, rfl, hbefore, hspec⟩ := h
  refine List.find?_eq_some_iff_append.2 ⟨by rw [hspec]; rfl, before, after, rfl, fun m hm => ?_⟩
  rw [hbefore m hm]
  rfl

theorem TypeTable.exists_firstUnknown (h : types.resolveAll? specs = none) : ∃ spec, types.FirstUnknown specs spec := by
  induction specs with
  | nil => cases h
  | cons m ms ih =>
    by_cases hm : types.contains m.typeName = true
    · have hrest : types.resolveAll? ms = none := by
        obtain ⟨id, hid⟩ := Option.isSome_iff_exists.1 hm
        cases hms : types.resolveAll? ms with
        | none => rfl
        | some members =>
          have hfirst : types.resolve? m = some ⟨id, m.name, m.semantic, m.arraySize⟩ := by
            rw [TypeTable.resolve?, hid, Option.map_some]
          cases h.symm.trans (TypeTable.resolveAll?_cons_eq_some.2 ⟨_, _, hfirst, hms, rfl⟩)
      obtain ⟨spec, before, after, rfl, hbefore, hspec⟩ := ih hrest
      exact ⟨spec, m :: before, after, rfl, List.forall_mem_cons.2 ⟨hm, hbefore⟩, hspec⟩
    · exact ⟨m, [], ms, rfl, List.forall_mem_nil _, Bool.eq_false_iff.2 hm⟩

end Unknown

namespace Interface

/-- If members cannot be resolved, then the error names the first one whose type is unknown. -/
theorem exists_unresolved {types : TypeTable} {specs : List MemberSpec} (h : types.resolveAll? specs = none)
    (line : UInt32) :
    ∃ spec, types.FirstUnknown specs spec ∧
      unresolvedError types line specs = .declaration line (.unknownMemberType spec.typeName spec.name) := by
  obtain ⟨spec, hspec⟩ := TypeTable.exists_firstUnknown h
  refine ⟨spec, hspec, ?_⟩
  rw [unresolvedError, hspec.unresolved?]

theorem attested_unresolved {types : TypeTable} {specs : List MemberSpec} (h : types.resolveAll? specs = none)
    (line : UInt32) : (unresolvedError types line specs).Attested := by
  obtain ⟨spec, -, hspec⟩ := exists_unresolved h line
  rw [hspec]
  exact attested trivial

/-- A struct with a new name that is not defined has a member of an unknown type, and the first one is named. -/
theorem exists_firstUnknown_of_define {i : Interface} {name : String} {specs : List MemberSpec}
    (hn : i.types.contains name = false) (hd : (i.types.define ⟨name, specs⟩).1 = none) (line : UInt32) :
    ∃ spec, i.types.FirstUnknown specs spec ∧ i.add (.struct line name specs) =
      .error (.declaration line (.unknownMemberType spec.typeName spec.name)) := by
  have hnew : ¬ i.types.contains name = true := Bool.eq_false_iff.1 hn
  obtain ⟨spec, hspec, he⟩ := exists_unresolved ((TypeTable.define_eq_none.1 hd).resolve_left hnew) line
  have hnone : i.types.define ⟨name, specs⟩ = (none, i.types) := Prod.ext hd (TypeTable.define_of_none hd)
  exact ⟨spec, hspec, by rw [add, if_neg hnew, hnone, he]⟩

theorem attested_add {i : Interface} {d : Declaration} {e : Error} (h : i.add d = .error e) : e.Attested := by
  unfold add at h
  split at h
  · next line name specs =>
    split at h
    · exact Except.error.inj h ▸ attested trivial
    next hn =>
    split at h
    · cases h
    · next hd =>
      have hfailed : (i.types.define ⟨name, specs⟩).1 = none := by rw [hd]
      have hnone := (TypeTable.define_eq_none.1 hfailed).resolve_left hn
      exact Except.error.inj h ▸ attested_unresolved hnone line
  · split at h
    · cases h
    · next hnone => exact Except.error.inj h ▸ attested_unresolved hnone _
  · cases h
  · cases h
  · cases h

/-- The declarations of a stream only fail with faults that can be found. -/
theorem attested_extend (i : Interface) (s : Stream) {e : Error} (h : (i.extend s).result = .error e) : e.Attested := by
  fun_induction extend i s with
  | case1 => cases h
  | case2 i s first rest hs e' hd =>
    exact Except.error.inj h ▸ Declaration.fails_startingWith i.types first _ _ hd
  | case3 i s first rest hs d t hd e' ha => exact Except.error.inj h ▸ attested_add ha
  | case4 i s first rest hs d t hd j ws ha remaining ih => exact ih h

end Interface

/-! ## Counters -/

namespace Loop

section Counters
variable {σ ρ : Type} {l : Loop σ ρ}

/-- The second state comes some turns after the first one. -/
def Reaches (l : Loop σ ρ) : σ → σ → Prop := Relation.ReflTransGen fun x y => l.turn x = .again y

/-- If a counter goes up by one in a turn at most, then no more is counted than there are tokens that were read. -/
theorem Advances.counter {count : σ → Int} {low : Int} (ha : l.Advances)
    (hstep : ∀ x y, l.turn x = .again y → low ≤ count x → low ≤ count y ∧ count y ≤ count x + 1) {x y : σ}
    (h : l.Reaches x y) (hx : low ≤ count x) :
    low ≤ count y ∧ count y + (l.stream y).size ≤ count x + (l.stream x).size := by
  induction h with
  | refl => exact ⟨hx, Int.le_refl _⟩
  | tail _ ht ih =>
    obtain ⟨hlow, hbound⟩ := ih
    obtain ⟨hlow', hup⟩ := hstep _ _ ht hlow
    have hlt := (ha _ _ ht).2
    exact ⟨hlow', by omega⟩

end Counters

theorem template_counter (x y : Template) (h : template.turn x = .again y) (hx : 1 ≤ x.depth) :
    1 ≤ y.depth ∧ y.depth ≤ x.depth + 1 := by
  simp only [template] at h
  split at h
  · cases h
  split at h
  · obtain rfl := Turn.again.inj h
    exact ⟨Int.le_add_one hx, Int.le_refl _⟩
  split at h
  · split at h
    · cases h
    · next hmore =>
      obtain rfl := Turn.again.inj h
      dsimp only
      omega
  · obtain rfl := Turn.again.inj h
    exact ⟨hx, by dsimp only; omega⟩

theorem body_counter (function : String) (line : UInt32) (x y : Int × Stream) (h : (body function line).turn x = .again y)
    (hx : 0 ≤ x.1) : 0 ≤ y.1 ∧ y.1 ≤ x.1 + 1 := by
  simp only [body] at h
  split at h
  · split at h
    · obtain rfl := Turn.again.inj h
      exact ⟨Int.le_add_one hx, Int.le_refl _⟩
    · obtain rfl := Turn.again.inj h
      dsimp only
      omega
    · cases h
    · obtain rfl := Turn.again.inj h
      exact ⟨hx, by dsimp only; omega⟩
  · cases h

end Loop

/-- Behind a bracket or brace that comes next, the loops that count them do what the readers do. In each state, a
counter that goes down is not below zero afterwards, and it is no more than the number of tokens that were read from
the opening one on. -/
structure CountersBounded (s : Stream) : Prop where
  template : s.head.text = "<" →
    (∃ outcome, Loop.template.EndsWithin ⟨1, "", s.tail⟩ (s.size + 1) outcome ∧
      Declaration.templateArgument s = outcome.map fun p => (some p.1, p.2)) ∧
    ∀ x, Loop.template.Reaches ⟨1, "", s.tail⟩ x → 0 ≤ x.depth - 1 ∧ x.depth ≤ s.size - x.rest.size
  body : ∀ function line, s.head.kind = .blockOpen →
    (Loop.body function line).EndsWithin (1, s.tail) (s.size + 1) (Declaration.body function line s) ∧
    ∀ x, (Loop.body function line).Reaches (1, s.tail) x → 0 ≤ x.1 ∧ x.1 ≤ s.size - x.2.size

theorem Token.Stream.Genuine.countersBounded {s : Stream} (hs : s.Genuine) : CountersBounded s where
  template hopen := by
    refine ⟨(hs.loopsEnd (Nat.lt_succ_self _)).template hopen, fun x hx => ?_⟩
    have hsize : s.tail.size < s.size := by
      obtain ⟨tokens, line⟩ := s
      cases tokens with
      | nil =>
        have hne : ¬ ("" : String) = "<" := by decide
        exact absurd hopen hne
      | cons t ts => exact Nat.lt_succ_self ts.length
    have hcounter := Loop.advances_template.counter Loop.template_counter hx (Int.le_refl 1)
    simp only [Loop.template] at hcounter
    omega
  body function line hopen := by
    refine ⟨(hs.loopsEnd (Nat.lt_succ_self _)).body function line hopen, fun x hx => ?_⟩
    have hsize : s.tail.size < s.size := size_tail_lt (by rw [hopen]; decide)
    have hcounter :=
      (Loop.advances_body function line).counter (Loop.body_counter function line) hx Int.one_nonneg
    simp only [Loop.body] at hcounter
    omega

/-- The two faults that declarations fall back to are never found. No source text fails with one of them: a struct
with a new name is refused only for a member of an unknown type, the first one of which is named, and a function is
read only from `void` or a type that is known. The loops that count brackets never count below zero, or more than the
tokens that were read. -/
theorem fallback_faults_unreachable :
    (∀ (source : String) (e : Error), (Interface.parse source).result = .error e →
      ∃ line fault, e = .declaration line fault ∧ fault.message ≠ "invalid struct definition" ∧
        fault ≠ .invalidStruct ∧ ∀ type, fault ≠ .unknownType type) ∧
    (∀ (i : Interface) (line : UInt32) (name : String) (specs : List MemberSpec), i.types.contains name = false →
      (i.types.define ⟨name, specs⟩).1 = none → ∃ spec, i.types.FirstUnknown specs spec ∧
        i.add (.struct line name specs) = .error (.declaration line (.unknownMemberType spec.typeName spec.name))) ∧
    (∀ (types : TypeTable) (first : Token),
      (Declaration.startingWith types first =
        if Declaration.StartsFunction types first then Declaration.functionAfter types first
        else Declaration.otherAfter first) ∧
      (Declaration.StartsFunction types first → ∃ returned, Declaration.returnType types first = .ok returned)) ∧
    ∀ (source : String) (s : Stream), s.Within (Stream.ofSource source) → CountersBounded s := by
  refine ⟨fun source e he => ?_, fun i line name specs hn hd => ?_, fun types first => ?_, fun source s hs => ?_⟩
  · obtain ⟨line, fault, rfl, hfault⟩ := Interface.attested_extend _ _ he
    refine ⟨line, fault, rfl, hfault.message_ne, ?_, ?_⟩
    · rintro rfl
      exact hfault
    · rintro type rfl
      exact hfault
  · exact Interface.exists_firstUnknown_of_define hn hd line
  · exact ⟨Declaration.startingWith_eq types first, Declaration.StartsFunction.exists_returnType⟩
  · exact (hs.genuine (Stream.bounded source).2).countersBounded

/-- A struct with members of two unknown types, a function that starts with a type, and brackets and braces that are
nested in a template argument and a body. -/
theorem fallback_faults_unreachable_nested :
    (let source := "struct S \x7b float x; A y; B z; \x7d;"
      ∃ e, (Interface.parse source).result = .error e ∧
        ∃ line fault, e = .declaration line fault ∧ fault.message ≠ "invalid struct definition") ∧
    (let specs : List MemberSpec := [⟨"float", "x", none, 1⟩, ⟨"A", "y", none, 1⟩, ⟨"B", "z", none, 1⟩];
      Interface.empty.types.contains "S" = false ∧ (Interface.empty.types.define ⟨"S", specs⟩).1 = none ∧
        ∃ spec, Interface.empty.types.FirstUnknown specs spec) ∧
    (Declaration.StartsFunction .primitive ⟨.identifier, "float4", 1⟩ ∧
      ∃ returned, Declaration.returnType .primitive ⟨.identifier, "float4", 1⟩ = .ok returned) ∧
    (let s := (Stream.ofSource "Texture2D<A<B>> t;").tail;
      s.head.text = "<" ∧ Loop.template.Reaches ⟨1, "", s.tail⟩ ⟨2, "A<", s.tail.tail.tail⟩ ∧
        (2 : Int) ≤ s.size - s.tail.tail.tail.size) ∧
    (let s := (Stream.ofSource "f \x7b \x7b \x7d \x7d").tail;
      s.head.kind = .blockOpen ∧ (Loop.body "f" 1).Reaches (1, s.tail) (2, s.tail.tail) ∧
        (2 : Int) ≤ s.size - s.tail.tail.size) := by
  obtain ⟨hparse, hstruct, hstart, hcount⟩ := fallback_faults_unreachable
  refine ⟨?_, ?_, ?_, ?_, ?_⟩
  · have hfails : (Interface.parse "struct S \x7b float x; A y; B z; \x7d;").result =
        .error (.declaration 1 (.unknownMemberType "A" "y")) := by decide +kernel
    obtain ⟨line, fault, he, hmessage, -⟩ := hparse _ _ hfails
    exact ⟨_, hfails, line, fault, he, hmessage⟩
  · intro specs
    have hnew : Interface.empty.types.contains "S" = false := by decide +kernel
    have hnone : (Interface.empty.types.define ⟨"S", specs⟩).1 = none := by decide +kernel
    obtain ⟨spec, hspec, -⟩ := hstruct .empty 1 "S" specs hnew hnone
    exact ⟨hnew, hnone, spec, hspec⟩
  · have hfirst : Declaration.StartsFunction .primitive ⟨.identifier, "float4", 1⟩ := by decide +kernel
    exact ⟨hfirst, (hstart .primitive _).2 hfirst⟩
  · intro s
    have hs : s = ⟨[⟨.symbol, "<", 1⟩, ⟨.identifier, "A", 1⟩, ⟨.symbol, "<", 1⟩, ⟨.identifier, "B", 1⟩,
        ⟨.symbol, ">", 1⟩, ⟨.symbol, ">", 1⟩, ⟨.identifier, "t", 1⟩, ⟨.semicolon, ";", 1⟩], 1⟩ := by decide +kernel
    have hwithin : s.Within (Stream.ofSource "Texture2D<A<B>> t;") := Stream.tail_within _
    clear_value s
    have hopen : s.head.text = "<" := by rw [hs]; rfl
    have hreaches : Loop.template.Reaches ⟨1, "", s.tail⟩ ⟨2, "A<", s.tail.tail.tail⟩ := by
      rw [hs]
      exact .tail (.single rfl) rfl
    exact ⟨hopen, hreaches, (((hcount _ s hwithin).template hopen).2 _ hreaches).2⟩
  · intro s
    have hs : s = ⟨[⟨.blockOpen, "\x7b", 1⟩, ⟨.blockOpen, "\x7b", 1⟩, ⟨.blockClose, "\x7d", 1⟩,
        ⟨.blockClose, "\x7d", 1⟩], 1⟩ := by decide +kernel
    have hwithin : s.Within (Stream.ofSource "f \x7b \x7b \x7d \x7d") := Stream.tail_within _
    clear_value s
    have hopen : s.head.kind = .blockOpen := by rw [hs]; rfl
    have hreaches : (Loop.body "f" 1).Reaches (1, s.tail) (2, s.tail.tail) := by
      rw [hs]
      exact .single rfl
    exact ⟨hopen, hreaches, (((hcount _ s hwithin).body "f" 1 hopen).2 _ hreaches).2⟩

end ShaderBuild
