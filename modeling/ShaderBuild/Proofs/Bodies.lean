import ShaderBuild.Interface.Parse
import ShaderBuild.Proofs.DeclarationShapes
/-!
# Function bodies are opaque

`outline` follows the declarations of a source as they are read, and leaves the bodies of functions empty.
All that is read of a source is in its outline (`same_extend`): sources with one outline declare the same
interface, but for lines, or fail with the same message, whatever is written in the bodies and however the
tokens are laid out.
-/

namespace ShaderBuild

open Token Reader

/-! ## Interfaces without lines -/

/-- A constant buffer without its line. -/
def ConstantBuffer.unlined (b : ConstantBuffer) : ConstantBuffer := { b with line := 0 }

/-- An interface without the lines of its declarations. -/
def Interface.unlined (i : Interface) : Interface :=
  { i with
    constantBuffers := i.constantBuffers.map ConstantBuffer.unlined
    resources := i.resources.map Resource.unlined
    functions := i.functions.map Function.unlined }

section Named
variable {α : Type} {name : α → String} {f : α → α} (hf : ∀ a, name (f a) = name a)
include hf

/-- Elements are put in order by their names, and found by them. -/
theorem insert_map_of_name (a : α) (l : List α) :
    SortedList.insert (fun a b => decide (name a < name b)) (f a) (l.map f) =
      (SortedList.insert (fun a b => decide (name a < name b)) a l).map f := by
  induction l with
  | nil => rfl
  | cons b bs ih =>
    rw [List.map_cons, SortedList.insert, SortedList.insert, hf, hf, ih]
    split <;> rfl

theorem isSome_find?_map_of_name (l : List α) (word : String) :
    ((l.map f).find? fun a => name a == word).isSome = (l.find? fun a => name a == word).isSome := by
  rw [List.find?_map, Option.isSome_map]
  simp only [Function.comp_def, hf]

end Named

namespace Interface

theorem addConstantBuffer_unlined (i : Interface) (b : ConstantBuffer) :
    i.unlined.addConstantBuffer b.unlined = ((i.addConstantBuffer b).1.unlined, (i.addConstantBuffer b).2) := by
  have hname : ∀ b : ConstantBuffer, b.unlined.name = b.name := fun _ => rfl
  have hfind : (i.unlined.constantBuffer? b.name).isSome = (i.constantBuffer? b.name).isSome :=
    isSome_find?_map_of_name hname i.constantBuffers b.name
  unfold addConstantBuffer
  rw [hname, hfind]
  split
  · rfl
  · rw [unlined, unlined, insert_map_of_name hname b i.constantBuffers]

theorem addResource_unlined (i : Interface) (r : Resource) :
    i.unlined.addResource r.unlined = ((i.addResource r).1.unlined, (i.addResource r).2) := by
  have hname : ∀ r : Resource, r.unlined.name = r.name := fun _ => rfl
  have hfind : (i.unlined.resource? r.name).isSome = (i.resource? r.name).isSome :=
    isSome_find?_map_of_name hname i.resources r.name
  unfold addResource
  rw [hname, hfind]
  split
  · rfl
  · rw [unlined, unlined, insert_map_of_name hname r i.resources]

theorem addFunction_unlined (i : Interface) (f : Function) :
    i.unlined.addFunction f.unlined = ((i.addFunction f).1.unlined, (i.addFunction f).2) := by
  have hname : ∀ f : Function, f.unlined.name = f.name := fun _ => rfl
  have hfind : (i.unlined.function? f.name).isSome = (i.function? f.name).isSome :=
    isSome_find?_map_of_name hname i.functions f.name
  unfold addFunction
  rw [hname, hfind]
  split
  · rfl
  · rw [unlined, unlined, insert_map_of_name hname f i.functions]

/-- The same interface but for lines, with the same warnings. -/
def SameAdded (p p' : Interface × List Warning) : Prop := p.1.unlined = p'.1.unlined ∧ p.2 = p'.2

theorem unlined_unlined (i : Interface) : i.unlined.unlined = i.unlined := by
  simp [unlined, ConstantBuffer.unlined, Resource.unlined, Function.unlined, Function.comp_def]

theorem sameMessage_unresolved (types : TypeTable) (line line' : UInt32) (specs : List MemberSpec) :
    SameMessage (unresolvedError types line specs) (unresolvedError types line' specs) := by
  unfold unresolvedError
  split <;> exact sameMessage _ _ rfl

theorem add_unlined (i : Interface) (d : Declaration) : SameResult SameAdded (i.add d) (i.unlined.add d.unlined) := by
  cases d with
  | struct line name specs =>
    simp only [add, Declaration.unlined, show i.unlined.types = i.types from rfl]
    split
    · exact .error (sameMessage _ _ rfl)
    · split
      · exact .ok ⟨(unlined_unlined _).symm, rfl⟩
      · exact .error (sameMessage_unresolved _ _ _ _)
  | constants line name register specs =>
    simp only [add, Declaration.unlined, show i.unlined.types = i.types from rfl]
    split
    · next members _ =>
      have h := addConstantBuffer_unlined i ⟨name, register, members, i.types.membersSize members, line⟩
      exact .ok (h.symm ▸ ⟨(unlined_unlined _).symm, rfl⟩)
    · exact .error (sameMessage_unresolved _ _ _ _)
  | resource r => exact .ok ((addResource_unlined i r).symm ▸ ⟨(unlined_unlined _).symm, rfl⟩)
  | function f => exact .ok ((addFunction_unlined i f).symm ▸ ⟨(unlined_unlined _).symm, rfl⟩)
  | other => exact .ok ⟨(unlined_unlined i).symm, rfl⟩

theorem sameResult_add {i i' : Interface} (hi : i.unlined = i'.unlined) {d d' : Declaration}
    (hd : d.SameButLine d') : SameResult SameAdded (i.add d) (i'.add d') := by
  have hd : d.unlined = d'.unlined := hd
  have h := add_unlined i d
  have h' := add_unlined i' d'
  rw [hi, hd] at h
  generalize i.add d = x at h
  generalize i'.add d' = x' at h'
  generalize i'.unlined.add d'.unlined = y at h h'
  cases h with
  | ok h =>
    cases h' with
    | ok h' => exact .ok ⟨h.1.trans h'.1.symm, h.2.trans h'.2.symm⟩
  | error h =>
    cases h' with
    | error h' => exact .error (h.trans h'.symm)

end Interface

/-! ## Outlines -/

namespace Declaration

/-- The token starts a function or a global variable. -/
def StartsFunction (types : TypeTable) (first : Token) : Prop :=
  first.kind = .identifier ∧ ResourceKind.ofKeyword? first.text = none ∧
    (first.text = "void" ∨ types.contains first.text = true)

instance (types : TypeTable) (first : Token) : Decidable (StartsFunction types first) :=
  inferInstanceAs (Decidable (_ ∧ _ ∧ _))

theorem StartsFunction.eq {types : TypeTable} {first : Token} (h : StartsFunction types first) :
    startingWith types first = functionAfter types first := by
  unfold startingWith
  rw [h.1, h.2.1]
  exact if_pos h.2.2

theorem StartsFunction.of_shape {types : TypeTable} {first first' : Token} (h : StartsFunction types first)
    (hs : SameShape first first') : StartsFunction types first' := by
  unfold StartsFunction
  rw [← kind_eq hs, ← text_eq hs]
  exact h

/-- Where the body of the declaration that starts with a token starts, if it has one. -/
def bodyOf? (types : TypeTable) (first : Token) (s : Stream) : Option Stream :=
  if StartsFunction types first then
    match signatureAfter types first s with
    | .ok (some _, t) => if t.head.kind = .blockOpen then some t else none
    | _ => none
  else none

/-- The shapes of the tokens of `s` before those of `t`, which follows. -/
def before (s t : Stream) : List (Kind × String) := shapes (s.tokens.take (s.size - t.size))

/-- A declaration after its first token, without what is in its body. -/
def outlineAfter (types : TypeTable) (first : Token) (s t : Stream) : List (Kind × String) :=
  match bodyOf? types first s with
  | some body => before s body ++ [body.head.shape, (.blockClose, "\x7d")]
  | none => before s t

theorem bodyOf?_eq_some {types : TypeTable} {first : Token} {s t : Stream} (h : bodyOf? types first s = some t) :
    StartsFunction types first ∧ (∃ f, signatureAfter types first s = .ok (some f, t)) ∧
      t.head.kind = .blockOpen := by
  unfold bodyOf? at h
  split at h
  · next hf =>
    split at h
    · next f u hs =>
      split at h
      · next hk =>
        obtain rfl := Option.some.inj h
        exact ⟨hf, ⟨f, hs⟩, hk⟩
      · cases h
    · cases h
  · cases h

theorem before_append (taken : List Token) (t : Stream) : before ⟨taken ++ t.tokens, t.endLine⟩ t = shapes taken := by
  unfold before Stream.size
  rw [List.length_append, Nat.add_sub_cancel, List.take_left]

section SameShapes
variable (types : TypeTable) {first first' : Token} (hf : SameShape first first') {s s' : Stream}
  (hs : shapes s'.tokens = shapes s.tokens)
include hs

theorem before_of_shapes {t t' : Stream} (ht : shapes t'.tokens = shapes t.tokens) : before s' t' = before s t := by
  have hlen : s'.size = s.size := by simpa [shapes, Stream.size] using congrArg List.length hs
  have hlen' : t'.size = t.size := by simpa [shapes, Stream.size] using congrArg List.length ht
  have hmap : s'.tokens.map shape = s.tokens.map shape := hs
  unfold before shapes
  rw [List.map_take, List.map_take, hlen, hlen', hmap]

include hf

/-- On the same tokens bodies start in the same places. -/
theorem bodyOf?_of_shapes :
    bodyOf? types first s = none ∧ bodyOf? types first' s' = none ∨
      ∃ t t', bodyOf? types first s = some t ∧ bodyOf? types first' s' = some t' ∧
        shapes t'.tokens = shapes t.tokens := by
  have hiff : StartsFunction types first ↔ StartsFunction types first' :=
    ⟨fun h => h.of_shape hf, fun h => h.of_shape hf.symm⟩
  have hsig := (alike_signatureAfter types hf).sameResult hs
  unfold bodyOf?
  by_cases h : StartsFunction types first
  · rw [if_pos h, if_pos (hiff.1 h)]
    generalize signatureAfter types first s = x at hsig ⊢
    generalize signatureAfter types first' s' = x' at hsig ⊢
    cases hsig with
    | error => exact .inl ⟨rfl, rfl⟩
    | @ok p p' hp =>
      obtain ⟨o, t⟩ := p
      obtain ⟨o', t'⟩ := p'
      obtain ⟨ho, ht⟩ := hp
      cases o with
      | none =>
        obtain rfl : o' = none := Option.map_eq_none_iff.1 ho.symm
        exact .inl ⟨rfl, rfl⟩
      | some f =>
        obtain ⟨f', rfl, -⟩ := Option.map_eq_some_iff.1 ho.symm
        have hk : t.head.kind = t'.head.kind := kind_eq (shape_head (ahead_of_shapes ht.symm))
        dsimp only
        rw [← hk]
        split
        · exact .inr ⟨t, t', rfl, rfl, ht⟩
        · exact .inl ⟨rfl, rfl⟩
  · rw [if_neg h, if_neg fun h' => h (hiff.2 h')]
    exact .inl ⟨rfl, rfl⟩

theorem outlineAfter_of_shapes {t t' : Stream} (ht : shapes t'.tokens = shapes t.tokens) :
    outlineAfter types first' s' t' = outlineAfter types first s t := by
  unfold outlineAfter
  rcases bodyOf?_of_shapes types hf hs with ⟨h, h'⟩ | ⟨u, u', h, h', hu⟩
  · rw [h, h']
    exact before_of_shapes hs ht
  · rw [h, h']
    dsimp only
    rw [before_of_shapes hs hu, shape_head (ahead_of_shapes hu)]

end SameShapes

/-- Whatever is in a body, it is passed over. -/
theorem body_balanced (name : String) (line : UInt32) {opening close : Token} {inner : List Token}
    (ho : opening.kind = .blockOpen) (hi : Balanced inner) (hc : close.kind = .blockClose) (rest : List Token)
    (endLine : UInt32) : body name line ⟨opening :: (inner ++ close :: rest), endLine⟩ = .ok ((), ⟨rest, endLine⟩) := by
  have hne : ¬opening.kind = .semicolon := by
    rw [ho]
    decide
  have ha : afterBody 0 (inner ++ close :: rest) = some rest := afterBody_iff.2 ⟨inner, close, rfl, hi, hc⟩
  have haccept : accept .semicolon ⟨opening :: (inner ++ close :: rest), endLine⟩ = .ok (false, _) := if_neg hne
  have hexpect : expect .blockOpen ⟨opening :: (inner ++ close :: rest), endLine⟩ =
      .ok (opening, ⟨inner ++ close :: rest, endLine⟩) := if_pos ho
  unfold body
  rw [bind_of_ok haccept, if_neg Bool.false_ne_true, bind_of_ok hexpect, cut, ha]
  rfl

/-- A declaration is read from its outline, whatever follows, as long as it starts in the same way. -/
theorem startingWith_outlined {types : TypeTable} {first first' : Token} {rest rest' : List Token} {line : UInt32}
    (line' : UInt32) {d : Declaration} {t : Stream} (hd : startingWith types first ⟨rest, line⟩ = .ok (d, t))
    {more : List (Kind × String)} (hm : more.head? = t.tokens.head?.map shape) (hf : SameShape first first')
    (hr : shapes rest' = outlineAfter types first ⟨rest, line⟩ t ++ more) :
    ∃ d' t', startingWith types first' ⟨rest', line'⟩ = .ok (d', t') ∧ d.SameButLine d' ∧ shapes t'.tokens = more := by
  have hahead : ∀ after, shapes after = more → Ahead t.tokens after := by
    intro after ha
    rw [Ahead, ← hm, ← ha, shapes, List.head?_map]
  unfold outlineAfter at hr
  cases hb : bodyOf? types first ⟨rest, line⟩ with
  | none =>
    obtain ⟨taken, hs, hok⟩ := (alike_startingWith types hf ⟨rest, line⟩).ok d t hd
    rw [hb, hs] at hr
    dsimp only at hr
    rw [before_append] at hr
    obtain ⟨taken', after, rfl, h1, h2⟩ := List.map_eq_append_iff.1 hr
    obtain ⟨d', hdd, hr'⟩ := hok taken' after line' h1 (hahead after h2)
    exact ⟨d', ⟨after, line'⟩, hr', hdd, h2⟩
  | some u =>
    -- the signature is read up to the opening brace, and then the empty body
    obtain ⟨hfun, ⟨f, hsig⟩, hk⟩ := bodyOf?_eq_some hb
    obtain ⟨taken, hs, hok⟩ := (alike_signatureAfter types hf ⟨rest, line⟩).ok (some f) u hsig
    rw [hfun.eq, functionAfter_eq, bind_of_ok hsig] at hd
    rw [hb, hs] at hr
    dsimp only at hr
    rw [before_append, List.append_assoc] at hr
    obtain ⟨taken', after, rfl, h1, h2⟩ := List.map_eq_append_iff.1 hr
    obtain ⟨opening, after, rfl, ho, h3⟩ := List.map_eq_cons_iff.1 h2
    obtain ⟨close, after, rfl, hc, h4⟩ := List.map_eq_cons_iff.1 h3
    have hopen : Ahead u.tokens (opening :: close :: after) := by
      obtain ⟨ts, endLine⟩ := u
      cases ts with
      | nil => cases hk
      | cons => exact congrArg some ho.symm
    obtain ⟨o, hsame, hread⟩ := hok taken' (opening :: close :: after) line' h1 hopen
    obtain ⟨f', rfl, hff⟩ := Option.map_eq_some_iff.1 hsame.symm
    obtain ⟨_, _, _, hpure⟩ := bind_eq_ok hd
    obtain ⟨rfl, -⟩ := Prod.mk.inj (Except.ok.inj hpure)
    have hempty : Balanced [] := rfl
    have hbody := body_balanced f'.name first'.line ((kind_eq ho).trans hk) hempty (congrArg Prod.fst hc) after line'
    refine ⟨.function f', ⟨after, line'⟩, ?_, congrArg Declaration.function hff.symm, h4⟩
    rw [(hfun.of_shape hf).eq, functionAfter_eq, bind_of_ok hread]
    exact bind_of_ok hbody

end Declaration

namespace Interface

open Declaration

/-- Read the declaration that starts with a token, and add it. -/
def declare (i : Interface) (first : Token) (s : Stream) : Except Error ((Interface × List Warning) × Stream) :=
  match startingWith i.types first s with
  | .error e => .error e
  | .ok (d, t) =>
    match i.add d with
    | .error e => .error e
    | .ok added => .ok (added, t)

theorem declare_eq_ok {i : Interface} {first : Token} {s t : Stream} {added : Interface × List Warning} :
    i.declare first s = .ok (added, t) ↔ ∃ d, startingWith i.types first s = .ok (d, t) ∧ i.add d = .ok added := by
  unfold declare
  cases startingWith i.types first s with
  | error e => simp
  | ok p =>
    obtain ⟨d, u⟩ := p
    dsimp only
    constructor
    · intro h
      cases ha : i.add d with
      | error e =>
        rw [ha] at h
        cases h
      | ok added' =>
        rw [ha] at h
        obtain ⟨rfl, rfl⟩ := Prod.mk.inj (Except.ok.inj h)
        exact ⟨d, rfl, ha⟩
    · rintro ⟨d', hd, ha⟩
      obtain ⟨rfl, rfl⟩ := Prod.mk.inj (Except.ok.inj hd)
      rw [ha]

theorem size_declare {i : Interface} {first : Token} {s t : Stream} {added : Interface × List Warning}
    (h : i.declare first s = .ok (added, t)) : t.size ≤ s.size := by
  obtain ⟨d, hd, -⟩ := declare_eq_ok.1 h
  exact forward_startingWith i.types first s d t hd

/-- The tokens of a source that the rest of an interface is read from, up to the first error, with the bodies of
functions left empty. -/
def outline (i : Interface) (s : Stream) : List (Kind × String) :=
  match _hs : s.tokens with
  | [] => []
  | first :: rest =>
    match _hd : i.declare first { s with tokens := rest } with
    | .error _ => shapes s.tokens
    | .ok ((i', _), t) => first.shape :: (outlineAfter i.types first { s with tokens := rest } t ++ outline i' t)
termination_by s.size
decreasing_by
  have h := size_declare _hd
  simp only [Stream.size, _hs, List.length_cons] at h ⊢
  omega

theorem outline_cons (i : Interface) (first : Token) (rest : List Token) (line : UInt32) :
    i.outline ⟨first :: rest, line⟩ =
      match i.declare first ⟨rest, line⟩ with
      | .error _ => shapes (first :: rest)
      | .ok ((i', _), t) => first.shape :: (outlineAfter i.types first ⟨rest, line⟩ t ++ i'.outline t) := by
  rw [outline]
  split
  · next h => cases h
  · next first' rest' h =>
    obtain ⟨rfl, rfl⟩ := List.cons.inj h
    split
    · next e he => rw [he]
    · next j ws t hd => rw [hd]

theorem extend_first (i : Interface) (first : Token) (rest : List Token) (line : UInt32) :
    i.extend ⟨first :: rest, line⟩ =
      match i.declare first ⟨rest, line⟩ with
      | .error e => ⟨.error e, []⟩
      | .ok ((i', ws), t) => ⟨(i'.extend t).result, ws ++ (i'.extend t).warnings⟩ := by
  rw [extend]
  split
  · next h => cases h
  · next first' rest' h =>
    obtain ⟨rfl, rfl⟩ := List.cons.inj h
    unfold declare
    split
    · next e he => rw [he]
    · next d t hd =>
      rw [hd]
      dsimp only
      cases i.add d <;> rfl

/-- An outline starts like what it is the outline of. -/
theorem head?_outline (i : Interface) (s : Stream) : (i.outline s).head? = s.tokens.head?.map shape := by
  obtain ⟨ts, line⟩ := s
  cases ts with
  | nil =>
    rw [outline]
    rfl
  | cons first rest =>
    rw [outline_cons]
    split <;> rfl

section Declare
variable {i i' : Interface} (hi : i.unlined = i'.unlined) {first first' : Token} (hf : SameShape first first')
  {rest rest' : List Token} (line line' : UInt32)
include hi hf

/-- The same tokens declare the same. -/
theorem declare_of_shapes (hr : shapes rest' = shapes rest) :
    SameResult (fun p p' => SameAdded p.1 p'.1 ∧ shapes p'.2.tokens = shapes p.2.tokens)
      (i.declare first ⟨rest, line⟩) (i'.declare first' ⟨rest', line'⟩) := by
  have htypes : i.unlined.types = i'.unlined.types := congrArg types hi
  have htypes : i.types = i'.types := htypes
  have hs : shapes (Stream.tokens ⟨rest', line'⟩) = shapes (Stream.tokens ⟨rest, line⟩) := hr
  have hread := (alike_startingWith i.types hf).sameResult hs
  unfold declare
  rw [← htypes]
  generalize startingWith i.types first ⟨rest, line⟩ = x at hread ⊢
  generalize startingWith i.types first' ⟨rest', line'⟩ = x' at hread ⊢
  cases hread with
  | error he => exact .error he
  | @ok p p' hp =>
    obtain ⟨d, t⟩ := p
    obtain ⟨d', t'⟩ := p'
    obtain ⟨hd, ht⟩ := hp
    have hadd := sameResult_add hi hd
    dsimp only at hadd ⊢
    generalize i.add d = y at hadd ⊢
    generalize i'.add d' = y' at hadd ⊢
    cases hadd with
    | error he => exact .error he
    | ok hq => exact .ok ⟨hq, ht⟩

/-- So does the outline of a declaration, with more of an outline after it. -/
theorem declare_outlined {j : Interface} {ws : List Warning} {t : Stream}
    (hd : i.declare first ⟨rest, line⟩ = .ok ((j, ws), t))
    (hr : shapes rest' = outlineAfter i.types first ⟨rest, line⟩ t ++ j.outline t) :
    ∃ j' t', i'.declare first' ⟨rest', line'⟩ = .ok ((j', ws), t') ∧ j.unlined = j'.unlined ∧
      shapes t'.tokens = j.outline t := by
  have htypes : i.unlined.types = i'.unlined.types := congrArg types hi
  have htypes : i.types = i'.types := htypes
  obtain ⟨d, hread, ha⟩ := declare_eq_ok.1 hd
  obtain ⟨d', t', hread', hdd, ht⟩ := startingWith_outlined line' hread (j.head?_outline t) hf hr
  have hadd := sameResult_add hi hdd
  rw [ha] at hadd
  rw [htypes] at hread'
  generalize ha' : i'.add d' = y at hadd
  cases hadd with
  | @ok _ q hq =>
    obtain ⟨j', ws'⟩ := q
    obtain ⟨hj, rfl⟩ := hq
    exact ⟨j', t', declare_eq_ok.2 ⟨d', hread', ha'⟩, hj, ht⟩

end Declare

/-- What two readings have in common: the warnings, and the interface but for lines, or the message. -/
def SameReading (l l' : Logged Interface) : Prop :=
  l.warnings = l'.warnings ∧ SameResult (fun i i' => i.unlined = i'.unlined) l.result l'.result

/-- Two readings that have the same in common with a third one. -/
theorem SameReading.join {l l' l'' : Logged Interface} (h : SameReading l l'') (h' : SameReading l' l'') :
    SameReading l l' := by
  obtain ⟨r, ws⟩ := l
  obtain ⟨r', ws'⟩ := l'
  obtain ⟨r'', ws''⟩ := l''
  obtain ⟨hw, hr⟩ := h
  obtain ⟨hw', hr'⟩ := h'
  refine ⟨hw.trans hw'.symm, ?_⟩
  dsimp only at hr hr' ⊢
  cases hr with
  | ok hi =>
    cases hr' with
    | ok hi' => exact .ok (hi.trans hi'.symm)
  | error he =>
    cases hr' with
    | error he' => exact .error (he.trans he'.symm)

/-- All that is read of a source is in its outline. -/
theorem same_extend (i : Interface) (s : Stream) : ∀ (i' : Interface) (s' : Stream), i.unlined = i'.unlined →
    shapes s'.tokens = i.outline s → SameReading (i.extend s) (i'.extend s') := by
  -- by induction on the number of tokens, as every declaration takes some of them
  induction hn : s.size using Nat.strongRecOn generalizing i s with
  | _ n ih =>
    subst hn
    rintro i' ⟨ts', line'⟩ hi hs
    obtain ⟨ts, line⟩ := s
    cases ts with
    | nil =>
      rw [outline] at hs
      obtain rfl : ts' = [] := List.map_eq_nil_iff.1 hs
      rw [extend, extend]
      exact ⟨rfl, .ok hi⟩
    | cons first rest =>
      rw [outline_cons] at hs
      rw [extend_first]
      cases hd : i.declare first ⟨rest, line⟩ with
      | error e =>
        rw [hd] at hs
        obtain ⟨first', rest', rfl, hf, hr⟩ := List.map_eq_cons_iff.1 hs
        have hsame := declare_of_shapes hi hf.symm line line' hr
        rw [hd] at hsame
        rw [extend_first]
        generalize i'.declare first' ⟨rest', line'⟩ = x at hsame ⊢
        cases hsame with
        | error he => exact ⟨rfl, .error he⟩
      | ok p =>
        obtain ⟨⟨j, ws⟩, t⟩ := p
        rw [hd] at hs
        obtain ⟨first', rest', rfl, hf, hr⟩ := List.map_eq_cons_iff.1 hs
        obtain ⟨j', t', hd', hj, ht⟩ := declare_outlined hi hf.symm line line' hd hr
        have hlt : t.size < Stream.size ⟨first :: rest, line⟩ := Nat.lt_succ_of_le (size_declare hd)
        obtain ⟨hw, hresult⟩ := ih t.size hlt j t rfl j' t' hj ht
        rw [extend_first, hd']
        exact ⟨congrArg (ws ++ ·) hw, hresult⟩

/-- An outline depends on the tokens only, and not on their lines. -/
theorem outline_of_shapes (i : Interface) (s : Stream) : ∀ (i' : Interface) (s' : Stream), i.unlined = i'.unlined →
    shapes s'.tokens = shapes s.tokens → i'.outline s' = i.outline s := by
  induction hn : s.size using Nat.strongRecOn generalizing i s with
  | _ n ih =>
    subst hn
    rintro i' ⟨ts', line'⟩ hi hs
    obtain ⟨ts, line⟩ := s
    cases ts with
    | nil =>
      obtain rfl : ts' = [] := List.map_eq_nil_iff.1 hs
      rw [outline, outline]
    | cons first rest =>
      obtain ⟨first', rest', rfl, hf, hr⟩ := List.map_eq_cons_iff.1 hs
      have htypes : i.unlined.types = i'.unlined.types := congrArg types hi
      have htypes : i.types = i'.types := htypes
      have hsame := declare_of_shapes hi hf.symm line line' hr
      rw [outline_cons, outline_cons]
      cases hd : i.declare first ⟨rest, line⟩ with
      | error e =>
        rw [hd] at hsame
        generalize i'.declare first' ⟨rest', line'⟩ = x at hsame ⊢
        cases hsame with
        | error => exact hs
      | ok p =>
        obtain ⟨⟨j, ws⟩, t⟩ := p
        rw [hd] at hsame
        generalize i'.declare first' ⟨rest', line'⟩ = x at hsame ⊢
        cases hsame with
        | @ok _ p' hp =>
          obtain ⟨⟨j', ws'⟩, t'⟩ := p'
          obtain ⟨⟨hj, -⟩, ht⟩ := hp
          have hlt : t.size < Stream.size ⟨first :: rest, line⟩ := Nat.lt_succ_of_le (size_declare hd)
          have hrest : shapes (Stream.tokens ⟨rest', line'⟩) = shapes (Stream.tokens ⟨rest, line⟩) := hr
          dsimp only
          rw [← htypes, hf, ih t.size hlt j t rfl j' t' hj ht, outlineAfter_of_shapes i.types hf.symm hrest ht]

/-- The outline of a function: whatever is in its body is not in it. -/
theorem outline_function (i : Interface) {first opening close : Token} {sig inner : List Token} (after : List Token)
    {line : UInt32} {f : Function} (hfun : StartsFunction i.types first) (ho : opening.kind = .blockOpen)
    (hi : Balanced inner) (hc : close.kind = .blockClose)
    (hsig : signatureAfter i.types first ⟨sig ++ opening :: (inner ++ close :: after), line⟩ =
      .ok (some f, ⟨opening :: (inner ++ close :: after), line⟩)) :
    i.outline ⟨first :: (sig ++ opening :: (inner ++ close :: after)), line⟩ =
      first.shape :: (shapes sig ++ [opening.shape, (.blockClose, "\x7d")] ++
        (i.addFunction f).1.outline ⟨after, line⟩) := by
  have hbody := body_balanced f.name first.line ho hi hc after line
  have hread : startingWith i.types first ⟨sig ++ opening :: (inner ++ close :: after), line⟩ =
      .ok (.function f, ⟨after, line⟩) := by
    rw [hfun.eq, functionAfter_eq, bind_of_ok hsig]
    exact bind_of_ok hbody
  have hdeclare : i.declare first ⟨sig ++ opening :: (inner ++ close :: after), line⟩ =
      .ok (i.addFunction f, ⟨after, line⟩) := declare_eq_ok.2 ⟨_, hread, rfl⟩
  have hb : bodyOf? i.types first ⟨sig ++ opening :: (inner ++ close :: after), line⟩ =
      some ⟨opening :: (inner ++ close :: after), line⟩ := by
    unfold bodyOf?
    rw [if_pos hfun, hsig]
    exact if_pos ho
  have hbefore := before_append sig ⟨opening :: (inner ++ close :: after), line⟩
  rw [outline_cons, hdeclare]
  dsimp only
  rw [outlineAfter, hb]
  dsimp only
  rw [hbefore]
  rfl

/-- The interface of a source is that of its outline, in which the bodies of functions are empty. Sources with the
same outline declare the same but for lines, with the same warnings, or fail with the same message. An outline
says nothing about lines and spaces, and nothing about what is written in bodies. -/
theorem bodies_are_opaque :
    (∀ s s' : String, empty.outline (.ofSource s) = empty.outline (.ofSource s') → SameReading (parse s) (parse s')) ∧
    (∀ (i : Interface) (s s' : Stream), shapes s'.tokens = shapes s.tokens → i.outline s' = i.outline s) ∧
    ∀ (i : Interface) (first opening close : Token) (sig inner after : List Token) (line : UInt32) (f : Function),
      StartsFunction i.types first → opening.kind = .blockOpen → Balanced inner → close.kind = .blockClose →
      signatureAfter i.types first ⟨sig ++ opening :: (inner ++ close :: after), line⟩ =
        .ok (some f, ⟨opening :: (inner ++ close :: after), line⟩) →
      i.outline ⟨first :: (sig ++ opening :: (inner ++ close :: after)), line⟩ =
        first.shape :: (shapes sig ++ [opening.shape, (.blockClose, "\x7d")] ++
          (i.addFunction f).1.outline ⟨after, line⟩) := by
  refine ⟨?_, fun i s s' hs => outline_of_shapes i s i s' rfl hs, ?_⟩
  · intro s s' h
    -- a stream with the outline as its tokens
    let blank : Stream := ⟨(empty.outline (.ofSource s)).map fun p => ⟨p.1, p.2, 0⟩, 0⟩
    have hblank : shapes blank.tokens = empty.outline (.ofSource s) := by
      simp only [blank, shapes, List.map_map]
      exact List.map_id _
    exact (same_extend empty (.ofSource s) empty blank rfl hblank).join
      (same_extend empty (.ofSource s') empty blank rfl (hblank.trans h))
  · intro i first opening close sig inner after line f hfun ho hi hc hsig
    exact outline_function i after hfun ho hi hc hsig

/-- A function with keywords and a quoted brace in its body, and the same one laid out otherwise and empty. -/
theorem bodies_are_opaque_quoted :
    let s := "void f(float4 p : POSITION)\n\x7b struct \x7b register \x7d \"\x7d\" cbuffer; \x7d\nfloat4 g;"
    let s' := "void f ( float4 p : POSITION ) \x7b\x7d\n\nfloat4 g ;"
    empty.outline (.ofSource s) = empty.outline (.ofSource s') ∧ SameReading (parse s) (parse s') := by
  intro s s'
  have h : empty.outline (.ofSource s) = empty.outline (.ofSource s') := by decide +kernel
  exact ⟨h, bodies_are_opaque.1 s s' h⟩

end Interface

end ShaderBuild
