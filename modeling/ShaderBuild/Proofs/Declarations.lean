import ShaderBuild.Proofs.Grammar
import ShaderBuild.Proofs.Reading
import ShaderBuild.Proofs.TypeIndex
/-!
# Reading written declarations

Each reader takes the words of what it is for, and gives what is reflected of them.
-/

namespace ShaderBuild.Written

open Token Reader

variable {P : Token → Prop}

/-! ## Parts of token lists -/

/-- A template argument ends at the bracket that matches its opening one. -/
theorem templateTokens_of_nest {ws : List Word} {depth : Nat}
    (h : ws.foldlM (nest (fun w => w.text == "<") fun w => w.text == ">") depth = some 0) {close : Word}
    (hc : close.text = ">") {ts : List Token} (ht : Spelled ts (ws ++ [close])) (rest : List Token) :
    ∃ arg, Declaration.templateTokens depth (ts ++ rest) = some (arg, rest) ∧ Spelled arg ws := by
  induction ws generalizing depth ts with
  | nil =>
    obtain rfl : depth = 0 := Option.some.inj h
    obtain ⟨t, after, rfl, hw, h2⟩ := spelled_cons ht
    obtain rfl := spelled_nil h2
    refine ⟨[], ?_, rfl⟩
    rw [List.singleton_append, Declaration.templateTokens, if_pos ((text_of_shape hw).trans hc)]
  | cons w ws ih =>
    obtain ⟨t, after, rfl, hw, h2⟩ := spelled_cons ht
    rw [List.foldlM_cons] at h
    obtain ⟨d, h1, h3⟩ := Option.bind_eq_some_iff.1 h
    obtain ⟨arg, ha, hs⟩ := ih h3 h2
    have hshape : Spelled (t :: arg) (w :: ws) := by
      rw [Spelled, List.map_cons, List.map_cons, hw, hs]
    refine ⟨t :: arg, ?_, hshape⟩
    simp only [nest, beq_iff_eq, ← text_of_shape hw] at h1
    rw [List.cons_append, Declaration.templateTokens.eq_def]
    dsimp only
    -- The reader asks for the closing bracket first, `nest` for the opening one.
    split at h1
    · next ho =>
      obtain rfl := Option.some.inj h1
      have hne : ¬ t.text = ">" := by rw [ho]; decide
      rw [if_neg hne, if_pos ho, ha]
      rfl
    · next ho =>
      split at h1
      · next hx =>
        rw [if_pos hx]
        cases depth with
        | zero => cases h1
        | succ inner =>
          obtain rfl : inner = d := Option.some.inj h1
          dsimp only
          rw [ha]
          rfl
      · next hx =>
        obtain rfl := Option.some.inj h1
        rw [if_neg hx, if_neg ho, ha]
        rfl

/-- A body ends at the brace that matches its opening one. -/
theorem afterBody_of_nest {ws : List Word} {depth : Nat}
    (h : ws.foldlM (nest (fun w => w.kind == .blockOpen) fun w => w.kind == .blockClose) depth = some 0)
    {close : Word} (hc : close.kind = .blockClose) {ts : List Token} (ht : Spelled ts (ws ++ [close]))
    (rest : List Token) :
    Declaration.afterBody depth (ts ++ rest) = some rest := by
  -- As many braces are open in the tokens as `nest` counts in the words.
  induction ws generalizing depth ts with
  | nil =>
    obtain rfl : depth = 0 := Option.some.inj h
    obtain ⟨t, after, rfl, hw, h2⟩ := spelled_cons ht
    obtain rfl := spelled_nil h2
    simp only [List.singleton_append, Declaration.afterBody, (kind_of_shape hw).trans hc]
  | cons w ws ih =>
    obtain ⟨t, after, rfl, hw, h2⟩ := spelled_cons ht
    rw [List.foldlM_cons] at h
    obtain ⟨d, h1, h3⟩ := Option.bind_eq_some_iff.1 h
    have ha := ih h3 h2
    simp only [nest, beq_iff_eq, ← kind_of_shape hw] at h1
    rw [List.cons_append, Declaration.afterBody.eq_def]
    dsimp only
    split
    · next ho =>
      rw [if_pos ho] at h1
      obtain rfl := Option.some.inj h1
      exact ha
    · next hx =>
      rw [hx, if_neg (by decide), if_pos rfl] at h1
      cases depth with
      | zero => cases h1
      | succ inner =>
        obtain rfl : inner = d := Option.some.inj h1
        exact ha
    · next ho hx =>
      rw [if_neg ho, if_neg hx] at h1
      obtain rfl := Option.some.inj h1
      exact ha

/-- A statement ends at its semicolon. -/
theorem afterStatement_of_kind {ws : List Word} (h : ∀ w ∈ ws, w.kind ≠ .semicolon) {ts : List Token}
    (ht : Spelled ts (ws ++ [semicolon])) (rest : List Token) :
    Declaration.afterStatement (ts ++ rest) = some rest := by
  induction ws generalizing ts with
  | nil =>
    obtain ⟨t, after, rfl, hw, h2⟩ := spelled_cons ht
    obtain rfl := spelled_nil h2
    exact if_pos (kind_of_shape hw)
  | cons w ws ih =>
    obtain ⟨t, after, rfl, hw, h2⟩ := spelled_cons ht
    have hne : ¬ t.kind = .semicolon := by
      rw [kind_of_shape hw]
      exact h w List.mem_cons_self
    rw [List.cons_append, Declaration.afterStatement, if_neg hne]
    exact ih (fun w hw => h w (List.mem_cons_of_mem _ hw)) h2

/-! ## Parts of declarations -/

theorem follows_optional {α : Type} {words : α → List Word} {Q : Token → Prop} {a : Option α}
    (h : ∀ a, Follows P (words a) Q) (h' : ∀ t, Q t → P t) : Follows P (optional words a) Q := by
  cases a with
  | none => exact follows_nil h'
  | some a => exact h a

theorem reads_word (n : Name) : Reads Declaration.word [n.word] n.text P :=
  Reads.require_map _ rfl fun _ h => text_of_shape h

theorem reads_semantic (s : Option Name) :
    Reads Declaration.semantic (optional semanticWords s) (s.map Name.text) (NotKind .colon) := by
  cases s with
  | none => exact Reads.after_none
  | some n => exact Reads.after_some rfl (reads_word n)

theorem reads_arraySize (s : Option ArraySize) :
    Reads Declaration.arraySize (optional ArraySize.words s) (s.map fun s => .ofNat s.numeral.value)
      (NotKind .squareOpen) := by
  cases s with
  | none => exact Reads.after_none
  | some s =>
    refine Reads.after_some rfl (Reads.require_bind _ rfl fun t ht => ?_)
    have hdigits : t.text.toList = s.numeral.digits := by
      rw [text_of_shape ht]
      exact String.toList_ofList
    rw [hdigits, s.numeral.decimalUpTo?_digits s.small]
    exact Reads.require_bind _ rfl fun _ _ => Reads.pure _

/-- What readers keep of tokens is in their words. -/
theorem texts_of_spelled {ts : List Token} {ws : List Word} (h : Spelled ts ws) :
    ts.map Token.text = ws.map Word.text := by
  have h2 := congrArg (List.map Prod.snd) h
  rwa [List.map_map, List.map_map] at h2

theorem reads_templateArgument (a : Option Template) :
    Reads Declaration.templateArgument (optional Template.words a) (a.map Template.text)
      fun t => t.text ≠ "<" := by
  cases a with
  | none =>
    refine Reads.peek_bind (follows_nil fun t ht => ht) fun t ht => ?_
    rw [if_neg ht]
    exact Reads.pure _
  | some a =>
    refine Reads.peek_bind (P := fun t => t.text = "<") (follows_cons fun t ht => text_of_shape ht) fun t ht => ?_
    rw [if_pos ht]
    refine Reads.next_bind fun _ _ => Reads.cut_bind fun ts rest hts => ?_
    obtain ⟨arg, ha, hs⟩ := templateTokens_of_nest a.balanced rfl hts rest
    exact ⟨arg, ha, by rw [texts_of_spelled hs]; rfl⟩

theorem Name.not_open (n : Name) (t : Token) (ht : t.shape = n.word.shape) : t.text ≠ "<" := by
  intro h
  have hn : n.text = "<" := (text_of_shape ht).symm.trans h
  exact absurd n.identifier (by rw [hn]; decide)

theorem registerOf_binding {banks : String} (b : Binding banks) {t : Token} (h : t.shape = b.name.word.shape) :
    Declaration.registerOf banks t = .ok b.register := by
  have htext : t.text.toList = b.bank :: b.slot.digits := by
    rw [text_of_shape h]
    exact String.toList_ofList
  rw [Declaration.registerOf, htext]
  dsimp only
  rw [if_pos (List.contains_iff_mem.2 b.bank_mem), b.slot.decimalUpTo?_digits b.small]
  rfl

theorem reads_register {banks : String} (b : Option (Binding banks)) :
    Reads (Declaration.register banks) (optional Binding.words b) (b.map Binding.register) (NotKind .colon) := by
  cases b with
  | none => exact Reads.after_none
  | some b =>
    refine Reads.after_some rfl (Reads.require_bind _ rfl fun _ _ => Reads.require_bind _ rfl fun _ _ =>
      Reads.require_bind _ rfl fun t ht => ?_)
    exact (Reads.liftM (registerOf_binding b ht)).bind (Reads.require_bind _ rfl fun _ _ => Reads.pure _)
      follows_anything

/-! ## Members -/

/-- What a suffix of a member must not be followed by. -/
def AfterMember (t : Token) : Prop := NotKind .squareOpen t ∧ NotKind .colon t

theorem isWordOf_of_mem {banned : List String} {n : Name} (h : n.text ∈ banned) {t : Token}
    (ht : t.shape = n.word.shape) : Declaration.isWordOf banned t = true := by
  have hk : t.kind = .identifier := kind_of_shape ht
  rw [Declaration.isWordOf, hk, text_of_shape ht]
  exact List.contains_iff_mem.2 h

theorem isWordOf_of_not_mem {banned : List String} {n : Name} (h : n.text ∉ banned) {t : Token}
    (ht : t.shape = n.word.shape) : Declaration.isWordOf banned t = false := by
  rw [Declaration.isWordOf, text_of_shape ht, Bool.and_eq_false_iff]
  exact .inr (Bool.eq_false_iff.2 fun hc => h (List.contains_iff_mem.1 hc))

/-- Words of a list are passed over. -/
theorem reads_skipWhile {banned : List String} {ns : List Name} (h : ∀ n ∈ ns, n.text ∈ banned) :
    Reads (skipWhile (Declaration.isWordOf banned)) (ns.map Name.word) ()
      fun t => Declaration.isWordOf banned t = false := by
  refine Reads.skipWhile fun w hw t ht => ?_
  obtain ⟨n, hn, rfl⟩ := List.mem_map.1 hw
  exact isWordOf_of_mem (h n hn) ht

/-- What the words after some names begin with, they do too if each name does. -/
theorem follows_names {Q : Token → Prop} {ns : List Name} {ws : List Word}
    (h : ∀ n ∈ ns, ∀ t : Token, t.shape = n.word.shape → P t) (h' : Follows P ws Q) :
    Follows P (ns.map Name.word ++ ws) Q := by
  cases ns with
  | nil => exact h'
  | cons n ns => exact follows_cons (h n List.mem_cons_self)

/-- The array size and the semantic of a member. -/
theorem reads_suffix {β : Type} (size : Option ArraySize) (s : Option Name) (g : Option UInt32 → Option String → β) :
    Reads (do let size ← Declaration.arraySize; let s ← Declaration.semantic; pure (g size s))
      (optional ArraySize.words size ++ optional semanticWords s)
      (g (size.map fun s => .ofNat s.numeral.value) (s.map Name.text)) AfterMember := by
  refine (reads_arraySize size).bind (((reads_semantic s).bind_pure _).mono fun t ht => ht.2) ?_
  exact follows_optional (fun _ => follows_kind (by decide)) fun t ht => ht.1

theorem reads_member {m : Member} (h : m.type.text ∉ Declaration.typeModifiers) :
    Reads Declaration.member m.words m.spec AfterMember := by
  refine (reads_skipWhile m.modifiers_mem).bind ?_ (follows_cons fun t ht => isWordOf_of_not_mem h ht)
  refine (reads_word m.type).bind ?_ follows_anything
  refine (reads_word m.name).bind ?_ follows_anything
  exact reads_suffix m.size m.semantic fun size s => MemberSpec.mk m.type.text m.name.text s (size.getD 1)

theorem reads_memberStatement {m : Member} (h : m.type.text ∉ Declaration.typeModifiers) :
    Reads Declaration.memberStatement (m.words ++ [semicolon]) m.spec P := by
  refine (reads_member h).bind (Reads.require_bind _ rfl fun _ _ => Reads.pure _) ?_
  exact (follows_kind (by decide)).and (follows_kind (by decide))

/-- A member starts with a name. -/
theorem follows_member {Q : Token → Prop} (h : ∀ t : Token, t.kind = .identifier → P t) (m : Member)
    (ws : List Word) : Follows P (m.words ++ ws) Q := by
  rw [Member.words, List.append_assoc]
  exact follows_names (fun _ _ t ht => h t (kind_of_shape ht)) (follows_cons fun t ht => h t (kind_of_shape ht))

theorem notKind_of_identifier {kind : Kind} (h : kind ≠ .identifier) (t : Token) (ht : t.kind = .identifier) :
    NotKind kind t :=
  fun hk => h (hk.symm.trans ht)

theorem reads_members {ms : List Member} (h : ∀ m ∈ ms, m.type.text ∉ Declaration.typeModifiers) :
    Reads Declaration.members (Member.list ms) (ms.map Member.spec) P :=
  Reads.require_bind _ rfl fun _ _ =>
    Reads.untilClosed _ _ _ rfl (fun m hm => reads_memberStatement (h m hm))
      fun m _ => follows_member (notKind_of_identifier (by decide)) m [semicolon]

/-! ## Parameters -/

theorem reads_unreflected (u : Unreflected) : Reads Declaration.opaqueParameter u.words () AfterMember := by
  refine Reads.next_bind fun _ _ => ?_
  refine (reads_templateArgument u.argument).bind ((reads_word u.name).bind ?_ follows_anything)
    (follows_cons u.name.not_open)
  exact reads_suffix u.size u.semantic fun _ _ => ()

theorem ordinary_typeModifiers :
    ∀ word ∈ Declaration.typeModifiers, word ∉ Declaration.primitiveModifiers ∧ word ∉ Declaration.stageTypes ∧
      ResourceKind.ofKeyword? word = none := by decide

theorem ordinary_primitiveModifiers :
    ∀ word ∈ Declaration.primitiveModifiers, word ∉ Declaration.typeModifiers ∧ word ∉ Declaration.stageTypes ∧
      ResourceKind.ofKeyword? word = none := by decide

/-- The type of a parameter that is not reflected is no modifier. -/
theorem Unreflected.not_modifier (u : Unreflected) :
    u.type.text ∉ Declaration.typeModifiers ∧ u.type.text ∉ Declaration.primitiveModifiers := by
  refine ⟨fun h => ?_, fun h => ?_⟩
  · obtain ⟨-, hs, hr⟩ := ordinary_typeModifiers _ h
    exact u.unreflected.elim (fun hu => by rw [hr] at hu; cases hu) hs
  · obtain ⟨-, hs, hr⟩ := ordinary_primitiveModifiers _ h
    exact u.unreflected.elim (fun hu => by rw [hr] at hu; cases hu) hs

/-- The two lists of modifiers are passed over, if what follows starts with neither. -/
theorem reads_modifiers {β : Type} {ms ps : List Name} (hm : ∀ m ∈ ms, m.text ∈ Declaration.typeModifiers)
    (hp : ∀ p ∈ ps, p.text ∈ Declaration.primitiveModifiers) {ws : List Word} {r : Reader β} {b : β}
    (hr : Reads r ws b P)
    (h1 : ps = [] → Follows (fun t => Declaration.isWordOf Declaration.typeModifiers t = false) ws P)
    (h2 : Follows (fun t => Declaration.isWordOf Declaration.primitiveModifiers t = false) ws P) :
    Reads (do
      skipWhile (Declaration.isWordOf Declaration.typeModifiers)
      skipWhile (Declaration.isWordOf Declaration.primitiveModifiers)
      r) (ms.map Name.word ++ (ps.map Name.word ++ ws)) b P := by
  refine (reads_skipWhile hm).bind ((reads_skipWhile hp).bind hr h2) ?_
  cases ps with
  | nil => exact h1 rfl
  | cons p ps =>
    exact follows_cons fun t ht =>
      isWordOf_of_not_mem (ordinary_primitiveModifiers _ (hp p List.mem_cons_self)).1 ht

/-! ## Types -/

theorem resolve?_spec {types : TypeTable} (hs : types.InStep) {m : Member}
    (h : types.contains m.type.text = true) : types.resolve? m.spec = some (m.resolved types) := by
  rw [TypeTable.resolve?, Member.spec, hs.idOf?_of_contains h]
  rfl

theorem resolveAll?_specs {types : TypeTable} (hs : types.InStep) {ms : List Member}
    (h : ∀ m ∈ ms, types.contains m.type.text = true) :
    types.resolveAll? (ms.map Member.spec) = some (ms.map (Member.resolved types)) := by
  induction ms with
  | nil => rfl
  | cons m ms ih =>
    obtain ⟨hm, hms⟩ := List.forall_mem_cons.1 h
    exact TypeTable.resolveAll?_cons_eq_some.2 ⟨_, _, resolve?_spec hs hm, ih hms, rfl⟩

/-- Every type of a table has an ordinary name, and its position is entered under it. -/
structure OrdinaryTypes (types : TypeTable) : Prop where
  names : ∀ type ∈ types.types, Ordinary type.name
  inStep : types.InStep

theorem OrdinaryTypes.of_contains {types : TypeTable} (h : OrdinaryTypes types) {name : String}
    (hc : types.contains name = true) : Ordinary name := by
  obtain ⟨type, hm, rfl⟩ := h.inStep.contains_iff.1 hc
  exact h.names type hm

theorem ordinaryTypes_primitive : OrdinaryTypes .primitive := by
  refine ⟨fun type hm => ?_, TypeTable.inStep_primitive⟩
  rw [TypeTable.types_primitive] at hm
  obtain ⟨p, hp, rfl⟩ := List.mem_map.1 hm
  exact ⟨(by decide : ∀ p ∈ TypeTable.primitives, p.1 ∉ Declaration.typeModifiers) p hp,
    (by decide : ∀ p ∈ TypeTable.primitives, p.1 ∉ Declaration.primitiveModifiers) p hp,
    (by decide : ∀ p ∈ TypeTable.primitives, p.1 ∉ Declaration.stageTypes) p hp,
    (by decide : ∀ p ∈ TypeTable.primitives, ResourceKind.ofKeyword? p.1 = none) p hp,
    (by decide : ∀ p ∈ TypeTable.primitives, p.1 ≠ "void") p hp⟩

/-- A struct with a fresh name keeps them so. -/
theorem ordinaryTypes_after {types : TypeTable} (h : OrdinaryTypes types) {d : Declaration} (hd : d.Fits types) :
    OrdinaryTypes (d.after types) := by
  cases d with
  | struct name members =>
    refine ⟨fun type hm => ?_, h.inStep.insert hd.1.unknown⟩
    rcases List.mem_append.1 hm with hm | hm
    · exact h.names type hm
    · rw [List.mem_singleton.1 hm]
      exact hd.1.ordinary
  | _ => exact h

/-! ## Parameters of known types -/

/-- Is this word the type of a parameter that is not reflected? -/
def isUnreflected (word : String) : Bool :=
  (ResourceKind.ofKeyword? word).isSome || Declaration.stageTypes.contains word

/-- A parameter after its modifiers. -/
def subject (types : TypeTable) : Reader (Option ShaderBuild.Member) := do
  let t ← peek
  if isUnreflected t.text then do
    Declaration.opaqueParameter
    pure none
  else do
    let spec ← Declaration.member
    match types.resolve? spec with
    | none => throw (.declaration t.line (.unknownMemberType spec.typeName spec.name))
    | some m => pure (some m)

theorem parameter_eq (types : TypeTable) :
    Declaration.parameter types = (do
      skipWhile (Declaration.isWordOf Declaration.typeModifiers)
      skipWhile (Declaration.isWordOf Declaration.primitiveModifiers)
      subject types) := rfl

theorem isUnreflected_eq_false {word : String} (hr : ResourceKind.ofKeyword? word = none)
    (hs : word ∉ Declaration.stageTypes) : isUnreflected word = false := by
  rw [isUnreflected, hr, List.contains_eq_mem, decide_eq_false hs]
  rfl

theorem reads_subject_member {types : TypeTable} (h : OrdinaryTypes types) {m : Member}
    (hc : types.contains m.type.text = true) :
    Reads (subject types) m.words (some (m.resolved types)) AfterMember := by
  have ho := h.of_contains hc
  have hstart : Follows (fun t => isUnreflected t.text = false) m.words AfterMember := by
    refine follows_names (fun n hn t ht => ?_) (follows_cons fun t ht => ?_)
    · obtain ⟨-, hs, hr⟩ := ordinary_typeModifiers _ (m.modifiers_mem n hn)
      rw [show t.text = n.text from text_of_shape ht]
      exact isUnreflected_eq_false hr hs
    · rw [show t.text = m.type.text from text_of_shape ht]
      exact isUnreflected_eq_false ho.resource ho.stage
  refine Reads.peek_bind hstart fun t ht => ?_
  rw [if_neg (Bool.eq_false_iff.1 ht)]
  refine (reads_member ho.modifier).bind_nil ?_
  rw [resolve?_spec h.inStep hc]
  exact Reads.pure _

theorem reads_subject_unreflected (types : TypeTable) (u : Unreflected) :
    Reads (subject types) u.words none AfterMember := by
  have hstart : Follows (fun t => isUnreflected t.text = true) u.words AfterMember := by
    refine follows_cons fun t ht => ?_
    rw [show t.text = u.type.text from text_of_shape ht, isUnreflected, Bool.or_eq_true, List.contains_iff_mem]
    exact u.unreflected
  refine Reads.peek_bind hstart fun t ht => ?_
  rw [if_pos ht]
  exact (reads_unreflected u).bind_nil (Reads.pure _)

/-- Without primitive modifiers, the modifiers on either side of them are one list. -/
theorem reads_parameter {types : TypeTable} (h : OrdinaryTypes types) {p : Parameter}
    (hc : ∀ n ∈ p.type?, types.contains n.text = true) :
    Reads (Declaration.parameter types) p.words (p.resolved types) AfterMember := by
  obtain ⟨ms, hms, ps, hps, subject⟩ := p
  rw [parameter_eq]
  cases subject with
  | inl m =>
    have hm := hc m.type rfl
    have ho := h.of_contains hm
    have htype : ∀ t : Token, t.shape = m.type.word.shape →
        Declaration.isWordOf Declaration.primitiveModifiers t = false :=
      fun t ht => isWordOf_of_not_mem ho.primitive ht
    cases ps with
    | nil =>
      -- The first reader takes the modifiers of the member too.
      have hbare : Reads (Written.subject types) m.bare (some (m.resolved types)) AfterMember :=
        reads_subject_member h (m := { m with modifiers := [], modifiers_mem := by simp }) hm
      have hall : ∀ n ∈ ms ++ m.modifiers, n.text ∈ Declaration.typeModifiers :=
        fun n hn => (List.mem_append.1 hn).elim (hms n) (m.modifiers_mem n)
      have hr := reads_modifiers hall hps hbare
        (fun _ => follows_cons fun t ht => isWordOf_of_not_mem ho.modifier ht) (follows_cons htype)
      rwa [List.map_append, List.append_assoc] at hr
    | cons q qs =>
      refine reads_modifiers hms hps (reads_subject_member h hm) (fun hn => nomatch hn)
        (follows_names (fun n hn t ht => ?_) (follows_cons htype))
      exact isWordOf_of_not_mem (ordinary_typeModifiers _ (m.modifiers_mem n hn)).1 ht
  | inr u =>
    exact reads_modifiers hms hps (reads_subject_unreflected types u)
      (fun _ => follows_cons fun t ht => isWordOf_of_not_mem u.not_modifier.1 ht)
      (follows_cons fun t ht => isWordOf_of_not_mem u.not_modifier.2 ht)

/-! ## Functions and global variables -/

/-- A parameter starts with a name, which is not `void`. -/
theorem follows_parameter {types : TypeTable} (h : OrdinaryTypes types) {p : Parameter}
    (hc : ∀ n ∈ p.type?, types.contains n.text = true) (ws : List Word) :
    Follows (fun t => t.kind = .identifier ∧ t.text ≠ "void") (p.words ++ ws) P := by
  have hname : ∀ n : Name, n.text ≠ "void" → ∀ t : Token, t.shape = n.word.shape →
      t.kind = .identifier ∧ t.text ≠ "void" :=
    fun n hn t ht => ⟨kind_of_shape ht, fun hv => hn ((text_of_shape ht).symm.trans hv)⟩
  have hmodifier : ∀ n : Name, n.text ∈ Declaration.typeModifiers → n.text ≠ "void" :=
    fun n hn => (by decide : ∀ word ∈ Declaration.typeModifiers, word ≠ "void") n.text hn
  have hprimitive : ∀ n : Name, n.text ∈ Declaration.primitiveModifiers → n.text ≠ "void" :=
    fun n hn => (by decide : ∀ word ∈ Declaration.primitiveModifiers, word ≠ "void") n.text hn
  obtain ⟨ms, hms, ps, hps, subject⟩ := p
  rw [Parameter.words, List.append_assoc, List.append_assoc]
  refine follows_names (fun n hn => hname n (hmodifier n (hms n hn))) ?_
  refine follows_names (fun n hn => hname n (hprimitive n (hps n hn))) ?_
  cases subject with
  | inl m =>
    dsimp only [Sum.elim_inl]
    rw [Member.words, List.append_assoc]
    refine follows_names (fun n hn => hname n (hmodifier n (m.modifiers_mem n hn))) (follows_cons ?_)
    exact hname m.type (h.of_contains (hc m.type rfl)).void
  | inr u =>
    refine follows_cons (hname u.type fun hv => ?_)
    have hu := u.unreflected
    rw [hv] at hu
    exact absurd hu (by decide)

theorem reads_parameters {types : TypeTable} (h : OrdinaryTypes types) {ps : Parameters}
    (hc : ∀ p ∈ ps.list, ∀ n ∈ p.type?, types.contains n.text = true) :
    Reads (Declaration.parameters types) ps.words (ps.list.filterMap (Parameter.resolved types)) P := by
  refine Reads.require_bind _ rfl fun _ _ => ?_
  cases ps with
  | none => exact (Reads.accept_true rfl).bind (Reads.pure []) follows_anything
  | void =>
    refine Reads.accept_false.bind (Reads.peek_bind (P := fun t => t.text = "void") ?_ fun t ht => ?_) ?_
    · exact follows_cons fun t ht => text_of_shape ht
    · rw [if_pos ht]
      exact Reads.next_bind fun _ _ => Reads.require_bind _ rfl fun _ _ => Reads.pure []
    · exact follows_kind (by decide)
  | some first others =>
    have hstart : Follows (fun t => t.kind = .identifier ∧ t.text ≠ "void")
        ((Parameters.some first others).inner ++ [bracketClose]) P := by
      rw [Parameters.inner, List.append_assoc]
      exact follows_parameter h (hc first List.mem_cons_self) _
    -- The bracket is not closed at once, and `void` is not the only word.
    refine Reads.accept_false.bind (Reads.peek_bind hstart fun t ht => ?_) fun ts rest line hts hq => ?_
    · rw [if_neg ht.2]
      refine (Reads.separated _ Parameter.words (Parameter.resolved types) (P := AfterMember) rfl (fun t ht => ?_)
        fun p hp => reads_parameter h (hc p hp)).bind (Reads.require_bind _ rfl fun _ _ => ?_) ?_
      · exact ⟨notKind_of_shape (by decide) t ht, notKind_of_shape (by decide) t ht⟩
      · rw [List.filterMap_map]
        exact Reads.pure _
      · have hk : ∀ kind : Kind, kind ≠ .bracketClose → Follows (NotKind kind) [bracketClose] P :=
          fun kind hk => follows_kind (Ne.symm hk)
        exact ((hk _ (by decide)).and (hk _ (by decide))).and (hk _ (by decide))
    · exact notKind_of_identifier (by decide) _ (hstart ts rest line hts hq).1

theorem reads_body (name : String) (line : UInt32) (b : Option Body) :
    Reads (Declaration.body name line) (b.elim [semicolon] Body.words) () P := by
  cases b with
  | none => exact (Reads.accept_true rfl).bind (Reads.pure ()) follows_anything
  | some b =>
    refine Reads.accept_false.bind (Reads.require_bind _ rfl fun _ _ => ?_)
      (follows_kind (by decide))
    refine Reads.cut (fun ts rest hts => ?_)
    rw [afterBody_of_nest b.balanced rfl hts]
    rfl

theorem returnType_word {types : TypeTable} (h : OrdinaryTypes types) {n : Option Name}
    (hn : ∀ m ∈ n, types.contains m.text = true) {t : Token} (ht : t.shape = (returnWord n).shape) :
    Declaration.returnType types t = .ok (n.map fun m => .ofNat (types.types.findIdx (·.name == m.text))) := by
  have htext : t.text = (returnWord n).text := text_of_shape ht
  cases n with
  | none => exact if_pos htext
  | some m =>
    have hm := hn m rfl
    have htext : t.text = m.text := htext
    rw [Declaration.returnType, htext, if_neg (h.of_contains hm).void, h.inStep.idOf?_of_contains hm]
    rfl

theorem reads_function {types : TypeTable} (h : OrdinaryTypes types) {f : Function}
    (hf : (Declaration.function f).Fits types) {t : Token} (ht : t.shape = (returnWord f.returns).shape) :
    Reads (Declaration.functionAfter types t)
      (f.name.word ::
        (f.parameters.words ++ (optional semanticWords f.semantic ++ f.body.elim [semicolon] Body.words)))
      (.function (f.resolved types t.line)) P := by
  refine (Reads.liftM (returnType_word h hf.1 ht)).bind ?_ follows_anything
  refine (reads_word f.name).bind ?_ follows_anything
  refine Reads.isNext_true.bind ?_ (follows_cons fun t ht => kind_of_shape ht)
  refine (reads_parameters h hf.2).bind ?_ follows_anything
  refine (reads_semantic f.semantic).bind ((reads_body _ _ f.body).bind_pure _) ?_
  cases f.body with
  | none => exact follows_kind (by decide)
  | some b => exact follows_kind (by decide)

theorem reads_skipStatement (line : UInt32) {ws : List Word} (h : ∀ w ∈ ws, w.kind ≠ .semicolon) :
    Reads (Declaration.skipStatement line) (ws ++ [semicolon]) () P := by
  refine Reads.cut fun ts rest hts => ?_
  rw [afterStatement_of_kind h hts]
  rfl

theorem reads_global {types : TypeTable} (h : OrdinaryTypes types) {g : Global}
    (hg : types.contains g.type.text = true) {t : Token} (ht : t.shape = g.type.word.shape) :
    Reads (Declaration.functionAfter types t) (g.name.word :: (g.rest ++ [semicolon])) .other P := by
  have hn : ∀ m ∈ some g.type, types.contains m.text = true := fun m hm => Option.some.inj hm ▸ hg
  refine (Reads.liftM (returnType_word h hn ht)).bind ?_ follows_anything
  refine (reads_word g.name).bind ?_ follows_anything
  refine Reads.isNext_false.bind ((reads_skipStatement _ g.rest_kind).bind_pure _) ?_
  cases hr : g.rest with
  | nil => exact follows_kind (by decide)
  | cons w ws => exact follows_kind (g.rest_head w (by rw [hr]; rfl))

/-! ## Declarations -/

theorem ofWord_keyword (k : ResourceKind) : Kind.ofWord k.keyword = .identifier := by cases k <;> decide

/-- A known type or `void` starts a function or a variable. -/
theorem startingWith_type {types : TypeTable} (h : OrdinaryTypes types) {n : Option Name}
    (hn : ∀ m ∈ n, types.contains m.text = true) {t : Token} (ht : t.shape = (returnWord n).shape) :
    Declaration.startingWith types t = Declaration.functionAfter types t := by
  have hkind := kind_of_shape ht
  have htext := text_of_shape ht
  cases n with
  | none =>
    have htext : t.text = "void" := htext
    rw [Declaration.startingWith, hkind.trans (show _ = Kind.identifier by decide), htext,
      show ResourceKind.ofKeyword? "void" = none by decide]
    exact if_pos (.inl rfl)
  | some m =>
    have hkind : t.kind = .identifier := hkind
    have htext : t.text = m.text := htext
    rw [Declaration.startingWith, hkind, htext, (h.of_contains (hn m rfl)).resource]
    exact if_pos (.inr (hn m rfl))

/-- A declaration is read after its first word. Only a constant buffer without a semicolon needs to know what
follows it. -/
theorem reads_declaration {types : TypeTable} (h : OrdinaryTypes types) {d : Declaration} (hd : d.Fits types)
    {w : Word} {ws : List Word} (hw : d.words = w :: ws) {t : Token} (ht : t.shape = w.shape) :
    Reads (Declaration.startingWith types t) ws (d.read types t.line) (NotKind .semicolon) := by
  have hkind := kind_of_shape ht
  have htext := text_of_shape ht
  cases d with
  | struct name members =>
    obtain ⟨rfl, rfl⟩ := List.cons.inj hw
    rw [Declaration.startingWith, hkind.trans (show _ = Kind.struct by decide)]
    refine (reads_word name).bind ?_ follows_anything
    refine (reads_members fun m hm => (h.of_contains (hd.2 m hm)).modifier).bind ?_ follows_anything
    exact Reads.require_bind _ rfl fun _ _ => Reads.pure _
  | constants buffer name register members closed =>
    obtain ⟨rfl, rfl⟩ := List.cons.inj hw
    rw [Declaration.startingWith, hkind.trans (show _ = Kind.cbuffer by cases buffer <;> decide)]
    refine (reads_word name).bind ((reads_register register).bind ?_ ?_) follows_anything
    · refine (reads_members fun m hm => (h.of_contains (hd m hm)).modifier).bind ?_ follows_anything
      -- Without its semicolon the buffer ends here, and what follows must not look like one.
      cases closed with
      | true => exact Reads.bind_pure (Reads.accept_true rfl) _
      | false => exact Reads.bind_pure Reads.accept_false _
    · exact follows_kind (by decide)
  | resource kind argument name size register =>
    obtain ⟨rfl, rfl⟩ := List.cons.inj hw
    have htext : t.text = kind.keyword := htext
    rw [Declaration.startingWith, hkind.trans (ofWord_keyword kind)]
    dsimp only
    rw [htext, ResourceKind.ofKeyword?_keyword]
    refine (reads_templateArgument argument).bind ((reads_word name).bind ?_ follows_anything)
      (follows_cons name.not_open)
    refine (reads_arraySize size).bind ((reads_register register).bind ?_ ?_) ?_
    · exact Reads.require_bind _ rfl fun _ _ => Reads.pure _
    · exact follows_kind (by decide)
    · cases register with
      | none => exact follows_kind (by decide)
      | some b => exact follows_kind (by decide)
  | function f =>
    obtain ⟨rfl, rfl⟩ := List.cons.inj hw
    rw [startingWith_type h hd.1 ht]
    exact reads_function h hd ht
  | global g =>
    obtain ⟨rfl, rfl⟩ := List.cons.inj hw
    have hn : ∀ m ∈ some g.type, types.contains m.text = true := fun m hm => Option.some.inj hm ▸ hd
    rw [startingWith_type h hn ht]
    exact reads_global h hd ht

end ShaderBuild.Written
