import ShaderBuild.Proofs.DeclarationShapes
/-!
# Where declarations end

A reader is `Sealed` if it goes on to a semicolon or a closing brace and sees nothing beyond it. Structs,
resources, functions and global variables are read so. A constant buffer may have a semicolon after its brace,
and a word that starts no declaration is passed over, unless it turns out to be a type with a template argument:
these two see the next token, and nothing else (`startingWith_cases`).
-/

namespace ShaderBuild

open Token

/-- The token can end a declaration. -/
def Token.Closing (t : Token) : Prop := t.kind = .semicolon ∨ t.kind = .blockClose

namespace Token.Reader

variable {α β : Type}

/-- On this stream the reader gives the same whatever comes after the next token. -/
def SteadyAt (r : Reader α) (s : Stream) : Prop :=
  ∀ a t, r s = .ok (a, t) → ∃ taken, s = ⟨taken ++ t.tokens, t.endLine⟩ ∧
    ∀ rest line, Ahead t.tokens rest → r ⟨taken ++ rest, line⟩ = .ok (a, ⟨rest, line⟩)

/-- On this stream the reader ends with a closing token, and gives the same whatever comes then. -/
def SealedAt (r : Reader α) (s : Stream) : Prop :=
  ∀ a t, r s = .ok (a, t) → ∃ taken last, s = ⟨taken ++ last :: t.tokens, t.endLine⟩ ∧ last.Closing ∧
    ∀ rest line, r ⟨taken ++ last :: rest, line⟩ = .ok (a, ⟨rest, line⟩)

/-- The reader ends with a closing token, and gives the same whatever comes then. -/
def Sealed (r : Reader α) : Prop := ∀ s, SealedAt r s

section Basic
variable {r : Reader α} {f : α → Reader β} {s : Stream}

theorem Alike.steadyAt (h : Alike Eq r r) (s : Stream) : SteadyAt r s := by
  intro a t hr
  obtain ⟨taken, hs, hok⟩ := (h s).ok a t hr
  refine ⟨taken, hs, fun rest line ha => ?_⟩
  obtain ⟨a', rfl, hr'⟩ := hok taken rest line rfl ha
  exact hr'

theorem SteadyAt.bind_sealed (h : SteadyAt r s) (hf : ∀ a t, r s = .ok (a, t) → SealedAt (f a) t) :
    SealedAt (r >>= f) s := by
  intro b u hb
  obtain ⟨a, t, h1, h2⟩ := bind_eq_ok hb
  obtain ⟨taken, rfl, hok⟩ := h a t h1
  obtain ⟨more, last, rfl, hl, hok'⟩ := hf a t h1 b u h2
  refine ⟨taken ++ more, last, by rw [List.append_assoc], hl, fun rest line => ?_⟩
  -- the next token is one that is taken afterwards
  have hahead : Ahead (more ++ last :: u.tokens) (more ++ last :: rest) := Ahead.append rfl rfl
  rw [List.append_assoc, bind_of_ok (hok _ line hahead)]
  exact hok' rest line

theorem Alike.bind_sealed (h : Alike Eq r r) (hf : ∀ a, Sealed (f a)) : Sealed (r >>= f) :=
  fun s => (h.steadyAt s).bind_sealed fun a t _ => hf a t

theorem SealedAt.bind_pure (h : SealedAt r s) (g : α → β) : SealedAt (r >>= fun a => pure (g a)) s := by
  intro b u hb
  obtain ⟨a, t, h1, h2⟩ := bind_eq_ok hb
  obtain ⟨rfl, rfl⟩ := Prod.mk.inj (Except.ok.inj h2)
  obtain ⟨taken, last, hs, hl, hok⟩ := h a t h1
  exact ⟨taken, last, hs, hl, fun rest line => by rw [bind_of_ok (hok rest line)]; rfl⟩

theorem Sealed.bind_pure (h : Sealed r) (g : α → β) : Sealed (r >>= fun a => pure (g a)) :=
  fun s => (h s).bind_pure g

theorem sealed_liftM_bind (x : Except Error α) (hf : ∀ a, Sealed (f a)) : Sealed (liftM x >>= f) := by
  intro s b u hb
  obtain ⟨a, t, h1, -⟩ := bind_eq_ok hb
  cases x with
  | error e => cases h1
  | ok a => exact hf a s b u hb

/-- The token that is there, of a kind that is not the end. -/
theorem exists_head {kind : Kind} (hk : kind ≠ .endOfInput) {s : Stream} (h : s.head.kind = kind) :
    ∃ last rest, s = ⟨last :: rest, s.endLine⟩ ∧ last.kind = kind := by
  obtain ⟨tokens, line⟩ := s
  cases tokens with
  | nil => exact absurd h.symm hk
  | cons last rest => exact ⟨last, rest, rfl, h⟩

theorem require_eq_ok {kind : Kind} (hk : kind ≠ .endOfInput) {error : Token → Error} {a : Token} {t : Stream}
    (h : require kind error s = .ok (a, t)) : s = ⟨a :: t.tokens, t.endLine⟩ ∧ a.kind = kind := by
  unfold require at h
  split at h
  · next hs =>
    obtain ⟨rfl, rfl⟩ := Prod.mk.inj (Except.ok.inj h)
    obtain ⟨last, rest, he, hl⟩ := exists_head hk hs
    rw [he]
    exact ⟨rfl, hl⟩
  · cases h

theorem steadyAt_require {kind : Kind} (hk : kind ≠ .endOfInput) (error : Token → Error) (s : Stream) :
    SteadyAt (require kind error) s := by
  intro a t h
  obtain ⟨hs, ha⟩ := require_eq_ok hk h
  exact ⟨[a], hs, fun rest line _ => if_pos ha⟩

theorem sealed_require {kind : Kind} (hk : kind = .semicolon ∨ kind = .blockClose) (error : Token → Error) :
    Sealed (require kind error) := by
  intro s a t h
  have hend : kind ≠ .endOfInput := by rcases hk with rfl | rfl <;> decide
  obtain ⟨hs, ha⟩ := require_eq_ok hend h
  exact ⟨[], a, hs, by rwa [Closing, ha], fun rest line => if_pos ha⟩

/-- What ends with a token of some kind, or is that token alone. -/
theorem sealedAt_accept {kind : Kind} (hk : kind = .semicolon ∨ kind = .blockClose) (a : α)
    (h : s.head.kind ≠ kind → SealedAt r s) : SealedAt (accept kind >>= fun b => if b then pure a else r) s := by
  have hend : kind ≠ .endOfInput := by rcases hk with rfl | rfl <;> decide
  by_cases hs : s.head.kind = kind
  · obtain ⟨last, rest, he, hl⟩ := exists_head hend hs
    have haccept : ∀ rest line, accept kind ⟨last :: rest, line⟩ = .ok (true, ⟨rest, line⟩) :=
      fun rest line => if_pos hl
    rw [he]
    intro b t hb
    rw [bind_of_ok (haccept rest _)] at hb
    obtain ⟨rfl, rfl⟩ := Prod.mk.inj (Except.ok.inj hb)
    refine ⟨[], last, rfl, by rwa [Closing, hl], fun rest line => ?_⟩
    rw [List.nil_append, bind_of_ok (haccept rest line)]
    rfl
  · refine ((alike_accept kind).steadyAt s).bind_sealed ?_
    intro found t ht
    rw [accept, if_neg hs] at ht
    obtain ⟨rfl, rfl⟩ := Prod.mk.inj (Except.ok.inj ht)
    exact h hs

theorem sealed_cut {f : List Token → Option (α × List Token)} (error : UInt32 → Error)
    (hf : ∀ ts a rest, f ts = some (a, rest) → ∃ taken last, ts = taken ++ last :: rest ∧ last.Closing ∧
      ∀ rest', f (taken ++ last :: rest') = some (a, rest')) : Sealed (cut f error) := by
  intro s a t h
  unfold cut at h
  split at h
  · next b rest hr =>
    obtain ⟨rfl, rfl⟩ := Prod.mk.inj (Except.ok.inj h)
    obtain ⟨taken, last, hs, hl, hok⟩ := hf _ _ _ hr
    refine ⟨taken, last, by rw [← hs], hl, fun rest' line => ?_⟩
    unfold cut
    rw [hok]
  · cases h

end Basic

theorem sealed_untilClosed {item : Reader α} (h : Consumes item) (ha : Alike Eq item item) :
    Sealed (untilClosed .blockClose item h) := by
  intro s
  -- by induction on the number of tokens, each item taking some of them
  induction hn : s.size using Nat.strongRecOn generalizing s with
  | _ n ih =>
    subst hn
    rw [untilClosed_eq]
    refine sealedAt_accept (.inr rfl) [] fun _ => (ha.steadyAt s).bind_sealed fun a t ht => ?_
    exact (ih t.size (h s a t ht) t rfl).bind_pure _

end Token.Reader

/-! ## Declarations -/

namespace Declaration

open Reader

theorem sealed_expect {kind : Kind} (hk : kind = .semicolon ∨ kind = .blockClose) : Sealed (expect kind) :=
  sealed_require hk _

/-- A statement is what comes before a semicolon. -/
theorem afterStatement_iff {ts rest : List Token} : afterStatement ts = some rest ↔
    ∃ inner close, ts = inner ++ close :: rest ∧ (∀ t ∈ inner, t.kind ≠ .semicolon) ∧ close.kind = .semicolon := by
  constructor
  · intro h
    induction ts with
    | nil => cases h
    | cons t ts ih =>
      rw [afterStatement] at h
      split at h
      · next hk =>
        obtain rfl := Option.some.inj h
        exact ⟨[], t, rfl, fun _ ht => absurd ht List.not_mem_nil, hk⟩
      · next hk =>
        obtain ⟨inner, close, rfl, hi, hc⟩ := ih h
        exact ⟨t :: inner, close, rfl, List.forall_mem_cons.2 ⟨hk, hi⟩, hc⟩
  · rintro ⟨inner, close, rfl, hi, hc⟩
    induction inner with
    | nil => exact if_pos hc
    | cons t inner ih =>
      obtain ⟨ht, hi⟩ := List.forall_mem_cons.1 hi
      rw [List.cons_append, afterStatement, if_neg ht, ih hi]

/-- What follows something that is passed over up to a closing token. -/
theorem sealed_passOver {g : List Token → Option (List Token)} (error : UInt32 → Error)
    (hg : ∀ ts rest, g ts = some rest → ∃ inner close, ts = inner ++ close :: rest ∧ close.Closing ∧
      ∀ rest', g (inner ++ close :: rest') = some rest') :
    Sealed (cut (fun ts => (g ts).map fun rest => ((), rest)) error) := by
  refine sealed_cut error fun ts a rest h => ?_
  obtain ⟨rest₀, h1, h2⟩ := Option.map_eq_some_iff.1 h
  obtain ⟨rfl, rfl⟩ := Prod.mk.inj h2
  obtain ⟨inner, close, hts, hc, hok⟩ := hg ts rest₀ h1
  exact ⟨inner, close, hts, hc, fun rest' => by rw [hok]; rfl⟩

theorem sealed_skipStatement (line : UInt32) : Sealed (skipStatement line) := by
  refine sealed_passOver _ fun ts rest h => ?_
  obtain ⟨inner, close, hts, hi, hc⟩ := afterStatement_iff.1 h
  exact ⟨inner, close, hts, .inl hc, fun rest' => afterStatement_iff.2 ⟨inner, close, rfl, hi, hc⟩⟩

theorem sealed_body (name : String) (line : UInt32) : Sealed (body name line) := by
  intro s
  refine sealedAt_accept (.inl rfl) () fun _ => (steadyAt_require (by decide) _ s).bind_sealed fun _ t _ => ?_
  refine sealed_passOver _ (fun ts rest h => ?_) t
  obtain ⟨inner, close, hts, hi, hc⟩ := afterBody_iff.1 h
  exact ⟨inner, close, hts, .inr hc, fun rest' => afterBody_iff.2 ⟨inner, close, rfl, hi, hc⟩⟩

theorem sealed_members : Sealed members :=
  fun s => (steadyAt_require (by decide) _ s).bind_sealed fun _ t _ => sealed_untilClosed _ alike_memberStatement t

theorem sealed_structAfter (line : UInt32) : Sealed (structAfter line) :=
  alike_word.bind_sealed fun _ => alike_members.bind_sealed fun _ => (sealed_expect (.inl rfl)).bind_pure _

theorem sealed_resourceAfter (kind : ResourceKind) (line : UInt32) : Sealed (resourceAfter kind line) :=
  alike_templateArgument.bind_sealed fun _ => alike_word.bind_sealed fun _ => alike_arraySize.bind_sealed fun _ =>
    (alike_register _).bind_sealed fun _ => (sealed_expect (.inl rfl)).bind_pure _

theorem sealed_functionAfter (types : TypeTable) (type : Token) : Sealed (functionAfter types type) := by
  refine sealed_liftM_bind _ fun returned => alike_word.bind_sealed fun name =>
    (alike_isNext .bracketOpen).bind_sealed fun found => ?_
  split
  · exact (alike_parameters types).bind_sealed fun _ => alike_semantic.bind_sealed fun _ =>
      (sealed_body _ _).bind_pure _
  · exact (sealed_skipStatement _).bind_pure _

/-- A constant buffer after its keyword, up to its closing brace. -/
def constantsBefore (line : UInt32) : Reader Declaration := do
  let name ← word
  let register ← register bufferBanks
  let members ← members
  pure (.constants line name register members)

theorem constantsAfter_eq (line : UInt32) :
    constantsAfter line = constantsBefore line >>= fun d => accept .semicolon >>= fun _ => pure d := by
  unfold constantsAfter constantsBefore
  simp only [bind_assoc, pure_bind]

theorem sealed_constantsBefore (line : UInt32) : Sealed (constantsBefore line) :=
  alike_word.bind_sealed fun _ => (alike_register _).bind_sealed fun _ => sealed_members.bind_pure _

theorem templateArgument_of_ne {s : Stream} (h : s.head.text ≠ "<") : templateArgument s = .ok (none, s) := by
  have hpeek : peek s = .ok (s.head, s) := rfl
  unfold templateArgument
  rw [bind_of_ok hpeek, if_neg h]
  rfl

theorem templateArgument_eq_none {s t : Stream} (h : templateArgument s = .ok (none, t)) : s.head.text ≠ "<" := by
  intro hs
  have hpeek : peek s = .ok (s.head, s) := rfl
  unfold templateArgument at h
  rw [bind_of_ok hpeek, if_pos hs] at h
  obtain ⟨_, _, -, h⟩ := bind_eq_ok h
  obtain ⟨_, _, -, h⟩ := bind_eq_ok h
  cases h

/-- With a template argument after it, a word is a type, and the statement is passed over. -/
theorem sealedAt_unknownAfter (line : UInt32) {s : Stream} (h : s.head.text = "<") : SealedAt (unknownAfter line) s := by
  refine (alike_templateArgument.steadyAt s).bind_sealed fun arg t ht => ?_
  cases arg with
  | none => exact absurd h (templateArgument_eq_none ht)
  | some arg => exact (sealed_skipStatement line t).bind_pure _

theorem unknownAfter_of_ne (line : UInt32) {s : Stream} (h : s.head.text ≠ "<") :
    unknownAfter line s = .ok (.other, s) := by
  unfold unknownAfter
  rw [bind_of_ok (templateArgument_of_ne h)]
  rfl

theorem unknownAfter_eq_other {line : UInt32} {s t : Stream} {d : Declaration} (h : unknownAfter line s = .ok (d, t)) :
    d = .other := by
  obtain ⟨arg, u, -, h⟩ := bind_eq_ok h
  cases arg with
  | none => exact (Prod.mk.inj (Except.ok.inj h)).1.symm
  | some arg =>
    obtain ⟨_, _, -, h⟩ := bind_eq_ok h
    exact (Prod.mk.inj (Except.ok.inj h)).1.symm

/-- How a declaration can see what follows it: not at all, or for the semicolon after a constant buffer, or for the
template argument of a word that starts no declaration. -/
theorem startingWith_cases (types : TypeTable) (first : Token) :
    Sealed (startingWith types first) ∨ startingWith types first = constantsAfter first.line ∨
      startingWith types first = unknownAfter first.line ∨ startingWith types first = pure .other := by
  unfold startingWith
  split
  · exact .inl (sealed_structAfter _)
  · exact .inr (.inl rfl)
  · split
    · exact .inl (sealed_resourceAfter _ _)
    · split
      · exact .inl (sealed_functionAfter types first)
      · exact .inr (.inr (.inl rfl))
  · exact .inr (.inr (.inr rfl))

end Declaration

end ShaderBuild
