import ShaderBuild.Proofs.Reading
/-!
# Readers see shapes

`Alike` says of two readers that they do the same on tokens of the same shapes: where one takes some tokens,
the other takes as many, gives the same, and leaves the rest, whatever is there beyond the next token; where
one fails, so does the other, with the same message. So a reader sees neither lines nor what is further on.

There is one lemma for each way to make readers. `AlikeAt` is about one stream, for the loops, which go on
with what an item has left.
-/

namespace ShaderBuild.Token

/-- Two errors in declarations, on any lines, with the same message. -/
def SameMessage (e e' : Error) : Prop :=
  ∃ line line' fault fault', e = .declaration line fault ∧ e' = .declaration line' fault' ∧
    fault.message = fault'.message

theorem SameMessage.symm {e e' : Error} (h : SameMessage e e') : SameMessage e' e := by
  obtain ⟨line, line', fault, fault', h1, h2, h3⟩ := h
  exact ⟨line', line, fault', fault, h2, h1, h3.symm⟩

theorem SameMessage.trans {e e' e'' : Error} (h : SameMessage e e') (h' : SameMessage e' e'') :
    SameMessage e e'' := by
  obtain ⟨line, line', fault, fault', h1, rfl, h3⟩ := h
  obtain ⟨_, line'', _, fault'', h4, h5, h6⟩ := h'
  obtain ⟨-, rfl⟩ := Error.declaration.inj h4
  exact ⟨line, line'', fault, fault'', h1, h5, h3.trans h6⟩

theorem sameMessage (line line' : UInt32) {fault fault' : DeclarationFault} (h : fault.message = fault'.message) :
    SameMessage (.declaration line fault) (.declaration line' fault') :=
  ⟨line, line', fault, fault', rfl, rfl, h⟩

/-- Both give something, and these are related, or both fail with the same message. -/
inductive SameResult {α α' : Type} (R : α → α' → Prop) : Except Error α → Except Error α' → Prop
  | ok {a a'} (h : R a a') : SameResult R (.ok a) (.ok a')
  | error {e e'} (h : SameMessage e e') : SameResult R (.error e) (.error e')

/-- The shapes of some tokens. -/
def shapes (ts : List Token) : List (Kind × String) := ts.map shape

/-- The next tokens have the same shape, or there is none in both places. -/
def Ahead (ts ts' : List Token) : Prop := ts.head?.map shape = ts'.head?.map shape

theorem ahead_of_shapes {ts ts' : List Token} (h : shapes ts = shapes ts') : Ahead ts ts' := by
  unfold Ahead
  rw [← List.head?_map, ← List.head?_map]
  exact congrArg List.head? h

theorem Ahead.append {ts ts' rest rest' : List Token} (h : shapes ts' = shapes ts) (hr : Ahead rest rest') :
    Ahead (ts ++ rest) (ts' ++ rest') := by
  cases ts with
  | nil =>
    obtain rfl := List.map_eq_nil_iff.1 h
    exact hr
  | cons t ts =>
    obtain ⟨t', ts', rfl, ht, -⟩ := List.map_eq_cons_iff.1 h
    exact congrArg some ht.symm

theorem shape_head {s s' : Stream} (h : Ahead s.tokens s'.tokens) : s.head.shape = s'.head.shape := by
  obtain ⟨ts, line⟩ := s
  obtain ⟨ts', line'⟩ := s'
  cases ts with
  | nil =>
    cases ts' with
    | nil => rfl
    | cons => cases h
  | cons t ts =>
    cases ts' with
    | nil => cases h
    | cons t' ts' => exact Option.some.inj h

theorem kind_eq {t t' : Token} (h : t.shape = t'.shape) : t.kind = t'.kind := congrArg Prod.fst h

theorem text_eq {t t' : Token} (h : t.shape = t'.shape) : t.text = t'.text := congrArg Prod.snd h

namespace Reader

variable {α α' β β' : Type}

/-- On this stream the first reader does what the second one does on streams that look the same. -/
structure AlikeAt (R : α → α' → Prop) (r : Reader α) (r' : Reader α') (s : Stream) : Prop where
  ok : ∀ a t, r s = .ok (a, t) → ∃ taken, s = ⟨taken ++ t.tokens, t.endLine⟩ ∧
    ∀ taken' rest' line', shapes taken' = shapes taken → Ahead t.tokens rest' →
      ∃ a', R a a' ∧ r' ⟨taken' ++ rest', line'⟩ = .ok (a', ⟨rest', line'⟩)
  error : ∀ e, r s = .error e → ∀ s' : Stream, shapes s'.tokens = shapes s.tokens →
    ∃ e', SameMessage e e' ∧ r' s' = .error e'

/-- The first reader does what the second one does on streams that look the same. -/
def Alike (R : α → α' → Prop) (r : Reader α) (r' : Reader α') : Prop := ∀ s, AlikeAt R r r' s

section Basic
variable {R : α → α' → Prop} {Q : β → β' → Prop} {r : Reader α} {r' : Reader α'} {f : α → Reader β}
  {f' : α' → Reader β'} {s : Stream}

theorem bind_of_ok {a : α} {t : Stream} (h : r s = .ok (a, t)) : (r >>= f) s = f a t := by
  simp only [Bind.bind, StateT.bind, Except.bind, h]

theorem bind_of_error {e : Error} (h : r s = .error e) : (r >>= f) s = .error e := by
  simp only [Bind.bind, StateT.bind, Except.bind, h]

theorem AlikeAt.bind (h : AlikeAt R r r' s)
    (hf : ∀ a a' t, r s = .ok (a, t) → R a a' → AlikeAt Q (f a) (f' a') t) :
    AlikeAt Q (r >>= f) (r' >>= f') s := by
  constructor
  · intro b u hb
    obtain ⟨a, t, h1, h2⟩ := bind_eq_ok hb
    obtain ⟨taken, rfl, hok⟩ := h.ok a t h1
    -- what the second reader takes does not matter here, it depends on the value that it is given
    have htaken : ∀ a', R a a' → ∃ more, t = ⟨more ++ u.tokens, u.endLine⟩ :=
      fun a' ha => (AlikeAt.ok (hf a a' t h1 ha) b u h2).imp fun _ => And.left
    obtain ⟨a₀, ha₀, -⟩ := hok taken t.tokens 0 rfl rfl
    obtain ⟨more, rfl⟩ := htaken a₀ ha₀
    refine ⟨taken ++ more, by rw [List.append_assoc], ?_⟩
    intro taken' rest' line' hs hrest
    obtain ⟨taken', more', rfl, hs1, hs2⟩ := List.map_eq_append_iff.1 (hs.trans List.map_append)
    obtain ⟨a', ha, hr⟩ := hok taken' (more' ++ rest') line' hs1 (hrest.append hs2)
    obtain ⟨more₂, he, hok'⟩ := (hf a a' _ h1 ha).ok b u h2
    obtain rfl := List.append_cancel_right (Stream.mk.inj he).1
    obtain ⟨b', hb', hr'⟩ := hok' more' rest' line' hs2 hrest
    rw [List.append_assoc, bind_of_ok hr]
    exact ⟨b', hb', hr'⟩
  · intro e he s' hs
    cases hr : r s with
    | error e₀ =>
      obtain ⟨e', hee, hr'⟩ := h.error e₀ hr s' hs
      rw [bind_of_error hr] at he
      obtain rfl := Except.error.inj he
      exact ⟨e', hee, bind_of_error hr'⟩
    | ok p =>
      obtain ⟨a, t⟩ := p
      obtain ⟨taken, rfl, hok⟩ := h.ok a t hr
      obtain ⟨taken', rest', ht, hs1, hs2⟩ := List.map_eq_append_iff.1 (hs.trans List.map_append)
      obtain ⟨a', ha, hr'⟩ := hok taken' rest' s'.endLine hs1 (ahead_of_shapes hs2.symm)
      have hs' : s' = ⟨taken' ++ rest', s'.endLine⟩ := by rw [← ht]
      rw [bind_of_ok hr] at he
      obtain ⟨e', hee, hf'⟩ := (hf a a' t hr ha).error e he ⟨rest', s'.endLine⟩ hs2
      rw [hs', bind_of_ok hr']
      exact ⟨e', hee, hf'⟩

/-- On streams that look the same the readers give the same and leave the same, or fail with the same message. -/
theorem Alike.sameResult (h : Alike R r r') {s s' : Stream} (hs : shapes s'.tokens = shapes s.tokens) :
    SameResult (fun p p' => R p.1 p'.1 ∧ shapes p'.2.tokens = shapes p.2.tokens) (r s) (r' s') := by
  cases hr : r s with
  | error e =>
    obtain ⟨e', hee, hr'⟩ := (h s).error e hr s' hs
    rw [hr']
    exact .error hee
  | ok p =>
    obtain ⟨a, t⟩ := p
    obtain ⟨taken, rfl, hok⟩ := (h s).ok a t hr
    obtain ⟨taken', rest', ht, h1, h2⟩ := List.map_eq_append_iff.1 (hs.trans List.map_append)
    obtain ⟨a', ha, hr'⟩ := hok taken' rest' s'.endLine h1 (ahead_of_shapes h2.symm)
    rw [← ht] at hr'
    rw [hr']
    exact .ok ⟨ha, h2⟩

theorem Alike.bind (h : Alike R r r') (hf : ∀ a a', R a a' → Alike Q (f a) (f' a')) :
    Alike Q (r >>= f) (r' >>= f') :=
  fun s => (h s).bind fun a a' t _ ha => hf a a' ha t

theorem Alike.pure {a : α} {a' : α'} (h : R a a') : Alike R (Pure.pure a) (Pure.pure a') := by
  intro s
  constructor
  · intro b t hb
    obtain ⟨rfl, rfl⟩ := Prod.mk.inj (Except.ok.inj hb)
    refine ⟨[], rfl, ?_⟩
    intro taken' rest' line' hs _
    obtain rfl := List.map_eq_nil_iff.1 hs
    exact ⟨a', h, rfl⟩
  · intro e he
    cases he

theorem Alike.throw {e e' : Error} (h : SameMessage e e') : Alike R (throw e) (throw e') := by
  intro s
  constructor
  · intro a t ht
    cases ht
  · intro e₀ he s' _
    obtain rfl : e = e₀ := Except.error.inj he
    exact ⟨e', h, rfl⟩

theorem Alike.liftM {x : Except Error α} {x' : Except Error α'} (h : SameResult R x x') :
    Alike R (liftM x) (liftM x') := by
  cases h with
  | ok h => exact Alike.pure h
  | error h => exact Alike.throw h

theorem Alike.map {g : α → β} {g' : α' → β'} (h : Alike R r r') (hg : ∀ a a', R a a' → Q (g a) (g' a')) :
    Alike Q (g <$> r) (g' <$> r') := by
  rw [map_eq_pure_bind, map_eq_pure_bind]
  exact h.bind fun a a' ha => Alike.pure (hg a a' ha)

end Basic

/-! ## Single tokens -/

/-- Two tokens of the same shape. -/
def SameShape (t t' : Token) : Prop := t.shape = t'.shape

section Tokens
variable {R : α → α' → Prop} {r : Reader α} {r' : Reader α'}

/-- The token that is taken, if there is one. -/
theorem tail_spec (s : Stream) : ∃ taken, s = ⟨taken ++ s.tail.tokens, s.tail.endLine⟩ ∧
    ∀ taken' rest' line', shapes taken' = shapes taken → Ahead s.tail.tokens rest' →
      SameShape s.head (Stream.head ⟨taken' ++ rest', line'⟩) ∧
        Stream.tail ⟨taken' ++ rest', line'⟩ = ⟨rest', line'⟩ := by
  obtain ⟨ts, line⟩ := s
  cases ts with
  | nil =>
    refine ⟨[], rfl, ?_⟩
    intro taken' rest' line' hs hrest
    obtain rfl := List.map_eq_nil_iff.1 hs
    cases rest' with
    | nil => exact ⟨rfl, rfl⟩
    | cons => cases hrest
  | cons t ts =>
    refine ⟨[t], rfl, ?_⟩
    intro taken' rest' line' hs _
    obtain ⟨t', after, rfl, ht, hn⟩ := List.map_eq_cons_iff.1 hs
    obtain rfl := List.map_eq_nil_iff.1 hn
    exact ⟨ht.symm, rfl⟩

theorem alike_peek : Alike SameShape peek peek := by
  intro s
  constructor
  · intro t u h
    obtain ⟨rfl, rfl⟩ := Prod.mk.inj (Except.ok.inj h)
    refine ⟨[], rfl, ?_⟩
    intro taken' rest' line' hs hrest
    obtain rfl := List.map_eq_nil_iff.1 hs
    exact ⟨_, shape_head hrest, rfl⟩
  · intro e he
    cases he

theorem alike_next : Alike SameShape next next := by
  intro s
  constructor
  · intro t u h
    obtain ⟨rfl, rfl⟩ := Prod.mk.inj (Except.ok.inj h)
    obtain ⟨taken, hs, hok⟩ := tail_spec s
    refine ⟨taken, hs, ?_⟩
    intro taken' rest' line' hs' hrest
    obtain ⟨hhead, htail⟩ := hok taken' rest' line' hs' hrest
    exact ⟨_, hhead, by rw [next, htail]⟩
  · intro e he
    cases he

theorem alike_isNext (kind : Kind) : Alike Eq (isNext kind) (isNext kind) := by
  intro s
  constructor
  · intro b u h
    obtain ⟨rfl, rfl⟩ := Prod.mk.inj (Except.ok.inj h)
    refine ⟨[], rfl, ?_⟩
    intro taken' rest' line' hs hrest
    obtain rfl := List.map_eq_nil_iff.1 hs
    have hk : s.head.kind = (Stream.head ⟨rest', line'⟩).kind := kind_eq (shape_head hrest)
    exact ⟨_, rfl, by rw [isNext, List.nil_append, hk]⟩
  · intro e he
    cases he

theorem alike_accept (kind : Kind) : Alike Eq (accept kind) (accept kind) := by
  intro s
  constructor
  · intro b u h
    unfold accept at h
    by_cases hk : s.head.kind = kind
    · rw [if_pos hk] at h
      obtain ⟨rfl, rfl⟩ := Prod.mk.inj (Except.ok.inj h)
      obtain ⟨taken, hs, hok⟩ := tail_spec s
      refine ⟨taken, hs, ?_⟩
      intro taken' rest' line' hs' hrest
      obtain ⟨hhead, htail⟩ := hok taken' rest' line' hs' hrest
      exact ⟨true, rfl, by rw [accept, if_pos ((kind_eq hhead).symm.trans hk), htail]⟩
    · rw [if_neg hk] at h
      obtain ⟨rfl, rfl⟩ := Prod.mk.inj (Except.ok.inj h)
      refine ⟨[], rfl, ?_⟩
      intro taken' rest' line' hs hrest
      obtain rfl := List.map_eq_nil_iff.1 hs
      have hk' : s.head.kind = (Stream.head ⟨rest', line'⟩).kind := kind_eq (shape_head hrest)
      exact ⟨false, rfl, by rw [accept, List.nil_append, if_neg (hk' ▸ hk)]⟩
  · intro e he
    unfold accept at he
    split at he <;> cases he

theorem alike_require (kind : Kind) {error error' : Token → Error}
    (h : ∀ t t', SameShape t t' → SameMessage (error t) (error' t')) :
    Alike SameShape (require kind error) (require kind error') := by
  intro s
  constructor
  · intro t u ht
    unfold require at ht
    split at ht
    · next hk =>
      obtain ⟨rfl, rfl⟩ := Prod.mk.inj (Except.ok.inj ht)
      obtain ⟨taken, hs, hok⟩ := tail_spec s
      refine ⟨taken, hs, ?_⟩
      intro taken' rest' line' hs' hrest
      obtain ⟨hhead, htail⟩ := hok taken' rest' line' hs' hrest
      exact ⟨_, hhead, by rw [require, if_pos ((kind_eq hhead).symm.trans hk), htail]⟩
    · cases ht
  · intro e he s' hs
    have hhead := shape_head (ahead_of_shapes hs.symm)
    unfold require at he
    split at he
    · cases he
    · next hk =>
      obtain rfl := Except.error.inj he
      exact ⟨_, h _ _ hhead, by rw [require, if_neg (kind_eq hhead ▸ hk)]⟩

theorem Alike.after (kind : Kind) (h : Alike Eq r r) : Alike Eq (after kind r) (after kind r) := by
  refine (alike_accept kind).bind ?_
  rintro b _ rfl
  split
  · exact h.map fun a a' ha => congrArg some ha
  · exact Alike.pure rfl

theorem alike_skipWhile {p : Token → Bool} (hp : ∀ t t', SameShape t t' → p t = p t') :
    Alike Eq (skipWhile p) (skipWhile p) := by
  intro s
  constructor
  · intro a u h
    obtain ⟨rfl, rfl⟩ := Prod.mk.inj (Except.ok.inj h)
    refine ⟨s.tokens.takeWhile p, by rw [List.takeWhile_append_dropWhile], ?_⟩
    intro taken' rest' line' hs hrest
    have htaken : ∀ t ∈ taken', p t = true := by
      intro t ht
      have hm : t.shape ∈ shapes (s.tokens.takeWhile p) := hs ▸ List.mem_map_of_mem ht
      obtain ⟨t₀, h₀, hshape⟩ := List.mem_map.1 hm
      rw [← hp t₀ t hshape]
      exact List.all_eq_true.1 List.all_takeWhile t₀ h₀
    have hrest' : rest'.dropWhile p = rest' := by
      cases rest' with
      | nil => rfl
      | cons t' rest' =>
        -- what follows stopped the first reader, and is of the same shape
        obtain ⟨t, ht, hshape⟩ := Option.map_eq_some_iff.1 hrest
        have hn := List.head?_dropWhile_not p s.tokens
        rw [ht] at hn
        have hne : ¬p t' = true := by
          rw [← hp t t' hshape]
          simpa using hn
        exact List.dropWhile_cons_of_neg hne
    exact ⟨(), rfl, by rw [skipWhile, List.dropWhile_append_of_pos htaken, hrest']⟩
  · intro e he
    cases he

/-! ## Parts of token lists -/

/-- What is cut off depends on the shapes of what is cut off. -/
def Cuts (R : α → α' → Prop) (f : List Token → Option (α × List Token))
    (f' : List Token → Option (α' × List Token)) : Prop :=
  ∀ ts a rest, f ts = some (a, rest) → ∃ taken, ts = taken ++ rest ∧
    ∀ taken' rest', shapes taken' = shapes taken → ∃ a', R a a' ∧ f' (taken' ++ rest') = some (a', rest')

theorem alike_cut {f : List Token → Option (α × List Token)} {f' : List Token → Option (α' × List Token)}
    {error error' : UInt32 → Error} {R' : α' → α → Prop} (hf : Cuts R f f') (hf' : Cuts R' f' f)
    (he : ∀ line line', SameMessage (error line) (error' line')) : Alike R (cut f error) (cut f' error') := by
  intro s
  constructor
  · intro a u h
    unfold cut at h
    split at h
    · next b rest hr =>
      obtain ⟨rfl, rfl⟩ := Prod.mk.inj (Except.ok.inj h)
      obtain ⟨taken, hs, hok⟩ := hf _ _ _ hr
      refine ⟨taken, by rw [← hs], ?_⟩
      intro taken' rest' line' hs' _
      obtain ⟨a', ha, hr'⟩ := hok taken' rest' hs'
      exact ⟨a', ha, by rw [cut, hr']⟩
    · cases h
  · intro e h s' hs
    unfold cut at h
    split at h
    · cases h
    · next hn =>
      obtain rfl := Except.error.inj h
      refine ⟨_, he s.endLine s'.endLine, ?_⟩
      unfold cut
      split
      · next a' rest' hr' =>
        -- what can be cut off there could be cut off here
        obtain ⟨taken', ht, hok⟩ := hf' _ _ _ hr'
        obtain ⟨taken, rest, hs', h1, -⟩ := List.map_eq_append_iff.1
          ((hs.symm.trans (congrArg shapes ht)).trans List.map_append)
        obtain ⟨a, -, hr⟩ := hok taken rest h1
        rw [← hs', hn] at hr
        cases hr
      · rfl

end Tokens

/-! ## Repetition -/

section Repetition
variable {item : Reader α} (h : Consumes item)

theorem untilClosed_eq (closing : Kind) : (untilClosed closing item h : Reader (List α)) =
    accept closing >>= fun closed =>
      if closed then pure [] else item >>= fun a => untilClosed closing item h >>= fun more => pure (a :: more) := by
  funext s
  rw [untilClosed]
  by_cases hk : s.head.kind = closing
  · simp only [Bind.bind, StateT.bind, Except.bind, accept, if_pos hk]
    rfl
  · simp only [Bind.bind, StateT.bind, Except.bind, accept, if_neg hk, Bool.false_eq_true, if_false]
    split
    · next e he => rw [he]
    · next a t ht =>
      rw [ht]
      rfl

theorem separated_eq (separator : Kind) : (separated separator item h : Reader (List α)) =
    item >>= fun a => accept separator >>= fun found =>
      if found then separated separator item h >>= fun more => pure (a :: more) else pure [a] := by
  funext s
  rw [separated]
  simp only [Bind.bind, StateT.bind, Except.bind]
  split
  · next e he => rw [he]
  · next a t ht =>
    rw [ht]
    by_cases hk : t.head.kind = separator
    · simp only [accept, if_pos hk, if_true]
      rfl
    · simp only [accept, if_neg hk, Bool.false_eq_true, if_false]
      rfl

variable (ha : Alike Eq item item)
include ha

theorem alike_untilClosed (closing : Kind) :
    Alike Eq (untilClosed closing item h) (untilClosed closing item h) := by
  intro s
  -- by induction on the number of tokens, each item taking some of them
  induction hn : s.size using Nat.strongRecOn generalizing s with
  | _ n ih =>
    subst hn
    rw [untilClosed_eq]
    refine (alike_accept closing s).bind ?_
    rintro b _ t ht rfl
    split
    · exact Alike.pure rfl t
    · refine (ha t).bind ?_
      rintro a _ u hu rfl
      have hlt : u.size < s.size := Nat.lt_of_lt_of_le (h t a u hu) (forward_accept closing s b t ht)
      refine (ih u.size hlt u rfl).bind ?_
      rintro more _ v - rfl
      exact Alike.pure rfl v

theorem alike_separated (separator : Kind) :
    Alike Eq (separated separator item h) (separated separator item h) := by
  intro s
  induction hn : s.size using Nat.strongRecOn generalizing s with
  | _ n ih =>
    subst hn
    rw [separated_eq]
    refine (ha s).bind ?_
    rintro a _ t ht rfl
    refine (alike_accept separator t).bind ?_
    rintro b _ u hu rfl
    split
    · have hlt : u.size < s.size := Nat.lt_of_le_of_lt (forward_accept separator t b u hu) (h s a t ht)
      refine (ih u.size hlt u rfl).bind ?_
      rintro more _ v - rfl
      exact Alike.pure rfl v
    · exact Alike.pure rfl u

end Repetition

end Reader

end ShaderBuild.Token
