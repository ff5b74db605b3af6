import ShaderBuild.Proofs.Spelling
import ShaderBuild.Token.Reader
/-!
# What readers make of words

`Reads r ws a P` says that the reader `r` takes the tokens of the words `ws`, wherever they are, and gives
`a`, provided that what follows them satisfies `P`. The condition is what one token of lookahead needs to
know: an optional part is absent if the next token does not start it.

There is one lemma for each reader that others are made of. `Reads.bind` puts two of them together, and
what follows the first is then the beginning of the second (`Follows`).
-/

namespace ShaderBuild.Token

/-- A token without its line. -/
def shape (t : Token) : Kind × String := (t.kind, t.text)

/-- The tokens of a word are those of its shape. -/
def Word.shape (w : Word) : Kind × String := (w.kind, w.text)

/-- These tokens are those words. -/
def Spelled (ts : List Token) (ws : List Word) : Prop := ts.map shape = ws.map Word.shape

theorem spelled_append {ts : List Token} {ws ws' : List Word} (h : Spelled ts (ws ++ ws')) :
    ∃ before after, ts = before ++ after ∧ Spelled before ws ∧ Spelled after ws' := by
  rw [Spelled, List.map_append] at h
  obtain ⟨before, after, rfl, h1, h2⟩ := List.map_eq_append_iff.1 h
  exact ⟨before, after, rfl, h1, h2⟩

theorem spelled_cons {ts : List Token} {w : Word} {ws : List Word} (h : Spelled ts (w :: ws)) :
    ∃ t after, ts = t :: after ∧ t.shape = w.shape ∧ Spelled after ws := by
  obtain ⟨t, after, rfl, h1, h2⟩ := List.map_eq_cons_iff.1 h
  exact ⟨t, after, rfl, h1, h2⟩

theorem spelled_of_cons {t : Token} {ts : List Token} {w : Word} {ws : List Word} (h : t.shape = w.shape)
    (hs : Spelled ts ws) : Spelled (t :: ts) (w :: ws) := by
  rw [Spelled, List.map_cons, List.map_cons, h, hs]

theorem spelled_of_append {ts ts' : List Token} {ws ws' : List Word} (h : Spelled ts ws) (h' : Spelled ts' ws') :
    Spelled (ts ++ ts') (ws ++ ws') := by
  rw [Spelled, List.map_append, List.map_append, h, h']

theorem spelled_nil {ts : List Token} (h : Spelled ts []) : ts = [] := List.map_eq_nil_iff.1 h

theorem spelled_tokens (line : UInt32) (ls : List Laid) : Spelled (Laid.tokens line ls) (ls.map Laid.word) := by
  induction ls generalizing line with
  | nil => rfl
  | cons l ls ih =>
    rw [Spelled, Laid.tokens, List.map_cons, List.map_cons, List.map_cons]
    exact congrArg (l.word.shape :: ·) (ih _)

theorem kind_of_shape {t : Token} {w : Word} (h : t.shape = w.shape) : t.kind = w.kind := congrArg Prod.fst h

theorem text_of_shape {t : Token} {w : Word} (h : t.shape = w.shape) : t.text = w.text := congrArg Prod.snd h

namespace Reader

/-! ## One item of a repetition -/

section FoldUntil
variable {α : Type} {closing : Kind} {item : α → Reader α} {h : ∀ a, Consumes (item a)} {before : α} {s : Stream}

theorem foldUntil_of_ok (hk : s.head.kind ≠ closing) {a : α} {t : Stream} (hi : item before s = .ok (a, t)) :
    foldUntil closing item h before s = foldUntil closing item h a t := by
  rw [foldUntil, if_neg hk]
  -- The reader keeps its result in the match, for its termination.
  split
  · next he => cases hi.symm.trans he
  · next b u hb =>
    obtain ⟨rfl, rfl⟩ := Prod.mk.inj (Except.ok.inj (hi.symm.trans hb))
    rfl

theorem foldUntil_of_error (hk : s.head.kind ≠ closing) {e : Error} (hi : item before s = .error e) :
    foldUntil closing item h before s = .error e := by
  rw [foldUntil, if_neg hk]
  split
  · next he => exact he.symm.trans hi
  · next hb => cases hi.symm.trans hb

end FoldUntil

/-! ## Readers of words -/

variable {α β γ : Type} {r : Reader α} {f : α → Reader β} {ws ws' : List Word} {w : Word} {a : α} {b : β}
  {P Q : Token → Prop}

/-- A reader takes some words and gives something, if what follows satisfies `P`. -/
def Reads (r : Reader α) (ws : List Word) (a : α) (P : Token → Prop) : Prop :=
  ∀ (ts rest : List Token) (line : UInt32), Spelled ts ws → P (Stream.head ⟨rest, line⟩) →
    r ⟨ts ++ rest, line⟩ = .ok (a, ⟨rest, line⟩)

/-- The first of some words, or what follows them if there are none, satisfies `P`. -/
def Follows (P : Token → Prop) (ws : List Word) (Q : Token → Prop) : Prop :=
  ∀ (ts rest : List Token) (line : UInt32), Spelled ts ws → Q (Stream.head ⟨rest, line⟩) →
    P (Stream.head ⟨ts ++ rest, line⟩)

/-- Each item satisfies a condition on what was made of those before it. -/
def Along {δ : Type} (apply : α → δ → α) (R : α → δ → Prop) : α → List δ → Prop
  | _, [] => True
  | a, m :: ms => R a m ∧ Along apply R (apply a m) ms

/-- No condition on what follows. -/
def Anything (_ : Token) : Prop := True

/-- What follows is of another kind. -/
def NotKind (kind : Kind) (t : Token) : Prop := t.kind ≠ kind

theorem follows_nil (h : ∀ t, Q t → P t) : Follows P [] Q := by
  intro ts rest line ht hq
  obtain rfl := spelled_nil ht
  exact h _ hq

theorem follows_cons (h : ∀ t : Token, t.shape = w.shape → P t) : Follows P (w :: ws) Q := by
  intro ts rest line ht _
  obtain ⟨t, after, rfl, hw, -⟩ := spelled_cons ht
  exact h t hw

theorem follows_anything : Follows Anything ws Q := fun _ _ _ _ _ => trivial

theorem Follows.and {P' : Token → Prop} (h : Follows P ws Q) (h' : Follows P' ws Q) :
    Follows (fun t => P t ∧ P' t) ws Q :=
  fun ts rest line ht hq => ⟨h ts rest line ht hq, h' ts rest line ht hq⟩

theorem notKind_of_shape {kind : Kind} (h : w.kind ≠ kind) : ∀ t : Token, t.shape = w.shape → NotKind kind t :=
  fun _ ht hk => h ((kind_of_shape ht).symm.trans hk)

theorem follows_kind {kind : Kind} (h : w.kind ≠ kind) : Follows (NotKind kind) (w :: ws) Q :=
  follows_cons (notKind_of_shape h)

namespace Reads

theorem mono (h : Reads r ws a P) (hP : ∀ t, Q t → P t) : Reads r ws a Q :=
  fun ts rest line ht hq => h ts rest line ht (hP _ hq)

theorem pure (a : α) : Reads (Pure.pure a) [] a P := by
  intro ts rest line ht _
  obtain rfl := spelled_nil ht
  rfl

theorem bind (h : Reads r ws a P) (h' : Reads (f a) ws' b Q) (hP : Follows P ws' Q) :
    Reads (r >>= f) (ws ++ ws') b Q := by
  intro ts rest line ht hq
  obtain ⟨before, after, rfl, h1, h2⟩ := spelled_append ht
  have hr := h before (after ++ rest) line h1 (hP after rest line h2 hq)
  simp only [Bind.bind, StateT.bind, Except.bind, List.append_assoc, hr]
  exact h' after rest line h2 hq

theorem map (h : Reads r ws a P) (g : α → γ) : Reads (g <$> r) ws (g a) P := by
  intro ts rest line ht hp
  have hr := h ts rest line ht hp
  simp only [Functor.map, StateT.map, Bind.bind, Except.bind, hr]
  rfl

theorem bind_nil (h : Reads r ws a P) (h' : Reads (f a) [] b P) : Reads (r >>= f) ws b P := by
  have hb := h.bind h' (follows_nil fun _ hp => hp)
  rwa [List.append_nil] at hb

theorem bind_pure (h : Reads r ws a P) (g : α → γ) : Reads (r >>= fun x => Pure.pure (g x)) ws (g a) P :=
  h.bind_nil (pure _)

/-! ## Single tokens -/

/-- A token is taken, whatever line it is on. -/
theorem next_bind {f : Token → Reader β} (h : ∀ t : Token, t.shape = w.shape → Reads (f t) ws b P) :
    Reads (next >>= f) (w :: ws) b P := by
  intro ts rest line ht hp
  obtain ⟨t, after, rfl, hw, h2⟩ := spelled_cons ht
  exact h t hw after rest line h2 hp

/-- What comes next is looked at, and stays. -/
theorem peek_bind {f : Token → Reader β} (hP : Follows P ws Q) (h : ∀ t, P t → Reads (f t) ws b Q) :
    Reads (peek >>= f) ws b Q :=
  fun ts rest line ht hq => h _ (hP ts rest line ht hq) ts rest line ht hq

theorem require_map {kind : Kind} (error : Token → Error) (hk : w.kind = kind) {g : Token → β}
    (h : ∀ t : Token, t.shape = w.shape → g t = b) : Reads (g <$> require kind error) [w] b P := by
  intro ts rest line ht _
  obtain ⟨t, after, rfl, hw, h2⟩ := spelled_cons ht
  obtain rfl := spelled_nil h2
  have hr : require kind error ⟨[t] ++ rest, line⟩ = .ok (t, ⟨rest, line⟩) := if_pos ((kind_of_shape hw).trans hk)
  simp only [Functor.map, StateT.map, Bind.bind, Except.bind, hr, h t hw]
  rfl

theorem require_bind {f : Token → Reader β} {kind : Kind} (error : Token → Error) (hk : w.kind = kind)
    (h : ∀ t : Token, t.shape = w.shape → Reads (f t) ws b P) :
    Reads (require kind error >>= f) (w :: ws) b P := by
  intro ts rest line ht hp
  obtain ⟨t, after, rfl, hw, h2⟩ := spelled_cons ht
  have hr : require kind error ⟨t :: after ++ rest, line⟩ = .ok (t, ⟨after ++ rest, line⟩) :=
    if_pos ((kind_of_shape hw).trans hk)
  simp only [Bind.bind, StateT.bind, Except.bind, hr]
  exact h t hw after rest line h2 hp

theorem accept_true {kind : Kind} (hk : w.kind = kind) : Reads (accept kind) [w] true P := by
  intro ts rest line ht _
  obtain ⟨t, after, rfl, hw, h2⟩ := spelled_cons ht
  obtain rfl := spelled_nil h2
  exact if_pos ((kind_of_shape hw).trans hk)

theorem accept_false {kind : Kind} : Reads (accept kind) [] false (NotKind kind) := by
  intro ts rest line ht hp
  obtain rfl := spelled_nil ht
  exact if_neg hp

theorem isNext_true {kind : Kind} : Reads (isNext kind) [] true fun t => t.kind = kind := by
  intro ts rest line ht hp
  obtain rfl := spelled_nil ht
  simp only [isNext, List.nil_append, hp, beq_self_eq_true]

theorem isNext_false {kind : Kind} : Reads (isNext kind) [] false (NotKind kind) := by
  intro ts rest line ht hp
  obtain rfl := spelled_nil ht
  simp only [isNext, List.nil_append, beq_eq_false_iff_ne.2 hp]

/-! ## Optional parts and parts that are passed over -/

theorem after_some {kind : Kind} (hk : w.kind = kind) (h : Reads r ws a P) :
    Reads (after kind r) (w :: ws) (some a) P :=
  (accept_true hk).bind (h.map some) follows_anything

theorem after_none {kind : Kind} : Reads (after kind r) [] none (NotKind kind) :=
  accept_false.bind (pure none) (follows_nil fun _ hp => hp)

theorem skipWhile {p : Token → Bool} (h : ∀ w ∈ ws, ∀ t : Token, t.shape = w.shape → p t = true) :
    Reads (skipWhile p) ws () fun t => p t = false := by
  intro ts rest line ht hp
  have hts : ∀ t ∈ ts, p t = true := by
    intro t hm
    obtain ⟨w, hw, hs⟩ := List.mem_map.1 (ht ▸ List.mem_map_of_mem hm)
    exact h w hw t hs.symm
  have hd : (ts ++ rest).dropWhile p = rest := by
    rw [List.dropWhile_append_of_pos hts]
    cases rest with
    | nil => rfl
    | cons t rest => exact List.dropWhile_cons_of_neg (by rw [show p t = false from hp]; exact Bool.false_ne_true)
  simp only [Reader.skipWhile, hd]

theorem cut {g : List Token → Option (α × List Token)} {error : UInt32 → Error}
    (h : ∀ ts rest, Spelled ts ws → g (ts ++ rest) = some (a, rest)) : Reads (cut g error) ws a P := by
  intro ts rest line ht _
  simp only [Reader.cut, h ts rest ht]

/-- What is made of the tokens that are taken may not depend on their lines. -/
theorem cut_bind {g : List Token → Option (α × List Token)} {error : UInt32 → Error}
    (h : ∀ ts rest, Spelled ts ws → ∃ a, g (ts ++ rest) = some (a, rest) ∧ f a = Pure.pure b) :
    Reads (Reader.cut g error >>= f) ws b P := by
  intro ts rest line ht _
  obtain ⟨a, hg, hf⟩ := h ts rest ht
  simp only [Bind.bind, StateT.bind, Except.bind, Reader.cut, hg, hf]
  rfl

theorem liftM {result : Except Error α} (h : result = .ok a) : Reads (liftM result) [] a P := by
  intro ts rest line ht _
  obtain rfl := spelled_nil ht
  subst h
  rfl

/-! ## Repetition -/

section Repetition
variable {δ : Type} {item : Reader α} (h : Consumes item) (words : δ → List Word) (value : δ → α)

/-- Items up to a closing token, which none of them starts with. -/
theorem untilClosed {closing : Kind} {close : Word} (hc : close.kind = closing) {ms : List δ}
    (hi : ∀ m ∈ ms, Reads item (words m) (value m) Anything)
    (hs : ∀ m ∈ ms, Follows (NotKind closing) (words m) Anything) :
    Reads (untilClosed closing item h) (ms.flatMap words ++ [close]) (ms.map value) P := by
  induction ms with
  | nil =>
    intro ts rest line ht _
    obtain ⟨t, after, rfl, hw, h2⟩ := spelled_cons ht
    obtain rfl := spelled_nil h2
    rw [Reader.untilClosed]
    exact if_pos ((kind_of_shape hw).trans hc)
  | cons m ms ih =>
    intro ts rest line ht hp
    rw [List.flatMap_cons, List.append_assoc] at ht
    obtain ⟨before, after, rfl, h1, h2⟩ := spelled_append ht
    have hhead := hs m List.mem_cons_self before (after ++ rest) line h1 trivial
    have hitem := hi m List.mem_cons_self before (after ++ rest) line h1 trivial
    have hrest := ih (fun m hm => hi m (List.mem_cons_of_mem _ hm)) (fun m hm => hs m (List.mem_cons_of_mem _ hm))
      after rest line h2 hp
    rw [List.append_assoc, Reader.untilClosed, if_neg hhead]
    -- The reader keeps its result in the match, for its termination.
    split
    · next e he => cases he.symm.trans hitem
    · next b t hb =>
      obtain ⟨rfl, rfl⟩ := Prod.mk.inj (Except.ok.inj (hitem.symm.trans hb))
      rw [hrest]
      rfl

/-- Items with separators between them. -/
theorem separated {separator : Kind} {comma : Word} (hk : comma.kind = separator)
    (hP : ∀ t : Token, t.shape = comma.shape → P t) {first : δ} {others : List δ}
    (hi : ∀ m ∈ first :: others, Reads item (words m) (value m) P) :
    Reads (separated separator item h) (words first ++ others.flatMap fun m => comma :: words m)
      ((first :: others).map value) fun t => P t ∧ NotKind separator t := by
  induction others generalizing first with
  | nil =>
    intro ts rest line ht hp
    rw [List.flatMap_nil, List.append_nil] at ht
    have hitem := hi first List.mem_cons_self ts rest line ht hp.1
    rw [Reader.separated]
    split
    · next e he => cases he.symm.trans hitem
    · next b t hb =>
      obtain ⟨rfl, rfl⟩ := Prod.mk.inj (Except.ok.inj (hitem.symm.trans hb))
      exact if_neg hp.2
  | cons next others ih =>
    intro ts rest line ht hp
    rw [List.flatMap_cons, List.cons_append] at ht
    obtain ⟨before, after, rfl, h1, h2⟩ := spelled_append ht
    obtain ⟨t, after, rfl, hw, h3⟩ := spelled_cons h2
    have hitem := hi first List.mem_cons_self before (t :: after ++ rest) line h1 (hP t hw)
    have hrest := ih (fun m hm => hi m (List.mem_cons_of_mem _ hm)) after rest line h3 hp
    rw [List.append_assoc, Reader.separated]
    split
    · next e he => cases he.symm.trans hitem
    · next b u hb =>
      obtain ⟨rfl, rfl⟩ := Prod.mk.inj (Except.ok.inj (hitem.symm.trans hb))
      have hhead : (Stream.head ⟨t :: after ++ rest, line⟩).kind = separator := (kind_of_shape hw).trans hk
      have htail : Stream.tail ⟨t :: after ++ rest, line⟩ = ⟨after ++ rest, line⟩ := rfl
      rw [if_pos hhead, htail, hrest]
      rfl

/-- Items up to a closing token, where what was read so far is handed on. -/
theorem foldUntil {item : α → Reader α} (h : ∀ a, Consumes (item a)) {apply : α → δ → α} {R : α → δ → Prop}
    {closing : Kind} {close : Word} (hc : close.kind = closing)
    (hi : ∀ a m, R a m → Reads (item a) (words m) (apply a m) Anything)
    (hs : ∀ m, Follows (NotKind closing) (words m) Anything) {ms : List δ} {before : α}
    (hR : Along apply R before ms) :
    Reads (Reader.foldUntil closing item h before) (ms.flatMap words ++ [close]) (ms.foldl apply before) P := by
  induction ms generalizing before with
  | nil =>
    intro ts rest line ht _
    obtain ⟨t, after, rfl, hw, h2⟩ := spelled_cons ht
    obtain rfl := spelled_nil h2
    rw [Reader.foldUntil]
    exact if_pos ((kind_of_shape hw).trans hc)
  | cons m ms ih =>
    intro ts rest line ht hp
    rw [List.flatMap_cons, List.append_assoc] at ht
    obtain ⟨first, after, rfl, h1, h2⟩ := spelled_append ht
    have hhead := hs m first (after ++ rest) line h1 trivial
    have hitem := hi before m hR.1 first (after ++ rest) line h1 trivial
    rw [List.append_assoc, foldUntil_of_ok hhead hitem]
    exact ih hR.2 after rest line h2 hp

end Repetition

end Reads

end Reader

end ShaderBuild.Token
