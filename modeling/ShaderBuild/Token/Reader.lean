import ShaderBuild.Error
import ShaderBuild.Token.Scan
/-!
# Reading a token stream

A reader takes tokens off the front of a stream, or fails. Readers only go forward
(`Reader.Forward`), and those that take a token for sure (`Reader.Consumes`) may be repeated.
-/

namespace ShaderBuild.Token

namespace Stream

/-- The number of tokens that are left. -/
def size (s : Stream) : Nat := s.tokens.length

/-- The next token, or the one that stands for the end. -/
def head (s : Stream) : Token := s.tokens.headD (atEnd s.endLine)

/-- The stream after its next token. -/
def tail (s : Stream) : Stream := { s with tokens := s.tokens.tail }

end Stream

/-- A computation that takes tokens off a stream. -/
abbrev Reader := StateT Stream (Except Error)

namespace Reader

variable {α β : Type}

/-- The next token, which stays. -/
def peek : Reader Token := fun s => .ok (s.head, s)

/-- Take the next token. -/
def next : Reader Token := fun s => .ok (s.head, s.tail)

/-- Is the next token of this kind? -/
def isNext (kind : Kind) : Reader Bool := fun s => .ok (s.head.kind == kind, s)

/-- Take the next token if it is of this kind. -/
def accept (kind : Kind) : Reader Bool := fun s =>
  if s.head.kind = kind then .ok (true, s.tail) else .ok (false, s)

/-- Take tokens as long as they satisfy `p`. -/
def skipWhile (p : Token → Bool) : Reader Unit := fun s =>
  .ok ((), { s with tokens := s.tokens.dropWhile p })

/-- Take a token of this kind, or fail with an error made from what is there instead. -/
def require (kind : Kind) (error : Token → Error) : Reader Token := fun s =>
  if s.head.kind = kind then .ok (s.head, s.tail) else .error (error s.head)

/-- What `r` reads, if a token of this kind stands before it. -/
def after (kind : Kind) (r : Reader α) : Reader (Option α) := do
  if ← accept kind then some <$> r else pure none

/-- Take the tokens up to where `f` finds their end, or fail if it finds none before the last line. -/
def cut (f : List Token → Option (α × List Token)) (error : UInt32 → Error) : Reader α := fun s =>
  match f s.tokens with
  | some (a, rest) => .ok (a, { s with tokens := rest })
  | none => .error (error s.endLine)

/-! ## Progress -/

/-- Afterwards no more tokens are left than before. -/
def Forward (r : Reader α) : Prop := ∀ s a s', r s = .ok (a, s') → s'.size ≤ s.size

/-- Afterwards fewer tokens are left than before. -/
def Consumes (r : Reader α) : Prop := ∀ s a s', r s = .ok (a, s') → s'.size < s.size

theorem Consumes.forward {r : Reader α} (h : Consumes r) : Forward r :=
  fun s a s' hr => Nat.le_of_lt (h s a s' hr)

theorem bind_eq_ok {r : Reader α} {f : α → Reader β} {s s' : Stream} {b : β}
    (h : (r >>= f) s = .ok (b, s')) : ∃ a t, r s = .ok (a, t) ∧ f a t = .ok (b, s') := by
  simp only [bind, StateT.bind, Except.bind] at h
  split at h
  · simp at h
  · next p hp => exact ⟨p.1, p.2, hp, h⟩

theorem forward_pure (a : α) : Forward (pure a : Reader α) := by
  intro s b s' h
  have h : (Except.ok (a, s) : Except Error (α × Stream)) = .ok (b, s') := h
  simp only [Except.ok.injEq, Prod.mk.injEq] at h
  exact h.2 ▸ Nat.le_refl s.size

theorem forward_throw (e : Error) : Forward (throw e : Reader α) := by
  intro s a s' h
  simp [throw, throwThe, MonadExceptOf.throw, StateT.lift, Except.bind, bind] at h

theorem Forward.bind {r : Reader α} {f : α → Reader β} (hr : Forward r)
    (hf : ∀ a, Forward (f a)) : Forward (r >>= f) := by
  intro s b s' h
  obtain ⟨a, t, h1, h2⟩ := bind_eq_ok h
  exact Nat.le_trans (hf a t b s' h2) (hr s a t h1)

theorem Consumes.bind {r : Reader α} {f : α → Reader β} (hr : Consumes r)
    (hf : ∀ a, Forward (f a)) : Consumes (r >>= f) := by
  intro s b s' h
  obtain ⟨a, t, h1, h2⟩ := bind_eq_ok h
  exact Nat.lt_of_le_of_lt (hf a t b s' h2) (hr s a t h1)

theorem Forward.bind_consumes {r : Reader α} {f : α → Reader β} (hr : Forward r)
    (hf : ∀ a, Consumes (f a)) : Consumes (r >>= f) := by
  intro s b s' h
  obtain ⟨a, t, h1, h2⟩ := bind_eq_ok h
  exact Nat.lt_of_lt_of_le (hf a t b s' h2) (hr s a t h1)

theorem size_tail_le (s : Stream) : s.tail.size ≤ s.size := by simp [Stream.size, Stream.tail]

theorem size_tail_lt {s : Stream} (h : s.head.kind ≠ .endOfInput) : s.tail.size < s.size := by
  obtain ⟨tokens, line⟩ := s
  cases tokens with
  | nil => simp [Stream.head, atEnd] at h
  | cons => simp [Stream.size, Stream.tail]

theorem forward_peek : Forward peek := by
  intro s a s' h
  simp only [peek, Except.ok.injEq, Prod.mk.injEq] at h
  exact Nat.le_of_eq (by rw [h.2])

theorem forward_next : Forward next := by
  intro s a s' h
  simp only [next, Except.ok.injEq, Prod.mk.injEq] at h
  exact h.2 ▸ size_tail_le s

theorem forward_isNext (kind : Kind) : Forward (isNext kind) := by
  intro s a s' h
  simp only [isNext, Except.ok.injEq, Prod.mk.injEq] at h
  exact Nat.le_of_eq (by rw [h.2])

theorem forward_accept (kind : Kind) : Forward (accept kind) := by
  intro s a s' h
  simp only [accept] at h
  split at h <;> simp only [Except.ok.injEq, Prod.mk.injEq] at h
  · exact h.2 ▸ size_tail_le s
  · exact h.2 ▸ Nat.le_refl s.size

theorem forward_skipWhile (p : Token → Bool) : Forward (skipWhile p) := by
  intro s a s' h
  simp only [skipWhile, Except.ok.injEq, Prod.mk.injEq] at h
  rw [← h.2]
  exact Text.length_dropWhile_le p s.tokens

theorem consumes_require {kind : Kind} (error : Token → Error) (hk : kind ≠ .endOfInput) :
    Consumes (require kind error) := by
  intro s a s' h
  simp only [require] at h
  split at h
  · next hs =>
    simp only [Except.ok.injEq, Prod.mk.injEq] at h
    rw [← h.2]
    exact size_tail_lt (hs ▸ hk)
  · simp at h

theorem Consumes.map {r : Reader α} (hr : Consumes r) (f : α → β) : Consumes (f <$> r) := by
  rw [map_eq_pure_bind]
  exact hr.bind fun a => forward_pure (f a)

theorem Forward.map {r : Reader α} (hr : Forward r) (f : α → β) : Forward (f <$> r) := by
  rw [map_eq_pure_bind]
  exact hr.bind fun a => forward_pure (f a)

theorem Forward.after {r : Reader α} (kind : Kind) (hr : Forward r) :
    Forward (Reader.after kind r) := by
  refine (forward_accept kind).bind fun found => ?_
  split
  · exact hr.map some
  · exact forward_pure none

theorem forward_liftM (r : Except Error α) : Forward (liftM r : Reader α) := by
  intro s a s' h
  cases r with
  | error e => exact nomatch (show (Except.error e : Except Error (α × Stream)) = .ok (a, s') from h)
  | ok b =>
    have h : (Except.ok (b, s) : Except Error (α × Stream)) = .ok (a, s') := h
    simp only [Except.ok.injEq, Prod.mk.injEq] at h
    exact h.2 ▸ Nat.le_refl s.size

theorem forward_cut {f : List Token → Option (α × List Token)} (error : UInt32 → Error)
    (hf : ∀ ts a rest, f ts = some (a, rest) → rest.length ≤ ts.length) : Forward (cut f error) := by
  intro s a s' h
  simp only [cut] at h
  split at h
  · next b rest hr =>
    simp only [Except.ok.injEq, Prod.mk.injEq] at h
    rw [← h.2]
    exact hf _ _ _ hr
  · simp at h

/-! ## Repetition -/

/-- Read one item after the other up to a token of the kind `closing`, which is taken too. -/
def untilClosed (closing : Kind) (item : Reader α) (h : Consumes item) (s : Stream) :
    Except Error (List α × Stream) :=
  if s.head.kind = closing then .ok ([], s.tail)
  else
    match _hr : item s with
    | .error e => .error e
    | .ok (a, t) => do
      let (as, u) ← untilClosed closing item h t
      .ok (a :: as, u)
termination_by s.size
decreasing_by exact h s a t _hr

/-- Read items with tokens of the kind `separator` between them. -/
def separated (separator : Kind) (item : Reader α) (h : Consumes item) (s : Stream) :
    Except Error (List α × Stream) :=
  match _hr : item s with
  | .error e => .error e
  | .ok (a, t) =>
    if t.head.kind = separator then do
      let (as, u) ← separated separator item h t.tail
      .ok (a :: as, u)
    else .ok ([a], t)
termination_by s.size
decreasing_by exact Nat.lt_of_le_of_lt (size_tail_le t) (h s a t _hr)

/-- Read one item after the other up to a token of the kind `closing`, which is taken too. What was
read so far is handed on from item to item. -/
def foldUntil (closing : Kind) (item : α → Reader α) (h : ∀ a, Consumes (item a)) (before : α)
    (s : Stream) : Except Error (α × Stream) :=
  if s.head.kind = closing then .ok (before, s.tail)
  else
    match _hr : item before s with
    | .error e => .error e
    | .ok (a, t) => foldUntil closing item h a t
termination_by s.size
decreasing_by exact h before s a t _hr

theorem forward_untilClosed (closing : Kind) {item : Reader α} (h : Consumes item) :
    Forward (untilClosed closing item h) := by
  intro s
  fun_induction untilClosed closing item h s with
  | case1 s hs =>
    intro as s' hr
    simp only [Except.ok.injEq, Prod.mk.injEq] at hr
    exact hr.2 ▸ size_tail_le s
  | case2 => intro as s' hr; simp at hr
  | case3 s hs a t ht ih =>
    intro as s' hr
    simp only [bind, Except.bind] at hr
    split at hr
    · simp at hr
    · next p hp =>
      simp only [Except.ok.injEq, Prod.mk.injEq] at hr
      exact hr.2 ▸ Nat.le_trans (ih p.1 p.2 hp) (Nat.le_of_lt (h s a t ht))

theorem forward_foldUntil (closing : Kind) {item : α → Reader α} (h : ∀ a, Consumes (item a))
    (before : α) : Forward (foldUntil closing item h before) := by
  intro s
  fun_induction foldUntil closing item h before s with
  | case1 before s hs =>
    intro a s' hr
    simp only [Except.ok.injEq, Prod.mk.injEq] at hr
    exact hr.2 ▸ size_tail_le s
  | case2 => intro a s' hr; simp at hr
  | case3 before s hs a t ht ih =>
    intro b s' hr
    exact Nat.le_trans (ih b s' hr) (Nat.le_of_lt (h before s a t ht))

theorem forward_separated (separator : Kind) {item : Reader α} (h : Consumes item) :
    Forward (separated separator item h) := by
  intro s
  fun_induction separated separator item h s with
  | case1 => intro as s' hr; simp at hr
  | case2 s a t ht hs ih =>
    intro as s' hr
    simp only [bind, Except.bind] at hr
    split at hr
    · simp at hr
    · next p hp =>
      simp only [Except.ok.injEq, Prod.mk.injEq] at hr
      have := Nat.lt_of_le_of_lt (size_tail_le t) (h s a t ht)
      exact hr.2 ▸ Nat.le_trans (ih p.1 p.2 hp) (Nat.le_of_lt this)
  | case3 s a t ht hs =>
    intro as s' hr
    simp only [Except.ok.injEq, Prod.mk.injEq] at hr
    exact hr.2 ▸ Nat.le_of_lt (h s a t ht)

end Reader

end ShaderBuild.Token
