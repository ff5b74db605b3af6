import ShaderBuild.Proofs.Blame
import ShaderBuild.Proofs.Bodies
/-!
# The loops of the parsers

The parsers go over their tokens in loops, and a `Loop` says what one turn does. A loop that takes a token in every
turn but the last one (`Loop.Advances`) ends at the latest when no token is left, and if a reader gives the same from
turn to turn (`Loop.Gives`), then it is what the loop comes to (`Loop.Advances.endsWithin`).
-/

namespace ShaderBuild

open Token Reader

/-! ## Turns -/

/-- What a turn of a loop comes to: the state that the next turn starts with, or the end of the loop. -/
inductive Turn (σ ρ : Type) where
  | again (state : σ)
  | last (outcome : ρ)

/-- A loop that takes tokens off a stream. -/
structure Loop (σ ρ : Type) where
  /-- What is left to read in a state. -/
  stream : σ → Stream
  turn : σ → Turn σ ρ

namespace Loop

section Runs
variable {σ ρ : Type} {l : Loop σ ρ}

/-- From a state, the loop is over in its `n`-th turn. -/
inductive Ends (l : Loop σ ρ) : σ → Nat → ρ → Prop
  | last {x : σ} {outcome : ρ} (h : l.turn x = .last outcome) : Ends l x 1 outcome
  | again {x y : σ} {n : Nat} {outcome : ρ} (h : l.turn x = .again y) (he : Ends l y n outcome) :
    Ends l x (n + 1) outcome

/-- From a state, the loop takes no more than so many turns. -/
def EndsWithin (l : Loop σ ρ) (x : σ) (bound : Nat) (outcome : ρ) : Prop := ∃ n ≤ bound, l.Ends x n outcome

/-- A turn that is not the last one takes one token or more. -/
def Advances (l : Loop σ ρ) : Prop :=
  ∀ x y, l.turn x = .again y → (l.stream y).Within (l.stream x) ∧ (l.stream y).size < (l.stream x).size

/-- `f` gives the same from turn to turn, and in the end the outcome. Of all states `P` has to hold. -/
structure Gives (l : Loop σ ρ) (P : σ → Prop) (f : σ → ρ) : Prop where
  again : ∀ x y, P x → l.turn x = .again y → P y ∧ f x = f y
  last : ∀ x outcome, P x → l.turn x = .last outcome → f x = outcome

theorem EndsWithin.mono {x : σ} {n bound : Nat} {outcome : ρ} (h : l.EndsWithin x n outcome) (hn : n ≤ bound) :
    l.EndsWithin x bound outcome := by
  obtain ⟨turns, hturns, he⟩ := h
  exact ⟨turns, Nat.le_trans hturns hn, he⟩

/-- There are as many turns as tokens at most, and a last one. -/
theorem Advances.endsWithin {P : σ → Prop} {f : σ → ρ} (ha : l.Advances) (hf : l.Gives P f) {x : σ} (hx : P x) :
    l.EndsWithin x ((l.stream x).size + 1) (f x) := by
  induction hn : (l.stream x).size using Nat.strong_induction_on generalizing x with
  | _ n ih =>
    cases ht : l.turn x with
    | last outcome =>
      rw [hf.last x outcome hx ht]
      exact ⟨1, Nat.le_add_left .., .last ht⟩
    | again y =>
      obtain ⟨hy, hxy⟩ := hf.again x y hx ht
      obtain ⟨turns, hturns, he⟩ := ih _ (hn ▸ (ha x y ht).2) hy rfl
      have hlt := (ha x y ht).2
      rw [hxy]
      exact ⟨turns + 1, by omega, .again ht he⟩

end Runs

/-! ## The loops -/

section Loops
variable {α : Type}

/-- Over the words before a type that are among some words. -/
def modifiers (words : List String) : Loop Stream (Except Error (Unit × Stream)) where
  stream s := s
  turn s := if Declaration.isWordOf words s.head then .again s.tail else .last (.ok ((), s))

/-- Over items up to a closing token. -/
def items (closing : Kind) (item : Reader α) : Loop (List α × Stream) (Except Error (List α × Stream)) where
  stream x := x.2
  turn x :=
    if x.2.head.kind = closing then .last (.ok (x.1, x.2.tail))
    else
      match item x.2 with
      | .error e => .last (.error e)
      | .ok (a, t) => .again (x.1 ++ [a], t)

/-- Over items up to a closing token, each of which changes what was read so far. -/
def changes (closing : Kind) (item : α → Reader α) : Loop (α × Stream) (Except Error (α × Stream)) where
  stream x := x.2
  turn x :=
    if x.2.head.kind = closing then .last (.ok (x.1, x.2.tail))
    else
      match item x.1 x.2 with
      | .error e => .last (.error e)
      | .ok (a, t) => .again (a, t)

/-- Over items with separators between them. -/
def listed (separator : Kind) (item : Reader α) : Loop (List α × Stream) (Except Error (List α × Stream)) where
  stream x := x.2
  turn x :=
    match item x.2 with
    | .error e => .last (.error e)
    | .ok (a, t) =>
      if t.head.kind = separator then .again (x.1 ++ [a], t.tail) else .last (.ok (x.1 ++ [a], t))

/-- Over the members in braces. -/
def members : Loop (List MemberSpec × Stream) (Except Error (List MemberSpec × Stream)) :=
  items .blockClose Declaration.memberStatement

/-- Over the parameters of a function. -/
def parameters (types : TypeTable) :
    Loop (List (Option Member) × Stream) (Except Error (List (Option Member) × Stream)) :=
  listed .comma (Declaration.parameter types)

/-- Over the stages of a shader in a manifest. -/
def stages (shader : String) : Loop (ShaderUnit × Stream) (Except Error (ShaderUnit × Stream)) :=
  changes .blockClose (Manifest.stage shader)

/-- Over the statements about a stage. -/
def statements : Loop (StageSource × Stream) (Except Error (StageSource × Stream)) :=
  changes .blockClose Manifest.statement

/-- In a template argument: how many brackets are open, what was read so far, and what is left. -/
structure Template where
  depth : Int
  argument : String
  rest : Stream

/-- Over the tokens of a template argument. -/
def template : Loop Template (Except Error (String × Stream)) where
  stream := Template.rest
  turn x :=
    let t := x.rest.head
    if t.isEnd then .last (.error (.declaration t.line .unterminatedTemplate))
    else if t.text = "<" then .again ⟨x.depth + 1, x.argument ++ t.text, x.rest.tail⟩
    else if t.text = ">" then
      if x.depth - 1 = 0 then .last (.ok (x.argument, x.rest.tail))
      else .again ⟨x.depth - 1, x.argument ++ t.text, x.rest.tail⟩
    else .again ⟨x.depth, x.argument ++ t.text, x.rest.tail⟩

/-- Over the tokens of a body. The number is that of the braces that are open. -/
def body (function : String) (line : UInt32) : Loop (Int × Stream) (Except Error (Unit × Stream)) where
  stream x := x.2
  turn x :=
    if 0 < x.1 then
      match x.2.head.kind with
      | .blockOpen => .again (x.1 + 1, x.2.tail)
      | .blockClose => .again (x.1 - 1, x.2.tail)
      | .endOfInput => .last (.error (.declaration line (.unclosedBody function)))
      | _ => .again (x.1, x.2.tail)
    else .last (.ok ((), x.2))

/-- Over the tokens up to a semicolon. -/
def statement (line : UInt32) : Loop Stream (Except Error (Unit × Stream)) where
  stream s := s
  turn s :=
    match s.head.kind with
    | .semicolon => .last (.ok ((), s.tail))
    | .endOfInput => .last (.error (.declaration line .unterminatedDeclaration))
    | _ => .again s.tail

/-- Over the declarations of a source text, with the warnings so far. -/
def declarations : Loop (Interface × List Warning × Stream) (Logged Interface) where
  stream x := x.2.2
  turn := fun (i, warnings, s) =>
    if s.head.isEnd then .last ⟨.ok i, warnings⟩
    else
      match i.declare s.head s.tail with
      | .error e => .last ⟨.error e, warnings⟩
      | .ok ((i', more), t) => .again (i', warnings ++ more, t)

/-- Over the shaders of a manifest. -/
def shaders : Loop (Manifest × Stream) (Except Error Manifest) where
  stream x := x.2
  turn x :=
    if x.2.head.isEnd then .last (.ok x.1)
    else
      match Manifest.entry x.2 with
      | .error e => .last (.error e)
      | .ok (e, t) =>
        if (x.1.find? e.name).isSome then .last (.error (.manifest e.line (.duplicateShader e.name)))
        else .again (⟨x.1.entries ++ [e]⟩, t)

end Loops

end Loop

/-! ## What is left -/

namespace Token.Stream

/-- No token stands for the end of the text. -/
def Genuine (s : Stream) : Prop := ∀ t ∈ s.tokens, t.isEnd = false

variable {s t u : Stream}

theorem Within.refl (s : Stream) : s.Within s := ⟨List.suffix_refl _, rfl⟩

theorem Within.trans (h : s.Within t) (h' : t.Within u) : s.Within u := ⟨h.1.trans h'.1, h.2.trans h'.2⟩

theorem Within.size_le (h : s.Within t) : s.size ≤ t.size := h.1.length_le

theorem Within.genuine (h : s.Within t) (ht : t.Genuine) : s.Genuine := fun token hs => ht token (h.1.mem hs)

theorem tail_within (s : Stream) : s.tail.Within s := (Within.refl s).tail

/-- With all tokens genuine, the next one stands for the end only if there is none. -/
theorem Genuine.eq_nil (h : s.Genuine) (he : s.head.isEnd = true) : s.tokens = [] := by
  obtain ⟨tokens, line⟩ := s
  cases tokens with
  | nil => rfl
  | cons t ts =>
    have ht : t.isEnd = false := h t List.mem_cons_self
    exact absurd (he.symm.trans ht) (by decide)

theorem eq_cons_of_head (h : s.head.isEnd = false) : s = ⟨s.head :: s.tail.tokens, s.endLine⟩ := by
  obtain ⟨tokens, line⟩ := s
  cases tokens with
  | nil => cases h
  | cons => rfl

end Token.Stream

namespace Token.Reader

variable {α α' : Type} {r : Reader α}

/-- Afterwards what is left is the end of what was left before. -/
def Recedes (r : Reader α) : Prop := ∀ s a t, r s = .ok (a, t) → t.Within s

theorem Alike.recedes {R : α → α' → Prop} {r' : Reader α'} (h : Alike R r r') : Recedes r := by
  intro s a t hr
  obtain ⟨taken, hs, -⟩ := (h s).ok a t hr
  rw [hs]
  exact ⟨List.suffix_append _ _, rfl⟩

end Token.Reader

/-- A reader of manifests goes on in the stream that it is in. -/
theorem Manifest.Traces.recedes {α : Type} {r : Reader α} {P : (Lines → α) → Prop}
    (h : ∀ whole, Traces whole P fun _ => r) : Recedes r := by
  intro s a t hr
  have htraced := h s s (.refl s)
  generalize hx : (fun f => r (s.on f)) = x at htraced
  -- The stream is on lines of its own, and so is what is left of it.
  have hown := congrFun hx fun left => s.lineAt (s.size - left)
  rw [on_lineAt, hr] at hown
  cases htraced with
  | error => cases hown
  | ok _ ht =>
    obtain ⟨-, rfl⟩ := Prod.mk.inj (Except.ok.inj hown)
    have hmoved := ht.on fun left => s.lineAt (s.size - left)
    rwa [on_lineAt] at hmoved

/-! ## Every turn takes tokens -/

namespace Loop

variable {α : Type}

theorem advances_modifiers (words : List String) : (modifiers words).Advances := by
  intro s t ht
  simp only [modifiers] at ht ⊢
  split at ht
  · next h =>
    obtain rfl := Turn.again.inj ht
    have hk : s.head.kind = .identifier := eq_of_beq (Bool.and_eq_true_iff.1 h).1
    exact ⟨s.tail_within, size_tail_lt (by rw [hk]; decide)⟩
  · cases ht

theorem advances_items (closing : Kind) {item : Reader α} (hc : Consumes item) (hr : Recedes item) :
    (items closing item).Advances := by
  intro x y ht
  simp only [items] at ht ⊢
  split at ht
  · cases ht
  · split at ht
    · cases ht
    · next a t hi =>
      obtain rfl := Turn.again.inj ht
      exact ⟨hr _ _ _ hi, hc _ _ _ hi⟩

theorem advances_changes (closing : Kind) {item : α → Reader α} (hc : ∀ a, Consumes (item a))
    (hr : ∀ a, Recedes (item a)) : (changes closing item).Advances := by
  intro x y ht
  simp only [changes] at ht ⊢
  split at ht
  · cases ht
  · split at ht
    · cases ht
    · next a t hi =>
      obtain rfl := Turn.again.inj ht
      exact ⟨hr _ _ _ _ hi, hc _ _ _ _ hi⟩

theorem advances_listed (separator : Kind) {item : Reader α} (hc : Consumes item) (hr : Recedes item) :
    (listed separator item).Advances := by
  intro x y ht
  simp only [listed] at ht ⊢
  split at ht
  · cases ht
  · next a t hi =>
    split at ht
    · obtain rfl := Turn.again.inj ht
      exact ⟨(hr _ _ _ hi).tail, Nat.lt_of_le_of_lt (size_tail_le t) (hc _ _ _ hi)⟩
    · cases ht

theorem advances_template : template.Advances := by
  intro x y ht
  simp only [template] at ht ⊢
  split at ht
  · cases ht
  next hend =>
  have hlt := size_tail_lt (s := x.rest) fun h => hend (beq_iff_eq.2 h)
  have hadvanced := And.intro x.rest.tail_within hlt
  split at ht
  · exact Turn.again.inj ht ▸ hadvanced
  split at ht
  · split at ht
    · cases ht
    · exact Turn.again.inj ht ▸ hadvanced
  · exact Turn.again.inj ht ▸ hadvanced

theorem advances_body (function : String) (line : UInt32) : (body function line).Advances := by
  intro x y ht
  simp only [body] at ht ⊢
  split at ht
  · have hadvanced := fun h => And.intro x.2.tail_within (size_tail_lt (s := x.2) h)
    split at ht
    · next hk => exact Turn.again.inj ht ▸ hadvanced (by rw [hk]; decide)
    · next hk => exact Turn.again.inj ht ▸ hadvanced (by rw [hk]; decide)
    · cases ht
    · next hk => exact Turn.again.inj ht ▸ hadvanced hk
  · cases ht

theorem advances_statement (line : UInt32) : (statement line).Advances := by
  intro s t ht
  simp only [statement] at ht ⊢
  split at ht
  · cases ht
  · cases ht
  · next hk => exact Turn.again.inj ht ▸ ⟨s.tail_within, size_tail_lt hk⟩

theorem recedes_declare {i : Interface} {first : Token} {s t : Stream} {added : Interface × List Warning}
    (h : i.declare first s = .ok (added, t)) : t.Within s := by
  obtain ⟨d, hd, -⟩ := Interface.declare_eq_ok.1 h
  have hsame : SameShape first first := rfl
  exact (Declaration.alike_startingWith i.types hsame).recedes s d t hd

theorem advances_declarations : declarations.Advances := by
  rintro ⟨i, warnings, s⟩ y ht
  simp only [declarations] at ht ⊢
  split at ht
  · cases ht
  next hend =>
  have hlt := size_tail_lt (s := s) fun h => hend (beq_iff_eq.2 h)
  split at ht
  · cases ht
  · next i' more t hd =>
    obtain rfl := Turn.again.inj ht
    exact ⟨(recedes_declare hd).trans s.tail_within, Nat.lt_of_le_of_lt (Interface.size_declare hd) hlt⟩

theorem advances_shaders : shaders.Advances := by
  intro x y ht
  simp only [shaders] at ht ⊢
  split at ht
  · cases ht
  split at ht
  · cases ht
  · next e t he =>
    split at ht
    · cases ht
    · obtain rfl := Turn.again.inj ht
      exact ⟨Manifest.Traces.recedes (fun _ => Manifest.traces_entry) _ _ _ he, Manifest.consumes_entry _ _ _ he⟩

end Loop

end ShaderBuild
