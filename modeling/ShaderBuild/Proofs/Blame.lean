import ShaderBuild.Proofs.ManifestText
import ShaderBuild.Proofs.Positions
import ShaderBuild.Proofs.Shapes
/-!
# Which token a manifest fails at

Readers of manifests do not look at lines, so they do the same on tokens that are moved to other lines
(`Traces`). What they fail with is on the line of one of the tokens, the same one wherever the tokens stand, and
what they say of it is so (`ManifestFault.About`).
-/

namespace ShaderBuild

open Token Reader

/-! ## Other lines -/

/-- Lines for the tokens of a stream, by how many tokens are left when one of them is next. -/
abbrev Lines := Nat → UInt32

/-- A token on another line. -/
def Token.on (line : UInt32) (t : Token) : Token := { t with line }

/-- Tokens on other lines. -/
def Token.listOn (f : Lines) : List Token → List Token
  | [] => []
  | t :: ts => t.on (f (ts.length + 1)) :: listOn f ts

/-- The same stream on other lines. -/
def Token.Stream.on (f : Lines) (s : Stream) : Stream := ⟨listOn f s.tokens, f 0⟩

/-- The same fault, with the token on another line. -/
def ManifestFault.on (line : UInt32) : ManifestFault → ManifestFault
  | unexpected found expected => unexpected (found.on line) expected
  | expectedValue found => expectedValue (found.on line)
  | fault => fault

/-- A shader of a manifest on another line. -/
def ManifestEntry.on (line : UInt32) (e : ManifestEntry) : ManifestEntry := { e with line }

/-- What a fault says is so of the next token, which it is about. -/
def ManifestFault.About (s : Stream) : ManifestFault → Prop
  | unexpected found expected => s.head = found ∧ found.kind ≠ expected
  | expectedWord word found => s.head.kind = .identifier ∧ s.head.text = found ∧ found ≠ word
  | expectedValue found => s.head = found ∧ found.kind ∉ [Kind.string, .identifier, .integer, .float]
  | unknownStage name => s.head.kind = .identifier ∧ s.head.text = name ∧ Stage.ofName? name = none
  | duplicateStage stage _ => s.head.kind = .identifier ∧ Stage.ofName? s.head.text = some stage
  | stageWithoutFile stage _ => s.head.kind = .identifier ∧ Stage.ofName? s.head.text = some stage
  | unknownStatement word => s.head.kind = .identifier ∧ s.head.text = word ∧ word ∉ ["file", "entrypoint", "define"]
  | duplicateShader name => s.head.shape = (.identifier, "shader") ∧ s.tail.head.shape = (.identifier, name)

/-- One stream is what is left of another. -/
def Token.Stream.Within (s whole : Stream) : Prop := s.tokens <:+ whole.tokens ∧ s.endLine = whole.endLine

/-- A stream from its `k`-th token on. -/
def Token.Stream.onward (s : Stream) (k : Nat) : Stream := ⟨s.tokens.drop k, s.endLine⟩

section Streams
variable {s whole : Stream} {f : Lines}

theorem Token.Stream.Within.tail (h : s.Within whole) : s.tail.Within whole :=
  ⟨(List.tail_suffix s.tokens).trans h.1, h.2⟩

theorem Token.Stream.Within.eq_onward (h : s.Within whole) : s = whole.onward (whole.size - s.size) := by
  obtain ⟨tokens, line⟩ := s
  obtain ⟨hsuffix, rfl⟩ := h
  exact congrArg (Stream.mk · whole.endLine) (List.suffix_iff_eq_drop.1 hsuffix)

@[simp] theorem Token.length_listOn (f : Lines) (ts : List Token) : (listOn f ts).length = ts.length := by
  induction ts with
  | nil => rfl
  | cons t ts ih => rw [listOn, List.length_cons, ih, List.length_cons]

theorem Token.listOn_drop (f : Lines) (ts : List Token) (k : Nat) : listOn f (ts.drop k) = (listOn f ts).drop k := by
  induction ts generalizing k with
  | nil => rw [List.drop_nil, listOn, List.drop_nil]
  | cons t ts ih =>
    cases k with
    | zero => rfl
    | succ k => exact ih k

theorem Token.getElem?_listOn (f : Lines) (ts : List Token) (k : Nat) :
    (listOn f ts)[k]? = ts[k]?.map (Token.on (f (ts.length - k))) := by
  induction ts generalizing k with
  | nil => rfl
  | cons t ts ih =>
    cases k with
    | zero => rfl
    | succ k => rw [listOn, List.getElem?_cons_succ, List.getElem?_cons_succ, ih, List.length_cons, Nat.add_sub_add_right]

@[simp] theorem Token.size_on (f : Lines) (s : Stream) : (s.on f).size = s.size := length_listOn f s.tokens

@[simp] theorem Token.head_on (f : Lines) (s : Stream) : (s.on f).head = s.head.on (f s.size) := by
  obtain ⟨tokens, line⟩ := s
  cases tokens with
  | nil => rfl
  | cons => rfl

@[simp] theorem Token.tail_on (f : Lines) (s : Stream) : (s.on f).tail = s.tail.on f := by
  obtain ⟨tokens, line⟩ := s
  cases tokens with
  | nil => rfl
  | cons => rfl

theorem Token.onward_on (f : Lines) (s : Stream) (k : Nat) : (s.on f).onward k = (s.onward k).on f :=
  congrArg (Stream.mk · (f 0)) (listOn_drop f s.tokens k).symm

theorem Token.Stream.Within.on (h : s.Within whole) (f : Lines) : (s.on f).Within (whole.on f) := by
  rw [congrArg (Stream.on f) h.eq_onward, ← onward_on]
  exact ⟨List.drop_suffix _ _, rfl⟩

/-- On its own lines a stream is as it was. -/
theorem Token.on_lineAt (s : Stream) : s.on (fun left => s.lineAt (s.size - left)) = s := by
  obtain ⟨ts, line⟩ := s
  have htokens : listOn (fun left => Stream.lineAt ⟨ts, line⟩ (ts.length - left)) ts = ts := by
    refine List.ext_getElem? fun k => ?_
    rw [getElem?_listOn]
    cases hk : ts[k]? with
    | none => rfl
    | some t =>
      obtain ⟨hlt, -⟩ := List.getElem?_eq_some_iff.1 hk
      have hplace : ts.length - (ts.length - k) = k := by omega
      simp [Token.on, Stream.lineAt, hplace, hk]
  have hend : Stream.lineAt ⟨ts, line⟩ (ts.length - 0) = line := by simp [Stream.lineAt]
  rw [Stream.on]
  exact congrArg₂ Stream.mk htokens hend

theorem Token.on_lineAt_of_within (h : s.Within whole) :
    s.on (fun left => whole.lineAt (whole.size - left)) = whole.onward (whole.size - s.size) := by
  rw [congrArg (Stream.on _) h.eq_onward, ← onward_on, on_lineAt]

theorem ManifestFault.About.on {fault : ManifestFault} (h : fault.About s) (f : Lines) :
    (fault.on (f s.size)).About (s.on f) := by
  cases fault with
  | unexpected found expected =>
    obtain ⟨rfl, hk⟩ := h
    exact ⟨head_on f s, hk⟩
  | expectedValue found =>
    obtain ⟨rfl, hk⟩ := h
    exact ⟨head_on f s, hk⟩
  | duplicateShader name =>
    refine ⟨?_, ?_⟩
    · rw [head_on]
      exact h.1
    · rw [tail_on, head_on]
      exact h.2
  | _ =>
    simp only [About, ManifestFault.on, head_on] at h ⊢
    exact h

end Streams

namespace Manifest

variable {α β : Type}

/-! ## Readers on other lines -/

/-- What a reader comes to on the same tokens on any lines: a result that may have some of the lines in it, or a fault
that is about one of the tokens, which is the same one on all lines. -/
inductive Traced (whole : Stream) (P : (Lines → α) → Prop) : (Lines → Except Error (α × Stream)) → Prop
  | ok {a : Lines → α} {s : Stream} (h : P a) (hs : s.Within whole) : Traced whole P fun f => .ok (a f, s.on f)
  | error {s : Stream} {fault : ManifestFault} (hs : s.Within whole) (h : fault.About s) :
    Traced whole P fun f => .error (.manifest (f s.size) (fault.on (f s.size)))

/-- A reader does the same on any lines. It may have been made with some of the lines. -/
def Traces (whole : Stream) (P : (Lines → α) → Prop) (r : Lines → Reader α) : Prop :=
  ∀ s : Stream, s.Within whole → Traced whole P fun f => r f (s.on f)

/-- There are no lines in it. -/
def Lineless (a : Lines → α) : Prop := ∃ b, a = fun _ => b

/-- The token stands first in a part of the stream. -/
def Seen (whole : Stream) (t : Lines → Token) : Prop := ∃ s : Stream, s.Within whole ∧ t = fun f => s.head.on (f s.size)

section Readers
variable {whole : Stream} {P : (Lines → α) → Prop} {Q : (Lines → β) → Prop} {r : Lines → Reader α}
  {g : Lines → α → Reader β}

theorem Traced.of_eq {x y : Lines → Except Error (α × Stream)} (hy : Traced whole P y) (h : ∀ f, x f = y f) :
    Traced whole P x := by
  obtain rfl : x = y := funext h
  exact hy

theorem Traces.bind (h : Traces whole P r) (hg : ∀ a, P a → Traces whole Q fun f => g f (a f)) :
    Traces whole Q fun f => r f >>= g f := by
  intro s hs
  have hr := h s hs
  generalize hx : (fun f => r f (s.on f)) = x at hr
  cases hr with
  | ok ha ht => exact (hg _ ha _ ht).of_eq fun f => bind_of_ok (congrFun hx f)
  | error ht hf => exact (Traced.error ht hf).of_eq fun f => bind_of_error (congrFun hx f)

theorem Traces.pure {a : Lines → α} (h : P a) : Traces whole P fun f => Pure.pure (a f) :=
  fun _ hs => .ok h hs

theorem Traces.map {h : α → β} (hr : Traces whole P r) (hh : ∀ a, P a → Q fun f => h (a f)) :
    Traces whole Q fun f => h <$> r f := by
  simp only [map_eq_pure_bind]
  exact hr.bind fun a ha => Traces.pure (hh a ha)

/-- A fault that is found later with a token that was read. -/
theorem Traces.throw {s : Stream} (hs : s.Within whole) (fault : ManifestFault) (h : fault.About s) :
    Traces whole P fun f => throw (.manifest (f s.size) (fault.on (f s.size))) :=
  fun _ _ => .error hs h

theorem lineless (a : α) : Lineless fun _ => a := ⟨a, rfl⟩

theorem traces_next : Traces whole (Seen whole) fun _ => next := by
  intro s hs
  refine (Traced.ok ⟨s, hs, rfl⟩ hs.tail).of_eq fun f => ?_
  dsimp only [next]
  rw [head_on, tail_on]

theorem traces_expect (kind : Kind) :
    Traces whole (fun t => Seen whole t ∧ ∀ f, (t f).kind = kind) fun _ => expect kind := by
  intro s hs
  by_cases hk : s.head.kind = kind
  · refine (Traced.ok ⟨⟨s, hs, rfl⟩, fun _ => hk⟩ hs.tail).of_eq fun f => ?_
    dsimp only [expect, require]
    rw [head_on, tail_on]
    exact if_pos hk
  · have habout : (ManifestFault.unexpected s.head kind).About s := ⟨rfl, hk⟩
    refine (Traced.error hs habout).of_eq fun f => ?_
    dsimp only [expect, require]
    rw [head_on]
    exact if_neg hk

theorem traces_accept (kind : Kind) : Traces whole Lineless fun _ => accept kind := by
  intro s hs
  by_cases hk : s.head.kind = kind
  · refine (Traced.ok (lineless true) hs.tail).of_eq fun f => ?_
    dsimp only [accept]
    rw [head_on, tail_on]
    exact if_pos hk
  · refine (Traced.ok (lineless false) hs).of_eq fun f => ?_
    dsimp only [accept]
    rw [head_on]
    exact if_neg hk

theorem traces_after (kind : Kind) (h : Traces whole Lineless r) : Traces whole Lineless fun f => after kind (r f) := by
  refine (traces_accept kind).bind ?_
  rintro _ ⟨found, rfl⟩
  cases found with
  | true =>
    refine h.map ?_
    rintro _ ⟨a, rfl⟩
    exact lineless (some a)
  | false => exact .pure (lineless none)

theorem traces_foldUntil (closing : Kind) {item : α → Reader α} (hc : ∀ a, Consumes (item a))
    (h : ∀ a, Traces whole Lineless fun _ => item a) (before : α) :
    Traces whole Lineless fun _ => foldUntil closing item hc before := by
  intro s hs
  induction hn : s.size using Nat.strongRecOn generalizing before s with
  | _ n ih =>
    subst hn
    by_cases hk : s.head.kind = closing
    · refine (Traced.ok (lineless before) hs.tail).of_eq fun f => ?_
      dsimp only
      rw [foldUntil, head_on, if_pos (show (s.head.on (f s.size)).kind = closing from hk), tail_on]
    · have hkind (f : Lines) : (s.on f).head.kind ≠ closing := head_on f s ▸ hk
      have hitem := h before s hs
      generalize hx : (fun f => item before (s.on f)) = x at hitem
      cases hitem with
      | error ht hf => exact (Traced.error ht hf).of_eq fun f => foldUntil_of_error (hkind f) (congrFun hx f)
      | @ok _ t ha hw =>
        obtain ⟨a, rfl⟩ := ha
        have hlt : t.size < s.size := by
          have hlt := hc before _ _ _ (congrFun hx fun _ => 0)
          rwa [size_on, size_on] at hlt
        exact (ih t.size hlt a t hw rfl).of_eq fun f => foldUntil_of_ok (hkind f) (congrFun hx f)

end Readers

/-! ## The parts of a manifest -/

section Parts
variable {whole : Stream}

theorem traces_keyword (word : String) : Traces whole (fun _ => True) fun _ => keyword word := by
  refine (traces_expect .identifier).bind ?_
  rintro _ ⟨⟨s, hs, rfl⟩, hk⟩
  by_cases hw : s.head.text = word
  · exact fun t ht => (Traces.pure trivial t ht).of_eq fun f => congrFun (if_pos hw) _
  · have hfault := Traces.throw (P := fun _ : Lines → Token => True) hs
      (.expectedWord word s.head.text) ⟨hk fun _ => 0, rfl, hw⟩
    exact fun t ht => (hfault t ht).of_eq fun f => congrFun (if_neg hw) _

theorem traces_valueOf {t : Lines → Token} (h : Seen whole t) :
    Traces whole Lineless fun f => (liftM (valueOf (t f)) : Reader String) := by
  obtain ⟨s, hs, rfl⟩ := h
  have hkind (line : UInt32) : (s.head.on line).kind = s.head.kind := rfl
  have htext (line : UInt32) : (s.head.on line).text = s.head.text := rfl
  simp only [valueOf, hkind, htext]
  split
  · exact .pure (lineless _)
  · exact .pure (lineless _)
  · exact .pure (lineless _)
  · exact .pure (lineless _)
  · next h1 h2 h3 h4 => exact .throw hs (.expectedValue s.head) ⟨rfl, by simpa using ⟨h1, h2, h3, h4⟩⟩

theorem traces_value : Traces whole Lineless fun _ => next >>= fun t => (liftM (valueOf t) : Reader String) :=
  traces_next.bind fun _ => traces_valueOf

theorem traces_assigned : Traces whole Lineless fun _ => assigned :=
  (traces_expect .equals).bind fun _ _ => traces_value

theorem traces_name : Traces whole Lineless fun _ => Token.text <$> expect .identifier := by
  refine (traces_expect .identifier).map ?_
  rintro _ ⟨⟨s, -, rfl⟩, -⟩
  exact lineless s.head.text

theorem traces_definition : Traces whole Lineless fun _ => definition := by
  refine traces_name.bind ?_
  rintro _ ⟨name, rfl⟩
  refine (traces_after .equals traces_value).bind ?_
  rintro _ ⟨value, rfl⟩
  exact .pure (lineless _)

theorem traces_effect (source : StageSource) {key : Lines → Token} (h : Seen whole key)
    (hk : ∀ f, (key f).kind = .identifier) : Traces whole Lineless fun f => effect source (key f) := by
  obtain ⟨s, hs, rfl⟩ := h
  have htext (line : UInt32) : (s.head.on line).text = s.head.text := rfl
  simp only [effect, htext]
  split
  · refine traces_assigned.bind ?_
    rintro _ ⟨file, rfl⟩
    exact .pure (lineless _)
  split
  · refine traces_assigned.bind ?_
    rintro _ ⟨entryPoint, rfl⟩
    exact .pure (lineless _)
  split
  · refine traces_definition.bind ?_
    rintro _ ⟨m, rfl⟩
    exact .pure (lineless _)
  · next h1 h2 h3 =>
    exact .throw hs (.unknownStatement s.head.text) ⟨hk fun _ => 0, rfl, by simp [h1, h2, h3]⟩

theorem traces_statement (source : StageSource) : Traces whole Lineless fun _ => statement source := by
  refine (traces_expect .identifier).bind ?_
  rintro key ⟨hkey, hk⟩
  refine (traces_effect source hkey hk).bind ?_
  rintro _ ⟨source, rfl⟩
  exact (traces_expect .semicolon).bind fun _ _ => .pure (lineless source)

theorem traces_stageBody : Traces whole Lineless fun _ => stageBody :=
  (traces_expect .blockOpen).bind fun _ _ => traces_foldUntil .blockClose consumes_statement traces_statement {}

theorem traces_stage (shader : String) (unit : ShaderUnit) : Traces whole Lineless fun _ => stage shader unit := by
  refine (traces_keyword "stage").bind fun _ _ => (traces_expect .identifier).bind ?_
  rintro _ ⟨⟨s, hs, rfl⟩, hk⟩
  have hk : s.head.kind = .identifier := hk fun _ => 0
  have htext (line : UInt32) : (s.head.on line).text = s.head.text := rfl
  simp only [htext]
  split
  · next hnone => exact .throw hs (.unknownStage s.head.text) ⟨hk, rfl, hnone⟩
  -- Both faults that are left are found after the name of the stage, and are about it.
  next st hst =>
  split
  · refine traces_stageBody.bind ?_
    rintro _ ⟨source, rfl⟩
    by_cases habsent : source.isAbsent = true
    · simp only [habsent, if_true]
      exact .throw hs (.stageWithoutFile st shader) ⟨hk, hst⟩
    · simp only [habsent, if_false, Bool.false_eq_true]
      exact .pure (lineless _)
  · exact .throw hs (.duplicateStage st shader) ⟨hk, hst⟩

theorem traces_entry :
    Traces whole (fun e => ∃ e₀ : ManifestEntry, ∀ f, e f = e₀.on (e f).line) fun _ => entry := by
  refine (traces_keyword "shader").bind fun start _ => ?_
  refine traces_name.bind ?_
  rintro _ ⟨name, rfl⟩
  refine (traces_expect .blockOpen).bind fun _ _ => ?_
  refine (traces_foldUntil .blockClose _ (traces_stage name) _).bind ?_
  rintro _ ⟨unit, rfl⟩
  exact (traces_accept .semicolon).bind fun _ _ => .pure ⟨⟨name, unit, 0⟩, fun _ => rfl⟩

end Parts

/-! ## Manifests -/

/-- The shader begins at the next token: it is the keyword, and the name comes next. -/
structure BeginsAt (e : ManifestEntry) (s : Stream) : Prop where
  keyword : s.head.shape = (.identifier, "shader")
  name : s.tail.head.shape = (.identifier, e.name)
  line : s.head.line = e.line

theorem beginsAt_of_entry {s s' : Stream} {e : ManifestEntry} (h : entry s = .ok (e, s')) : BeginsAt e s := by
  obtain ⟨start, s₁, h1, h⟩ := bind_eq_ok h
  obtain ⟨hstart, hk, hword⟩ := Written.keyword_eq_ok h1
  obtain ⟨name, s₂, h2, h⟩ := bind_eq_ok h
  obtain ⟨t, ht, rfl⟩ := Written.map_eq_ok h2
  obtain ⟨ht, hkt⟩ := Written.expect_eq_ok (by decide) ht
  obtain ⟨_, s₃, -, h⟩ := bind_eq_ok h
  obtain ⟨unit, s₄, -, h⟩ := bind_eq_ok h
  obtain ⟨_, s₅, -, h⟩ := bind_eq_ok h
  obtain ⟨rfl, -⟩ := Prod.mk.inj (Except.ok.inj h)
  have hhead : s.head = start := by rw [Stream.head, hstart, List.headD_cons]
  have hnext : s.tail.head = t := by rw [Stream.head, Stream.tail, hstart, List.tail_cons, ht, List.headD_cons]
  refine ⟨?_, ?_, congrArg Token.line hhead⟩
  · rw [hhead]
    exact Prod.ext hk hword
  · rw [hnext]
    exact Prod.ext hkt rfl

/-- A manifest whose shaders begin where some number of tokens is left. -/
def listed (es : List (ManifestEntry × Nat)) (f : Lines) : Manifest := ⟨es.map fun e => e.1.on (f e.2)⟩

/-- Each of these shaders begins at some part of the stream, whatever lines it is on. -/
def Begin (whole : Stream) (es : List (ManifestEntry × Nat)) : Prop :=
  ∀ e ∈ es, ∃ s : Stream, s.Within whole ∧ s.size = e.2 ∧ ∀ f, BeginsAt (e.1.on (f e.2)) (s.on f)

/-- What reading a manifest comes to on the same tokens on any lines. -/
inductive Found (whole : Stream) : (Lines → Except Error Manifest) → Prop
  | ok {es : List (ManifestEntry × Nat)} (h : Begin whole es) : Found whole fun f => .ok (listed es f)
  | error {s : Stream} {fault : ManifestFault} (hs : s.Within whole) (h : fault.About s) :
    Found whole fun f => .error (.manifest (f s.size) (fault.on (f s.size)))

section Extend
variable {whole s : Stream} {es : List (ManifestEntry × Nat)}

theorem Found.of_eq {x y : Lines → Except Error Manifest} (hy : Found whole y) (h : ∀ f, x f = y f) : Found whole x := by
  obtain rfl : x = y := funext h
  exact hy

theorem isSome_find?_listed (f : Lines) (name : String) :
    ((listed es f).find? name).isSome = true ↔ name ∈ es.map fun e => e.1.name := by
  rw [Written.isSome_find?, listed, List.map_map]
  rfl

theorem listed_concat (e : ManifestEntry) (k : Nat) (f : Lines) :
    listed (es ++ [(e, k)]) f = ⟨(listed es f).entries ++ [e.on (f k)]⟩ :=
  congrArg Manifest.mk List.map_append

/-- On any lines the same shaders are found, or the same fault. -/
theorem found_extend (hm : Begin whole es) (hs : s.Within whole) :
    Found whole fun f => extend (listed es f) (s.on f) := by
  induction hn : s.size using Nat.strongRecOn generalizing es s with
  | _ n ih =>
    subst hn
    have hisEnd (f : Lines) : (s.on f).head.isEnd = s.head.isEnd := by rw [head_on]; rfl
    by_cases hend : s.head.isEnd = true
    · refine (Found.ok hm).of_eq fun f => ?_
      rw [extend, if_pos ((hisEnd f).trans hend)]
    have hgoes (f : Lines) : ¬ (s.on f).head.isEnd = true := (hisEnd f).symm ▸ hend
    have hentry := traces_entry s hs
    generalize hx : (fun f => entry (s.on f)) = x at hentry
    cases hentry with
    | error ht hf =>
      exact (Found.error ht hf).of_eq fun f => Written.extend_of_entry_error (hgoes f) (congrFun hx f)
    | @ok e t he ht =>
      have hbegins (f : Lines) : BeginsAt (e f) (s.on f) := beginsAt_of_entry (congrFun hx f)
      obtain ⟨e₀, he₀⟩ := he
      have hline (f : Lines) : (e f).line = f s.size := (hbegins f).line.symm.trans (by rw [head_on]; rfl)
      obtain rfl : e = fun f => e₀.on (f s.size) := funext fun f => by rw [he₀ f, hline f]
      by_cases hdup : e₀.name ∈ es.map fun e => e.1.name
      · -- the keyword of the second shader is to blame, which was read long before
        have habout : (ManifestFault.duplicateShader e₀.name).About s := by
          obtain ⟨hkeyword, hname, -⟩ := hbegins fun _ => 0
          rw [head_on] at hkeyword
          rw [tail_on, head_on] at hname
          exact ⟨hkeyword, hname⟩
        refine (Found.error hs habout).of_eq fun f => ?_
        rw [Written.extend_of_entry (hgoes f) (congrFun hx f)]
        exact if_pos ((isSome_find?_listed f _).2 hdup)
      · have hm' : Begin whole (es ++ [(e₀, s.size)]) := by
          rw [Begin, List.forall_mem_append]
          exact ⟨hm, List.forall_mem_singleton.2 ⟨s, hs, rfl, hbegins⟩⟩
        have hlt : t.size < s.size := by
          have hlt := consumes_entry _ _ _ (congrFun hx fun _ => 0)
          rwa [size_on, size_on] at hlt
        refine (ih t.size hlt hm' ht rfl).of_eq fun f => ?_
        rw [Written.extend_of_entry (hgoes f) (congrFun hx f), listed_concat]
        exact if_neg fun h => hdup ((isSome_find?_listed f _).1 h)

theorem found_all (s : Stream) : Found s fun f => extend {} (s.on f) :=
  have hnone : Begin s [] := fun _ he => nomatch he
  found_extend hnone ⟨List.suffix_rfl, rfl⟩

end Extend

/-! ## The token that is to blame -/

/-- These tokens, each on the line that is given for its place, and then the end. -/
def placed (f : Nat → UInt32) (ts : List Token) : Stream := ⟨ts.mapIdx fun k t => t.on (f k), f ts.length⟩

/-- The manifest with these tokens is at fault in the `k`-th of them, or in that they end there: whatever lines the
tokens are on, the error is on the line of that one. -/
def Blames (ts : List Token) (k : Nat) : Prop :=
  ∀ f, ∃ fault, extend {} (placed f ts) = .error (.manifest (f k) fault)

theorem placed_eq (f : Nat → UInt32) (s : Stream) : placed f s.tokens = s.on fun left => f (s.size - left) := by
  have htokens : s.tokens.mapIdx (fun k t => t.on (f k)) = listOn (fun left => f (s.size - left)) s.tokens := by
    refine List.ext_getElem? fun k => ?_
    rw [List.getElem?_mapIdx, getElem?_listOn]
    cases hk : s.tokens[k]? with
    | none => rfl
    | some t =>
      obtain ⟨hlt, -⟩ := List.getElem?_eq_some_iff.1 hk
      have hplace : s.size - (s.tokens.length - k) = k := by rw [Stream.size]; omega
      rw [Option.map_some, Option.map_some, hplace]
  exact congrArg (Stream.mk · (f s.tokens.length)) htokens

/-- A manifest fails with a fault of the token that is to blame, on its line. -/
theorem exists_blames {s : Stream} {error : Error} (h : extend {} s = .error error) :
    ∃ k fault, error = .manifest (s.lineAt k) fault ∧ Blames s.tokens k ∧ fault.About (s.onward k) := by
  have hfound := found_all s
  generalize hx : (fun f => extend {} (s.on f)) = x at hfound
  -- The lines that the stream is on are among all others.
  have hown := congrFun hx fun left => s.lineAt (s.size - left)
  rw [on_lineAt, h] at hown
  cases hfound with
  | ok => cases hown
  | @error t fault ht habout =>
    obtain rfl := Except.error.inj hown
    refine ⟨s.size - t.size, _, rfl, fun f => ⟨fault.on (f (s.size - t.size)), ?_⟩, ?_⟩
    · rw [placed_eq]
      exact congrFun hx fun left => f (s.size - left)
    · have hmoved := habout.on fun left => s.lineAt (s.size - left)
      rwa [on_lineAt_of_within ht] at hmoved

/-- The line of a shader is that of its first token. -/
theorem exists_beginsAt {s : Stream} {m : Manifest} (h : extend {} s = .ok m) :
    ∀ e ∈ m.entries, ∃ k, e.line = s.lineAt k ∧ BeginsAt e (s.onward k) := by
  have hfound := found_all s
  generalize hx : (fun f => extend {} (s.on f)) = x at hfound
  have hown := congrFun hx fun left => s.lineAt (s.size - left)
  rw [on_lineAt, h] at hown
  cases hfound with
  | error => cases hown
  | ok hes =>
    obtain rfl := Except.ok.inj hown
    intro e he
    obtain ⟨⟨e₀, k⟩, he₀, rfl⟩ := List.mem_map.1 he
    obtain ⟨t, ht, rfl, hbegins⟩ := hes _ he₀
    exact ⟨s.size - t.size, rfl, on_lineAt_of_within ht ▸ hbegins fun left => s.lineAt (s.size - left)⟩

end Manifest

end ShaderBuild
