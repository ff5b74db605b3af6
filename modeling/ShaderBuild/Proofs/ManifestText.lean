import ShaderBuild.Proofs.Listings
/-!
# Reading manifests

The reader of manifests takes the words of a listing and gives the shaders that it lists (`extend_blocks`), and it takes
nothing else: whatever it accepts are the words of a listing (`extend_sound`). There is one lemma in each direction for
every reader that it is made of.
-/

namespace ShaderBuild.Written

open Token Reader Manifest Text

/-! ## Listings are read -/

section Completeness
variable {P : Token → Prop}

theorem reads_assigned (v : Value) : Reads assigned [equals, v.word] v.text Anything :=
  Reads.require_bind _ rfl fun _ _ => Reads.next_bind fun _ ht => Reads.liftM (v.valueOf_of_shape ht)

theorem reads_definition (name : Name) (value : Option Value) :
    Reads definition (name.word :: optional (fun v => [equals, v.word]) value)
      ⟨name.text, (value.map Value.text).getD ""⟩ (NotKind .equals) := by
  have hname : Reads (Token.text <$> expect .identifier) [name.word] name.text Anything :=
    Reads.require_map _ rfl fun _ ht => text_of_shape ht
  have hvalue : Reads (after .equals (next >>= fun t => liftM (valueOf t))) (optional (fun v => [equals, v.word]) value)
      (value.map Value.text) (NotKind .equals) := by
    cases value with
    | none => exact Reads.after_none
    | some v => exact Reads.after_some rfl (Reads.next_bind fun _ ht => Reads.liftM (v.valueOf_of_shape ht))
  have hmacro := hvalue.bind_pure fun v => Macro.mk name.text (v.getD "")
  exact hname.bind hmacro follows_anything

theorem reads_statement (source : StageSource) (st : Statement) :
    Reads (statement source) st.words (st.apply source) Anything := by
  cases st with
  | file value =>
    refine Reads.require_bind _ rfl fun key hk => ?_
    have he : effect source key = (assigned >>= fun file => pure { source with file := ⟨file⟩ }) :=
      if_pos (text_of_shape hk)
    have hr := (reads_assigned value).bind_pure fun file => { source with file := ⟨file⟩ }
    rw [← he] at hr
    exact hr.bind (Reads.require_bind _ rfl fun _ _ => Reads.pure _) follows_anything
  | entryPoint value =>
    refine Reads.require_bind _ rfl fun key hk => ?_
    have ht : key.text = "entrypoint" := text_of_shape hk
    have he : effect source key = (assigned >>= fun entryPoint => pure { source with entryPoint := entryPoint }) := by
      rw [effect, ht, if_neg (by decide), if_pos rfl]
    have hr := (reads_assigned value).bind_pure fun entryPoint => { source with entryPoint := entryPoint }
    rw [← he] at hr
    exact hr.bind (Reads.require_bind _ rfl fun _ _ => Reads.pure _) follows_anything
  | define name value =>
    refine Reads.require_bind _ rfl fun key hk => ?_
    have ht : key.text = "define" := text_of_shape hk
    have he : effect source key = (definition >>= fun m => pure { source with macros := source.macros ++ [m] }) := by
      rw [effect, ht, if_neg (by decide), if_neg (by decide), if_pos rfl]
    have hr := (reads_definition name value).bind_pure fun m => { source with macros := source.macros ++ [m] }
    rw [← he] at hr
    have hend : Reads (expect .semicolon >>= fun _ => pure (Statement.apply source (.define name value))) [semicolon]
        (Statement.apply source (.define name value)) Anything :=
      Reads.require_bind _ rfl fun _ _ => Reads.pure _
    exact hr.bind hend (follows_kind (by decide))

theorem reads_stageBody (ss : List Statement) :
    Reads stageBody (blockOpen :: (ss.flatMap Statement.words ++ [blockClose])) (sourceOf ss) P := by
  have hstart : ∀ st : Statement, Follows (NotKind .blockClose) st.words Anything := by
    intro st
    cases st <;> exact follows_kind (by decide)
  have hall : Along Statement.apply (fun _ _ => True) {} ss := by
    generalize ({} : StageSource) = source
    induction ss generalizing source with
    | nil => trivial
    | cons st ss ih => exact ⟨trivial, ih _⟩
  exact Reads.require_bind _ rfl fun _ _ =>
    Reads.foldUntil Statement.words _ rfl (fun source st _ => reads_statement source st) hstart hall

theorem keyword_bind {β : Type} {f : Token → Reader β} {word : String} (hw : IsName word) {ws : List Word} {b : β}
    (h : ∀ t : Token, Reads (f t) ws b P) : Reads (Manifest.keyword word >>= f) (fixed word hw :: ws) b P := by
  rw [Manifest.keyword, bind_assoc]
  refine Reads.require_bind _ rfl fun t ht => ?_
  have hword : t.text = word := text_of_shape ht
  rw [if_pos hword, pure_bind]
  exact h t

theorem reads_stage (shader : String) {unit : ShaderUnit} (b : StageBlock) (hb : (unit.get b.stage).isAbsent = true) :
    Reads (stage shader unit) b.words (b.addTo unit) Anything := by
  refine keyword_bind _ fun _ => Reads.require_bind _ rfl fun t ht => ?_
  have hn : Stage.ofName? t.text = some b.stage := by
    rw [text_of_shape ht]
    exact b.named
  rw [hn]
  dsimp only
  rw [if_pos hb]
  refine (reads_stageBody b.statements).bind_nil ?_
  have hfile : (sourceOf b.statements).isAbsent = false := b.file
  rw [hfile, if_neg Bool.false_ne_true]
  exact Reads.pure _

/-- Stages that are described once each are absent where they are described. -/
theorem along_stages {bs : List StageBlock} (hn : (bs.map StageBlock.stage).Nodup) {unit : ShaderUnit}
    (hu : ∀ b ∈ bs, (unit.get b.stage).isAbsent = true) :
    Along StageBlock.addTo (fun u b => (u.get b.stage).isAbsent = true) unit bs := by
  induction bs generalizing unit with
  | nil => trivial
  | cons b bs ih =>
    obtain ⟨hb, hn⟩ := List.nodup_cons.1 hn
    refine ⟨hu b List.mem_cons_self, ih hn fun c hc => ?_⟩
    have hne : c.stage ≠ b.stage := fun he => hb (he ▸ List.mem_map_of_mem hc)
    rw [StageBlock.addTo, PerStage.get_set, if_neg hne]
    exact hu c (List.mem_cons_of_mem _ hc)

/-- What is read of a shader, apart from its line. -/
def nameAndUnit (e : ManifestEntry) : String × ShaderUnit := (e.name, e.unit)

theorem reads_entry (b : ShaderBlock) :
    Reads (nameAndUnit <$> entry) b.words b.shader fun t => b.closed = false → NotKind .semicolon t := by
  have habsent : ∀ s ∈ b.stages, (ShaderUnit.empty.get s.stage).isAbsent = true := by
    intro s _
    rw [ShaderUnit.empty, PerStage.get_replicate]
    rfl
  have hstages : Reads (foldUntil .blockClose (stage b.name.text) (consumes_stage b.name.text) ShaderUnit.empty)
      (b.stages.flatMap StageBlock.words ++ [blockClose]) b.unit Anything :=
    Reads.foldUntil StageBlock.words _ rfl (fun unit s hs => reads_stage b.name.text s hs)
      (fun s => follows_kind (by decide)) (along_stages b.distinct habsent)
  have hend : ∃ found, Reads (accept .semicolon) (if b.closed then [semicolon] else []) found
      fun t => b.closed = false → NotKind .semicolon t := by
    cases b.closed with
    | true => exact ⟨true, Reads.accept_true rfl⟩
    | false => exact ⟨false, Reads.accept_false.mono fun t ht => ht rfl⟩
  obtain ⟨found, hend⟩ := hend
  have hname : Reads (Token.text <$> expect .identifier) [b.name.word] b.name.text Anything :=
    Reads.require_map _ rfl fun _ ht => text_of_shape ht
  simp only [entry, map_bind, map_pure]
  refine keyword_bind _ fun start => hname.bind (Reads.require_bind _ rfl fun _ _ => ?_) follows_anything
  exact hstages.bind (hend.bind_pure fun _ => nameAndUnit ⟨b.name.text, b.unit, start.line⟩) follows_anything

theorem map_eq_ok {α β : Type} {f : α → β} {r : Reader α} {s s' : Stream} {b : β} (h : (f <$> r) s = .ok (b, s')) :
    ∃ a, r s = .ok (a, s') ∧ f a = b := by
  rw [map_eq_pure_bind] at h
  obtain ⟨a, t, hr, ht⟩ := bind_eq_ok h
  obtain ⟨hb, rfl⟩ := Prod.mk.inj (Except.ok.inj ht)
  exact ⟨a, hr, hb⟩

theorem isSome_find? (m : Manifest) (name : String) :
    (m.find? name).isSome ↔ name ∈ m.entries.map ManifestEntry.name := by
  simp [Manifest.find?]

theorem shaders_concat (m : Manifest) (e : ManifestEntry) :
    Manifest.shaders ⟨m.entries ++ [e]⟩ = m.shaders ++ [nameAndUnit e] := by
  simp [Manifest.shaders, nameAndUnit]

section Extend
variable {m : Manifest} {s : Stream}

theorem extend_of_entry (hs : ¬ s.head.isEnd = true) {e : ManifestEntry} {t : Stream} (h : entry s = .ok (e, t)) :
    extend m s = if (m.find? e.name).isSome = true then .error (.manifest e.line (.duplicateShader e.name))
      else extend ⟨m.entries ++ [e]⟩ t := by
  rw [extend, if_neg hs]
  -- The reader keeps its result in the match, for its termination.
  split
  · next he => cases h.symm.trans he
  · next he =>
    obtain ⟨rfl, rfl⟩ := Prod.mk.inj (Except.ok.inj (h.symm.trans he))
    rfl

theorem extend_of_entry_error (hs : ¬ s.head.isEnd = true) {error : Error} (h : entry s = .error error) :
    extend m s = .error error := by
  rw [extend, if_neg hs]
  split
  · next he => exact congrArg Except.error (Except.error.inj (he.symm.trans h))
  · next he => cases h.symm.trans he

end Extend

theorem extend_blocks {bs : List ShaderBlock} {m : Manifest}
    (hn : (m.entries.map ManifestEntry.name ++ bs.map fun b => b.name.text).Nodup) {ts : List Token}
    (ht : Spelled ts (bs.flatMap ShaderBlock.words)) (line : UInt32) :
    ∃ m', extend m ⟨ts, line⟩ = .ok m' ∧ m'.shaders = m.shaders ++ bs.map ShaderBlock.shader := by
  induction bs generalizing m ts with
  | nil =>
    obtain rfl := spelled_nil ht
    refine ⟨m, ?_, by rw [List.map_nil, List.append_nil]⟩
    rw [extend]
    rfl
  | cons b bs ih =>
    obtain ⟨first, after, rfl, h1, h2⟩ := spelled_append ht
    -- What comes next is another shader, or nothing.
    have hnext : NotKind .semicolon (Stream.head ⟨after, line⟩) := by
      have hf : Follows (NotKind .semicolon) (bs.flatMap ShaderBlock.words) fun t => t.kind = .endOfInput := by
        cases bs with
        | nil => exact follows_nil fun t ht hk => by rw [ht] at hk; cases hk
        | cons c bs => exact follows_kind (by decide)
      have := hf after [] line h2 rfl
      rwa [List.append_nil] at this
    have hhead : (Stream.head ⟨first ++ after, line⟩).isEnd = false := by
      have hf : Follows (NotKind .endOfInput) b.words Anything := follows_kind (by decide)
      exact beq_eq_false_iff_ne.2 (hf first after line h1 trivial)
    obtain ⟨e, he, hshader⟩ := map_eq_ok (reads_entry b first after line h1 fun _ => hnext)
    have hname : e.name = b.name.text := congrArg Prod.fst hshader
    rw [List.map_cons] at hn
    have hnew : ¬ (m.find? e.name).isSome = true := by
      rw [isSome_find?, hname]
      intro hm
      exact (List.nodup_append.1 hn).2.2 _ hm _ List.mem_cons_self rfl
    have hn' : ((m.entries ++ [e]).map ManifestEntry.name ++ bs.map fun b => b.name.text).Nodup := by
      rw [List.map_append, List.map_singleton, hname, List.append_assoc]
      exact hn
    obtain ⟨m', hm', hs⟩ := ih (m := ⟨m.entries ++ [e]⟩) hn' h2
    refine ⟨m', ?_, ?_⟩
    · rw [extend_of_entry (Bool.eq_false_iff.1 hhead) he, if_neg hnew]
      exact hm'
    · rw [hs, shaders_concat, hshader, List.map_cons, List.append_assoc]
      rfl

end Completeness

/-! ## What is read is a listing -/

/-- A sign is known by its kind. -/
theorem shape_sign {t : Token} {ts : List Token} (h : Scanned (t :: ts)) {c : Char} (hc : isSingle c = true)
    (hk : t.kind = Kind.ofChar c) (hn : Kind.ofChar c ≠ .symbol) : t.shape = (sign c hc).shape := by
  have hproper : Proper t := h.proper (hk ▸ ofChar_ne (by decide) c)
  refine Prod.ext hk ?_
  show t.text = String.singleton c
  rw [← String.ofList_toList (s := t.text), hproper.spells.single_eq hk hn]
  rfl

/-- An identifier is a name. -/
theorem exists_name {t : Token} {ts : List Token} (h : Scanned (t :: ts)) (hk : t.kind = .identifier) :
    ∃ n : Name, t.shape = n.word.shape ∧ n.text = t.text := by
  have hproper : Proper t := h.proper (by rw [hk]; decide)
  obtain ⟨c, word, ht, hstart, hall, hfree⟩ := hproper.spells.identifier_eq hk
  rw [String.ofList_toList] at hfree
  have hi : isIdentifier t.text = true := by
    rw [isIdentifier, ht]
    dsimp only
    rw [hstart, hall]
    rfl
  exact ⟨⟨t.text, hi, hfree⟩, Prod.ext hk rfl, rfl⟩

section Soundness
variable {s s' : Stream}

theorem tokens_of_kind_ne (h : s.head.kind ≠ .endOfInput) : s.tokens = s.head :: s.tail.tokens := by
  obtain ⟨tokens, line⟩ := s
  cases tokens with
  | nil => exact absurd rfl h
  | cons => rfl

theorem expect_eq_ok {kind : Kind} {t : Token} (hk : kind ≠ .endOfInput) (h : expect kind s = .ok (t, s')) :
    s.tokens = t :: s'.tokens ∧ t.kind = kind := by
  simp only [expect, require] at h
  split at h
  · next hs =>
    obtain ⟨rfl, rfl⟩ := Prod.mk.inj (Except.ok.inj h)
    exact ⟨tokens_of_kind_ne (hs ▸ hk), hs⟩
  · cases h

theorem keyword_eq_ok {word : String} {t : Token} (h : Manifest.keyword word s = .ok (t, s')) :
    s.tokens = t :: s'.tokens ∧ t.kind = .identifier ∧ t.text = word := by
  obtain ⟨u, s₁, h1, h2⟩ := bind_eq_ok h
  obtain ⟨hu, hk⟩ := expect_eq_ok (by decide) h1
  split at h2
  · next ht =>
    obtain ⟨rfl, rfl⟩ := Prod.mk.inj (Except.ok.inj h2)
    exact ⟨hu, hk, ht⟩
  · cases h2

/-- A token with a value is taken. -/
theorem value_eq_ok {text : String} (h : (next >>= fun t => (liftM (valueOf t) : Reader String)) s = .ok (text, s')) :
    ∃ t, s.tokens = t :: s'.tokens ∧ valueOf t = .ok text := by
  obtain ⟨t, s₁, h1, h2⟩ := bind_eq_ok h
  obtain ⟨rfl, rfl⟩ := Prod.mk.inj (Except.ok.inj h1)
  cases hv : valueOf s.head with
  | error error =>
    rw [hv] at h2
    cases h2
  | ok text' =>
    rw [hv] at h2
    obtain ⟨rfl, rfl⟩ := Prod.mk.inj (Except.ok.inj h2)
    refine ⟨s.head, tokens_of_kind_ne fun hk => ?_, hv⟩
    rw [valueOf, hk] at hv
    cases hv

theorem assigned_eq_ok {text : String} (h : assigned s = .ok (text, s')) :
    ∃ t u, s.tokens = t :: u :: s'.tokens ∧ t.kind = .equals ∧ valueOf u = .ok text := by
  obtain ⟨t, s₁, h1, h2⟩ := bind_eq_ok h
  obtain ⟨ht, hk⟩ := expect_eq_ok (by decide) h1
  obtain ⟨u, hu, hv⟩ := value_eq_ok h2
  exact ⟨t, u, by rw [ht, hu], hk, hv⟩

theorem after_eq_ok {α : Type} {kind : Kind} {r : Reader α} {found : Option α} (h : after kind r s = .ok (found, s')) :
    found = none ∧ s' = s ∨ s.head.kind = kind ∧ ∃ a, r s.tail = .ok (a, s') ∧ found = some a := by
  obtain ⟨accepted, s₁, h1, h⟩ := bind_eq_ok h
  simp only [accept] at h1
  split at h1
  · next hk =>
    obtain ⟨rfl, rfl⟩ := Prod.mk.inj (Except.ok.inj h1)
    obtain ⟨a, ha, rfl⟩ := map_eq_ok h
    exact .inr ⟨hk, a, ha, rfl⟩
  · obtain ⟨rfl, rfl⟩ := Prod.mk.inj (Except.ok.inj h1)
    obtain ⟨rfl, rfl⟩ := Prod.mk.inj (Except.ok.inj h)
    exact .inl ⟨rfl, rfl⟩

/-- An equals sign and a value, when they are not the last tokens. -/
theorem exists_assigned {text : String} (hs : Scanned s.tokens) (h : assigned s = .ok (text, s'))
    (hn : s'.tokens ≠ []) :
    ∃ (v : Value) (ts : List Token), s.tokens = ts ++ s'.tokens ∧ Spelled ts [equals, v.word] ∧ v.text = text := by
  obtain ⟨t, u, ht, hk, hv⟩ := assigned_eq_ok h
  rw [ht] at hs
  have hequals : t.shape = equals.shape := shape_sign hs (by decide) hk (by decide)
  obtain ⟨v, hshape, hvalue⟩ := exists_value (hs.tail.proper_of_ne hn) hv
  exact ⟨v, [t, u], ht, spelled_of_cons hequals (spelled_of_cons hshape rfl), hvalue⟩

theorem exists_definition {m : Macro} (hs : Scanned s.tokens) (h : definition s = .ok (m, s')) (hn : s'.tokens ≠ []) :
    ∃ (name : Name) (value : Option Value) (ts : List Token), s.tokens = ts ++ s'.tokens ∧
      Spelled ts (name.word :: optional (fun v => [equals, v.word]) value) ∧
      m = ⟨name.text, (value.map Value.text).getD ""⟩ := by
  obtain ⟨_, s₁, h1, h⟩ := bind_eq_ok h
  obtain ⟨t, ht, rfl⟩ := map_eq_ok h1
  obtain ⟨htokens, hk⟩ := expect_eq_ok (by decide) ht
  obtain ⟨value, s₂, h2, h⟩ := bind_eq_ok h
  obtain ⟨rfl, rfl⟩ := Prod.mk.inj (Except.ok.inj h)
  rw [htokens] at hs
  rcases after_eq_ok h2 with ⟨rfl, rfl⟩ | ⟨hkind, text, hvalue, rfl⟩
  · obtain ⟨name, hshape, hname⟩ := exists_name hs hk
    exact ⟨name, none, [t], htokens, spelled_of_cons hshape rfl, by rw [hname]; rfl⟩
  · -- after the name stands what could be assigned
    have hassigned : assigned s₁ = .ok (text, s₂) := by
      have he : expect .equals s₁ = .ok (s₁.head, s₁.tail) := if_pos hkind
      simp only [assigned, bind, StateT.bind, Except.bind, he]
      exact hvalue
    obtain ⟨v, ts, ht, hspelled, rfl⟩ := exists_assigned hs.tail hassigned hn
    obtain ⟨name, hshape, hname⟩ := exists_name hs hk
    exact ⟨name, some v, t :: ts, by rw [htokens, ht]; rfl, spelled_of_cons hshape hspelled, by rw [hname]; rfl⟩

theorem exists_effect {source source' : StageSource} {key : Token} (hk : key.kind = .identifier)
    (hs : Scanned s.tokens) (h : effect source key s = .ok (source', s')) (hn : s'.tokens ≠ []) :
    ∃ (st : Statement) (ts : List Token), s.tokens = ts ++ s'.tokens ∧ Spelled (key :: ts) st.phrase ∧
      source' = st.apply source := by
  simp only [effect] at h
  split at h
  · next hkey =>
    obtain ⟨text, s₁, h1, h⟩ := bind_eq_ok h
    obtain ⟨rfl, rfl⟩ := Prod.mk.inj (Except.ok.inj h)
    obtain ⟨v, ts, ht, hspelled, rfl⟩ := exists_assigned hs h1 hn
    exact ⟨.file v, ts, ht, spelled_of_cons (Prod.ext hk hkey) hspelled, rfl⟩
  · split at h
    · next hkey =>
      obtain ⟨text, s₁, h1, h⟩ := bind_eq_ok h
      obtain ⟨rfl, rfl⟩ := Prod.mk.inj (Except.ok.inj h)
      obtain ⟨v, ts, ht, hspelled, rfl⟩ := exists_assigned hs h1 hn
      exact ⟨.entryPoint v, ts, ht, spelled_of_cons (Prod.ext hk hkey) hspelled, rfl⟩
    · split at h
      · next hkey =>
        obtain ⟨m, s₁, h1, h⟩ := bind_eq_ok h
        obtain ⟨rfl, rfl⟩ := Prod.mk.inj (Except.ok.inj h)
        obtain ⟨name, value, ts, ht, hspelled, rfl⟩ := exists_definition hs h1 hn
        exact ⟨.define name value, ts, ht, spelled_of_cons (Prod.ext hk hkey) hspelled, rfl⟩
      · cases h

theorem exists_statement {source source' : StageSource} (hs : Scanned s.tokens)
    (h : statement source s = .ok (source', s')) :
    ∃ (st : Statement) (ts : List Token), s.tokens = ts ++ s'.tokens ∧ Spelled ts st.words ∧
      source' = st.apply source := by
  obtain ⟨key, s₁, h1, h⟩ := bind_eq_ok h
  obtain ⟨source₁, s₂, h2, h⟩ := bind_eq_ok h
  obtain ⟨close, s₃, h3, h⟩ := bind_eq_ok h
  obtain ⟨rfl, rfl⟩ := Prod.mk.inj (Except.ok.inj h)
  obtain ⟨hkey, hk⟩ := expect_eq_ok (by decide) h1
  obtain ⟨hclose, hc⟩ := expect_eq_ok (by decide) h3
  rw [hkey] at hs
  obtain ⟨st, ts, ht, hspelled, rfl⟩ := exists_effect hk hs.tail h2 (by rw [hclose]; exact List.cons_ne_nil _ _)
  have hsemicolon : close.shape = semicolon.shape := by
    rw [ht, hclose] at hs
    exact shape_sign hs.tail.of_append (by decide) hc (by decide)
  refine ⟨st, key :: ts ++ [close], ?_, spelled_of_append hspelled (spelled_of_cons hsemicolon rfl), rfl⟩
  rw [hkey, ht, hclose]
  simp

/-- What is read item by item was written item by item. -/
theorem exists_items {α δ : Type} {item : α → Reader α} (hc : ∀ a, Consumes (item a)) (words : δ → List Word)
    {apply : α → δ → α} {R : α → δ → Prop} {closing : Kind} (hclosing : closing ≠ .endOfInput)
    (hi : ∀ a a' s s', Scanned s.tokens → item a s = .ok (a', s') →
      ∃ (m : δ) (ts : List Token), s.tokens = ts ++ s'.tokens ∧ Spelled ts (words m) ∧ a' = apply a m ∧ R a m)
    {before after : α} (hs : Scanned s.tokens) (h : foldUntil closing item hc before s = .ok (after, s')) :
    ∃ (ms : List δ) (ts : List Token) (close : Token), s.tokens = ts ++ close :: s'.tokens ∧
      Spelled ts (ms.flatMap words) ∧ close.kind = closing ∧ after = ms.foldl apply before ∧
      Along apply R before ms := by
  fun_induction foldUntil closing item hc before s with
  | case1 before s hk =>
    obtain ⟨rfl, rfl⟩ := Prod.mk.inj (Except.ok.inj h)
    exact ⟨[], [], s.head, tokens_of_kind_ne (hk ▸ hclosing), rfl, hk, rfl, trivial⟩
  | case2 => cases h
  | case3 before s hk a t hr ih =>
    obtain ⟨m, ts, ht, hm, rfl, hR⟩ := hi before a s t hs hr
    rw [ht] at hs
    obtain ⟨ms, ts', close, ht', hms, hclose, hafter, hall⟩ := ih hs.of_append h
    refine ⟨m :: ms, ts ++ ts', close, ?_, spelled_of_append hm hms, hclose, hafter, hR, hall⟩
    rw [ht, ht', List.append_assoc]

theorem exists_statements {source : StageSource} (hs : Scanned s.tokens) (h : stageBody s = .ok (source, s')) :
    ∃ (ss : List Statement) (ts : List Token), s.tokens = ts ++ s'.tokens ∧
      Spelled ts (blockOpen :: (ss.flatMap Statement.words ++ [blockClose])) ∧ source = sourceOf ss := by
  obtain ⟨first, s₁, h1, h⟩ := bind_eq_ok h
  obtain ⟨hfirst, hk⟩ := expect_eq_ok (by decide) h1
  rw [hfirst] at hs
  have hitem : ∀ source source' s s', Scanned s.tokens → statement source s = .ok (source', s') →
      ∃ (st : Statement) (ts : List Token), s.tokens = ts ++ s'.tokens ∧ Spelled ts st.words ∧
        source' = st.apply source ∧ True := by
    intro source source' s s' hs h
    obtain ⟨st, ts, ht, hst, ha⟩ := exists_statement hs h
    exact ⟨st, ts, ht, hst, ha, trivial⟩
  obtain ⟨ss, ts, close, ht, hss, hc, rfl, -⟩ :=
    exists_items consumes_statement Statement.words (by decide) hitem hs.tail h
  have hopen : first.shape = blockOpen.shape := shape_sign hs (by decide) hk (by decide)
  rw [ht] at hs
  have hclose : close.shape = blockClose.shape := shape_sign hs.tail.of_append (by decide) hc (by decide)
  have hend : Spelled [close] [blockClose] := spelled_of_cons hclose rfl
  refine ⟨ss, first :: (ts ++ [close]), ?_, spelled_of_cons hopen (spelled_of_append hss hend), rfl⟩
  rw [hfirst, ht]
  simp

theorem exists_stage {shader : String} {unit unit' : ShaderUnit} (hs : Scanned s.tokens)
    (h : stage shader unit s = .ok (unit', s')) :
    ∃ (b : StageBlock) (ts : List Token), s.tokens = ts ++ s'.tokens ∧ Spelled ts b.words ∧ unit' = b.addTo unit ∧
      (unit.get b.stage).isAbsent = true := by
  obtain ⟨first, s₁, h1, h⟩ := bind_eq_ok h
  obtain ⟨hfirst, hk, hword⟩ := keyword_eq_ok h1
  obtain ⟨t, s₂, h2, h⟩ := bind_eq_ok h
  obtain ⟨ht, hkt⟩ := expect_eq_ok (by decide) h2
  rw [hfirst, ht] at hs
  obtain ⟨name, hname, htext⟩ := exists_name hs.tail hkt
  cases hstage : Stage.ofName? t.text with
  | none =>
    rw [hstage] at h
    cases h
  | some stage =>
    rw [hstage] at h
    dsimp only at h
    split at h
    · next habsent =>
      obtain ⟨source, s₃, h3, h⟩ := bind_eq_ok h
      obtain ⟨ss, ts, hts, hss, rfl⟩ := exists_statements hs.tail.tail h3
      split at h
      · cases h
      · next hfile =>
        obtain ⟨rfl, rfl⟩ := Prod.mk.inj (Except.ok.inj h)
        refine ⟨⟨stage, name, by rw [htext, hstage], ss, by simpa using hfile⟩, first :: t :: ts, ?_, ?_, rfl, habsent⟩
        · rw [hfirst, ht, hts]
          rfl
        · exact spelled_of_cons (Prod.ext hk hword) (spelled_of_cons hname hss)
    · cases h

/-- Stages that are absent where they are described are described once each. -/
theorem nodup_of_along {bs : List StageBlock} {unit : ShaderUnit}
    (h : Along StageBlock.addTo (fun u b => (u.get b.stage).isAbsent = true) unit bs) :
    (bs.map StageBlock.stage).Nodup ∧ ∀ b ∈ bs, (unit.get b.stage).isAbsent = true := by
  induction bs generalizing unit with
  | nil => exact ⟨List.nodup_nil, fun b hb => nomatch hb⟩
  | cons b bs ih =>
    obtain ⟨hn, hrest⟩ := ih h.2
    -- After this block its stage has a file.
    have hne : ∀ c ∈ bs, c.stage ≠ b.stage := by
      intro c hc he
      have hsource : (sourceOf b.statements).isAbsent = true := by
        have := hrest c hc
        rwa [StageBlock.addTo, PerStage.get_set, if_pos he] at this
      rw [b.file] at hsource
      cases hsource
    refine ⟨List.nodup_cons.2 ⟨fun hm => ?_, hn⟩, fun c hc => ?_⟩
    · obtain ⟨c, hc, he⟩ := List.mem_map.1 hm
      exact hne c hc he
    · rcases List.mem_cons.1 hc with rfl | hc
      · exact h.1
      · have := hrest c hc
        rwa [StageBlock.addTo, PerStage.get_set, if_neg (hne c hc)] at this

theorem exists_shader {e : ManifestEntry} (hs : Scanned s.tokens) (h : entry s = .ok (e, s')) :
    ∃ (b : ShaderBlock) (ts : List Token), s.tokens = ts ++ s'.tokens ∧ Spelled ts b.words ∧
      nameAndUnit e = b.shader := by
  obtain ⟨first, s₁, h1, h⟩ := bind_eq_ok h
  obtain ⟨hfirst, hk, hword⟩ := keyword_eq_ok h1
  obtain ⟨_, s₂, h2, h⟩ := bind_eq_ok h
  obtain ⟨t, ht, rfl⟩ := map_eq_ok h2
  obtain ⟨ht, hkt⟩ := expect_eq_ok (by decide) ht
  obtain ⟨u, s₃, h3, h⟩ := bind_eq_ok h
  obtain ⟨hu, hku⟩ := expect_eq_ok (by decide) h3
  obtain ⟨unit, s₄, h4, h⟩ := bind_eq_ok h
  obtain ⟨closed, s₅, h5, h⟩ := bind_eq_ok h
  obtain ⟨rfl, rfl⟩ := Prod.mk.inj (Except.ok.inj h)
  rw [hfirst, ht, hu] at hs
  obtain ⟨name, hname, htext⟩ := exists_name hs.tail hkt
  have hopen : u.shape = blockOpen.shape := shape_sign hs.tail.tail (by decide) hku (by decide)
  obtain ⟨bs, ts, close, hts, hbs, hc, rfl, hall⟩ := exists_items (consumes_stage t.text) StageBlock.words (by decide)
    (fun unit unit' s s' hs h => exists_stage hs h) hs.tail.tail.tail h4
  rw [hts] at hs
  have hrest : Scanned (close :: s₄.tokens) := hs.tail.tail.tail.of_append
  have hclose : close.shape = blockClose.shape := shape_sign hrest (by decide) hc (by decide)
  have hend : ∃ after, s₄.tokens = after ++ s₅.tokens ∧ Spelled after (if closed then [semicolon] else []) := by
    simp only [accept] at h5
    split at h5
    · next hk =>
      obtain ⟨rfl, rfl⟩ := Prod.mk.inj (Except.ok.inj h5)
      have htokens := tokens_of_kind_ne (s := s₄) (by rw [hk]; decide)
      have hscanned := hrest.tail
      rw [htokens] at hscanned
      exact ⟨[s₄.head], htokens, spelled_of_cons (shape_sign hscanned (by decide) hk (by decide)) rfl⟩
    · obtain ⟨rfl, rfl⟩ := Prod.mk.inj (Except.ok.inj h5)
      exact ⟨[], rfl, rfl⟩
  obtain ⟨after, hafter, hsemicolon⟩ := hend
  refine ⟨⟨name, bs, (nodup_of_along hall).1, closed⟩, first :: t :: u :: (ts ++ [close] ++ after), ?_, ?_, ?_⟩
  · rw [hfirst, ht, hu, hts, hafter]
    simp
  · refine spelled_of_cons (Prod.ext hk hword) (spelled_of_cons hname (spelled_of_cons hopen ?_))
    exact spelled_of_append (spelled_of_append hbs (spelled_of_cons hclose rfl)) hsemicolon
  · rw [nameAndUnit, ShaderBlock.shader, htext]
    rfl

/-- Whatever is accepted is a listing. -/
theorem extend_sound {m m' : Manifest} (hn : (m.entries.map ManifestEntry.name).Nodup) (hs : Scanned s.tokens)
    (h : extend m s = .ok m') :
    ∃ bs : List ShaderBlock, Spelled s.tokens (bs.flatMap ShaderBlock.words) ∧
      m'.shaders = m.shaders ++ bs.map ShaderBlock.shader ∧
      (m.entries.map ManifestEntry.name ++ bs.map fun b => b.name.text).Nodup := by
  fun_induction extend m s with
  | case1 m s hend =>
    obtain rfl := Except.ok.inj h
    have hnil : s.tokens = [] := by
      cases ht : s.tokens with
      | nil => rfl
      | cons t ts =>
        rw [ht] at hs
        rw [Stream.head, ht] at hend
        exact absurd (eq_of_beq hend) hs.kind_ne
    refine ⟨[], by rw [hnil]; rfl, by rw [List.map_nil, List.append_nil], ?_⟩
    rwa [List.map_nil, List.append_nil]
  | case2 => cases h
  | case3 => cases h
  | case4 m s hend e t he hnew ih =>
    obtain ⟨b, ts, ht, hb, hshader⟩ := exists_shader hs he
    have hname : e.name = b.name.text := congrArg Prod.fst hshader
    have hn' : ((m.entries ++ [e]).map ManifestEntry.name).Nodup := by
      rw [isSome_find?] at hnew
      rw [List.map_append, List.map_singleton, List.nodup_append]
      refine ⟨hn, by simp, ?_⟩
      rintro x hx y hy rfl
      exact hnew (List.mem_singleton.1 hy ▸ hx)
    rw [ht] at hs
    obtain ⟨bs, hbs, hshaders, hnodup⟩ := ih hn' hs.of_append h
    refine ⟨b :: bs, ?_, ?_, ?_⟩
    · rw [ht]
      exact spelled_of_append hb hbs
    · rw [hshaders, shaders_concat, hshader, List.map_cons, List.append_assoc]
      rfl
    · rw [List.map_append, List.map_singleton, hname, List.append_assoc] at hnodup
      exact hnodup

end Soundness

/-! ## Texts -/

/-- Words in which no comment begins have none between them either. -/
theorem free_chars {ls : List Laid} (hs : Laid.Spaced ls) (hw : ∀ w ∈ ls.map Laid.word, Comment.Free w.text.toList)
    {trailing : List Char} (ht : trailing.all isGap = true) : Comment.Free (Laid.chars ls ++ trailing) := by
  have hgap : ∀ {gap : List Char}, gap.all isGap = true → '/' ∉ gap := by
    intro gap h hm
    exact absurd (List.all_eq_true.1 h _ hm) (by decide)
  induction ls with
  | nil => exact Comment.free_of_not_mem (hgap ht)
  | cons l ls ih =>
    rw [List.map_cons, List.forall_mem_cons] at hw
    have hrest := ih (fun l' hl' => hs l' (List.mem_of_mem_tail hl')) hw.2
    have hends : Ends (Laid.chars ls ++ trailing) := Laid.ends_chars hs ht
    rw [Laid.chars_cons, List.append_assoc, List.append_assoc]
    refine .append_of_not_mem (hw.1.append hrest fun d hd => ⟨?_, ?_⟩) (hgap l.gap_all)
    · rintro rfl
      exact absurd (hends '/' hd) (by decide)
    · rintro rfl
      exact absurd (hends '*' hd) (by decide)

theorem Value.free_word (v : Value) : Comment.Free v.word.text.toList := by
  cases v with
  | literal text plain =>
    show Comment.Free (String.ofList ('"' :: (escapeQuotes text.toList ++ ['"']))).toList
    rw [String.toList_ofList, Comment.free_cons_of_ne (by decide)]
    have hquote : Comment.Free ['"'] := Comment.free_of_not_mem (by decide)
    exact (free_escapeQuotes.2 plain.free).append hquote (by simp)
  | bare w kind => exact (Value.bare w kind).plain.free

theorem Name.free_word (n : Name) : Comment.Free n.word.text.toList :=
  Comment.free_of_not_mem (not_mem_of_spells n.word.spells (.inl rfl)).1

theorem free_fixed {text : String} (h : IsName text) : Comment.Free (fixed text h).text.toList := Name.free_word _

theorem free_sign {c : Char} (h : isSingle c = true) (hc : c ≠ '/') : Comment.Free (sign c h).text.toList := by
  have ht : (sign c h).text.toList = [c] := String.toList_singleton c
  rw [ht]
  exact Comment.free_of_not_mem fun hm => hc (List.mem_singleton.1 hm).symm

theorem Statement.free_words (st : Statement) : ∀ w ∈ st.words, Comment.Free w.text.toList := by
  have hsemicolon : Comment.Free semicolon.text.toList := free_sign _ (by decide)
  have hequals : Comment.Free equals.text.toList := free_sign _ (by decide)
  cases st with
  | file value => simp [Statement.words, Statement.phrase, free_fixed, hsemicolon, hequals, value.free_word]
  | entryPoint value => simp [Statement.words, Statement.phrase, free_fixed, hsemicolon, hequals, value.free_word]
  | define name value =>
    cases value with
    | none => simp [Statement.words, Statement.phrase, optional, free_fixed, hsemicolon, name.free_word]
    | some value =>
      simp [Statement.words, Statement.phrase, optional, free_fixed, hsemicolon, hequals, name.free_word,
        value.free_word]

theorem Listing.free_words (l : Listing) : ∀ w ∈ l.words, Comment.Free w.text.toList := by
  have hopen : Comment.Free blockOpen.text.toList := free_sign _ (by decide)
  have hclose : Comment.Free blockClose.text.toList := free_sign _ (by decide)
  have hstage : ∀ s : StageBlock, ∀ w ∈ s.words, Comment.Free w.text.toList := by
    intro s w hw
    simp only [StageBlock.words, List.mem_cons, List.mem_append, List.mem_flatMap, List.not_mem_nil, or_false] at hw
    rcases hw with rfl | rfl | rfl | ⟨st, -, hw⟩ | rfl
    · exact free_fixed _
    · exact s.name.free_word
    · exact hopen
    · exact st.free_words w hw
    · exact hclose
  intro w hw
  obtain ⟨b, -, hw⟩ := List.mem_flatMap.1 hw
  simp only [ShaderBlock.words, List.mem_cons, List.mem_append, List.mem_flatMap, List.not_mem_nil, or_false] at hw
  rcases hw with rfl | rfl | rfl | (⟨s, -, hw⟩ | rfl) | hw
  · exact free_fixed _
  · exact b.name.free_word
  · exact hopen
  · exact hstage s w hw
  · exact hclose
  · split at hw
    · rw [List.mem_singleton.1 hw]
      exact free_sign _ (by decide)
    · cases hw

/-- A listing is read back from every text of its words with gaps between them. -/
theorem parse_listing (l : Listing) {ls : List Laid} (hl : ls.map Laid.word = l.words) (hs : Laid.Spaced ls)
    {trailing : List Char} (ht : trailing.all isGap = true) :
    ∃ m, Manifest.parse (String.ofList (Laid.chars ls ++ trailing)) = .ok m ∧ m.shaders = l.shaders := by
  have hfree : Comment.Free (Laid.chars ls ++ trailing) := free_chars hs (hl ▸ l.free_words) ht
  have hspelled : Spelled (Laid.tokens 1 ls) (l.blocks.flatMap ShaderBlock.words) := by
    rw [← Listing.words, ← hl]
    exact spelled_tokens 1 ls
  obtain ⟨m, hm, hshaders⟩ := extend_blocks (m := {}) l.distinct hspelled (1 + lineFeeds (Laid.chars ls ++ trailing))
  refine ⟨m, ?_, hshaders⟩
  rw [Manifest.parse, String.toList_ofList, Comment.strip_of_free hfree, Stream.ofSource, String.toList_ofList,
    list_chars hs ht]
  exact hm

/-- What is read from any text is a listing of its words, comments apart. -/
theorem exists_listing_of_parse {text : String} {m : Manifest} (h : Manifest.parse text = .ok m) :
    ∃ l : Listing, l.shaders = m.shaders ∧
      Spelled (Stream.ofSource (String.ofList (Comment.strip text.toList))).tokens l.words := by
  have hscanned : Scanned (Stream.ofSource (String.ofList (Comment.strip text.toList))).tokens := by
    rw [Stream.ofSource, String.toList_ofList]
    exact scanned_list (Comment.free_strip _) 1
  obtain ⟨bs, hspelled, hshaders, hn⟩ := extend_sound (m := {}) List.nodup_nil hscanned h
  exact ⟨⟨bs, hn⟩, hshaders.symm, hspelled⟩

theorem wellFormed_of_parse {text : String} {m : Manifest} (h : Manifest.parse text = .ok m) : m.WellFormed := by
  obtain ⟨l, hl, -⟩ := exists_listing_of_parse h
  exact l.wellFormed hl

/-- Well-formed manifests are read back, and nothing else is read. Every well-formed manifest can be written with all
values as string literals, with the stages in any order and under any of their names; and however it is written, with
any gaps between the words, the same shaders are read. Conversely whatever text is read, comments apart it is a
listing, and the manifest is well-formed. -/
theorem manifests_read_back :
    (∀ m : Manifest, m.WellFormed →
      (∀ heads, List.Forall₂ (fun e => Heads e.unit) m.entries heads →
        ∃ l : Listing, l.shaders = m.shaders ∧ l.heads = heads ∧ l.IsLiteral) ∧
      ∀ l : Listing, l.shaders = m.shaders → ∀ ls : List Laid, ls.map Laid.word = l.words → Laid.Spaced ls →
        ∀ trailing : List Char, trailing.all isGap = true →
          ∃ m', Manifest.parse (String.ofList (Laid.chars ls ++ trailing)) = .ok m' ∧ m'.shaders = m.shaders) ∧
      ∀ text m, Manifest.parse text = .ok m →
        m.WellFormed ∧ ∃ l : Listing, l.shaders = m.shaders ∧
          Spelled (Stream.ofSource (String.ofList (Comment.strip text.toList))).tokens l.words := by
  refine ⟨fun m hm => ⟨fun heads hh => exists_listing hm hh, fun l hl ls hls hs trailing ht => ?_⟩, fun text m h => ?_⟩
  · obtain ⟨m', hm', hshaders⟩ := parse_listing l hls hs ht
    exact ⟨m', hm', hshaders.trans hl⟩
  · obtain ⟨l, hl, hspelled⟩ := exists_listing_of_parse h
    exact ⟨l.wellFormed hl, l, hl, hspelled⟩

/-- A shader with a stage under its second name, and with quotes and backslashes in a value. -/
def sampleListing : Listing where
  blocks := [{
    name := ⟨"S", by decide, by decide⟩
    stages := [{
      stage := .hull
      name := ⟨"tess_control", by decide, by decide⟩
      named := by decide
      statements := [.file (.literal "a/\"b\\\"" ⟨⟨by decide, by decide⟩, by decide⟩),
        .define ⟨"N", by decide, by decide⟩ none]
      file := by decide }]
    distinct := by decide
    closed := true }]
  distinct := by decide

def sampleManifest : String :=
  " shader S \x7b stage tess_control \x7b file = \"a/\\\"b\\\\\"\" ; define N ; \x7d \x7d ;\n"

theorem isGap_space : [' '].all isGap = true := by decide

/-- The words of the listing with a space before each of them. -/
def sampleLaid : List Laid := sampleListing.words.map (Laid.mk [' '] isGap_space)

theorem manifests_read_back_sample :
    ∃ m, Manifest.parse sampleManifest = .ok m ∧
      m.shaders = [("S", ShaderUnit.empty.set .hull ⟨⟨"a/\"b\\\""⟩, "", [⟨"N", ""⟩]⟩)] := by
  have hm : Manifest.WellFormed ⟨[⟨"S", ShaderUnit.empty.set .hull ⟨⟨"a/\"b\\\""⟩, "", [⟨"N", ""⟩]⟩, 1⟩]⟩ :=
    sampleListing.wellFormed (by decide)
  have hs : Laid.Spaced sampleLaid := by
    intro l hl
    obtain ⟨w, -, rfl⟩ := List.mem_map.1 (List.mem_of_mem_tail hl)
    exact List.cons_ne_nil _ _
  have hwords : sampleLaid.map Laid.word = sampleListing.words := by
    rw [sampleLaid, List.map_map]
    exact List.map_id _
  have htext : String.ofList (Laid.chars sampleLaid ++ ['\n']) = sampleManifest := by decide +kernel
  rw [← htext]
  exact (manifests_read_back.1 _ hm).2 sampleListing (by decide) _ hwords hs _ (by decide)

end ShaderBuild.Written
