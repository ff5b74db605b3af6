import ShaderBuild.Interface.Declaration
import ShaderBuild.Proofs.Shapes
/-!
# Declarations are read by their shapes

No reader of the grammar sees the lines of tokens, or more than one token beyond those that it takes: one
lemma for each of them, made like the reader itself. What is read from other lines is the same but for the
lines of declarations.
-/

namespace ShaderBuild

open Token Reader

/-- A resource without its line. -/
def Resource.unlined (r : Resource) : Resource := { r with line := 0 }

/-- A function without its line. -/
def Function.unlined (f : Function) : Function := { f with line := 0 }

/-- A declaration without its line. -/
def Declaration.unlined : Declaration → Declaration
  | struct _ name specs => struct 0 name specs
  | constants _ name register specs => constants 0 name register specs
  | resource r => resource r.unlined
  | function f => function f.unlined
  | other => other

namespace Declaration

/-- The same but for lines. -/
def SameButLine (d d' : Declaration) : Prop := d.unlined = d'.unlined

/-! ## Parts of declarations -/

theorem describe_eq {t t' : Token} (h : SameShape t t') : t.describe = t'.describe := by
  unfold Token.describe Token.isEnd
  rw [kind_eq h, text_eq h]

theorem alike_expect (kind : Kind) : Alike SameShape (expect kind) (expect kind) := by
  have hm : ∀ t : Token, (DeclarationFault.unexpected t kind).message =
      "unexpected token " ++ t.describe ++ ", expected " ++ quote kind.describe := fun t => rfl
  refine alike_require kind ?_
  intro t t' h
  exact sameMessage t.line t'.line (by rw [hm, hm, describe_eq h])

theorem alike_word : Alike Eq word word :=
  (alike_expect .identifier).map fun _ _ h => text_eq h

theorem alike_semantic : Alike Eq semantic semantic := alike_word.after .colon

theorem alike_arraySize : Alike Eq arraySize arraySize := by
  refine Alike.after .squareOpen ((alike_expect .integer).bind ?_)
  intro t t' h
  rw [← text_eq h]
  split
  · exact Alike.throw (sameMessage _ _ rfl)
  · exact (alike_expect .squareClose).bind fun _ _ _ => Alike.pure rfl

theorem cuts_templateTokens (depth : Nat) :
    Cuts (fun arg arg' => shapes arg = shapes arg') (templateTokens depth) (templateTokens depth) := by
  intro ts arg rest h
  induction ts generalizing depth arg with
  | nil => cases h
  | cons t ts ih =>
    -- a token inside, which counts as an inner bracket or does not
    have inside : ∀ d, (∀ t' : Token, ∀ ts', t'.shape = t.shape →
        templateTokens depth (t' :: ts') = (templateTokens d ts').map fun r => (t' :: r.1, r.2)) →
        ∃ taken, t :: ts = taken ++ rest ∧ ∀ taken' rest', shapes taken' = shapes taken →
          ∃ arg', shapes arg = shapes arg' ∧ templateTokens depth (taken' ++ rest') = some (arg', rest') := by
      intro d hd
      rw [hd t ts rfl] at h
      obtain ⟨⟨arg₀, rest₀⟩, h1, h2⟩ := Option.map_eq_some_iff.1 h
      obtain ⟨rfl, rfl⟩ := Prod.mk.inj h2
      obtain ⟨taken, rfl, hok⟩ := ih d _ h1
      refine ⟨t :: taken, rfl, ?_⟩
      intro taken' rest' hs
      obtain ⟨t', after, rfl, ht, hs'⟩ := List.map_eq_cons_iff.1 hs
      obtain ⟨arg', ha, hr⟩ := hok after rest' hs'
      refine ⟨t' :: arg', ?_, ?_⟩
      · rw [shapes, shapes, List.map_cons, List.map_cons, ht]
        exact congrArg (t.shape :: ·) ha
      · rw [List.cons_append, hd t' _ ht, hr]
        rfl
    by_cases hx : t.text = ">"
    · cases depth with
      | zero =>
        rw [templateTokens, if_pos hx] at h
        obtain ⟨rfl, rfl⟩ := Prod.mk.inj (Option.some.inj h)
        refine ⟨[t], rfl, ?_⟩
        intro taken' rest' hs
        obtain ⟨t', after, rfl, ht, hn⟩ := List.map_eq_cons_iff.1 hs
        obtain rfl := List.map_eq_nil_iff.1 hn
        exact ⟨[], rfl, by rw [List.singleton_append, templateTokens, if_pos ((text_eq ht).trans hx)]⟩
      | succ inner =>
        refine inside inner ?_
        intro t' ts' ht
        rw [templateTokens.eq_def]
        exact if_pos ((text_eq ht).trans hx)
    · refine inside (if t.text = "<" then depth + 1 else depth) ?_
      intro t' ts' ht
      have hx' : ¬t'.text = ">" := (text_eq ht).symm ▸ hx
      rw [templateTokens.eq_def]
      dsimp only
      rw [if_neg hx', text_eq ht]

theorem alike_templateArgument : Alike Eq templateArgument templateArgument := by
  refine alike_peek.bind ?_
  intro t t' h
  rw [← text_eq h]
  split
  · refine alike_next.bind fun _ _ _ => ?_
    refine (alike_cut (cuts_templateTokens 0) (cuts_templateTokens 0) fun _ _ => sameMessage _ _ rfl).bind ?_
    intro arg arg' ha
    have htexts : arg.map Token.text = arg'.map Token.text := by
      have h2 := congrArg (List.map Prod.snd) ha
      simpa only [shapes, List.map_map, Function.comp_def, shape] using h2
    rw [htexts]
    exact Alike.pure rfl
  · exact Alike.pure rfl

theorem sameResult_registerOf (banks : String) {t t' : Token} (h : SameShape t t') :
    SameResult Eq (registerOf banks t) (registerOf banks t') := by
  unfold registerOf
  rw [← text_eq h]
  split
  · exact .error (sameMessage _ _ rfl)
  · split
    · split
      · exact .error (sameMessage _ _ rfl)
      · exact .ok rfl
    · exact .error (sameMessage _ _ rfl)

theorem alike_register (banks : String) : Alike Eq (register banks) (register banks) := by
  refine Alike.after .colon ?_
  refine (alike_expect .register).bind fun _ _ _ => (alike_expect .bracketOpen).bind fun _ _ _ => ?_
  refine (alike_expect .identifier).bind fun t t' ht => ?_
  refine (Alike.liftM (sameResult_registerOf banks ht)).bind ?_
  rintro r _ rfl
  exact (alike_expect .bracketClose).bind fun _ _ _ => Alike.pure rfl

theorem isWordOf_shape (words : List String) (t t' : Token) (h : SameShape t t') :
    isWordOf words t = isWordOf words t' := by
  unfold isWordOf
  rw [kind_eq h, text_eq h]

theorem alike_member : Alike Eq member member := by
  refine (alike_skipWhile (isWordOf_shape typeModifiers)).bind fun _ _ _ => ?_
  refine alike_word.bind ?_
  rintro typeName _ rfl
  refine alike_word.bind ?_
  rintro name _ rfl
  refine alike_arraySize.bind ?_
  rintro size _ rfl
  refine alike_semantic.bind ?_
  rintro semantic _ rfl
  exact Alike.pure rfl

theorem alike_memberStatement : Alike Eq memberStatement memberStatement := by
  refine alike_member.bind ?_
  rintro m _ rfl
  exact (alike_expect .semicolon).bind fun _ _ _ => Alike.pure rfl

theorem alike_members : Alike Eq members members :=
  (alike_expect .blockOpen).bind fun _ _ _ => alike_untilClosed _ alike_memberStatement .blockClose

theorem alike_opaqueParameter : Alike Eq opaqueParameter opaqueParameter := by
  refine alike_next.bind fun _ _ _ => alike_templateArgument.bind fun _ _ _ => ?_
  refine alike_word.bind fun _ _ _ => alike_arraySize.bind fun _ _ _ => ?_
  exact alike_semantic.bind fun _ _ _ => Alike.pure rfl

theorem alike_parameter (types : TypeTable) : Alike Eq (parameter types) (parameter types) := by
  refine (alike_skipWhile (isWordOf_shape typeModifiers)).bind fun _ _ _ => ?_
  refine (alike_skipWhile (isWordOf_shape primitiveModifiers)).bind fun _ _ _ => ?_
  refine alike_peek.bind fun t t' ht => ?_
  rw [← text_eq ht]
  split
  · exact alike_opaqueParameter.bind fun _ _ _ => Alike.pure rfl
  · refine alike_member.bind ?_
    rintro spec _ rfl
    split
    · exact Alike.throw (sameMessage _ _ rfl)
    · exact Alike.pure rfl

theorem alike_parameters (types : TypeTable) : Alike Eq (parameters types) (parameters types) := by
  refine (alike_expect .bracketOpen).bind fun _ _ _ => (alike_accept .bracketClose).bind ?_
  rintro closed _ rfl
  split
  · exact Alike.pure rfl
  · refine alike_peek.bind fun t t' ht => ?_
    rw [← text_eq ht]
    split
    · exact alike_next.bind fun _ _ _ => (alike_expect .bracketClose).bind fun _ _ _ => Alike.pure rfl
    · refine (alike_separated _ (alike_parameter types) .comma).bind ?_
      rintro found _ rfl
      exact (alike_expect .bracketClose).bind fun _ _ _ => Alike.pure rfl

/-! ## Statements and bodies -/

/-- What follows something that is passed over. -/
theorem cuts_rest {g : List Token → Option (List Token)}
    (h : ∀ ts rest, g ts = some rest → ∃ taken, ts = taken ++ rest ∧
      ∀ taken' rest', shapes taken' = shapes taken → g (taken' ++ rest') = some rest') :
    Cuts Eq (fun ts => (g ts).map fun rest => ((), rest)) fun ts => (g ts).map fun rest => ((), rest) := by
  intro ts a rest hg
  obtain ⟨rest₀, h1, h2⟩ := Option.map_eq_some_iff.1 hg
  obtain ⟨-, rfl⟩ := Prod.mk.inj h2
  obtain ⟨taken, hs, hok⟩ := h ts rest₀ h1
  refine ⟨taken, hs, ?_⟩
  intro taken' rest' hs'
  refine ⟨(), rfl, ?_⟩
  dsimp only
  rw [hok taken' rest' hs']
  rfl

theorem afterStatement_shapes (ts rest : List Token) (h : afterStatement ts = some rest) :
    ∃ taken, ts = taken ++ rest ∧
      ∀ taken' rest', shapes taken' = shapes taken → afterStatement (taken' ++ rest') = some rest' := by
  induction ts with
  | nil => cases h
  | cons t ts ih =>
    rw [afterStatement] at h
    split at h
    · next hk =>
      obtain rfl := Option.some.inj h
      refine ⟨[t], rfl, ?_⟩
      intro taken' rest' hs
      obtain ⟨t', after, rfl, ht, hn⟩ := List.map_eq_cons_iff.1 hs
      obtain rfl := List.map_eq_nil_iff.1 hn
      rw [List.singleton_append, afterStatement, if_pos ((kind_eq ht).trans hk)]
    · next hk =>
      obtain ⟨taken, rfl, hok⟩ := ih h
      refine ⟨t :: taken, rfl, ?_⟩
      intro taken' rest' hs
      obtain ⟨t', after, rfl, ht, hs'⟩ := List.map_eq_cons_iff.1 hs
      rw [List.cons_append, afterStatement, if_neg ((kind_eq ht).symm ▸ hk), hok after rest' hs']

theorem alike_skipStatement (line line' : UInt32) : Alike Eq (skipStatement line) (skipStatement line') :=
  alike_cut (cuts_rest afterStatement_shapes) (cuts_rest afterStatement_shapes) fun _ _ => sameMessage _ _ rfl

/-- How many braces are open after a token, unless it closes one that is not. -/
def braces (depth : Nat) (t : Token) : Option Nat :=
  match t.kind with
  | .blockOpen => some (depth + 1)
  | .blockClose => if depth = 0 then none else some (depth - 1)
  | _ => some depth

/-- Every brace has its counterpart. Braces in string literals are no tokens. -/
def Balanced (ts : List Token) : Prop := ts.foldlM braces 0 = some 0

instance (ts : List Token) : Decidable (Balanced ts) := inferInstanceAs (Decidable (_ = _))

theorem foldlM_braces {ts ts' : List Token} (h : shapes ts' = shapes ts) (depth : Nat) :
    ts'.foldlM braces depth = ts.foldlM braces depth := by
  induction ts generalizing ts' depth with
  | nil =>
    obtain rfl := List.map_eq_nil_iff.1 h
    rfl
  | cons t ts ih =>
    obtain ⟨t', ts', rfl, ht, hs⟩ := List.map_eq_cons_iff.1 h
    have hb : braces depth t' = braces depth t := by
      unfold braces
      rw [kind_eq ht]
    rw [List.foldlM_cons, List.foldlM_cons, hb]
    cases braces depth t with
    | none => rfl
    | some d => exact ih hs d

theorem braces_eq_none {depth : Nat} {t : Token} : braces depth t = none ↔ t.kind = .blockClose ∧ depth = 0 := by
  rw [braces]
  generalize t.kind = kind
  cases kind with
  | blockClose => cases depth <;> simp
  | _ => simp

/-- A body ends at the token that has no counterpart. -/
theorem afterBody_cons (depth : Nat) (t : Token) (ts : List Token) :
    afterBody depth (t :: ts) = (braces depth t).elim (some ts) fun d => afterBody d ts := by
  rw [afterBody.eq_def, braces]
  dsimp only
  generalize t.kind = kind
  cases kind with
  | blockClose => cases depth <;> rfl
  | _ => rfl

/-- A body is a balanced part, and what closes it. -/
theorem afterBody_iff {depth : Nat} {ts rest : List Token} :
    afterBody depth ts = some rest ↔
      ∃ inner close, ts = inner ++ close :: rest ∧ inner.foldlM braces depth = some 0 ∧ close.kind = .blockClose := by
  constructor
  · intro h
    induction ts generalizing depth with
    | nil => cases h
    | cons t ts ih =>
      rw [afterBody_cons] at h
      cases hb : braces depth t with
      | none =>
        obtain ⟨hk, rfl⟩ := braces_eq_none.1 hb
        rw [hb] at h
        obtain rfl := Option.some.inj h
        exact ⟨[], t, rfl, rfl, hk⟩
      | some d =>
        -- what is inside of the rest is inside, with this token before it
        rw [hb] at h
        obtain ⟨inner, close, rfl, hi, hc⟩ := ih h
        refine ⟨t :: inner, close, rfl, ?_, hc⟩
        rw [List.foldlM_cons, hb]
        exact hi
  · rintro ⟨inner, close, rfl, hi, hc⟩
    induction inner generalizing depth with
    | nil =>
      obtain rfl : depth = 0 := Option.some.inj hi
      rw [List.nil_append, afterBody_cons, braces_eq_none.2 ⟨hc, rfl⟩]
      rfl
    | cons t inner ih =>
      rw [List.foldlM_cons] at hi
      obtain ⟨d, hd, hi⟩ := Option.bind_eq_some_iff.1 hi
      rw [List.cons_append, afterBody_cons, hd]
      exact ih hi

theorem afterBody_shapes (depth : Nat) (ts rest : List Token) (h : afterBody depth ts = some rest) :
    ∃ taken, ts = taken ++ rest ∧
      ∀ taken' rest', shapes taken' = shapes taken → afterBody depth (taken' ++ rest') = some rest' := by
  obtain ⟨inner, close, rfl, hi, hc⟩ := afterBody_iff.1 h
  refine ⟨inner ++ [close], by rw [List.append_assoc]; rfl, ?_⟩
  intro taken' rest' hs
  obtain ⟨inner', after, rfl, h1, h2⟩ := List.map_eq_append_iff.1 (hs.trans List.map_append)
  obtain ⟨close', after, rfl, h3, h4⟩ := List.map_eq_cons_iff.1 h2
  obtain rfl := List.map_eq_nil_iff.1 h4
  refine afterBody_iff.2 ⟨inner', close', by rw [List.append_assoc]; rfl, ?_, (kind_eq h3).trans hc⟩
  rw [foldlM_braces h1, hi]

theorem alike_body (name : String) (line line' : UInt32) : Alike Eq (body name line) (body name line') := by
  refine (alike_accept .semicolon).bind ?_
  rintro found _ rfl
  split
  · exact Alike.pure rfl
  · refine (alike_expect .blockOpen).bind fun _ _ _ => ?_
    exact alike_cut (cuts_rest (afterBody_shapes 0)) (cuts_rest (afterBody_shapes 0)) fun _ _ => sameMessage _ _ rfl

/-! ## Declarations -/

theorem alike_structAfter (line line' : UInt32) : Alike SameButLine (structAfter line) (structAfter line') := by
  refine alike_word.bind ?_
  rintro name _ rfl
  refine alike_members.bind ?_
  rintro specs _ rfl
  exact (alike_expect .semicolon).bind fun _ _ _ => Alike.pure rfl

theorem alike_constantsAfter (line line' : UInt32) :
    Alike SameButLine (constantsAfter line) (constantsAfter line') := by
  refine alike_word.bind ?_
  rintro name _ rfl
  refine (alike_register bufferBanks).bind ?_
  rintro register _ rfl
  refine alike_members.bind ?_
  rintro specs _ rfl
  exact (alike_accept .semicolon).bind fun _ _ _ => Alike.pure rfl

theorem alike_resourceAfter (kind : ResourceKind) (line line' : UInt32) :
    Alike SameButLine (resourceAfter kind line) (resourceAfter kind line') := by
  refine alike_templateArgument.bind ?_
  rintro element _ rfl
  refine alike_word.bind ?_
  rintro name _ rfl
  refine alike_arraySize.bind ?_
  rintro size _ rfl
  refine (alike_register resourceBanks).bind ?_
  rintro register _ rfl
  exact (alike_expect .semicolon).bind fun _ _ _ => Alike.pure rfl

theorem alike_unknownAfter (line line' : UInt32) : Alike SameButLine (unknownAfter line) (unknownAfter line') := by
  refine alike_templateArgument.bind ?_
  rintro argument _ rfl
  cases argument with
  | none => exact Alike.pure rfl
  | some _ => exact (alike_skipStatement line line').bind fun _ _ _ => Alike.pure rfl

theorem sameResult_returnType (types : TypeTable) {t t' : Token} (h : SameShape t t') :
    SameResult Eq (returnType types t) (returnType types t') := by
  unfold returnType
  rw [← text_eq h]
  split
  · exact .ok rfl
  · split
    · exact .error (sameMessage _ _ rfl)
    · exact .ok rfl

/-- A function up to its body, or nothing after a global variable. -/
def signatureAfter (types : TypeTable) (type : Token) : Reader (Option Function) := do
  let returned ← liftM (returnType types type)
  let name ← word
  if ← isNext .bracketOpen then do
    let parameters ← parameters types
    let semantic ← semantic
    pure (some ⟨name, returned, semantic, parameters, type.line⟩)
  else do
    skipStatement type.line
    pure none

/-- What follows the signature of a function. -/
def afterSignature (line : UInt32) : Option Function → Reader Declaration
  | some f => body f.name line >>= fun _ => pure (.function f)
  | none => pure .other

theorem functionAfter_eq (types : TypeTable) (type : Token) :
    functionAfter types type = signatureAfter types type >>= afterSignature type.line := by
  unfold functionAfter signatureAfter
  simp only [bind_assoc]
  refine bind_congr fun returned => bind_congr fun name => bind_congr fun found => ?_
  split <;> simp only [bind_assoc, pure_bind, afterSignature]

/-- The same signature but for lines. -/
def SameSignature (f f' : Option Function) : Prop := f.map Function.unlined = f'.map Function.unlined

theorem alike_signatureAfter (types : TypeTable) {type type' : Token} (h : SameShape type type') :
    Alike SameSignature (signatureAfter types type) (signatureAfter types type') := by
  refine (Alike.liftM (sameResult_returnType types h)).bind ?_
  rintro returned _ rfl
  refine alike_word.bind ?_
  rintro name _ rfl
  refine (alike_isNext .bracketOpen).bind ?_
  rintro found _ rfl
  split
  · refine (alike_parameters types).bind ?_
    rintro parameters _ rfl
    refine alike_semantic.bind ?_
    rintro semantic _ rfl
    exact Alike.pure rfl
  · exact (alike_skipStatement _ _).bind fun _ _ _ => Alike.pure rfl

theorem alike_afterSignature (line line' : UInt32) {f f' : Option Function} (h : SameSignature f f') :
    Alike SameButLine (afterSignature line f) (afterSignature line' f') := by
  cases f with
  | none =>
    obtain rfl : f' = none := Option.map_eq_none_iff.1 h.symm
    exact Alike.pure rfl
  | some f =>
    obtain ⟨f', rfl, hf⟩ := Option.map_eq_some_iff.1 h.symm
    have hname : f'.unlined.name = f.unlined.name := congrArg Function.name hf
    have hname : f'.name = f.name := hname
    simp only [afterSignature, hname]
    exact (alike_body f.name line line').bind fun _ _ _ => Alike.pure (congrArg Declaration.function hf.symm)

theorem alike_functionAfter (types : TypeTable) {type type' : Token} (h : SameShape type type') :
    Alike SameButLine (functionAfter types type) (functionAfter types type') := by
  rw [functionAfter_eq, functionAfter_eq]
  exact (alike_signatureAfter types h).bind fun _ _ => alike_afterSignature _ _

theorem alike_startingWith (types : TypeTable) {first first' : Token} (h : SameShape first first') :
    Alike SameButLine (startingWith types first) (startingWith types first') := by
  unfold startingWith
  rw [← kind_eq h, ← text_eq h]
  split
  · exact alike_structAfter _ _
  · exact alike_constantsAfter _ _
  · split
    · exact alike_resourceAfter _ _ _
    · split
      · exact alike_functionAfter types h
      · exact alike_unknownAfter _ _
  · exact Alike.pure rfl

end Declaration

end ShaderBuild
