import ShaderBuild.Proofs.Loops
/-!
# What the loops of the parsers come to

The reader that goes over the same tokens as a loop gives the same from turn to turn, and in the last one what the
loop comes to (`Loop.Gives`). The loops that count brackets or braces do so as long as one is open, and they and those
that look for the end of a text need a stream without tokens that stand for it.
-/

namespace ShaderBuild

open Token Reader

/-! ## What the readers of items give -/

namespace Token.Reader

section Items
variable {α : Type} {closing separator : Kind} {item : Reader α} {h : Consumes item} {s : Stream}

theorem untilClosed_of_closed (hk : s.head.kind = closing) : untilClosed closing item h s = .ok ([], s.tail) := by
  rw [untilClosed, if_pos hk]

theorem untilClosed_of_error (hk : s.head.kind ≠ closing) {e : Error} (hi : item s = .error e) :
    untilClosed closing item h s = .error e := by
  rw [untilClosed, if_neg hk]
  -- The reader keeps its result in the match, for its termination.
  split
  · next he => exact congrArg Except.error (Except.error.inj (he.symm.trans hi))
  · next hb => cases hi.symm.trans hb

theorem untilClosed_of_ok (hk : s.head.kind ≠ closing) {a : α} {t : Stream} (hi : item s = .ok (a, t)) :
    untilClosed closing item h s = (untilClosed closing item h t).map fun p => (a :: p.1, p.2) := by
  rw [untilClosed, if_neg hk]
  split
  · next he => cases hi.symm.trans he
  · next hb =>
    obtain ⟨rfl, rfl⟩ := Prod.mk.inj (Except.ok.inj (hi.symm.trans hb))
    cases untilClosed closing item h t <;> rfl

theorem separated_of_error {e : Error} (hi : item s = .error e) : separated separator item h s = .error e := by
  rw [separated]
  split
  · next he => exact congrArg Except.error (Except.error.inj (he.symm.trans hi))
  · next hb => cases hi.symm.trans hb

theorem separated_of_ok {a : α} {t : Stream} (hi : item s = .ok (a, t)) : separated separator item h s =
    if t.head.kind = separator then (separated separator item h t.tail).map fun p => (a :: p.1, p.2)
    else .ok ([a], t) := by
  rw [separated]
  split
  · next he => cases hi.symm.trans he
  · next hb =>
    obtain ⟨rfl, rfl⟩ := Prod.mk.inj (Except.ok.inj (hi.symm.trans hb))
    cases separated separator item h t.tail <;> rfl

end Items

end Token.Reader

namespace Declaration

/-- The text of a template argument after its opening bracket, with `depth` more brackets open inside. -/
def templateText (depth : Nat) : Reader String :=
  (fun arg => String.join (arg.map Token.text)) <$> cut (templateTokens depth) fun line =>
    .declaration line .unterminatedTemplate

theorem templateArgument_eq : templateArgument = (do
    if (← peek).text = "<" then
      let _ ← next
      some <$> templateText 0
    else pure none) := by
  unfold templateArgument templateText
  simp only [map_eq_pure_bind, bind_assoc, pure_bind]

/-- The number of brackets that are open inside after a token that does not close the argument. -/
def angles (depth : Nat) (t : Token) : Nat :=
  if t.text = ">" then depth - 1 else if t.text = "<" then depth + 1 else depth

theorem templateTokens_cons (depth : Nat) (t : Token) (ts : List Token) :
    templateTokens depth (t :: ts) =
      if t.text = ">" ∧ depth = 0 then some ([], ts)
      else (templateTokens (angles depth t) ts).map fun p => (t :: p.1, p.2) := by
  rw [templateTokens.eq_def, angles]
  dsimp only
  by_cases h : t.text = ">"
  · rw [if_pos h, if_pos h]
    cases depth with
    | zero => rw [if_pos ⟨h, rfl⟩]
    | succ inner =>
      rw [if_neg fun hn => Nat.succ_ne_zero inner hn.2]
      rfl
  · rw [if_neg h, if_neg h, if_neg (c := t.text = ">" ∧ depth = 0) fun hn => h hn.1]

theorem templateArgument_of_open {s : Stream} (h : s.head.text = "<") :
    templateArgument s = (templateText 0 s.tail).map fun p => (some p.1, p.2) := by
  have hpeek : peek s = .ok (s.head, s) := rfl
  have hnext : next s = .ok (s.head, s.tail) := rfl
  rw [templateArgument_eq, bind_of_ok hpeek, if_pos h, bind_of_ok hnext]
  cases ht : templateText 0 s.tail with
  | error e => rw [map_eq_pure_bind, bind_of_error ht, Except.map]
  | ok p => rw [map_eq_pure_bind, bind_of_ok ht]; rfl

theorem templateText_cons (depth : Nat) (t : Token) (ts : List Token) (line : UInt32) :
    templateText depth ⟨t :: ts, line⟩ =
      if t.text = ">" ∧ depth = 0 then .ok ("", ⟨ts, line⟩)
      else (templateText (angles depth t) ⟨ts, line⟩).map fun p => (t.text ++ p.1, p.2) := by
  unfold templateText
  simp only [map_eq_pure_bind, Bind.bind, StateT.bind, Except.bind, cut]
  rw [templateTokens_cons]
  by_cases h : t.text = ">" ∧ depth = 0
  · rw [if_pos h, if_pos h]
    rfl
  · rw [if_neg h, if_neg h]
    cases templateTokens (angles depth t) ts with
    | none => rfl
    | some p => exact congrArg (fun text => Except.ok (text, (⟨p.2, line⟩ : Stream))) String.join_cons

/-- The rest of a body, with `depth` more braces open inside. -/
def bodyRest (name : String) (line : UInt32) (depth : Nat) : Reader Unit :=
  cut (fun ts => (afterBody depth ts).map fun rest => ((), rest)) fun _ => .declaration line (.unclosedBody name)

theorem body_eq (name : String) (line : UInt32) : body name line = (do
    if ← accept .semicolon then pure ()
    else
      let _ ← expect .blockOpen
      bodyRest name line 0) := rfl

theorem body_of_open (name : String) (line : UInt32) {s : Stream} (h : s.head.kind = .blockOpen) :
    body name line s = bodyRest name line 0 s.tail := by
  have haccept : accept .semicolon s = .ok (false, s) := if_neg (by rw [h]; decide)
  have hexpect : expect .blockOpen s = .ok (s.head, s.tail) := if_pos h
  rw [body_eq, bind_of_ok haccept, if_neg Bool.false_ne_true, bind_of_ok hexpect]

theorem bodyRest_cons (name : String) (line : UInt32) (depth : Nat) (t : Token) (ts : List Token) (endLine : UInt32) :
    bodyRest name line depth ⟨t :: ts, endLine⟩ =
      match braces depth t with
      | none => .ok ((), ⟨ts, endLine⟩)
      | some d => bodyRest name line d ⟨ts, endLine⟩ := by
  unfold bodyRest cut
  dsimp only
  rw [afterBody_cons]
  cases braces depth t <;> rfl

/-- What is read behind some text of a template argument, with so many brackets open, its own included. -/
def templateFrom (depth : Int) (argument : String) (s : Stream) : Except Error (String × Stream) :=
  (templateText (depth - 1).toNat s).map fun p => (argument ++ p.1, p.2)

/-- A token inside belongs to the text, and leaves so many brackets open. -/
theorem templateFrom_inside {depth depth' : Int} (argument : String) {s : Stream} (hend : s.head.isEnd = false)
    (hopen : ¬ (s.head.text = ">" ∧ (depth - 1).toNat = 0))
    (hangles : angles (depth - 1).toNat s.head = (depth' - 1).toNat) :
    templateFrom depth argument s = templateFrom depth' (argument ++ s.head.text) s.tail := by
  unfold templateFrom
  rw [Stream.eq_cons_of_head hend, templateText_cons, if_neg hopen, hangles]
  dsimp only [Stream.head, Stream.tail, List.headD_cons, List.tail_cons]
  cases templateText (depth' - 1).toNat ⟨s.tokens.tail, s.endLine⟩ with
  | error e => rfl
  | ok p => simp only [Except.map, String.append_assoc]

theorem templateFrom_one (s : Stream) : templateFrom 1 "" s = templateText 0 s := by
  show (templateText 0 s).map (fun p => ("" ++ p.1, p.2)) = templateText 0 s
  cases templateText 0 s with
  | error e => rfl
  | ok p => exact congrArg (fun text => Except.ok (text, p.2)) String.empty_append

/-- What is read of a body with so many braces open, its own included. -/
def bodyFrom (name : String) (line : UInt32) (depth : Int) (s : Stream) : Except Error (Unit × Stream) :=
  if depth = 0 then .ok ((), s) else bodyRest name line (depth - 1).toNat s

/-- A token of a body leaves so many braces open. -/
theorem bodyFrom_token (name : String) (line : UInt32) {depth depth' : Int} {s : Stream} (hpos : 0 < depth)
    (hend : s.head.isEnd = false)
    (hbraces : braces (depth - 1).toNat s.head = if depth' = 0 then none else some (depth' - 1).toNat) :
    bodyFrom name line depth s = bodyFrom name line depth' s.tail := by
  unfold bodyFrom
  rw [if_neg (by omega), Stream.eq_cons_of_head hend, bodyRest_cons, hbraces]
  by_cases h : depth' = 0
  · rw [if_pos h, if_pos h]
    rfl
  · rw [if_neg h, if_neg h]
    rfl

theorem skipStatement_cons (line : UInt32) (t : Token) (ts : List Token) (endLine : UInt32) :
    skipStatement line ⟨t :: ts, endLine⟩ =
      if t.kind = .semicolon then .ok ((), ⟨ts, endLine⟩) else skipStatement line ⟨ts, endLine⟩ := by
  unfold skipStatement cut
  dsimp only
  rw [afterStatement]
  by_cases hk : t.kind = .semicolon
  · rw [if_pos hk, if_pos hk]
    rfl
  · rw [if_neg hk, if_neg hk]

end Declaration

/-! ## What the loops come to -/

namespace Loop

open Declaration

section Gives
variable {α : Type} {closing separator : Kind}

theorem gives_modifiers (words : List String) :
    (modifiers words).Gives (fun _ => True) (skipWhile (isWordOf words)) := by
  constructor
  · intro s t _ ht
    simp only [modifiers] at ht
    split at ht
    · next h =>
      obtain rfl := Turn.again.inj ht
      have hhead : s.head.isEnd = false := by
        rw [Token.isEnd, eq_of_beq (Bool.and_eq_true_iff.1 h).1]
        rfl
      refine ⟨trivial, ?_⟩
      rw [Stream.eq_cons_of_head hhead] at h ⊢
      exact congrArg (fun ts => Except.ok ((), (⟨ts, s.endLine⟩ : Stream))) (List.dropWhile_cons_of_pos h)
    · cases ht
  · intro s outcome _ ht
    simp only [modifiers] at ht
    split at ht
    · cases ht
    · next h =>
      obtain rfl := Turn.last.inj ht
      obtain ⟨tokens, line⟩ := s
      cases tokens with
      | nil => rfl
      | cons t ts =>
        exact congrArg (fun ts => Except.ok ((), (⟨ts, line⟩ : Stream))) (List.dropWhile_cons_of_neg h)

theorem gives_items {item : Reader α} (h : Consumes item) : (items closing item).Gives (fun _ => True)
    fun x => (untilClosed closing item h x.2).map fun p => (x.1 ++ p.1, p.2) := by
  constructor
  · intro x y _ ht
    simp only [items] at ht
    split at ht
    · cases ht
    next hk =>
    split at ht
    · cases ht
    · next a t hi =>
      obtain rfl := Turn.again.inj ht
      refine ⟨trivial, ?_⟩
      dsimp only
      rw [untilClosed_of_ok hk hi]
      cases untilClosed closing item h t with
      | error e => rfl
      | ok p => simp only [Except.map, List.append_assoc, List.singleton_append]
  · intro x outcome _ ht
    simp only [items] at ht
    split at ht
    · next hk =>
      obtain rfl := Turn.last.inj ht
      rw [untilClosed_of_closed hk, Except.map, List.append_nil]
    next hk =>
    split at ht
    · next e hi =>
      obtain rfl := Turn.last.inj ht
      rw [untilClosed_of_error hk hi, Except.map]
    · cases ht

theorem gives_listed {item : Reader α} (h : Consumes item) : (listed separator item).Gives (fun _ => True)
    fun x => (separated separator item h x.2).map fun p => (x.1 ++ p.1, p.2) := by
  constructor
  · intro x y _ ht
    simp only [listed] at ht
    split at ht
    · cases ht
    next a t hi =>
    split at ht
    · next hk =>
      obtain rfl := Turn.again.inj ht
      refine ⟨trivial, ?_⟩
      dsimp only
      rw [separated_of_ok hi, if_pos hk]
      cases separated separator item h t.tail with
      | error e => rfl
      | ok p => simp only [Except.map, List.append_assoc, List.singleton_append]
    · cases ht
  · intro x outcome _ ht
    simp only [listed] at ht
    split at ht
    · next e hi =>
      obtain rfl := Turn.last.inj ht
      rw [separated_of_error hi, Except.map]
    next a t hi =>
    split at ht
    · cases ht
    · next hk =>
      obtain rfl := Turn.last.inj ht
      rw [separated_of_ok hi, if_neg hk, Except.map]

theorem gives_changes {item : α → Reader α} (h : ∀ a, Consumes (item a)) :
    (changes closing item).Gives (fun _ => True) fun x => foldUntil closing item h x.1 x.2 := by
  constructor
  · intro x y _ ht
    simp only [changes] at ht
    split at ht
    · cases ht
    next hk =>
    split at ht
    · cases ht
    · next a t hi =>
      obtain rfl := Turn.again.inj ht
      exact ⟨trivial, foldUntil_of_ok hk hi⟩
  · intro x outcome _ ht
    simp only [changes] at ht
    split at ht
    · next hk =>
      obtain rfl := Turn.last.inj ht
      rw [foldUntil, if_pos hk]
    next hk =>
    split at ht
    · next e hi =>
      obtain rfl := Turn.last.inj ht
      exact foldUntil_of_error hk hi
    · cases ht

theorem gives_template : template.Gives (fun x => 1 ≤ x.depth ∧ x.rest.Genuine)
    fun x => templateFrom x.depth x.argument x.rest := by
  constructor
  · rintro ⟨depth, argument, s⟩ y ⟨hdepth, hs⟩ ht
    simp only [template] at ht
    dsimp only at hdepth hs ⊢
    have hrest := s.tail_within.genuine hs
    split at ht
    · cases ht
    next hend =>
    have hhead := Bool.eq_false_iff.2 hend
    split at ht
    · next hopen =>
      obtain rfl := Turn.again.inj ht
      have hangles : angles (depth - 1).toNat s.head = (depth + 1 - 1).toNat := by
        rw [angles, hopen, if_neg (by decide), if_pos rfl]
        omega
      have hinside : ¬ (s.head.text = ">" ∧ (depth - 1).toNat = 0) := fun hn =>
        absurd (hopen.symm.trans hn.1) (by decide)
      exact ⟨⟨Int.le_add_one hdepth, hrest⟩, templateFrom_inside argument hhead hinside hangles⟩
    split at ht
    · next hclose =>
      split at ht
      · cases ht
      · next hmore =>
        obtain rfl := Turn.again.inj ht
        have hangles : angles (depth - 1).toNat s.head = (depth - 1 - 1).toNat := by
          rw [angles, if_pos hclose]
          omega
        have hinside : ¬ (s.head.text = ">" ∧ (depth - 1).toNat = 0) := fun hn => by omega
        exact ⟨⟨by dsimp only; omega, hrest⟩, templateFrom_inside argument hhead hinside hangles⟩
    · next hopen hclose =>
      obtain rfl := Turn.again.inj ht
      have hangles : angles (depth - 1).toNat s.head = (depth - 1).toNat := by
        rw [angles, if_neg hclose, if_neg hopen]
      exact ⟨⟨hdepth, hrest⟩, templateFrom_inside argument hhead (fun hn => hclose hn.1) hangles⟩
  · rintro ⟨depth, argument, s⟩ outcome ⟨hdepth, hs⟩ ht
    simp only [template] at ht
    dsimp only at hdepth hs ⊢
    split at ht
    · next hend =>
      obtain rfl := Turn.last.inj ht
      obtain ⟨tokens, line⟩ := s
      obtain rfl : tokens = [] := hs.eq_nil hend
      rfl
    next hend =>
    split at ht
    · cases ht
    split at ht
    · next hclose =>
      split at ht
      · next hlast =>
        obtain rfl := Turn.last.inj ht
        rw [templateFrom, Stream.eq_cons_of_head (Bool.eq_false_iff.2 hend), templateText_cons,
          if_pos ⟨hclose, by omega⟩]
        exact congrArg (fun text => Except.ok (text, s.tail)) String.append_empty
      · cases ht
    · cases ht

theorem gives_body (function : String) (line : UInt32) :
    (body function line).Gives (fun x => 0 ≤ x.1 ∧ x.2.Genuine) fun x => bodyFrom function line x.1 x.2 := by
  constructor
  · rintro ⟨depth, s⟩ y ⟨hdepth, hs⟩ ht
    simp only [body] at ht
    dsimp only at hdepth hs ⊢
    split at ht
    next hpos =>
      have hrest := s.tail_within.genuine hs
      split at ht
      · next hk =>
        obtain rfl := Turn.again.inj ht
        refine ⟨⟨Int.add_nonneg hdepth (by decide), hrest⟩,
          bodyFrom_token function line hpos (by rw [isEnd, hk]; rfl) ?_⟩
        rw [if_neg (by omega)]
        simp only [braces, hk, Option.some.injEq]
        omega
      · next hk =>
        obtain rfl := Turn.again.inj ht
        refine ⟨⟨Int.sub_nonneg_of_le hpos, hrest⟩, bodyFrom_token function line hpos (by rw [isEnd, hk]; rfl) ?_⟩
        simp only [braces, hk]
        by_cases h : depth - 1 = 0
        · rw [if_pos h, if_pos (by omega)]
        · rw [if_neg h, if_neg (by omega)]
          exact congrArg some (by omega)
      · cases ht
      · next hopen hclose hend =>
        obtain rfl := Turn.again.inj ht
        refine ⟨⟨hdepth, hrest⟩, bodyFrom_token function line hpos (beq_eq_false_iff_ne.2 hend) ?_⟩
        rw [if_neg (by omega), braces]
        split
        · next h => exact (hopen h).elim
        · next h => exact (hclose h).elim
        · rfl
    · cases ht
  · rintro ⟨depth, s⟩ outcome ⟨hdepth, hs⟩ ht
    simp only [body] at ht
    dsimp only at hdepth hs ⊢
    split at ht
    · next hpos =>
      split at ht
      · cases ht
      · cases ht
      · next hk =>
        obtain rfl := Turn.last.inj ht
        obtain ⟨tokens, endLine⟩ := s
        obtain rfl : tokens = [] := hs.eq_nil (beq_iff_eq.2 hk)
        exact if_neg (by omega)
      · cases ht
    · obtain rfl := Turn.last.inj ht
      exact if_pos (by omega)

theorem gives_statement (line : UInt32) : (statement line).Gives Stream.Genuine (skipStatement line) := by
  constructor
  · intro s t hs ht
    simp only [statement] at ht
    split at ht
    · cases ht
    · cases ht
    · next hsemicolon hend =>
      obtain rfl := Turn.again.inj ht
      refine ⟨s.tail_within.genuine hs, ?_⟩
      rw [Stream.eq_cons_of_head (beq_eq_false_iff_ne.2 hend), skipStatement_cons, if_neg hsemicolon]
      rfl
  · intro s outcome hs ht
    simp only [statement] at ht
    split at ht
    · next hk =>
      obtain rfl := Turn.last.inj ht
      have hend : s.head.isEnd = false := by
        rw [isEnd, hk]
        rfl
      rw [Stream.eq_cons_of_head hend, skipStatement_cons, if_pos hk]
      rfl
    · next hk =>
      obtain rfl := Turn.last.inj ht
      obtain ⟨tokens, endLine⟩ := s
      obtain rfl : tokens = [] := hs.eq_nil (beq_iff_eq.2 hk)
      rfl
    · cases ht

theorem extend_of_head {i : Interface} {s : Stream} (h : s.head.isEnd = false) : i.extend s =
    match i.declare s.head s.tail with
    | .error e => ⟨.error e, []⟩
    | .ok ((j, more), t) => ⟨(j.extend t).result, more ++ (j.extend t).warnings⟩ := by
  have hfirst := i.extend_first s.head s.tail.tokens s.endLine
  rwa [← Stream.eq_cons_of_head h] at hfirst

theorem gives_declarations : declarations.Gives (fun x => x.2.2.Genuine)
    fun x => ⟨(x.1.extend x.2.2).result, x.2.1 ++ (x.1.extend x.2.2).warnings⟩ := by
  constructor
  · rintro ⟨i, warnings, s⟩ y hs ht
    simp only [declarations] at ht
    dsimp only at hs ⊢
    split at ht
    · cases ht
    next hend =>
    split at ht
    · cases ht
    · next i' more t hd =>
      obtain rfl := Turn.again.inj ht
      refine ⟨((recedes_declare hd).trans s.tail_within).genuine hs, ?_⟩
      rw [extend_of_head (Bool.eq_false_iff.2 hend), hd]
      simp only [List.append_assoc]
  · rintro ⟨i, warnings, s⟩ outcome hs ht
    simp only [declarations] at ht
    dsimp only at hs ⊢
    split at ht
    · next hend =>
      obtain rfl := Turn.last.inj ht
      obtain ⟨tokens, line⟩ := s
      obtain rfl : tokens = [] := hs.eq_nil hend
      rw [Interface.extend]
      simp only [List.append_nil]
    next hend =>
    split at ht
    · next e he =>
      obtain rfl := Turn.last.inj ht
      rw [extend_of_head (Bool.eq_false_iff.2 hend), he]
      simp only [List.append_nil]
    · cases ht

theorem gives_shaders : shaders.Gives (fun _ => True) fun x => x.1.extend x.2 := by
  constructor
  · intro x y _ ht
    simp only [shaders] at ht
    split at ht
    · cases ht
    next hend =>
    split at ht
    · cases ht
    next e t he =>
    split at ht
    · cases ht
    · next hnew =>
      obtain rfl := Turn.again.inj ht
      exact ⟨trivial, (Written.extend_of_entry hend he).trans (if_neg hnew)⟩
  · intro x outcome _ ht
    simp only [shaders] at ht
    split at ht
    · next hend =>
      obtain rfl := Turn.last.inj ht
      rw [Manifest.extend, if_pos hend]
    next hend =>
    split at ht
    · next he =>
      obtain rfl := Turn.last.inj ht
      exact Written.extend_of_entry_error hend he
    next e t he =>
    split at ht
    · next hdup =>
      obtain rfl := Turn.last.inj ht
      exact (Written.extend_of_entry hend he).trans (if_pos hdup)
    · cases ht

end Gives

end Loop

end ShaderBuild
