import Mathlib.Logic.Relation
import ShaderBuild.Proofs.Expansion
/-!
# Macros that are expanded completely

A macro is left in place only inside its own expansion. So if no macro comes up again in what its value stands for
(`Acyclic`), and no value ends in a literal (`Balanced`), there is no macro left in an expansion, and expanding it
once more changes nothing (`acyclic_expands_completely`). What is put in place of a word never joins what is around
it: no word or number is next to a word, so the words of the whole are the words of what is put in their places
(`words_substitute`).
-/

namespace ShaderBuild.MacroTable

open Text Relation

/-! ## Replaced words -/

section Substitute
variable {f : List Char → List Char}

/-- What is no word character is copied. -/
theorem head?_substitute {c : Char} (h : isWordChar c = false) (cs : List Char) :
    (substitute f (c :: cs)).head? = some c := by
  rcases char_cases c with rfl | hc | hc
  · rw [substitute_cons, piece_quote]
    rfl
  · rw [h] at hc
    cases hc
  · rw [substitute_filler hc]
    rfl

theorem apart_substitute {u v : List Char} (h : Apart u v) : Apart u (substitute f v) := by
  cases v with
  | nil => rwa [substitute_nil]
  | cons d v =>
    intro c hc e he hword
    have hd : isWordChar d = false := h c hc d rfl hword
    rw [head?_substitute hd] at he
    obtain rfl := Option.some.inj he
    exact hd

/-- After a word comes something that does not go on in what is put in its place. -/
theorem Apart.after_word {w v : List Char} (hw : Token.IsWord w) (h : Apart w v) (u : List Char) : Apart u v :=
  fun _ _ d hd _ => h.head hw.ne_nil (isWord_run hw).1 d hd

theorem closed_substitute_piece {c : Char} {cs : List Char} (hf : ∀ w ∈ words (c :: cs), LiteralsClosed (f w))
    (hc : LiteralsClosed (piece c cs).1.text) : LiteralsClosed ((piece c cs).1.substitute f) := by
  rw [words_cons] at hf
  cases hp : (piece c cs).1 with
  | verbatim text =>
    rw [hp] at hc
    exact hc
  | word w =>
    rw [hp] at hf
    exact hf w List.mem_cons_self

/-- What is put in place of a piece does not go on in what follows. -/
theorem apart_substitute_piece {c : Char} {cs : List Char} (ha : Apart (piece c cs).1.text (piece c cs).2) :
    Apart ((piece c cs).1.substitute f) (substitute f (piece c cs).2) := by
  have hword : ∀ w ∈ (piece c cs).1.words, Token.IsWord w := fun w hw => (isWord_of_mem hw).2
  cases hp : (piece c cs).1 with
  | verbatim text =>
    rw [hp] at ha
    exact apart_substitute ha
  | word w =>
    rw [hp] at ha hword
    exact apart_substitute (ha.after_word (hword w (List.mem_singleton_self w)) _)

theorem words_piece (c : Char) (cs : List Char) : words (piece c cs).1.text = (piece c cs).1.words := by
  have happend := piece_append c cs
  have hcons := words_cons c cs
  rcases piece_ends c cs with hrest | ⟨hclosed, hapart⟩
  · rw [hrest, List.append_nil] at happend
    rw [happend, hcons, hrest, words_nil, List.append_nil]
  · rw [← happend, words_append hclosed hapart] at hcons
    exact List.append_cancel_right hcons

theorem words_substitute_piece (c : Char) (cs : List Char) :
    words ((piece c cs).1.substitute f) = (piece c cs).1.words.flatMap (words ∘ f) := by
  have hwords := words_piece c cs
  cases hp : (piece c cs).1 with
  | verbatim text =>
    rw [hp] at hwords
    exact hwords
  | word w => exact (List.flatMap_singleton (words ∘ f) w).symm

/-- The words of a text with something in place of its words are the words of that. -/
theorem words_substitute {cs : List Char} (hf : ∀ w ∈ words cs, LiteralsClosed (f w)) :
    words (substitute f cs) = (words cs).flatMap (words ∘ f) := by
  induction cs using pieces.induct with
  | case1 => rw [substitute_nil, words_nil, List.flatMap_nil]
  | case2 c cs ih =>
    have hrest : ∀ w ∈ words (piece c cs).2, LiteralsClosed (f w) := fun w hw =>
      hf w (words_cons c cs ▸ List.mem_append_right _ hw)
    have happend : words ((piece c cs).1.substitute f ++ substitute f (piece c cs).2) =
        words ((piece c cs).1.substitute f) ++ words (substitute f (piece c cs).2) := by
      rcases piece_ends c cs with hnil | ⟨hclosed, hapart⟩
      · rw [hnil, substitute_nil, List.append_nil, words_nil, List.append_nil]
      · exact words_append (closed_substitute_piece hf hclosed) (apart_substitute_piece hapart)
    rw [substitute_cons, happend, ih hrest, words_substitute_piece, words_cons, List.flatMap_append]

/-- No literal is opened by what is put in place of words. -/
theorem closed_substitute {cs : List Char} (hf : ∀ w ∈ words cs, LiteralsClosed (f w)) (hc : LiteralsClosed cs) :
    LiteralsClosed (substitute f cs) := by
  induction cs using pieces.induct with
  | case1 =>
    rw [substitute_nil]
    exact closed_nil
  | case2 c cs ih =>
    have hrest : ∀ w ∈ words (piece c cs).2, LiteralsClosed (f w) := fun w hw =>
      hf w (words_cons c cs ▸ List.mem_append_right _ hw)
    rw [substitute_cons, (closed_substitute_piece hf hc.parts.1).append_iff]
    exact ih hrest hc.parts.2

end Substitute

/-! ## Tables -/

variable {t : MacroTable}

/-- The name of a macro is a word of the value of another one. -/
def Refers (t : MacroTable) (name other : String) : Prop :=
  ∃ value, t.get? name = some value ∧ Occurs other.toList value.toList ∧ t.contains other = true

/-- No macro comes up again in what its value stands for. -/
def Acyclic (t : MacroTable) : Prop := ∀ name, ¬ TransGen t.Refers name name

/-- No value ends in a literal. -/
def Balanced (t : MacroTable) : Prop := ∀ name value, t.get? name = some value → LiteralsClosed value.toList

theorem mem_entries_of_get? {name value : String} (h : t.get? name = some value) : (name, value) ∈ t.entries := by
  obtain ⟨before, after, he, -⟩ := List.lookup_eq_some_iff.1 h
  rw [he]
  exact List.mem_append_right _ List.mem_cons_self

/-- No macro comes up again if they can be ranked so that values have lower ones in them only. -/
theorem acyclic_of_rank (rank : String → Nat) (h : ∀ e ∈ t.entries, ∀ w ∈ words e.2.toList,
    t.contains (String.ofList w) = true → rank (String.ofList w) < rank e.1) : t.Acyclic := by
  have hlower : ∀ {name other : String}, TransGen t.Refers name other → rank other < rank name := by
    intro name other hpath
    have hstep : ∀ {name other : String}, t.Refers name other → rank other < rank name := by
      rintro name other ⟨value, hget, hoccurs, hother⟩
      have hrank := h _ (mem_entries_of_get? hget) _ (mem_words_iff.2 hoccurs)
      rw [String.ofList_toList] at hrank
      exact hrank hother
    induction hpath with
    | single hrefers => exact hstep hrefers
    | tail _ hrefers ih => exact (hstep hrefers).trans ih
  exact fun name hpath => (hlower hpath).false

theorem balanced_of_entries (h : ∀ e ∈ t.entries, LiteralsClosed e.2.toList) : t.Balanced :=
  fun _ _ hget => h _ (mem_entries_of_get? hget)

/-- A word is left as it is, or its value is expanded. -/
theorem expandWord_cases (t : MacroTable) (active : List String) (w : List Char) :
    t.expandWord active w = w ∧ (t.get? (String.ofList w) = none ∨ String.ofList w ∈ active) ∨
      ∃ value, t.get? (String.ofList w) = some value ∧ String.ofList w ∉ active ∧
        t.expandWord active w = t.expandWithin (String.ofList w :: active) value.toList := by
  unfold expandWord
  cases hv : t.get? (String.ofList w) with
  | none => exact .inl ⟨rfl, .inl rfl⟩
  | some value =>
    dsimp only
    by_cases ha : String.ofList w ∈ active
    · exact .inl ⟨if_pos ha, .inr ha⟩
    · exact .inr ⟨value, rfl, ha, if_neg ha⟩

/-- The expansion of a word does not end in a literal. -/
theorem Balanced.closed_expandWord (hb : t.Balanced) (active : List String) {w : List Char} (hw : Token.IsWord w) :
    LiteralsClosed (t.expandWord active w) := by
  rcases t.expandWord_cases active w with ⟨hsame, -⟩ | ⟨value, hget, hidle, hvalue⟩
  · rw [hsame]
    exact closed_run (isWord_run hw).1
  · rw [hvalue, expandWithin_eq]
    exact closed_substitute (fun v hv => hb.closed_expandWord _ (isWord_of_mem_words hv)) (hb _ _ hget)
termination_by (t.idle active).length
decreasing_by exact length_idle_lt (mem_names_of_get? hget) hidle

/-- Inside the expansions of macros that lead to all macros in a text, the text is expanded completely. -/
theorem contains_of_mem_expandWithin (ha : t.Acyclic) (hb : t.Balanced) (active : List String) {cs : List Char}
    (hactive : ∀ w ∈ words cs, t.contains (String.ofList w) = true →
      ∀ name ∈ active, TransGen t.Refers name (String.ofList w)) :
    ∀ w ∈ words (t.expandWithin active cs), t.contains (String.ofList w) = false := by
  intro w hw
  rw [expandWithin_eq, words_substitute fun v hv => hb.closed_expandWord active (isWord_of_mem_words hv),
    List.mem_flatMap] at hw
  obtain ⟨v, hv, hw⟩ := hw
  rw [Function.comp] at hw
  rcases t.expandWord_cases active v with ⟨hsame, hleft⟩ | ⟨value, hget, hidle, hvalue⟩
  · rw [hsame, words_word (isWord_of_mem_words hv)] at hw
    obtain rfl := List.mem_singleton.1 hw
    refine Bool.eq_false_iff.2 fun hname => ?_
    rcases hleft with hnone | hmem
    · rw [contains, hnone] at hname
      cases hname
    · exact ha _ (hactive w hv hname _ hmem)
  · rw [hvalue] at hw
    refine contains_of_mem_expandWithin ha hb _ (fun w hw hname name hmem => ?_) w hw
    have hrefers : t.Refers (String.ofList v) (String.ofList w) :=
      ⟨value, hget, by rw [String.toList_ofList]; exact mem_words_iff.1 hw, hname⟩
    rcases List.mem_cons.1 hmem with rfl | hmem
    · exact .single hrefers
    · exact (hactive v hv (by rw [contains, hget]; rfl) name hmem).tail hrefers
termination_by (t.idle active).length
decreasing_by exact length_idle_lt (mem_names_of_get? hget) hidle

/-- A text without macros in it is its own expansion. -/
theorem expand_eq_self {cs : List Char} (h : ∀ w ∈ words cs, t.contains (String.ofList w) = false) :
    t.expand cs = cs := by
  rw [expand_eq, expandWithin_eq]
  refine substitute_eq_self fun w hw => ?_
  rcases t.expandWord_cases [] w with ⟨hsame, -⟩ | ⟨value, hget, -⟩
  · exact hsame
  · have hnone := h w hw
    rw [contains, hget] at hnone
    cases hnone

/-- If the values of macros have no macros in them that lead back to these, and none ends in a literal, then every
text is expanded completely: no macro is left in it outside its literals and numbers, and expanding it once more
changes nothing. -/
theorem acyclic_expands_completely (ha : t.Acyclic) (hb : t.Balanced) (cs : List Char) :
    (∀ name, Occurs name.toList (t.expand cs) → t.contains name = false) ∧ t.expand (t.expand cs) = t.expand cs := by
  have hnone : ∀ w ∈ words (t.expand cs), t.contains (String.ofList w) = false := by
    rw [expand_eq]
    exact contains_of_mem_expandWithin ha hb [] fun _ _ _ _ hmem => (List.not_mem_nil hmem).elim
  refine ⟨fun name hname => ?_, expand_eq_self hnone⟩
  rw [← String.ofList_toList (s := name)]
  exact hnone name.toList (mem_words_iff.2 hname)

/-- Three macros, one of them without a value, with their names in literals and numbers as well. -/
theorem acyclic_expands_completely_nested :
    let t : MacroTable := .ofList
      [⟨"SLOT", "register(REG)NONE"⟩, ⟨"REG", "b0 NONE\"REG \\\" SLOT\"1REG\\"⟩, ⟨"NONE", ""⟩]
    let text := "x:SLOT.REG\"SLOT".toList
    (t.Acyclic ∧ t.Balanced) ∧
      t.expand text = "x:register(b0 \"REG \\\" SLOT\"1REG\\).b0 \"REG \\\" SLOT\"1REG\\\"SLOT".toList ∧
      (∀ name, Occurs name.toList (t.expand text) → t.contains name = false) ∧
      t.expand (t.expand text) = t.expand text := by
  intro t text
  have ha : t.Acyclic := acyclic_of_rank (fun name => ["NONE", "REG", "SLOT"].idxOf name) (by decide +kernel)
  have hb : t.Balanced := balanced_of_entries (by decide +kernel)
  exact ⟨⟨ha, hb⟩, by decide +kernel, acyclic_expands_completely ha hb text⟩

end ShaderBuild.MacroTable
