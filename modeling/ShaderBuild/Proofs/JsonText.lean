import Mathlib.Data.List.Forall2
import ShaderBuild.Proofs.JsonLiterals
/-!
# JSON is read back

A value is written with its words (`words`), and any space may stand before each of them and after the last
(`LaidOut`). Both ways of printing a value are such layouts (`laidOut_pretty`, `laidOut_compact`). Whatever the space
is, the words are read (`lexemes_laidOut`), and they hold the value (`value_words`). So a value whose literals are
well formed is read back from each of its layouts (`read?_laidOut`). All this is shown with anything after the words,
as items follow each other.
-/

namespace ShaderBuild.Json

open Text

/-! ## Words with space between them -/

namespace Lexeme

/-- A word as it is written. -/
def text : Lexeme → List Char
  | openArray => ['[']
  | closeArray => [']']
  | openObject => ['{']
  | closeObject => ['}']
  | colon => [':']
  | comma => [',']
  | null => "null".toList
  | bool value => boolText value
  | number literal => literal
  | string literal => quoted literal

/-- The literals in words are those of the grammar. -/
def Valid : Lexeme → Prop
  | number literal => IsNumber literal
  | string literal => IsLiteral literal
  | _ => True

/-- Is this a word of a single character? -/
def isSign : Lexeme → Bool
  | openArray | closeArray | openObject | closeObject | colon | comma => true
  | _ => false

end Lexeme

theorem lexemes_space {c : Char} (h : isSpace c = true) (cs : List Char) : lexemes (c :: cs) = lexemes cs := by
  rw [lexemes, lexemes, List.dropWhile_cons_of_pos h]

theorem lexemes_spaces {space : List Char} (h : space.all isSpace = true) (cs : List Char) :
    lexemes (space ++ cs) = lexemes cs := by
  induction space with
  | nil => rfl
  | cons c space ih =>
    rw [List.all_cons, Bool.and_eq_true] at h
    rw [List.cons_append, lexemes_space h.1, ih h.2]

theorem lexemes_cons {c : Char} {cs rest : List Char} {w : Lexeme} (hc : isSpace c = false)
    (h : lexeme c cs = some (w, rest)) : lexemes (c :: cs) = (lexemes rest).map (w :: ·) := by
  rw [lexemes, List.dropWhile_cons_of_neg (by simp [hc])]
  split
  · next he => cases he
  · next c' cs' he =>
    obtain ⟨rfl, rfl⟩ := List.cons.inj he
    split
    · next hn => cases hn.symm.trans h
    · next w' rest' hs =>
      obtain ⟨rfl, rfl⟩ := Prod.mk.inj (Option.some.inj (hs.symm.trans h))
      rfl

/-- The characters that words other than numbers start with, and space. -/
def marks : List Char := ['[', ']', '{', '}', ':', ',', 'n', 't', 'f', '"', ' ', '\t', '\n', '\r']

theorem not_mem_marks {c : Char} (h : c = '-' ∨ c.isDigit = true) : c ∉ marks := by
  intro hc
  have hmarks : (marks.all fun d => d != '-' && !d.isDigit) = true := by decide
  have hmark := List.all_eq_true.1 hmarks c hc
  rcases h with h | h <;> simp [h] at hmark

theorem afterWord_append (word rest : List Char) : afterWord word (word ++ rest) = some rest := by
  rw [afterWord, if_pos (List.isPrefixOf_iff_prefix.2 (List.prefix_append word rest)), List.drop_left]

/-- A word at the front is read, if it is not a number that goes on. -/
theorem lexemes_text {w : Lexeme} (hw : w.Valid) {rest : List Char} (hr : w.isSign = false → EndsNumber rest) :
    lexemes (w.text ++ rest) = (lexemes rest).map (w :: ·) := by
  cases w with
  | openArray | closeArray | openObject | closeObject | colon | comma => exact lexemes_cons (by decide) rfl
  | null =>
    have hsplit : "null".toList = 'n' :: "ull".toList := by decide
    rw [Lexeme.text, hsplit, List.cons_append]
    refine lexemes_cons (by decide) ?_
    simp only [lexeme, afterWord_append, Char.reduceEq, if_false, if_true, Option.map_some]
  | bool value =>
    have htrue : "true".toList = 't' :: "rue".toList := by decide
    have hfalse : "false".toList = 'f' :: "alse".toList := by decide
    cases value with
    | true =>
      rw [Lexeme.text, boolText, if_pos rfl, htrue, List.cons_append]
      refine lexemes_cons (by decide) ?_
      simp only [lexeme, afterWord_append, Char.reduceEq, if_false, if_true, Option.map_some]
    | false =>
      rw [Lexeme.text, boolText, if_neg Bool.false_ne_true, hfalse, List.cons_append]
      refine lexemes_cons (by decide) ?_
      simp only [lexeme, afterWord_append, Char.reduceEq, if_false, if_true, Option.map_some]
  | number literal =>
    have hread := numberPart_number hw (hr rfl)
    obtain ⟨c, cs, rfl, hc⟩ := IsNumber.exists_cons hw
    have hmarks := not_mem_marks hc
    simp only [marks, List.mem_cons, List.not_mem_nil, or_false, not_or] at hmarks
    rw [Lexeme.text, List.cons_append] at *
    refine lexemes_cons ?_ ?_
    · simp [isSpace, hmarks]
    · simp [lexeme, hmarks, hread]
  | string literal =>
    have hread := stringRest_literal hw rest
    refine lexemes_cons (by decide) ?_
    simp only [List.append_eq, List.append_assoc, List.singleton_append]
    simp [lexeme, hread]

/-- A text of some words, with any space before each of them and after the last. -/
inductive LaidOut : List Lexeme → List Char → Prop
  | done {space : List Char} (blank : space.all isSpace = true) : LaidOut [] space
  | word {space : List Char} {w : Lexeme} {ws : List Lexeme} {cs : List Char} (blank : space.all isSpace = true)
      (rest : LaidOut ws cs) : LaidOut (w :: ws) (space ++ (w.text ++ cs))

/-- A sign comes next, or nothing. -/
def SignNext (ws : List Lexeme) : Prop := ∀ w ∈ ws.head?, w.isSign = true

/-- Words that can be read: their literals are those of the grammar, and one of two words next to each other is a
sign, so that they do not run into one. -/
def Readable : List Lexeme → Prop
  | [] => True
  | w :: ws => w.Valid ∧ (w.isSign = false → SignNext ws) ∧ Readable ws

theorem LaidOut.endsNumber {ws : List Lexeme} {cs : List Char} (h : LaidOut ws cs) (hs : SignNext ws) :
    EndsNumber cs := by
  have hspace : ∀ {space rest : List Char}, space.all isSpace = true → EndsNumber rest →
      EndsNumber (space ++ rest) := by
    intro space rest hb hr
    cases space with
    | nil => exact hr
    | cons c space =>
      rw [List.all_cons, Bool.and_eq_true] at hb
      simp only [isSpace, Bool.or_eq_true, beq_iff_eq] at hb
      refine endsNumber_cons ?_ _
      obtain ⟨((rfl | rfl) | rfl) | rfl, -⟩ := hb <;> decide
  cases h with
  | done blank =>
    rw [← List.append_nil cs]
    exact hspace blank nofun
  | @word _ w _ _ blank rest =>
    refine hspace blank ?_
    have hsign := hs w rfl
    cases w with
    | openArray | closeArray | openObject | closeObject | colon | comma => exact endsNumber_cons (by decide) _
    | _ => cases hsign

/-- Words are read whatever space there is between them. -/
theorem lexemes_laidOut {ws : List Lexeme} {cs : List Char} (h : LaidOut ws cs) (ha : Readable ws) :
    lexemes cs = some ws := by
  induction h with
  | @done space blank =>
    rw [← List.append_nil space, lexemes_spaces blank, lexemes]
    rfl
  | word blank rest ih =>
    obtain ⟨hw, hnext, ha⟩ := ha
    rw [lexemes_spaces blank, lexemes_text hw fun hs => rest.endsNumber (hnext hs), ih ha]
    rfl

/-! ## The words of a value -/

mutual

/-- The literals in a value are well formed. -/
def WellFormed : Json → Prop
  | null => True
  | bool _ => True
  | number literal => IsNumber literal
  | string literal => IsLiteral literal
  | array items => AllWellFormed items
  | object fields => FieldsWellFormed fields

/-- The literals in some items are well formed. -/
def AllWellFormed : List Json → Prop
  | [] => True
  | v :: vs => v.WellFormed ∧ AllWellFormed vs

/-- The keys of some fields and the literals in them are well formed. -/
def FieldsWellFormed : List (List Char × Json) → Prop
  | [] => True
  | (key, v) :: fields => IsLiteral key ∧ v.WellFormed ∧ FieldsWellFormed fields

end

mutual

/-- The words that a value is written with. -/
def words : Json → List Lexeme
  | null => [.null]
  | bool value => [.bool value]
  | number literal => [.number literal]
  | string literal => [.string literal]
  | array items => .openArray :: (itemWords items ++ [.closeArray])
  | object fields => .openObject :: (fieldWords fields ++ [.closeObject])

/-- The words of some items, with commas between them. -/
def itemWords : List Json → List Lexeme
  | [] => []
  | [v] => words v
  | v :: vs => words v ++ .comma :: itemWords vs

/-- The words of some fields, with commas between them. -/
def fieldWords : List (List Char × Json) → List Lexeme
  | [] => []
  | [(key, v)] => .string key :: .colon :: words v
  | (key, v) :: fields => .string key :: .colon :: (words v ++ .comma :: fieldWords fields)

end

theorem Readable.sign {w : Lexeme} (hw : w.isSign = true) {ws : List Lexeme} (h : Readable ws) :
    Readable (w :: ws) := by
  refine ⟨?_, fun hs => absurd (hs.symm.trans hw) Bool.false_ne_true, h⟩
  cases w with
  | number | string => cases hw
  | _ => trivial

theorem signNext_cons {w : Lexeme} (hw : w.isSign = true) (ws : List Lexeme) : SignNext (w :: ws) := by
  intro w' h
  obtain rfl := Option.some.inj h
  exact hw

mutual

/-- A value is written with words that can be read, if a sign comes next or nothing. -/
theorem readable_words : ∀ v : Json, v.WellFormed → ∀ ws, SignNext ws → Readable ws → Readable (v.words ++ ws)
  | null, _, _, hs, hr => ⟨trivial, fun _ => hs, hr⟩
  | bool _, _, _, hs, hr => ⟨trivial, fun _ => hs, hr⟩
  | number _, h, _, hs, hr => by
    rw [WellFormed] at h
    exact ⟨h, fun _ => hs, hr⟩
  | string _, h, _, hs, hr => by
    rw [WellFormed] at h
    exact ⟨h, fun _ => hs, hr⟩
  | array vs, h, ws, _, hr => by
    rw [WellFormed] at h
    have hitems := readable_itemWords vs h (.closeArray :: ws) (signNext_cons rfl ws) (hr.sign rfl)
    rw [words, List.cons_append, List.append_assoc]
    exact hitems.sign rfl
  | object fields, h, ws, _, hr => by
    rw [WellFormed] at h
    have hfields := readable_fieldWords fields h (.closeObject :: ws) (signNext_cons rfl ws) (hr.sign rfl)
    rw [words, List.cons_append, List.append_assoc]
    exact hfields.sign rfl

theorem readable_itemWords : ∀ vs : List Json, AllWellFormed vs → ∀ ws, SignNext ws → Readable ws →
    Readable (itemWords vs ++ ws)
  | [], _, _, _, hr => hr
  | [v], h, ws, hs, hr => by
    rw [AllWellFormed] at h
    exact readable_words v h.1 ws hs hr
  | v :: w :: vs, h, ws, hs, hr => by
    rw [AllWellFormed] at h
    have hrest := readable_itemWords (w :: vs) h.2 ws hs hr
    rw [itemWords, List.append_assoc]
    · exact readable_words v h.1 _ (signNext_cons rfl _) (hrest.sign rfl)
    · exact nofun

theorem readable_fieldWords : ∀ fields : List (List Char × Json), FieldsWellFormed fields → ∀ ws, SignNext ws →
    Readable ws → Readable (fieldWords fields ++ ws)
  | [], _, _, _, hr => hr
  | [(key, v)], h, ws, hs, hr => by
    rw [FieldsWellFormed] at h
    exact ⟨h.1, fun _ => signNext_cons rfl _, (readable_words v h.2.1 ws hs hr).sign rfl⟩
  | (key, v) :: f :: fields, h, ws, hs, hr => by
    rw [FieldsWellFormed] at h
    have hrest := readable_fieldWords (f :: fields) h.2.2 ws hs hr
    have hv := readable_words v h.2.1 _ (signNext_cons rfl _) (hrest.sign (w := .comma) rfl)
    rw [fieldWords, List.cons_append, List.cons_append, List.append_assoc]
    · exact ⟨h.1, fun _ => signNext_cons rfl _, hv.sign rfl⟩
    · exact nofun

end

/-! ## Layouts of a value -/

section LaidOut
variable {ws : List Lexeme} {cs : List Char}

theorem LaidOut.cons (w : Lexeme) (h : LaidOut ws cs) : LaidOut (w :: ws) (w.text ++ cs) :=
  @LaidOut.word [] w ws cs rfl h

theorem LaidOut.space {space : List Char} (blank : space.all isSpace = true) (h : LaidOut ws cs) :
    LaidOut ws (space ++ cs) := by
  cases h with
  | done blank' => exact .done (by rw [List.all_append, blank, blank']; rfl)
  | word blank' rest =>
    rw [← List.append_assoc]
    exact .word (by rw [List.all_append, blank, blank']; rfl) rest

end LaidOut

theorem blank_newLine (depth : Nat) : (newLine depth).all isSpace = true := by
  simp [newLine, isSpace]

mutual

/-- A value on one line is a layout of it. -/
theorem laidOut_compact : ∀ (v : Json) {ws : List Lexeme} {cs : List Char}, LaidOut ws cs →
    LaidOut (v.words ++ ws) (compact v ++ cs)
  | null, _, _, h => h.cons .null
  | bool value, _, _, h => h.cons (.bool value)
  | number literal, _, _, h => h.cons (.number literal)
  | string literal, _, _, h => h.cons (.string literal)
  | array vs, _, _, h => by
    have hitems := (laidOut_compactItems vs (h.cons .closeArray)).cons .openArray
    simpa [words, compact, Lexeme.text] using hitems
  | object fields, _, _, h => by
    have hfields := (laidOut_compactFields fields (h.cons .closeObject)).cons .openObject
    simpa [words, compact, Lexeme.text] using hfields

theorem laidOut_compactItems : ∀ (vs : List Json) {ws : List Lexeme} {cs : List Char}, LaidOut ws cs →
    LaidOut (itemWords vs ++ ws) (compactItems vs ++ cs)
  | [], _, _, h => h
  | [v], _, _, h => laidOut_compact v h
  | v :: w :: vs, _, _, h => by
    have hrest := (laidOut_compactItems (w :: vs) h).cons .comma
    simpa [itemWords, compactItems, Lexeme.text] using laidOut_compact v hrest

theorem laidOut_compactFields : ∀ (fields : List (List Char × Json)) {ws : List Lexeme} {cs : List Char},
    LaidOut ws cs → LaidOut (fieldWords fields ++ ws) (compactFields fields ++ cs)
  | [], _, _, h => h
  | [(key, v)], _, _, h => by
    have hfield := ((laidOut_compact v h).cons .colon).cons (.string key)
    simpa [fieldWords, compactFields, Lexeme.text] using hfield
  | (key, v) :: f :: fields, _, _, h => by
    have hrest := (laidOut_compactFields (f :: fields) h).cons .comma
    have hfield := ((laidOut_compact v hrest).cons .colon).cons (.string key)
    simpa [fieldWords, compactFields, Lexeme.text] using hfield

end

mutual

/-- A value with its items and fields on lines of their own is a layout of it. -/
theorem laidOut_pretty (depth : Nat) : ∀ (v : Json) {ws : List Lexeme} {cs : List Char}, LaidOut ws cs →
    LaidOut (v.words ++ ws) (pretty depth v ++ cs)
  | null, _, _, h => h.cons .null
  | bool value, _, _, h => h.cons (.bool value)
  | number literal, _, _, h => h.cons (.number literal)
  | string literal, _, _, h => h.cons (.string literal)
  | array [], _, _, h => (h.cons .closeArray).cons .openArray
  | array (v :: vs), _, _, h => by
    have hclose := (h.cons .closeArray).space (blank_newLine depth)
    have hitems := (laidOut_prettyItems (depth + 1) (v :: vs) hclose).cons .openArray
    simpa [words, pretty, Lexeme.text] using hitems
  | object [], _, _, h => (h.cons .closeObject).cons .openObject
  | object (f :: fields), _, _, h => by
    have hclose := (h.cons .closeObject).space (blank_newLine depth)
    have hfields := (laidOut_prettyFields (depth + 1) (f :: fields) hclose).cons .openObject
    simpa [words, pretty, Lexeme.text] using hfields

theorem laidOut_prettyItems (depth : Nat) : ∀ (vs : List Json) {ws : List Lexeme} {cs : List Char}, LaidOut ws cs →
    LaidOut (itemWords vs ++ ws) (prettyItems depth vs ++ cs)
  | [], _, _, h => h
  | [v], _, _, h => by
    have hitem := (laidOut_pretty depth v h).space (blank_newLine depth)
    simpa [itemWords, prettyItems] using hitem
  | v :: w :: vs, _, _, h => by
    have hrest := (laidOut_prettyItems depth (w :: vs) h).cons .comma
    have hitem := (laidOut_pretty depth v hrest).space (blank_newLine depth)
    simpa [itemWords, prettyItems, Lexeme.text] using hitem

theorem laidOut_prettyFields (depth : Nat) : ∀ (fields : List (List Char × Json)) {ws : List Lexeme} {cs : List Char},
    LaidOut ws cs → LaidOut (fieldWords fields ++ ws) (prettyFields depth fields ++ cs)
  | [], _, _, h => h
  | [(key, v)], _, _, h => by
    have hvalue := (laidOut_pretty depth v h).space (show [' '].all isSpace = true by decide)
    have hfield := ((hvalue.cons .colon).cons (.string key)).space (blank_newLine depth)
    simpa [fieldWords, prettyFields, Lexeme.text] using hfield
  | (key, v) :: f :: fields, _, _, h => by
    have hrest := (laidOut_prettyFields depth (f :: fields) h).cons .comma
    have hvalue := (laidOut_pretty depth v hrest).space (show [' '].all isSpace = true by decide)
    have hfield := ((hvalue.cons .colon).cons (.string key)).space (blank_newLine depth)
    simpa [fieldWords, prettyFields, Lexeme.text] using hfield

end

theorem laidOut_compact_self (v : Json) : LaidOut v.words v.compact := by
  have hl := laidOut_compact v (.done (show [].all isSpace = true by rfl))
  rwa [List.append_nil, List.append_nil] at hl

theorem laidOut_pretty_self (v : Json) : LaidOut v.words (v.pretty 0) := by
  have hl := laidOut_pretty 0 v (.done (show [].all isSpace = true by rfl))
  rwa [List.append_nil, List.append_nil] at hl

/-! ## The value of words -/

/-- What a value starts with, which is not the end of a list. -/
theorem words_eq_cons (v : Json) : ∃ w ws, v.words = w :: ws ∧ w ≠ .closeArray := by
  cases v <;> exact ⟨_, _, rfl, nofun⟩

theorem itemWords_ne (v : Json) (vs : List Json) (rest ws : List Lexeme) :
    itemWords (v :: vs) ++ rest ≠ .closeArray :: ws := by
  obtain ⟨w, ws', hw, hne⟩ := words_eq_cons v
  cases vs <;> simp [itemWords, hw, hne]

mutual

/-- The value of its words, whatever comes after them. -/
theorem value_words : ∀ (v : Json) (fuel : Nat), 2 * v.words.length ≤ fuel + 1 → ∀ rest,
    value fuel (v.words ++ rest) = some (v, rest)
  | v, 0, h, _ => by
    obtain ⟨w, ws, hw, -⟩ := words_eq_cons v
    rw [hw, List.length_cons] at h
    omega
  | null, _ + 1, _, _ => rfl
  | bool _, _ + 1, _, _ => rfl
  | number _, _ + 1, _, _ => rfl
  | string _, _ + 1, _, _ => rfl
  | array [], _ + 1, _, _ => rfl
  | array (v :: vs), fuel + 1, h, rest => by
    have hlen : 2 * (itemWords (v :: vs)).length ≤ fuel := by
      simp only [words, List.length_cons, List.length_append, List.length_nil] at h
      omega
    rw [words, List.cons_append, List.append_assoc, value, List.singleton_append,
      items_words v vs fuel hlen rest]
    · rfl
    · exact fun ws => itemWords_ne v vs _ ws
  | object [], _ + 1, _, _ => rfl
  | object (f :: fs), fuel + 1, h, rest => by
    have hlen : 2 * (fieldWords (f :: fs)).length ≤ fuel := by
      simp only [words, List.length_cons, List.length_append, List.length_nil] at h
      omega
    rw [words, List.cons_append, List.append_assoc, value, List.singleton_append,
      fields_words f fs fuel hlen rest]
    · rfl
    · intro ws
      obtain ⟨key, v⟩ := f
      cases fs <;> simp [fieldWords]

theorem items_words : ∀ (v : Json) (vs : List Json) (fuel : Nat), 2 * (itemWords (v :: vs)).length ≤ fuel →
    ∀ rest, items fuel (itemWords (v :: vs) ++ .closeArray :: rest) = some (v :: vs, rest)
  | v, vs, 0, h, _ => by
    obtain ⟨w, ws, hw, -⟩ := words_eq_cons v
    cases vs <;> simp [itemWords, hw] at h
  | v, [], fuel + 1, h, rest => by
    rw [itemWords] at h ⊢
    rw [items, value_words v fuel (by omega)]
  | v, w :: vs, fuel + 1, h, rest => by
    simp only [itemWords, List.length_append, List.length_cons] at h ⊢
    rw [List.append_assoc, List.cons_append, items, value_words v fuel (by omega)]
    dsimp only
    rw [items_words w vs fuel (by omega)]
    rfl

theorem fields_words : ∀ (f : List Char × Json) (fs : List (List Char × Json)) (fuel : Nat),
    2 * (fieldWords (f :: fs)).length ≤ fuel →
    ∀ rest, fields fuel (fieldWords (f :: fs) ++ .closeObject :: rest) = some (f :: fs, rest)
  | (key, v), fs, 0, h, _ => by cases fs <;> simp [fieldWords] at h
  | (key, v), [], fuel + 1, h, rest => by
    simp only [fieldWords, List.length_cons] at h ⊢
    rw [List.cons_append, List.cons_append, fields, value_words v fuel (by omega)]
  | (key, v), f :: fs, fuel + 1, h, rest => by
    simp only [fieldWords, List.length_append, List.length_cons] at h ⊢
    rw [List.cons_append, List.cons_append, List.append_assoc, List.cons_append, fields, value_words v fuel (by omega)]
    dsimp only
    rw [fields_words f fs fuel (by omega)]
    rfl

end

/-- A value is read back from each of its layouts. -/
theorem read?_laidOut {v : Json} (h : v.WellFormed) {cs : List Char} (hl : LaidOut v.words cs) : read? cs = some v := by
  have hreadable := readable_words v h [] nofun trivial
  rw [List.append_nil] at hreadable
  have hvalue := value_words v (2 * v.words.length + 1) (by omega) []
  rw [List.append_nil] at hvalue
  rw [read?, lexemes_laidOut hl hreadable]
  dsimp only
  rw [hvalue]

theorem read?_pretty {v : Json} (h : v.WellFormed) : read? (v.pretty 0) = some v :=
  read?_laidOut h (laidOut_pretty_self v)

/-! ## Objects -/

/-- The fields of an object under the names that their keys stand for. -/
def Named (fields : List (List Char × Json)) (named : List (String × Json)) : Prop :=
  List.Forall₂ (fun field value => Spells field.1 value.1.toList ∧ field.2 = value.2) fields named

theorem Named.mapM_unescape {fields : List (List Char × Json)} {named : List (String × Json)} (h : Named fields named) :
    fields.mapM (fun (key, v) => (unescape key).map fun key => (String.ofList key, v)) = some named := by
  induction h with
  | nil => rfl
  | @cons field value fields named hfirst _ ih =>
    obtain ⟨key, v⟩ := field
    obtain ⟨name, w⟩ := value
    obtain ⟨hkey, rfl⟩ : Spells key name.toList ∧ v = w := hfirst
    rw [List.mapM_cons, ih]
    dsimp only
    rw [hkey.unescape, Option.map_some, String.ofList_toList]
    rfl

theorem Named.values {fields : List (List Char × Json)} {named : List (String × Json)} (h : Named fields named) :
    fields.map Prod.snd = named.map Prod.snd := by
  induction h with
  | nil => rfl
  | cons hfirst _ ih => rw [List.map_cons, List.map_cons, hfirst.2, ih]

theorem wellFormed_object {fields : List (List Char × Json)} :
    (object fields).WellFormed ↔ ∀ field ∈ fields, IsLiteral field.1 ∧ field.2.WellFormed := by
  rw [WellFormed]
  induction fields with
  | nil => exact ⟨fun _ => nofun, fun _ => by rw [FieldsWellFormed]; trivial⟩
  | cons field fields ih => rw [FieldsWellFormed, ih, List.forall_mem_cons, and_assoc]

/-- The values of a well-formed object are well formed. -/
theorem Named.wellFormed {fields : List (List Char × Json)} {named : List (String × Json)} (h : Named fields named)
    (hw : (object fields).WellFormed) : ∀ field ∈ named, field.2.WellFormed := by
  intro field hm
  have hvalue : field.2 ∈ fields.map Prod.snd := h.values ▸ List.mem_map_of_mem hm
  obtain ⟨found, hf, hv⟩ := List.mem_map.1 hvalue
  exact hv ▸ (wellFormed_object.1 hw found hf).2

/-- Fields under their names, with the keys as they are printed. -/
def keyed (named : List (String × Json)) : List (List Char × Json) := named.map fun (name, v) => (escape name.toList, v)

theorem named_keyed (named : List (String × Json)) : Named (keyed named) named := by
  induction named with
  | nil => exact .nil
  | cons field named ih => exact .cons ⟨spells_escape _, rfl⟩ ih

theorem wellFormed_keyed {named : List (String × Json)} (h : ∀ field ∈ named, field.2.WellFormed) :
    (object (keyed named)).WellFormed := by
  refine wellFormed_object.2 fun field hf => ?_
  obtain ⟨found, hm, rfl⟩ := List.mem_map.1 hf
  exact ⟨isLiteral_escape _, h found hm⟩

/-- The fields of a record are those with its names, none of which may come twice. -/
theorem record?_object {fields : List (List Char × Json)} {named : List (String × Json)} (h : Named fields named)
    (names : List String) :
    (object fields).record? names =
      if ∀ name ∈ names, (named.filter (·.1 == name)).length ≤ 1 then
        some (names.map fun name => List.lookup name named)
      else none := by
  rw [record?, h.mapM_unescape]
  simp only [Option.bind_eq_bind, Option.bind_some, List.all_eq_true, decide_eq_true_eq]

end ShaderBuild.Json
