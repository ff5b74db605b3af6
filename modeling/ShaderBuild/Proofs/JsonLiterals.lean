import ShaderBuild.Json.Read
import ShaderBuild.Proofs.Grammar
/-!
# The literals of JSON

What string and number literals look like (`IsLiteral`, `IsNumber`), and which literals stand for a text (`Spells`).
Literals are read to their end and no further (`stringRest_literal`, `numberPart_number`). The text that a literal
stands for is found (`Spells.unescape`), and no other one (`spells_of_unescape`).
-/

namespace ShaderBuild.Json

open Text

/-! ## String literals -/

/-- A character that needs no escape. -/
structure IsPlain (c : Char) : Prop where
  quote : c ≠ '"'
  backslash : c ≠ '\\'
  control : ¬ c.toNat < 0x20

/-- Part of a string literal: a character that needs no escape, a letter after a backslash, or four hexadecimal
digits after a backslash and a `u`, whether there is a character of this number or not. -/
inductive Part : List Char → Prop
  | plain {c : Char} (h : IsPlain c) : Part [c]
  | short {d : Char} (letter : (shortEscape? d).isSome = true) : Part ['\\', d]
  | digits {p q r s : Char} (number : (hexFour? p q r s).isSome = true) : Part ['\\', 'u', p, q, r, s]

/-- What may stand between the quotes of a string. -/
inductive IsLiteral : List Char → Prop
  | nil : IsLiteral []
  | part {part literal : List Char} (first : Part part) (rest : IsLiteral literal) : IsLiteral (part ++ literal)

/-- A character is written as itself, as a letter after a backslash, by its number or as a surrogate pair. -/
inductive Escaped (c : Char) : List Char → Prop
  | plain (h : IsPlain c) : Escaped c [c]
  | short {d : Char} (stands : shortEscape? d = some c) : Escaped c ['\\', d]
  | number {p q r s : Char} (stands : hexFour? p q r s = some c.toNat) : Escaped c ['\\', 'u', p, q, r, s]
  | pair {p q r s p' q' r' s' : Char} {lead trail : Nat} (first : hexFour? p q r s = some lead)
      (second : hexFour? p' q' r' s' = some trail) (halves : isLead lead = true ∧ isTrail trail = true)
      (stands : pairChar lead trail = c) : Escaped c ['\\', 'u', p, q, r, s, '\\', 'u', p', q', r', s']

/-- A literal that stands for a text. -/
inductive Spells : List Char → List Char → Prop
  | nil : Spells [] []
  | char {c : Char} {part literal text : List Char} (first : Escaped c part) (rest : Spells literal text) :
      Spells (part ++ literal) (c :: text)

/-! ### Escapes -/

theorem shortEscape?_u : shortEscape? 'u' = none := by decide

theorem hexDigit?_digitChar {n : Nat} (h : n < 16) : hexDigit? (Nat.digitChar n) = some n :=
  (by decide : ∀ n < 16, hexDigit? (Nat.digitChar n) = some n) n h

theorem hexDigit?_eq_some {c : Char} {n : Nat} (h : hexDigit? c = some n) : n < 16 ∧ 0x30 ≤ c.toNat := by
  have hrange : ∀ (low high : Char) (first : Nat), high.toNat - low.toNat + first < 16 → 0x30 ≤ low.toNat →
      low ≤ c ∧ c ≤ high → some (c.toNat - low.toNat + first) = some n → n < 16 ∧ 0x30 ≤ c.toNat := by
    intro low high first hmax hmin hc hn
    have hlow : low.toNat ≤ c.toNat := UInt32.le_iff_toNat_le.1 (Char.le_def.1 hc.1)
    have hhigh : c.toNat ≤ high.toNat := UInt32.le_iff_toNat_le.1 (Char.le_def.1 hc.2)
    obtain rfl := Option.some.inj hn
    omega
  rw [hexDigit?] at h
  split at h
  · next hc => exact hrange '0' '9' 0 (by decide) (by decide) hc h
  · split at h
    · next hc => exact hrange 'a' 'f' 10 (by decide) (by decide) hc h
    · split at h
      · next hc => exact hrange 'A' 'F' 10 (by decide) (by decide) hc h
      · cases h

/-- Hexadecimal digits need no escape. -/
theorem isPlain_of_hexDigit? {c : Char} {n : Nat} (h : hexDigit? c = some n) : IsPlain c := by
  have hlarge := (hexDigit?_eq_some h).2
  refine ⟨?_, ?_, by omega⟩ <;>
  · rintro rfl
    cases h

theorem hexFour?_eq_some {p q r s : Char} {n : Nat} (h : hexFour? p q r s = some n) :
    ∃ a b c d, hexDigit? p = some a ∧ hexDigit? q = some b ∧ hexDigit? r = some c ∧ hexDigit? s = some d ∧
      n = a * 4096 + b * 256 + c * 16 + d := by
  simp only [hexFour?, Option.bind_eq_bind, Option.bind_eq_some_iff, Option.pure_def, Option.some.injEq] at h
  obtain ⟨a, ha, b, hb, c, hc, d, hd, rfl⟩ := h
  exact ⟨a, b, c, d, ha, hb, hc, hd, rfl⟩

theorem hexFour?_control {n : Nat} (h : n < 0x20) :
    hexFour? '0' '0' (Nat.digitChar (n / 16)) (Nat.digitChar (n % 16)) = some n := by
  have hzero : hexDigit? '0' = some 0 := rfl
  have h1 := @hexDigit?_digitChar (n / 16) (by omega)
  have h2 := @hexDigit?_digitChar (n % 16) (by omega)
  simp only [hexFour?, hzero, h1, h2, Option.bind_eq_bind, Option.bind_some, Option.pure_def, Option.some.injEq]
  omega

theorem isValidChar_of_hexFour? {p q r s : Char} {n : Nat} (h : hexFour? p q r s = some n) (hlead : isLead n = false)
    (htrail : isTrail n = false) : n.isValidChar := by
  obtain ⟨a, b, c, d, ha, hb, hc, hd, rfl⟩ := hexFour?_eq_some h
  have h1 := (hexDigit?_eq_some ha).1
  have h2 := (hexDigit?_eq_some hb).1
  have h3 := (hexDigit?_eq_some hc).1
  have h4 := (hexDigit?_eq_some hd).1
  simp only [isLead, isTrail, Bool.and_eq_false_iff, decide_eq_false_iff_not, Nat.not_le] at hlead htrail
  rw [Nat.isValidChar]
  omega

/-- The number of a character is not that of half a surrogate pair. -/
theorem not_surrogate (c : Char) : isLead c.toNat = false ∧ isTrail c.toNat = false := by
  have hvalid : c.toNat < 0xD800 ∨ 0xDFFF < c.toNat := c.valid.imp_right And.left
  simp only [isLead, isTrail, Bool.and_eq_false_iff, decide_eq_false_iff_not, Nat.not_le]
  omega

theorem not_trail_of_lead {n : Nat} (h : isLead n = true) : isTrail n = false := by
  simp only [isLead, isTrail, Bool.and_eq_true, decide_eq_true_eq, Bool.and_eq_false_iff,
    decide_eq_false_iff_not] at h ⊢
  omega

theorem escaped_escapeChar (c : Char) : Escaped c (escapeChar c) := by
  unfold escapeChar
  split
  · next h => exact .short (by rw [h]; rfl)
  · split
    · next h => exact .short (by rw [h]; rfl)
    · repeat' split
      all_goals first
        | next h => exact .short (by rw [h]; rfl)
        | exact .number (hexFour?_control ‹_›)
        | exact .plain ⟨‹_›, ‹_›, ‹_›⟩

/-! ### The text of a literal -/

theorem unescape_escaped {c : Char} {part : List Char} (h : Escaped c part) (rest : List Char) :
    unescape (part ++ rest) = (unescape rest).map (c :: ·) := by
  cases h with
  | plain h =>
    rw [List.singleton_append, unescape, if_neg h.backslash]
    · exact fun _ _ _ _ _ hc => absurd hc h.backslash
    · exact fun _ _ hc => absurd hc h.backslash
  | @short d stands =>
    rw [List.cons_append, List.singleton_append, unescape, stands]
    rintro _ _ _ _ _ rfl
    cases shortEscape?_u.symm.trans stands
  | number stands =>
    obtain ⟨hlead, htrail⟩ := not_surrogate c
    simp only [List.cons_append, List.nil_append, unescape, stands, htrail, hlead, Bool.false_eq_true, if_false,
      Char.ofNat_toNat]
  | @pair _ _ _ _ _ _ _ _ lead trail first second halves stands =>
    have hlead := not_trail_of_lead halves.1
    simp only [List.cons_append, List.nil_append, unescape, first, second, halves, hlead, Bool.false_eq_true, if_false,
      if_true, stands]

theorem Spells.unescape {literal text : List Char} (h : Spells literal text) : unescape literal = some text := by
  induction h with
  | nil => rfl
  | char first _ ih => rw [unescape_escaped first, ih, Option.map_some]

theorem spells_escape (cs : List Char) : Spells (escape cs) cs := by
  induction cs with
  | nil => exact .nil
  | cons c cs ih => exact .char (escaped_escapeChar c) ih

/-- An escaped text stands for itself. -/
theorem unescape_escape (cs : List Char) : Json.unescape (escape cs) = some cs := (spells_escape cs).unescape

theorem Spells.isLiteral {literal text : List Char} (h : Spells literal text) : IsLiteral literal := by
  induction h with
  | nil => exact .nil
  | char first _ ih =>
    cases first with
    | plain h => exact .part (.plain h) ih
    | short stands => exact .part (.short (by rw [stands]; rfl)) ih
    | number stands => exact .part (.digits (by rw [stands]; rfl)) ih
    | pair first second =>
      have hback := IsLiteral.part (.digits (by rw [second]; rfl)) ih
      have hboth := IsLiteral.part (.digits (by rw [first]; rfl)) hback
      exact hboth

theorem isLiteral_escape (cs : List Char) : IsLiteral (escape cs) := (spells_escape cs).isLiteral

/-- Four digits at the front of a literal are a part of it. -/
theorem IsLiteral.of_digits {p q r s : Char} {rest : List Char}
    (h : IsLiteral ('\\' :: 'u' :: p :: q :: r :: s :: rest)) : IsLiteral rest := by
  generalize hall : '\\' :: 'u' :: p :: q :: r :: s :: rest = all at h
  cases h with
  | nil => cases hall
  | part first hrest =>
    cases first with
    | plain h => exact absurd (List.cons.inj hall).1.symm h.backslash
    | short letter =>
      rw [List.cons_append, List.cons_append, List.cons.injEq, List.cons.injEq] at hall
      rw [← hall.2.1, shortEscape?_u] at letter
      cases letter
    | digits =>
      simp only [List.cons_append, List.nil_append, List.cons.injEq] at hall
      obtain ⟨-, -, -, -, -, -, rfl⟩ := hall
      exact hrest

/-- After the first half of a surrogate pair comes the second one, if there is a text at all. -/
theorem unescape_lead {p q r s : Char} {n : Nat} (hn : hexFour? p q r s = some n) (hlead : isLead n = true)
    {rest text : List Char} (hu : unescape ('\\' :: 'u' :: p :: q :: r :: s :: rest) = some text) :
    ∃ p' q' r' s' m after text', rest = '\\' :: 'u' :: p' :: q' :: r' :: s' :: after ∧
      hexFour? p' q' r' s' = some m ∧ isTrail m = true ∧ unescape after = some text' ∧
      text = pairChar n m :: text' := by
  rw [unescape, hn] at hu
  dsimp only at hu
  rw [not_trail_of_lead hlead, hlead, if_neg Bool.false_ne_true, if_pos rfl] at hu
  split at hu
  · next p' q' r' s' after =>
    split at hu
    · cases hu
    · next m hm =>
      split at hu
      · next htrail =>
        obtain ⟨text', hafter, rfl⟩ := Option.map_eq_some_iff.1 hu
        exact ⟨p', q', r', s', m, after, text', rfl, hm, htrail, hafter, rfl⟩
      · cases hu
  · cases hu

/-- A literal with a text stands for it. -/
theorem spells_of_unescape {literal text : List Char} (h : IsLiteral literal) (hu : Json.unescape literal = some text) :
    Spells literal text := by
  -- By induction on the length, and not on the parts, as a surrogate pair takes two parts at once.
  induction hl : literal.length using Nat.strongRecOn generalizing literal text with
  | ind n ih =>
    subst hl
    cases h with
    | nil =>
      obtain rfl := Option.some.inj hu
      exact .nil
    | @part part rest first hrest =>
      have hchar : ∀ c, Escaped c part → 0 < part.length → Spells (part ++ rest) text := by
        intro c hc hpos
        rw [unescape_escaped hc] at hu
        obtain ⟨text', hu', rfl⟩ := Option.map_eq_some_iff.1 hu
        exact .char hc (ih _ (by rw [List.length_append]; omega) hrest hu' rfl)
      cases first with
      | plain h => exact hchar _ (.plain h) Nat.one_pos
      | short letter =>
        obtain ⟨c, hc⟩ := Option.isSome_iff_exists.1 letter
        exact hchar _ (.short hc) (by simp)
      | @digits p q r s number =>
        obtain ⟨n, hn⟩ := Option.isSome_iff_exists.1 number
        cases hlead : isLead n with
        | true =>
          obtain ⟨p', q', r', s', m, after, text', rfl, hm, htrail, hafter, rfl⟩ := unescape_lead hn hlead hu
          have hspelled := ih after.length (by simp; omega) hrest.of_digits hafter rfl
          have hall := Spells.char (.pair hn hm ⟨hlead, htrail⟩ rfl) hspelled
          exact hall
        | false =>
          cases htrail : isTrail n with
          | true => simp [Json.unescape, hn, htrail] at hu
          | false =>
            refine hchar (Char.ofNat n) (.number ?_) (by simp)
            have hvalid := isValidChar_of_hexFour? hn hlead htrail
            rw [hn, Char.ofNat, dif_pos hvalid]
            rfl

/-! ### The end of a literal -/

theorem stringRest_plain {c : Char} (h : IsPlain c) (rest : List Char) :
    stringRest (c :: rest) = (stringRest rest).map fun (literal, after) => (c :: literal, after) := by
  rw [stringRest, if_neg h.control]
  · exact h.quote
  · exact fun _ _ hc => absurd hc h.backslash

theorem stringRest_part {part : List Char} (h : Part part) (rest : List Char) :
    stringRest (part ++ rest) = (stringRest rest).map fun (literal, after) => (part ++ literal, after) := by
  cases h with
  | plain h => exact stringRest_plain h rest
  | short letter =>
    rw [List.cons_append, List.singleton_append, stringRest, if_pos (.inr letter)]
    rfl
  | @digits p q r s number =>
    obtain ⟨n, hn⟩ := Option.isSome_iff_exists.1 number
    obtain ⟨a, b, c, d, ha, hb, hc, hd, -⟩ := hexFour?_eq_some hn
    have hform : ('u' = 'u' ∧ ((p :: q :: r :: s :: rest).take 4).length = 4 ∧
        ((p :: q :: r :: s :: rest).take 4).all (hexDigit? · |>.isSome) = true) ∨ (shortEscape? 'u').isSome = true := by
      refine .inl ⟨rfl, rfl, ?_⟩
      simp [ha, hb, hc, hd]
    simp only [List.cons_append, List.nil_append]
    rw [stringRest, if_pos hform, stringRest_plain (isPlain_of_hexDigit? ha), stringRest_plain (isPlain_of_hexDigit? hb),
      stringRest_plain (isPlain_of_hexDigit? hc), stringRest_plain (isPlain_of_hexDigit? hd)]
    simp only [Option.map_map]
    rfl

/-- Reading a literal goes on to the quote after it. -/
theorem stringRest_literal {literal : List Char} (h : IsLiteral literal) (rest : List Char) :
    stringRest (literal ++ '"' :: rest) = some (literal, rest) := by
  induction h with
  | nil => rfl
  | part first _ ih =>
    rw [List.append_assoc, stringRest_part first, ih]
    rfl

/-! ## Number literals -/

/-- One or more digits. -/
structure Digits (ds : List Char) : Prop where
  nonempty : ds ≠ []
  all : ds.all Char.isDigit = true

/-- The digits before the point, of which the first is not a zero unless it is the only one. -/
inductive Whole : List Char → Prop
  | zero : Whole ['0']
  | digits {ds : List Char} (all : Digits ds) (start : ds.head? ≠ some '0') : Whole ds

/-- The point and the digits after it, or nothing. -/
inductive Fraction : List Char → Prop
  | none : Fraction []
  | point {ds : List Char} (all : Digits ds) : Fraction ('.' :: ds)

/-- An exponent, or nothing. -/
inductive Exponent : List Char → Prop
  | none : Exponent []
  | power {e : Char} {sign ds : List Char} (letter : e = 'e' ∨ e = 'E')
      (signed : sign = [] ∨ sign = ['+'] ∨ sign = ['-']) (all : Digits ds) : Exponent (e :: (sign ++ ds))

/-- A number without its sign. -/
inductive Magnitude : List Char → Prop
  | parts {whole fraction exponent : List Char} (hw : Whole whole) (hf : Fraction fraction) (he : Exponent exponent) :
      Magnitude (whole ++ (fraction ++ exponent))

/-- A number as it is written. -/
inductive IsNumber : List Char → Prop
  | plain {literal : List Char} (h : Magnitude literal) : IsNumber literal
  | minus {literal : List Char} (h : Magnitude literal) : IsNumber ('-' :: literal)

/-- Nothing here makes a number longer. -/
def EndsNumber (rest : List Char) : Prop := ∀ c ∈ rest.head?, c.isDigit = false ∧ c ≠ '.' ∧ c ≠ 'e' ∧ c ≠ 'E'

theorem endsNumber_cons {c : Char} (h : c.isDigit = false ∧ c ≠ '.' ∧ c ≠ 'e' ∧ c ≠ 'E') (cs : List Char) :
    EndsNumber (c :: cs) := by
  intro d hd
  obtain rfl := Option.some.inj hd
  exact h

theorem Digits.exists_cons {ds : List Char} (h : Digits ds) : ∃ d rest, ds = d :: rest ∧ d.isDigit = true := by
  obtain ⟨d, rest, rfl⟩ := List.exists_cons_of_ne_nil h.nonempty
  exact ⟨d, rest, rfl, Token.isDigit_of_all h.all⟩

theorem someDigits_digits {ds cs : List Char} (h : Digits ds) (hc : ∀ c ∈ cs.head?, c.isDigit = false) :
    someDigits (ds ++ cs) = some (ds, cs) := by
  obtain ⟨htake, hdrop⟩ := Token.takeWhile_append_of_head h.all hc
  rw [someDigits, htake, hdrop, if_neg h.nonempty]

theorem wholePart_whole {whole cs : List Char} (h : Whole whole) (hc : ∀ c ∈ cs.head?, c.isDigit = false) :
    wholePart (whole ++ cs) = some (whole, cs) := by
  cases h with
  | zero => rfl
  | digits all start =>
    obtain ⟨d, ds, rfl, -⟩ := all.exists_cons
    rw [← someDigits_digits all hc, List.cons_append, wholePart]
    intro _ he
    exact start (congrArg some (List.cons.inj he).1)

theorem fractionPart_fraction {fraction cs : List Char} (h : Fraction fraction)
    (hc : ∀ c ∈ cs.head?, c.isDigit = false ∧ c ≠ '.') : fractionPart (fraction ++ cs) = some (fraction, cs) := by
  cases h with
  | none =>
    cases cs with
    | nil => rfl
    | cons c cs =>
      rw [List.nil_append, fractionPart]
      exact fun _ he => (hc c rfl).2 (List.cons.inj he).1
  | point all =>
    rw [List.cons_append, fractionPart, someDigits_digits all fun c h => (hc c h).1]
    rfl

theorem exponentPart_exponent {exponent rest : List Char} (h : Exponent exponent) (hr : EndsNumber rest) :
    exponentPart (exponent ++ rest) = some (exponent, rest) := by
  cases h with
  | none =>
    cases rest with
    | nil => rfl
    | cons c rest =>
      obtain ⟨-, -, h1, h2⟩ := hr c rfl
      rw [List.nil_append, exponentPart, if_neg (by simp [h1, h2])]
  | @power e sign ds letter signed all =>
    have hsign : exponentSign (sign ++ (ds ++ rest)) = (sign, ds ++ rest) := by
      rcases signed with rfl | rfl | rfl
      · obtain ⟨d, ds, rfl, hd⟩ := all.exists_cons
        rw [List.nil_append, List.cons_append, exponentSign]
        · rintro _ he
          rw [(List.cons.inj he).1] at hd
          cases hd
        · rintro _ he
          rw [(List.cons.inj he).1] at hd
          cases hd
      · rfl
      · rfl
    rw [List.cons_append, exponentPart, if_pos letter, List.append_assoc, hsign]
    dsimp only
    rw [someDigits_digits all fun c h => (hr c h).1]
    rfl

/-- A number starts with a digit. -/
theorem Magnitude.exists_cons {literal : List Char} (h : Magnitude literal) :
    ∃ d rest, literal = d :: rest ∧ d.isDigit = true := by
  obtain ⟨hw, hf, he⟩ := h
  cases hw with
  | zero => exact ⟨'0', _, rfl, rfl⟩
  | digits all =>
    obtain ⟨d, ds, rfl, hd⟩ := all.exists_cons
    exact ⟨d, _, rfl, hd⟩

theorem magnitude_parts {literal rest : List Char} (h : Magnitude literal) (hr : EndsNumber rest) :
    magnitude (literal ++ rest) = some (literal, rest) := by
  obtain ⟨hw, hf, he⟩ := h
  rename_i whole fraction exponent
  -- What comes after a part of the number is not more of it.
  have hexponent : ∀ c ∈ (exponent ++ rest).head?, c.isDigit = false ∧ c ≠ '.' := by
    cases he with
    | none => exact fun c hc => ⟨(hr c hc).1, (hr c hc).2.1⟩
    | power letter =>
      intro c hc
      obtain rfl := Option.some.inj hc
      rcases letter with rfl | rfl <;> decide
  have hfraction : ∀ c ∈ (fraction ++ (exponent ++ rest)).head?, c.isDigit = false := by
    cases hf with
    | none => exact fun c hc => (hexponent c hc).1
    | point =>
      intro c hc
      obtain rfl := Option.some.inj hc
      decide
  rw [List.append_assoc, List.append_assoc, magnitude, wholePart_whole hw hfraction]
  simp [fractionPart_fraction hf hexponent, exponentPart_exponent he hr]

/-- Reading a number goes on to its end. -/
theorem numberPart_number {literal rest : List Char} (h : IsNumber literal) (hr : EndsNumber rest) :
    numberPart (literal ++ rest) = some (literal, rest) := by
  cases h with
  | plain h =>
    obtain ⟨d, ds, rfl, hd⟩ := h.exists_cons
    rw [← magnitude_parts h hr, List.cons_append, numberPart]
    intro _ he
    rw [(List.cons.inj he).1] at hd
    cases hd
  | minus h =>
    rw [List.cons_append, numberPart, magnitude_parts h hr]
    rfl

theorem IsNumber.exists_cons {literal : List Char} (h : IsNumber literal) :
    ∃ c cs, literal = c :: cs ∧ (c = '-' ∨ c.isDigit = true) := by
  cases h with
  | plain h =>
    obtain ⟨d, ds, rfl, hd⟩ := h.exists_cons
    exact ⟨d, ds, rfl, .inr hd⟩
  | minus => exact ⟨'-', _, rfl, .inl rfl⟩

/-- The digits of a natural number are a number. -/
theorem isNumber_toDigits (n : Nat) : IsNumber (Nat.toDigits 10 n) := by
  have hdigits : Digits (Nat.toDigits 10 n) := ⟨Nat.toDigits_ne_nil, List.all_eq_true.2 fun c hc =>
    Nat.isDigit_of_mem_toDigits (by decide) (by decide) hc⟩
  have hwhole : Whole (Nat.toDigits 10 n) := by
    by_cases hz : (Nat.toDigits 10 n).head? = some '0'
    · rw [Written.Numeral.toDigits_of_head? hz]
      exact .zero
    · exact .digits hdigits hz
  have hnumber := Magnitude.parts hwhole .none .none
  rw [List.append_nil, List.append_nil] at hnumber
  exact .plain hnumber

end ShaderBuild.Json
