import ShaderBuild.Macro.Octets
import ShaderBuild.Proofs.Expansion
/-!
# Pieces end where characters end

A text can be expanded octet by octet (`expandText?`). Nothing that is looked for is an octet of a character beyond
ASCII, so a run of octets ends where the run of characters does (`runEnd_ofChars`). Only behind a backslash an octet
is passed over that can be the first one of several, and then the others of that character are passed over one by one
(`literalEnd_ofChars`). So wherever a text is cut, a character has just ended (`CutAt.exists_chars`), and what comes out
is the expansion of the characters.
-/

namespace ShaderBuild

open Text

namespace Bytes

/-! ## The octets of characters -/

/-- The octets of some characters. -/
def ofChars (cs : List Char) : Bytes := cs.flatMap String.utf8EncodeChar

theorem ofText_eq (text : String) : ofText text = ofChars text.toList := by
  rw [ofText, String.toUTF8_eq_toByteArray, ← String.utf8Encode_toList, List.utf8Encode, List.toList_data_toByteArray,
    ofChars]

theorem ofChars_nil : ofChars [] = [] := rfl

theorem ofChars_cons (c : Char) (cs : List Char) : ofChars (c :: cs) = String.utf8EncodeChar c ++ ofChars cs :=
  List.flatMap_cons

theorem ofChars_append (u v : List Char) : ofChars (u ++ v) = ofChars u ++ ofChars v := List.flatMap_append

theorem length_ofChars (cs : List Char) : (ofChars cs).length = (String.ofList cs).utf8ByteSize := by
  rw [← String.toList_ofList (l := cs), ← ofText_eq, String.toList_ofList]
  rfl

/-- An ASCII character is one octet. -/
theorem utf8EncodeChar_of_lt {c : Char} (h : c.toNat < 128) : String.utf8EncodeChar c = [c.toUInt8] := by
  have hval : c.val.toNat < 128 := h
  refine String.utf8EncodeChar_eq_singleton ?_
  rw [Char.utf8Size_eq_one_iff, UInt32.le_iff_toNat_le]
  exact Nat.le_of_lt_succ hval

/-- No octet of another character is that of an ASCII character. -/
theorem le_of_mem_utf8EncodeChar {c : Char} (h : 128 ≤ c.toNat) : ∀ b ∈ String.utf8EncodeChar c, 128 ≤ b.toNat := by
  have hval : 128 ≤ c.val.toNat := h
  have hlt := c.val.toNat_lt
  intro b hb
  unfold String.utf8EncodeChar at hb
  dsimp only at hb
  split at hb
  · omega
  all_goals
    repeat' split at hb
    all_goals
      simp only [List.mem_cons, List.not_mem_nil, or_false] at hb
      rcases hb with rfl | rfl | rfl | rfl <;> simp only [UInt8.toNat_ofNat'] <;> omega

/-! ## Octets that tell of characters -/

/-- Every octet of a character satisfies `p` if the character satisfies `q`, and none does if it does not. -/
def Agree (p : UInt8 → Bool) (q : Char → Bool) : Prop := ∀ c, ∀ b ∈ String.utf8EncodeChar c, p b = q c

/-- What holds of ASCII characters only can be seen from their octets. -/
theorem agree_of_ascii {p : UInt8 → Bool} {q : Char → Bool}
    (hp : ∀ n < 256, p (UInt8.ofNat n) = (decide (n < 128) && q (Char.ofNat n)))
    (hq : ∀ c, q c = true → c.toNat < 128) : Agree p q := by
  intro c b hb
  have hpb := hp b.toNat b.toNat_lt
  rw [UInt8.ofNat_toNat] at hpb
  by_cases h : c.toNat < 128
  · rw [utf8EncodeChar_of_lt h] at hb
    obtain rfl := List.mem_singleton.1 hb
    have hn : c.toUInt8.toNat = c.toNat := Nat.mod_eq_of_lt (Nat.lt_trans h (by decide))
    rw [hpb, hn, decide_eq_true h, Bool.true_and, Char.ofNat_toNat]
  · have hb := le_of_mem_utf8EncodeChar (Nat.le_of_not_lt h) b hb
    rw [hpb, decide_eq_false (Nat.not_lt.2 hb), Bool.false_and]
    exact (Bool.eq_false_iff.2 fun hc => h (hq c hc)).symm

theorem Agree.not {p : UInt8 → Bool} {q : Char → Bool} (h : Agree p q) : Agree (!p ·) (!q ·) :=
  fun c b hb => congrArg (!·) (h c b hb)

theorem lt_of_isWordChar {c : Char} (h : isWordChar c = true) : c.toNat < 128 := by
  have hle : ∀ n : UInt32, c.val ≤ n → n < 128 → c.toNat < 128 := fun n hn hlt => Nat.lt_of_le_of_lt hn hlt
  have hchar : (((c.isUpper || c.isLower) || c.isDigit) || c == '_') = true := h
  simp only [Bool.or_eq_true] at hchar
  rcases hchar with ((hupper | hlower) | hdigit) | hline
  · have hrange : c.val ≥ 'A'.val ∧ c.val ≤ 'Z'.val := of_decide_eq_true hupper
    exact hle _ hrange.2 (by decide)
  · exact hle _ (of_decide_eq_true (Bool.and_eq_true_iff.1 hlower).2) (by decide)
  · exact hle _ (of_decide_eq_true (Bool.and_eq_true_iff.1 hdigit).2) (by decide)
  · rw [eq_of_beq hline]
    decide

theorem agree_wordPart : Agree Octet.isWordPart isWordChar :=
  agree_of_ascii (by decide +kernel) fun _ => lt_of_isWordChar

theorem agree_wordStart : Agree Octet.isWordStart isWordStart :=
  agree_of_ascii (by decide +kernel) fun _ h => lt_of_isWordChar (Token.isWordChar_of_isWordStart h)

theorem agree_digit : Agree Octet.isDigit Char.isDigit :=
  agree_of_ascii (by decide +kernel) fun c h => lt_of_isWordChar (by simp [isWordChar, Char.isAlphanum, h])

theorem agree_ascii {d : Char} (hp : ∀ n < 256, (UInt8.ofNat n == d.toUInt8) = (decide (n < 128) && Char.ofNat n == d))
    (hd : d.toNat < 128) : Agree (· == d.toUInt8) (· == d) :=
  agree_of_ascii hp fun _ h => eq_of_beq h ▸ hd

theorem agree_quote : Agree (· == '"'.toUInt8) (· == '"') := agree_ascii (by decide +kernel) (by decide)

theorem agree_backslash : Agree (· == '\\'.toUInt8) (· == '\\') := agree_ascii (by decide +kernel) (by decide)

theorem agree_filler : Agree (!Octet.isDelimiter ·) MacroTable.isFiller :=
  Agree.not fun c b hb => congrArg₂ or (agree_quote c b hb) (agree_wordPart c b hb)

/-- An octet of a character is a given ASCII character only if the character is. -/
theorem Agree.ne {d c : Char} (h : Agree (· == d.toUInt8) (· == d)) (hc : c ≠ d) :
    ∀ b ∈ String.utf8EncodeChar c, b ≠ d.toUInt8 := by
  intro b hb he
  have hcd : (b == d.toUInt8) = (c == d) := h c b hb
  rw [he, beq_self_eq_true, beq_false_of_ne hc] at hcd
  cases hcd

/-! ## Where pieces end -/

section Ends
variable {before run rest : Bytes} {b : UInt8}

theorem getElem?_at (before rest : Bytes) : (before ++ rest)[before.length]? = rest.head? := by
  rw [List.getElem?_append_right (Nat.le_refl _), Nat.sub_self, List.head?_eq_getElem?]

/-- A run goes on as long as its octets satisfy `p`. -/
theorem runEnd_append {p : UInt8 → Bool} (hrun : ∀ b ∈ run, p b = true) (hrest : ∀ b ∈ rest.head?, p b = false) :
    runEnd p (before ++ (run ++ rest)) before.length = (before ++ run).length := by
  induction run generalizing before with
  | nil =>
    rw [runEnd, List.nil_append, List.append_nil]
    split
    · rfl
    · next b hb =>
      rw [getElem?_at] at hb
      rw [hrest b hb, if_neg Bool.false_ne_true]
  | cons b run ih =>
    obtain ⟨hb, hrun⟩ := List.forall_mem_cons.1 hrun
    have hstep : runEnd p (before ++ [b] ++ (run ++ rest)) (before ++ [b]).length = (before ++ [b] ++ run).length :=
      ih hrun
    rw [List.append_assoc, List.append_assoc, List.length_append] at hstep
    rw [runEnd_of_pos (getElem?_at before (b :: run ++ rest)) hb]
    exact hstep

theorem runEnd_ofChars {p : UInt8 → Bool} {q : Char → Bool} (h : Agree p q) (before : Bytes) (cs : List Char) :
    runEnd p (before ++ ofChars cs) before.length = (before ++ ofChars (cs.takeWhile q)).length := by
  have hrun : ∀ b ∈ ofChars (cs.takeWhile q), p b = true := by
    intro b hb
    obtain ⟨c, hc, hb⟩ := List.mem_flatMap.1 hb
    rw [h c b hb]
    exact List.all_eq_true.1 List.all_takeWhile c hc
  have hrest : ∀ b ∈ (ofChars (cs.dropWhile q)).head?, p b = false := by
    intro b hb
    have hstop := List.head?_dropWhile_not q cs
    cases hcs : cs.dropWhile q with
    | nil =>
      rw [hcs] at hb
      cases hb
    | cons c rest =>
      rw [hcs] at hb hstop
      rw [ofChars_cons, List.head?_append_of_ne_nil _ String.utf8EncodeChar_ne_nil] at hb
      rw [h c b (List.mem_of_head? hb)]
      simpa using hstop
  have hends : runEnd p (before ++ (ofChars (cs.takeWhile q) ++ ofChars (cs.dropWhile q))) before.length =
      (before ++ ofChars (cs.takeWhile q)).length := runEnd_append hrun hrest
  rwa [← ofChars_append, List.takeWhile_append_dropWhile] at hends

/-- What an octet does in a literal. -/
theorem literalEnd_at (before : Bytes) (b : UInt8) (rest : Bytes) :
    literalEnd (before ++ b :: rest) before.length =
      if b = '\\'.toUInt8 ∧ rest ≠ [] then literalEnd (before ++ b :: rest) (before.length + 2)
      else if b = '"'.toUInt8 then before.length + 1
      else literalEnd (before ++ b :: rest) (before.length + 1) := by
  have hmore : before.length + 1 < (before ++ b :: rest).length ↔ rest ≠ [] := by
    rw [List.length_append, List.length_cons, ← List.length_pos_iff]
    omega
  rw [literalEnd]
  split
  · next hn =>
    rw [getElem?_at] at hn
    cases hn
  · next b' hb =>
    rw [getElem?_at] at hb
    obtain rfl : b = b' := Option.some.inj hb
    simp only [hmore]

theorem literalEnd_length (bytes : Bytes) : literalEnd bytes bytes.length = bytes.length := by
  rw [literalEnd]
  split
  · rfl
  · next b hb =>
    rw [List.getElem?_eq_none (Nat.le_refl _)] at hb
    cases hb

/-- Octets that are neither quotes nor backslashes are passed over one by one. -/
theorem literalEnd_skip (hquote : ∀ b ∈ run, b ≠ '"'.toUInt8) (hslash : ∀ b ∈ run, b ≠ '\\'.toUInt8) :
    literalEnd (before ++ (run ++ rest)) before.length = literalEnd (before ++ run ++ rest) (before ++ run).length := by
  induction run generalizing before with
  | nil => rw [List.nil_append, List.append_nil]
  | cons b run ih =>
    obtain ⟨hb, hquote⟩ := List.forall_mem_cons.1 hquote
    obtain ⟨hb', hslash⟩ := List.forall_mem_cons.1 hslash
    have hstep : literalEnd (before ++ [b] ++ (run ++ rest)) (before ++ [b]).length =
        literalEnd (before ++ [b] ++ run ++ rest) (before ++ [b] ++ run).length := ih hquote hslash
    simp only [List.append_assoc, List.singleton_append, List.length_append, List.length_singleton] at hstep
    rw [List.cons_append, literalEnd_at, if_neg fun h => hb' h.1, if_neg hb, hstep]
    simp only [List.append_assoc, List.cons_append, List.length_append, List.length_cons]

/-- After the first octet of a character, there is none of an ASCII character before the next one. -/
theorem ne_of_mem_tail {c : Char} {b : UInt8} {bs : Bytes} (h : String.utf8EncodeChar c = b :: bs) {d : Char}
    (hd : d.toNat < 128) : ∀ b' ∈ bs, b' ≠ d.toUInt8 := by
  intro b' hb' he
  have hn : d.toUInt8.toNat = d.toNat := Nat.mod_eq_of_lt (Nat.lt_trans hd (by decide))
  by_cases hc : c.toNat < 128
  · rw [utf8EncodeChar_of_lt hc] at h
    rw [← (List.cons.inj h).2] at hb'
    cases hb'
  · have hle := le_of_mem_utf8EncodeChar (Nat.le_of_not_lt hc) b' (h ▸ List.mem_cons_of_mem b hb')
    rw [he, hn] at hle
    omega

/-- Behind a backslash, a character is passed over whatever it is. -/
theorem literalEnd_backslash (before : Bytes) (c : Char) (rest : Bytes) :
    literalEnd (before ++ '\\'.toUInt8 :: (String.utf8EncodeChar c ++ rest)) before.length =
      literalEnd (before ++ '\\'.toUInt8 :: String.utf8EncodeChar c ++ rest)
        (before ++ '\\'.toUInt8 :: String.utf8EncodeChar c).length := by
  obtain ⟨b, bs, hbs⟩ := List.exists_cons_of_ne_nil (String.utf8EncodeChar_ne_nil (c := c))
  -- the first octet is taken along, and the others mean nothing
  have hskip : literalEnd (before ++ ['\\'.toUInt8, b] ++ (bs ++ rest)) (before ++ ['\\'.toUInt8, b]).length =
      literalEnd (before ++ ['\\'.toUInt8, b] ++ bs ++ rest) (before ++ ['\\'.toUInt8, b] ++ bs).length :=
    literalEnd_skip (ne_of_mem_tail hbs (d := '"') (by decide)) (ne_of_mem_tail hbs (d := '\\') (by decide))
  rw [literalEnd_at, hbs, if_pos ⟨rfl, List.cons_ne_nil _ _⟩]
  simp only [List.append_assoc, List.cons_append, List.nil_append, List.length_append, List.length_cons,
    List.length_nil] at hskip ⊢
  exact hskip

/-- A literal ends with the character that closes it. -/
theorem literalEnd_ofChars (before : Bytes) (cs : List Char) :
    literalEnd (before ++ ofChars cs) before.length = (before ++ ofChars (MacroTable.quoted cs).1).length := by
  have hascii : ∀ {d : Char} (rest : List Char), d.toNat < 128 → ofChars (d :: rest) = d.toUInt8 :: ofChars rest :=
    fun rest hd => by rw [ofChars_cons, utf8EncodeChar_of_lt hd, List.singleton_append]
  fun_induction MacroTable.quoted cs generalizing before with
  | case1 => rw [ofChars_nil, List.append_nil, literalEnd_length]
  | case2 rest =>
    rw [hascii rest (by decide), literalEnd_at, if_neg fun h => absurd h.1 (by decide), if_pos rfl,
      hascii [] (by decide), ofChars_nil, List.length_append, List.length_singleton]
  | case3 c rest body after hbody ih =>
    have hrest := ih (before ++ '\\'.toUInt8 :: String.utf8EncodeChar c)
    rw [hbody] at hrest
    rw [hascii (c :: rest) (by decide), ofChars_cons, literalEnd_backslash, hrest, hascii (c :: body) (by decide),
      ofChars_cons, List.append_assoc, List.cons_append]
  | case4 c rest hquote hpair body after hbody ih =>
    have hrest := ih (before ++ String.utf8EncodeChar c)
    rw [hbody] at hrest
    by_cases hc : c = '\\'
    · -- nothing follows the backslash
      obtain rfl : rest = [] := by
        cases rest with
        | nil => rfl
        | cons d more => exact (hpair d more hc rfl).elim
      obtain rfl : body = [] := (Prod.mk.inj hbody).1.symm
      have hend := literalEnd_length (before ++ ofChars [c])
      rw [hc, hascii [] (by decide), ofChars_nil] at hend ⊢
      rw [literalEnd_at, if_neg fun h => h.2 rfl, if_neg (by decide)]
      rwa [List.length_append, List.length_singleton] at hend ⊢
    · have hslash := agree_backslash.ne hc
      rw [ofChars_cons, literalEnd_skip (agree_quote.ne hquote) hslash, hrest, ofChars_cons, List.append_assoc]

/-- A piece ends where its last character does. -/
theorem pieceEnd_ofChars (before : Bytes) (c : Char) (cs : List Char) {first : UInt8}
    (h : (before ++ ofChars (c :: cs))[before.length]? = some first) :
    pieceEnd (before ++ ofChars (c :: cs)) before.length first =
      (before ++ ofChars (MacroTable.piece c cs).1.text).length := by
  have hfirst : first ∈ String.utf8EncodeChar c := by
    rw [getElem?_at, ofChars_cons, List.head?_append_of_ne_nil _ String.utf8EncodeChar_ne_nil] at h
    exact List.mem_of_head? h
  have hquote : (first == '"'.toUInt8) = (c == '"') := agree_quote c first hfirst
  have hstart : Octet.isWordStart first = isWordStart c := agree_wordStart c first hfirst
  have hdigit : Octet.isDigit first = c.isDigit := agree_digit c first hfirst
  rcases MacroTable.char_cases c with rfl | hword | hfiller
  · have hsplit : ofChars ('"' :: cs) = '"'.toUInt8 :: ofChars cs := by
      rw [ofChars_cons, utf8EncodeChar_of_lt (by decide), List.singleton_append]
    have hends := literalEnd_ofChars (before ++ ['"'.toUInt8]) cs
    have happend := congrArg (fun cs => (ofChars cs).length) (MacroTable.quoted_append cs)
    have hsplit' : ofChars ('"' :: (MacroTable.quoted cs).1) = '"'.toUInt8 :: ofChars (MacroTable.quoted cs).1 := by
      rw [ofChars_cons, utf8EncodeChar_of_lt (by decide), List.singleton_append]
    simp only [ofChars_append, List.append_assoc, List.singleton_append, List.length_append, List.length_cons,
      List.length_nil] at hends happend
    rw [pieceEnd, if_pos (eq_of_beq hquote), MacroTable.piece_quote, hsplit, hends, MacroTable.Piece.text, hsplit']
    simp only [List.length_append, List.length_cons]
    omega
  · have hne : c ≠ '"' := fun he => absurd hword (he ▸ by decide)
    rw [beq_false_of_ne hne] at hquote
    rw [pieceEnd, if_neg (ne_of_beq_false hquote), hstart, hdigit, MacroTable.piece_run hword,
      MacroTable.Piece.text_ofRun]
    by_cases hs : isWordStart c = true
    · rw [if_pos hs, runEnd_ofChars agree_wordPart]
    · have hd : c.isDigit = true := by
        by_contra hd
        exact hs (Token.isWordStart_of_isWordChar hword hd)
      rw [if_neg hs, if_pos hd, runEnd_ofChars agree_wordPart]
  · obtain ⟨hne, hword⟩ := MacroTable.isFiller_iff.1 hfiller
    have hs : ¬ isWordStart c = true := fun hs => by rw [Token.isWordChar_of_isWordStart hs] at hword; cases hword
    have hd : ¬ c.isDigit = true := fun hd => by simp [isWordChar, Char.isAlphanum, hd] at hword
    have hrun : (!Octet.isDelimiter first) = true := (agree_filler c first hfirst).trans hfiller
    rw [beq_false_of_ne hne] at hquote
    rw [pieceEnd, if_neg (ne_of_beq_false hquote), hstart, hdigit, if_neg hs, if_neg hd,
      MacroTable.piece_filler hfiller, ← runEnd_of_pos h hrun, runEnd_ofChars agree_filler]
    rfl

end Ends

end Bytes

/-! ## Cutting a text -/

/-- The boundaries of characters in a text are where some of its first characters end. -/
theorem isValid_of_append {text : String} {u v : List Char} (h : text.toList = u ++ v) :
    String.Pos.Raw.IsValid text ⟨(Bytes.ofChars u).length⟩ := by
  refine String.Pos.Raw.isValid_iff_exists_append.2 ⟨String.ofList u, String.ofList v, ?_, ?_⟩
  · rw [← String.ofList_append, ← h, String.ofList_toList]
  · rw [Bytes.length_ofChars]
    rfl

/-- Between two boundaries, the characters there can be cut out. -/
theorem slice?_of_append {text : String} {u m v : List Char} (h : text.toList = u ++ (m ++ v)) :
    slice? text (Bytes.ofChars u).length (Bytes.ofChars (u ++ m)).length = some (String.ofList m) := by
  have hle : (Bytes.ofChars u).length ≤ (Bytes.ofChars (u ++ m)).length := by
    rw [Bytes.ofChars_append, List.length_append]
    exact Nat.le_add_right _ _
  have hstop : text.toList = (u ++ m) ++ v := by rw [h, List.append_assoc]
  have htext : text.toByteArray =
      (String.ofList u).toByteArray ++ ((String.ofList m).toByteArray ++ (String.ofList v).toByteArray) := by
    rw [← String.toByteArray_append, ← String.toByteArray_append, ← String.ofList_append, ← String.ofList_append, ← h,
      String.ofList_toList]
  have hu : (Bytes.ofChars u).length = (String.ofList u).toByteArray.size := Bytes.length_ofChars u
  have hm : (Bytes.ofChars m).length = (String.ofList m).toByteArray.size := Bytes.length_ofChars m
  rw [slice?, dif_pos ⟨hle, isValid_of_append h, isValid_of_append hstop⟩, Option.some.injEq, ← String.toByteArray_inj,
    String.toByteArray_extract, htext]
  dsimp only
  rw [Bytes.ofChars_append, List.length_append, hu, hm]
  exact (ByteArray.extract_append_size_add (i := 0)).trans (ByteArray.extract_append_eq_left rfl)

namespace MacroTable

/-- The offsets that a text is cut at: its start, and where each piece ends. -/
inductive CutAt (text : String) : Nat → Prop
  | start : CutAt text 0
  | piece {i : Nat} {first : UInt8} (before : CutAt text i) (octet : (Bytes.ofText text)[i]? = some first) :
    CutAt text (Bytes.pieceEnd (Bytes.ofText text) i first)

section Cut
variable {text : String} {u cs : List Char} {first : UInt8}

/-- The piece that is cut out of a text where some characters end is the next piece of the characters. -/
theorem exists_piece (h : text.toList = u ++ cs) (hf : (Bytes.ofText text)[(Bytes.ofChars u).length]? = some first) :
    ∃ c rest, cs = c :: rest ∧ text.toList = (u ++ (piece c rest).1.text) ++ (piece c rest).2 ∧
      Octet.isWordStart first = isWordStart c ∧
      Bytes.pieceEnd (Bytes.ofText text) (Bytes.ofChars u).length first =
        (Bytes.ofChars (u ++ (piece c rest).1.text)).length ∧
      slice? text (Bytes.ofChars u).length (Bytes.ofChars (u ++ (piece c rest).1.text)).length =
        some (String.ofList (piece c rest).1.text) := by
  rw [Bytes.ofText_eq, h, Bytes.ofChars_append] at hf
  cases cs with
  | nil =>
    rw [Bytes.getElem?_at] at hf
    cases hf
  | cons c rest =>
    have hsplit : text.toList = u ++ ((piece c rest).1.text ++ (piece c rest).2) := by rw [piece_append, h]
    have hfirst : first ∈ String.utf8EncodeChar c := by
      have hhead := hf
      rw [Bytes.getElem?_at, Bytes.ofChars_cons, List.head?_append_of_ne_nil _ String.utf8EncodeChar_ne_nil] at hhead
      exact List.mem_of_head? hhead
    refine ⟨c, rest, rfl, by rw [hsplit, List.append_assoc], Bytes.agree_wordStart c first hfirst, ?_,
      slice?_of_append hsplit⟩
    rw [Bytes.ofText_eq, h, Bytes.ofChars_append, Bytes.pieceEnd_ofChars _ _ _ hf, ← Bytes.ofChars_append]

/-- Wherever a text is cut, some of its characters end. -/
theorem CutAt.exists_chars {i : Nat} (h : CutAt text i) :
    ∃ u v, text.toList = u ++ v ∧ i = (Bytes.ofChars u).length := by
  induction h with
  | start => exact ⟨[], text.toList, rfl, rfl⟩
  | piece before octet ih =>
    obtain ⟨u, v, h, rfl⟩ := ih
    obtain ⟨c, rest, -, hrest, -, hstop, -⟩ := exists_piece h octet
    exact ⟨_, _, hrest, hstop⟩

end Cut

/-- A piece that starts like a word is one. -/
theorem piece_kind (c : Char) (cs : List Char) :
    (piece c cs).1 = if isWordStart c then .word (piece c cs).1.text else .verbatim (piece c cs).1.text := by
  unfold piece
  split
  · next hq =>
    rw [if_neg (by rw [hq]; decide)]
    rfl
  · split
    · rfl
    · split <;> rfl

/-- The expansion from an offset where some characters end is that of the others. -/
theorem expandFrom?_eq (t : MacroTable) (active : List String) {text : String} {u cs : List Char}
    (h : text.toList = u ++ cs) :
    t.expandFrom? active text (Bytes.ofChars u).length = some (String.ofList (t.expandWithin active cs)) := by
  rw [expandFrom?]
  split
  · next hnone =>
    cases cs with
    | nil => rw [expandWithin_eq, substitute_nil, String.ofList_nil]
    | cons c rest =>
      rw [Bytes.ofText_eq, h, Bytes.ofChars_append, Bytes.getElem?_at, Bytes.ofChars_cons,
        List.head?_append_of_ne_nil _ String.utf8EncodeChar_ne_nil, List.head?_eq_none_iff] at hnone
      exact absurd hnone String.utf8EncodeChar_ne_nil
  · next first hfirst =>
    obtain ⟨c, rest, rfl, hsplit, hstart, hstop, hslice⟩ := exists_piece h hfirst
    have hlength := length_piece_lt c rest
    have hrest := t.expandFrom?_eq active hsplit
    have hkind := piece_kind c rest
    have hexpand : t.expandWithin active (c :: rest) =
        (piece c rest).1.substitute (t.expandWord active) ++ t.expandWithin active (piece c rest).2 := by
      rw [expandWithin_eq, expandWithin_eq t active, substitute_cons]
    dsimp only
    rw [hstop, hslice, hrest, hstart, hexpand, String.ofList_append, Option.bind_some]
    generalize (piece c rest).1 = p at hkind ⊢
    by_cases hs : isWordStart c = true
    · rw [if_pos hs] at hkind ⊢
      rw [hkind, Piece.substitute, expandWord, Piece.text]
      split
      · next hv => rw [hv]; rfl
      · next value hv =>
        rw [hv]
        dsimp only
        by_cases ha : String.ofList p.text ∈ active
        · rw [dif_pos ha, if_pos ha]; rfl
        · have hsmaller := length_idle_lt (mem_names_of_get? hv) ha
          have hvalue : t.expandFrom? (String.ofList p.text :: active) value 0 =
              some (String.ofList (t.expandWithin (String.ofList p.text :: active) value.toList)) :=
            t.expandFrom?_eq (u := []) (String.ofList p.text :: active) rfl
          rw [dif_neg ha, if_neg ha]
          exact congrArg (Option.bind · _) hvalue
    · rw [if_neg hs] at hkind ⊢
      rw [hkind]
      rfl
termination_by ((t.idle active).length, cs.length)

/-- A text is expanded octet by octet as it is character by character, and no piece is cut out inside a character. -/
theorem octets_keep_characters (t : MacroTable) :
    (∀ (active : List String) (text : String),
      t.expandFrom? active text 0 = some (String.ofList (t.expandWithin active text.toList))) ∧
    (∀ text : String, t.expandText? text = some (String.ofList (t.expand text.toList))) ∧
    ∀ (text : String) (i : Nat), CutAt text i →
      i ≤ text.utf8ByteSize ∧ String.Pos.Raw.IsValid text ⟨i⟩ := by
  refine ⟨fun active text => t.expandFrom?_eq (u := []) active rfl, fun text => ?_, fun text i hi => ?_⟩
  · rw [expandText?, expand]
    split
    · rw [String.ofList_toList]
    · exact t.expandFrom?_eq (u := []) [] rfl
  · obtain ⟨u, v, h, rfl⟩ := hi.exists_chars
    have hvalid := isValid_of_append h
    exact ⟨hvalid.le_utf8ByteSize, hvalid⟩

/-- A literal with a character of two octets behind a backslash. Between these two, nothing is cut. -/
theorem octets_keep_escaped_character :
    CutAt "\"\\é\" X" 5 ∧ String.Pos.Raw.IsValid "\"\\é\" X" ⟨5⟩ ∧ ¬ String.Pos.Raw.IsValid "\"\\é\" X" ⟨3⟩ := by
  have hfirst : (Bytes.ofText "\"\\é\" X")[0]? = some '"'.toUInt8 := by decide
  have hend : Bytes.pieceEnd (Bytes.ofText "\"\\é\" X") 0 '"'.toUInt8 = 5 := by decide +kernel
  have hcut : CutAt "\"\\é\" X" 5 := hend ▸ CutAt.start.piece hfirst
  exact ⟨hcut, ((octets_keep_characters .empty).2.2 _ 5 hcut).2, by decide⟩

end MacroTable

end ShaderBuild
