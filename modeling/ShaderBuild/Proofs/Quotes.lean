import ShaderBuild.Manifest
import ShaderBuild.Proofs.Decomposition
import ShaderBuild.Proofs.LockStep
import ShaderBuild.Proofs.Stripping
/-!
# Comments in literals

Comments are taken away by a reader that does not know of literals. So a literal is kept if there are neither two
slashes nor a slash and a star in it, and otherwise a comment begins within its quotes and can go on behind them
(`literal_kept_iff`). Values in a manifest and the paths of includes are written in literals, and can be cut off or
joined in this way (`literals_are_cut`).
-/

namespace ShaderBuild

namespace Token

/-- A literal with its end, which is the first quote inside that no backslash stands directly before. -/
def IsLiteral (text : List Char) : Prop :=
  ∃ body, text = '"' :: (body ++ ['"']) ∧ QuotesEscaped body ∧ body.getLast? ≠ some '\\'

theorem isLiteral_of_isQuoted {body : List Char} (h : isQuoted body = true) : IsLiteral ('"' :: (body ++ ['"'])) := by
  obtain ⟨hescaped, hlast⟩ := (isQuoted_iff body).1 h
  exact ⟨body, rfl, hescaped, hlast⟩

/-- It is the token that is read where it begins, whatever follows it. -/
theorem IsLiteral.lexeme {text : List Char} (h : IsLiteral text) (rest : List Char) :
    ∃ cs, text = '"' :: cs ∧ Token.lexeme '"' (cs ++ rest) = ⟨.string, text, rest⟩ := by
  obtain ⟨body, rfl, hescaped, hlast⟩ := h
  have hstands : Stands .string ('"' :: (body ++ ['"'])) rest := .literal hescaped hlast
  obtain ⟨c, cs, htext, -, hlexeme⟩ := lexeme_of_stands hstands
  obtain ⟨rfl, rfl⟩ := List.cons.inj htext
  exact ⟨_, rfl, hlexeme⟩

theorem IsLiteral.ends {text : List Char} (h : IsLiteral text) : text.head? = some '"' ∧ text.getLast? = some '"' := by
  obtain ⟨body, rfl, -, -⟩ := h
  exact ⟨rfl, by rw [← List.cons_append, List.getLast?_concat]⟩

end Token

namespace Comment

open Token

section Literals
variable {p s : List Char}

/-- No comment begins with what is before a literal and goes on in it. -/
theorem free_append_of_quote {u : List Char} (hp : Free p) (hu : Free u) (hquote : u.head? = some '"') :
    Free (p ++ u) := by
  refine hp.append hu fun d hd => ?_
  obtain rfl := Option.some.inj (hquote.symm.trans hd)
  decide

theorem strip_of_free_literal (hp : Free p) (hs : IsLiteral s) (hfree : Free s) (r : List Char) :
    strip (p ++ (s ++ r)) = p ++ (s ++ strip r) := by
  obtain ⟨hquote, hlast⟩ := hs.ends
  have hend : (p ++ s).getLast? = some '"' := by rw [List.getLast?_append, hlast, Option.some_or]
  have hkept : Free (p ++ s ++ ['/']) :=
    free_concat_slash.2 ⟨free_append_of_quote hp hfree hquote, by rw [hend]; decide⟩
  rw [← List.append_assoc, strip_append_of_free hkept, List.append_assoc]

/-- What is left of a literal is what comes before the first comment in it. From there on its quotes mean nothing. -/
theorem strip_of_not_free_literal (hp : Free p) (hs : IsLiteral s) (hfree : ¬ Free s) (r : List Char) :
    ∃ u d v, s = u ++ '/' :: d :: v ∧ (d = '/' ∨ d = '*') ∧
      strip (p ++ (s ++ r)) = p ++ (u ++ strip ('/' :: d :: (v ++ r))) := by
  obtain ⟨hquote, -⟩ := hs.ends
  obtain ⟨u, com, v, rfl, hu, hcom⟩ := (exists_first s).resolve_left hfree
  obtain ⟨d, rest, rfl, hd⟩ := hcom.exists_marks
  refine ⟨u, d, rest ++ v, by simp, hd, ?_⟩
  have hhead : (u ++ ['/']).head? = some '"' := by
    cases u with
    | nil => cases hquote
    | cons c u => exact hquote
  have hkept : Free (p ++ u ++ ['/']) := by
    rw [List.append_assoc]
    exact free_append_of_quote hp hu hhead
  have hstrip := strip_append_of_free hkept ('/' :: d :: (rest ++ v ++ r))
  simpa using hstrip

/-- A literal is kept exactly if no comment begins in it. Otherwise what is before the first one is left of it, and the
comment ends where it would end outside of a literal, be that behind the closing quote. -/
theorem literal_kept_iff (hp : Free p) (hs : IsLiteral s) (r : List Char) :
    (strip (p ++ (s ++ r)) = p ++ (s ++ strip r) ↔ Free s) ∧
      (¬ Free s → ∃ u d v, s = u ++ '/' :: d :: v ∧ (d = '/' ∨ d = '*') ∧
        strip (p ++ (s ++ r)) = p ++ (u ++ strip ('/' :: d :: (v ++ r)))) := by
  refine ⟨⟨fun h => ?_, fun h => strip_of_free_literal hp hs h r⟩, fun h => strip_of_not_free_literal hp hs h r⟩
  have hfree : Free (p ++ (s ++ strip r)) := h ▸ free_strip _
  exact hfree.infix ⟨p, strip r, List.append_assoc p s (strip r)⟩

end Literals

/-- A literal with a quote and lone marks in it is kept, one with two slashes is not. -/
theorem literal_kept_iff_escaped :
    let p := "a \\ /".toList
    let s := '"' :: ("x\\\" */ /".toList ++ ['"'])
    let s' := '"' :: ("a//b".toList ++ ['"'])
    let r := "/\n// c\n\"".toList
    (Free p ∧ (IsLiteral s ∧ Free s) ∧ IsLiteral s' ∧ ¬ Free s') ∧
      strip (p ++ (s ++ r)) = p ++ (s ++ strip r) ∧ strip (p ++ (s' ++ r)) ≠ p ++ (s' ++ strip r) ∧
      ∃ u d v, s' = u ++ '/' :: d :: v ∧ (d = '/' ∨ d = '*') ∧
        strip (p ++ (s' ++ r)) = p ++ (u ++ strip ('/' :: d :: (v ++ r))) := by
  intro p s s' r
  have hp : Free p := by decide +kernel
  have hs : IsLiteral s := isLiteral_of_isQuoted (by decide +kernel)
  have hfree : Free s := by decide +kernel
  have hs' : IsLiteral s' := isLiteral_of_isQuoted (by decide +kernel)
  have hcut : ¬ Free s' := by decide +kernel
  obtain ⟨hiff, -⟩ := literal_kept_iff hp hs r
  obtain ⟨hiff', hrest⟩ := literal_kept_iff hp hs' r
  exact ⟨⟨hp, ⟨hs, hfree⟩, hs', hcut⟩, hiff.2 hfree, fun h => hcut (hiff'.1 h), hrest hcut⟩

end Comment

/-- A manifest with the two marks of a block comment in two of its values. -/
def marked : String := "shader S \x7b stage pixel \x7b file = \"a/*b\"; entrypoint = \"c*/d\"; \x7d \x7d"

/-- A value is cut off at two slashes. From two values with the marks of a block comment, one is made that neither of
them is, without an error. And an include can lose the end of its path. -/
theorem literals_are_cut :
    let p := "file = ".toList
    let s := '"' :: ("a//b".toList ++ ['"'])
    (Comment.Free p ∧ '"' ∉ p ∧ p.getLast? ≠ some '/' ∧ Token.IsLiteral s ∧
      Comment.strip (p ++ (s ++ ";\n".toList)) ≠ p ++ (s ++ Comment.strip ";\n".toList)) ∧
    Manifest.parse marked = .ok ⟨[⟨"S", ShaderUnit.empty.set .pixel { file := ⟨"ad"⟩ }, 1⟩]⟩ ∧
    (Preprocessor.processText {} {} "#include \"lib//a.h\"\n" ⟨"main.hlsl"⟩ []).result =
      .error (.directive ⟨"main.hlsl"⟩ 1 (.malformedInclude "#include \"lib")) := by
  intro p s
  have hp : Comment.Free p := by decide +kernel
  have hs : Token.IsLiteral s := Token.isLiteral_of_isQuoted (by decide +kernel)
  have hlines : Preprocessor.linesOf {} "#include \"lib//a.h\"\n" = [⟨"#include \"lib".toList, ['\n']⟩] := by
    decide +kernel
  refine ⟨⟨hp, by decide +kernel, by decide +kernel, hs, by decide +kernel⟩, by decide +kernel, ?_⟩
  rw [Preprocessor.processText, hlines, Preprocessor.run_cons]
  rfl

end ShaderBuild
