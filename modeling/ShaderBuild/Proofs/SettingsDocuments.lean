import ShaderBuild.Proofs.Documents
import ShaderBuild.Settings
/-!
# Settings documents

Settings are read back from what they are printed as. A document may also leave fields out, have them in any order and
contain fields that settings do not have (`settings_read_back`): a known field is looked up by its name, however its
key is spelled (`record?_object`), so all that matters is which known fields there are (`Given`).
-/

namespace ShaderBuild

namespace Json

/-- A string that stands for a text. -/
inductive HoldsText : Json → String → Prop
  | string {literal : List Char} {text : String} (spelled : Spells literal text.toList) :
      HoldsText (.string literal) text

/-- A truth value. -/
inductive HoldsBool : Json → Bool → Prop
  | bool (value : Bool) : HoldsBool (.bool value) value

theorem HoldsText.text? {v : Json} {text : String} (h : HoldsText v text) : v.text? = some text := by
  obtain ⟨spelled⟩ := h
  rw [Json.text?, spelled.unescape, Option.map_some, String.ofList_toList]

theorem holdsText_of_text? {v : Json} (hv : v.WellFormed) {text : String} (h : v.text? = some text) :
    HoldsText v text := by
  cases v with
  | string literal =>
    rw [WellFormed] at hv
    obtain ⟨cs, hcs, rfl⟩ := Option.map_eq_some_iff.1 h
    refine .string ?_
    rw [String.toList_ofList]
    exact spells_of_unescape hv hcs
  | _ => cases h

theorem HoldsBool.bool? {v : Json} {value : Bool} (h : HoldsBool v value) : v.bool? = some value := by
  obtain ⟨⟩ := h
  rfl

theorem holdsBool_of_bool? {v : Json} {value : Bool} (h : v.bool? = some value) : HoldsBool v value := by
  cases v with
  | bool =>
    obtain rfl := Option.some.inj h
    exact .bool _
  | _ => cases h

/-- A document of an object with these fields: keys in any spelling, values of any kind and any layout. -/
def IsDocument (named : List (String × Json)) (document : String) : Prop :=
  ∃ fields, Named fields named ∧ (object fields).WellFormed ∧ LaidOut (object fields).words document.toList

end Json

namespace Settings

open Json (HoldsText HoldsBool IsDocument Named)

/-! ## One field -/

/-- A field is given once, with a value that means this, or it is not given at all. -/
def Given {α : Type} (named : List (String × Json)) (name : String) (Means : Json → α → Prop)
    (value : Option α) : Prop :=
  List.Forall₂ (fun field a => Means field.2 a) (named.filter (·.1 == name)) value.toList

section Field
variable {named : List (String × Json)} {name : String}

theorem lookup_eq_head? (named : List (String × Json)) (name : String) :
    List.lookup name named = (named.filter (·.1 == name)).head?.map Prod.snd := by
  induction named with
  | nil => rfl
  | cons field named ih =>
    obtain ⟨key, v⟩ := field
    rw [List.lookup_cons, List.filter_cons, BEq.comm]
    cases h : key == name with
    | true => rfl
    | false => exact ih

variable {α : Type} {Means : Json → α → Prop} {value : Option α}

theorem Given.once (h : Given named name Means value) : (named.filter (·.1 == name)).length ≤ 1 := by
  rw [h.length_eq]
  cases value with
  | none => exact Nat.zero_le 1
  | some => exact Nat.le_refl 1

theorem Given.read (h : Given named name Means value) {read : Json → Option α}
    (hread : ∀ {v a}, Means v a → read v = some a) (default : α) :
    fieldOr default read (List.lookup name named) = some (value.getD default) := by
  rw [lookup_eq_head?]
  rw [Given] at h
  cases value with
  | none =>
    rw [List.forall₂_nil_right_iff.1 h]
    rfl
  | some a =>
    obtain ⟨field, rest, hmeans, -, hfilter⟩ := List.forall₂_cons_right_iff.1 h
    rw [hfilter]
    exact hread hmeans

/-- A field that is given once is found. -/
theorem lookup_of_mem {v : Json} (hm : (name, v) ∈ named) (hl : (named.filter (·.1 == name)).length ≤ 1) :
    List.lookup name named = some v := by
  have hmem : (name, v) ∈ named.filter (·.1 == name) := List.mem_filter.2 ⟨hm, beq_self_eq_true name⟩
  rw [lookup_eq_head?]
  cases hf : named.filter (·.1 == name) with
  | nil => rw [hf] at hmem; cases hmem
  | cons field rest =>
    rw [hf] at hl hmem
    obtain rfl : rest = [] := List.length_eq_zero_iff.1 (Nat.le_zero.1 (Nat.le_of_succ_le_succ hl))
    obtain rfl := List.mem_singleton.1 hmem
    rfl

end Field

/-! ## Documents -/

/-- The known fields that a document gives, each at most once and with a value of its type. -/
structure Listed (named : List (String × Json)) (source output : Option String) (strip : Option Bool) : Prop where
  source : Given named "source_dir" HoldsText source
  output : Given named "output_dir" HoldsText output
  strip : Given named "strip_comments" HoldsBool strip

/-- Has the value of a known field the right type? -/
def Fits (name : String) (v : Json) : Prop :=
  if name = "strip_comments" then ∃ value, HoldsBool v value else ∃ text, HoldsText v text

section Document
variable {fields : List (List Char × Json)} {named : List (String × Json)} (hn : Named fields named)
include hn

theorem ofJson?_listed {source output : Option String} {strip : Option Bool} (h : Listed named source output strip) :
    ofJson? (.object fields) =
      some ⟨⟨source.getD "shaders/src"⟩, ⟨output.getD "shaders/bin"⟩, strip.getD true⟩ := by
  have honce : ∀ name ∈ fieldNames, (named.filter (·.1 == name)).length ≤ 1 := by
    simp only [fieldNames, List.forall_mem_cons]
    exact ⟨h.source.once, h.output.once, h.strip.once, nofun⟩
  have hsource := h.source.read HoldsText.text? "shaders/src"
  have houtput := h.output.read HoldsText.text? "shaders/bin"
  have hstrip := h.strip.read HoldsBool.bool? true
  rw [ofJson?, Json.record?_object hn, if_pos honce]
  simp [fieldNames, hsource, houtput, hstrip]

theorem ofJson?_repeated {name : String} (hname : name ∈ fieldNames) (h : 1 < (named.map Prod.fst).count name) :
    ofJson? (.object fields) = none := by
  have htwice : ¬ ∀ name ∈ fieldNames, (named.filter (·.1 == name)).length ≤ 1 := by
    intro honce
    have hone := honce name hname
    rw [← List.countP_eq_length_filter] at hone
    rw [List.count, List.countP_map] at h
    exact absurd h (Nat.not_lt.2 hone)
  rw [ofJson?, Json.record?_object hn, if_neg htwice]
  rfl

theorem ofJson?_unfit (hw : (Json.object fields).WellFormed) {name : String} (hname : name ∈ fieldNames) {v : Json}
    (hm : (name, v) ∈ named) (h : ¬ Fits name v) : ofJson? (.object fields) = none := by
  rw [ofJson?, Json.record?_object hn]
  split
  · -- No known field is repeated, so the field is the one that is found under its name.
    next honce =>
    have hv : v.WellFormed := hn.wellFormed hw _ hm
    have hlookup := lookup_of_mem hm (honce name hname)
    have htext : name ≠ "strip_comments" → v.text? = none := by
      intro hne
      rw [Fits, if_neg hne] at h
      exact Option.eq_none_iff_forall_ne_some.2 fun text ht => h ⟨text, Json.holdsText_of_text? hv ht⟩
    have hbool : name = "strip_comments" → v.bool? = none := by
      rintro rfl
      rw [Fits, if_pos rfl] at h
      exact Option.eq_none_iff_forall_ne_some.2 fun value hb => h ⟨value, Json.holdsBool_of_bool? hb⟩
    simp only [fieldNames, List.mem_cons, List.not_mem_nil, or_false] at hname
    rcases hname with rfl | rfl | rfl
    · simp [fieldNames, hlookup, fieldOr, htext (by decide)]
    · simp [fieldNames, hlookup, fieldOr, htext (by decide)]
    · simp [fieldNames, hlookup, fieldOr, hbool rfl]
  · rfl

end Document

theorem read_of_document {fields : List (List Char × Json)} {document : String} (hw : (Json.object fields).WellFormed)
    (hl : Json.LaidOut (Json.object fields).words document.toList) :
    read document = match ofJson? (.object fields) with
      | some s => .ok s
      | none => .error .document := by
  rw [read, Json.read?_laidOut hw hl]
  rfl

theorem load_of_read {fs : FileSystem} {p : Path} {document : String} (h : fs.read p = .ok (Bytes.ofText document)) :
    load fs p = read document := by
  have htext : fs.readText p = .ok document := by
    rw [FileSystem.readText, h]
    simp [FileSystem.asText, bind, Except.bind]
  rw [load, htext]

/-! ## Printed settings -/

/-- The fields that settings are printed with. -/
def toNamed (s : Settings) : List (String × Json) :=
  [("source_dir", .ofText s.sourceDir.text), ("output_dir", .ofText s.outputDir.text),
    ("strip_comments", .bool s.stripComments)]

theorem toJson_eq (s : Settings) : s.toJson = .object (Json.keyed s.toNamed) := by
  have hname : ∀ name ∈ fieldNames, Json.escape name.toList = name.toList := by decide
  rw [toJson, Json.keyed, toNamed]
  simp only [List.map_cons, List.map_nil]
  rw [hname _ (by decide), hname _ (by decide), hname _ (by decide)]

theorem listed_toNamed (s : Settings) :
    Listed s.toNamed (some s.sourceDir.text) (some s.outputDir.text) (some s.stripComments) := by
  have htext : ∀ text : String, HoldsText (.ofText text) text := fun text => .string (Json.spells_escape _)
  constructor
  · exact .cons (htext _) .nil
  · exact .cons (htext _) .nil
  · exact .cons (.bool _) .nil

/-- Every layout of printed settings is a document of their fields. -/
theorem isDocument_toNamed (s : Settings) {document : String} (hl : Json.LaidOut s.toJson.words document.toList) :
    IsDocument s.toNamed document := by
  rw [toJson_eq] at hl
  refine ⟨_, Json.named_keyed _, Json.wellFormed_keyed ?_, hl⟩
  simp only [toNamed, List.forall_mem_cons]
  exact ⟨Json.wellFormed_ofText _, Json.wellFormed_ofText _, by rw [Json.WellFormed]; trivial, nofun⟩

/-- Settings are loaded from what they are printed as, whatever characters are in their paths. A document of an object
gives settings in which the listed fields have the given values and the others their defaults, whatever the order of
the fields, the spelling of their keys and the layout is and whatever unknown fields there are. A known field that is
repeated is refused, and so is one whose value does not have the right type. -/
theorem settings_read_back (fs : FileSystem) (p : Path) :
    (∀ (s : Settings), ∀ document ∈ [s.print, String.ofList (s.toJson.pretty 0)],
      fs.read p = .ok (Bytes.ofText document) → load fs p = .ok s) ∧
    ∀ named document, IsDocument named document → fs.read p = .ok (Bytes.ofText document) →
      (∀ source output strip, Listed named source output strip →
        load fs p = .ok ⟨⟨source.getD "shaders/src"⟩, ⟨output.getD "shaders/bin"⟩, strip.getD true⟩) ∧
      (∀ name ∈ fieldNames, 1 < (named.map Prod.fst).count name → load fs p = .error .document) ∧
      ∀ name ∈ fieldNames, ∀ v, (name, v) ∈ named → ¬ Fits name v → load fs p = .error .document := by
  have hlisted : ∀ named document source output strip, IsDocument named document →
      fs.read p = .ok (Bytes.ofText document) → Listed named source output strip →
        load fs p = .ok ⟨⟨source.getD "shaders/src"⟩, ⟨output.getD "shaders/bin"⟩, strip.getD true⟩ := by
    rintro named document source output strip ⟨fields, hn, hw, hl⟩ hread hlisted
    rw [load_of_read hread, read_of_document hw hl, ofJson?_listed hn hlisted]
  refine ⟨fun s document hprinted hread => ?_, fun named document hdocument hread => ⟨?_, ?_, ?_⟩⟩
  · have hl : Json.LaidOut s.toJson.words document.toList := by
      simp only [List.mem_cons, List.not_mem_nil, or_false] at hprinted
      rcases hprinted with rfl | rfl
      · rw [print, String.toList_ofList]
        exact Json.laidOut_compact_self _
      · rw [String.toList_ofList]
        exact Json.laidOut_pretty_self _
    exact hlisted _ _ _ _ _ (isDocument_toNamed s hl) hread (listed_toNamed s)
  · exact fun source output strip => hlisted named document source output strip hdocument hread
  · obtain ⟨fields, hn, hw, hl⟩ := hdocument
    intro name hname htwice
    rw [load_of_read hread, read_of_document hw hl, ofJson?_repeated hn hname htwice]
  · obtain ⟨fields, hn, hw, hl⟩ := hdocument
    intro name hname v hm hv
    rw [load_of_read hread, read_of_document hw hl, ofJson?_unfit hn hw hname hm hv]

example : read "\x7b \"output_dir\": \"build/shaders\", \"strip_comments\": false \x7d" =
    .ok { outputDir := ⟨"build/shaders"⟩, stripComments := false } := by
  decide +kernel

/-- A file with a document. -/
def holding (document : String) : FileSystem where
  nodes := [(⟨["s"]⟩, .file (Bytes.ofText document))]

theorem read_holding (document : String) : (holding document).read ⟨"/s"⟩ = .ok (Bytes.ofText document) := rfl

theorem isDocument_compact {named : List (String × Json)} (h : ∀ field ∈ named, field.2.WellFormed) {document : String}
    (ht : document.toList = (Json.object (Json.keyed named)).compact) : IsDocument named document := by
  refine ⟨_, Json.named_keyed _, Json.wellFormed_keyed h, ?_⟩
  rw [ht]
  exact Json.laidOut_compact_self _

/-- An unknown field whose value holds no text, and a path with an escaped letter. -/
def sampleFields : List (String × Json) :=
  [("extra", .array [.object [], .string ['\\', 'u', 'd', '8', '0', '0']]),
    ("output_dir", .string ['o', '\\', 'u', '0', '0', '7', '5', 't'])]

theorem isLiteral_out : Json.IsLiteral ['o', '\\', 'u', '0', '0', '7', '5', 't'] :=
  .part (.plain ⟨by decide, by decide, by decide⟩) (.part (.digits (by decide))
    (.part (.plain ⟨by decide, by decide, by decide⟩) .nil))

theorem wellFormed_sampleFields : ∀ field ∈ sampleFields, field.2.WellFormed := by
  have hhalf : Json.IsLiteral ['\\', 'u', 'd', '8', '0', '0'] := .part (.digits (by decide)) .nil
  simp [sampleFields, Json.WellFormed, Json.AllWellFormed, Json.FieldsWellFormed, hhalf, isLiteral_out]

theorem listed_sampleFields : Listed sampleFields none (some "out") none := by
  have htext : HoldsText (.string ['o', '\\', 'u', '0', '0', '7', '5', 't']) "out" :=
    Json.holdsText_of_text? (by rw [Json.WellFormed]; exact isLiteral_out) (by decide)
  exact ⟨.nil, .cons htext .nil, .nil⟩

/-- A path with quotes and control characters, a document that leaves fields out, one with a field that comes twice
and one with a field that is null. -/
theorem settings_read_back_sample :
    let s : Settings := ⟨⟨"\"\\\n\x01é"⟩, ⟨""⟩, false⟩
    let short := "\x7b\"extra\":[\x7b\x7d,\"\\ud800\"],\"output_dir\":\"o\\u0075t\"\x7d"
    let twice := "\x7b\"strip_comments\":true,\"strip_comments\":true\x7d"
    let wrong := "\x7b\"source_dir\":null\x7d"
    load (holding s.print) ⟨"/s"⟩ = .ok s ∧ load (holding short) ⟨"/s"⟩ = .ok { outputDir := ⟨"out"⟩ } ∧
      load (holding twice) ⟨"/s"⟩ = .error .document ∧ load (holding wrong) ⟨"/s"⟩ = .error .document := by
  intro s short twice wrong
  have htrue : (Json.bool true).WellFormed := by
    rw [Json.WellFormed]
    trivial
  have hnull : Json.null.WellFormed := by
    rw [Json.WellFormed]
    trivial
  have hshort : IsDocument sampleFields short := isDocument_compact wellFormed_sampleFields (by decide +kernel)
  have htwice : IsDocument [("strip_comments", .bool true), ("strip_comments", .bool true)] twice :=
    isDocument_compact (by simp [htrue]) (by decide +kernel)
  have hwrong : IsDocument [("source_dir", .null)] wrong := isDocument_compact (by simp [hnull]) (by decide +kernel)
  obtain ⟨hprinted, -⟩ := settings_read_back (holding s.print) ⟨"/s"⟩
  obtain ⟨hlisted, -⟩ := (settings_read_back (holding short) ⟨"/s"⟩).2 _ _ hshort (read_holding _)
  obtain ⟨-, hrepeated, -⟩ := (settings_read_back (holding twice) ⟨"/s"⟩).2 _ _ htwice (read_holding _)
  obtain ⟨-, -, hunfit⟩ := (settings_read_back (holding wrong) ⟨"/s"⟩).2 _ _ hwrong (read_holding _)
  refine ⟨hprinted s _ List.mem_cons_self (read_holding _), hlisted _ _ _ listed_sampleFields,
    hrepeated "strip_comments" (by decide) (by decide), hunfit "source_dir" (by decide) .null List.mem_cons_self ?_⟩
  rintro ⟨_, h⟩
  cases h

end Settings

end ShaderBuild
