import ShaderBuild.Proofs.JsonText
import ShaderBuild.Report.Document
/-!
# Reports are read back

A report is the same after it was printed and read (`reports_read_back`), if its numbers fit into the fields of a
document. Every number that is read from a document does, so what was read once stays the same from then on.
-/

namespace ShaderBuild

/-! ## Fields -/

namespace Json

theorem text?_ofText (text : String) : (ofText text).text? = some text := by
  rw [ofText, text?, unescape_escape, Option.map_some, String.ofList_toList]

theorem natural?_ofNat {n limit : Nat} (h : n ≤ limit) : (ofNat n).natural? limit = some n := by
  rw [ofNat, natural?, Nat.repr, String.toList_ofList, Written.Numeral.decimalUpTo?_toDigits h]

theorem natural?_le {v : Json} {n limit : Nat} (h : v.natural? limit = some n) : n ≤ limit := by
  cases v with
  | number literal => exact of_decide_eq_true (Option.filter_eq_some_iff.1 h).2
  | _ => cases h

theorem optional?_map_ofText (text : Option String) : optional? text? (text.map ofText) = some text := by
  cases text with
  | none => rfl
  | some text =>
    rw [Option.map_some, ofText, optional?, ← ofText, text?_ofText]
    · rfl
    · exact nofun

theorem optional?_getD_null (text : Option String) :
    optional? text? (some ((text.map ofText).getD .null)) = some text := by
  cases text with
  | none => rfl
  | some text => exact optional?_map_ofText (some text)

theorem listOf?_map {α : Type} {item : Json → Option α} {toJson : α → Json} {as : List α}
    (h : ∀ a ∈ as, item (toJson a) = some a) : (array (as.map toJson)).listOf? item = some as := by
  rw [listOf?]
  induction as with
  | nil => rfl
  | cons a as ih =>
    obtain ⟨ha, has⟩ := List.forall_mem_cons.1 h
    rw [List.map_cons, List.mapM_cons, ha, ih has]
    rfl

theorem listOf?_forall {α : Type} {item : Json → Option α} {P : α → Prop} {v : Json} {as : List α}
    (hi : ∀ v a, item v = some a → P a) (h : v.listOf? item = some as) : ∀ a ∈ as, P a := by
  cases v with
  | array items =>
    rw [listOf?] at h
    induction items generalizing as with
    | nil =>
      obtain rfl := Option.some.inj h
      exact nofun
    | cons v vs ih =>
      rw [List.mapM_cons] at h
      obtain ⟨a, ha, h⟩ := Option.bind_eq_some_iff.1 h
      obtain ⟨rest, hrest, h⟩ := Option.bind_eq_some_iff.1 h
      obtain rfl := Option.some.inj h
      exact List.forall_mem_cons.2 ⟨hi v a ha, ih hrest⟩
  | _ => cases h

/-! ## Well-formed values -/

theorem wellFormed_ofText (text : String) : (ofText text).WellFormed := by
  rw [ofText, WellFormed]
  exact isLiteral_escape _

theorem wellFormed_ofNat (n : Nat) : (ofNat n).WellFormed := by
  rw [ofNat, WellFormed, Nat.repr, String.toList_ofList]
  exact isNumber_toDigits n

theorem wellFormed_array {α : Type} {toJson : α → Json} (h : ∀ a, (toJson a).WellFormed) (as : List α) :
    (array (as.map toJson)).WellFormed := by
  rw [WellFormed]
  induction as with
  | nil => simp [AllWellFormed]
  | cons a as ih =>
    rw [List.map_cons, AllWellFormed]
    exact ⟨h a, ih⟩

end Json

/-! ## Records -/

/-- Some fields that have a value, with their names. -/
def present (fields : List (String × Option Json)) : List (String × Json) :=
  fields.filterMap fun (name, value) => value.map fun v => (name, v)

theorem presentFields_eq (fields : List (String × Option Json)) :
    presentFields fields = .object (Json.keyed (present fields)) := by
  rw [presentFields, Json.keyed, present, List.map_filterMap]
  congr 2
  funext field
  obtain ⟨name, value⟩ := field
  cases value <;> rfl

theorem wellFormed_presentFields {fields : List (String × Option Json)}
    (h : ∀ field ∈ fields, ∀ v ∈ field.2, v.WellFormed) : (presentFields fields).WellFormed := by
  rw [presentFields_eq]
  refine Json.wellFormed_keyed fun field hf => ?_
  obtain ⟨⟨name, value⟩, hm, hfound⟩ := List.mem_filterMap.1 hf
  obtain ⟨v, hv, rfl⟩ := Option.map_eq_some_iff.1 hfound
  exact h _ hm v hv

theorem present_cons (name : String) (value : Option Json) (fields : List (String × Option Json)) :
    present ((name, value) :: fields) = (value.map fun v => (name, v)).toList ++ present fields := by
  cases value <;> rfl

theorem names_present (fields : List (String × Option Json)) :
    ((present fields).map Prod.fst).Sublist (fields.map Prod.fst) := by
  induction fields with
  | nil => exact List.Sublist.refl _
  | cons field fields ih =>
    obtain ⟨name, value⟩ := field
    cases value with
    | none => exact ih.cons name
    | some v => exact ih.cons_cons name

theorem lookup_present {fields : List (String × Option Json)} (hn : (fields.map Prod.fst).Nodup) :
    ∀ field ∈ fields, List.lookup field.1 (present fields) = field.2 := by
  induction fields with
  | nil => exact nofun
  | cons field fields ih =>
    obtain ⟨name, value⟩ := field
    obtain ⟨hnot, hrest⟩ := List.nodup_cons.1 hn
    rw [present_cons, List.forall_mem_cons]
    constructor
    · cases value with
      | none =>
        refine List.lookup_eq_none_iff.2 fun found hf => bne_iff_ne.2 ?_
        rintro rfl
        exact hnot ((names_present fields).subset (List.mem_map_of_mem hf))
      | some v => exact List.lookup_cons_self
    · intro field hf
      have hne : (field.1 == name) = false := by
        refine beq_eq_false_iff_ne.2 ?_
        rintro rfl
        exact hnot (List.mem_map.2 ⟨field, hf, rfl⟩)
      cases value with
      | none => exact ih hrest field hf
      | some v =>
        rw [Option.map_some, Option.toList_some, List.singleton_append, List.lookup_cons, hne]
        exact ih hrest field hf

/-- Fields with different names are found again, those without a value too. -/
theorem record?_presentFields {fields : List (String × Option Json)} {names : List String}
    (hf : fields.map Prod.fst = names) (hn : names.Nodup) :
    (presentFields fields).record? names = some (fields.map Prod.snd) := by
  subst hf
  have honce : ∀ name, ((present fields).filter (·.1 == name)).length ≤ 1 := by
    intro name
    have hcount := List.nodup_iff_count.1 (hn.sublist (names_present fields)) name
    rw [List.count, List.countP_map, List.countP_eq_length_filter] at hcount
    exact hcount
  have hvalues : (fields.map Prod.fst).map (fun name => List.lookup name (present fields)) = fields.map Prod.snd := by
    rw [List.map_map]
    exact List.map_congr_left (lookup_present hn)
  rw [presentFields_eq, Json.record?_object (Json.named_keyed _), if_pos fun name _ => honce name, hvalues]

/-! ## The parts of a report -/

namespace MemberReport

/-- The numbers of a member fit into a document. -/
structure Bounded (m : MemberReport) : Prop where
  arraySize : m.arraySize ≤ maxElements
  size : m.size ≤ maxSize

theorem wellFormed_toJson (m : MemberReport) : m.toJson.WellFormed := by
  refine wellFormed_presentFields ?_
  simp [Json.wellFormed_ofText, Json.wellFormed_ofNat]

theorem ofJson?_toJson {m : MemberReport} (h : m.Bounded) : ofJson? m.toJson = some m := by
  have hfields : m.toJson.record? fieldNames = some _ := record?_presentFields rfl (by decide)
  rw [ofJson?, hfields]
  simp [Json.text?_ofText, Json.natural?_ofNat h.arraySize, Json.natural?_ofNat h.size, Json.optional?_map_ofText]

theorem bounded_of_ofJson? {v : Json} {m : MemberReport} (h : ofJson? v = some m) : m.Bounded := by
  obtain ⟨values, -, h⟩ := Option.bind_eq_some_iff.1 h
  split at h
  · next name type semantic arraySize size =>
    simp only [Option.bind_eq_bind, Option.bind_eq_some_iff, Option.pure_def, Option.some.injEq] at h
    obtain ⟨_, -, _, -, _, -, _, -, _, -, _, -, _, he, _, -, _, hs, rfl⟩ := h
    exact ⟨Json.natural?_le he, Json.natural?_le hs⟩
  · cases h

end MemberReport

namespace StructReport

/-- The numbers of a struct fit into a document. -/
structure Bounded (s : StructReport) : Prop where
  size : s.size ≤ maxSize
  members : ∀ m ∈ s.members, m.Bounded

theorem wellFormed_toJson (s : StructReport) : s.toJson.WellFormed := by
  refine wellFormed_presentFields ?_
  simp [Json.wellFormed_ofText, Json.wellFormed_ofNat, Json.wellFormed_array MemberReport.wellFormed_toJson]

theorem ofJson?_toJson {s : StructReport} (h : s.Bounded) : ofJson? s.toJson = some s := by
  have hfields : s.toJson.record? fieldNames = some _ := record?_presentFields rfl (by decide)
  have hmembers := Json.listOf?_map fun m hm => MemberReport.ofJson?_toJson (h.members m hm)
  rw [ofJson?, hfields]
  simp [Json.text?_ofText, Json.natural?_ofNat h.size, hmembers]

theorem bounded_of_ofJson? {v : Json} {s : StructReport} (h : ofJson? v = some s) : s.Bounded := by
  obtain ⟨values, -, h⟩ := Option.bind_eq_some_iff.1 h
  split at h
  · simp only [Option.bind_eq_bind, Option.bind_eq_some_iff, Option.pure_def, Option.some.injEq] at h
    obtain ⟨_, -, _, -, _, -, _, hs, _, -, _, hm, rfl⟩ := h
    exact ⟨Json.natural?_le hs, Json.listOf?_forall (fun _ _ => MemberReport.bounded_of_ofJson?) hm⟩
  · cases h

end StructReport

namespace ConstantBufferReport

/-- The numbers of a constant buffer fit into a document. -/
structure Bounded (b : ConstantBufferReport) : Prop where
  size : b.size ≤ maxSize
  members : ∀ m ∈ b.members, m.Bounded

theorem wellFormed_toJson (b : ConstantBufferReport) : b.toJson.WellFormed := by
  refine wellFormed_presentFields ?_
  simp [Json.wellFormed_ofText, Json.wellFormed_ofNat, Json.wellFormed_array MemberReport.wellFormed_toJson]

theorem ofJson?_toJson {b : ConstantBufferReport} (h : b.Bounded) : ofJson? b.toJson = some b := by
  have hfields : b.toJson.record? fieldNames = some _ := record?_presentFields rfl (by decide)
  have hmembers := Json.listOf?_map fun m hm => MemberReport.ofJson?_toJson (h.members m hm)
  rw [ofJson?, hfields]
  simp [Json.text?_ofText, Json.natural?_ofNat h.size, Json.optional?_map_ofText, hmembers]

theorem bounded_of_ofJson? {v : Json} {b : ConstantBufferReport} (h : ofJson? v = some b) : b.Bounded := by
  obtain ⟨values, -, h⟩ := Option.bind_eq_some_iff.1 h
  split at h
  · simp only [Option.bind_eq_bind, Option.bind_eq_some_iff, Option.pure_def, Option.some.injEq] at h
    obtain ⟨_, -, _, -, _, -, _, -, _, hs, _, -, _, hm, rfl⟩ := h
    exact ⟨Json.natural?_le hs, Json.listOf?_forall (fun _ _ => MemberReport.bounded_of_ofJson?) hm⟩
  · cases h

end ConstantBufferReport

namespace ResourceReport

theorem wellFormed_toJson (r : ResourceReport) : r.toJson.WellFormed := by
  refine wellFormed_presentFields ?_
  simp [Json.wellFormed_ofText, Json.wellFormed_ofNat]

theorem ofJson?_toJson {r : ResourceReport} (h : r.arraySize ≤ maxElements) : ofJson? r.toJson = some r := by
  have hfields : r.toJson.record? fieldNames = some _ := record?_presentFields rfl (by decide)
  rw [ofJson?, hfields]
  simp [Json.text?_ofText, Json.natural?_ofNat h, Json.optional?_map_ofText]

theorem arraySize_le_of_ofJson? {v : Json} {r : ResourceReport} (h : ofJson? v = some r) :
    r.arraySize ≤ maxElements := by
  obtain ⟨values, -, h⟩ := Option.bind_eq_some_iff.1 h
  split at h
  · simp only [Option.bind_eq_bind, Option.bind_eq_some_iff, Option.pure_def, Option.some.injEq] at h
    obtain ⟨_, -, _, -, _, -, _, -, _, -, _, -, _, he, _, -, rfl⟩ := h
    exact Json.natural?_le he
  · cases h

end ResourceReport

namespace FunctionReport

theorem wellFormed_toJson (f : FunctionReport) : f.toJson.WellFormed := by
  have hreturn : ((f.returnType.map Json.ofText).getD .null).WellFormed := by
    cases f.returnType with
    | none => simp [Json.WellFormed]
    | some name => exact Json.wellFormed_ofText name
  refine wellFormed_presentFields ?_
  simp [Json.wellFormed_ofText, hreturn, Json.wellFormed_array MemberReport.wellFormed_toJson]

theorem ofJson?_toJson {f : FunctionReport} (h : ∀ m ∈ f.parameters, m.Bounded) : ofJson? f.toJson = some f := by
  have hfields : f.toJson.record? fieldNames = some _ := record?_presentFields rfl (by decide)
  have hparameters := Json.listOf?_map fun m hm => MemberReport.ofJson?_toJson (h m hm)
  rw [ofJson?, hfields]
  simp [Json.text?_ofText, Json.optional?_getD_null, Json.optional?_map_ofText, hparameters]

theorem bounded_of_ofJson? {v : Json} {f : FunctionReport} (h : ofJson? v = some f) :
    ∀ m ∈ f.parameters, m.Bounded := by
  obtain ⟨values, -, h⟩ := Option.bind_eq_some_iff.1 h
  split at h
  · simp only [Option.bind_eq_bind, Option.bind_eq_some_iff, Option.pure_def, Option.some.injEq] at h
    obtain ⟨_, -, _, -, _, -, _, -, _, -, _, hp, rfl⟩ := h
    exact Json.listOf?_forall (fun _ _ => MemberReport.bounded_of_ofJson?) hp
  · cases h

end FunctionReport

/-! ## Reports -/

namespace Report

/-- Every number of a report fits into a document: sizes into 64 bits, and numbers of elements into 32. -/
structure Bounded (r : Report) : Prop where
  structs : ∀ s ∈ r.structs, s.Bounded
  constantBuffers : ∀ b ∈ r.constantBuffers, b.Bounded
  resources : ∀ s ∈ r.resources, s.arraySize ≤ maxElements
  parameters : ∀ f ∈ r.functions, ∀ m ∈ f.parameters, m.Bounded

theorem wellFormed_toJson (r : Report) : r.toJson.WellFormed := by
  refine wellFormed_presentFields ?_
  simp [Json.wellFormed_array StructReport.wellFormed_toJson, Json.wellFormed_array ConstantBufferReport.wellFormed_toJson,
    Json.wellFormed_array ResourceReport.wellFormed_toJson, Json.wellFormed_array FunctionReport.wellFormed_toJson]

theorem ofJson?_toJson {r : Report} (h : r.Bounded) : ofJson? r.toJson = some r := by
  have hfields : r.toJson.record? fieldNames = some _ := record?_presentFields rfl (by decide)
  have hstructs := Json.listOf?_map fun s hs => StructReport.ofJson?_toJson (h.structs s hs)
  have hbuffers := Json.listOf?_map fun b hb => ConstantBufferReport.ofJson?_toJson (h.constantBuffers b hb)
  have hresources := Json.listOf?_map fun s hs => ResourceReport.ofJson?_toJson (h.resources s hs)
  have hfunctions := Json.listOf?_map fun f hf => FunctionReport.ofJson?_toJson (h.parameters f hf)
  rw [ofJson?, hfields]
  simp [hstructs, hbuffers, hresources, hfunctions]

theorem bounded_of_ofJson? {v : Json} {r : Report} (h : ofJson? v = some r) : r.Bounded := by
  obtain ⟨values, -, h⟩ := Option.bind_eq_some_iff.1 h
  split at h
  · simp only [Option.bind_eq_bind, Option.bind_eq_some_iff, Option.pure_def, Option.some.injEq] at h
    obtain ⟨_, -, _, hs, _, -, _, hb, _, -, _, hr, _, -, _, hf, rfl⟩ := h
    constructor
    · exact Json.listOf?_forall (fun _ _ => StructReport.bounded_of_ofJson?) hs
    · exact Json.listOf?_forall (fun _ _ => ConstantBufferReport.bounded_of_ofJson?) hb
    · exact Json.listOf?_forall (fun _ _ => ResourceReport.arraySize_le_of_ofJson?) hr
    · exact Json.listOf?_forall (fun _ _ => FunctionReport.bounded_of_ofJson?) hf
  · cases h

theorem read_print {r : Report} (h : r.Bounded) : read r.print = .ok r := by
  rw [read, print, String.toList_ofList, Json.read?_pretty r.wellFormed_toJson, Option.bind_some, ofJson?_toJson h]

theorem bounded_of_read {document : String} {r : Report} (h : read document = .ok r) : r.Bounded := by
  unfold read at h
  split at h
  · next r' hr =>
    obtain rfl := Except.ok.inj h
    obtain ⟨v, -, hv⟩ := Option.bind_eq_some_iff.1 hr
    exact bounded_of_ofJson? hv
  · cases h

/-- A report whose numbers fit into a document is read back from the text that it is printed as, whatever its texts
are and however long its lists. All that is ever read from a document fits, so it is printed in the same way again
after it was printed and read. -/
theorem reports_read_back :
    (∀ r : Report, r.Bounded → read r.print = .ok r) ∧
    ∀ (document : String) (r : Report), read document = .ok r →
      r.Bounded ∧ (read r.print).map print = .ok r.print := by
  refine ⟨fun r => read_print, fun document r h => ⟨bounded_of_read h, ?_⟩⟩
  rw [read_print (bounded_of_read h)]
  rfl

/-- Names with quotes and control characters, numbers as large as they may be, and a document that is laid out
differently from a printed one. -/
theorem reports_read_back_sample :
    let member : MemberReport := ⟨"\"\\\n\x01é", "float", none, maxElements, maxSize⟩
    let r : Report := ⟨[⟨"S", maxSize, [member]⟩], [⟨"C", some "b0", 0, []⟩], [⟨"t", "Buffer", some "S", 1, none⟩],
      [⟨"f", none, none, [member]⟩, ⟨"g", some "S", some "SV_Target", []⟩]⟩
    let document := "[[], [], [[\"\\u0074\", \"Buffer\", null, 1]], []]"
    let s : Report := ⟨[], [], [⟨"t", "Buffer", none, 1, none⟩], []⟩
    r.Bounded ∧ read r.print = .ok r ∧ read document = .ok s ∧ s.Bounded ∧
      (read s.print).map print = .ok s.print := by
  intro member r document s
  have hmember : member.Bounded := ⟨Nat.le_refl _, Nat.le_refl _⟩
  have hr : r.Bounded := by
    constructor
    · exact List.forall_mem_singleton.2 ⟨Nat.le_refl _, List.forall_mem_singleton.2 hmember⟩
    · exact List.forall_mem_singleton.2 ⟨by decide, nofun⟩
    · exact List.forall_mem_singleton.2 (by decide)
    · exact List.forall_mem_cons.2 ⟨List.forall_mem_singleton.2 hmember, List.forall_mem_singleton.2 nofun⟩
  have hfound : (Json.read? document.toList).bind ofJson? = some s := by decide +kernel
  have hs : read document = .ok s := by rw [read, hfound]
  exact ⟨hr, reports_read_back.1 r hr, hs, reports_read_back.2 document s hs⟩

end Report

end ShaderBuild
