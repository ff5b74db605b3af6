import Mathlib.Data.List.Nodup
import ShaderBuild.TypeTable
/-!
# Tables and their indexes stay in step

A type is added to a table and to its index at once, and only under a name that is not entered. So the types of a table
have different names, and under each name is entered the position of the type that has it (`InStep`). Definitions keep
it so (`Defined.inStep`). A definition that succeeds adds one struct at the end (`define_eq_some`), and one that fails
leaves the table as it is (`define_of_none`).
-/

namespace ShaderBuild.TypeTable

variable {t t' : TypeTable} {name : String} {type : ShaderType} {id : TypeId} {spec : MemberSpec}
  {specs : List MemberSpec} {m : Member} {members : List Member} {d : StructSpec}

/-- The types have different names, and under each name is entered the position of the type that has it. There are no
other entries. -/
structure InStep (t : TypeTable) : Prop where
  distinct : (t.types.map ShaderType.name).Nodup
  entered : ∀ name id, t.idOf? name = some id ↔
    ∃ i type, t.types[i]? = some type ∧ type.name = name ∧ id = .ofNat i
  length : t.index.length = t.size

/-- The types of some members are in a table. -/
def Covers (t : TypeTable) (members : List Member) : Prop := ∀ m ∈ members, m.type.toNat < t.size

/-- The tables that the definitions of structs lead to. -/
inductive Defined : TypeTable → Prop
  | initial : Defined .primitive
  | define {t t' : TypeTable} {d : StructSpec} {id : TypeId} (before : Defined t)
      (definition : t.define d = (some id, t')) : Defined t'

/-! ## One more type -/

@[simp] theorem types_insert (t : TypeTable) (type : ShaderType) : (t.insert type).2.types = t.types ++ [type] := rfl

theorem prefix_insert (t : TypeTable) (type : ShaderType) : t.types <+: (t.insert type).2.types :=
  List.prefix_append _ _

theorem idOf?_insert (t : TypeTable) (type : ShaderType) (name : String) :
    (t.insert type).2.idOf? name = if name = type.name then some (.ofNat t.size) else t.idOf? name := by
  by_cases h : name = type.name
  · simp [insert, idOf?, h]
  · simp [insert, idOf?, List.lookup_cons, h, beq_eq_false_iff_ne.2 h]

theorem contains_insert (t : TypeTable) (type : ShaderType) (name : String) :
    (t.insert type).2.contains name = (decide (name = type.name) || t.contains name) := by
  rw [contains, idOf?_insert]
  split_ifs with h <;> simp [h, contains]

theorem getElem?_concat_eq_some {ts : List ShaderType} {last : ShaderType} {i : Nat} :
    (ts ++ [last])[i]? = some type ↔ ts[i]? = some type ∨ i = ts.length ∧ last = type := by
  rcases Nat.lt_trichotomy i ts.length with hlt | rfl | hgt
  · simp [List.getElem?_append_left hlt, Nat.ne_of_lt hlt]
  · simp
  · have hout : (ts ++ [last]).length ≤ i := by simpa using Nat.succ_le_of_lt hgt
    simp [List.getElem?_eq_none hout, List.getElem?_eq_none (Nat.le_of_lt hgt), Nat.ne_of_gt hgt]

/-- Members are resolved one after the other. -/
theorem resolveAll?_cons_eq_some : t.resolveAll? (spec :: specs) = some members ↔
    ∃ m ms, t.resolve? spec = some m ∧ t.resolveAll? specs = some ms ∧ m :: ms = members := by
  simp [resolveAll?, List.mapM_cons, Option.bind_eq_some_iff]

section InStep
variable (h : t.InStep)
include h

/-- A name is entered if a type has it. -/
theorem InStep.contains_iff : t.contains name = true ↔ ∃ type ∈ t.types, type.name = name := by
  rw [contains, Option.isSome_iff_exists]
  constructor
  · rintro ⟨id, hid⟩
    obtain ⟨i, type, hget, hname, -⟩ := (h.entered name id).1 hid
    exact ⟨type, List.mem_of_getElem? hget, hname⟩
  · rintro ⟨type, hmem, hname⟩
    obtain ⟨i, hget⟩ := List.mem_iff_getElem?.1 hmem
    exact ⟨_, (h.entered name _).2 ⟨i, type, hget, hname, rfl⟩⟩

theorem InStep.contains_eq_false : t.contains name = false ↔ ∀ type ∈ t.types, type.name ≠ name := by
  rw [← Bool.not_eq_true, h.contains_iff]
  simp only [not_exists, not_and, ne_eq]

/-- The position that is entered is that of the first type of the name. -/
theorem InStep.idOf?_of_contains (hc : t.contains name = true) :
    t.idOf? name = some (.ofNat (t.types.findIdx (·.name == name))) := by
  obtain ⟨type, hmem, hname⟩ := h.contains_iff.1 hc
  have hlt : t.types.findIdx (·.name == name) < t.types.length :=
    List.findIdx_lt_length_of_exists ⟨type, hmem, beq_iff_eq.2 hname⟩
  have hfound : (t.types[t.types.findIdx (·.name == name)].name == name) = true :=
    @List.findIdx_getElem _ (·.name == name) t.types hlt
  exact (h.entered name _).2 ⟨_, _, List.getElem?_eq_getElem hlt, beq_iff_eq.1 hfound, rfl⟩

/-- A position that is entered is in the table, even if it was cut. -/
theorem InStep.idOf?_lt (hid : t.idOf? name = some id) : id.toNat < t.size := by
  obtain ⟨i, type, hget, -, rfl⟩ := (h.entered name id).1 hid
  obtain ⟨hlt, -⟩ := List.getElem?_eq_some_iff.1 hget
  exact Nat.lt_of_le_of_lt (UInt32.toNat_ofNat' ▸ Nat.mod_le i _) hlt

/-- Positions that fit in 32 bits are those of the types. -/
theorem InStep.idOf?_iff_get? (hsize : t.size ≤ UInt32.size) :
    t.idOf? name = some id ↔ ∃ type, t.get? id = some type ∧ type.name = name := by
  rw [h.entered]
  constructor
  · rintro ⟨i, type, hget, hname, rfl⟩
    obtain ⟨hlt, -⟩ := List.getElem?_eq_some_iff.1 hget
    refine ⟨type, ?_, hname⟩
    rwa [get?, UInt32.toNat_ofNat_of_lt' (Nat.lt_of_lt_of_le hlt hsize)]
  · rintro ⟨type, hget, hname⟩
    exact ⟨id.toNat, type, hget, hname, UInt32.ofNat_toNat.symm⟩

theorem InStep.resolve?_lt (hm : t.resolve? spec = some m) : m.type.toNat < t.size := by
  obtain ⟨id, hid, rfl⟩ := Option.map_eq_some_iff.1 hm
  exact h.idOf?_lt hid

theorem InStep.covers_of_resolveAll? (hm : t.resolveAll? specs = some members) : t.Covers members := by
  induction specs generalizing members with
  | nil =>
    obtain rfl : [] = members := Option.some.inj hm
    simp [Covers]
  | cons spec specs ih =>
    obtain ⟨m, ms, hfirst, hrest, rfl⟩ := resolveAll?_cons_eq_some.1 hm
    exact List.forall_mem_cons.2 ⟨h.resolve?_lt hfirst, ih hrest⟩

/-- A type with a new name keeps the table and the index in step. -/
theorem InStep.insert (hn : t.contains type.name = false) : (t.insert type).2.InStep := by
  have hnew := h.contains_eq_false.1 hn
  refine ⟨?_, fun name id => ?_, congrArg Nat.succ h.length |>.trans (by simp [size])⟩
  · rw [types_insert, List.map_append, List.map_singleton, ← List.concat_eq_append]
    refine h.distinct.concat fun hmem => ?_
    obtain ⟨old, hold, hname⟩ := List.mem_map.1 hmem
    exact hnew old hold hname
  rw [idOf?_insert, types_insert]
  constructor
  · intro hid
    split_ifs at hid with hname
    · exact ⟨t.size, type, List.getElem?_concat_length, hname.symm, (Option.some.inj hid).symm⟩
    · obtain ⟨i, old, hold, hrest⟩ := (h.entered name id).1 hid
      exact ⟨i, old, getElem?_concat_eq_some.2 (.inl hold), hrest⟩
  · rintro ⟨i, found, hfound, rfl, rfl⟩
    rcases getElem?_concat_eq_some.1 hfound with hold | ⟨rfl, rfl⟩
    · rw [if_neg (hnew found (List.mem_of_getElem? hold))]
      exact (h.entered _ _).2 ⟨i, found, hold, rfl, rfl⟩
    · exact if_pos rfl

end InStep

/-! ## The primitive types -/

theorem inStep_withPrimitives {primitives : List (String × UInt64)} (h : t.InStep)
    (hd : (primitives.map Prod.fst).Nodup) (hn : ∀ p ∈ primitives, t.contains p.1 = false) :
    (t.withPrimitives primitives).InStep := by
  induction primitives generalizing t with
  | nil => exact h
  | cons p ps ih =>
    obtain ⟨hnew, hd⟩ := List.nodup_cons.1 hd
    refine ih (h.insert (hn p List.mem_cons_self)) hd fun q hq => ?_
    have hne : q.1 ≠ p.1 := fun he => hnew (he ▸ List.mem_map_of_mem hq)
    rw [contains_insert, hn q (List.mem_cons_of_mem p hq), Bool.or_false]
    exact decide_eq_false hne

theorem inStep_primitive : primitive.InStep := by
  have hempty : InStep {} := ⟨List.nodup_nil, by simp [idOf?], rfl⟩
  exact inStep_withPrimitives hempty (by decide) fun _ _ => rfl

theorem types_withPrimitives (t : TypeTable) (primitives : List (String × UInt64)) :
    (t.withPrimitives primitives).types = t.types ++ primitives.map fun (name, size) => .basic name size := by
  induction primitives generalizing t with
  | nil => exact (List.append_nil _).symm
  | cons p ps ih =>
    rw [withPrimitives, List.foldl_cons, ← withPrimitives, ih, types_insert, List.append_assoc]
    rfl

theorem types_primitive : primitive.types = primitives.map fun (name, size) => .basic name size :=
  types_withPrimitives {} primitives

/-! ## Definitions -/

/-- A definition that succeeds adds a struct with a new name, and members of types that are known. -/
theorem define_eq_some : t.define d = (some id, t') ↔ t.contains d.name = false ∧
    ∃ members, t.resolveAll? d.members = some members ∧ id = .ofNat t.size ∧
      t' = (t.insert (.composite d.name members (t.membersSize members))).2 := by
  unfold define
  cases t.contains d.name with
  | true => simp
  | false => cases t.resolveAll? d.members <;> simp [insert, eq_comm]

/-- A definition fails if the name is taken, or if the type of a member is unknown. -/
theorem define_eq_none : (t.define d).1 = none ↔ t.contains d.name = true ∨ t.resolveAll? d.members = none := by
  unfold define
  cases t.contains d.name with
  | true => simp
  | false => cases t.resolveAll? d.members <;> simp

/-- A definition that fails changes nothing. -/
theorem define_of_none (h : (t.define d).1 = none) : (t.define d).2 = t := by
  unfold define at h ⊢
  split
  · rfl
  · next hn =>
    rw [if_neg hn] at h
    split at h
    · rfl
    · cases h

theorem prefix_define (h : t.define d = (some id, t')) : t.types <+: t'.types := by
  obtain ⟨-, members, -, -, rfl⟩ := define_eq_some.1 h
  exact prefix_insert t _

/-- A name that is entered stays with its position. -/
theorem idOf?_define (h : t.define d = (some id, t')) {old : TypeId} (hold : t.idOf? name = some old) :
    t'.idOf? name = some old := by
  obtain ⟨hn, members, -, -, rfl⟩ := define_eq_some.1 h
  rw [idOf?_insert, if_neg, hold]
  rintro rfl
  exact Bool.false_ne_true (hn.symm.trans (Option.isSome_of_eq_some hold))

theorem InStep.define (h : t.InStep) (hd : t.define d = (some id, t')) : t'.InStep := by
  obtain ⟨hn, members, -, -, rfl⟩ := define_eq_some.1 hd
  exact h.insert hn

theorem Defined.inStep (h : t.Defined) : t.InStep := by
  induction h with
  | initial => exact inStep_primitive
  | define _ hd ih => exact ih.define hd

/-- Members can be resolved if all their types are there. -/
theorem isSome_resolveAll? (t : TypeTable) (specs : List MemberSpec) :
    (t.resolveAll? specs).isSome ↔ ∀ spec ∈ specs, t.contains spec.typeName = true := by
  rw [resolveAll?]
  induction specs with
  | nil => simp
  | cons spec specs ih =>
    rw [List.forall_mem_cons, ← ih, contains, List.mapM_cons]
    cases hid : t.idOf? spec.typeName <;> cases hms : List.mapM t.resolve? specs <;> simp [resolve?, hid]

end ShaderBuild.TypeTable
