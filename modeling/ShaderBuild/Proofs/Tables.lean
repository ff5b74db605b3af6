import Mathlib.Algebra.GroupWithZero.Nat
import ShaderBuild.Proofs.TypeIndex
import ShaderBuild.Report
/-!
# Tables of types grow

The definition of a struct adds it at the end of a table and leaves the rest as it is. So what a position says
about a type once, its name and its size, it says ever after (`ofMember_of_prefix`), and each struct is made of
types that were there before it (`Defined.structs_members`).
-/

namespace ShaderBuild

/-- A size as it is kept in 64 bits: it is the right one, unless that is too large for them. -/
structure Kept (size exact : Nat) : Prop where
  wrapped : size = exact % UInt64.size
  exact : exact < UInt64.size → size = exact

theorem kept_of_eq {size exact : Nat} (h : size = exact % UInt64.size) : Kept size exact :=
  ⟨h, fun hlt => h.trans (Nat.mod_eq_of_lt hlt)⟩

theorem kept_toNat (a : UInt64) : Kept a.toNat a.toNat := kept_of_eq (Nat.mod_eq_of_lt a.toNat_lt).symm

theorem Kept.add {a b : UInt64} {x y : Nat} (ha : Kept a.toNat x) (hb : Kept b.toNat y) : Kept (a + b).toNat (x + y) :=
  kept_of_eq (by rw [UInt64.toNat_add, ha.wrapped, hb.wrapped, ← Nat.add_mod])

theorem Kept.mul {a b : UInt64} {x y : Nat} (ha : Kept a.toNat x) (hb : Kept b.toNat y) : Kept (a * b).toNat (x * y) :=
  kept_of_eq (by rw [UInt64.toNat_mul, ha.wrapped, hb.wrapped, ← Nat.mul_mod])

/-- A type of this name and size is primitive, or it is one of some structs. -/
def Known (structs : List StructReport) (name : String) (size : Nat) : Prop :=
  (∃ p ∈ TypeTable.primitives, p.1 = name ∧ p.2.toNat = size) ∨ ∃ s ∈ structs, s.name = name ∧ s.size = size

/-- The type of a member is known, and its size is that of all its elements together. -/
def MemberReport.Fits (structs : List StructReport) (m : MemberReport) : Prop :=
  ∃ size, Known structs m.typeName size ∧ Kept m.size (m.arraySize * size)

/-- The sizes of some members together. -/
def MemberReport.total (members : List MemberReport) : Nat := (members.map MemberReport.size).sum

namespace TypeTable

variable {t t' : TypeTable} {name : String} {id : TypeId} {d : StructSpec} {members : List Member}

/-- The reports of the structs in a table. -/
def structs (t : TypeTable) : List StructReport := (t.types.filter ShaderType.isComposite).map (.ofType t)

/-! ## Types stay as they are -/

theorem get?_of_prefix (h : t.types <+: t'.types) (hid : id.toNat < t.size) : t'.get? id = t.get? id := by
  obtain ⟨more, hm⟩ := h
  rw [get?, get?, ← hm, List.getElem?_append_left hid]

theorem nameOf_of_prefix (h : t.types <+: t'.types) (hid : id.toNat < t.size) :
    t'.nameOf id = t.nameOf id := by
  rw [nameOf, nameOf, get?_of_prefix h hid]

theorem memberSize_of_prefix (h : t.types <+: t'.types) {m : Member} (hm : m.type.toNat < t.size) :
    t'.memberSize m = t.memberSize m := by
  rw [memberSize, memberSize, sizeOf, sizeOf, get?_of_prefix h hm]

theorem ofMember_of_prefix (h : t.types <+: t'.types) {m : Member} (hm : m.type.toNat < t.size) :
    MemberReport.ofMember t' m = .ofMember t m := by
  rw [MemberReport.ofMember, MemberReport.ofMember, nameOf_of_prefix h hm, memberSize_of_prefix h hm]

theorem ofMembers_of_prefix (h : t.types <+: t'.types) (hc : t.Covers members) :
    members.map (.ofMember t') = members.map (MemberReport.ofMember t) :=
  List.map_congr_left fun m hm => ofMember_of_prefix h (hc m hm)

theorem Covers.mono (h : t.types <+: t'.types) (hc : t.Covers members) : t'.Covers members :=
  fun m hm => Nat.lt_of_lt_of_le (hc m hm) h.length_le

theorem membersSize_cons (t : TypeTable) (m : Member) (ms : List Member) :
    t.membersSize (m :: ms) = t.memberSize m + t.membersSize ms := rfl

/-- The members have their sizes together. -/
theorem kept_membersSize (t : TypeTable) (members : List Member) :
    Kept (t.membersSize members).toNat (MemberReport.total (members.map (.ofMember t))) := by
  induction members with
  | nil => exact kept_of_eq rfl
  | cons m ms ih => exact (kept_toNat (t.memberSize m)).add ih

theorem membersSize_eq_of_initial (h : t.types <+: t'.types) (hc : t.Covers members) :
    t'.membersSize members = t.membersSize members := by
  induction members with
  | nil => rfl
  | cons m ms ih =>
    obtain ⟨hm, hms⟩ := List.forall_mem_cons.1 hc
    rw [membersSize_cons, membersSize_cons, memberSize_of_prefix h hm, ih hms]

/-! ## The structs of a table -/

theorem ofInterface_structs (i : Interface) : (Report.ofInterface i).structs = i.types.structs := by
  have hall : i.types.types.zipIdx.map Prod.fst = i.types.types := List.zipIdx_map_fst 0 _
  rw [structs, ← hall, List.filter_map, List.map_map]
  show (composites _).map _ = _
  rw [composites, List.map_map]
  rfl

theorem mem_structs {s : StructReport} :
    s ∈ t.structs ↔ ∃ type ∈ t.types, type.isComposite = true ∧ StructReport.ofType t type = s := by
  simp only [structs, List.mem_map, List.mem_filter, and_assoc]

namespace Defined

theorem prefix_primitive (h : t.Defined) : primitive.types <+: t.types := by
  induction h with
  | initial => exact List.prefix_refl _
  | define _ hd ih => exact ih.trans (prefix_define hd)

/-- A type that is no struct is primitive. -/
theorem basic (h : t.Defined) {size : UInt64} (hb : .basic name size ∈ t.types) : (name, size) ∈ primitives := by
  induction h with
  | initial =>
    rw [types_primitive] at hb
    obtain ⟨p, hp, he⟩ := List.mem_map.1 hb
    obtain ⟨rfl, rfl⟩ := ShaderType.basic.inj he
    exact hp
  | define _ hd ih =>
    obtain ⟨-, members, -, -, rfl⟩ := define_eq_some.1 hd
    rcases List.mem_append.1 hb with hb | hb
    · exact ih hb
    · cases List.mem_singleton.1 hb

/-- Structs are made of types in the table. -/
theorem covers (h : t.Defined) {type : ShaderType} (ht : type ∈ t.types) : t.Covers type.members := by
  induction h with
  | initial =>
    rw [types_primitive] at ht
    obtain ⟨p, -, rfl⟩ := List.mem_map.1 ht
    simp [ShaderType.members, Covers]
  | define hbefore hd ih =>
    have hgrows := prefix_define hd
    obtain ⟨-, members, hm, -, rfl⟩ := define_eq_some.1 hd
    rcases List.mem_append.1 ht with ht | ht
    · exact (ih ht).mono hgrows
    · rw [List.mem_singleton.1 ht]
      exact (hbefore.inStep.covers_of_resolveAll? hm).mono hgrows

theorem structs_primitive : TypeTable.primitive.structs = [] := by
  rw [structs, List.map_eq_nil_iff, List.filter_eq_nil_iff]
  intro type ht
  rw [types_primitive] at ht
  obtain ⟨p, -, rfl⟩ := List.mem_map.1 ht
  exact Bool.false_ne_true

/-- A struct is reported after those that were there before it, which are reported as before. -/
theorem structs_define (h : t.Defined) (hd : t.define d = (some id, t')) :
    ∃ members, t.Covers members ∧
      t'.structs = t.structs ++ [⟨d.name, (t.membersSize members).toNat, members.map (.ofMember t)⟩] := by
  have hgrows := prefix_define hd
  obtain ⟨-, members, hm, -, rfl⟩ := define_eq_some.1 hd
  have hcovers := h.inStep.covers_of_resolveAll? hm
  refine ⟨members, hcovers, ?_⟩
  rw [structs, types_insert, List.filter_append, List.map_append]
  congr 1
  · refine List.map_congr_left fun type ht => ?_
    rw [StructReport.ofType, StructReport.ofType, ofMembers_of_prefix hgrows (h.covers (List.mem_filter.1 ht).1)]
  · have hlast : (.composite d.name members (t.membersSize members) : ShaderType).isComposite = true := rfl
    rw [List.filter_cons_of_pos hlast, List.filter_nil, List.map_singleton, StructReport.ofType]
    simp only [ShaderType.members, ofMembers_of_prefix hgrows hcovers]
    rfl

/-- A type in the table is known by its name and size. -/
theorem known (h : t.Defined) (hid : id.toNat < t.size) :
    Known t.structs (t.nameOf id) (t.sizeOf id).toNat := by
  obtain ⟨type, hget⟩ : ∃ type, t.get? id = some type := ⟨_, List.getElem?_eq_getElem hid⟩
  have hmem : type ∈ t.types := List.mem_of_getElem? hget
  rw [nameOf, sizeOf, hget]
  cases type with
  | basic name size => exact .inl ⟨_, h.basic hmem, rfl, rfl⟩
  | composite name members size => exact .inr ⟨_, mem_structs.2 ⟨_, hmem, rfl, rfl⟩, rfl, rfl⟩

theorem fits (h : t.Defined) {m : Member} (hm : m.type.toNat < t.size) : (MemberReport.ofMember t m).Fits t.structs :=
  ⟨(t.sizeOf m.type).toNat, h.known hm, by
    rw [Nat.mul_comm]
    exact (kept_toNat (t.sizeOf m.type)).mul (kept_toNat m.arraySize.toUInt64)⟩

theorem fits_all (h : t.Defined) (hc : t.Covers members) :
    ∀ m ∈ members.map (MemberReport.ofMember t), m.Fits t.structs :=
  List.forall_mem_map.2 fun m hm => h.fits (hc m hm)

/-! ## What the structs of a table are like -/

theorem name_mem_structs {s : StructReport} (hs : s ∈ t.structs) : ∃ type ∈ t.types, type.name = s.name := by
  obtain ⟨type, ht, -, rfl⟩ := mem_structs.1 hs
  exact ⟨type, ht, rfl⟩

/-- No two structs have the same name. -/
theorem structs_distinct (h : t.Defined) : (t.structs.map StructReport.name).Nodup := by
  induction h with
  | initial => simp [structs_primitive]
  | define ht hd ih =>
    obtain ⟨members, -, hs⟩ := ht.structs_define hd
    have hnew := ht.inStep.contains_eq_false.1 (define_eq_some.1 hd).1
    rw [hs, List.map_append, List.map_singleton, List.nodup_append]
    refine ⟨ih, List.pairwise_singleton _ _, fun n hn n' hn' => ?_⟩
    obtain ⟨s, hsm, rfl⟩ := List.mem_map.1 hn
    obtain ⟨type, htype, hname⟩ := name_mem_structs hsm
    rw [List.mem_singleton.1 hn', ← hname]
    exact hnew type htype

/-- No struct has the name of a primitive type. -/
theorem structs_new (h : t.Defined) : ∀ s ∈ t.structs, ∀ p ∈ primitives, s.name ≠ p.1 := by
  induction h with
  | initial => simp [structs_primitive]
  | define ht hd ih =>
    obtain ⟨members, -, hs⟩ := ht.structs_define hd
    have hnew := ht.inStep.contains_eq_false.1 (define_eq_some.1 hd).1
    rw [hs, List.forall_mem_append]
    refine ⟨ih, List.forall_mem_singleton.2 fun p hp => ?_⟩
    have hprimitive : .basic p.1 p.2 ∈ primitive.types := types_primitive ▸ List.mem_map_of_mem hp
    exact (hnew _ (ht.prefix_primitive.subset hprimitive)).symm

/-- The members of a struct have primitive types, or structs that come before it. -/
theorem structs_members (h : t.Defined) : ∀ earlier s later, t.structs = earlier ++ s :: later →
    ∀ m ∈ s.members, m.Fits earlier := by
  induction h with
  | initial => simp [structs_primitive]
  | define ht hd ih =>
    obtain ⟨members, hcovers, hs⟩ := ht.structs_define hd
    intro earlier s later he
    rw [hs] at he
    rcases List.eq_nil_or_concat later with rfl | ⟨later, last, rfl⟩
    · obtain ⟨rfl, hlast⟩ := List.append_inj' he rfl
      obtain rfl := (List.cons.inj hlast).1
      exact ht.fits_all hcovers
    · rw [List.concat_eq_append, ← List.cons_append, ← List.append_assoc] at he
      exact ih earlier s later (List.append_inj' he rfl).1

/-- A struct is as large as its members together. -/
theorem structs_size (h : t.Defined) : ∀ s ∈ t.structs, Kept s.size (MemberReport.total s.members) := by
  induction h with
  | initial => simp [structs_primitive]
  | define ht hd ih =>
    obtain ⟨members, -, hs⟩ := ht.structs_define hd
    rw [hs, List.forall_mem_append]
    exact ⟨ih, List.forall_mem_singleton.2 (kept_membersSize _ _)⟩

end Defined

end TypeTable

end ShaderBuild
