import Mathlib.Algebra.BigOperators.Ring.List
import Mathlib.Algebra.Ring.Nat
import Mathlib.Data.List.Nodup
import ShaderBuild.Proofs.Definitions
/-!
# Sizes of structs

The size of a struct is computed once, from the sizes of the types of its members, when it is defined. Proven here: it
is the size of all the primitive types that the struct is made of in the end (`sizes_are_flattened`), as far as 64 bits
can hold it (`Kept`). A primitive type occurs in a type at the end of a path of members (`Occurs`), as often as the
arrays on the way have elements.
-/

namespace ShaderBuild

/-- A primitive type inside of something that has members. -/
structure Occurrence where
  /-- The members on the way to it, outermost first: the position of each and the number of its elements. -/
  path : List (Nat × Nat)
  name : String
  size : Nat
  deriving DecidableEq, Repr

namespace Occurrence

/-- The same in the member at a position, seen from the outside. -/
def within (o : Occurrence) (position elements : Nat) : Occurrence := { o with path := (position, elements) :: o.path }

/-- The size of all the elements that the arrays on the way make of it. -/
def bytes (o : Occurrence) : Nat := o.size * (o.path.map Prod.snd).prod

theorem bytes_within (o : Occurrence) (position elements : Nat) :
    (o.within position elements).bytes = o.bytes * elements := by
  rw [bytes, within, List.map_cons, List.prod_cons, Nat.mul_comm elements, ← Nat.mul_assoc, bytes]

theorem within_injective (position elements : Nat) : Function.Injective (within · position elements) := by
  rintro ⟨path, name, size⟩ ⟨path', name', size'⟩ h
  simpa [within] using h

end Occurrence

namespace TypeTable

variable {t t' : TypeTable} {id : TypeId} {type : ShaderType} {members : List Member} {o : Occurrence}

/-- A primitive type occurs in itself, and in a struct where it occurs in one of the members. -/
inductive Occurs (t : TypeTable) : TypeId → Occurrence → Prop
  | primitive {id : TypeId} {name : String} {size : UInt64} (type : t.get? id = some (.basic name size)) :
      Occurs t id ⟨[], name, size.toNat⟩
  | member {id : TypeId} {name : String} {members : List Member} {size : UInt64} {position : Nat} {m : Member}
      {o : Occurrence} (type : t.get? id = some (.composite name members size)) (member : members[position]? = some m)
      (inside : Occurs t m.type o) : Occurs t id (o.within position m.arraySize.toNat)

/-- A primitive type occurs in some members where it occurs in one of them. Positions are counted from `first` on. -/
def OccursAmong (t : TypeTable) (first : Nat) (members : List Member) (o : Occurrence) : Prop :=
  ∃ position m inner, members[position]? = some m ∧ t.Occurs m.type inner ∧
    o = inner.within (first + position) m.arraySize.toNat

end TypeTable

/-- These occurrences, each counted once, are of some size together. -/
def FlatSize (occurs : Occurrence → Prop) (size : Nat) : Prop :=
  ∃ os : List Occurrence, os.Nodup ∧ (∀ o, o ∈ os ↔ occurs o) ∧ size = (os.map Occurrence.bytes).sum

namespace FlatSize

variable {P Q : Occurrence → Prop} {size size' : Nat}

theorem congr (h : FlatSize P size) (hPQ : ∀ o, P o ↔ Q o) : FlatSize Q size := by
  obtain ⟨os, hd, hmem, hsum⟩ := h
  exact ⟨os, hd, fun o => (hmem o).trans (hPQ o), hsum⟩

theorem none : FlatSize (fun _ => False) 0 := ⟨[], List.nodup_nil, by simp, rfl⟩

/-- Occurrences in the elements of a member. -/
theorem within (h : FlatSize P size) (position elements : Nat) :
    FlatSize (fun o => ∃ inner, P inner ∧ o = inner.within position elements) (size * elements) := by
  obtain ⟨os, hd, hmem, rfl⟩ := h
  refine ⟨os.map (·.within position elements), hd.map (Occurrence.within_injective position elements), fun o => ?_, ?_⟩
  · simp only [List.mem_map, hmem, eq_comm]
  · have hbytes : (Occurrence.bytes ∘ (·.within position elements)) = fun o : Occurrence => o.bytes * elements :=
      funext fun o => o.bytes_within position elements
    rw [List.map_map, hbytes, List.sum_map_mul_right]

/-- Different occurrences add up. -/
theorem add (h : FlatSize P size) (h' : FlatSize Q size') (hd : ∀ o, P o → ¬ Q o) :
    FlatSize (fun o => P o ∨ Q o) (size + size') := by
  obtain ⟨os, hn, hmem, rfl⟩ := h
  obtain ⟨os', hn', hmem', rfl⟩ := h'
  refine ⟨os ++ os', ?_, fun o => by rw [List.mem_append, hmem, hmem'], by rw [List.map_append, List.sum_append]⟩
  refine List.nodup_append.2 ⟨hn, hn', ?_⟩
  rintro o ho _ ho' rfl
  exact hd o ((hmem o).1 ho) ((hmem' o).1 ho')

/-- There is one such size. -/
theorem unique (h : FlatSize P size) (h' : FlatSize P size') : size = size' := by
  obtain ⟨os, hd, hmem, rfl⟩ := h
  obtain ⟨os', hd', hmem', rfl⟩ := h'
  have hperm : os.Perm os' := (List.perm_ext_iff_of_nodup hd hd').2 fun o => (hmem o).trans (hmem' o).symm
  exact (hperm.map Occurrence.bytes).sum_nat

theorem iff_eq (h : FlatSize P size) : FlatSize P size' ↔ size' = size :=
  ⟨fun h' => h'.unique h, fun he => he ▸ h⟩

end FlatSize

/-- These occurrences together are of this size, which is kept in 64 bits. -/
def AmountsTo (occurs : Occurrence → Prop) (size : UInt64) : Prop :=
  ∃ exact, FlatSize occurs exact ∧ Kept size.toNat exact

namespace AmountsTo

variable {P Q : Occurrence → Prop} {size : UInt64}

theorem congr (h : AmountsTo P size) (hPQ : ∀ o, P o ↔ Q o) : AmountsTo Q size := by
  obtain ⟨exact, hsize, hkept⟩ := h
  exact ⟨exact, hsize.congr hPQ, hkept⟩

theorem exists_exact (h : AmountsTo P size) : ∃ exact, (∀ size, FlatSize P size ↔ size = exact) ∧ Kept size.toNat exact := by
  obtain ⟨exact, hsize, hkept⟩ := h
  exact ⟨exact, fun _ => hsize.iff_eq, hkept⟩

end AmountsTo

namespace TypeTable

variable {t t' : TypeTable} {id : TypeId} {type : ShaderType} {members : List Member} {o : Occurrence}

/-! ## Occurrences in members -/

theorem occursAmong_nil (t : TypeTable) (first : Nat) (o : Occurrence) : t.OccursAmong first [] o ↔ False := by
  simp [OccursAmong]

theorem occursAmong_cons (t : TypeTable) (first : Nat) (m : Member) (ms : List Member) (o : Occurrence) :
    t.OccursAmong first (m :: ms) o ↔
      (∃ inner, t.Occurs m.type inner ∧ o = inner.within first m.arraySize.toNat) ∨ t.OccursAmong (first + 1) ms o := by
  constructor
  · rintro ⟨position, m', inner, hm, hin, rfl⟩
    cases position with
    | zero =>
      obtain rfl : m = m' := by simpa using hm
      exact .inl ⟨inner, hin, rfl⟩
    | succ position => exact .inr ⟨position, m', inner, by simpa using hm, hin, by congr 1; omega⟩
  · rintro (⟨inner, hin, rfl⟩ | ⟨position, m', inner, hm, hin, rfl⟩)
    · exact ⟨0, m, inner, rfl, hin, rfl⟩
    · exact ⟨position + 1, m', inner, by simpa using hm, hin, by congr 1; omega⟩

/-- Members have the size of what occurs in them, if their types have. -/
theorem amountsTo_members (h : ∀ m ∈ members, AmountsTo (t.Occurs m.type) (t.sizeOf m.type)) (first : Nat) :
    AmountsTo (t.OccursAmong first members) (t.membersSize members) := by
  induction members generalizing first with
  | nil => exact ⟨0, FlatSize.none.congr fun o => (occursAmong_nil t first o).symm, kept_of_eq rfl⟩
  | cons m ms ih =>
    obtain ⟨size, hsize, hkept⟩ := h m List.mem_cons_self
    obtain ⟨others, hothers, hkeptOthers⟩ := ih (fun m' hm' => h m' (List.mem_cons_of_mem m hm')) (first + 1)
    have hm := hsize.within first m.arraySize.toNat
    refine ⟨size * m.arraySize.toNat + others, ?_, (hkept.mul (kept_toNat m.arraySize.toUInt64)).add hkeptOthers⟩
    -- The paths into the first member begin with its position, and those into the others with later ones.
    refine (hm.add hothers ?_).congr fun o => (occursAmong_cons t first m ms o).symm
    rintro _ ⟨inner, -, rfl⟩ ⟨position, m', inner', -, -, heq⟩
    have hfirst : first = first + 1 + position := (Prod.mk.inj (List.cons.inj (Occurrence.mk.inj heq).1).1).1
    omega

/-! ## Occurrences in types -/

theorem occurs_basic {name : String} {size : UInt64} (h : t.get? id = some (.basic name size)) :
    t.Occurs id o ↔ o = ⟨[], name, size.toNat⟩ := by
  constructor
  · intro ho
    cases ho with
    | primitive hget =>
      obtain ⟨rfl, rfl⟩ := ShaderType.basic.inj (Option.some.inj (hget.symm.trans h))
      rfl
    | member hget => cases hget.symm.trans h
  · rintro rfl
    exact .primitive h

theorem occurs_composite {name : String} {size : UInt64} (h : t.get? id = some (.composite name members size)) :
    t.Occurs id o ↔ t.OccursAmong 0 members o := by
  constructor
  · intro ho
    cases ho with
    | primitive hget => cases hget.symm.trans h
    | @member _ _ members' _ position m inner hget hm hin =>
      obtain ⟨-, rfl, -⟩ := ShaderType.composite.inj (Option.some.inj (hget.symm.trans h))
      exact ⟨position, m, inner, hm, hin, by rw [Nat.zero_add]⟩
  · rintro ⟨position, m, inner, hm, hin, rfl⟩
    rw [Nat.zero_add]
    exact .member h hm hin

/-- The size that a struct was given is that of its members. -/
theorem Defined.size_eq (h : t.Defined) {name : String} {size : UInt64}
    (hmem : .composite name members size ∈ t.types) : size = t.membersSize members := by
  induction h with
  | initial => simp [types_primitive] at hmem
  | @define t _ _ _ ht hd ih =>
    have hgrows := prefix_define hd
    obtain ⟨-, resolved, hm, -, rfl⟩ := define_eq_some.1 hd
    rcases List.mem_append.1 hmem with hmem | hmem
    · have hcovers : t.Covers members := ht.covers hmem
      rw [ih hmem, membersSize_eq_of_initial hgrows hcovers]
    · obtain ⟨rfl, rfl, rfl⟩ := ShaderType.composite.inj (List.mem_singleton.1 hmem)
      have hsame := membersSize_eq_of_initial hgrows (ht.inStep.covers_of_resolveAll? hm)
      exact hsame.symm

theorem sizeOf_eq (hget : t.get? id = some type) : t.sizeOf id = type.size := by rw [sizeOf, hget]; rfl

/-- A type has the size of what occurs in it. -/
theorem Defined.amountsTo (h : t.Defined) (hid : id.toNat < t.size) : AmountsTo (t.Occurs id) (t.sizeOf id) := by
  -- by induction on the position, as members have types that come before
  induction hn : id.toNat using Nat.strongRecOn generalizing id with
  | _ n ih =>
    subst hn
    obtain ⟨type, hget⟩ : ∃ type, t.get? id = some type := ⟨_, List.getElem?_eq_getElem hid⟩
    rw [sizeOf_eq hget]
    cases type with
    | basic name size =>
      refine ⟨size.toNat, ⟨[⟨[], name, size.toNat⟩], List.nodup_singleton _, fun o => ?_, ?_⟩, kept_toNat size⟩
      · rw [List.mem_singleton, occurs_basic hget]
      · simp [Occurrence.bytes]
    | composite name members size =>
      have hcovers : t.Covers members := h.covers (List.mem_of_getElem? hget)
      have hmembers : ∀ m ∈ members, AmountsTo (t.Occurs m.type) (t.sizeOf m.type) := fun m hm =>
        ih m.type.toNat (h.members_lt hget m hm) (hcovers m hm) rfl
      rw [ShaderType.size, h.size_eq (List.mem_of_getElem? hget)]
      exact (amountsTo_members hmembers 0).congr fun o => (occurs_composite hget).symm

theorem Defined.amountsTo_members (h : t.Defined) (hc : t.Covers members) :
    AmountsTo (t.OccursAmong 0 members) (t.membersSize members) :=
  TypeTable.amountsTo_members (fun m hm => h.amountsTo (hc m hm)) 0

/-! ## Later definitions -/

theorem occurs_of_prefix (h : t.Defined) (hg : t.types <+: t'.types) (hid : id.toNat < t.size) :
    t'.Occurs id o ↔ t.Occurs id o := by
  have hsame {id : TypeId} (hid : id.toNat < t.size) : t'.get? id = t.get? id := get?_of_prefix hg hid
  constructor
  · intro ho
    induction ho with
    | primitive hget => exact .primitive (hsame hid ▸ hget)
    | @member id _ _ _ _ m _ hget hm _ ih =>
      rw [hsame hid] at hget
      exact .member hget hm (ih (h.covers (List.mem_of_getElem? hget) m (List.mem_of_getElem? hm)))
  · intro ho
    induction ho with
    | primitive hget => exact .primitive ((hsame hid).trans hget)
    | @member id _ _ _ _ m _ hget hm _ ih =>
      exact .member ((hsame hid).trans hget) hm
        (ih (h.covers (List.mem_of_getElem? hget) m (List.mem_of_getElem? hm)))

/-- In a table that definitions lead to, some of which may have failed, a type has the size of the primitive types that
occur in it, each as often as the arrays on the way to it have elements. So do members that refer to the table. The
sizes are kept in 64 bits, so they are right unless they are too large for them. And whatever is defined later, neither
the sizes nor the occurrences change. -/
theorem sizes_are_flattened (ds : List StructSpec) :
    let t := primitive.after ds
    (∀ id : TypeId, id.toNat < t.size → ∃ exact, (∀ size, FlatSize (t.Occurs id) size ↔ size = exact) ∧
        Kept (t.sizeOf id).toNat exact) ∧
      (∀ specs members, t.resolveAll? specs = some members →
        ∃ exact, (∀ size, FlatSize (t.OccursAmong 0 members) size ↔ size = exact) ∧
          Kept (t.membersSize members).toNat exact) ∧
      ∀ more : List StructSpec, let later := primitive.after (ds ++ more)
        ∀ id : TypeId, id.toNat < t.size →
          later.sizeOf id = t.sizeOf id ∧ ∀ o, later.Occurs id o ↔ t.Occurs id o := by
  intro t
  have hdefined : t.Defined := Defined.initial.after ds
  refine ⟨fun id hid => (hdefined.amountsTo hid).exists_exact, fun specs members hm => ?_, fun more => ?_⟩
  · exact (hdefined.amountsTo_members (hdefined.inStep.covers_of_resolveAll? hm)).exists_exact
  · intro later id hid
    have hlater : later = t.after more := after_append primitive ds more
    have hgrows : t.types <+: later.types := hlater ▸ prefix_after t more
    exact ⟨by rw [sizeOf, sizeOf, get?_of_prefix hgrows hid], fun o => occurs_of_prefix hdefined hgrows hid⟩

/-- An array in an array, an array without elements and a struct without members. -/
example :
    let t := primitive.after [⟨"A", [⟨"float2", "x", none, 3⟩]⟩, ⟨"E", []⟩,
      ⟨"B", [⟨"A", "a", none, 2⟩, ⟨"int", "n", none, 1⟩, ⟨"A", "z", none, 0⟩, ⟨"E", "e", none, 5⟩]⟩]
    t.sizeOf 25 = 2 * (3 * 8) + 4 := by decide

end TypeTable

end ShaderBuild
