import Mathlib.Data.List.Forall2
import Mathlib.Logic.Relation
import ShaderBuild.Proofs.Tables
/-!
# Structs that are defined one after another

Whatever structs are defined one after another, some of them without success, a table and its index stay in step. Its
structs are those whose definitions succeeded, each with the members that its types stand for (`Built`). A member refers
to a type that was there before its struct (`Defined.members_lt`), so no type is made of itself. All of this is in
`definitions_sound`.
-/

namespace ShaderBuild.TypeTable

variable {t t' : TypeTable} {name : String} {type : ShaderType} {id : TypeId} {specs : List MemberSpec}
  {members : List Member} {d : StructSpec}

/-- The table after some definitions, of which those that fail are passed over. -/
def after (t : TypeTable) (ds : List StructSpec) : TypeTable := ds.foldl (fun t d => (t.define d).2) t

/-- The definitions that succeed one after another, with the positions that they get. -/
def defined (t : TypeTable) : List StructSpec → List (TypeId × StructSpec)
  | [] => []
  | d :: ds =>
    match t.define d with
    | (none, t) => t.defined ds
    | (some id, t) => (id, d) :: t.defined ds

/-- The type at one place has a member of the type at the other. -/
def MadeOf (t : TypeTable) (i part : Nat) : Prop :=
  ∃ type, t.types[i]? = some type ∧ ∃ m ∈ type.members, m.type.toNat = part

/-- A struct is what its definition says, with the types that the names in it stand for. -/
def Built (t : TypeTable) (c : TypeId × ShaderType) (d : TypeId × StructSpec) : Prop :=
  c.1 = d.1 ∧ ∃ members, t.resolveAll? d.2.members = some members ∧
    c.2 = .composite d.2.name members (t.membersSize members)

/-! ## Definitions that may fail -/

/-- A definition succeeds, or the table stays as it is. -/
theorem define_cases (t : TypeTable) (d : StructSpec) :
    t.define d = (none, t) ∨ ∃ id t', t.define d = (some id, t') := by
  cases hd : (t.define d).1 with
  | none => exact .inl (Prod.ext hd (define_of_none hd))
  | some id => exact .inr ⟨id, _, Prod.ext hd rfl⟩

theorem after_cons (t : TypeTable) (d : StructSpec) (ds : List StructSpec) :
    t.after (d :: ds) = (t.define d).2.after ds := rfl

theorem after_append (t : TypeTable) (ds more : List StructSpec) : t.after (ds ++ more) = (t.after ds).after more :=
  List.foldl_append

theorem Defined.after (h : t.Defined) (ds : List StructSpec) : (t.after ds).Defined := by
  induction ds generalizing t with
  | nil => exact h
  | cons d ds ih =>
    rw [after_cons]
    rcases t.define_cases d with hd | ⟨id, t', hd⟩
    · rw [hd]
      exact ih h
    · rw [hd]
      exact ih (h.define hd)

theorem prefix_after (t : TypeTable) (ds : List StructSpec) : t.types <+: (t.after ds).types := by
  induction ds generalizing t with
  | nil => exact List.prefix_refl _
  | cons d ds ih =>
    rw [after_cons]
    rcases t.define_cases d with hd | ⟨id, t', hd⟩
    · rw [hd]
      exact ih t
    · rw [hd]
      exact (prefix_define hd).trans (ih t')

/-! ## Members come first -/

/-- The members of a struct have types that were there before it. -/
theorem Defined.members_lt (h : t.Defined) {i : Nat} (hget : t.types[i]? = some type) :
    ∀ m ∈ type.members, m.type.toNat < i := by
  induction h generalizing i type with
  | initial =>
    rw [types_primitive] at hget
    obtain ⟨p, -, rfl⟩ := List.mem_map.1 (List.mem_of_getElem? hget)
    simp [ShaderType.members]
  | define hbefore hd ih =>
    obtain ⟨-, members, hm, -, rfl⟩ := define_eq_some.1 hd
    rcases getElem?_concat_eq_some.1 hget with hold | ⟨rfl, rfl⟩
    · exact ih hold
    · exact hbefore.inStep.covers_of_resolveAll? hm

/-- No type is made of itself, however far down. -/
theorem Defined.not_madeOf_self (h : t.Defined) (i : Nat) : ¬ Relation.TransGen t.MadeOf i i := by
  have hdown : ∀ {a b : Nat}, Relation.TransGen t.MadeOf a b → b < a := by
    intro a b hab
    induction hab with
    | single hstep =>
      obtain ⟨type, hget, m, hm, rfl⟩ := hstep
      exact h.members_lt hget m hm
    | tail _ hstep ih =>
      obtain ⟨type, hget, m, hm, rfl⟩ := hstep
      exact Nat.lt_trans (h.members_lt hget m hm) ih
  exact fun hself => Nat.lt_irrefl i (hdown hself)

/-! ## Structs and their definitions -/

/-- Members that were resolved are resolved in the same way later on. -/
theorem resolveAll?_define (h : t.define d = (some id, t')) (hm : t.resolveAll? specs = some members) :
    t'.resolveAll? specs = some members := by
  induction specs generalizing members with
  | nil => exact hm
  | cons spec specs ih =>
    obtain ⟨m, ms, hfirst, hrest, rfl⟩ := resolveAll?_cons_eq_some.1 hm
    obtain ⟨old, hold, hmember⟩ := Option.map_eq_some_iff.1 hfirst
    have hlater : t'.resolve? spec = some m := by rw [resolve?, idOf?_define h hold, Option.map_some, hmember]
    exact resolveAll?_cons_eq_some.2 ⟨m, ms, hlater, ih hrest, rfl⟩

theorem Built.define (h : t.InStep) (hd : t.define d = (some id, t')) {c : TypeId × ShaderType}
    {old : TypeId × StructSpec} (hb : t.Built c old) : t'.Built c old := by
  obtain ⟨hid, members, hm, htype⟩ := hb
  refine ⟨hid, members, resolveAll?_define hd hm, ?_⟩
  rw [htype, membersSize_eq_of_initial (prefix_define hd) (h.covers_of_resolveAll? hm)]

theorem composites_insert (t : TypeTable) (type : ShaderType) :
    (t.insert type).2.composites = t.composites ++ if type.isComposite then [(.ofNat t.size, type)] else [] := by
  simp only [composites, types_insert, size, List.zipIdx_append, List.filter_append, List.map_append,
    List.zipIdx_singleton, Nat.zero_add]
  cases h : type.isComposite <;> simp [h]

/-- A definition that succeeds adds what it says to the structs. -/
theorem composites_define (h : t.InStep) (hd : t.define d = (some id, t')) :
    ∃ c, t'.composites = t.composites ++ [c] ∧ t'.Built c (id, d) := by
  obtain ⟨-, members, hm, rfl, ht⟩ := define_eq_some.1 hd
  have hcovers := h.covers_of_resolveAll? hm
  refine ⟨(.ofNat t.size, .composite d.name members (t.membersSize members)), ?_, rfl, members,
    resolveAll?_define hd hm, ?_⟩
  · rw [ht, composites_insert]
    rfl
  · rw [membersSize_eq_of_initial (prefix_define hd) hcovers]

/-- The structs in a table are those that were there, and those whose definitions succeeded since. -/
theorem forall₂_built_after (h : t.InStep) {before : List (TypeId × StructSpec)}
    (hb : List.Forall₂ t.Built t.composites before) (ds : List StructSpec) :
    List.Forall₂ (t.after ds).Built (t.after ds).composites (before ++ t.defined ds) := by
  induction ds generalizing t before with
  | nil => rwa [defined, List.append_nil]
  | cons d ds ih =>
    rw [after_cons, defined]
    rcases t.define_cases d with hd | ⟨id, t', hd⟩
    · rw [hd]
      exact ih h hb
    · obtain ⟨c, hc, hbuilt⟩ := composites_define h hd
      have hnow : List.Forall₂ t'.Built t'.composites (before ++ [(id, d)]) := by
        rw [hc]
        exact List.rel_append (hb.imp fun _ _ hold => hold.define h hd) (.cons hbuilt .nil)
      rw [hd]
      have hlater := ih (h.define hd) hnow
      rwa [List.append_assoc] at hlater

theorem isSome_define (t : TypeTable) (d : StructSpec) :
    (t.define d).1.isSome ↔ t.contains d.name = false ∧ ∀ spec ∈ d.members, t.contains spec.typeName = true := by
  rw [← Option.ne_none_iff_isSome, ne_eq, define_eq_none, not_or, Bool.not_eq_true, ← isSome_resolveAll?,
    ← Option.ne_none_iff_isSome]

/-- Whatever structs are defined one after another, the types of the table have different names, and the index has
their positions under the names, cut to 32 bits, and nothing else. Up to that many types the positions are those where
the types are found. Structs are made of types that come before them, so none is made of itself, and they are those
whose definitions succeeded, in this order. One more definition succeeds if its name is new and the types of its members
are there. Then the types that were there stay as they are, with their positions, and otherwise everything does. -/
theorem definitions_sound (ds : List StructSpec) :
    let t := primitive.after ds
    ((t.types.map ShaderType.name).Nodup ∧ t.index.length = t.size ∧
      ∀ name id, t.idOf? name = some id ↔ ∃ i type, t.types[i]? = some type ∧ type.name = name ∧ id = .ofNat i) ∧
    (t.size ≤ UInt32.size → ∀ name id, t.idOf? name = some id ↔ ∃ type, t.get? id = some type ∧ type.name = name) ∧
    (∀ (i : Nat) (type : ShaderType), t.types[i]? = some type → ∀ m ∈ type.members, m.type.toNat < i) ∧
    (∀ i, ¬ Relation.TransGen t.MadeOf i i) ∧
    List.Forall₂ t.Built t.composites (primitive.defined ds) ∧
    ∀ d : StructSpec,
      ((t.define d).1.isSome ↔ t.contains d.name = false ∧ ∀ spec ∈ d.members, t.contains spec.typeName = true) ∧
      (∀ id, (t.define d).1 = some id → id = .ofNat t.size ∧
        (∀ i < t.size, (t.define d).2.types[i]? = t.types[i]?) ∧
        ∀ name old, t.idOf? name = some old → (t.define d).2.idOf? name = some old) ∧
      ((t.define d).1 = none → (t.define d).2 = t) := by
  intro t
  have hdefined : t.Defined := Defined.initial.after ds
  have hstep : t.InStep := hdefined.inStep
  have hprimitive : List.Forall₂ primitive.Built primitive.composites [] := by
    have hnone : primitive.composites = [] := by decide
    rw [hnone]
    exact .nil
  refine ⟨⟨hstep.distinct, hstep.length, hstep.entered⟩, fun hsize name id => hstep.idOf?_iff_get? hsize,
    fun _ _ => hdefined.members_lt, hdefined.not_madeOf_self,
    forall₂_built_after inStep_primitive hprimitive ds, fun d => ⟨isSome_define t d, fun id hid => ?_, define_of_none⟩⟩
  have hd : t.define d = (some id, (t.define d).2) := Prod.ext hid rfl
  obtain ⟨-, -, -, hposition, -⟩ := define_eq_some.1 hd
  refine ⟨hposition, fun i hi => ?_, fun name old hold => idOf?_define hd hold⟩
  obtain ⟨more, hmore⟩ := prefix_define hd
  rw [← hmore, List.getElem?_append_left hi]

/-- A name that is taken and a type that is not there yet: the second and the third definition are passed over. -/
example :
    let a : StructSpec := ⟨"A", [⟨"float", "x", none, 3⟩]⟩
    let c : StructSpec := ⟨"C", [⟨"A", "a", some "TAG", 1⟩]⟩
    primitive.defined [a, ⟨"A", []⟩, ⟨"B", [⟨"A", "a", none, 1⟩, ⟨"C", "c", none, 1⟩]⟩, c] = [(23, a), (24, c)] := by
  decide

end ShaderBuild.TypeTable
