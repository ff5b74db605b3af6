import ShaderBuild.Proofs.Appending
import ShaderBuild.Proofs.Tables
/-!
# Reports are consistent

Whatever source is read, its report stands on its own (`report_consistent`): all types in it are known, structs
come after those that they are made of, and sizes add up. The parts of an interface are put together at different
times, while its table of types grows. So what holds of an interface (`Interface.Sound`) is shown for one
declaration (`sound_add`), given what its reader yields (`yields_startingWith`), and then for all of them
(`sound_extend`).
-/

namespace ShaderBuild

open Token Reader Text

/-! ## Registers -/

/-- A register of some banks. -/
def Register.Within (banks : String) (r : Register) : Prop :=
  r.bank ∈ banks.toList ∧ r.slot ≤ Declaration.maxSlot

/-- The letter of a bank, and a slot that is written in decimal digits without zeros before it. -/
def IsRegister (banks text : String) : Prop :=
  ∃ bank slot, text.toList = bank :: slot ∧ bank ∈ banks.toList ∧
    (decimalUpTo? Declaration.maxSlot slot).isSome = true ∧ (slot.head? = some '0' → slot = ['0'])

theorem isRegister_text {banks : String} {r : Register} (h : r.Within banks) : IsRegister banks r.text := by
  refine ⟨r.bank, Nat.toDigits 10 r.slot, ?_, h.1, ?_, Written.Numeral.toDigits_of_head?⟩
  · rw [Register.text, String.toList_append, String.toList_singleton, Nat.repr, String.toList_ofList]
    rfl
  · rw [Written.Numeral.decimalUpTo?_toDigits h.2]
    rfl

/-! ## What readers yield -/

namespace Token.Reader

variable {α β : Type} {P : α → Prop} {Q : β → Prop} {r : Reader α}

/-- Whatever a reader yields has some property. -/
def Yields (P : α → Prop) (r : Reader α) : Prop := ∀ s a s', r s = .ok (a, s') → P a

theorem Yields.bind {f : α → Reader β} (hr : Yields P r) (hf : ∀ a, P a → Yields Q (f a)) : Yields Q (r >>= f) := by
  intro s b s' h
  obtain ⟨a, t, h1, h2⟩ := bind_eq_ok h
  exact hf a (hr s a t h1) t b s' h2

theorem yields_bind {f : α → Reader β} (hf : ∀ a, Yields Q (f a)) : Yields Q (r >>= f) := by
  intro s b s' h
  obtain ⟨a, t, -, h2⟩ := bind_eq_ok h
  exact hf a t b s' h2

theorem yields_pure {a : α} (h : P a) : Yields P (pure a : Reader α) := by
  intro s b s' hb
  have hb : (Except.ok (a, s) : Except Error (α × Stream)) = .ok (b, s') := hb
  obtain ⟨rfl, -⟩ := Prod.mk.inj (Except.ok.inj hb)
  exact h

theorem yields_throw (e : Error) : Yields P (throw e : Reader α) :=
  fun _ a s' h => nomatch (show (Except.error e : Except Error (α × Stream)) = .ok (a, s') from h)

theorem yields_liftM {x : Except Error α} (h : ∀ a, x = .ok a → P a) : Yields P (liftM x : Reader α) := by
  cases x with
  | error e => exact yields_throw e
  | ok a => exact yields_pure (h a rfl)

theorem Yields.after (kind : Kind) (hr : Yields P r) : Yields (fun o => ∀ a ∈ o, P a) (after kind r) := by
  refine yields_bind fun found => ?_
  split
  · rw [map_eq_pure_bind]
    exact hr.bind fun a ha => yields_pure fun b hb => Option.some.inj hb ▸ ha
  · exact yields_pure nofun

theorem Yields.separated (separator : Kind) (hr : Yields P r) (h : Consumes r) :
    Yields (fun as => ∀ a ∈ as, P a) (Reader.separated separator r h) := by
  intro s
  fun_induction Reader.separated separator r h s with
  | case1 =>
    intro as s' he
    cases he
  | case2 s a t ht hs ih =>
    intro as s' he
    cases hrest : Reader.separated separator r h t.tail with
    | error e =>
      rw [hrest] at he
      cases he
    | ok p =>
      rw [hrest] at he
      obtain ⟨rfl, -⟩ := Prod.mk.inj (Except.ok.inj he)
      exact List.forall_mem_cons.2 ⟨hr s a t ht, ih p.1 p.2 hrest⟩
  | case3 s a t ht hs =>
    intro as s' he
    obtain ⟨rfl, -⟩ := Prod.mk.inj (Except.ok.inj he)
    exact List.forall_mem_singleton.2 (hr s a t ht)

end Token.Reader

/-! ## What is declared -/

namespace Declaration

variable {types : TypeTable}

/-- The registers of a declaration are of its banks, and what it has of types is in the table. -/
def Apt (types : TypeTable) : Declaration → Prop
  | .constants _ _ register _ => ∀ r ∈ register, r.Within bufferBanks
  | .resource r => ∀ s ∈ r.register, s.Within resourceBanks
  | .function f => types.Covers f.parameters ∧ ∀ id ∈ f.returnType, id.toNat < types.size
  | _ => True

theorem registerOf_within {banks : String} {t : Token} {r : Register} (h : registerOf banks t = .ok r) :
    r.Within banks := by
  unfold registerOf at h
  split at h
  · cases h
  · split at h
    · next hbank =>
      split at h
      · cases h
      · next slot hslot =>
        obtain rfl := Except.ok.inj h
        exact ⟨List.contains_iff_mem.1 hbank, of_decide_eq_true (Option.filter_eq_some_iff.1 hslot).2⟩
    · cases h

theorem yields_register (banks : String) : Yields (fun o => ∀ r ∈ o, r.Within banks) (register banks) :=
  Yields.after _ <| yields_bind fun _ => yields_bind fun _ => yields_bind fun _ =>
    (yields_liftM fun _ h => registerOf_within h).bind fun _ hr => yields_bind fun _ => yields_pure hr

theorem yields_parameter (h : types.InStep) :
    Yields (fun o => ∀ m ∈ o, m.type.toNat < types.size) (parameter types) := by
  refine yields_bind fun _ => yields_bind fun _ => yields_bind fun t => ?_
  split
  · exact yields_bind fun _ => yields_pure nofun
  · refine yields_bind fun spec => ?_
    split
    · exact yields_throw _
    · next m hm => exact yields_pure fun m' hm' => Option.some.inj hm' ▸ h.resolve?_lt hm

theorem yields_parameters (h : types.InStep) : Yields types.Covers (parameters types) := by
  have hnone : types.Covers [] := by simp [TypeTable.Covers]
  refine yields_bind fun _ => yields_bind fun _ => ?_
  split
  · exact yields_pure hnone
  · refine yields_bind fun _ => ?_
    split
    · exact yields_bind fun _ => yields_bind fun _ => yields_pure hnone
    · refine ((yields_parameter h).separated _ _).bind fun found hf => yields_bind fun _ => yields_pure ?_
      intro m hm
      obtain ⟨o, ho, he⟩ := List.mem_filterMap.1 hm
      exact hf o ho m he

theorem returnType_lt (h : types.InStep) {t : Token} {returned : Option TypeId}
    (hr : returnType types t = .ok returned) : ∀ id ∈ returned, id.toNat < types.size := by
  unfold returnType at hr
  split at hr
  · obtain rfl := Except.ok.inj hr
    exact nofun
  · split at hr
    · cases hr
    · next id hid =>
      obtain rfl := Except.ok.inj hr
      exact fun id' he => Option.some.inj he ▸ h.idOf?_lt hid

theorem yields_functionAfter (h : types.InStep) (type : Token) : Yields (Apt types) (functionAfter types type) := by
  refine (yields_liftM fun _ hr => returnType_lt h hr).bind fun returned hr => yields_bind fun _ => yields_bind fun _ => ?_
  split
  · exact (yields_parameters h).bind fun _ hp => yields_bind fun _ => yields_bind fun _ => yields_pure ⟨hp, hr⟩
  · exact yields_bind fun _ => yields_pure trivial

theorem yields_unknownAfter (types : TypeTable) (line : UInt32) : Yields (Apt types) (unknownAfter line) := by
  refine yields_bind fun arg => ?_
  cases arg with
  | none => exact yields_pure trivial
  | some _ => exact yields_bind fun _ => yields_pure trivial

/-- What the declaration that starts with a token yields. -/
theorem yields_startingWith (h : types.InStep) (first : Token) : Yields (Apt types) (startingWith types first) := by
  unfold startingWith
  split
  · exact yields_bind fun _ => yields_bind fun _ => yields_bind fun _ => yields_pure trivial
  · exact yields_bind fun _ => (yields_register _).bind fun _ hr => yields_bind fun _ => yields_bind fun _ =>
      yields_pure hr
  · split
    · exact yields_bind fun _ => yields_bind fun _ => yields_bind fun _ => (yields_register _).bind fun _ hr =>
        yields_bind fun _ => yields_pure hr
    · split
      · exact yields_functionAfter h first
      · exact yields_unknownAfter types _
  · exact yields_pure trivial

end Declaration

/-! ## Interfaces -/

namespace Interface

open Declaration Written

/-- What the members of a constant buffer have to do with its size, and its register with its banks. -/
structure SoundBuffer (types : TypeTable) (b : ConstantBuffer) : Prop where
  covers : types.Covers b.members
  size : b.size = types.membersSize b.members
  register : ∀ r ∈ b.register, r.Within bufferBanks

/-- The types of an interface were defined one after the other, all other parts refer to them, and each kind is
in the order of its names. -/
structure Sound (i : Interface) : Prop where
  types : i.types.Defined
  buffers : ∀ b ∈ i.constantBuffers, SoundBuffer i.types b
  resources : ∀ r ∈ i.resources, Apt i.types (.resource r)
  functions : ∀ f ∈ i.functions, Apt i.types (.function f)
  buffersSorted : i.constantBuffers.Pairwise fun a b => a.name < b.name
  resourcesSorted : i.resources.Pairwise fun a b => a.name < b.name
  functionsSorted : i.functions.Pairwise fun a b => a.name < b.name

theorem sound_empty : empty.Sound :=
  ⟨.initial, nofun, nofun, nofun, .nil, .nil, .nil⟩

/-! ### One declaration -/

theorem forall_mem_addFirst {α : Type} {name : α → String} {P : α → Prop} {a : α} {kept : List α} (ha : P a)
    (h : ∀ b ∈ kept, P b) : ∀ b ∈ addFirst name a kept, P b := by
  intro b hb
  unfold addFirst at hb
  split at hb
  · exact h b hb
  · exact (SortedList.mem_insert.1 hb).elim (fun he => he ▸ ha) (h b)

theorem sorted_addFirst {α : Type} {name : α → String} (a : α) {kept : List α}
    (h : kept.Pairwise fun a b => name a < name b) :
    (addFirst name a kept).Pairwise fun a b => name a < name b := by
  have hfirsts : Firsts name kept kept := ⟨fun _ => rfl, h⟩
  exact (hfirsts.add a).sorted

theorem SoundBuffer.mono {t t' : TypeTable} {b : ConstantBuffer} (h : SoundBuffer t b) (hg : t.types <+: t'.types) :
    SoundBuffer t' b :=
  ⟨h.covers.mono hg, h.size.trans (TypeTable.membersSize_eq_of_initial hg h.covers).symm, h.register⟩

/-- A new type leaves what was there as it is. -/
theorem Sound.define {i : Interface} (h : i.Sound) {d : StructSpec} {id : TypeId} {types : TypeTable}
    (hd : i.types.define d = (some id, types)) : Sound { i with types } :=
  have hgrows := TypeTable.prefix_define hd
  { h with
    types := .define h.types hd
    buffers := fun b hb => (h.buffers b hb).mono hgrows
    resources := fun r hr => h.resources r hr
    functions := fun f hf =>
      ⟨(h.functions f hf).1.mono hgrows, fun id hid => Nat.lt_of_lt_of_le ((h.functions f hf).2 id hid) hgrows.length_le⟩ }

/-- An interface stays sound as a declaration is added. -/
theorem sound_add {i j : Interface} {d : Declaration} {ws : List Warning} (h : i.Sound) (hd : d.Apt i.types)
    (ha : i.add d = .ok (j, ws)) : j.Sound := by
  cases d with
  | struct line name specs =>
    simp only [add] at ha
    split at ha
    · cases ha
    · split at ha
      · next id types ht =>
        obtain ⟨rfl, -⟩ := Prod.mk.inj (Except.ok.inj ha)
        exact h.define ht
      · cases ha
  | constants line name register specs =>
    simp only [add] at ha
    split at ha
    · next members hm =>
      rw [addConstantBuffer_eq] at ha
      obtain ⟨rfl, -⟩ := Prod.mk.inj (Except.ok.inj ha)
      exact { h with
        buffers := forall_mem_addFirst ⟨h.types.inStep.covers_of_resolveAll? hm, rfl, hd⟩ h.buffers
        buffersSorted := sorted_addFirst _ h.buffersSorted }
    · cases ha
  | resource r =>
    rw [add, addResource_eq] at ha
    obtain ⟨rfl, -⟩ := Prod.mk.inj (Except.ok.inj ha)
    exact { h with
      resources := forall_mem_addFirst hd h.resources
      resourcesSorted := sorted_addFirst _ h.resourcesSorted }
  | function f =>
    rw [add, addFunction_eq] at ha
    obtain ⟨rfl, -⟩ := Prod.mk.inj (Except.ok.inj ha)
    exact { h with
      functions := forall_mem_addFirst hd h.functions
      functionsSorted := sorted_addFirst _ h.functionsSorted }
  | other =>
    obtain ⟨rfl, -⟩ := Prod.mk.inj (Except.ok.inj ha)
    exact h

/-! ### All declarations -/

theorem sound_extend (i : Interface) (s : Stream) {j : Interface} (h : i.Sound) (hj : (i.extend s).result = .ok j) :
    j.Sound := by
  -- by induction on the number of tokens, as every declaration takes some of them
  induction hn : s.size using Nat.strongRecOn generalizing i s with
  | _ n ih =>
    subst hn
    obtain ⟨ts, line⟩ := s
    cases ts with
    | nil =>
      rw [Written.extend_nil] at hj
      exact Except.ok.inj hj ▸ h
    | cons first ts =>
      obtain ⟨i', ws, t, hd, hr, -⟩ := declare_of_extend hj
      obtain ⟨d, hread, ha⟩ := declare_eq_ok.1 hd
      have hlt : t.size < Stream.size ⟨first :: ts, line⟩ := Nat.lt_succ_of_le (size_declare hd)
      exact ih t.size hlt i' t (sound_add h (yields_startingWith h.types.inStep _ _ _ _ hread) ha) hr rfl

end Interface

/-! ## Reports -/

namespace Report

/-- A report stands on its own. Every type in it is primitive or one of its structs, and a struct has only members
of structs that come before it. Sizes are those of the parts together, kept in 64 bits. -/
structure Consistent (r : Report) : Prop where
  structs_distinct : (r.structs.map StructReport.name).Nodup
  structs_new : ∀ s ∈ r.structs, ∀ p ∈ TypeTable.primitives, s.name ≠ p.1
  structs_members : ∀ earlier s later, r.structs = earlier ++ s :: later → ∀ m ∈ s.members, m.Fits earlier
  structs_size : ∀ s ∈ r.structs, Kept s.size (MemberReport.total s.members)
  buffers_members : ∀ b ∈ r.constantBuffers, ∀ m ∈ b.members, m.Fits r.structs
  buffers_size : ∀ b ∈ r.constantBuffers, Kept b.size (MemberReport.total b.members)
  parameters : ∀ f ∈ r.functions, ∀ m ∈ f.parameters, m.Fits r.structs
  returnTypes : ∀ f ∈ r.functions, ∀ name ∈ f.returnType, ∃ size, Known r.structs name size
  buffers_sorted : r.constantBuffers.Pairwise fun a b => a.name < b.name
  resources_sorted : r.resources.Pairwise fun a b => a.name < b.name
  functions_sorted : r.functions.Pairwise fun a b => a.name < b.name
  buffers_registers : ∀ b ∈ r.constantBuffers, ∀ text ∈ b.register, IsRegister "bt" text
  resources_registers : ∀ s ∈ r.resources, ∀ text ∈ s.register, IsRegister "tsu" text

theorem isRegister_of_within {banks : String} {register : Option Register} (h : ∀ r ∈ register, r.Within banks) :
    ∀ text ∈ register.map Register.text, IsRegister banks text := by
  intro text ht
  obtain ⟨r, hm, rfl⟩ := Option.map_eq_some_iff.1 ht
  exact isRegister_text (h r hm)

theorem consistent_of_sound {i : Interface} (h : i.Sound) : (ofInterface i).Consistent where
  structs_distinct := TypeTable.ofInterface_structs i ▸ h.types.structs_distinct
  structs_new := TypeTable.ofInterface_structs i ▸ h.types.structs_new
  structs_members := TypeTable.ofInterface_structs i ▸ h.types.structs_members
  structs_size := TypeTable.ofInterface_structs i ▸ h.types.structs_size
  buffers_members := by
    rw [TypeTable.ofInterface_structs]
    exact List.forall_mem_map.2 fun b hb => h.types.fits_all (h.buffers b hb).covers
  buffers_size := List.forall_mem_map.2 fun b hb => by
    rw [ConstantBufferReport.ofBuffer, (h.buffers b hb).size]
    exact TypeTable.kept_membersSize i.types b.members
  parameters := by
    rw [TypeTable.ofInterface_structs]
    exact List.forall_mem_map.2 fun f hf => h.types.fits_all (h.functions f hf).1
  returnTypes := by
    rw [TypeTable.ofInterface_structs]
    refine List.forall_mem_map.2 fun f hf name hn => ?_
    obtain ⟨id, hid, rfl⟩ := Option.map_eq_some_iff.1 hn
    exact ⟨_, h.types.known ((h.functions f hf).2 id hid)⟩
  buffers_sorted := List.pairwise_map.2 h.buffersSorted
  resources_sorted := List.pairwise_map.2 h.resourcesSorted
  functions_sorted := List.pairwise_map.2 h.functionsSorted
  buffers_registers := List.forall_mem_map.2 fun b hb => isRegister_of_within (h.buffers b hb).register
  resources_registers := List.forall_mem_map.2 fun r hr => isRegister_of_within (h.resources r hr)

/-- The report of any source that can be read is consistent: its types are all known, structs come after those
that they are made of, sizes add up as far as 64 bits can hold them, and all but the structs are in the order of their
names. -/
theorem report_consistent (source : String) {i : Interface} (h : (Interface.parse source).result = .ok i) :
    (ofInterface i).Consistent :=
  consistent_of_sound (Interface.sound_extend _ _ Interface.sound_empty h)

/-- A struct inside another one, both of which a constant buffer and a function refer to. -/
theorem report_consistent_nested :
    let source := "struct A \x7b float2 x[3]; \x7d; struct B \x7b A a; int n; \x7d; " ++
      "cbuffer C : register(b0) \x7b B b[2]; \x7d B f(A a); Texture2D t : register(t10);"
    let a : ShaderType := .composite "A" [⟨12, "x", none, 3⟩] 24
    let b : ShaderType := .composite "B" [⟨23, "a", none, 1⟩, ⟨0, "n", none, 1⟩] 28
    let i : Interface :=
      ⟨((TypeTable.primitive.insert a).2.insert b).2, [⟨"C", some ⟨'b', 0⟩, [⟨24, "b", none, 2⟩], 56, 1⟩],
        [⟨"t", .texture2D, none, 1, some ⟨'t', 10⟩, 1⟩], [⟨"f", some 24, none, [⟨23, "a", none, 1⟩], 1⟩]⟩
    (Interface.parse source).result = .ok i ∧ (ofInterface i).Consistent := by
  intro source a b i
  have h : (Interface.parse source).result = .ok i := by decide +kernel
  exact ⟨h, report_consistent source h⟩

end Report

end ShaderBuild
