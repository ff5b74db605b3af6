import ShaderBuild.Proofs.Grammar
import ShaderBuild.Proofs.Values
/-!
# Manifests as they are written

The source form of a manifest: shaders with their stages and the statements about each of them, down to the
name that a stage goes by and the way that a value is written. What can be said of a part alone is carried by
its structure: stages go by one of their names and have a file, no stage of a shader is described twice, no two
shaders have the same name.

Every manifest that is written has the properties collected in `WellFormed`, and every manifest that has them
can be written (`exists_listing`), with its stages in any order and under any of their names.
-/

namespace ShaderBuild

namespace Written

open Token

/-! ## Words -/

theorem isSingle_equals : isSingle '=' = true := by decide

def equals : Word := sign '=' isSingle_equals

/-- A text is a name. -/
def IsName (text : String) : Prop := isIdentifier text = true ∧ Kind.ofWord text = .identifier

instance {text : String} : Decidable (IsName text) := inferInstanceAs (Decidable (_ ∧ _))

theorem Name.isName (n : Name) : IsName n.text := ⟨n.identifier, n.free⟩

/-- A word that is recognized by its text, but is no keyword. -/
def fixed (text : String) (h : IsName text) : Word := Name.word ⟨text, h.1, h.2⟩

/-! ## Statements and stages -/

/-- A statement about a stage. -/
inductive Statement where
  | file (value : Value)
  | entryPoint (value : Value)
  | define (name : Name) (value : Option Value)

namespace Statement

/-- The words of a statement before the semicolon. -/
def phrase : Statement → List Word
  | file value => [fixed "file" (by decide), equals, value.word]
  | entryPoint value => [fixed "entrypoint" (by decide), equals, value.word]
  | define name value => fixed "define" (by decide) :: name.word :: optional (fun v => [equals, v.word]) value

def words (st : Statement) : List Word := st.phrase ++ [semicolon]

/-- What a statement says, after what was said before. -/
def apply (source : StageSource) : Statement → StageSource
  | file value => { source with file := ⟨value.text⟩ }
  | entryPoint value => { source with entryPoint := value.text }
  | define name value => { source with macros := source.macros ++ [⟨name.text, (value.map Value.text).getD ""⟩] }

/-- All values in a statement are string literals. -/
def IsLiteral : Statement → Prop
  | file value => value.IsLiteral
  | entryPoint value => value.IsLiteral
  | define _ value => ∀ v ∈ value, v.IsLiteral

end Statement

/-- The source that some statements describe. -/
def sourceOf (ss : List Statement) : StageSource := ss.foldl Statement.apply {}

/-- A stage of a shader. -/
structure StageBlock where
  stage : Stage
  /-- One of the names of the stage. -/
  name : Name
  named : Stage.ofName? name.text = some stage
  statements : List Statement
  file : (sourceOf statements).isAbsent = false

namespace StageBlock

def source (b : StageBlock) : StageSource := sourceOf b.statements

def words (b : StageBlock) : List Word :=
  fixed "stage" (by decide) :: b.name.word :: blockOpen :: (b.statements.flatMap Statement.words ++ [blockClose])

/-- A unit with the source of the stage. -/
def addTo (unit : ShaderUnit) (b : StageBlock) : ShaderUnit := unit.set b.stage b.source

def head (b : StageBlock) : String × Stage := (b.name.text, b.stage)

end StageBlock

/-! ## Shaders -/

/-- A shader. -/
structure ShaderBlock where
  name : Name
  stages : List StageBlock
  distinct : (stages.map StageBlock.stage).Nodup
  /-- A semicolon stands at the end. -/
  closed : Bool

namespace ShaderBlock

def words (b : ShaderBlock) : List Word :=
  fixed "shader" (by decide) :: b.name.word :: blockOpen ::
    (b.stages.flatMap StageBlock.words ++ [blockClose] ++ if b.closed then [semicolon] else [])

/-- The unit that is described. -/
def unit (b : ShaderBlock) : ShaderUnit := b.stages.foldl StageBlock.addTo .empty

/-- The name and the unit. -/
def shader (b : ShaderBlock) : String × ShaderUnit := (b.name.text, b.unit)

end ShaderBlock

/-- A manifest as it is written. -/
structure Listing where
  blocks : List ShaderBlock
  distinct : (blocks.map fun b => b.name.text).Nodup

namespace Listing

def words (l : Listing) : List Word := l.blocks.flatMap ShaderBlock.words

/-- The shaders that are listed. -/
def shaders (l : Listing) : List (String × ShaderUnit) := l.blocks.map ShaderBlock.shader

/-- The stages of each shader in the order in which they are written, with the names that they go by. -/
def heads (l : Listing) : List (List (String × Stage)) := l.blocks.map fun b => b.stages.map StageBlock.head

/-- All values are string literals. -/
def IsLiteral (l : Listing) : Prop := ∀ b ∈ l.blocks, ∀ s ∈ b.stages, ∀ st ∈ s.statements, st.IsLiteral

end Listing

/-! ## What is written is well-formed -/

/-- A source whose parts can be written. -/
structure Clean (s : StageSource) : Prop where
  file : Plain s.file.text
  entryPoint : Plain s.entryPoint
  macros : ∀ m ∈ s.macros, IsName m.name ∧ Plain m.value

/-- The source of a stage that can be written. It has a file. -/
structure Writable (s : StageSource) : Prop extends Clean s where
  present : s.file.text ≠ ""

end Written

open Written

/-- The shaders of a manifest, without the lines that they stand on. -/
def Manifest.shaders (m : Manifest) : List (String × ShaderUnit) := m.entries.map fun e => (e.name, e.unit)

/-- A manifest that can be written. -/
structure Manifest.WellFormed (m : Manifest) : Prop where
  named : ∀ e ∈ m.entries, IsName e.name
  distinct : (m.entries.map ManifestEntry.name).Nodup
  /-- A stage is absent, with nothing said about it, or it has a file. -/
  stages : ∀ e ∈ m.entries, ∀ stage, e.unit.get stage = {} ∨ Writable (e.unit.get stage)

namespace Written

open Token

theorem plain_empty : Plain "" := ⟨Comment.free_nil, by decide⟩

theorem Clean.apply {s : StageSource} (h : Clean s) (st : Statement) : Clean (st.apply s) := by
  cases st with
  | file value => exact ⟨value.plain, h.entryPoint, h.macros⟩
  | entryPoint value => exact ⟨h.file, value.plain, h.macros⟩
  | define name value =>
    refine ⟨h.file, h.entryPoint, fun m hm => ?_⟩
    rcases List.mem_append.1 hm with hm | hm
    · exact h.macros m hm
    · obtain rfl := List.mem_singleton.1 hm
      refine ⟨name.isName, ?_⟩
      cases value with
      | none => exact plain_empty
      | some value => exact value.plain

theorem clean_sourceOf (ss : List Statement) : Clean (sourceOf ss) := by
  have all : ∀ (s : StageSource), Clean s → Clean (ss.foldl Statement.apply s) := by
    induction ss with
    | nil => exact fun s h => h
    | cons st ss ih => exact fun s h => ih _ (h.apply st)
  exact all {} ⟨plain_empty, plain_empty, fun m hm => nomatch hm⟩

theorem StageBlock.writable (b : StageBlock) : Writable b.source :=
  ⟨clean_sourceOf b.statements, beq_eq_false_iff_ne.1 b.file⟩

/-- A stage has what its block says, or what was there before. -/
theorem get_foldl_addTo (bs : List StageBlock) (u : ShaderUnit) (stage : Stage) :
    (bs.foldl StageBlock.addTo u).get stage = u.get stage ∨
      ∃ b ∈ bs, b.stage = stage ∧ (bs.foldl StageBlock.addTo u).get stage = b.source := by
  induction bs generalizing u with
  | nil => exact .inl rfl
  | cons b bs ih =>
    rcases ih (b.addTo u) with h | ⟨c, hc, hs, h⟩
    · rw [List.foldl_cons, h, StageBlock.addTo, PerStage.get_set]
      split
      · next he => exact .inr ⟨b, List.mem_cons_self, he.symm, rfl⟩
      · exact .inl rfl
    · exact .inr ⟨c, List.mem_cons_of_mem _ hc, hs, h⟩

theorem get_foldl_addTo_of_not_mem {bs : List StageBlock} (u : ShaderUnit) {stage : Stage}
    (h : stage ∉ bs.map StageBlock.stage) : (bs.foldl StageBlock.addTo u).get stage = u.get stage := by
  rcases get_foldl_addTo bs u stage with hs | ⟨b, hb, hs, -⟩
  · exact hs
  · exact absurd (hs ▸ List.mem_map_of_mem hb) h

theorem get_foldl_addTo_of_mem {bs : List StageBlock} (hn : (bs.map StageBlock.stage).Nodup) (u : ShaderUnit)
    {b : StageBlock} (h : b ∈ bs) : (bs.foldl StageBlock.addTo u).get b.stage = b.source := by
  induction bs generalizing u with
  | nil => cases h
  | cons c bs ih =>
    obtain ⟨hc, hn⟩ := List.nodup_cons.1 hn
    rcases List.mem_cons.1 h with rfl | h
    · rw [List.foldl_cons, get_foldl_addTo_of_not_mem _ hc, StageBlock.addTo, PerStage.get_set, if_pos rfl]
    · exact ih hn _ h

theorem ShaderBlock.unit_get (b : ShaderBlock) (stage : Stage) :
    b.unit.get stage = {} ∨ Writable (b.unit.get stage) := by
  rcases get_foldl_addTo b.stages .empty stage with h | ⟨c, -, -, h⟩
  · left
    rw [ShaderBlock.unit, h, ShaderUnit.empty, PerStage.get_replicate]
  · right
    rw [ShaderBlock.unit, h]
    exact c.writable

theorem names_of_shaders {bs : List ShaderBlock} {m : Manifest} (h : bs.map ShaderBlock.shader = m.shaders) :
    bs.map (fun b => b.name.text) = m.entries.map ManifestEntry.name := by
  have hfst := congrArg (List.map Prod.fst) h
  simpa [Manifest.shaders, ShaderBlock.shader, Function.comp_def] using hfst

/-- What is listed is well-formed. -/
theorem Listing.wellFormed {l : Listing} {m : Manifest} (h : l.shaders = m.shaders) : m.WellFormed := by
  have listed : ∀ e ∈ m.entries, ∃ b ∈ l.blocks, b.shader = (e.name, e.unit) := by
    intro e he
    have hm : (e.name, e.unit) ∈ l.shaders := h ▸ List.mem_map_of_mem he
    exact List.mem_map.1 hm
  refine ⟨fun e he => ?_, ?_, fun e he stage => ?_⟩
  · obtain ⟨b, -, hb⟩ := listed e he
    obtain ⟨hname, -⟩ := Prod.mk.inj hb
    rw [← hname]
    exact b.name.isName
  · rw [← names_of_shaders h]
    exact l.distinct
  · obtain ⟨b, -, hb⟩ := listed e he
    obtain ⟨-, hunit⟩ := Prod.mk.inj hb
    rw [← hunit]
    exact b.unit_get stage

/-! ## What is well-formed can be written -/

theorem isName_of_ofName? {name : String} {stage : Stage} (h : Stage.ofName? name = some stage) : IsName name := by
  simp only [Stage.ofName?] at h
  split at h
  · next hn => subst hn; decide
  · split at h
    · next hn => rcases hn with rfl | rfl <;> decide
    · split at h
      · next hn => rcases hn with rfl | rfl <;> decide
      · split at h
        · next hn => subst hn; decide
        · split at h
          · next hn => subst hn; decide
          · cases h

/-- Macros are defined one after the other. -/
theorem exists_defines {macros : List Macro} (h : ∀ m ∈ macros, IsName m.name ∧ Plain m.value) :
    ∃ ss : List Statement, (∀ st ∈ ss, st.IsLiteral) ∧
      ∀ s : StageSource, ss.foldl Statement.apply s = { s with macros := s.macros ++ macros } := by
  induction macros with
  | nil => exact ⟨[], fun st hst => (nomatch hst), fun s => by rw [List.append_nil]; rfl⟩
  | cons m macros ih =>
    obtain ⟨hname, hvalue⟩ := h m List.mem_cons_self
    obtain ⟨ss, hss, hfold⟩ := ih fun m hm => h m (List.mem_cons_of_mem _ hm)
    refine ⟨.define ⟨m.name, hname.1, hname.2⟩ (some (.literal m.value hvalue)) :: ss, fun st hst => ?_, fun s => ?_⟩
    · rcases List.mem_cons.1 hst with rfl | hst
      · rintro v hv
        obtain rfl := Option.some.inj hv
        trivial
      · exact hss st hst
    · rw [List.foldl_cons, hfold, Statement.apply]
      simp [Value.text]

/-- A stage is written with one of its names. -/
theorem exists_stageBlock {name : String} {stage : Stage} (hn : Stage.ofName? name = some stage) {source : StageSource}
    (hw : Writable source) :
    ∃ b : StageBlock, b.head = (name, stage) ∧ b.source = source ∧ ∀ st ∈ b.statements, st.IsLiteral := by
  have hname := isName_of_ofName? hn
  obtain ⟨defines, hliteral, hfold⟩ := exists_defines hw.macros
  have hsource : sourceOf (.file (.literal source.file.text hw.file) ::
      .entryPoint (.literal source.entryPoint hw.entryPoint) :: defines) = source := by
    rw [sourceOf, List.foldl_cons, List.foldl_cons, hfold]
    simp [Statement.apply, Value.text]
  refine ⟨⟨stage, ⟨name, hname.1, hname.2⟩, hn, _, ?_⟩, rfl, hsource, fun st hst => ?_⟩
  · rw [hsource]
    exact beq_eq_false_iff_ne.2 hw.present
  · rcases List.mem_cons.1 hst with rfl | hst
    · trivial
    · rcases List.mem_cons.1 hst with rfl | hst
      · trivial
      · exact hliteral st hst

theorem exists_stageBlocks {unit : ShaderUnit} {heads : List (String × Stage)}
    (h : ∀ hd ∈ heads, Stage.ofName? hd.1 = some hd.2 ∧ Writable (unit.get hd.2)) :
    ∃ bs : List StageBlock, bs.map StageBlock.head = heads ∧ (∀ b ∈ bs, b.source = unit.get b.stage) ∧
      ∀ b ∈ bs, ∀ st ∈ b.statements, st.IsLiteral := by
  induction heads with
  | nil => exact ⟨[], rfl, fun b hb => (nomatch hb), fun b hb => nomatch hb⟩
  | cons hd heads ih =>
    obtain ⟨name, stage⟩ := hd
    obtain ⟨hn, hw⟩ := h _ List.mem_cons_self
    obtain ⟨b, hb, hs, hl⟩ := exists_stageBlock hn hw
    obtain ⟨bs, hbs, hss, hls⟩ := ih fun hd hm => h hd (List.mem_cons_of_mem _ hm)
    obtain ⟨-, rfl⟩ := Prod.mk.inj hb
    refine ⟨b :: bs, by rw [List.map_cons, hb, hbs], fun c hc => ?_, fun c hc => ?_⟩
    · rcases List.mem_cons.1 hc with rfl | hc
      · exact hs
      · exact hss c hc
    · rcases List.mem_cons.1 hc with rfl | hc
      · exact hl
      · exact hls c hc

/-- The stages of a unit in some order, each with one of its names. -/
structure Heads (unit : ShaderUnit) (heads : List (String × Stage)) : Prop where
  named : ∀ hd ∈ heads, Stage.ofName? hd.1 = some hd.2
  all : (heads.map Prod.snd).Perm (unit.present.map Prod.fst)

theorem mem_present {unit : ShaderUnit} {stage : Stage} :
    stage ∈ unit.present.map Prod.fst ↔ (unit.get stage).isAbsent = false := by
  simp [ShaderUnit.present, PerStage.toList, Stage.mem_all]

theorem nodup_present (unit : ShaderUnit) : (unit.present.map Prod.fst).Nodup := by
  have hall : (unit.toList.map Prod.fst).Nodup := by
    rw [PerStage.toList, List.map_map]
    exact (by decide : (Stage.all.map id).Nodup)
  exact hall.sublist (List.filter_sublist.map _)

theorem PerStage.ext_get {α : Type} {p q : PerStage α} (h : ∀ stage, p.get stage = q.get stage) : p = q := by
  obtain ⟨v, hl, d, g, x⟩ := p
  obtain ⟨v', hl', d', g', x'⟩ := q
  obtain rfl : v = v' := h .vertex
  obtain rfl : hl = hl' := h .hull
  obtain rfl : d = d' := h .domain
  obtain rfl : g = g' := h .geometry
  obtain rfl : x = x' := h .pixel
  rfl

theorem exists_shaderBlock {name : String} (hname : IsName name) {unit : ShaderUnit}
    (hu : ∀ stage, unit.get stage = {} ∨ Writable (unit.get stage)) {heads : List (String × Stage)}
    (hh : Heads unit heads) :
    ∃ b : ShaderBlock, b.shader = (name, unit) ∧ b.stages.map StageBlock.head = heads ∧
      ∀ s ∈ b.stages, ∀ st ∈ s.statements, st.IsLiteral := by
  have hwritable : ∀ hd ∈ heads, Stage.ofName? hd.1 = some hd.2 ∧ Writable (unit.get hd.2) := by
    intro hd hm
    have hp := mem_present.1 (hh.all.subset (List.mem_map_of_mem hm))
    refine ⟨hh.named hd hm, (hu hd.2).resolve_left fun he => ?_⟩
    rw [he] at hp
    exact absurd hp (by decide)
  obtain ⟨bs, hbs, hs, hl⟩ := exists_stageBlocks hwritable
  have hstages : bs.map StageBlock.stage = heads.map Prod.snd := by
    rw [← hbs, List.map_map]
    rfl
  have hn : (bs.map StageBlock.stage).Nodup := hstages ▸ hh.all.nodup_iff.2 (nodup_present unit)
  refine ⟨⟨⟨name, hname.1, hname.2⟩, bs, hn, false⟩, congrArg (name, ·) (PerStage.ext_get fun stage => ?_), hbs, hl⟩
  show (bs.foldl StageBlock.addTo .empty).get stage = _
  by_cases hm : stage ∈ bs.map StageBlock.stage
  · obtain ⟨b, hb, rfl⟩ := List.mem_map.1 hm
    rw [get_foldl_addTo_of_mem hn _ hb, hs b hb]
  · -- A stage that is not listed is absent, so nothing is said about it.
    rw [get_foldl_addTo_of_not_mem _ hm, ShaderUnit.empty, PerStage.get_replicate]
    refine ((hu stage).resolve_right fun hw => hm ?_).symm
    rw [hstages, hh.all.mem_iff, mem_present]
    exact beq_eq_false_iff_ne.2 hw.present

/-- A well-formed manifest can be written with its stages in any order, under any of their names, and with all
values as string literals. -/
theorem exists_listing {m : Manifest} (hm : m.WellFormed) {heads : List (List (String × Stage))}
    (hh : List.Forall₂ (fun e => Heads e.unit) m.entries heads) :
    ∃ l : Listing, l.shaders = m.shaders ∧ l.heads = heads ∧ l.IsLiteral := by
  obtain ⟨hnamed, hdistinct, hstages⟩ := hm
  have blocks : ∃ bs : List ShaderBlock, bs.map ShaderBlock.shader = m.shaders ∧
      bs.map (fun b => b.stages.map StageBlock.head) = heads ∧
      ∀ b ∈ bs, ∀ s ∈ b.stages, ∀ st ∈ s.statements, st.IsLiteral := by
    rw [Manifest.shaders]
    generalize m.entries = entries at hnamed hstages hh
    clear hdistinct
    induction hh with
    | nil => exact ⟨[], rfl, rfl, fun b hb => nomatch hb⟩
    | @cons e hd entries heads he _ ih =>
      obtain ⟨b, hb, hheads, hl⟩ := exists_shaderBlock (hnamed e List.mem_cons_self) (hstages e List.mem_cons_self) he
      obtain ⟨bs, hbs, hhs, hls⟩ := ih (fun e he => hnamed e (List.mem_cons_of_mem _ he))
        fun e he => hstages e (List.mem_cons_of_mem _ he)
      refine ⟨b :: bs, by rw [List.map_cons, hb, hbs]; rfl, by rw [List.map_cons, hheads, hhs], fun c hc => ?_⟩
      rcases List.mem_cons.1 hc with rfl | hc
      · exact hl
      · exact hls c hc
  obtain ⟨bs, hbs, hheads, hl⟩ := blocks
  exact ⟨⟨bs, names_of_shaders hbs ▸ hdistinct⟩, hbs, hheads, hl⟩

end Written

end ShaderBuild
