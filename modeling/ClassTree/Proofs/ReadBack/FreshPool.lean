/-
# ClassTree.Proofs.ReadBack.FreshPool — classes that survive a fresh pool

A class that has been read from a file is written without its layout: the pool is built anew, so
every index may change, and tables and attributes come in an order of their own. Read again, it is
the same class (`Class.exists_ofBytes_of_toBytes_bare`): equal but for the layouts, the names of its
labels included.

That calls for a class that is proper and canonical, that is, one which says everything in the way
in which it is written, and for instructions that keep their lengths. Labels are named in the order
in which they are asked for by the handlers, the instructions, the variables and the frames, and all
of those come back in their order and at their offsets.
-/
import Mathlib
import ClassTree.Proofs.ReadBack.FreshMember

namespace ClassTree

open Decoding Encoding Encoder
open AnnotationUse (VisibleFirst)
open ModifiedUtf8 (stored)

variable {P : Pool} {t : Table}

/-! ## Classes in the way in which they are written -/

/-- A class that says everything in the way in which it is written: a class or a name that may be
missing is not empty instead, and annotations come in order. -/
structure Class.IsCanonical (c : Class) : Prop where
  super : c.super ≠ some []
  innerClasses : ∀ i ∈ c.innerClasses, i.outer ≠ some [] ∧ i.name ≠ some []
  annotations : VisibleFirst c.annotations
  fields : ∀ f ∈ c.fields, VisibleFirst f.annotations
  methods : ∀ m ∈ c.methods, m.IsCanonical

/-- A class that is written without its layout has instructions as long as those in the file that it
has been read from. -/
def Class.KeepsLengths (c : Class) (file : Bytes) : Prop :=
  ∀ written P, (classFile false c.bare).run (Pool.seeded [] []) = .ok (written, P) →
    ∀ k m t r outline, c.methods[k]? = some m → c.HasCodeAt file k t r outline → r.KeepsLengths P m

/-! ## Written classes can be read -/

/-- Attributes about parameters that have been read once at most cover no more parameters than there
are. -/
theorem Method.HasParameters.covers {m : Method} (h : m.HasParameters) :
    ∃ types, Descriptor.arguments m.descriptor = .ok types ∧
      m.Covers m.visibleCount (Encoding.isAnnotated true) types.length ∧
        m.Covers m.invisibleCount (Encoding.isAnnotated false) types.length ∧
          m.Covers m.parameterCount Encoding.isNamed types.length := by
  obtain ⟨types, s, htypes, -, hwithin, htables⟩ := h
  have hlength := htables.length_parameters hwithin
  have hkept {α : Type} {things : Option α} {size : α → Nat} {tells : α → Bool} {given : Option Int}
      (hgiven : given = things.bind fun a => ParameterTables.keptCount types.length (size a) (tells a))
      (hsize : ∀ a ∈ things, size a ≤ types.length) :
      given.getD m.parameters.length ≤ (types.length : Int) := by
    rw [hgiven, hlength]
    cases things with
    | none => exact Int.le_refl _
    | some a =>
      have hle := hsize a rfl
      rw [Option.bind_some, ParameterTables.keptCount]
      split
      · exact Int.le_refl _
      · exact Int.ofNat_le.2 hle
  have hannotations (visible : Bool) :
      m.Covers (m.annotationCount visible) (Encoding.isAnnotated visible) types.length :=
    fun _ => hkept (htables.annotationCount visible) fun lists hlists =>
      (hwithin.annotations visible lists hlists).length_le
  exact ⟨types, htypes, hannotations true, hannotations false,
    fun _ => hkept htables.nameCount hwithin.names⟩

namespace Encoding

/-- A method without a layout can be read again if it has been read before: its code is legible in
any layout that the writer may choose for it, and its attributes about parameters cover the
parameters that they covered. -/
theorem isReadable_bare {m : Method} (hsound : m.IsSound) (hproper : m.IsProper) (hdrawn : m.IsDrawn)
    (htold : m.IsTold) (hcanonical : m.IsCanonical) (hkept : m.IsKeptIn P) : IsReadable P m.bare where
  isSound := { hsound with }
  isTagged := { hproper.isTagged with }
  body layout hfixed := by
    cases hcode : m.hasCode with
    | true =>
      obtain ⟨_, code, layout', hsame⟩ := hkept hcode
      obtain ⟨seen, l, hin⟩ := hsame.kept
      obtain ⟨hbody, -⟩ := Method.eq_of_code? hsame.code?
      have hfixed' : Fixed P (Layout.of m.body) layout' := hbody ▸ hin.fixed
      obtain rfl : layout' = layout := hfixed'.unique hfixed
      have hlegible := hin.legibleIn
      rwa [← hbody] at hlegible
    | false =>
      have hnone (i : Item) (hi : i ∈ m.body) : False := by
        rw [Method.hasCode_of_mem hi] at hcode
        cases hcode
      have hnowhere {position : Nat} {i : Item} (hat : m.body[position]? = some i) : False :=
        hnone i (List.mem_of_getElem? hat)
      exact {
        switches := fun i hi => (hnone _ hi).elim
        targets := fun i hi => (hnone _ hi).elim
        conditionals := fun position i hat => (hnowhere hat).elim
        lines := fun position n hat => (hnowhere hat).elim
        frames := fun position f hat => (hnowhere hat).elim }
  parameters := by
    obtain ⟨types, htypes, hcovers⟩ := (htold.parameters hcanonical.attributes).covers
    refine ⟨types, ?_, hcovers⟩
    rw [show m.bare.descriptor = m.descriptor from rfl, hdrawn.descriptor.stored_eq]
    exact htypes
  attributes := htold.raw
  codeAttributes hcode := by
    obtain ⟨_, _, _, hsame⟩ := hkept hcode
    exact hsame.raw

/-! ## Written classes are read back -/

variable {c : Class} {written : Bytes}

/-- The visible annotations of a class stand in front of the others. -/
theorem areSplit_classPieces (hraw : ∀ a ∈ c.attributes, a.name ∉ AttributeName.ofClass)
    (bootstrap : Bool) :
    AreSplit AttributeName.annotations (classPieces c bootstrap) := by
  have hfront : AreNamedIn [AttributeName.sourceFile, AttributeName.innerClasses,
      AttributeName.enclosingMethod, AttributeName.signature]
      (pieceOf? AttributeName.sourceFile (fun t => index (Pool.addUtf8 t)) c.sourceFile ++
        pieceIf (!c.innerClasses.isEmpty) AttributeName.innerClasses (listOf innerClass c.innerClasses) ++
        pieceOf? AttributeName.enclosingMethod enclosingMethod c.enclosing ++
        signaturePiece c.signature) :=
    (((AreNamedIn.pieceOf? (by decide)).append (.pieceIf (by decide))).append
      (.pieceOf? (by decide))).append
      (.pieceOf? (by decide))
  have hbehind : AreNamedIn [AttributeName.bootstrapMethods]
      (pieceIf bootstrap AttributeName.bootstrapMethods bootstrapTable) := .pieceIf (by decide)
  exact (((AreSplit.annotationPieces c.annotations).append_left (hfront.ne (by decide))).append_right
    (ne_of_mem_rawPieces hraw (by decide))).append_right (hbehind.ne (by decide))

/-- The method around a class is stored as it is if it has a descriptor only with a name. -/
theorem storedEnclosing_eq {e : EnclosingMethod} (hdrawn : e.IsDrawn)
    (htold : e.name = none → e.descriptor = none) : storedEnclosing e = e := by
  obtain ⟨owner, name, descriptor⟩ := e
  unfold storedEnclosing
  rw [Text.map_stored_eq hdrawn.owner]
  cases name with
  | none =>
    have hnone : descriptor = none := htold rfl
    rw [hnone]
    rfl
  | some name =>
    obtain ⟨hname, descriptor', hdescriptor, hstorable⟩ := hdrawn.member name rfl
    dsimp only at hdescriptor
    rw [hdescriptor, Option.map_some, Option.bind_some, Option.map_some, hname.stored_eq,
      hstorable.stored_eq]

section

variable (hproper : c.IsProper) (hsound : c.IsSound) (hdrawn : c.IsDrawn) (htold : c.IsTold)
  (hcanonical : c.IsCanonical) (w : Written false c.bare written)
  (hkept : ∀ m ∈ c.methods, m.IsKeptIn w.pool)
include hproper hsound hdrawn htold hcanonical hkept

/-- A class without its layout can be read. -/
theorem isReadable_bareClass : c.bare.IsReadable w.pool where
  isTagged := {
    annotations := fun a ha => (hproper.annotations a ha).isTagged
    fields := fun f hf a ha => by
      obtain ⟨f', hf', rfl⟩ := List.mem_map.1 hf
      exact ((hproper.fields f' hf').annotations a ha).isTagged
    methods := fun m hm => by
      obtain ⟨m', hm', rfl⟩ := List.mem_map.1 hm
      exact { (hproper.methods m' hm').isTagged with } }
  fields f hf := by
    obtain ⟨f', hf', rfl⟩ := List.mem_map.1 hf
    exact (htold.fields f' hf').raw
  methods m hm := by
    obtain ⟨m', hm', rfl⟩ := List.mem_map.1 hm
    exact isReadable_bare (hsound.methods m' hm') (hproper.methods m' hm') (hdrawn.methods.2 m' hm')
      (htold.methods m' hm') (hcanonical.methods m' hm') (hkept m' hm')
  attributes := htold.raw
  name := hproper.name
  version := htold.version

omit hsound hdrawn hcanonical in
theorem isClear_bareClass : c.bare.IsClear where
  annotations a ha := (hproper.annotations a ha).isTagged
  raw := htold.raw
  fields f hf := by
    obtain ⟨f', hf', rfl⟩ := List.mem_map.1 hf
    exact ⟨fun a ha => ((hproper.fields f' hf').annotations a ha).isTagged, (htold.fields f' hf').raw⟩
  methods m hm := by
    obtain ⟨m', hm', rfl⟩ := List.mem_map.1 hm
    exact isClear_bare (hproper.methods m' hm') (htold.methods m' hm') (hkept m' hm')

omit hsound in
/-- A class without its layout is read back as it is. -/
theorem bare_eq_of_ofBytes {r : Class} (h : Class.ofBytes written = .ok r) : r.bare = c.bare := by
  have hseed : Pool.IsSeed c.bare.layout.pool := .inl rfl
  have hclear := isClear_bareClass hproper htold w hkept
  obtain ⟨hformed, -⟩ := w.wellFormed hseed
  have ht : Backs stored w.fullTable w.pool := w.backs hseed _
  have hsites : HasSites w.fullTable w.pool := fun method k hk => hformed.getElem?_of_bootstrapIndex hk
  have hshort : ∀ m ∈ c.bare.methods, ∀ i, .instruction i ∈ m.body → LoadsShort w.pool i := by
    intro m hm i hi
    obtain ⟨m', hm', rfl⟩ := List.mem_map.1 hm
    obtain ⟨_, _, _, hsame⟩ := hkept m' hm' (Method.hasCode_of_mem hi)
    exact hsame.loadsShort i hi
  -- without hints the class is read back as the pool spells it; being drawn and canonical, it is
  -- spelled as it was
  have hback := w.isReadBackAs hseed hclear hshort h
  have hbootstrap : ∀ a ∈ c.bare.attributes, a.name ≠ AttributeName.bootstrapMethods := fun a ha hname =>
    htold.raw a ha (hname ▸ by decide)
  obtain ⟨fs, ms, as, hfs, hms, hwrites, hall⟩ := w.exists_isReadBy hseed hbootstrap h
  have hhead := headOf_eq_of_readAll hall
  have hfields : r.fields.map Field.bare = c.fields.map Field.bare := by
    rw [show r.fields = fs from congrArg Class.fields hhead, ← List.forall₂_eq_eq_eq,
      List.forall₂_map_left_iff, List.forall₂_map_right_iff]
    have hshown := (List.forall₂_map_left_iff).1 hfs
    have hboth := (List.forall₂_and_left _ _).2 ⟨fun f hf => hf, hshown⟩
    exact hboth.flip.imp fun f' f ⟨hf, o, hshows, hread⟩ =>
      bare_eq_of_isReadAsField ht (hproper.fields f hf)
      (hdrawn.fields.2 f hf) (htold.fields f hf) (hcanonical.fields f hf) hshows hread
  have hmethods : r.methods.map Method.bare = c.methods.map Method.bare := by
    rw [show r.methods = ms from congrArg Class.methods hhead, ← List.forall₂_eq_eq_eq,
      List.forall₂_map_left_iff, List.forall₂_map_right_iff]
    have hshown := (List.forall₂_map_left_iff).1 hms
    have hboth := (List.forall₂_and_left _ _).2 ⟨fun m hm => hm, hshown⟩
    exact hboth.flip.imp fun m' m ⟨hm, o, hshows, hread⟩ => bare_eq_of_isReadAsMethod ht hsites
      (hproper.methods m hm) (hdrawn.methods.2 m hm) (htold.methods m hm) (hcanonical.methods m hm)
      (hkept m hm) hshows hread
  have hannotations : r.annotations = c.annotations := by
    refine hcanonical.annotations.eq_of_stored ?_ hproper.annotations hdrawn.annotations htold.annotations
      hback.annotations
    refine visibleFirst_of_readPieces annotates_class isPlain_annotations ?_ hwrites hall rfl
    exact areSplit_classPieces (c := c.bare) htold.raw _
  have hattributes : r.attributes = c.attributes := by
    have hraw := keepsRaw_readClassAttribute.eq_map (arePiecesAround_classPieces (c := c.bare) htold.raw)
      hwrites hall rfl
    exact hraw.trans (Attribute.map_mapName_eq hdrawn.attributes)
  have hname : r.name = c.name := hback.name.trans hdrawn.name.stored_eq
  have hsuper : r.super = c.super := hback.super.trans (storedName_eq hdrawn.super hcanonical.super)
  have hinterfaces : r.interfaces = c.interfaces := by
    refine hback.interfaces.trans ((List.map_congr_left fun i hi => ?_).trans (List.map_id _))
    exact Text.map_stored_eq (hdrawn.interfaces.2 i hi)
  have hsignature : r.signature = c.signature :=
    hback.signature.trans (Text.map_stored_eq hdrawn.signature)
  have hsourceFile : r.sourceFile = c.sourceFile :=
    hback.sourceFile.trans (Text.map_stored_eq hdrawn.sourceFile)
  have hinner : r.innerClasses = c.innerClasses := by
    refine hback.innerClasses.trans ((List.map_congr_left fun i hi => ?_).trans (List.map_id _))
    obtain ⟨houter, hname⟩ := hcanonical.innerClasses i hi
    exact storedInner_eq (hdrawn.innerClasses i hi) houter hname
  have henclosing : r.enclosing = c.enclosing := by
    have hvalue : r.enclosing = c.enclosing.map storedEnclosing := hback.enclosing
    cases he : c.enclosing with
    | none => rw [hvalue, he, Option.map_none]
    | some e =>
      have hsame := storedEnclosing_eq (hdrawn.enclosing e he) (htold.enclosing e he)
      rw [hvalue, he, Option.map_some, hsame]
  have haccess : r.access = c.access := hback.access
  have hmajor : r.major = c.major := hback.major
  have hminor : r.minor = c.minor := hback.minor
  unfold Class.bare
  rw [hfields, hmethods]
  cases r
  cases c
  simp_all

end

end Encoding

/-! ## The theorem -/

/-- Whether a class is proper is no matter of its layout. -/
theorem Class.IsProper.of_bare_eq {c c' : Class} (hproper : c.IsProper) (h : c.bare = c'.bare) :
    c'.IsProper := by
  obtain ⟨fields, methods, layout, rfl, hfields, hmethods⟩ := Class.exists_of_bare_eq h
  refine { hproper with fields := fun f' hf' => ?_, methods := fun m' hm' => ?_ }
  · obtain ⟨f, hf, hbare⟩ := Result.exists_of_mem_right hfields hf'
    obtain ⟨order, rfl⟩ := Field.exists_of_bare_eq hbare
    exact { hproper.fields f hf with }
  · obtain ⟨m, hm, hbare⟩ := Result.exists_of_mem_right hmethods hm'
    obtain ⟨layout, rfl⟩ := Method.exists_of_bare_eq hbare
    exact { hproper.methods m hm with }

/-- A proper class equals each class that is the same without its layout. -/
theorem Class.IsProper.same_of_bare_eq {c c' : Class} (hproper : c.IsProper) (h : c'.bare = c.bare) :
    c'.same c = true := by
  rw [Class.same_of_bare_eq h, ← Class.same_bare_right]
  exact (hproper.of_bare_eq h.symm).same_bare

/-- A class that has been read survives a fresh pool: written without its layout, it is read again
as the same class, with the same labels. The constants stand at other indices then, so instructions
that load them may take more or fewer bytes; the offsets of the code move with them, and labels are
told apart by the order in which offsets are met, which stays the same as long as the lengths in the
code do (`KeepsLengths`). -/
theorem Class.exists_ofBytes_of_toBytes_bare {file written : Bytes} {c : Class}
    (hread : Class.ofBytes file = .ok c) (hproper : c.IsProper) (hcanonical : c.IsCanonical)
    (hwrite : c.bare.toBytes false = .ok written) (hlengths : c.KeepsLengths file) :
    ∃ c', Class.ofBytes written = .ok c' ∧ c'.bare = c.bare ∧ c'.same c = true := by
  obtain ⟨w⟩ := written_of_toBytes hwrite
  have hsound := Class.isSound_of_ofBytes hread
  obtain ⟨hdrawn, -⟩ := Class.isDrawn_of_ofBytes hread
  have htold := Class.isTold_of_ofBytes hread
  have hkept : ∀ m ∈ c.methods, m.IsKeptIn w.pool := by
    intro m hm hcode
    obtain ⟨k, hk⟩ := List.mem_iff_getElem?.1 hm
    exact Class.exists_isKept hread hk hcode fun t r outline hat =>
      hlengths written w.pool w.run k m t r outline hk hat
  obtain ⟨c', hc'⟩ := w.exists_ofBytes (.inl rfl)
    (isReadable_bareClass hproper hsound hdrawn htold hcanonical w hkept)
  have hbare := bare_eq_of_ofBytes hproper hdrawn htold hcanonical w hkept hc'
  exact ⟨c', hc', hbare, hproper.same_of_bare_eq hbare⟩

/-! ## Tables in no order, written afresh -/

/-- The class file that is written for the class with tables in no order if its layout is left out:
there is one line table. -/
def afreshFile : Bytes := shuffledFile.take 123 ++
  [90, 0, 0, 0, 2, 0, 0, 0, 2, 0, 177, 0, 0, 0, 3, 0, 6, 0, 0, 0, 14, 0, 3, 0, 0, 0, 10, 0, 0, 0, 11,
    0, 1, 0, 12, 0, 7, 0, 0, 0, 22, 0, 2, 0, 0, 0, 0, 0, 3, 0, 3, 0, 0, 0, 0, 0, 0, 0, 3, 0, 3, 0, 1,
    0, 8, 0, 0, 0, 22, 0, 2, 0, 0, 0, 0, 0, 3, 0, 3, 0, 0, 0, 0, 0, 0, 0, 3, 0, 3, 0, 1, 0, 0]

theorem toBytes_bare_shuffledClass : shuffledClass.bare.toBytes false = .ok afreshFile := by
  have hrun : ∃ P, (classFile false shuffledClass.bare).run (Pool.seeded [] []) = .ok (afreshFile, P) :=
    ⟨_, by cbv⟩
  obtain ⟨P, hrun⟩ := hrun
  exact toBytes_eq_ok hrun

/-- Everything in the class is there that has to be. -/
theorem isProper_shuffledClass : shuffledClass.IsProper where
  name := by decide
  interfaces := nofun
  fields := nofun
  methods m hm := by
    obtain rfl := List.mem_singleton.1 hm
    exact {
      name := by decide
      exceptions := nofun
      parameters := nofun
      items := by simp [shuffledMethod, Item.IsProper, Instruction.IsProper]
      annotations := nofun
      default := nofun
      attributes := nofun }
  annotations := nofun
  innerClasses := nofun
  enclosing := nofun
  attributes := nofun

theorem isCanonical_shuffledClass : shuffledClass.IsCanonical where
  super := nofun
  innerClasses := nofun
  annotations := .nil
  fields := nofun
  methods m hm := by
    obtain rfl := List.mem_singleton.1 hm
    exact {
      handlers := nofun
      fields := by simp [shuffledMethod, Instruction.NamesFields]
      annotations := .nil
      parameters := nofun
      attributes := by decide }

/-- The instructions in the file are one byte long each. -/
theorem lengths_of_hasCodeAt_shuffledFile {k : Nat} {t : Table} {r : RawCode} {outline : CodeOutline}
    (h : shuffledClass.HasCodeAt shuffledFile k t r outline) : r.lengths = [1, 1] := by
  obtain ⟨o, member, a, ho, hparts, hmember, ha, hholds⟩ := h.parts
  obtain ⟨O, hO, hcode⟩ : ∃ O, Outline.ofBytes shuffledFile = .ok O ∧ O.methods.map (fun member =>
      (member.attributes.filter fun a => a.name = AttributeName.code).getLast?.map Attribute.data) =
        [some ((shuffledFile.drop 124).take 98)] := ⟨_, by cbv, by cbv⟩
  obtain rfl : o = O := Except.ok.inj (ho.symm.trans hO)
  have hdata : a.data = (shuffledFile.drop 124).take 98 := by
    have hmem := List.mem_map_of_mem (f := fun member : MemberOutline =>
      (member.attributes.filter fun a =>
      a.name = AttributeName.code).getLast?.map Attribute.data) (List.mem_of_getElem? hmember)
    rw [hcode, ha] at hmem
    exact Option.some.inj (List.mem_singleton.1 hmem)
  obtain ⟨k, hread, -⟩ := whole_eq_ok_iff.1 hholds.whole
  obtain ⟨-, hlength, -, -, ⟨k', hinstructions⟩, -⟩ := (readRawCode_eq_ok_iff t).1 hread
  rw [hdata] at hlength hinstructions
  have htwo : r.length = 2 := (congrArg Prod.fst (Except.ok.inj hlength)).symm
  rw [htwo] at hinstructions
  have hcodes : r.instructions = [(0, .plain .nop), (1, .plain .return_)] :=
    (congrArg Prod.fst (Except.ok.inj hinstructions)).symm
  unfold RawCode.lengths
  rw [htwo, hcodes]
  rfl

theorem keepsLengths_shuffledClass : shuffledClass.KeepsLengths shuffledFile := by
  intro written P _ k m t r outline hm hat
  obtain rfl := List.mem_singleton.1 (List.mem_of_getElem? hm)
  obtain ⟨layout, hfixed, hlengths⟩ := keepsLengths_shuffledCode P
  refine ⟨layout, hfixed, hlengths.trans ?_⟩
  rw [lengths_of_hasCodeAt_shuffledFile hat]
  rfl

/-- The class survives. -/
theorem exists_ofBytes_afreshFile : Class.ofBytes shuffledFile = .ok shuffledClass ∧
    shuffledClass.IsProper ∧ shuffledClass.IsCanonical ∧
    shuffledClass.bare.toBytes false = .ok afreshFile ∧ shuffledClass.KeepsLengths shuffledFile ∧
    ∃ c', Class.ofBytes afreshFile = .ok c' ∧ c'.bare = shuffledClass.bare ∧
    c'.same shuffledClass = true :=
  ⟨Class.ofBytes_shuffledFile, isProper_shuffledClass, isCanonical_shuffledClass,
    toBytes_bare_shuffledClass,
    keepsLengths_shuffledClass, Class.exists_ofBytes_of_toBytes_bare Class.ofBytes_shuffledFile
      isProper_shuffledClass isCanonical_shuffledClass toBytes_bare_shuffledClass
      keepsLengths_shuffledClass⟩

end ClassTree
